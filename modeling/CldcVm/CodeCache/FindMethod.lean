import CldcVm.CodeCache.Cache

/-!
# The compiled method at an address

`ObjectHeap::method_contains_instruction_of` goes over the compiler area from its start. It
stops at the first method that does not begin below the address and returns this one. For an
address inside a method that is the method after it, or the top of the area.

Main results:
* `methodContainsInstructionOf_ne`: it is never the method that contains the address.
-/

namespace CldcVm.CodeCache

/-- `while( (p = next) < pc )`: the first method that does not begin below `pc`. -/
def findFrom (objectSize : ℕ → ℕ) (pc : ℕ) : (fuel next : ℕ) → ℕ
  | 0, next => next
  | fuel + 1, next =>
    if next < pc then findFrom objectSize pc fuel (next + objectSize next) else next

/-- `method_contains_instruction_of` (`ObjectHeap.cpp`, lines 4389–4401). A step goes up by one
byte at least, so that no more than `pc - start` steps are made. -/
def methodContainsInstructionOf (area : Area) (pc : ℕ) : Option ℕ :=
  if pc < area.compilerAreaTop ∧ pc > area.compilerAreaStart then
    some (findFrom area.objectSize pc (pc - area.compilerAreaStart) area.compilerAreaStart)
  else none

/-- Compiled methods one after the other from `p` to `e`. -/
def Consecutive (objectSize : ℕ → ℕ) : (p : ℕ) → List ℕ → (e : ℕ) → Prop
  | p, [], e => p = e
  | p, m :: ms, e => m = p ∧ Consecutive objectSize (p + objectSize p) ms e

variable {objectSize : ℕ → ℕ} {p e m pc fuel : ℕ} {ms : List ℕ}

theorem Consecutive.le (h : Consecutive objectSize p ms e) : p ≤ e := by
  induction ms generalizing p with
  | nil => exact h.le
  | cons m ms ih => exact (Nat.le_add_right _ _).trans (ih h.2)

theorem Consecutive.bounds (h : Consecutive objectSize p ms e) (hm : m ∈ ms) :
    p ≤ m ∧ m + objectSize m ≤ e := by
  induction ms generalizing p with
  | nil => exact absurd hm List.not_mem_nil
  | cons m' ms ih =>
    obtain ⟨rfl, hrest⟩ := h
    obtain rfl | hm := List.mem_cons.mp hm
    · exact ⟨le_refl _, hrest.le⟩
    · obtain ⟨hle, hend⟩ := ih hrest hm
      exact ⟨(Nat.le_add_right _ _).trans hle, hend⟩

/-- The walk from a method that begins below the address does not stop before the end of the
one that contains it. -/
theorem findFrom_eq (h : Consecutive objectSize p ms e) (hpos : ∀ q ∈ ms, 0 < objectSize q)
    (hm : m ∈ ms) (hbegin : m < pc) (hend : pc < m + objectSize m) (hfuel : pc ≤ p + fuel) :
    findFrom objectSize pc fuel p = m + objectSize m := by
  induction fuel generalizing p ms with
  | zero =>
    have hle := (h.bounds hm).1
    omega
  | succ fuel ih =>
    have hle := (h.bounds hm).1
    rw [findFrom, if_pos (by omega)]
    match ms, h, hm with
    | m' :: ms, ⟨heq, hrest⟩, hm =>
      subst heq
      have hsize := hpos m' List.mem_cons_self
      obtain rfl | hm := List.mem_cons.mp hm
      · -- The containing method is passed, the next one is not below the address.
        match fuel with
        | 0 => rfl
        | fuel + 1 => rw [findFrom, if_neg (by omega)]
      · exact ih hrest (fun q hq => hpos q (List.mem_cons_of_mem _ hq)) hm (by omega)

variable {area : Area}

/-- **Spec lemma.** For an address inside a method the end of the method is returned. -/
theorem methodContainsInstructionOf_eq
    (h : Consecutive area.objectSize area.compilerAreaStart ms area.compilerAreaTop)
    (hpos : ∀ q ∈ ms, 0 < area.objectSize q) (hm : m ∈ ms) (hbegin : m < pc)
    (hend : pc < m + area.objectSize m) :
    methodContainsInstructionOf area pc = some (m + area.objectSize m) := by
  obtain ⟨hstart, htop⟩ := h.bounds hm
  rw [methodContainsInstructionOf, if_pos ⟨by omega, by omega⟩,
    findFrom_eq h hpos hm hbegin hend (by omega)]

/-- **Main theorem.** The method that contains the address is never returned. -/
theorem methodContainsInstructionOf_ne
    (h : Consecutive area.objectSize area.compilerAreaStart ms area.compilerAreaTop)
    (hpos : ∀ q ∈ ms, 0 < area.objectSize q) (hm : m ∈ ms) (hbegin : m < pc)
    (hend : pc < m + area.objectSize m) : methodContainsInstructionOf area pc ≠ some m := by
  rw [methodContainsInstructionOf_eq h hpos hm hbegin hend]
  have hsize := hpos m hm
  intro heq
  have hval := Option.some_inj.mp heq
  omega

/-- Two methods of 64 bytes, and an address in the first one. -/
theorem methodContainsInstructionOf_ne_first :
    methodContainsInstructionOf ⟨4096, 4224, fun _ => 64⟩ 4100 ≠ some 4096 :=
  @methodContainsInstructionOf_ne 4096 4100 [4096, 4160] ⟨4096, 4224, fun _ => 64⟩
    ⟨rfl, rfl, rfl⟩ (fun _ _ => show 0 < 64 by decide) List.mem_cons_self (by decide) (by decide)

/-- The address 4100 lies in the first method, and the second one is found. -/
theorem methodContainsInstructionOf_neighbour :
    Consecutive (fun _ => 64) 4096 [4096, 4160] 4224 ∧ 4096 < 4100 ∧ 4100 < 4096 + 64 ∧
      methodContainsInstructionOf ⟨4096, 4224, fun _ => 64⟩ 4100 = some 4160 ∧
      methodContainsInstructionOf ⟨4096, 4224, fun _ => 64⟩ 4100 ≠ some 4096 := by
  refine ⟨⟨rfl, rfl, rfl⟩, ?_⟩
  decide +kernel

end CldcVm.CodeCache
