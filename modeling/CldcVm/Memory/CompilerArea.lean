import CldcVm.Lib.Blocks
import Mathlib.Algebra.BigOperators.Intervals
import Mathlib.Tactic.IntervalCases

/-!
# The compiler area slides

Model of `compact_and_move_compiler_area` and what it calls (`memory/ObjectHeap.cpp`, lines
4200–4387 and 4493–4594). The class word of a compiled method takes the distance that the method
has to go while handles, frames and the patched method are updated. Then the methods are moved:
those that go up from the last one of them down, the others from there on up.

Addresses, distances and sizes count words of four bytes, program counters count bytes. Tracing,
profiling, trampolines and thumb entries are left out.

Results:
* `compactAndMoveCompilerArea_packed`: the cached methods are packed from the new start on.
-/

namespace CldcVm.Memory.CompilerArea

open Lib
open Function (update update_eq_self update_of_ne update_self)

/-- A frame of a Java stack: an entry frame, an interpreted one, or a compiled one with the
compiled method that `compiled_method` finds for it. -/
inductive Frame where
  | entry
  | interpreted
  | compiled (compiledMethod pc : ℤ)

/-- The heap and `CompiledMethodCache`, as far as they are read. -/
structure State where
  mem : ℤ → ℤ
  /-- `CompiledMethodCache::Map`. -/
  map : ℕ → ℤ
  /-- The index of the last entry, `-1` for an empty cache. -/
  upb : ℤ
  /-- `CompiledMethodCache::size`. -/
  size : ℤ
  patchedMethod : Option ℤ
  /-- `handle->obj()` of every handle. -/
  handles : List ℤ
  /-- The frames of every thread, from the top to its first entry frame. -/
  threads : List (List Frame)
  /-- `execution_entry` of the method at an address. -/
  executionEntry : ℤ → ℤ
  compilerAreaStart : ℤ
  compilerAreaTop : ℤ
  savedCompilerAreaTop : Option ℤ
  inlineAllocationEnd : ℤ

/-- `upb + 1`. -/
def State.count (s : State) : ℕ := (s.upb + 1).toNat

/-- `header_size`: the class, the flags with the size, and the method. -/
def headerSize : ℤ := 3

/-- `code_size` of the word with the flags, in bytes: its 21 low bits. -/
def codeSize (flagsAndSize : ℤ) : ℤ := flagsAndSize % 2 ^ 21

/-- `object_size`. -/
def objectSize (flagsAndSize : ℤ) : ℤ := headerSize + (codeSize flagsAndSize + 3) / 4

section Model

/- `update_relative_offsets`, which depends on the processor: from the distance, the words of a
method and an index, the word that it has there afterwards. -/
variable (relocate : ℤ → (ℤ → ℤ) → ℤ → ℤ)

/-- The words of a compiled method. -/
def wordsOf (mem : ℤ → ℤ) (p : ℤ) : ℤ → ℤ := fun i =>
  if 0 ≤ i ∧ i < objectSize (mem (p + 1)) then mem (p + i) else 0

/-- `p->update_relative_offsets(delta)`: the code of the method changes. -/
def updateRelativeOffsets (delta p : ℤ) (mem : ℤ → ℤ) : ℤ → ℤ := fun a =>
  if p + headerSize ≤ a ∧ a < p + objectSize (mem (p + 1)) then
    relocate delta (wordsOf mem p) (a - p)
  else mem a

/-- The variables of `compiler_area_compute_new_locations`, and what it changes. -/
structure Locations where
  dst : ℤ
  lastMovingUp : ℤ
  mem : ℤ → ℤ
  executionEntry : ℤ → ℤ

/-- The body of its loop. -/
def computeStep (map : ℕ → ℤ) (l : Locations) (i : ℕ) : Locations :=
  let p := map i
  let delta := l.dst - p
  let mem :=
    if delta ≠ 0 ∧ codeSize (l.mem (p + 1)) > 0 then updateRelativeOffsets relocate delta p l.mem
    else l.mem
  let method := mem (p + 2)
  { dst := l.dst + objectSize (mem (p + 1))
    lastMovingUp := if delta > 0 then i else l.lastMovingUp
    -- The distance is stored in the class word.
    mem := Function.update mem p delta
    executionEntry :=
      if delta ≠ 0 ∧ p = l.executionEntry method - headerSize then
        Function.update l.executionEntry method (l.dst + headerSize)
      else l.executionEntry }

/-- `compiler_area_compute_new_locations`. -/
def computeNewLocations (s : State) (dst : ℤ) : Locations :=
  (List.range s.count).foldl (computeStep relocate s.map) ⟨dst, -1, s.mem, s.executionEntry⟩

/-- `compiler_area_contains`. -/
def State.contains (s : State) (p : ℤ) : Bool := s.compilerAreaStart ≤ p && p < s.compilerAreaTop

/-- `p` with the distance that its class word has. -/
def moved (s : State) (p : ℤ) : ℤ := p + s.mem p

/-- A return address is updated. -/
def updateFrame (s : State) : Frame → Frame
  | .compiled compiledMethod pc =>
    .compiled compiledMethod (if s.contains compiledMethod then pc + 4 * s.mem compiledMethod else pc)
  | frame => frame

/-- `compiler_area_update_pointers`. -/
def updatePointers (s : State) : State :=
  { s with
    handles := s.handles.map fun p => if s.contains p then moved s p else p
    threads := s.threads.map fun frames => frames.map (updateFrame s) }

/-- What moving a method changes. -/
structure Code where
  mem : ℤ → ℤ
  map : ℕ → ℤ

/-- `compiler_area_move_compiled_method`. -/
def moveCompiledMethod (dst src : ℤ) (index : ℕ) (c : Code) : Code where
  map := Function.update c.map index dst
  mem := memmove c.mem dst src (objectSize (c.mem (src + 1)))

/- `compiled_method_class`. -/
variable (compiledMethodClass : ℤ)

/-- The body of the loop over the methods that go up. -/
def moveUp (c : Code) (i : ℕ) : Code :=
  let src := c.map i
  let dst := src + c.mem src
  let c := moveCompiledMethod dst src i c
  { c with mem := Function.update c.mem dst compiledMethodClass }

/-- The body of the loop over the others. -/
def moveDown (c : Code) (i : ℕ) : Code :=
  let src := c.map i
  let dst := src + c.mem src
  let c := if src ≠ dst then moveCompiledMethod dst src i c else c
  { c with mem := Function.update c.mem dst compiledMethodClass }

/-- `compiler_area_compact`. -/
def compact (lastMovingUp : ℤ) (s : State) : State :=
  let up := (lastMovingUp + 1).toNat
  let c : Code := ⟨s.mem, s.map⟩
  let c := (List.range up).reverse.foldl (moveUp compiledMethodClass) c
  let c := (List.range' up (s.count - up)).foldl (moveDown compiledMethodClass) c
  { s with
    patchedMethod := s.patchedMethod.map (moved s)
    mem := c.mem
    map := c.map }

/-- `compact_and_move_compiler_area`. It stops if a temporary object is above the methods. -/
def compactAndMoveCompilerArea (compilerAreaShift : ℤ) (s : State) : Option State :=
  if ∀ top ∈ s.savedCompilerAreaTop, top = s.compilerAreaTop then
    let start := s.compilerAreaStart + compilerAreaShift
    let s :=
      if s.compilerAreaStart ≠ s.compilerAreaTop then
        let l := computeNewLocations relocate s start
        compact compiledMethodClass l.lastMovingUp
          (updatePointers { s with
            mem := l.mem
            executionEntry := l.executionEntry })
      else s
    let top := start + s.size
    some { s with
      compilerAreaStart := start
      compilerAreaTop := top
      savedCompilerAreaTop := s.savedCompilerAreaTop.map fun _ => top
      inlineAllocationEnd := if s.inlineAllocationEnd > start then start else s.inlineAllocationEnd }
  else none

end Model

/-! ## The methods and their places -/

/-- `object_size` of the method of an entry. -/
def State.sizeOf (s : State) (i : ℕ) : ℤ := objectSize (s.mem (s.map i + 1))

/-- Where the method of an entry belongs, in a packing from `start` on. -/
def State.placeOf (s : State) (start : ℤ) (i : ℕ) : ℤ := start + ∑ j ∈ Finset.range i, s.sizeOf j

/-- The compiler area and the cache: the methods lie in the order of the cache, with gaps where
others have been evicted, and what refers into the area refers to one of them. -/
structure Consistent (s : State) : Prop where
  sorted : ∀ i j, i < j → j < s.count → s.map i + s.sizeOf i ≤ s.map j
  within : ∀ i < s.count, s.compilerAreaStart ≤ s.map i ∧
    s.map i + s.sizeOf i ≤ s.compilerAreaTop
  size : s.size = ∑ i ∈ Finset.range s.count, s.sizeOf i
  patched : ∀ p ∈ s.patchedMethod, ∃ i < s.count, p = s.map i
  handles : ∀ p ∈ s.handles, s.contains p = true → ∃ i < s.count, p = s.map i
  frames : ∀ frames ∈ s.threads, ∀ p pc, Frame.compiled p pc ∈ frames → s.contains p = true →
    ∃ i < s.count, p = s.map i
  saved : ∀ top ∈ s.savedCompilerAreaTop, top = s.compilerAreaTop

section Places

variable {relocate : ℤ → (ℤ → ℤ) → ℤ → ℤ} {s : State} {start : ℤ} {i j k : ℕ} {a w : ℤ}
  {l : Locations}

theorem headerSize_le_objectSize (flagsAndSize : ℤ) : headerSize ≤ objectSize flagsAndSize := by
  unfold objectSize codeSize
  omega

theorem sizeOf_ge (s : State) (i : ℕ) : 3 ≤ s.sizeOf i := headerSize_le_objectSize _

theorem placeOf_succ (s : State) (start : ℤ) (i : ℕ) :
    s.placeOf start (i + 1) = s.placeOf start i + s.sizeOf i := by
  rw [State.placeOf, Finset.sum_range_succ, ← add_assoc, State.placeOf]

theorem placeOf_add_le (s : State) (start : ℤ) (hij : i < j) :
    s.placeOf start i + s.sizeOf i ≤ s.placeOf start j := by
  induction j, hij using Nat.le_induction with
  | base => exact (placeOf_succ s start i).ge
  | succ j hij ih =>
    have hsize := sizeOf_ge s j
    rw [placeOf_succ]
    omega

/-- The later a method comes, the less it goes up: the gaps before it close. -/
theorem Consistent.delta_le (h : Consistent s) (hij : i ≤ j) (hj : j < s.count) :
    s.placeOf start j - s.map j ≤ s.placeOf start i - s.map i := by
  induction j, hij using Nat.le_induction with
  | base => exact le_rfl
  | succ j hij ih =>
    have hsorted := h.sorted j (j + 1) j.lt_succ_self hj
    have hle := ih (by omega)
    rw [placeOf_succ]
    omega

/-! ## The distances -/

/-- A word of the method of an entry when its distance has been stored. -/
def State.located (relocate : ℤ → (ℤ → ℤ) → ℤ → ℤ) (s : State) (start : ℤ) (i : ℕ) (w : ℤ) : ℤ :=
  if w = 0 then s.placeOf start i - s.map i
  else if s.placeOf start i - s.map i ≠ 0 ∧ headerSize ≤ w then
    relocate (s.placeOf start i - s.map i) (wordsOf s.mem (s.map i)) w
  else s.mem (s.map i + w)

/-- The code changes only if there is code, and a method that stays is left alone. -/
theorem relocated_apply (mem : ℤ → ℤ) (p delta a : ℤ) :
    (if delta ≠ 0 ∧ codeSize (mem (p + 1)) > 0 then updateRelativeOffsets relocate delta p mem
      else mem) a =
      if delta ≠ 0 ∧ p + headerSize ≤ a ∧ a < p + objectSize (mem (p + 1)) then
        relocate delta (wordsOf mem p) (a - p)
      else mem a := by
  by_cases hdelta : delta ≠ 0
  · by_cases hcode : codeSize (mem (p + 1)) > 0
    · rw [if_pos ⟨hdelta, hcode⟩, updateRelativeOffsets]
      simp only [hdelta, ne_eq, not_false_eq_true, true_and]
    · have hempty : ¬(p + headerSize ≤ a ∧ a < p + objectSize (mem (p + 1))) := by
        have hnonneg : 0 ≤ codeSize (mem (p + 1)) := Int.emod_nonneg _ (by decide)
        unfold objectSize
        omega
      rw [if_neg fun hand => hcode hand.2, if_neg fun hand => hempty hand.2]
  · rw [if_neg fun hand => hdelta hand.1, if_neg fun hand => hdelta hand.1]

/-- The first `k` methods have got their distances. -/
structure Located (relocate : ℤ → (ℤ → ℤ) → ℤ → ℤ) (s : State) (start : ℤ) (k : ℕ)
    (l : Locations) : Prop where
  dst : l.dst = s.placeOf start k
  words : ∀ i < k, ∀ w, 0 ≤ w → w < s.sizeOf i →
    l.mem (s.map i + w) = s.located relocate start i w
  frame : ∀ a, (∀ i < k, a < s.map i ∨ s.map i + s.sizeOf i ≤ a) → l.mem a = s.mem a
  up : ∀ i < k, s.map i < s.placeOf start i → (i : ℤ) ≤ l.lastMovingUp
  last : l.lastMovingUp = -1 ∨ ∃ i < k, l.lastMovingUp = i ∧ s.map i < s.placeOf start i

/-- **Step lemma.** A method gets its distance, and its code is relocated. -/
theorem Located.step (h : Consistent s) (hk : k < s.count) (hl : Located relocate s start k l) :
    Located relocate s start (k + 1) (computeStep relocate s.map l k) := by
  have hsize := sizeOf_ge s k
  -- The methods before do not reach this one.
  have hbefore : ∀ i < k, s.map i + s.sizeOf i ≤ s.map k := fun i hi => h.sorted i k hi hk
  have hsame : ∀ w, 0 ≤ w → l.mem (s.map k + w) = s.mem (s.map k + w) := fun w hw =>
    hl.frame _ fun i hi => .inr (by have := hbefore i hi; omega)
  have hflags : objectSize (l.mem (s.map k + 1)) = s.sizeOf k := by
    rw [hsame 1 (by decide)]
    rfl
  have hwords : wordsOf l.mem (s.map k) = wordsOf s.mem (s.map k) := by
    funext w
    unfold wordsOf
    rw [hsame 1 (by decide)]
    by_cases hw : 0 ≤ w
    · rw [hsame w hw]
    · rw [if_neg fun hand => hw hand.1, if_neg fun hand => hw hand.1]
  have hreloc := fun a => @relocated_apply relocate l.mem (s.map k) (l.dst - s.map k) a
  rw [hflags, hwords, hl.dst] at hreloc
  unfold computeStep
  simp only [hl.dst]
  generalize (if s.placeOf start k - s.map k ≠ 0 ∧ codeSize (l.mem (s.map k + 1)) > 0 then
    updateRelativeOffsets relocate (s.placeOf start k - s.map k) (s.map k) l.mem else l.mem) = mem
    at hreloc ⊢
  refine ⟨?_, fun i hi w hw hwi => ?_, fun a ha => ?_, fun i hi hup => ?_, ?_⟩
  · rw [placeOf_succ, hreloc, if_neg fun hand => absurd hand.2.1 (by unfold headerSize; omega),
      hflags]
  · show update mem (s.map k) (s.placeOf start k - s.map k) (s.map i + w) = _
    by_cases hik : i = k
    · subst hik
      by_cases hzero : w = 0
      · rw [hzero, add_zero, update_self, State.located, if_pos rfl]
      · rw [update_of_ne (by omega), hreloc, State.located, if_neg hzero,
          show s.map i + w - s.map i = w by ring, hsame w hw]
        have hiff : (s.placeOf start i - s.map i ≠ 0 ∧ s.map i + headerSize ≤ s.map i + w ∧
            s.map i + w < s.map i + s.sizeOf i) ↔
            (s.placeOf start i - s.map i ≠ 0 ∧ headerSize ≤ w) :=
          ⟨fun hand => ⟨hand.1, by omega⟩, fun hand => ⟨hand.1, by omega, by omega⟩⟩
        simp only [hiff]
    · have hbelow := hbefore i (by omega)
      rw [update_of_ne (by omega), hreloc,
        if_neg fun hand => absurd hand.2.1 (by unfold headerSize; omega)]
      exact hl.words i (by omega) w hw hwi
  · have hout := ha k k.lt_succ_self
    show update mem (s.map k) (s.placeOf start k - s.map k) a = _
    rw [update_of_ne (by omega), hreloc,
      if_neg fun hand => absurd hand.2 (by unfold headerSize; omega)]
    exact hl.frame a fun i hi => ha i (by omega)
  · show (i : ℤ) ≤ if s.placeOf start k - s.map k > 0 then (k : ℤ) else l.lastMovingUp
    by_cases hmoves : s.placeOf start k - s.map k > 0
    · rw [if_pos hmoves]
      omega
    · rw [if_neg hmoves]
      have hne : i ≠ k := by
        rintro rfl
        omega
      exact hl.up i (by omega) hup
  · simp only
    by_cases hmoves : s.placeOf start k - s.map k > 0
    · rw [if_pos hmoves]
      exact .inr ⟨k, k.lt_succ_self, rfl, by omega⟩
    · rw [if_neg hmoves]
      obtain hnone | ⟨i, hi, hlast⟩ := hl.last
      · exact .inl hnone
      · exact .inr ⟨i, by omega, hlast⟩

/-- **Run lemma.** Every method gets its distance. -/
theorem computeNewLocations_located (h : Consistent s) (relocate : ℤ → (ℤ → ℤ) → ℤ → ℤ)
    (start : ℤ) : Located relocate s start s.count (computeNewLocations relocate s start) := by
  have hrun : ∀ k ≤ s.count, Located relocate s start k
      ((List.range k).foldl (computeStep relocate s.map) ⟨start, -1, s.mem, s.executionEntry⟩) := by
    intro k
    induction k with
    | zero =>
      intro _
      exact ⟨(add_zero start).symm, fun i hi => absurd hi (Nat.not_lt_zero i), fun _ _ => rfl,
        fun i hi => absurd hi (Nat.not_lt_zero i), .inl rfl⟩
    | succ k ih =>
      intro hk
      rw [List.range_succ, List.foldl_append, List.foldl_cons, List.foldl_nil]
      exact (ih (by omega)).step h hk
  exact hrun s.count le_rfl

end Places

/-! ## The moves -/

section Moves

variable {relocate : ℤ → (ℤ → ℤ) → ℤ → ℤ} {compiledMethodClass : ℤ} {s : State} {start : ℤ}
  {i j up : ℕ} {c : Code} {l : Locations}

/-- What is moved: words of memory, and entries of the map. -/
def Code.get (c : Code) : ℤ ⊕ ℕ → ℤ
  | .inl a => c.mem a
  | .inr i => c.map i

/-- What belongs to the method of an entry. -/
def Source (s : State) (i : ℕ) : ℤ ⊕ ℕ → Prop
  | .inl a => s.map i ≤ a ∧ a < s.map i + s.sizeOf i
  | .inr j => j = i

/-- What a move of the method changes. -/
def Touched (s : State) (start : ℤ) (i : ℕ) : ℤ ⊕ ℕ → Prop
  | .inl a => s.placeOf start i ≤ a ∧ a < s.placeOf start i + s.sizeOf i
  | .inr j => j = i

/-- Where a word of the method goes. -/
def goesTo (s : State) (start : ℤ) (i : ℕ) : ℤ ⊕ ℕ → ℤ ⊕ ℕ
  | .inl a => .inl (s.placeOf start i + (a - s.map i))
  | .inr j => .inr j

/-- What it is afterwards: the class word is restored. -/
def becomes (relocate : ℤ → (ℤ → ℤ) → ℤ → ℤ) (compiledMethodClass : ℤ) (s : State) (start : ℤ)
    (i : ℕ) : ℤ ⊕ ℕ → ℤ
  | .inl a =>
    if a = s.map i then compiledMethodClass else s.located relocate start i (a - s.map i)
  | .inr _ => s.placeOf start i

/-- A method that stays may as well be moved to where it is. -/
theorem moveDown_eq (c : Code) (i : ℕ) :
    moveDown compiledMethodClass c i = moveUp compiledMethodClass c i := by
  unfold moveDown moveUp
  by_cases hsame : c.map i = c.map i + c.mem (c.map i)
  · have hmove : moveCompiledMethod (c.map i + c.mem (c.map i)) (c.map i) i c = c := by
      unfold moveCompiledMethod
      rw [← hsame, update_eq_self]
      congr 1
      funext a
      unfold memmove
      split
      · exact congrArg c.mem (add_sub_cancel _ _)
      · rfl
    simp only [if_neg (not_not_intro hsame), hmove]
  · simp only [if_pos hsame]

/-- **Step lemma.** A method that is as it was when its distance was stored arrives. -/
theorem moveUp_spec (hread : ∀ a, Source s i a → c.get a = match a with
      | .inl a => s.located relocate start i (a - s.map i)
      | .inr _ => s.map i) :
    (∀ a, Source s i a → (moveUp compiledMethodClass c i).get (goesTo s start i a) =
      becomes relocate compiledMethodClass s start i a) ∧
    ∀ a, ¬Touched s start i a → (moveUp compiledMethodClass c i).get a = c.get a := by
  have hsize := sizeOf_ge s i
  have hmap : c.map i = s.map i := hread (.inr i) rfl
  have hword : ∀ a, s.map i ≤ a → a < s.map i + s.sizeOf i →
      c.mem a = s.located relocate start i (a - s.map i) := fun a hal hah =>
    hread (.inl a) ⟨hal, hah⟩
  have hdelta : c.mem (s.map i) = s.placeOf start i - s.map i := by
    rw [hword _ le_rfl (by omega), sub_self]
    rfl
  have hflags : objectSize (c.mem (s.map i + 1)) = s.sizeOf i := by
    rw [hword _ (by omega) (by omega), add_sub_cancel_left, State.located, if_neg one_ne_zero,
      if_neg fun hand => absurd hand.2 (by decide)]
    rfl
  have hdst : s.map i + c.mem (s.map i) = s.placeOf start i := by omega
  unfold moveUp moveCompiledMethod
  simp only [hmap, hdst, hflags]
  refine ⟨?_, ?_⟩
  · rintro (a | j) ha
    · obtain ⟨hal, hah⟩ := ha
      show update _ _ _ (s.placeOf start i + (a - s.map i)) = _
      by_cases hfirst : a = s.map i
      · rw [hfirst, sub_self, add_zero, update_self, becomes, if_pos rfl]
      · rw [update_of_ne (by omega), memmove_inside _ (by omega) (by omega), becomes,
          if_neg hfirst, add_sub_cancel, hword a hal hah]
    · obtain rfl : j = i := ha
      exact update_self _ _ _
  · rintro (a | j) ha
    · have hout : a < s.placeOf start i ∨ s.placeOf start i + s.sizeOf i ≤ a := by
        by_contra hin
        exact ha ⟨by omega, by omega⟩
      show update (memmove c.mem _ _ _) (s.placeOf start i) compiledMethodClass a = c.mem a
      rw [update_of_ne (by omega), memmove_outside _ hout]
    · exact update_of_ne ha _ _

/-- The order of the moves. -/
def order (up n : ℕ) : List ℕ := (List.range up).reverse ++ List.range' up (n - up)

theorem mem_order (hup : up ≤ s.count) : i ∈ order up s.count ↔ i < s.count := by
  rw [order, List.mem_append, List.mem_reverse, List.mem_range, List.mem_range'_1]
  omega

/-- No move touches a method that is still to be moved, nor one that has been. -/
theorem order_pairwise (h : Consistent s) (hup : up ≤ s.count)
    (hbefore : ∀ i < up, s.map i < s.placeOf start i)
    (hafter : ∀ i, up ≤ i → i < s.count → s.placeOf start i ≤ s.map i) :
    (order up s.count).Pairwise fun i j =>
      (∀ a, Source s j a → ¬Touched s start i a) ∧
        ∀ a, Source s i a → ¬Touched s start j (goesTo s start i a) := by
  -- The places of two methods are apart, whichever comes first.
  have hplaces : ∀ i j, i ≠ j → i < s.count → j < s.count →
      ∀ a, Source s i a → ¬Touched s start j (goesTo s start i a) := by
    rintro i j hij hi hj (a | k) ha htouched
    · obtain ⟨hal, hah⟩ := ha
      obtain ⟨htl, hth⟩ := htouched
      obtain hlt | hgt := lt_or_gt_of_ne hij
      · have hle := placeOf_add_le s start hlt
        omega
      · have hle := placeOf_add_le s start hgt
        omega
    · exact hij (ha.symm.trans htouched)
  rw [order, List.pairwise_append, List.pairwise_reverse]
  refine ⟨?_, ?_, ?_⟩
  · -- Going down: a method that goes up stays above those that come before it.
    refine List.Pairwise.imp_of_mem ?_ List.pairwise_lt_range
    intro j i hj hi hji
    rw [List.mem_range] at hj hi
    refine ⟨?_, hplaces i j hji.ne' (by omega) (by omega)⟩
    rintro (a | k) ha htouched
    · obtain ⟨hal, hah⟩ := ha
      obtain ⟨htl, hth⟩ := htouched
      have hsorted := h.sorted j i hji (by omega)
      have hup := hbefore i hi
      omega
    · exact hji.ne (ha.symm.trans htouched)
  · -- Going up: a method that goes down stays below those that come after it.
    refine List.Pairwise.imp_of_mem ?_ (List.pairwise_lt_range' 1 Nat.one_pos)
    intro i j hi hj hij
    rw [List.mem_range'_1] at hi hj
    refine ⟨?_, hplaces i j hij.ne (by omega) (by omega)⟩
    rintro (a | k) ha htouched
    · obtain ⟨hal, hah⟩ := ha
      obtain ⟨htl, hth⟩ := htouched
      have hsorted := h.sorted i j hij (by omega)
      have hdown := hafter i hi.1 (by omega)
      omega
    · exact hij.ne' (ha.symm.trans htouched)
  · -- What goes up ends below the places of the others, which are not above them.
    intro i hi j hj
    rw [List.mem_reverse, List.mem_range] at hi
    rw [List.mem_range'_1] at hj
    refine ⟨?_, hplaces i j (by omega) (by omega) (by omega)⟩
    rintro (a | k) ha htouched
    · obtain ⟨hal, hah⟩ := ha
      obtain ⟨htl, hth⟩ := htouched
      have hle := placeOf_add_le s start (show i < j by omega)
      have hdown := hafter j hj.1 (by omega)
      omega
    · have hij : j = i := ha.symm.trans htouched
      omega

/-- **Run lemma.** Both loops together move every method to its place. -/
theorem compact_moves (h : Consistent s) (hl : Located relocate s start s.count l)
    (hup : up = (l.lastMovingUp + 1).toNat) :
    ∀ i < s.count, ∀ a, Source s i a →
      Code.get ((List.range' up (s.count - up)).foldl (moveDown compiledMethodClass)
        ((List.range up).reverse.foldl (moveUp compiledMethodClass) ⟨l.mem, s.map⟩))
          (goesTo s start i a) = becomes relocate compiledMethodClass s start i a := by
  have hle : up ≤ s.count := by
    obtain hnone | ⟨i, hi, hlast, -⟩ := hl.last <;> omega
  have hbefore : ∀ i < up, s.map i < s.placeOf start i := by
    intro i hi
    obtain hnone | ⟨j, hj, hlast, hmoves⟩ := hl.last
    · omega
    · have hdelta := @Consistent.delta_le s start _ _ h (show i ≤ j by omega) hj
      omega
  have hafter : ∀ i, up ≤ i → i < s.count → s.placeOf start i ≤ s.map i := by
    intro i hi hic
    by_contra hmoves
    have hlast := hl.up i hic (by omega)
    omega
  have hdown : moveDown compiledMethodClass = moveUp compiledMethodClass := by
    funext c i
    exact moveDown_eq c i
  have hread : ∀ i < s.count, ∀ a, Source s i a → Code.get ⟨l.mem, s.map⟩ a = match a with
      | .inl a => s.located relocate start i (a - s.map i)
      | .inr _ => s.map i := by
    rintro i hi (a | j) ha
    · obtain ⟨hal, hah⟩ := ha
      have hword := hl.words i hi (a - s.map i) (by omega) (by omega)
      rw [add_sub_cancel] at hword
      exact hword
    · obtain rfl : j = i := ha
      rfl
  rw [hdown, ← List.foldl_append]
  intro i hi a ha
  refine (@foldl_moves _ _ _ _ Code.get _ (Source s) (Touched s start) _ _ ⟨l.mem, s.map⟩ _ (fun c i hi hc => ?_)
    (order_pairwise h hle hbefore hafter) _ fun _ _ _ _ => rfl).1 i ((mem_order hle).mpr hi) a ha
  exact moveUp_spec fun a ha => (hc a ha).trans (hread i ((mem_order hle).mp hi) a ha)

end Moves

/-! ## The area afterwards -/

/-- Where a pointer leads afterwards. -/
def Relocated (s : State) (start p p' : ℤ) : Prop :=
  (∃ i < s.count, p = s.map i ∧ p' = s.placeOf start i) ∨ s.contains p = false ∧ p' = p

/-- What becomes of a frame: a return address into a method moves with it. -/
inductive FrameRelocated (s : State) (start : ℤ) : Frame → Frame → Prop
  | entry : FrameRelocated s start .entry .entry
  | interpreted : FrameRelocated s start .interpreted .interpreted
  | compiled (i : ℕ) (hi : i < s.count) (pc : ℤ) :
    FrameRelocated s start (.compiled (s.map i) pc)
      (.compiled (s.map i) (pc + 4 * (s.placeOf start i - s.map i)))
  | outside (p pc : ℤ) (hp : s.contains p = false) :
    FrameRelocated s start (.compiled p pc) (.compiled p pc)

/-- The cached methods lie one after the other from `start` on, each as it was, with its code
relocated if it has moved, and everything that refers to them follows. -/
structure Packed (relocate : ℤ → (ℤ → ℤ) → ℤ → ℤ) (compiledMethodClass : ℤ) (s s' : State)
    (start : ℤ) : Prop where
  areaStart : s'.compilerAreaStart = start
  areaTop : s'.compilerAreaTop = start + s.size
  full : s'.compilerAreaTop = s.placeOf start s.count
  map : ∀ i < s.count, s'.map i = s.placeOf start i
  classWord : ∀ i < s.count, s'.mem (s.placeOf start i) = compiledMethodClass
  header : ∀ i < s.count, s'.mem (s.placeOf start i + 1) = s.mem (s.map i + 1) ∧
    s'.mem (s.placeOf start i + 2) = s.mem (s.map i + 2)
  code : ∀ i < s.count, ∀ w, headerSize ≤ w → w < s.sizeOf i →
    s'.mem (s.placeOf start i + w) =
      if s.placeOf start i = s.map i then s.mem (s.map i + w)
      else relocate (s.placeOf start i - s.map i) (wordsOf s.mem (s.map i)) w
  patched : (s.patchedMethod = none → s'.patchedMethod = none) ∧
    ∀ p ∈ s.patchedMethod, ∃ p' ∈ s'.patchedMethod, Relocated s start p p'
  handles : List.Forall₂ (Relocated s start) s.handles s'.handles
  frames : List.Forall₂ (List.Forall₂ (FrameRelocated s start)) s.threads s'.threads

section Main

variable {relocate : ℤ → (ℤ → ℤ) → ℤ → ℤ} {compiledMethodClass : ℤ} {s : State} {start p : ℤ}
  {l : Locations}

theorem updateFrame_relocated (hl : Located relocate s start s.count l)
    {frame : Frame} (hframe : ∀ p pc, frame = .compiled p pc → s.contains p = true →
      ∃ i < s.count, p = s.map i) :
    FrameRelocated s start frame (updateFrame { s with
      mem := l.mem
      executionEntry := l.executionEntry } frame) := by
  cases frame with
  | entry => exact .entry
  | interpreted => exact .interpreted
  | compiled p pc =>
    by_cases hp : s.contains p = true
    · obtain ⟨i, hi, rfl⟩ := hframe p pc rfl hp
      have hword := hl.words i hi 0 le_rfl (by have := sizeOf_ge s i; omega)
      rw [add_zero, State.located, if_pos rfl] at hword
      have hupdate : updateFrame { s with
          mem := l.mem
          executionEntry := l.executionEntry } (.compiled (s.map i) pc) =
          .compiled (s.map i) (pc + 4 * (s.placeOf start i - s.map i)) := by
        rw [← hword]
        exact congrArg (Frame.compiled (s.map i)) (if_pos hp)
      rw [hupdate]
      exact .compiled i hi pc
    · have hupdate : updateFrame { s with
          mem := l.mem
          executionEntry := l.executionEntry } (.compiled p pc) = .compiled p pc :=
        congrArg (Frame.compiled p) (if_neg hp)
      rw [hupdate]
      exact .outside p pc (Bool.eq_false_iff.mpr hp)

theorem moved_relocated (hl : Located relocate s start s.count l) {i : ℕ} (hi : i < s.count) :
    s.map i + l.mem (s.map i) = s.placeOf start i := by
  have hword := hl.words i hi 0 le_rfl (by have := sizeOf_ge s i; omega)
  rw [add_zero, State.located, if_pos rfl] at hword
  omega

theorem Consistent.count_eq_zero (h : Consistent s)
    (hempty : s.compilerAreaStart = s.compilerAreaTop) : s.count = 0 := by
  by_contra hcount
  obtain ⟨hlow, hhigh⟩ := h.within 0 (by omega)
  have hsize := sizeOf_ge s 0
  omega

/-- **Main theorem.** Whatever has been evicted, and wherever the area goes, the cached methods are
packed from the new start on, and everything that refers to them follows. -/
theorem compactAndMoveCompilerArea_packed (relocate : ℤ → (ℤ → ℤ) → ℤ → ℤ)
    (compiledMethodClass : ℤ) (h : Consistent s) (compilerAreaShift : ℤ) :
    ∃ s', compactAndMoveCompilerArea relocate compiledMethodClass compilerAreaShift s = some s' ∧
      Packed relocate compiledMethodClass s s' (s.compilerAreaStart + compilerAreaShift) := by
  unfold compactAndMoveCompilerArea
  rw [if_pos h.saved]
  refine ⟨_, rfl, ?_⟩
  generalize hstart : s.compilerAreaStart + compilerAreaShift = start
  have hfull : start + s.size = s.placeOf start s.count := by rw [h.size, State.placeOf]
  by_cases hempty : s.compilerAreaStart = s.compilerAreaTop
  · -- There is nothing that anything could refer to.
    have hcount := h.count_eq_zero hempty
    have hnone : ∀ i, ¬i < s.count := fun i => by omega
    have hcontains : ∀ p, s.contains p = false := fun p => by
      rw [State.contains, hempty, Bool.eq_false_iff, Ne, Bool.and_eq_true, decide_eq_true_iff,
        decide_eq_true_iff]
      omega
    simp only [if_neg (not_not_intro hempty)]
    refine ⟨rfl, rfl, hfull, fun i hi => absurd hi (hnone i), fun i hi => absurd hi (hnone i),
      fun i hi => absurd hi (hnone i), fun i hi => absurd hi (hnone i),
      ⟨id, fun p hp => ⟨p, hp, ?_⟩⟩, ?_, ?_⟩
    · exact .inr ⟨hcontains p, rfl⟩
    · exact List.forall₂_same.mpr fun p _ => .inr ⟨hcontains p, rfl⟩
    · refine List.forall₂_same.mpr fun frames _ => List.forall₂_same.mpr fun frame _ => ?_
      cases frame with
      | entry => exact .entry
      | interpreted => exact .interpreted
      | compiled p pc => exact .outside p pc (hcontains p)
  · have hl := computeNewLocations_located h relocate start
    simp only [if_pos hempty]
    generalize computeNewLocations relocate s start = l at hl ⊢
    have hmoves := @compact_moves relocate compiledMethodClass s start _ l h hl rfl
    have hword : ∀ i < s.count, ∀ w, 0 ≤ w → w < s.sizeOf i → _ :=
      fun i hi w hw hlt => hmoves i hi (.inl (s.map i + w)) ⟨by omega, by omega⟩
    simp only [goesTo, becomes, Code.get, add_sub_cancel_left] at hword
    refine ⟨rfl, rfl, hfull, fun i hi => hmoves i hi (.inr i) rfl, fun i hi => ?_,
      fun i hi => ?_, fun i hi w hw hlt => ?_, ⟨fun hp => ?_, fun p hp => ?_⟩, ?_, ?_⟩
    · have hfirst := hword i hi 0 le_rfl (by have := sizeOf_ge s i; omega)
      rw [add_zero, add_zero, if_pos rfl] at hfirst
      exact hfirst
    · have hsize := sizeOf_ge s i
      have hone := hword i hi 1 (by decide) (by omega)
      have htwo := hword i hi 2 (by decide) (by omega)
      rw [if_neg (by omega), State.located, if_neg (by decide),
        if_neg fun hand => absurd hand.2 (by decide)] at hone htwo
      exact ⟨hone, htwo⟩
    · unfold headerSize at hw
      have hcode := hword i hi w (by omega) hlt
      rw [if_neg (by omega), State.located, if_neg (by omega)] at hcode
      refine hcode.trans ?_
      by_cases hsame : s.placeOf start i = s.map i
      · rw [if_pos hsame, if_neg fun hand => hand.1 (by omega)]
      · rw [if_neg hsame, if_pos ⟨by omega, hw⟩]
    · show s.patchedMethod.map _ = none
      rw [hp]
      rfl
    · obtain ⟨i, hi, rfl⟩ := h.patched p hp
      refine ⟨s.placeOf start i, ?_, .inl ⟨i, hi, rfl, rfl⟩⟩
      show s.patchedMethod.map _ = some _
      rw [Option.mem_def.mp hp, Option.map_some]
      exact congrArg some (moved_relocated hl hi)
    · show List.Forall₂ _ s.handles (s.handles.map _)
      rw [List.forall₂_map_right_iff, List.forall₂_same]
      intro p hp
      by_cases hin : s.contains p = true
      · obtain ⟨i, hi, rfl⟩ := h.handles p hp hin
        exact .inl ⟨i, hi, rfl, (if_pos hin).trans (moved_relocated hl hi)⟩
      · exact .inr ⟨Bool.eq_false_iff.mpr hin, if_neg hin⟩
    · show List.Forall₂ _ s.threads (s.threads.map _)
      rw [List.forall₂_map_right_iff, List.forall₂_same]
      intro frames hframes
      rw [List.forall₂_map_right_iff, List.forall₂_same]
      intro frame hframe
      exact updateFrame_relocated hl fun p pc hp hin => by
        subst hp
        exact h.frames frames hframes p pc hframe hin

end Main

/-- Two methods of five words with a gap between them: one goes up by two words, the other one
goes down by three. -/
def exampleState : State where
  mem := fun a => if a = 101 ∨ a = 111 then 8 else 0
  map := fun i => 100 + 10 * i
  upb := 1
  size := 10
  patchedMethod := some 100
  handles := [110, 7]
  threads := [[.compiled 110 460, .interpreted, .entry]]
  executionEntry := fun _ => 0
  compilerAreaStart := 100
  compilerAreaTop := 120
  savedCompilerAreaTop := none
  inlineAllocationEnd := 90

theorem exampleState_consistent : Consistent exampleState where
  sorted i j hij hj := by
    have hj : j < 2 := hj
    obtain rfl : i = 0 := by omega
    obtain rfl : j = 1 := by omega
    decide
  within i hi := by
    have hi : i < 2 := hi
    interval_cases i <;> decide
  size := by decide
  patched p hp := ⟨0, by decide, (Option.some_inj.mp hp).symm⟩
  handles p hp hin := by
    obtain rfl | hp := List.mem_cons.mp hp
    · exact ⟨1, by decide, by decide⟩
    · obtain rfl := List.mem_singleton.mp hp
      exact absurd hin (by decide)
  frames frames hframes p pc hp hin := by
    obtain rfl := List.mem_singleton.mp hframes
    obtain hp | hp := List.mem_cons.mp hp
    · obtain ⟨rfl, -⟩ := Frame.compiled.inj hp
      exact ⟨1, by decide, by decide⟩
    · simp at hp
  saved top htop := by cases htop

theorem compactAndMoveCompilerArea_packed_exampleState :
    ∃ s', compactAndMoveCompilerArea (fun _ words => words) 1 2 exampleState = some s' ∧
      Packed (fun _ words => words) 1 exampleState s' 102 :=
  compactAndMoveCompilerArea_packed (fun _ words => words) 1 exampleState_consistent 2

end CldcVm.Memory.CompilerArea
