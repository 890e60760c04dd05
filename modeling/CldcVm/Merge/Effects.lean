import Mathlib.Data.List.Rotate
import CldcVm.Merge.ConformTo

/-!
# What the code generator does

The effect of each operation of the code generator on the frame and on the machine
that has run the code emitted so far.

Results: `allocate_spec`: what used the allocated register has been flushed, and the
target does not map it if there is a spare register; `getLiteral_spec`, `movImm_spec`:
the register has the literal.
-/

namespace CldcVm.Merge

open Function (update update_apply update_eq_self update_self)

variable {c : Context} {g g' g'' : Gen} {m₀ : Machine} {reg index : ℕ}

/-! ## Code -/

namespace Gen

/-- The machine that has run the code. -/
def machine (g : Gen) (m₀ : Machine) : Machine := m₀.run g.code

theorem machine_emit (g : Gen) (instr : Instr) :
    (g.emit instr).machine m₀ = (g.machine m₀).step instr := by
  unfold machine Machine.run emit
  rw [List.foldl_append]
  rfl

@[simp] theorem emit_frame (g : Gen) (instr : Instr) : (g.emit instr).frame = g.frame := rfl

@[simp] theorem emit_literals (g : Gen) (instr : Instr) :
    (g.emit instr).literals = g.literals := rfl

@[simp] theorem setStatus_machine (g : Gen) (index : ℕ) (status : Status) :
    (g.setStatus index status).machine m₀ = g.machine m₀ := rfl

@[simp] theorem setStatus_frame (g : Gen) (index : ℕ) (status : Status) :
    (g.setStatus index status).frame = Merge.setStatus g.frame index status := rfl

@[simp] theorem setLiteral_machine (g : Gen) (imm32 : Word) :
    (g.setLiteral reg imm32).machine m₀ = g.machine m₀ := rfl

@[simp] theorem setLiteral_frame (g : Gen) (imm32 : Word) :
    (g.setLiteral reg imm32).frame = g.frame := rfl

end Gen

theorem storeRegisters_machine (g : Gen) (index : ℕ) : (g.storeRegisters index).machine m₀ =
      if isTwoWordAt g.frame index = true then ((g.machine m₀).setMem index ((g.machine m₀).regs
          (locationAt g.frame index).getRegister)).setMem (index + 1)
            ((g.machine m₀).regs (locationAt g.frame (index + 1)).getRegister) else
        (g.machine m₀).setMem index ((g.machine m₀).regs (locationAt g.frame index).getRegister) := by
  unfold Gen.storeRegisters
  split_ifs
  · rw [Gen.machine_emit, Gen.machine_emit]
    rfl
  · rw [Gen.machine_emit]
    rfl

theorem storeRegisters_mem (g : Gen) (index s : ℕ) : ((g.storeRegisters index).machine m₀).mem s =
      if isTwoWordAt g.frame index = true ∧ s = index + 1 then
        (g.machine m₀).regs (locationAt g.frame (index + 1)).getRegister
      else if s = index then (g.machine m₀).regs (locationAt g.frame index).getRegister
      else (g.machine m₀).mem s := by
  rw [storeRegisters_machine]
  by_cases htwo : isTwoWordAt g.frame index = true
  · simp only [htwo, if_true, true_and, Machine.setMem, update_apply]
  · rw [if_neg htwo, if_neg fun h => htwo h.1]
    simp only [Machine.setMem, update_apply]

theorem storeRegisters_regs (g : Gen) (index : ℕ) :
    ((g.storeRegisters index).machine m₀).regs = (g.machine m₀).regs := by
  unfold Gen.storeRegisters
  split_ifs
  · rw [Gen.machine_emit, Gen.machine_emit]
    rfl
  · rw [Gen.machine_emit]
    rfl

theorem storeRegisters_gen (g : Gen) (index : ℕ) :
    (g.storeRegisters index).frame = g.frame ∧ (g.storeRegisters index).literals = g.literals ∧
      (g.storeRegisters index).nextAllocate = g.nextAllocate ∧
      (g.storeRegisters index).nextSpill = g.nextSpill := by
  unfold Gen.storeRegisters
  split_ifs <;> exact ⟨rfl, rfl, rfl, rfl⟩

/-! ## Flushing -/

/-- The locations are flushed, and nothing else happens. -/
structure Flushes (m₀ : Machine) (Flushed : ℕ → Prop) (g g' : Gen) : Prop where
  same : SameSlots g.frame g'.frame
  flushed : ∀ j, Flushed j → (locationAt g'.frame j).status = .flushed
  kept : ∀ j, ¬Flushed j → (locationAt g'.frame j).status = (locationAt g.frame j).status
  regs : (g'.machine m₀).regs = (g.machine m₀).regs
  mem : ∀ s, (∀ j, Flushed j → (locationAt g.frame j).status = .changed →
    ¬IsSlotOf g.frame j s) → (g'.machine m₀).mem s = (g.machine m₀).mem s
  written : ∀ j, Flushed j → (locationAt g.frame j).status = .changed →
    (g'.machine m₀).mem j = (g.machine m₀).regs (locationAt g.frame j).getRegister ∧
      (isTwoWordAt g.frame j = true → (g'.machine m₀).mem (j + 1) =
        (g.machine m₀).regs (locationAt g.frame (j + 1)).getRegister)
  nextAllocate : g'.nextAllocate = g.nextAllocate
  nextSpill : g'.nextSpill = g.nextSpill

theorem Flushes.refl {Flushed : ℕ → Prop} (h : ∀ j, ¬Flushed j) : Flushes m₀ Flushed g g :=
  ⟨.refl _, fun j hj => (h j hj).elim, fun _ _ => rfl, rfl, fun _ _ => rfl,
    fun j hj => (h j hj).elim, rfl, rfl⟩

theorem Flushes.trans {S T : ℕ → Prop} (hlayout : Layout g.frame)
    (hS : ∀ j, S j → (locationAt g.frame j).type ≠ .illegal)
    (hT : ∀ j, T j → (locationAt g.frame j).type ≠ .illegal)
    (h : Flushes m₀ S g g') (h' : Flushes m₀ T g' g'') : Flushes m₀ (fun j => S j ∨ T j) g g'' := by
  refine ⟨h.same.trans h'.same, fun j hj => ?_, fun j hj => ?_, h'.regs.trans h.regs,
    fun s hs => ?_, fun j hj hchanged => ?_, h'.nextAllocate.trans h.nextAllocate,
    h'.nextSpill.trans h.nextSpill⟩
  · by_cases hT : T j
    · exact h'.flushed j hT
    · rw [h'.kept j hT]
      exact h.flushed j (hj.resolve_right hT)
  · rw [h'.kept j fun hT => hj (.inr hT), h.kept j fun hS => hj (.inl hS)]
  · rw [h'.mem s, h.mem s fun j hj => hs j (.inl hj)]
    intro j hj hchanged
    by_cases hS : S j
    · rw [h.flushed j hS] at hchanged
      cases hchanged
    · rw [h.kept j hS] at hchanged
      rw [h.same.isSlotOf_iff]
      exact hs j (.inr hj) hchanged
  · by_cases hSj : S j
    · obtain ⟨hlo, hhi⟩ := h.written j hSj hchanged
      have hkeep : ∀ s, IsSlotOf g.frame j s → (g''.machine m₀).mem s = (g'.machine m₀).mem s := by
        intro s hs
        refine h'.mem s fun k hk hchanged' hslot => ?_
        rw [h.same.isSlotOf_iff] at hslot
        obtain rfl := hlayout.slots_disjoint (hS j hSj) (hT k hk) hs hslot
        rw [h.flushed j hSj] at hchanged'
        cases hchanged'
      refine ⟨(hkeep j (.inl rfl)).trans hlo, fun htwo => ?_⟩
      exact (hkeep (j + 1) (.inr ⟨htwo, rfl⟩)).trans (hhi htwo)
    · have hTj := hj.resolve_left hSj
      have hwritten := h'.written j hTj ((h.kept j hSj).trans hchanged)
      rw [h.regs, h.same.getRegister_eq, h.same.getRegister_eq, h.same.isTwoWordAt_eq] at hwritten
      exact hwritten

theorem Flushes.congr {S T : ℕ → Prop} (h : Flushes m₀ S g g') (hST : ∀ j, S j ↔ T j) :
    Flushes m₀ T g g' := by
  obtain rfl : S = T := funext fun j => propext (hST j)
  exact h

theorem flushRegisters_spec (hlt : index < g.frame.length) :
    Flushes m₀ (· = index) g (g.flushRegisters index) := by
  unfold Gen.flushRegisters
  by_cases hchanged : (locationAt g.frame index).status = .changed
  · rw [if_pos hchanged]
    obtain ⟨hframe, -, halloc, hspill⟩ := storeRegisters_gen (g.setStatus index .cached) index
    have hsame := sameSlots_setStatus g.frame index .cached
    have hframe' : (((g.setStatus index .cached).storeRegisters index).setStatus index
        .flushed).frame = setStatus (setStatus g.frame index .cached) index .flushed := by
      rw [Gen.setStatus_frame, hframe]
      rfl
    refine ⟨?_, ?_, ?_, ?_, ?_, ?_, halloc, hspill⟩
    · rw [hframe']
      exact hsame.trans (sameSlots_setStatus _ index .flushed)
    · rintro j rfl
      rw [hframe']
      exact status_setStatus_self (by rw [setStatus_length]; exact hlt) _
    · intro j hj
      rw [hframe', locationAt_setStatus_of_ne (Ne.symm hj), locationAt_setStatus_of_ne (Ne.symm hj)]
    · rw [Gen.setStatus_machine, storeRegisters_regs]
      rfl
    · intro s hs
      have hnot := hs index rfl hchanged
      rw [Gen.setStatus_machine, storeRegisters_mem, if_neg, if_neg]
      · rfl
      · exact fun heq => hnot (.inl heq)
      · rintro ⟨htwo, heq⟩
        exact hnot (.inr ⟨(hsame.isTwoWordAt_eq index) ▸ htwo, heq⟩)
    · rintro j rfl -
      have htwo := hsame.isTwoWordAt_eq j
      rw [Gen.setStatus_machine, storeRegisters_mem, storeRegisters_mem]
      refine ⟨?_, fun htwo' => ?_⟩
      · rw [if_neg fun h => absurd h.2 (Nat.lt_succ_self j).ne, if_pos rfl]
        exact congrArg _ (hsame.getRegister_eq j)
      · rw [if_pos ⟨htwo.trans htwo', rfl⟩]
        exact congrArg _ (hsame.getRegister_eq (j + 1))
  · rw [if_neg hchanged]
    refine ⟨sameSlots_setStatus _ _ _, ?_, ?_, rfl, fun _ _ => rfl, ?_, rfl, rfl⟩
    · rintro j rfl
      exact status_setStatus_self hlt _
    · intro j hj
      exact congrArg _ (locationAt_setStatus_of_ne (Ne.symm hj) _)
    · rintro j rfl hchanged'
      exact (hchanged hchanged').elim

@[simp] theorem flushRegisters_literals (g : Gen) (index : ℕ) :
    (g.flushRegisters index).literals = g.literals := by
  unfold Gen.flushRegisters
  split_ifs
  · exact (storeRegisters_gen _ index).2.1
  · rfl

/-! ## Loops -/

/-- The rule for a loop over the locations: what holds of a slot without a type is carried
over where the loop skips it. -/
theorem forEach_rule (isTwoWord : List RawLocation → ℕ → Bool) (body : ℕ → Gen → Gen)
    {P : ℕ → Gen → Prop} {n : ℕ} (hlength : ∀ i g, P i g → g.frame.length = n)
    (hstep : ∀ i g, i < n → P i g → P (i + 1) (body i g))
    (hskip : ∀ i g, isTwoWord g.frame i = true → P (i + 1) g → P (i + 2) g) :
    ∀ fuel i g, n ≤ i + fuel → P i g → ∃ i', n ≤ i' ∧ P i' (forEach isTwoWord body fuel i g) := by
  intro fuel
  induction fuel with
  | zero => exact fun i g hi hP => ⟨i, hi, hP⟩
  | succ fuel ih =>
    intro i g hi hP
    unfold forEach
    split_ifs with hlt htwo
    · have hnext := hstep i g (hlength i g hP ▸ hlt) hP
      exact ih (i + 2) _ (by omega) (hskip i _ htwo hnext)
    · exact ih (i + 1) _ (by omega) (hstep i g (hlength i g hP ▸ hlt) hP)
    · exact ⟨i, hlength i g hP ▸ Nat.le_of_not_lt hlt, hP⟩

theorem usesRegister_of_status_eq {frame frame' : List RawLocation} (hsame : SameSlots frame frame')
    (hstatus : (locationAt frame' index).status = (locationAt frame index).status) :
    usesRegister frame' index reg = usesRegister frame index reg := by
  unfold usesRegister
  rw [hstatus, (hsame.slot index).place, hsame.getRegister_eq, hsame.getRegister_eq,
    hsame.isTwoWordAt_eq]

theorem spillRegister_spec (hlayout : Layout g.frame) :
    Flushes m₀ (fun j => usesRegister g.frame j reg = true) g (g.spillRegister reg) ∧
      (g.spillRegister reg).literals = update g.literals reg 0 := by
  have hloop := forEach_rule isTwoWordAt
    (fun index g => if usesRegister g.frame index reg then g.flushRegisters index else g)
    (P := fun i g' => Flushes m₀ (fun j => j < i ∧ usesRegister g.frame j reg = true) g g' ∧
      g'.literals = g.literals) (n := g.frame.length)
    (fun i g' h => h.1.same.length) (fun i g' hi h => ?_) (fun i g' htwo h => ?_)
    g.frame.length 0 g (by omega) ⟨.refl fun j hj => absurd hj.1 (Nat.not_lt_zero j), rfl⟩
  · obtain ⟨i, hi, hflush, hliterals⟩ := hloop
    have hall : Flushes m₀ (fun j => usesRegister g.frame j reg = true) g _ :=
      hflush.congr fun j => ⟨fun hj => hj.2, fun hj =>
        ⟨(lt_length_of_usesRegister hj).trans_le hi, hj⟩⟩
    refine ⟨⟨hall.same, hall.flushed, hall.kept, hall.regs, hall.mem, hall.written,
      hall.nextAllocate, hall.nextSpill⟩, ?_⟩
    exact congrArg (fun literals => update literals reg 0) hliterals
  · obtain ⟨hflush, hliterals⟩ := h
    have hstatus : (locationAt g'.frame i).status = (locationAt g.frame i).status :=
      hflush.kept i fun hlt => absurd hlt.1 (Nat.lt_irrefl i)
    have huses : usesRegister g'.frame i reg = usesRegister g.frame i reg :=
      usesRegister_of_status_eq hflush.same hstatus
    by_cases hused : usesRegister g.frame i reg = true
    · rw [if_pos (huses.trans hused)]
      have hthis : Flushes m₀ (· = i) g' (g'.flushRegisters i) :=
        flushRegisters_spec (hflush.same.length.symm ▸ hi)
      refine ⟨(Flushes.trans hlayout (fun j hj => hlayout.type_ne_of_usesRegister hj.2) ?_ hflush
        hthis).congr fun j => ?_, (flushRegisters_literals g' i).trans hliterals⟩
      · rintro j rfl
        exact hlayout.type_ne_of_usesRegister hused
      · constructor
        · rintro (⟨hlt, hj⟩ | rfl)
          · exact ⟨hlt.trans (Nat.lt_succ_self i), hj⟩
          · exact ⟨Nat.lt_succ_self j, hused⟩
        · rintro ⟨hlt, hj⟩
          rcases Nat.lt_succ_iff_lt_or_eq.mp hlt with hlt | rfl
          · exact .inl ⟨hlt, hj⟩
          · exact .inr rfl
    · rw [if_neg fun h => hused (huses.symm.trans h)]
      refine ⟨hflush.congr fun j => and_congr_left fun hj => ?_, hliterals⟩
      refine ⟨fun hlt => hlt.trans (Nat.lt_succ_self i), fun hlt => ?_⟩
      rcases Nat.lt_succ_iff_lt_or_eq.mp hlt with hlt | rfl
      · exact hlt
      · exact (hused hj).elim
  · obtain ⟨hflush, hliterals⟩ := h
    refine ⟨hflush.congr fun j => and_congr_left fun hj => ?_, hliterals⟩
    refine ⟨fun hlt => hlt.trans (Nat.lt_succ_self _), fun hlt => ?_⟩
    rcases Nat.lt_succ_iff_lt_or_eq.mp hlt with hlt | rfl
    · exact hlt
    · have hillegal := hlayout.next_illegal ((hflush.same.isTwoWordAt_eq i) ▸ htwo)
      exact (hlayout.type_ne_of_usesRegister hj hillegal).elim

/-! ## Allocating -/

theorem mem_roundRobin {current : ℕ} : reg ∈ Gen.roundRobin c current ↔ reg ∈ c.order :=
  List.IsRotated.mem_iff (List.IsRotated.symm ⟨_, rfl⟩)

theorem Flushes.not_usesRegister (h : Flushes m₀ (fun j => usesRegister g.frame j reg = true) g g')
    (j : ℕ) : usesRegister g'.frame j reg = false := by
  rw [Bool.eq_false_iff]
  intro huses
  by_cases hused : usesRegister g.frame j reg = true
  · exact (usesRegister_iff.mp huses).1 (h.flushed j hused)
  · rw [usesRegister_of_status_eq h.same (h.kept j hused)] at huses
    exact hused huses

theorem isMappingLocation_eq_false {frame : List RawLocation} (hlayout : Layout frame) :
    isMappingLocation frame reg = false ↔ ∀ j, usesRegister frame j reg = false := by
  rw [Bool.eq_false_iff, Ne, isMappingLocation_iff hlayout, not_exists]
  simp only [Bool.not_eq_true]

/-- The allocator never has to take a register of the target: there is a register that no
frame maps, or the next register to be spilled is not one of the target. -/
def Spare (c : Context) (frame : List RawLocation) (nextSpill : ℕ) : Prop :=
  (∃ reg ∈ c.order, isMappingLocation frame reg = false ∧ isMappingLocation c.other reg = false) ∨
    ∀ reg ∈ (Gen.roundRobin c nextSpill).head?, isMappingLocation c.other reg = false

theorem spill_spec (c : Context) (m₀ : Machine) (reg : ℕ) (hlayout : Layout g.frame) :
    Flushes m₀ (fun j => usesRegister g.frame j reg = true) g (g.spill c reg) ∧
      (g.spill c reg).literals = update g.literals reg 0 := by
  unfold Gen.spill
  split_ifs with hmapping
  · exact spillRegister_spec hlayout
  · rw [Bool.not_eq_true, Bool.or_eq_false_iff] at hmapping
    obtain ⟨hmapping, hannotated⟩ := hmapping
    unfold Gen.isMappingLocation at hmapping
    rw [Bool.or_eq_false_iff, isMappingLocation_eq_false hlayout] at hmapping
    refine ⟨.refl fun j hj => ?_, ?_⟩
    · rw [hmapping.1 j] at hj
      cases hj
    · have hzero : g.literals reg = 0 := by
        unfold Gen.isAnnotated at hannotated
        rwa [bne_eq_false_iff_eq] at hannotated
      rw [← hzero, update_eq_self]

/-- What the allocation of a register does. -/
structure Allocates (c : Context) (m₀ : Machine) (g : Gen) (reg : ℕ) (g' : Gen) : Prop where
  mem_order : reg ∈ c.order
  flushes : ∃ g₁ nextAllocate nextSpill,
    g' = { g₁ with nextAllocate := nextAllocate, nextSpill := nextSpill } ∧
      Flushes m₀ (fun j => usesRegister g.frame j reg = true) g g₁
  literals : g'.literals = Function.update g.literals reg 0
  nextAllocate : g'.nextAllocate ∈ c.order
  nextSpill : g'.nextSpill ∈ c.order
  spare : Spare c g.frame g.nextSpill →
    isMappingLocation c.other reg = false ∧ Spare c g'.frame g'.nextSpill

/-- **Step lemma**: what used the allocated register has been flushed, and it is not a register
of the target if there is a spare one. -/
theorem allocate_spec (hlayout : Layout g.frame) (halloc : g.nextAllocate ∈ c.order)
    (hspill : g.nextSpill ∈ c.order) : Allocates c m₀ g (g.allocate c).1 (g.allocate c).2 := by
  have hspare : ∀ {reg g₁}, reg ∈ c.order →
      Flushes m₀ (fun j => usesRegister g.frame j reg = true) g g₁ →
      isMappingLocation c.other reg = false → ∀ nextSpill, Spare c g₁.frame nextSpill := by
    intro reg g₁ hreg hflush hother nextSpill
    refine .inl ⟨reg, hreg, ?_, hother⟩
    exact (isMappingLocation_eq_false (hflush.same.layout hlayout)).mpr hflush.not_usesRegister
  have hfree : ∀ reg ∈ g.unmapped c, reg ∈ c.order ∧ isMappingLocation g.frame reg = false ∧
        isMappingLocation c.other reg = false := by
    intro reg hreg
    obtain ⟨hmem, hmapping⟩ := List.mem_filter.mp hreg
    rw [Bool.not_eq_true', Gen.isMappingLocation, Bool.or_eq_false_iff] at hmapping
    exact ⟨mem_roundRobin.mp hmem, hmapping⟩
  unfold Gen.allocate Gen.allocateOrFail
  cases hplain : (g.unmapped c).find? fun reg => !g.isAnnotated reg with
  | some reg =>
    obtain ⟨hreg, hframe, hother⟩ := hfree reg (List.mem_of_find?_eq_some hplain)
    have hzero : g.literals reg = 0 := by
      have hannotated := List.find?_some hplain
      rw [Bool.not_eq_true', Gen.isAnnotated, bne_eq_false_iff_eq] at hannotated
      exact hannotated
    have hflush : Flushes m₀ (fun j => usesRegister g.frame j reg = true) g g := by
      refine .refl fun j hj => ?_
      rw [(isMappingLocation_eq_false hlayout).mp hframe j] at hj
      cases hj
    refine ⟨hreg, ⟨g, reg, g.nextSpill, rfl, hflush⟩, ?_, hreg, hspill,
      fun _ => ⟨hother, hspare hreg hflush hother _⟩⟩
    exact (hzero ▸ update_eq_self reg g.literals).symm
  | none =>
    simp only
    cases hhead : (g.unmapped c).head? with
    | some reg =>
      obtain ⟨hreg, -, hother⟩ := hfree reg (List.mem_of_mem_head? hhead)
      obtain ⟨hflush, hliterals⟩ := spill_spec c m₀ reg hlayout
      exact ⟨hreg, ⟨_, reg, _, rfl, hflush⟩, hliterals, hreg, hflush.nextSpill.symm ▸ hspill,
        fun _ => ⟨hother, hspare hreg hflush hother _⟩⟩
    | none =>
      simp only
      generalize hreg : (Gen.roundRobin c g.nextSpill).headD g.nextSpill = reg
      obtain ⟨hflush, hliterals⟩ := spill_spec c m₀ reg hlayout
      have hne : Gen.roundRobin c g.nextSpill ≠ [] :=
        List.ne_nil_of_mem (mem_roundRobin.mpr hspill)
      have hfirst : (Gen.roundRobin c g.nextSpill).head? = some reg := by
        rw [← hreg, List.head?_eq_some_head hne, List.headD_eq_head?_getD,
          List.head?_eq_some_head hne]
        rfl
      have hmem : reg ∈ c.order := mem_roundRobin.mp (List.mem_of_mem_head? hfirst)
      refine ⟨hmem, ⟨_, _, reg, rfl, hflush⟩, hliterals, hflush.nextAllocate.symm ▸ halloc, hmem,
        fun hsp => ?_⟩
      have hother : isMappingLocation c.other reg = false := by
        rcases hsp with ⟨r, hr, hrframe, hrother⟩ | hsp
        · have hin : r ∈ g.unmapped c := by
            refine List.mem_filter.mpr ⟨mem_roundRobin.mpr hr, ?_⟩
            simp only [Gen.isMappingLocation, hrframe, hrother]
            rfl
          rw [List.head?_eq_none_iff] at hhead
          rw [hhead] at hin
          cases hin
        · exact hsp reg hfirst
      exact ⟨hother, hspare hmem hflush hother _⟩

/-! ## Literals -/

/-- The registers have the literals of the frame. -/
def LiteralsHold (m₀ : Machine) (g : Gen) : Prop :=
  ∀ reg, g.literals reg ≠ 0 → (g.machine m₀).regs reg = g.literals reg

theorem shiftTo_spec {value imm32 : Word} {op : Operand} {m : Machine}
    (h : Gen.shiftTo reg value imm32 = some op) (hreg : m.regs reg = value) :
    m.operand op = imm32 := by
  obtain ⟨i, -, hi⟩ := List.exists_of_findSome?_eq_some h
  split_ifs at hi with hasr hlsl hlsr hror
  all_goals
    obtain rfl := Option.some.inj hi
    unfold Machine.operand
    rw [hreg]
    assumption

theorem hasLiteral_spec (h : LiteralsHold m₀ g) {imm32 : Word} {op : Operand}
    (hop : g.hasLiteral c imm32 = some op) : (g.machine m₀).operand op = imm32 := by
  have hregs : ∀ reg ∈ g.literalRegisters c, (g.machine m₀).regs reg = g.literals reg := by
    intro reg hreg
    exact h reg (bne_iff_ne.mp (List.mem_filter.mp hreg).2)
  unfold Gen.hasLiteral at hop
  cases hfind : (g.literalRegisters c).find? fun reg => g.literals reg == imm32 with
  | some reg =>
    rw [hfind] at hop
    obtain rfl := Option.some.inj hop
    have hvalue := @List.find?_some _ (fun reg => g.literals reg == imm32) _ _ hfind
    unfold Machine.operand
    rw [hregs reg (List.mem_of_find?_eq_some hfind), beq_iff_eq.mp hvalue]
    exact BitVec.shiftLeft_zero imm32
  | none =>
    rw [hfind] at hop
    obtain ⟨reg, hreg, hshift⟩ := List.exists_of_findSome?_eq_some hop
    exact shiftTo_spec hshift (hregs reg hreg)

/-- The register has the immediate, and nothing else has changed. -/
theorem movImm_spec (h : LiteralsHold m₀ g) (rd : ℕ) (imm32 : Word) :
    ∃ instr, g.movImm c rd imm32 = g.emit instr ∧
      (g.machine m₀).step instr = (g.machine m₀).setReg rd imm32 := by
  unfold Gen.movImm
  split_ifs
  · exact ⟨_, rfl, rfl⟩
  · cases hlit : g.hasLiteral c imm32 with
    | some op =>
      refine ⟨_, rfl, ?_⟩
      show (g.machine m₀).setReg rd _ = _
      rw [hasLiteral_spec h hlit]
    | none =>
      cases hnot : g.hasLiteral c (~~~imm32) with
      | some op =>
        refine ⟨_, rfl, ?_⟩
        show (g.machine m₀).setReg rd _ = _
        rw [hasLiteral_spec h hnot, BitVec.not_not]
      | none => exact ⟨_, rfl, rfl⟩

/-- What obtaining a literal in a register does: the register is there already, or it is
allocated and loaded. -/
structure Obtains (c : Context) (m₀ : Machine) (g : Gen) (imm32 : Word) (reg : ℕ) (g' : Gen) :
    Prop where
  value : (g'.machine m₀).regs reg = imm32
  literals : LiteralsHold m₀ g'
  effect : g' = g ∨ ∃ g₁, Allocates c m₀ g reg g₁ ∧ g'.frame = g₁.frame ∧
    g'.nextAllocate = g₁.nextAllocate ∧ g'.nextSpill = g₁.nextSpill ∧
    g'.literals = Function.update g₁.literals reg imm32 ∧
    g'.machine m₀ = (g₁.machine m₀).setReg reg imm32

theorem Allocates.regs {g₁ : Gen} (h : Allocates c m₀ g reg g₁) :
    (g₁.machine m₀).regs = (g.machine m₀).regs := by
  obtain ⟨g₂, a, s, rfl, hflush⟩ := h.flushes
  exact hflush.regs

theorem Allocates.literalsHold {g₁ : Gen} (h : Allocates c m₀ g reg g₁)
    (hliterals : LiteralsHold m₀ g) : LiteralsHold m₀ g₁ := by
  intro r hr
  rw [h.literals, update_apply] at hr ⊢
  rw [h.regs]
  split_ifs at hr ⊢ with heq
  · exact (hr rfl).elim
  · exact hliterals r hr

theorem getLiteral_spec (hlayout : Layout g.frame) (halloc : g.nextAllocate ∈ c.order)
    (hspill : g.nextSpill ∈ c.order) (h : LiteralsHold m₀ g) (imm32 : Word) :
    Obtains c m₀ g imm32 (g.getLiteral c imm32).1 (g.getLiteral c imm32).2 := by
  unfold Gen.getLiteral
  cases hfind : (g.literalRegisters c).find? fun reg => g.literals reg == imm32 with
  | some reg =>
    have hannotated := (List.mem_filter.mp (List.mem_of_find?_eq_some hfind)).2
    have hvalue := @List.find?_some _ (fun reg => g.literals reg == imm32) _ _ hfind
    exact ⟨(h reg (bne_iff_ne.mp hannotated)).trans (beq_iff_eq.mp hvalue), h, .inl rfl⟩
  | none =>
    have hallocates : Allocates c m₀ g (g.allocate c).1 (g.allocate c).2 :=
      allocate_spec hlayout halloc hspill
    have hhold := hallocates.literalsHold h
    obtain ⟨instr, hmov, hstep⟩ := movImm_spec (c := c) hhold (g.allocate c).1 imm32
    simp only [hmov]
    have hmachine : ((((g.allocate c).2.emit instr).setLiteral (g.allocate c).1 imm32).machine m₀) =
        ((g.allocate c).2.machine m₀).setReg (g.allocate c).1 imm32 := by
      rw [Gen.setLiteral_machine, Gen.machine_emit, hstep]
    refine ⟨?_, ?_, .inr ⟨_, hallocates, rfl, rfl, rfl, rfl, hmachine⟩⟩
    · rw [hmachine]
      exact update_self _ _ _
    · intro r hr
      rw [hmachine]
      change update _ _ _ r ≠ 0 at hr
      show update _ _ _ r = update _ _ _ r
      rw [update_apply] at hr
      rw [update_apply, update_apply]
      split_ifs at hr ⊢ with heq
      · rfl
      · exact hhold r hr

end CldcVm.Merge
