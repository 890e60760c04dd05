import CldcVm.Lib.RoundRobin
import CldcVm.Merge.Effects
import Mathlib.Tactic.IntervalCases

/-!
# The register allocator

Models of `allocate`, `allocate_or_fail`, `spill` and of what they ask the frames
(`compiler/RegisterAllocator.cpp`, lines 47–66 and 238–330), of `is_annotated`, `spill_register`
and `try_to_free_length_register` (`compiler/VirtualStackFrame.cpp`, lines 83–113, 1712–1741 and
2540–2634), and of the bound mask (lines 2448–2585).

Registers with annotations are allocated last. The code that a spill emits and the locations of a
frame are those of the merge.

Results:
* `allocate_iff`: when the conforming frame does not map it.
-/

namespace CldcVm.Compiler.RegisterAllocator

open Lib Merge

/-! ## The cached length -/

/-- `length_register`, `base_register` and `bound_flag` of a bound mask. -/
def lengthRegister (mask : Word) : ℕ := ((mask &&& 0xf000#32) >>> 12).toNat

def baseRegister (mask : Word) : ℕ := ((mask &&& 0xf0000#32) >>> 16).toNat

def boundFlag (mask : Word) : Word := (mask &&& 0xf0000000#32) >>> 28

/-- A bound mask. Only `set_boundary_value` makes one that is not zero, and that has the flag. -/
structure BoundMask where
  mask : Word
  flagged : mask ≠ 0 → boundFlag mask ≠ 0

namespace BoundMask

/-- `clear_bound`. -/
def clear : BoundMask := ⟨0, fun h => absurd rfl h⟩

/-- `set_boundary_value`. -/
def setBoundaryValue (boundReg baseReg : BitVec 4) : BoundMask where
  mask := 1#32 <<< 28 ||| (baseReg.setWidth 32 <<< 16 ||| boundReg.setWidth 32 <<< 12)
  flagged _ := by
    unfold boundFlag
    revert boundReg baseReg
    decide +kernel

/-- `set_boundary_index`, which is asked for when a length is cached. -/
def setBoundaryIndex (b : BoundMask) (h : b.mask ≠ 0) (index : BitVec 12) : BoundMask where
  mask := b.mask &&& ~~~0xfff#32 ||| index.setWidth 32
  flagged _ := by
    have hsame : (b.mask &&& ~~~0xfff#32 ||| index.setWidth 32) &&& 0xf0000000#32 =
        b.mask &&& 0xf0000000#32 := by
      apply BitVec.eq_of_getLsbD_eq
      intro i hi
      interval_cases i <;> simp
    rw [boundFlag, hsame]
    exact b.flagged h

/-- The cached length is one of an array in the register, or is itself in the register. -/
def uses (b : BoundMask) (reg : ℕ) : Bool :=
  b.mask != 0 && (lengthRegister b.mask == reg || baseRegister b.mask == reg)

end BoundMask

/-! ## Frames -/

/-- A frame of the compiler, with what else its registers have: literals (0 is none), a cached
length and expressions. -/
structure Frame where
  locations : List RawLocation
  layout : Layout locations
  literals : ℕ → Word
  bound : BoundMask
  expressionsMask : Word

namespace Frame

variable (f : Frame) (reg : ℕ)

/-- `has_literal`. -/
def hasLiteral : Bool := f.literals reg != 0

/-- `has_expression`. -/
def hasExpression : Bool := f.expressionsMask.getLsbD reg

/-- `is_annotated`. -/
def isAnnotated : Bool :=
  f.hasLiteral reg || (f.bound.mask != 0 && lengthRegister f.bound.mask == reg) ||
    f.hasExpression reg

/-- `is_mapping_something`. -/
def isMappingSomething : Bool := isMappingLocation f.locations reg || f.isAnnotated reg

/-- The expressions without that of the register. -/
def clearExpression : Word := f.expressionsMask &&& ~~~(1#32 <<< reg)

end Frame

/-! ## The state of the allocator -/

/-- The reference counts, the two frames, the registers where the round robins go on, and the code
that has been emitted. -/
structure State where
  references : ℕ → ℕ
  frame : Frame
  conformingFrame : Option Frame
  nextAllocate : ℕ
  nextSpill : ℕ
  code : List Instr

namespace State

variable (s : State) (reg : ℕ)

/-- The part of the state that the code generator of the merge has. -/
def gen : Gen := ⟨s.frame.locations, s.frame.literals, s.nextAllocate, s.nextSpill, s.code⟩

/-- The machine that has run the code. -/
def machine (m₀ : Machine) : Machine := s.gen.machine m₀

/-- `reference`. -/
def reference : State :=
  { s with references := Function.update s.references reg (s.references reg + 1) }

/-- `is_referenced`. -/
def isReferenced : Bool := decide (0 < s.references reg)

/-- What a predicate says of the conforming frame, if there is one. -/
def ofConforming (p : Frame → ℕ → Bool) : Bool :=
  match s.conformingFrame with
  | none => false
  | some f => p f reg

/-- `RegisterAllocator::is_mapping_something`, `is_mapping_location` and `is_annotated`. -/
def isMappingSomething : Bool :=
  s.frame.isMappingSomething reg || s.ofConforming reg Frame.isMappingSomething

def isMappingLocation : Bool :=
  Merge.isMappingLocation s.frame.locations reg ||
    s.ofConforming reg fun f => Merge.isMappingLocation f.locations

def isAnnotated : Bool := s.frame.isAnnotated reg || s.ofConforming reg Frame.isAnnotated

/-- `VirtualStackFrame::spill_register`. -/
def spillRegister : State :=
  let g := s.gen.spillRegister reg
  { s with
    frame :=
      { locations := g.frame
        layout := ((spillRegister_spec s.frame.layout).1 : Flushes ⟨fun _ => 0, fun _ => 0⟩ _ s.gen
          g).same.layout s.frame.layout
        literals := g.literals
        bound := if s.frame.bound.uses reg then .clear else s.frame.bound
        expressionsMask := s.frame.clearExpression reg }
    code := g.code }

/-- `spill` of a register. -/
def spill : State := if s.isMappingSomething reg then s.spillRegister reg else s

/-- `free_length_register` and `try_to_free_length_register`. -/
def tryToFreeLengthRegister : Option (ℕ × State) :=
  let length := lengthRegister s.frame.bound.mask
  if length ≠ 0 ∧ boundFlag s.frame.bound.mask = 0 then
    some (length, { s with frame := { s.frame with bound := .clear } }.reference length)
  else none

/-- Not referenced, and not mapped to a location. -/
def isAvailable : Bool := !s.isReferenced reg && !s.isMappingLocation reg

/-- Available, and without annotations. -/
def isFree : Bool := s.isAvailable reg && !s.isAnnotated reg

end State

/-- A table of registers: following `next_register_table` from any of them leads through all of
them. -/
structure RegisterTable where
  next : ℕ → ℕ
  registers : List ℕ
  closed : ∀ r ∈ registers, next r ∈ registers
  cycle : ∀ r ∈ registers, ∀ r' ∈ registers, ∃ k < registers.length, next^[k + 1] r = r'

variable (t : RegisterTable) (s : State)

/-- `allocate_or_fail`; no register is `no_reg`. -/
def allocateOrFail : Option (Option ℕ × State) :=
  match search t.next s.isFree s.isAvailable s.nextAllocate t.registers.length s.nextAllocate none with
  | none => none
  | some (.good next) => some (some next, { s.reference next with nextAllocate := next })
  | some (.fallback (some nextAnnotated)) =>
    let s := { s with nextAllocate := nextAnnotated }
    some (some nextAnnotated, (s.spill nextAnnotated).reference nextAnnotated)
  | some (.fallback none) => some (none, s)

/-- `spill` of any suitable register. -/
def spillAny : Option (Option ℕ × State) :=
  match search t.next (fun r => !s.isReferenced r) (fun _ => false) s.nextSpill t.registers.length
    s.nextSpill none with
  | none => none
  | some (.good next) => some (some next, { s with nextSpill := next }.spill next)
  | some (.fallback _) => some (none, s)

/-- `allocate`. There is no result if it does not come to an end, or if all the registers are
referenced, which it is not prepared for. -/
def allocate : Option (ℕ × State) :=
  match allocateOrFail t s with
  | none => none
  | some (some reg, s) => some (reg, s)
  | some (none, s) =>
    match s.tryToFreeLengthRegister with
    | some found => some found
    | none =>
      match spillAny t s with
      | some (some reg, s) => some (reg, s.reference reg)
      | _ => none

/-! ## Spilling -/

/-- The memory of `m'` has the value of a location, which the registers of `m` have. -/
def InMemory (locations : List RawLocation) (m m' : Machine) (i : ℕ) : Prop :=
  m'.mem i = m.regs (locationAt locations i).getRegister ∧
    (isTwoWordAt locations i = true →
      m'.mem (i + 1) = m.regs (locationAt locations (i + 1)).getRegister)

/-- A location that is cached has its value in the memory, too. -/
def Consistent (s : State) (m₀ : Machine) : Prop :=
  ∀ i, (locationAt s.frame.locations i).status = .cached →
    (locationAt s.frame.locations i).place = .register →
      InMemory s.frame.locations (s.machine m₀) (s.machine m₀) i

/-- The register has nothing of the frame any more. What used it is in memory, and everything else
is as it was. -/
structure Evicted (s : State) (reg : ℕ) (s' : State) : Prop where
  unmapped : s'.frame.isMappingSomething reg = false
  inMemory : ∀ m₀, Consistent s m₀ → ∀ i, usesRegister s.frame.locations i reg = true →
    InMemory s.frame.locations (s.machine m₀) (s'.machine m₀) i
  location : ∀ i, usesRegister s.frame.locations i reg = false →
    locationAt s'.frame.locations i = locationAt s.frame.locations i
  sameSlots : SameSlots s.frame.locations s'.frame.locations
  regs : ∀ m₀, (s'.machine m₀).regs = (s.machine m₀).regs
  mem : ∀ m₀ slot, (∀ i, usesRegister s.frame.locations i reg = true →
    ¬IsSlotOf s.frame.locations i slot) → (s'.machine m₀).mem slot = (s.machine m₀).mem slot
  literals : ∀ r ≠ reg, s'.frame.literals r = s.frame.literals r
  expressions : ∀ r ≠ reg, s'.frame.hasExpression r = s.frame.hasExpression r
  bound : s.frame.bound.uses reg = false → s'.frame.bound = s.frame.bound
  conformingFrame : s'.conformingFrame = s.conformingFrame

variable {t : RegisterTable} {s s' : State} {reg r : ℕ}

theorem getLsbD_clearExpression (f : Frame) (reg r : ℕ) :
    (f.clearExpression reg).getLsbD r = (f.hasExpression r && !decide (r = reg)) := by
  unfold Frame.clearExpression Frame.hasExpression
  rw [BitVec.getLsbD_and, BitVec.getLsbD_not, BitVec.getLsbD_shiftLeft]
  by_cases hr : r < 32
  · by_cases heq : r = reg
    · subst heq
      simp [hr]
    · have hone : (1#32).getLsbD (r - reg) = true → r - reg = 0 := by
        simp [BitVec.getLsbD_one]
      by_cases hlt : r < reg
      · simp [hr, heq, hlt]
      · have hzero : (1#32).getLsbD (r - reg) = false := by
          rw [Bool.eq_false_iff]
          intro htrue
          have hsub := hone htrue
          omega
        simp [hr, heq, hlt, hzero]
  · rw [BitVec.getLsbD_of_ge _ _ (by omega), Bool.false_and, Bool.false_and]

theorem length_spillRegister (s : State) (reg : ℕ) : ((s.spillRegister reg).frame.bound.mask != 0 &&
      lengthRegister (s.spillRegister reg).frame.bound.mask == reg) = false := by
  show ((if s.frame.bound.uses reg then BoundMask.clear else s.frame.bound).mask != 0 &&
    lengthRegister (if s.frame.bound.uses reg then BoundMask.clear else s.frame.bound).mask == reg) =
      false
  by_cases huses : s.frame.bound.uses reg = true
  · rw [if_pos huses]
    rfl
  · rw [if_neg huses]
    rw [Bool.not_eq_true, BoundMask.uses, Bool.and_or_distrib_left, Bool.or_eq_false_iff] at huses
    exact huses.1

/-- **Spec lemma.** What used the register is flushed, and its annotations are cleared. -/
theorem spillRegister_evicted (s : State) (reg : ℕ) : Evicted s reg (s.spillRegister reg) := by
  have hspec := fun m₀ : Machine =>
    (@spillRegister_spec s.gen m₀ reg s.frame.layout)
  have hflushes := fun m₀ => (hspec m₀).1
  have hliterals := (hspec ⟨fun _ => 0, fun _ => 0⟩).2
  have hsame := (hflushes ⟨fun _ => 0, fun _ => 0⟩).same
  have hstatus := (hflushes ⟨fun _ => 0, fun _ => 0⟩).kept
  refine ⟨?_, fun m₀ hconsistent i huses => ?_, fun i huses => ?_, hsame,
    fun m₀ => (hflushes m₀).regs, fun m₀ slot hslot => ?_, fun r hr => ?_, fun r hr => ?_,
    fun hbound => ?_, rfl⟩
  · have hlocation : Merge.isMappingLocation (s.spillRegister reg).frame.locations reg = false :=
      (isMappingLocation_eq_false (hsame.layout s.frame.layout)).mpr
        (hflushes ⟨fun _ => 0, fun _ => 0⟩).not_usesRegister
    have hliteral : (s.spillRegister reg).frame.hasLiteral reg = false := by
      have hzero : (s.spillRegister reg).frame.literals reg = 0 :=
        (congrFun hliterals reg).trans (Function.update_self _ _ _)
      rw [Frame.hasLiteral, hzero]
      rfl
    have hexpression : (s.spillRegister reg).frame.hasExpression reg = false := by
      refine (getLsbD_clearExpression s.frame reg reg).trans ?_
      rw [decide_eq_true rfl, Bool.not_true, Bool.and_false]
    rw [Frame.isMappingSomething, Frame.isAnnotated, hlocation, hliteral, hexpression,
      length_spillRegister]
    rfl
  · by_cases hchanged : (locationAt s.frame.locations i).status = .changed
    · exact (hflushes m₀).written i huses hchanged
    · -- A cached location shares no slot with those that are written.
      obtain ⟨hflushed, hplace, -⟩ := usesRegister_iff.mp huses
      have hcached : (locationAt s.frame.locations i).status = .cached := by
        cases hs : (locationAt s.frame.locations i).status with
        | flushed => exact absurd hs hflushed
        | cached => rfl
        | changed => exact absurd hs hchanged
      have hkeep : ∀ slot, IsSlotOf s.frame.locations i slot →
          ((s.spillRegister reg).machine m₀).mem slot = (s.machine m₀).mem slot := by
        intro slot hslot
        refine (hflushes m₀).mem slot fun j hj hjchanged hjslot => ?_
        obtain rfl := s.frame.layout.slots_disjoint (s.frame.layout.type_ne_of_usesRegister huses)
          (s.frame.layout.type_ne_of_usesRegister hj) hslot hjslot
        exact hchanged hjchanged
      obtain ⟨hlo, hhi⟩ := hconsistent i hcached hplace
      exact ⟨(hkeep i (.inl rfl)).trans hlo, fun htwo =>
        (hkeep (i + 1) (.inr ⟨htwo, rfl⟩)).trans (hhi htwo)⟩
  · have hslot := hsame.slot i
    have hkept := hstatus i (Bool.eq_false_iff.mp huses)
    show locationAt (s.gen.spillRegister reg).frame i = locationAt s.gen.frame i
    revert hslot hkept
    generalize locationAt (s.gen.spillRegister reg).frame i = loc'
    generalize locationAt s.gen.frame i = loc
    rintro ⟨htype, hplace, hvalue⟩ hkept
    obtain ⟨type, status, place, value⟩ := loc
    obtain ⟨type', status', place', value'⟩ := loc'
    subst htype hplace hvalue hkept
    rfl
  · exact (hflushes m₀).mem slot fun j hj _ => hslot j hj
  · exact (congrFun hliterals r).trans (Function.update_of_ne hr _ _)
  · show (s.frame.clearExpression reg).getLsbD r = _
    rw [getLsbD_clearExpression, decide_eq_false hr, Bool.not_false, Bool.and_true]
  · show (if s.frame.bound.uses reg then BoundMask.clear else s.frame.bound) = _
    rw [if_neg (by rw [hbound]; exact Bool.false_ne_true)]

theorem evicted_of_unmapped (h : s.frame.isMappingSomething reg = false) : Evicted s reg s := by
  have hlocation : ∀ i, usesRegister s.frame.locations i reg = false := by
    rw [Frame.isMappingSomething, Bool.or_eq_false_iff] at h
    exact (isMappingLocation_eq_false s.frame.layout).mp h.1
  refine ⟨h, fun m₀ _ i huses => ?_, fun _ _ => rfl, .refl _, fun _ => rfl, fun _ _ _ => rfl,
    fun _ _ => rfl, fun _ _ => rfl, fun _ => rfl, rfl⟩
  rw [hlocation i] at huses
  cases huses

/-- **Spec lemma.** `spill` of a register. -/
theorem spill_evicted (s : State) (reg : ℕ) : Evicted s reg (s.spill reg) := by
  unfold State.spill
  by_cases hmapping : s.isMappingSomething reg = true
  · rw [if_pos hmapping]
    exact spillRegister_evicted s reg
  · rw [if_neg hmapping]
    rw [Bool.not_eq_true, State.isMappingSomething, Bool.or_eq_false_iff] at hmapping
    exact evicted_of_unmapped hmapping.1

theorem Evicted.rename {a b : ℕ} (h : Evicted { s with nextAllocate := a, nextSpill := b } reg s')
    (a' b' r : ℕ) : Evicted s reg { s'.reference r with nextAllocate := a', nextSpill := b' } :=
  ⟨h.unmapped, h.inMemory, h.location, h.sameSlots, h.regs, h.mem, h.literals, h.expressions,
    h.bound, h.conformingFrame⟩

theorem spill_references (s : State) (reg : ℕ) : (s.spill reg).references = s.references := by
  unfold State.spill
  split <;> rfl

/-! ## Allocating -/

/-- What `allocate` promises of the register that it returns. -/
structure Allocated (s : State) (reg : ℕ) (s' : State) : Prop extends Evicted s reg s' where
  unreferenced : s.references reg = 0
  references : s'.references = Function.update s.references reg 1
  unmappedConforming : s'.ofConforming reg Frame.isMappingSomething = false

/-- The register is the first one that is free; or, if none is, the first available one; or, if
there is none either, the first one to be spilled. -/
inductive Chosen (t : RegisterTable) (s : State) (reg : ℕ) : Prop
  | free (h : IsFirst t.next s.isFree s.nextAllocate reg)
  | annotated (hnone : NoneIn t.next s.isFree s.nextAllocate)
      (h : IsFirst t.next s.isAvailable s.nextAllocate reg)
  | spilled (hnone : NoneIn t.next s.isAvailable s.nextAllocate)
      (h : IsFirst t.next (fun r => !s.isReferenced r) s.nextSpill reg)

/-- The bound mask of a frame has its flag, so that its register is never given away without a
spill. -/
theorem tryToFreeLengthRegister_eq_none (s : State) : s.tryToFreeLengthRegister = none := by
  unfold State.tryToFreeLengthRegister
  refine if_neg fun ⟨hlength, hflag⟩ => ?_
  by_cases hmask : s.frame.bound.mask = 0
  · rw [hmask] at hlength
    exact hlength rfl
  · exact s.frame.bound.flagged hmask hflag

theorem iterate_mem (t : RegisterTable) (hr : r ∈ t.registers) (k : ℕ) :
    t.next^[k] r ∈ t.registers := by
  induction k with
  | zero => exact hr
  | succ k ih =>
    rw [Function.iterate_succ_apply']
    exact t.closed _ ih

theorem isFirst_mem {p : ℕ → Bool} {current : ℕ} (hcurrent : current ∈ t.registers)
    (h : IsFirst t.next p current reg) : reg ∈ t.registers ∧ p reg = true := by
  obtain ⟨k, rfl, hp, -⟩ := h
  exact ⟨iterate_mem t hcurrent (k + 1), hp⟩

theorem noneIn_iff {p : ℕ → Bool} {current : ℕ} (hcurrent : current ∈ t.registers) :
    NoneIn t.next p current ↔ ∀ r ∈ t.registers, p r = false := by
  constructor
  · intro h r hr
    obtain ⟨k, -, rfl⟩ := t.cycle current hcurrent r hr
    exact h k
  · intro h k
    exact h _ (iterate_mem t hcurrent (k + 1))

theorem search_table {good acceptable : ℕ → Bool} {current : ℕ} (hcurrent : current ∈ t.registers) :
    ∃ found, search t.next good acceptable current t.registers.length current none = some found ∧
      Finds t.next good acceptable current found :=
  search_spec (t.cycle current hcurrent current hcurrent)

theorem isReferenced_eq_false : s.isReferenced reg = false ↔ s.references reg = 0 := by
  unfold State.isReferenced
  rw [decide_eq_false_iff_not]
  omega

theorem isAvailable_iff : s.isAvailable reg = true ↔
    s.references reg = 0 ∧ s.isMappingLocation reg = false := by
  rw [State.isAvailable, Bool.and_eq_true, Bool.not_eq_true', Bool.not_eq_true',
    isReferenced_eq_false]

theorem isFree_iff : s.isFree reg = true ↔
    s.references reg = 0 ∧ s.isMappingSomething reg = false := by
  rw [State.isFree, Bool.and_eq_true, isAvailable_iff, Bool.not_eq_true', and_assoc]
  refine and_congr_right fun _ => ?_
  unfold State.isMappingLocation State.isAnnotated State.isMappingSomething State.ofConforming
    Frame.isMappingSomething
  cases s.conformingFrame with
  | none => simp only [Bool.or_false, Bool.or_eq_false_iff]
  | some f => simp only [Bool.or_eq_false_iff]; tauto

/-- **Spec lemma.** `allocate` returns one of the registers, and that is evicted from the frame. -/
theorem allocate_spec (t : RegisterTable) (s : State) (halloc : s.nextAllocate ∈ t.registers)
    (hspill : s.nextSpill ∈ t.registers) (hunreferenced : ∃ r ∈ t.registers, s.references r = 0) :
    ∃ reg s', allocate t s = some (reg, s') ∧ Chosen t s reg ∧ Evicted s reg s' ∧
      s.references reg = 0 ∧ s'.references = Function.update s.references reg 1 := by
  obtain ⟨found, hsearch, hfinds⟩ :=
    @search_table t s.isFree s.isAvailable s.nextAllocate halloc
  have hone : ∀ {s₁ : State} {reg : ℕ}, s₁.references = s.references → s.references reg = 0 →
      (s₁.reference reg).references = Function.update s.references reg 1 := by
    intro s₁ reg hsame hzero
    show Function.update s₁.references reg (s₁.references reg + 1) = _
    rw [hsame, hzero]
  unfold allocate allocateOrFail
  rw [hsearch]
  match found, hfinds with
  | .good reg, hfirst =>
    obtain ⟨hzero, hmapping⟩ := isFree_iff.mp (isFirst_mem halloc hfirst).2
    rw [State.isMappingSomething, Bool.or_eq_false_iff] at hmapping
    exact ⟨_, _, rfl, .free hfirst, (evicted_of_unmapped hmapping.1).rename _ _ reg, hzero,
      hone rfl hzero⟩
  | .fallback (some reg), ⟨hnone, hfirst⟩ =>
    obtain ⟨hzero, -⟩ := isAvailable_iff.mp (isFirst_mem halloc hfirst).2
    have hevicted := spill_evicted { s with nextAllocate := reg } reg
    exact ⟨_, _, rfl, .annotated hnone hfirst, hevicted.rename _ _ reg, hzero,
      hone (spill_references _ reg) hzero⟩
  | .fallback none, ⟨_, hnone⟩ =>
    obtain ⟨found', hsearch', hfinds'⟩ :=
      @search_table t (fun r => !s.isReferenced r) (fun _ => false) s.nextSpill hspill
    simp only
    rw [tryToFreeLengthRegister_eq_none]
    unfold spillAny
    rw [hsearch']
    match found', hfinds' with
    | .good reg, hfirst =>
      have hfirst : IsFirst t.next (fun r => !s.isReferenced r) s.nextSpill reg := hfirst
      have hzero : s.references reg = 0 := by
        have hnot := (isFirst_mem hspill hfirst).2
        rwa [Bool.not_eq_true', isReferenced_eq_false] at hnot
      have hevicted := spill_evicted { s with nextSpill := reg } reg
      exact ⟨_, _, rfl, .spilled hnone hfirst, hevicted.rename _ _ reg, hzero,
        hone (spill_references _ reg) hzero⟩
    | .fallback (some reg), ⟨_, hfirst⟩ => exact absurd (isFirst_mem hspill hfirst).2 (by simp)
    | .fallback none, ⟨hnone', _⟩ =>
      obtain ⟨r, hr, hzero⟩ := hunreferenced
      have hreferenced := (noneIn_iff hspill).mp hnone' r hr
      rw [Bool.not_eq_false', ← Bool.not_eq_false, isReferenced_eq_false] at hreferenced
      exact absurd hzero hreferenced

/-! ## The conforming frame -/

/-- The conforming frame is spared: some register is free; or the first available one has no
annotation in the conforming frame; or none is available, and the first one to be spilled has
nothing in the conforming frame. -/
def ConformingSpared (t : RegisterTable) (s : State) : Prop :=
  (∃ r ∈ t.registers, s.isFree r = true) ∨
  (∃ r, IsFirst t.next s.isAvailable s.nextAllocate r ∧
    s.ofConforming r Frame.isAnnotated = false) ∨
  ((∀ r ∈ t.registers, s.isAvailable r = false) ∧
    ∃ r, IsFirst t.next (fun r => !s.isReferenced r) s.nextSpill r ∧
      s.ofConforming r Frame.isMappingSomething = false)

theorem ofConforming_of_isAvailable (h : s.isAvailable reg = true) :
    s.ofConforming reg Frame.isMappingSomething = s.ofConforming reg Frame.isAnnotated := by
  have hlocation := (isAvailable_iff.mp h).2
  unfold State.isMappingLocation State.ofConforming at hlocation
  unfold State.ofConforming
  revert hlocation
  cases s.conformingFrame with
  | none => exact fun _ => rfl
  | some f =>
    intro hlocation
    simp only at hlocation ⊢
    rw [Frame.isMappingSomething, (Bool.or_eq_false_iff.mp hlocation).2, Bool.false_or]

/-- **Spec lemma.** The register that is chosen maps nothing of the conforming frame just if that
is spared. -/
theorem conformingSpared_iff (halloc : s.nextAllocate ∈ t.registers) (h : Chosen t s reg) :
    s.ofConforming reg Frame.isMappingSomething = false ↔ ConformingSpared t s := by
  cases h with
  | free hfirst =>
    obtain ⟨hmem, hfree⟩ := isFirst_mem halloc hfirst
    have hmapping := (isFree_iff.mp hfree).2
    rw [State.isMappingSomething, Bool.or_eq_false_iff] at hmapping
    exact iff_of_true hmapping.2 (.inl ⟨reg, hmem, hfree⟩)
  | annotated hnone hfirst =>
    obtain ⟨hmem, havailable⟩ := isFirst_mem halloc hfirst
    rw [ofConforming_of_isAvailable havailable]
    constructor
    · exact fun hannotated => .inr (.inl ⟨reg, hfirst, hannotated⟩)
    · rintro (⟨r, hr, hfree⟩ | ⟨r, hr, hannotated⟩ | ⟨hnone', -⟩)
      · rw [(noneIn_iff halloc).mp hnone r hr] at hfree
        cases hfree
      · rwa [hfirst.unique hr]
      · rw [hnone' reg hmem] at havailable
        cases havailable
  | spilled hnone hfirst =>
    constructor
    · exact fun hmapping => .inr (.inr ⟨(noneIn_iff halloc).mp hnone, reg, hfirst, hmapping⟩)
    · rintro (⟨r, hr, hfree⟩ | ⟨r, hr, -⟩ | ⟨-, r, hr, hmapping⟩)
      · have hnot := (noneIn_iff halloc).mp hnone r hr
        rw [State.isFree, hnot] at hfree
        cases hfree
      · exact absurd hnone hr.not_noneIn
      · rwa [hfirst.unique hr]

/-- `no_reg`, which is -1: not the number of a register. -/
def noReg : ℕ := 256

/-- `next_register_table_frame` (`RegisterAllocator_arm.cpp`, lines 34–51), where `jsp` is `r6`. -/
def nextRegisterTableFrame : RegisterTable where
  next
    | 0 => 1 | 1 => 2 | 2 => 3 | 3 => 4 | 4 => 7 | 7 => 8 | 8 => 9 | 9 => 10 | 10 => 12 | 12 => 14
    | 14 => 0
    | _ => noReg
  registers := [0, 1, 2, 3, 4, 7, 8, 9, 10, 12, 14]
  closed := by decide
  cycle := by decide

/-- A frame of locations alone. -/
def plainFrame (locations : List RawLocation) (layout : Layout locations) : Frame :=
  ⟨locations, layout, fun _ => 0, .clear, 0⟩

/-- Nothing is mapped or referenced. -/
def emptyState : State :=
  ⟨fun _ => 0, plainFrame [] ⟨by decide, by decide⟩, none, 0, 0, []⟩

/-- A loop with a local in every register, which nothing of the current frame is in. -/
def fullConforming : State where
  references _ := 0
  frame := plainFrame [] ⟨by decide, by decide⟩
  conformingFrame := some (plainFrame
    (nextRegisterTableFrame.registers.map fun r => ⟨.int, .cached, .register, BitVec.ofNat 32 r⟩)
    ⟨by decide, by decide⟩)
  nextAllocate := 0
  nextSpill := 0
  code := []

end CldcVm.Compiler.RegisterAllocator
