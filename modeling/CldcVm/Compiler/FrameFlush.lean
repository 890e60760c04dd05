import CldcVm.Compiler.FrameMap
import CldcVm.Lib.Scatter
import CldcVm.Merge.VirtualFrame

/-!
# Flushing and restoring a frame by its map

Models of `emit_vsf` over a frame (`BinaryAssemblerCommon.cpp`, lines 174–260), and of
`vsf_flush_do` and `vsf_restore_do` (`VirtualStackFrame.cpp`, lines 3172–3212 and 3231–3270).
The Java stack grows downwards.

Results:
* `emitVsf_roundTrip`: flushing stores each mapped register into its slots, restoring is the
  inverse, and the reader skips the map.
-/

namespace CldcVm.Compiler.CompressedFrame

open Lib Merge

/-! ## The frame -/

/-- The registers of `next_register_table_frame` (`RegisterAllocator_arm.cpp`, lines 34–51). -/
def frameRegisters : List ℕ := [0, 1, 2, 3, 4, 7, 8, 9, 10, 12, 14]

/-- `!loc->is_flushed() && loc->in_register()`. -/
def isMapped (loc : RawLocation) : Bool := loc.status != .flushed && loc.place == .register

/-- Slot `i` is the first or the second word of the location at `j`, and that is mapped. -/
def IsMappedBy (frame : List RawLocation) (j i : ℕ) : Prop :=
  isMapped (locationAt frame j) = true ∧ (i = j ∨ isTwoWordAt frame j = true ∧ i = j + 1)

/-- The frame maps slot `i` to register `r`. -/
def MapsSlot (frame : List RawLocation) (i r : ℕ) : Prop :=
  (∃ j, IsMappedBy frame j i) ∧ (locationAt frame i).getRegister = r

/-- A frame when a checkpoint is emitted. Its locations and the difference of its stack pointers
fit the counts of `max_execution_stack_count`, which is a ushort. -/
structure VirtualStackFrame where
  locations : List RawLocation
  stackPointer : ℤ
  layout : Layout locations
  allocated : ∀ i r, MapsSlot locations i r → r ∈ frameRegisters
  length_le : locations.length ≤ 2 ^ 17
  stackPointer_near : (stackPointer - (locations.length - 1)).natAbs < 65536

namespace VirtualStackFrame

/-- `virtual_stack_pointer`: the index of the last location. -/
def virtualStackPointer (frame : VirtualStackFrame) : ℤ := frame.locations.length - 1

/-- `sp_delta` of `emit_vsf`. -/
def spDelta (frame : VirtualStackFrame) : ℤ := frame.stackPointer - frame.virtualStackPointer

end VirtualStackFrame

/-- The loop of both passes of `emit_vsf` over the locations: what is mapped, from `index` on. -/
def mappedFrom : (secondWord : Bool) → (index : ℕ) → List RawLocation → List (ℕ × ℕ)
  | _, _, [] => []
  | secondWord, index, loc :: locations =>
    if secondWord || isMapped loc then
      (index, loc.getRegister) :: mappedFrom loc.type.isTwoWord (index + 1) locations
    else mappedFrom secondWord (index + 1) locations

variable {frame : List RawLocation} {i j r : ℕ}

theorem isMapped_lt (h : isMapped (locationAt frame j) = true) : j < frame.length := by
  by_contra hge
  rw [locationAt_of_length_le (Nat.le_of_not_lt hge)] at h
  cases h

theorem not_mapped_of_illegal (h : Layout frame) (htype : (locationAt frame j).type = .illegal) :
    isMapped (locationAt frame j) = false ∧ (locationAt frame j).type.isTwoWord = false := by
  refine ⟨?_, by rw [htype]; rfl⟩
  rw [isMapped, h.place_eq_nowhere htype]
  exact Bool.and_false _

/-- A pass of `emit_vsf` finds the slots of the locations from `index` on, and the one at `index`
if it is a second word. -/
theorem mem_mappedFrom (hlayout : Layout frame) {locations : List RawLocation} {index : ℕ}
    {secondWord : Bool} (hdrop : frame.drop index = locations)
    (hsecond : secondWord = true → (locationAt frame index).type = .illegal ∧ index < frame.length) :
    (i, r) ∈ mappedFrom secondWord index locations ↔ (locationAt frame i).getRegister = r ∧
        ((secondWord = true ∧ i = index) ∨ ∃ j, index ≤ j ∧ IsMappedBy frame j i) := by
  induction locations generalizing index secondWord with
  | nil =>
    have hlength : frame.length ≤ index := List.drop_eq_nil_iff.mp hdrop
    refine iff_of_false List.not_mem_nil ?_
    rintro ⟨-, ⟨htrue, -⟩ | ⟨j, hj, hmapped, -⟩⟩
    · have hlt := (hsecond htrue).2
      omega
    · have hlt := isMapped_lt hmapped
      omega
  | cons loc locations ih =>
    have hlt : index < frame.length := by
      by_contra hge
      rw [List.drop_eq_nil_of_le (Nat.le_of_not_lt hge)] at hdrop
      cases hdrop
    rw [List.drop_eq_getElem_cons hlt, List.cons.injEq] at hdrop
    obtain ⟨hloc, hdrop⟩ := hdrop
    have hat : locationAt frame index = loc := by
      rw [locationAt, List.getD_eq_getElem _ _ hlt, hloc]
    -- The location at `index`, and those after it.
    have hsplit : (∃ j, index ≤ j ∧ IsMappedBy frame j i) ↔
        IsMappedBy frame index i ∨ ∃ j, index + 1 ≤ j ∧ IsMappedBy frame j i := by
      constructor
      · rintro ⟨j, hj, hby⟩
        obtain rfl | hlt := Nat.eq_or_lt_of_le hj
        · exact .inl hby
        · exact .inr ⟨j, hlt, hby⟩
      · rintro (hby | ⟨j, hj, hby⟩)
        · exact ⟨index, le_rfl, hby⟩
        · exact ⟨j, by omega, hby⟩
    have hby : IsMappedBy frame index i ↔ isMapped loc = true ∧
        (i = index ∨ loc.type.isTwoWord = true ∧ i = index + 1) := by
      rw [IsMappedBy, isTwoWordAt, hat]
    have hnext : loc.type.isTwoWord = true →
        (locationAt frame (index + 1)).type = .illegal ∧ index + 1 < frame.length := by
      intro htwo
      obtain ⟨hlt, htype⟩ := hlayout.two_word index hlt (by rw [isTwoWordAt, hat]; exact htwo)
      exact ⟨htype, hlt⟩
    rw [mappedFrom, hsplit, hby]
    cases hflag : secondWord with
    | true =>
      obtain ⟨hmapped, htwo⟩ := not_mapped_of_illegal hlayout (hsecond hflag).1
      rw [hat] at hmapped htwo
      rw [Bool.true_or, if_pos rfl, List.mem_cons, Prod.mk.injEq, ih hdrop hnext, hmapped, htwo,
        ← hat]
      constructor
      · rintro (⟨rfl, rfl⟩ | ⟨hr, ⟨hfalse, -⟩ | hlater⟩)
        · exact ⟨rfl, .inl ⟨rfl, rfl⟩⟩
        · cases hfalse
        · exact ⟨hr, .inr (.inr hlater)⟩
      · rintro ⟨rfl, ⟨-, rfl⟩ | ⟨hfalse, -⟩ | hlater⟩
        · exact .inl ⟨rfl, rfl⟩
        · cases hfalse
        · exact .inr ⟨rfl, .inr hlater⟩
    | false =>
      rw [Bool.false_or]
      cases hmapped : isMapped loc with
      | true =>
        rw [if_pos rfl, List.mem_cons, Prod.mk.injEq, ih hdrop hnext, ← hat]
        constructor
        · rintro (⟨rfl, rfl⟩ | ⟨hr, htwo | hlater⟩)
          · exact ⟨rfl, .inr (.inl ⟨rfl, .inl rfl⟩)⟩
          · exact ⟨hr, .inr (.inl ⟨rfl, .inr htwo⟩)⟩
          · exact ⟨hr, .inr (.inr hlater)⟩
        · rintro ⟨rfl, ⟨hfalse, -⟩ | ⟨-, rfl | htwo⟩ | hlater⟩
          · cases hfalse
          · exact .inl ⟨rfl, rfl⟩
          · exact .inr ⟨rfl, .inl htwo⟩
          · exact .inr ⟨rfl, .inr hlater⟩
      | false =>
        rw [if_neg Bool.false_ne_true, ih hdrop (fun hfalse => absurd hfalse Bool.false_ne_true)]
        simp only [Bool.false_eq_true, false_and, false_or]

/-- **Spec lemma.** The passes of `emit_vsf` find the slots that the frame maps. -/
theorem mem_mappedFrom_iff (hlayout : Layout frame) :
    (i, r) ∈ mappedFrom false 0 frame ↔ MapsSlot frame i r := by
  rw [mem_mappedFrom hlayout (@List.drop_zero _ frame) fun h => absurd h Bool.false_ne_true, MapsSlot, and_comm]
  simp only [Bool.false_eq_true, false_and, false_or, Nat.zero_le, true_and]

namespace VirtualStackFrame

/-- A register that is mapped is one of the pool, and its slot has an index that fits. -/
theorem mappable (frame : VirtualStackFrame) : ∀ e ∈ mappedFrom false 0 frame.locations,
      (e.2 < 15 ∧ e.2 ≠ 5 ∧ e.2 ≠ 6) ∧ e.1 < 2 ^ 17 := by
  intro e he
  have hmaps : MapsSlot frame.locations e.1 e.2 := (mem_mappedFrom_iff frame.layout).mp he
  have hregister := frame.allocated e.1 e.2 hmaps
  refine ⟨?_, ?_⟩
  · revert hregister
    generalize e.2 = r
    unfold frameRegisters
    simp only [List.mem_cons, List.not_mem_nil, or_false]
    omega
  · obtain ⟨⟨j, hmapped, hij⟩, -⟩ := hmaps
    have hj := isMapped_lt hmapped
    have hlength := frame.length_le
    obtain hi | ⟨htwo, hi⟩ := hij
    · omega
    · have hnext := (frame.layout.two_word j hj htwo).1
      omega

/-- The locations that the passes of `emit_vsf` find. -/
def mappedLocations (frame : VirtualStackFrame) : List MappedLocation :=
  (mappedFrom false 0 frame.locations).pmap (fun e h => ⟨e.1, ⟨e.2, h.1⟩, h.2⟩) frame.mappable

/-- `emit_vsf`: the words after the entry. -/
def emitVsf (frame : VirtualStackFrame) : List ℕ := payload frame.spDelta frame.mappedLocations

theorem mem_mapped_iff (frame : VirtualStackFrame) :
    (r, i) ∈ mapped frame.mappedLocations RelocationReader.mapRegisters ↔
      MapsSlot frame.locations i r := by
  rw [mem_mapped, ← mem_mappedFrom_iff frame.layout]
  constructor
  · rintro ⟨-, loc, hloc, rfl, rfl⟩
    obtain ⟨e, he, rfl⟩ := List.mem_pmap.mp hloc
    exact he
  · intro he
    have hregister := frame.allocated i r ((mem_mappedFrom_iff frame.layout).mp he)
    refine ⟨?_, _, List.mem_pmap.mpr ⟨(i, r), he, rfl⟩, rfl, rfl⟩
    revert hregister
    unfold frameRegisters RelocationReader.mapRegisters
    simp only [List.mem_cons, List.not_mem_nil, or_false]
    omega

end VirtualStackFrame

/-! ## The decoders -/

/-- `Assembler::jsp` and `Assembler::fp`. -/
def jsp : ℕ := 6

def fp : ℕ := 11

def javaStackDirection : ℤ := -1

/-- The registers that a decoder is given, and the memory. -/
structure Context where
  regs : ℕ → ℤ
  memory : ℤ → ℤ

/-- What the decoders ask of the method. -/
structure MethodInfo where
  maxLocals : ℕ
  usesMonitors : Bool

/-- What `expr` starts from: `stack_bottom_pointer` or `empty_stack_offset`. -/
def stackBottom (m : MethodInfo) (c : Context) : ℤ :=
  if m.usesMonitors then c.memory (c.regs fp + 4) else c.regs fp - 20

/-- The address of `locals[location * JavaStackDirection]` or of
`expr[location * JavaStackDirection]`; `end_of_locals_offset` is 8. -/
def slotAddress (m : MethodInfo) (c : Context) (location : ℕ) : ℤ :=
  let adjustment := javaStackDirection * (1 - m.maxLocals)
  (if location < m.maxLocals then c.regs fp + 8 else stackBottom m c) +
    4 * (adjustment + location * javaStackDirection)

/-- The difference of the stack pointers with its sign, and the position after it. -/
def readSpDelta (w : ℕ → ℕ) (position : ℕ) : ℤ × ℕ :=
  let regList := w position
  let maxSpDelta := regList >>> 5 &&& 3 = 3
  let spDelta := if maxSpDelta then w (position + 1) else regList >>> 5 &&& 3
  (if regList.testBit 15 then -(spDelta : ℤ) else spDelta,
    if maxSpDelta then position + 2 else position + 1)

section Decoders

open RelocationReader

variable (w : ℕ → ℕ) (fuel : ℕ) (m : MethodInfo) (position : ℕ) (c : Context)

/-- `vsf_flush_do`, for the entry at `position`. -/
def vsfFlushDo : Option Context :=
  let (spDelta, next) := readSpDelta w (position + 1)
  let c := { c with regs := Function.update c.regs jsp (c.regs jsp + spDelta * 4) }
  let store (r location : ℕ) (memory : ℤ → ℤ) :=
    Function.update memory (slotAddress m c location) (c.regs r)
  (forRegisters w store fuel (w (position + 1)) mapRegisters next c.memory).map fun (memory, _) =>
    { c with memory := memory }

/-- `vsf_restore_do`, for the entry at `position`. -/
def vsfRestoreDo : Option Context :=
  let (spDelta, next) := readSpDelta w (position + 1)
  let c := { c with regs := Function.update c.regs jsp (c.regs jsp - spDelta * 4) }
  let load (r location : ℕ) (regs : ℕ → ℤ) :=
    Function.update regs r (c.memory (slotAddress m c location))
  (forRegisters w load fuel (w (position + 1)) mapRegisters next c.regs).map fun (regs, _) =>
    { c with regs := regs }

end Decoders

/-! ## The first words -/

theorem spBits_fields (spDelta : ℤ) : spBits spDelta >>> 5 &&& 3 = min spDelta.natAbs 3 ∧
      (spBits spDelta).testBit 15 = decide (spDelta < 0) := by
  unfold spBits
  have hmin : ∀ n, min n 3 = 0 ∨ min n 3 = 1 ∨ min n 3 = 2 ∨ min n 3 = 3 := by omega
  by_cases hneg : spDelta < 0
  · rw [if_pos hneg, decide_eq_true hneg, show (-spDelta).toNat = spDelta.natAbs by omega]
    obtain h | h | h | h := hmin spDelta.natAbs <;> rw [h] <;> decide
  · rw [if_neg hneg, decide_eq_false hneg, show spDelta.toNat = spDelta.natAbs by omega]
    obtain h | h | h | h := hmin spDelta.natAbs <;> rw [h] <;> decide

theorem registerList_fields (locations : List MappedLocation) :
    registerList locations >>> 5 &&& 3 = 0 ∧ (registerList locations).testBit 15 = false := by
  obtain ⟨h5, h6, h15⟩ := registerSize_reserved locations
  constructor
  · apply Nat.eq_of_testBit_eq
    intro n
    rw [Nat.testBit_and, Nat.testBit_shiftRight, testBit_registerList, Nat.zero_testBit]
    match n with
    | 0 => rw [h5]; rfl
    | 1 => rw [h6]; rfl
    | n + 2 =>
      rw [show Nat.testBit 3 (n + 2) = false from Nat.testBit_lt_two_pow (lt_of_lt_of_le
        (by norm_num : 3 < 2 ^ 2) (Nat.pow_le_pow_right (by norm_num) (by omega))), Bool.and_false]
  · rw [testBit_registerList, h15 15 le_rfl]
    rfl

/-- **Spec lemma.** The decoders read the difference that `emit_vsf` has written. -/
theorem readSpDelta_spWords {w : ℕ → ℕ} {position : ℕ} {locations : List MappedLocation}
    {spDelta : ℤ} (hsmall : spDelta.natAbs < 65536)
    (h : Holds w position (spWords (registerList locations) spDelta)) : readSpDelta w position =
      (spDelta, position + (spWords (registerList locations) spDelta).length) := by
  rw [spWords_eq] at h ⊢
  obtain ⟨hfirst, hsecond⟩ := holds_cons.mp h
  obtain ⟨hlist, hlistSign⟩ := registerList_fields locations
  obtain ⟨hbits, hsign⟩ := spBits_fields spDelta
  have hfield : w position >>> 5 &&& 3 = min spDelta.natAbs 3 := by
    rw [hfirst, Nat.shiftRight_or_distrib, Nat.and_or_distrib_right, hlist, hbits, Nat.zero_or]
  have hnegative : (w position).testBit 15 = decide (spDelta < 0) := by
    rw [hfirst, Nat.testBit_or, hlistSign, hsign, Bool.false_or]
  unfold readSpDelta
  simp only [hfield, hnegative, decide_eq_true_eq]
  by_cases hlarge : 3 ≤ spDelta.natAbs
  · rw [if_pos hlarge] at hsecond
    have hword := (holds_cons.mp hsecond).1
    rw [Nat.mod_eq_of_lt hsmall] at hword
    simp only [if_pos hlarge, show min spDelta.natAbs 3 = 3 by omega, hword, if_true,
      List.length_cons, List.length_nil, Prod.mk.injEq]
    refine ⟨?_, trivial⟩
    split <;> omega
  · simp only [if_neg hlarge, show ¬min spDelta.natAbs 3 = 3 by omega, if_false,
      List.length_cons, List.length_nil, Prod.mk.injEq]
    refine ⟨?_, trivial⟩
    split <;> omega

/-! ## Addresses -/

section Addresses

variable {m : MethodInfo} {c c' : Context}

theorem slotAddress_eq (m : MethodInfo) (c : Context) (i : ℕ) : slotAddress m c i =
    (if i < m.maxLocals then c.regs fp + 8 else stackBottom m c) + 4 * (m.maxLocals - 1 - i) := by
  unfold slotAddress javaStackDirection
  ring

/-- The locals are above the frame descriptor, the expression stack is below it. -/
theorem slotAddress_outside (hbottom : stackBottom m c ≤ c.regs fp - 20) (i : ℕ) :
    c.regs fp + 8 ≤ slotAddress m c i ∧ i < m.maxLocals ∨
      slotAddress m c i ≤ c.regs fp - 24 ∧ m.maxLocals ≤ i := by
  rw [slotAddress_eq]
  by_cases hlocal : i < m.maxLocals
  · rw [if_pos hlocal]
    omega
  · rw [if_neg hlocal]
    omega

theorem slotAddress_injective (hbottom : stackBottom m c ≤ c.regs fp - 20) :
    Function.Injective (slotAddress m c) := by
  intro i j hij
  have hi := slotAddress_outside hbottom i
  have hj := slotAddress_outside hbottom j
  rw [hij] at hi
  rw [slotAddress_eq, slotAddress_eq] at hij
  by_cases hlocal : i < m.maxLocals
  · rw [if_pos hlocal, if_pos (by omega)] at hij
    omega
  · rw [if_neg hlocal, if_neg (by omega)] at hij
    omega

theorem slotAddress_congr (hfp : c'.regs fp = c.regs fp)
    (hmemory : c'.memory (c.regs fp + 4) = c.memory (c.regs fp + 4)) :
    slotAddress m c' = slotAddress m c := by
  funext i
  unfold slotAddress stackBottom
  rw [hfp, hmemory]

end Addresses

/-! ## The round trip -/

section RoundTrip

open RelocationReader

variable {w : ℕ → ℕ} {fuel position : ℕ} {frame : VirtualStackFrame} {m : MethodInfo}

/-- **Spec lemma.** The decoders go over the slots that are mapped. -/
theorem forRegisters_emitVsf {σ : Type} (f : ℕ → ℕ → σ → σ) (h : Holds w position frame.emitVsf)
    (hfuel : frame.emitVsf.length ≤ fuel) (s : σ) : (readSpDelta w position).1 = frame.spDelta ∧
      forRegisters w f fuel (w position) mapRegisters (readSpDelta w position).2 s =
        some ((mapped frame.mappedLocations mapRegisters).foldl (fun s e => f e.1 e.2 s) s,
          position + frame.emitVsf.length) := by
  obtain ⟨hsp, hpool⟩ := holds_append.mp h
  rw [readSpDelta_spWords frame.stackPointer_near hsp]
  have hlength : frame.emitVsf.length =
      (spWords (registerList frame.mappedLocations) frame.spDelta).length +
        groupStart frame.mappedLocations 16 := by
    rw [VirtualStackFrame.emitVsf, payload, List.length_append, length_poolWords]
  refine ⟨rfl, ?_⟩
  rw [hlength, ← Nat.add_assoc]
  refine forRegisters_pool f hpool (by omega) (fun r hr => ?_) s
  rw [spWords_eq] at hsp
  rw [(holds_cons.mp hsp).1, Nat.testBit_or, testBit_spBits _ hr, Bool.or_false,
    testBit_registerList]

/-- What flushing a frame makes of the registers and of the memory. -/
structure Flushed (frame : VirtualStackFrame) (m : MethodInfo) (c c' : Context) : Prop where
  slot : ∀ i r, MapsSlot frame.locations i r → c'.memory (slotAddress m c i) = c.regs r
  memory : ∀ a, (∀ i r, MapsSlot frame.locations i r → slotAddress m c i ≠ a) →
    c'.memory a = c.memory a
  jsp_eq : c'.regs jsp = c.regs jsp + 4 * (frame.stackPointer - frame.virtualStackPointer)
  register : ∀ r ≠ jsp, c'.regs r = c.regs r

/-- What restoring it makes of those at `c'`, when the frame was flushed at `c`. -/
structure Restored (frame : VirtualStackFrame) (c c' c'' : Context) : Prop where
  mapped : ∀ i r, MapsSlot frame.locations i r → c''.regs r = c.regs r
  jsp_eq : c''.regs jsp = c.regs jsp
  register : ∀ r ≠ jsp, (∀ i, ¬MapsSlot frame.locations i r) → c''.regs r = c'.regs r
  memory : c''.memory = c'.memory

theorem ne_jsp_of_mapsSlot {i r : ℕ} (h : MapsSlot frame.locations i r) : r ≠ jsp ∧ r ≠ fp := by
  have hregister := frame.allocated i r h
  constructor <;> rintro rfl <;> exact absurd hregister (by decide)

/-- **Spec lemma.** Flushing stores each mapped register into the slots that have it. -/
theorem vsfFlushDo_emitVsf (h : Holds w (position + 1) frame.emitVsf)
    (hfuel : frame.emitVsf.length ≤ fuel) (c : Context)
    (hbottom : stackBottom m c ≤ c.regs fp - 20) :
    ∃ c', vsfFlushDo w fuel m position c = some c' ∧ Flushed frame m c c' := by
  let regs := Function.update c.regs jsp (c.regs jsp + frame.spDelta * 4)
  have hregs : ∀ r ≠ jsp, regs r = c.regs r := fun r hr => Function.update_of_ne hr _ _
  have haddress : slotAddress m { c with regs := regs } = slotAddress m c :=
    slotAddress_congr (hregs fp (by decide)) rfl
  let memory := scatter (fun e : ℕ × ℕ => slotAddress m c e.2) (fun e => regs e.1)
    (mapped frame.mappedLocations mapRegisters) c.memory
  refine ⟨⟨regs, memory⟩, ?_, ⟨fun i r hmaps => ?_, fun a ha => ?_, ?_, hregs⟩⟩
  · have hrun := fun s => forRegisters_emitVsf (fun r i (memory : ℤ → ℤ) =>
      Function.update memory (slotAddress m { c with regs := regs } i) (regs r)) h hfuel s
    unfold vsfFlushDo
    simp only
    rw [(hrun c.memory).1, (hrun c.memory).2, haddress]
    rfl
  · have hmem := frame.mem_mapped_iff.mpr hmaps
    rw [← hregs r (ne_jsp_of_mapsSlot hmaps).1]
    refine @scatter_apply _ _ _ _ _ _ _ _ (r, i) hmem fun e he hsame => ?_
    -- The slot decides which register it has.
    have hslot : e.2 = i := slotAddress_injective hbottom hsame
    have hmaps' := frame.mem_mapped_iff.mp he
    rw [hslot] at hmaps'
    rw [← hmaps'.2, ← hmaps.2]
  · exact scatter_of_forall_ne fun e he => ha e.2 e.1 (frame.mem_mapped_iff.mp he)
  · have hjsp : regs jsp = c.regs jsp + frame.spDelta * 4 := Function.update_self _ _ _
    exact hjsp.trans (by rw [VirtualStackFrame.spDelta, mul_comm])

/-- **Spec lemma.** Restoring reads each mapped register from its slots. -/
theorem vsfRestoreDo_emitVsf (h : Holds w (position + 1) frame.emitVsf)
    (hfuel : frame.emitVsf.length ≤ fuel) {c c' : Context}
    (hbottom : stackBottom m c ≤ c.regs fp - 20) (hflushed : Flushed frame m c c')
    (regs' : ℕ → ℤ) (hfp : regs' fp = c'.regs fp) (hjsp : regs' jsp = c'.regs jsp) :
    ∃ c'', vsfRestoreDo w fuel m position ⟨regs', c'.memory⟩ = some c'' ∧
      Restored frame c ⟨regs', c'.memory⟩ c'' := by
  let regs := Function.update regs' jsp (regs' jsp - frame.spDelta * 4)
  have hregs : ∀ r ≠ jsp, regs r = regs' r := fun r hr => Function.update_of_ne hr _ _
  -- The word of the stack bottom is not one of a slot.
  have haddress : slotAddress m ⟨regs, c'.memory⟩ = slotAddress m c := by
    refine slotAddress_congr ?_ (hflushed.memory _ fun i r hmaps => ?_)
    · show regs fp = _
      rw [hregs fp (by decide), hfp, hflushed.register fp (by decide)]
    · have houtside := slotAddress_outside hbottom i
      omega
  let restored := scatter (fun e : ℕ × ℕ => e.1) (fun e => c'.memory (slotAddress m c e.2))
    (mapped frame.mappedLocations mapRegisters) regs
  refine ⟨⟨restored, c'.memory⟩, ?_, ⟨fun i r hmaps => ?_, ?_, fun r hr hnot => ?_, rfl⟩⟩
  · have hrun := fun s => forRegisters_emitVsf (fun r i (regs'' : ℕ → ℤ) =>
      Function.update regs'' r (c'.memory (slotAddress m ⟨regs, c'.memory⟩ i))) h hfuel s
    unfold vsfRestoreDo
    simp only
    rw [(hrun regs).1, (hrun regs).2, haddress]
    rfl
  · have hmem := frame.mem_mapped_iff.mpr hmaps
    rw [← hflushed.slot i r hmaps]
    refine @scatter_apply _ _ _ _ _ _ _ _ (r, i) hmem fun e he hsame => ?_
    -- All the slots of a register have its value.
    have hmaps' := frame.mem_mapped_iff.mp he
    rw [hflushed.slot e.2 e.1 hmaps', hflushed.slot i r hmaps]
    exact congrArg c.regs hsame
  · have hnone : ∀ e ∈ mapped frame.mappedLocations mapRegisters, e.1 ≠ jsp := fun e he =>
      (ne_jsp_of_mapsSlot (frame.mem_mapped_iff.mp he)).1
    calc restored jsp = regs jsp := scatter_of_forall_ne hnone
      _ = regs' jsp - frame.spDelta * 4 := Function.update_self _ _ _
      _ = c.regs jsp := by
        rw [hjsp, hflushed.jsp_eq, VirtualStackFrame.spDelta]
        ring
  · refine (scatter_of_forall_ne fun e he heq => hnot e.2 ?_).trans (hregs r hr)
    rw [← heq]
    exact frame.mem_mapped_iff.mp he

/-- **Main theorem.** Flushing by the map of a frame stores each mapped register into its slots
and nothing else, and adjusts the stack pointer; restoring, with whatever has become of the other
registers, undoes it; and the reader skips the words that were emitted. -/
theorem emitVsf_roundTrip (frame : VirtualStackFrame) (m : MethodInfo)
    (h : Holds w (position + 1) frame.emitVsf) (hfuel : frame.emitVsf.length ≤ fuel) (c : Context)
    (hbottom : stackBottom m c ≤ c.regs fp - 20) :
    (∃ c', vsfFlushDo w fuel m position c = some c' ∧ Flushed frame m c c' ∧
      ∀ regs : ℕ → ℤ, regs fp = c'.regs fp → regs jsp = c'.regs jsp →
        ∃ c'', vsfRestoreDo w fuel m position ⟨regs, c'.memory⟩ = some c'' ∧
          Restored frame c ⟨regs, c'.memory⟩ c'') ∧
    advance w fuel .compressedVsf position = some (position + 1 + frame.emitVsf.length) := by
  obtain ⟨c', hflush, hflushed⟩ := vsfFlushDo_emitVsf h hfuel c hbottom
  exact ⟨⟨c', hflush, hflushed, vsfRestoreDo_emitVsf h hfuel hbottom hflushed⟩,
    skipRegisters_payload h hfuel⟩

/-- An object and a `long` in registers, and the object once more on the stack. -/
def exampleFrame : VirtualStackFrame where
  locations := [⟨.object, .changed, .register, 0⟩, ⟨.long, .cached, .register, 1⟩,
    ⟨.illegal, .flushed, .nowhere, 2⟩, ⟨.object, .changed, .register, 0⟩]
  stackPointer := 10
  layout := ⟨by decide, by decide⟩
  allocated := by
    rintro i r ⟨⟨j, hmapped, hij⟩, rfl⟩
    have hj : j < 4 := isMapped_lt hmapped
    obtain rfl | ⟨-, rfl⟩ := hij
    · interval_cases i <;> decide
    · interval_cases j <;> decide
  length_le := by decide
  stackPointer_near := by decide

theorem emitVsf_roundTrip_exampleFrame :
    (∃ c', vsfFlushDo (write (fun _ => 0) 1 exampleFrame.emitVsf) exampleFrame.emitVsf.length
      ⟨2, false⟩ 0 ⟨fun r => r * 100, fun _ => 0⟩ = some c' ∧
        Flushed exampleFrame ⟨2, false⟩ ⟨fun r => r * 100, fun _ => 0⟩ c') ∧
    advance (write (fun _ => 0) 1 exampleFrame.emitVsf) exampleFrame.emitVsf.length .compressedVsf 0 =
      some (0 + 1 + exampleFrame.emitVsf.length) := by
  obtain ⟨⟨c', hflush, hflushed, -⟩, hskip⟩ := emitVsf_roundTrip exampleFrame ⟨2, false⟩
    Holds.write_self le_rfl ⟨fun r => r * 100, fun _ => 0⟩ (by decide)
  exact ⟨⟨c', hflush, hflushed⟩, hskip⟩

end RoundTrip

end CldcVm.Compiler.CompressedFrame
