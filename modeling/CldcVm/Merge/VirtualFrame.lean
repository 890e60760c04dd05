import Mathlib.Data.List.Basic
import Mathlib.Order.Nat

/-!
# Locations of a virtual stack frame

Models of `RawLocation` (`compiler/Location.hpp`), of `merge_actions`
(`compiler/Location.cpp`, lines 32–54), of `is_mapping_location`
(`compiler/VirtualStackFrame.cpp`, lines 56–80), and of the loop that drops the
locations whose types disagree (lines 635–654).

A frame is the list of its slots. A value of two words has its second word in the next
slot, whose type is illegal. `write_value` stores stack types only, so these are the
types of the model.
-/

namespace CldcVm.Merge

/-- A machine word. -/
abbrev Word := BitVec 32

/-- The types that a location has. -/
inductive StackType
  | int | float | object | long | double | illegal
deriving DecidableEq, Repr

/-- `is_two_word`. -/
def StackType.isTwoWord : StackType → Bool
  | long => true
  | double => true
  | _ => false

/-- `RawLocation::Status`. -/
inductive Status
  | flushed | cached | changed
deriving DecidableEq, Repr

/-- `Value::ValueLocation`. -/
inductive ValueLocation
  | nowhere | register | immediate
deriving DecidableEq, Repr

/-- A slot of a frame; `value` is the number of a register, or the bits of an immediate. -/
structure RawLocation where
  type : StackType
  status : Status
  place : ValueLocation
  value : Word
deriving DecidableEq, Repr

namespace RawLocation

/-- A slot outside a frame. -/
def empty : RawLocation := ⟨.illegal, .flushed, .nowhere, 0⟩

/-- `get_register`. -/
def getRegister (loc : RawLocation) : ℕ := loc.value.toNat

/-- `mark_as_illegal`. -/
def markAsIllegal (loc : RawLocation) : RawLocation :=
  { loc with type := .illegal, place := .nowhere }

end RawLocation

/-- `merge_actions`: load from the location, store to it, store to the register. -/
structure Actions where
  locLoad : Bool
  locStore : Bool
  regStore : Bool
deriving DecidableEq, Repr

/-- The table of `merge_actions`. -/
def mergeActions : (src dst : Status) → Actions
  | .flushed, .flushed => ⟨false, false, false⟩
  | .flushed, .cached => ⟨true, false, false⟩
  | .flushed, .changed => ⟨true, false, false⟩
  | .cached, .flushed => ⟨false, false, false⟩
  | .cached, .cached => ⟨false, false, true⟩
  | .cached, .changed => ⟨false, false, true⟩
  | .changed, .flushed => ⟨false, true, false⟩
  | .changed, .cached => ⟨false, true, true⟩
  | .changed, .changed => ⟨false, false, true⟩

/-! ## Slots -/

variable {frame other : List RawLocation} {i j r : ℕ}

/-- `raw_location_at`. -/
def locationAt (frame : List RawLocation) (i : ℕ) : RawLocation := frame.getD i .empty

/-- `mark_as_flushed` and `mark_as_cached`. -/
def setStatus (frame : List RawLocation) (i : ℕ) (status : Status) : List RawLocation :=
  frame.modify i fun loc => { loc with status := status }

@[simp] theorem setStatus_length (status : Status) :
    (setStatus frame i status).length = frame.length :=
  List.length_modify _ _ _

theorem locationAt_of_length_le (h : frame.length ≤ i) : locationAt frame i = .empty := by
  rw [locationAt, List.getD_eq_getElem?_getD, List.getElem?_eq_none h]
  rfl

theorem locationAt_setStatus (status : Status) (j : ℕ) : locationAt (setStatus frame i status) j =
      if i = j ∧ j < frame.length then { locationAt frame j with status := status }
      else locationAt frame j := by
  unfold locationAt setStatus
  rw [List.getD_eq_getElem?_getD, List.getD_eq_getElem?_getD, List.getElem?_modify]
  rcases lt_or_ge j frame.length with hlt | hge
  · rw [List.getElem?_eq_getElem hlt]
    by_cases hij : i = j
    · simp [hij, hlt]
    · simp [hij]
  · rw [List.getElem?_eq_none hge]
    simp [Nat.not_lt.mpr hge]

/-- What the loops never change of a slot: all but the status. -/
structure SameSlot (loc loc' : RawLocation) : Prop where
  type : loc'.type = loc.type
  place : loc'.place = loc.place
  value : loc'.value = loc.value

/-- The frames differ in the status of their slots only. -/
structure SameSlots (frame frame' : List RawLocation) : Prop where
  length : frame'.length = frame.length
  slot : ∀ i, SameSlot (locationAt frame i) (locationAt frame' i)

theorem SameSlots.refl (frame : List RawLocation) : SameSlots frame frame :=
  ⟨rfl, fun _ => ⟨rfl, rfl, rfl⟩⟩

variable {frame' : List RawLocation}

theorem SameSlots.symm (h : SameSlots frame frame') : SameSlots frame' frame :=
  ⟨h.length.symm, fun i => ⟨(h.slot i).type.symm, (h.slot i).place.symm, (h.slot i).value.symm⟩⟩

theorem SameSlots.trans {frame'' : List RawLocation} (h : SameSlots frame frame')
    (h' : SameSlots frame' frame'') : SameSlots frame frame'' :=
  ⟨h'.length.trans h.length, fun i => ⟨(h'.slot i).type.trans (h.slot i).type,
    (h'.slot i).place.trans (h.slot i).place, (h'.slot i).value.trans (h.slot i).value⟩⟩

theorem sameSlots_setStatus (frame : List RawLocation) (i : ℕ) (status : Status) :
    SameSlots frame (setStatus frame i status) := by
  refine ⟨setStatus_length status, fun j => ?_⟩
  rw [locationAt_setStatus]
  split_ifs <;> exact ⟨rfl, rfl, rfl⟩

theorem status_setStatus_self (h : i < frame.length) (status : Status) :
    (locationAt (setStatus frame i status) i).status = status := by
  rw [locationAt_setStatus, if_pos ⟨rfl, h⟩]

theorem locationAt_setStatus_of_ne (h : i ≠ j) (status : Status) :
    locationAt (setStatus frame i status) j = locationAt frame j := by
  rw [locationAt_setStatus, if_neg fun hij => h hij.1]

/-! ## Registers -/

/-- The location is two words wide. -/
def isTwoWordAt (frame : List RawLocation) (i : ℕ) : Bool := (locationAt frame i).type.isTwoWord

/-- `!is_flushed() && in_register() && uses_register(reg)`. -/
def usesRegister (frame : List RawLocation) (i r : ℕ) : Bool :=
  (locationAt frame i).status != .flushed && (locationAt frame i).place == .register &&
    ((locationAt frame i).getRegister == r ||
      isTwoWordAt frame i && (locationAt frame (i + 1)).getRegister == r)

/-- The loop of `is_mapping_location`, from a slot on. -/
def isMappingFrom (frame : List RawLocation) (r : ℕ) : (fuel i : ℕ) → Bool
  | 0, _ => false
  | fuel + 1, i =>
    if i < frame.length then
      if usesRegister frame i r then true
      else isMappingFrom frame r fuel (i + if isTwoWordAt frame i then 2 else 1)
    else false

/-- `is_mapping_location`. -/
def isMappingLocation (frame : List RawLocation) (r : ℕ) : Bool :=
  isMappingFrom frame r frame.length 0

/-- What holds of the slots of a frame: the second word of a value has an illegal slot,
and an illegal slot has no value. -/
structure Layout (frame : List RawLocation) : Prop where
  two_word : ∀ i < frame.length, isTwoWordAt frame i = true →
    i + 1 < frame.length ∧ (locationAt frame (i + 1)).type = .illegal
  illegal : ∀ i < frame.length, (locationAt frame i).type = .illegal →
    (locationAt frame i).place = .nowhere

/-- A frame of the compiler: the values that are not flushed are in registers of the
allocator or immediate. -/
structure WellFormed (order : List ℕ) (frame : List RawLocation) : Prop extends Layout frame where
  present : ∀ i < frame.length, (locationAt frame i).type ≠ .illegal →
    (locationAt frame i).status ≠ .flushed → (locationAt frame i).place ≠ .nowhere
  allocatable : ∀ i < frame.length, ∀ r, usesRegister frame i r = true → r ∈ order

theorem usesRegister_iff : usesRegister frame i r = true ↔
    (locationAt frame i).status ≠ .flushed ∧ (locationAt frame i).place = .register ∧
      ((locationAt frame i).getRegister = r ∨
        isTwoWordAt frame i = true ∧ (locationAt frame (i + 1)).getRegister = r) := by
  simp [usesRegister, and_assoc]

theorem lt_length_of_type_ne (h : (locationAt frame i).type ≠ .illegal) : i < frame.length := by
  by_contra hge
  rw [locationAt_of_length_le (Nat.le_of_not_lt hge)] at h
  exact h rfl

theorem lt_length_of_usesRegister (h : usesRegister frame i r = true) : i < frame.length := by
  by_contra hge
  rw [usesRegister_iff, locationAt_of_length_le (Nat.le_of_not_lt hge)] at h
  exact h.1 rfl

theorem isTwoWordAt_ne_illegal (h : isTwoWordAt frame i = true) :
    (locationAt frame i).type ≠ .illegal := by
  intro htype
  unfold isTwoWordAt at h
  rw [htype] at h
  cases h

theorem Layout.next_illegal (h : Layout frame) (htwo : isTwoWordAt frame i = true) :
    (locationAt frame (i + 1)).type = .illegal :=
  (h.two_word i (lt_length_of_type_ne (isTwoWordAt_ne_illegal htwo)) htwo).2

theorem Layout.place_eq_nowhere (h : Layout frame) (htype : (locationAt frame i).type = .illegal) :
    (locationAt frame i).place = .nowhere := by
  rcases lt_or_ge i frame.length with hlt | hge
  · exact h.illegal i hlt htype
  · rw [locationAt_of_length_le hge]
    rfl

theorem Layout.type_ne_of_place (h : Layout frame) {place : ValueLocation}
    (hplace : (locationAt frame i).place = place) (hne : place ≠ .nowhere) :
    (locationAt frame i).type ≠ .illegal :=
  fun htype => hne (hplace.symm.trans (h.place_eq_nowhere htype))

theorem Layout.type_ne_of_usesRegister (h : Layout frame) (huses : usesRegister frame i r = true) :
    (locationAt frame i).type ≠ .illegal :=
  h.type_ne_of_place (usesRegister_iff.mp huses).2.1 nofun

/-- The slot is one of a location. -/
def IsSlotOf (frame : List RawLocation) (i s : ℕ) : Prop :=
  s = i ∨ isTwoWordAt frame i = true ∧ s = i + 1

theorem Layout.slots_disjoint (h : Layout frame) {s : ℕ} (hi : (locationAt frame i).type ≠ .illegal)
    (hj : (locationAt frame j).type ≠ .illegal) (hs : IsSlotOf frame i s)
    (hs' : IsSlotOf frame j s) : i = j := by
  rcases hs with rfl | ⟨htwo, rfl⟩
  · rcases hs' with rfl | ⟨htwo', rfl⟩
    · rfl
    · exact absurd (h.next_illegal htwo') hi
  · rcases hs' with rfl | ⟨-, heq⟩
    · exact absurd (h.next_illegal htwo) hj
    · exact Nat.succ.inj heq

theorem SameSlots.layout (hsame : SameSlots frame frame') (h : Layout frame) : Layout frame' := by
  refine ⟨fun i hi htwo => ?_, fun i hi htype => ?_⟩
  · unfold isTwoWordAt at htwo
    rw [(hsame.slot i).type] at htwo
    rw [(hsame.slot (i + 1)).type, hsame.length]
    exact h.two_word i (hsame.length ▸ hi) htwo
  · rw [(hsame.slot i).type] at htype
    rw [(hsame.slot i).place]
    exact h.place_eq_nowhere htype

theorem SameSlots.isTwoWordAt_eq (hsame : SameSlots frame frame')
    (i : ℕ) : isTwoWordAt frame' i = isTwoWordAt frame i := by
  rw [isTwoWordAt, isTwoWordAt, (hsame.slot i).type]

theorem SameSlots.getRegister_eq (hsame : SameSlots frame frame')
    (i : ℕ) : (locationAt frame' i).getRegister = (locationAt frame i).getRegister := by
  rw [RawLocation.getRegister, RawLocation.getRegister, (hsame.slot i).value]

theorem SameSlots.isSlotOf_iff (hsame : SameSlots frame frame')
    {s : ℕ} : IsSlotOf frame' i s ↔ IsSlotOf frame i s := by
  rw [IsSlotOf, IsSlotOf, hsame.isTwoWordAt_eq]

/-- The walk of `is_mapping_location` meets every slot that uses the register. -/
theorem isMappingLocation_iff (h : Layout frame) :
    isMappingLocation frame r = true ↔ ∃ i, usesRegister frame i r = true := by
  have hwalk : ∀ fuel i, frame.length ≤ i + fuel →
      (isMappingFrom frame r fuel i = true ↔ ∃ j, i ≤ j ∧ usesRegister frame j r = true) := by
    intro fuel
    induction fuel with
    | zero =>
      intro i hi
      refine iff_of_false Bool.false_ne_true fun ⟨j, hij, huses⟩ => ?_
      have hj := lt_length_of_usesRegister huses
      omega
    | succ fuel ih =>
      intro i hi
      unfold isMappingFrom
      split_ifs with hlt huses htwo
      · exact iff_of_true rfl ⟨i, le_rfl, huses⟩
      · rw [ih (i + 2) (by omega)]
        refine ⟨fun ⟨j, hij, hj⟩ => ⟨j, by omega, hj⟩, fun ⟨j, hij, hj⟩ => ⟨j, ?_, hj⟩⟩
        have hne : j ≠ i := fun heq => huses (heq ▸ hj)
        have hne' : j ≠ i + 1 := by
          rintro rfl
          obtain ⟨hlt', hillegal⟩ := h.two_word i hlt htwo
          have hplace := (usesRegister_iff.mp hj).2.1
          rw [h.illegal _ hlt' hillegal] at hplace
          cases hplace
        omega
      · rw [ih (i + 1) (by omega)]
        refine ⟨fun ⟨j, hij, hj⟩ => ⟨j, by omega, hj⟩, fun ⟨j, hij, hj⟩ => ⟨j, ?_, hj⟩⟩
        have hne : j ≠ i := fun heq => huses (heq ▸ hj)
        omega
      · refine iff_of_false id fun ⟨j, hij, huses⟩ => ?_
        have hj := lt_length_of_usesRegister huses
        omega
  rw [isMappingLocation, hwalk _ 0 (by omega)]
  exact ⟨fun ⟨j, _, hj⟩ => ⟨j, hj⟩, fun ⟨j, hj⟩ => ⟨j, Nat.zero_le j, hj⟩⟩

/-! ## Type conflicts -/

/-- The loop that throws away the old value in case of a type conflict. -/
def dropConflicts : (src dst : List RawLocation) → List RawLocation
  | s :: src, d :: dst =>
    let s' := if s.type ≠ d.type then s.markAsIllegal else s
    if s'.type.isTwoWord then
      match src, dst with
      | hi :: src, _ :: dst => s' :: { hi with type := .illegal } :: dropConflicts src dst
      | _, _ => [s']
    else s' :: dropConflicts src dst
  | src, _ => src

@[simp] theorem locationAt_cons_zero (loc : RawLocation) : locationAt (loc :: frame) 0 = loc := rfl

@[simp] theorem locationAt_cons_succ (loc : RawLocation) (i : ℕ) :
    locationAt (loc :: frame) (i + 1) = locationAt frame i := rfl

/-- A slot after the loop: it is as before where the types agree, and illegal elsewhere. -/
theorem locationAt_dropConflicts {src dst : List RawLocation} (hlength : src.length = dst.length)
    (hsrc : ∀ i, isTwoWordAt src i = true → (locationAt src (i + 1)).type = .illegal)
    (hdst : ∀ i, isTwoWordAt dst i = true → (locationAt dst (i + 1)).type = .illegal) :
    (dropConflicts src dst).length = src.length ∧ ∀ i, locationAt (dropConflicts src dst) i =
      if (locationAt src i).type = (locationAt dst i).type then locationAt src i
      else (locationAt src i).markAsIllegal := by
  have hhead : ∀ s d : RawLocation, (if s.type ≠ d.type then s.markAsIllegal else s) =
      if s.type = d.type then s else s.markAsIllegal := fun s d => ite_not _ _ _
  have hagree : ∀ s d : RawLocation,
      (if s.type ≠ d.type then s.markAsIllegal else s).type.isTwoWord = true →
        s.type = d.type ∧ s.type.isTwoWord = true := by
    intro s d htwo
    split_ifs at htwo with hne
    · cases htwo
    · exact ⟨not_not.mp hne, htwo⟩
  fun_induction dropConflicts src dst with
  | case1 s d _ htwo hi src d' dst ih =>
    obtain ⟨htype, htwo⟩ := hagree s d htwo
    have hillegal : hi.type = .illegal := hsrc 0 htwo
    have htwo' : d.type.isTwoWord = true := htype ▸ htwo
    have hillegal' : d'.type = .illegal := hdst 0 htwo'
    obtain ⟨hlen, hslots⟩ := ih (Nat.succ.inj (Nat.succ.inj hlength)) (fun i => hsrc (i + 2))
      fun i => hdst (i + 2)
    refine ⟨congrArg (· + 2) hlen, fun i => ?_⟩
    match i with
    | 0 => exact hhead s d
    | 1 =>
      show ({ hi with type := .illegal } : RawLocation) = if hi.type = d'.type then hi else _
      rw [if_pos (hillegal.trans hillegal'.symm), ← hillegal]
    | i + 2 => exact hslots i
  | case2 s src d dst _ htwo hnil =>
    have hsrcNil : src = [] := by
      cases src with
      | nil => rfl
      | cons hi src =>
        cases dst with
        | nil => cases hlength
        | cons d' dst => exact (hnil hi src d' dst rfl rfl).elim
    subst hsrcNil
    have hdstNil : dst = [] := List.eq_nil_of_length_eq_zero (Nat.succ.inj hlength).symm
    subst hdstNil
    refine ⟨rfl, fun i => ?_⟩
    match i with
    | 0 => exact hhead s d
    | i + 1 => exact (if_pos rfl).symm
  | case3 s src d dst _ _ ih =>
    obtain ⟨hlen, hslots⟩ := ih (Nat.succ.inj hlength) (fun i => hsrc (i + 1))
      fun i => hdst (i + 1)
    refine ⟨congrArg (· + 1) hlen, fun i => ?_⟩
    match i with
    | 0 => exact hhead s d
    | i + 1 => exact hslots i
  | case4 src dst hnil =>
    have hsrcNil : src = [] := by
      cases src with
      | nil => rfl
      | cons s src =>
        cases dst with
        | nil => cases hlength
        | cons d dst => exact (hnil s src d dst rfl rfl).elim
    subst hsrcNil
    have hdstNil : dst = [] := List.eq_nil_of_length_eq_zero hlength.symm
    subst hdstNil
    exact ⟨rfl, fun i => (if_pos rfl).symm⟩

end CldcVm.Merge
