import Mathlib.Tactic.Ring
import Mathlib.Data.Nat.Bitwise
import Mathlib.Data.List.Basic

/-!
# Handles of the reference registry

Model of the encoding of references as integers (`memory/ObjectHeap.hpp`, lines 320–345, and
`memory/ObjectHeap.cpp`, lines 955–1050), with `ENABLE_ISOLATES` and soft references. An
`int` and an `OopDesc*` are words of 32 bits.

Results:

* `toNat_makeReference`: with an index of 24 bits the three fields of a handle do not overlap.
* `getReferenceType_makeReference`, `getReferenceOwner_makeReference`,
  `getReferenceIndex_makeReference`: each field is read back.
-/

namespace CldcVm.References

/-- A word of the machine. -/
abbrev Word := BitVec 32

/-! ## Encoding -/

/-- `ObjectHeap::ReferenceType`. -/
inductive ReferenceType
  | strong
  | weak
  | soft
deriving DecidableEq

/-- `LocalRefType`. -/
def localRefType : Word := 0x1

/-- `StrongGlobalRefType`, `WeakGlobalRefType` and `SoftGlobalRefType`. -/
def ReferenceType.code : ReferenceType → Word
  | .strong => 0x1 ||| 0x2
  | .weak => 0x1 ||| 0x4
  | .soft => 0x1 ||| 0x6

/-- `LOG_MAX_TASKS`. -/
def logMaxTasks : ℕ := 4

def maxTasks : ℕ := 2 ^ logMaxTasks

def refOwnerOffset : ℕ := 3

def refIndexOffset : ℕ := refOwnerOffset + logMaxTasks

def refTypeMask : Word := (1 <<< refOwnerOffset) - 1

def refOwnerMask : Word := (1 <<< refIndexOffset) - (1 <<< refOwnerOffset)

/-- `ObjectHeap::make_reference`. -/
def makeReference (type owner index : Word) : Word :=
  (index <<< refIndexOffset) ||| (owner <<< refOwnerOffset) ||| type

/-- `ObjectHeap::get_reference_type`. -/
def getReferenceType (refIndex : Word) : Word := refIndex &&& refTypeMask

/-- `ObjectHeap::get_reference_index`: the shift is one of an `int`. -/
def getReferenceIndex (refIndex : Word) : Word := refIndex.sshiftRight refIndexOffset

/-- `ObjectHeap::is_local_reference`. -/
def isLocalReference (refIndex : Word) : Bool := getReferenceType refIndex = localRefType

/-- `ObjectHeap::get_reference_owner`. -/
def getReferenceOwner (refIndex : Word) : Word :=
  if isLocalReference refIndex then 0 else (refIndex &&& refOwnerMask).sshiftRight refOwnerOffset

/-! ## Decoding what has been encoded -/

section Decode

variable {type owner index : Word}

/-- The fields do not overlap. -/
theorem toNat_makeReference (htype : type.toNat < 8) (howner : owner.toNat < maxTasks)
    (hindex : index.toNat < 2 ^ 24) : (makeReference type owner index).toNat =
      2 ^ 7 * index.toNat + (2 ^ 3 * owner.toNat + type.toNat) := by
  simp only [maxTasks, logMaxTasks] at howner
  have hshiftIndex : (index <<< refIndexOffset).toNat = 2 ^ 7 * index.toNat := by
    rw [BitVec.toNat_shiftLeft, Nat.shiftLeft_eq]
    simp only [refIndexOffset, refOwnerOffset, logMaxTasks]
    omega
  have hshiftOwner : (owner <<< refOwnerOffset).toNat = 2 ^ 3 * owner.toNat := by
    rw [BitVec.toNat_shiftLeft, Nat.shiftLeft_eq]
    simp only [refOwnerOffset]
    omega
  rw [makeReference, BitVec.or_assoc, BitVec.toNat_or, BitVec.toNat_or, hshiftIndex, hshiftOwner,
    ← Nat.two_pow_add_eq_or_of_lt (show type.toNat < 2 ^ 3 by omega),
    ← Nat.two_pow_add_eq_or_of_lt (show 2 ^ 3 * owner.toNat + type.toNat < 2 ^ 7 by omega)]

theorem getReferenceType_makeReference (htype : type.toNat < 8) (howner : owner.toNat < maxTasks)
    (hindex : index.toNat < 2 ^ 24) : getReferenceType (makeReference type owner index) = type := by
  apply BitVec.eq_of_toNat_eq
  rw [getReferenceType, BitVec.toNat_and, toNat_makeReference htype howner hindex,
    show refTypeMask.toNat = 2 ^ 3 - 1 from rfl, Nat.and_two_pow_sub_one_eq_mod]
  omega

theorem getReferenceIndex_makeReference (htype : type.toNat < 8)
    (howner : owner.toNat < maxTasks) (hindex : index.toNat < 2 ^ 24) :
    getReferenceIndex (makeReference type owner index) = index := by
  have hvalue := toNat_makeReference htype howner hindex
  simp only [maxTasks, logMaxTasks] at howner
  have hmsb : (makeReference type owner index).msb = false := by
    rw [BitVec.msb_eq_decide, decide_eq_false_iff_not]
    omega
  apply BitVec.eq_of_toNat_eq
  rw [getReferenceIndex, BitVec.sshiftRight_eq_of_msb_false hmsb, BitVec.toNat_ushiftRight,
    Nat.shiftRight_eq_div_pow, hvalue]
  simp only [refIndexOffset, refOwnerOffset, logMaxTasks]
  omega

theorem getReferenceOwner_makeReference (htype : type.toNat < 8)
    (hlocal : type ≠ localRefType) (howner : owner.toNat < maxTasks)
    (hindex : index.toNat < 2 ^ 24) :
    getReferenceOwner (makeReference type owner index) = owner := by
  have hvalue := toNat_makeReference htype howner hindex
  have hnot : isLocalReference (makeReference type owner index) = false := by
    rw [isLocalReference, getReferenceType_makeReference htype howner hindex]
    exact decide_eq_false hlocal
  simp only [maxTasks, logMaxTasks] at howner
  have hmask : ((makeReference type owner index) &&& refOwnerMask).toNat = 2 ^ 3 * owner.toNat := by
    rw [BitVec.toNat_and, hvalue, show refOwnerMask.toNat = 2 ^ 3 * (2 ^ 4 - 1) from rfl]
    have hshift : (2 ^ 7 * index.toNat + (2 ^ 3 * owner.toNat + type.toNat)) &&& 2 ^ 3 * (2 ^ 4 - 1) =
        2 ^ 3 * ((2 ^ 7 * index.toNat + (2 ^ 3 * owner.toNat + type.toNat)) / 2 ^ 3 &&&
          (2 ^ 4 - 1)) := by
      apply Nat.eq_of_testBit_eq
      intro i
      rw [Nat.testBit_and, Nat.testBit_two_pow_mul, Nat.testBit_two_pow_mul, Nat.testBit_and,
        Nat.testBit_div_two_pow]
      by_cases hi : 3 ≤ i
      · simp [hi, Nat.sub_add_cancel hi]
      · simp [hi]
    rw [hshift, Nat.and_two_pow_sub_one_eq_mod]
    omega
  have hmsb : ((makeReference type owner index) &&& refOwnerMask).msb = false := by
    rw [BitVec.msb_eq_decide, decide_eq_false_iff_not]
    omega
  apply BitVec.eq_of_toNat_eq
  rw [getReferenceOwner, if_neg (by simp [hnot]), BitVec.sshiftRight_eq_of_msb_false hmsb,
    BitVec.toNat_ushiftRight, Nat.shiftRight_eq_div_pow, hmask]
  simp only [refOwnerOffset]
  omega

end Decode

theorem ReferenceType.code_lt (type : ReferenceType) : type.code.toNat < 8 := by
  cases type <;> decide

theorem ReferenceType.code_ne (type : ReferenceType) : type.code ≠ localRefType := by
  cases type <;> decide

theorem ReferenceType.code_inj {a b : ReferenceType} (h : a.code = b.code) : a = b := by
  cases a <;> cases b <;> first | rfl | exact absurd h (by decide)

end CldcVm.References
