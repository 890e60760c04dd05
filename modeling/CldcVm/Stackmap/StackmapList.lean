import CldcVm.Lib.BitStream

/-!
# Lists of compressed stackmaps

The types of the verifier, the integer array in which the class file parser leaves one of its
stackmaps, and the entries of a `StackmapList` (src/vm/share/handles/StackmapList.hpp): a short
map packs its fields into one word, a long map is an array of shorts.

Results:

* `convertToStackmaptag_code`: which types the garbage collector takes for references.
* `encodes_update_setShortMap`, `encodes_update_setLongMap`: what is written into a fresh entry is read back.
* `encodes_setBci`: a new bci leaves the other fields of an entry alone.
-/

namespace CldcVm.Stackmap

open Lib

/-! ## Stackmaps of the verifier -/

/-- The types that the class file parser puts into a stackmap
(src/vm/share/runtime/ClassFileParser.cpp:771-818). -/
inductive VerifierType
  | bogus
  | integer
  | float
  | double
  | long
  | null
  | initObject
  | object
  | newObject (pc : ℕ)
  | long2
  | double2
deriving DecidableEq, Repr

/-- `ENCODE_NEWOBJECT` (src/vm/share/runtime/StackMapDefinitions.hpp:57-59). -/
def encodeNewObject (pc : ℕ) : ℕ := ((pc &&& 0xFFFF) <<< 16) ||| 0x1000

namespace VerifierType

/-- The `StackMapKind` of a type, as an unsigned word
(src/vm/share/runtime/StackMapDefinitions.hpp:33-51). -/
def code : VerifierType → ℕ
  | bogus => 0
  | integer => 1
  | float => 2
  | double => 3
  | long => 4
  | null => 5
  | initObject => 6
  | object => 7
  | newObject pc => encodeNewObject pc
  | long2 => 9
  | double2 => 10

/-- A slot of this type holds a reference. -/
def isReference : VerifierType → Bool
  | null | initObject | object | newObject _ => true
  | _ => false

end VerifierType

/-- The two tags of compressed stackmaps. -/
inductive Tag
  | int
  | obj
deriving DecidableEq, Repr

/-- `StackmapGenerator::convert_to_stackmaptag` (StackmapGenerator.cpp:1143-1169).
`StackMapKind` has no negative enumerator, so its values compare as unsigned words. -/
def convertToStackmaptag (kind : ℕ) : Tag :=
  if kind ≤ VerifierType.long.code ∨ kind = VerifierType.long2.code ∨
      kind = VerifierType.double2.code then .int
  else .obj

theorem le_encodeNewObject (pc : ℕ) : 0x1000 ≤ encodeNewObject pc := Nat.right_le_or

theorem convertToStackmaptag_code (type : VerifierType) :
    convertToStackmaptag type.code = .obj ↔ type.isReference = true := by
  cases type with
  | newObject pc =>
    have hle := le_encodeNewObject pc
    have hlarge : ¬ (encodeNewObject pc ≤ 4 ∨ encodeNewObject pc = 9 ∨ encodeNewObject pc = 10) := by
      omega
    have htag : convertToStackmaptag (VerifierType.newObject pc).code = .obj := if_neg hlarge
    exact iff_of_true htag rfl
  | _ => decide

/-- A stackmap of the verifier. `unused` are the integers of the array that the parser allocates
for the largest map of the method and does not fill. -/
structure VerifierStackmap where
  bci : ℕ
  locals : List VerifierType
  stack : List VerifierType
  unused : List ℕ
  bci_lt : bci < 2 ^ 16
  locals_lt : locals.length < 2 ^ 16
  stack_lt : stack.length < 2 ^ 16

namespace VerifierStackmap

/-- The array of the parser: the bci, the locals after their number, the stack after its height. -/
def toArray (stackmap : VerifierStackmap) : List ℕ :=
  stackmap.bci :: stackmap.locals.length :: (stackmap.locals.map VerifierType.code ++
    stackmap.stack.length :: (stackmap.stack.map VerifierType.code ++ stackmap.unused))

/-- The number of slots, locals and stack. -/
def slots (stackmap : VerifierStackmap) : ℕ := stackmap.locals.length + stackmap.stack.length

/-- Slot `p` holds a reference. The slots of the stack come after the locals. -/
def isReference (stackmap : VerifierStackmap) (p : ℕ) : Bool :=
  ((stackmap.locals ++ stackmap.stack).map VerifierType.isReference).getD p false

/-- The stackmap at another bci. -/
def withBci (stackmap : VerifierStackmap) (bci : ℕ) : VerifierStackmap :=
  { stackmap with bci := bci % 2 ^ 16, bci_lt := Nat.mod_lt _ (by decide) }

variable (stackmap : VerifierStackmap)

@[simp] theorem withBci_locals (bci : ℕ) : (stackmap.withBci bci).locals = stackmap.locals := rfl

@[simp] theorem withBci_stack (bci : ℕ) : (stackmap.withBci bci).stack = stackmap.stack := rfl

theorem withBci_of_lt {bci : ℕ} (h : bci < 2 ^ 16) : (stackmap.withBci bci).bci = bci :=
  Nat.mod_eq_of_lt h

theorem toArray_getD_zero : stackmap.toArray.getD 0 0 = stackmap.bci := rfl

theorem toArray_getD_one : stackmap.toArray.getD 1 0 = stackmap.locals.length := rfl

theorem toArray_getD_add_two (i : ℕ) :
    stackmap.toArray.getD (i + 2) 0 = (stackmap.locals.map VerifierType.code ++
      stackmap.stack.length :: (stackmap.stack.map VerifierType.code ++ stackmap.unused)).getD i 0 :=
  rfl

theorem toArray_getD_stackHeight :
    stackmap.toArray.getD (stackmap.locals.length + 2) 0 = stackmap.stack.length := by
  rw [toArray_getD_add_two, List.getD_append_right _ _ _ _ (by simp)]
  simp

theorem toArray_getD_local {p : ℕ} (hp : p < stackmap.locals.length) :
    convertToStackmaptag (stackmap.toArray.getD (p + 2) 0) = .obj ↔
      stackmap.isReference p = true := by
  have hslot : stackmap.isReference p = stackmap.locals[p].isReference := by
    simp [isReference, List.getElem?_append, hp]
  rw [toArray_getD_add_two, List.getD_append _ _ _ _ (by simpa using hp), hslot,
    ← convertToStackmaptag_code]
  simp [hp]

theorem toArray_getD_stack {q : ℕ} (hq : q < stackmap.stack.length) :
    convertToStackmaptag (stackmap.toArray.getD (stackmap.locals.length + 3 + q) 0) = .obj ↔
      stackmap.isReference (stackmap.locals.length + q) = true := by
  have hslot : stackmap.isReference (stackmap.locals.length + q) = stackmap.stack[q].isReference := by
    simp [isReference, hq]
  have hindex : stackmap.locals.length + 3 + q = stackmap.locals.length + (q + 1) + 2 := by omega
  have hcode : stackmap.toArray.getD (stackmap.locals.length + 3 + q) 0 = stackmap.stack[q].code := by
    rw [hindex, toArray_getD_add_two, List.getD_append_right _ _ _ _ (by simp)]
    simp [List.getElem?_append, hq]
  rw [hcode, hslot, convertToStackmaptag_code]

end VerifierStackmap

/-! ## Entries -/

/-- An entry of a `StackmapList`: a word, or the (aligned) address of an array of shorts. -/
inductive MapEntry
  | integer (entry : ℕ)
  | pointer (longmap : List ℕ)
deriving DecidableEq, Repr

abbrev StackmapList := List MapEntry

/-- `StackmapListDesc::SHORT_ENTRY_FLAG` and the bounds of the fields of a short map
(src/vm/share/memory/StackmapListDesc.cpp:30-35). -/
def shortEntryFlag : ℕ := 0x1
def shortEntryStackHeightMask : ℕ := 0x3
def shortEntryStackHeightMax : ℕ := 0x3
def shortEntryLocalsMax : ℕ := 0xF
def shortStackmapBitsMax : ℕ := 0x10
def shortEntryBciMax : ℕ := 0x1FF

/-- `StackmapListDesc::is_shortmap_type` (src/vm/share/memory/StackmapListDesc.cpp:57-70). -/
def isShortmapType (locals stackHeight bci : ℕ) : Bool :=
  if locals > shortEntryLocalsMax ∨ bci > shortEntryBciMax ∨
      stackHeight > shortEntryStackHeightMax then false
  else if stackHeight + locals > shortStackmapBitsMax then false
  else true

theorem isShortmapType_bounds {locals stackHeight bci : ℕ}
    (h : isShortmapType locals stackHeight bci = true) :
    locals < 2 ^ 4 ∧ stackHeight < 2 ^ 2 ∧ bci < 2 ^ 9 ∧ locals + stackHeight ≤ 16 := by
  simp [isShortmapType, shortEntryLocalsMax, shortEntryBciMax, shortEntryStackHeightMax,
    shortStackmapBitsMax] at h
  omega

namespace MapEntry

/-- A new list is zeroed memory. -/
def fresh : MapEntry := .integer 0

/-- `uint_field` of the entry. The address of a long map is even, and no reader looks further. -/
def uintField : MapEntry → ℕ
  | .integer entry => entry
  | .pointer _ => 0

/-- `StackmapList::is_short_map` (StackmapList.hpp:64-67). -/
def isShortMap (e : MapEntry) : Bool := e.uintField &&& shortEntryFlag != 0

/-- `StackmapList::get_short_map` (StackmapList.hpp:69-72). -/
def getShortMap (e : MapEntry) : ℕ := (e.uintField >>> 16) % 2 ^ 16

/-- `StackmapList::set_short_map` (StackmapList.hpp:74-85). -/
def setShortMap (e : MapEntry) (bitmap : ℕ) : MapEntry :=
  .integer (((e.uintField ||| shortEntryFlag) &&& 0xFFFF) ||| (bitmap <<< 16))

/-- `StackmapList::get_long_map` (StackmapList.hpp:87-89). -/
def getLongMap : MapEntry → List ℕ
  | .integer _ => []
  | .pointer longmap => longmap

/-- `StackmapList::set_long_map` (StackmapList.hpp:91-98). -/
def setLongMap (_e : MapEntry) (bitmap : List ℕ) : MapEntry := .pointer bitmap

/-- `StackmapList::get_stack_height` (StackmapList.hpp:102-111). -/
def getStackHeight (e : MapEntry) : ℕ :=
  if e.isShortMap then (e.uintField >>> 1) &&& shortEntryStackHeightMask else e.getLongMap.getD 1 0

/-- `StackmapList::get_locals` (StackmapList.hpp:128-138). -/
def getLocals (e : MapEntry) : ℕ :=
  if e.isShortMap then (e.uintField &&& 0x7F) >>> 3 else e.getLongMap.getD 0 0

/-- `StackmapList::get_bci` (StackmapList.hpp:156-166). -/
def getBci (e : MapEntry) : ℕ :=
  if e.isShortMap then (e.uintField &&& 0xFFFF) >>> 7 else e.getLongMap.getD 2 0

/-- `StackmapList::set_bci` (StackmapList.hpp:168-182). -/
def setBci (e : MapEntry) (bci : ℕ) : MapEntry :=
  if e.isShortMap then .integer ((e.uintField &&& 0xFFFF007F) ||| (bci <<< 7))
  else .pointer (e.getLongMap.set 2 bci)

/-- `StackmapList::update` (src/vm/share/handles/StackmapList.cpp:31-68). -/
def update (e : MapEntry) (count height bci : ℕ) : MapEntry :=
  if e.isShortMap then
    .integer (((e.uintField ||| (((height &&& shortEntryStackHeightMask) <<< 1) ||| (count <<< 3)))
      &&& 0xFFFF007F) ||| (bci <<< 7))
  else .pointer (((e.getLongMap.set 0 count).set 1 height).set 2 bci)

/-! ### The word of a short map -/

/-- The fields of a short map at their places. -/
def pack (bitmap bci locals height : ℕ) : ℕ :=
  2 ^ 16 * bitmap + (2 ^ 7 * bci + (2 ^ 3 * locals + (2 * height + 1)))

section Pack

variable {bitmap bci locals height : ℕ}

theorem and_0xFFFF (x : ℕ) : x &&& 0xFFFF = x % 2 ^ 16 := Nat.and_two_pow_sub_one_eq_mod x 16

theorem and_0x7F (x : ℕ) : x &&& 0x7F = x % 2 ^ 7 := Nat.and_two_pow_sub_one_eq_mod x 7

theorem and_stackHeightMask (x : ℕ) : x &&& shortEntryStackHeightMask = x % 2 ^ 2 :=
  Nat.and_two_pow_sub_one_eq_mod x 2

/-- The mask of `set_bci` and `update` keeps the bitmap and the low seven bits. -/
theorem and_0xFFFF007F {high mid low : ℕ} (hhigh : high < 2 ^ 16) (hmid : mid < 2 ^ 9)
    (hlow : low < 2 ^ 7) :
    (2 ^ 16 * high + (2 ^ 7 * mid + low)) &&& 0xFFFF007F = 2 ^ 16 * high + low := by
  have hmask : 0xFFFF007F = 2 ^ 16 * 0xFFFF + (2 ^ 7 * 0 + 0x7F) := by omega
  rw [hmask, two_pow_mul_add_and (by omega) (by omega), two_pow_mul_add_and hlow (by omega),
    and_0xFFFF, and_0x7F, Nat.mod_eq_of_lt hhigh, Nat.mod_eq_of_lt hlow, Nat.and_zero]
  omega

theorem or_shiftLeft_bci {high low : ℕ} (hlow : low < 2 ^ 7) (hbci : bci < 2 ^ 9) :
    (2 ^ 16 * high + low) ||| (bci <<< 7) = 2 ^ 16 * high + (2 ^ 7 * bci + low) := by
  have hleft : 2 ^ 16 * high + low = 2 ^ 16 * high + (2 ^ 7 * 0 + low) := by omega
  have hright : bci <<< 7 = 2 ^ 16 * 0 + (2 ^ 7 * bci + 0) := by
    rw [Nat.shiftLeft_eq]
    omega
  rw [hleft, hright, two_pow_mul_add_or (by omega) (by omega),
    two_pow_mul_add_or hlow (by omega), Nat.or_zero, Nat.or_zero, Nat.zero_or]

@[simp] theorem isShortMap_pack : isShortMap (.integer (pack bitmap bci locals height)) = true := by
  have hodd : pack bitmap bci locals height % 2 = 1 := by
    unfold pack
    omega
  simp [isShortMap, uintField, shortEntryFlag, Nat.and_one_is_mod, hodd]

@[simp] theorem isShortMap_pointer (longmap : List ℕ) : isShortMap (.pointer longmap) = false := by
  simp [isShortMap, uintField]

theorem getShortMap_pack (hbitmap : bitmap < 2 ^ 16) (hbci : bci < 2 ^ 9) (hlocals : locals < 2 ^ 4)
    (hheight : height < 2 ^ 2) :
    getShortMap (.integer (pack bitmap bci locals height)) = bitmap := by
  rw [getShortMap, uintField, Nat.shiftRight_eq_div_pow, pack]
  omega

theorem getStackHeight_pack (hheight : height < 2 ^ 2) :
    getStackHeight (.integer (pack bitmap bci locals height)) = height := by
  rw [getStackHeight, if_pos isShortMap_pack, uintField, and_stackHeightMask,
    Nat.shiftRight_eq_div_pow, pack]
  omega

theorem getLocals_pack (hlocals : locals < 2 ^ 4) (hheight : height < 2 ^ 2) :
    getLocals (.integer (pack bitmap bci locals height)) = locals := by
  rw [getLocals, if_pos isShortMap_pack, uintField, and_0x7F, Nat.shiftRight_eq_div_pow, pack]
  omega

theorem getBci_pack (hbci : bci < 2 ^ 9) (hlocals : locals < 2 ^ 4) (hheight : height < 2 ^ 2) :
    getBci (.integer (pack bitmap bci locals height)) = bci := by
  rw [getBci, if_pos isShortMap_pack, uintField, and_0xFFFF, Nat.shiftRight_eq_div_pow, pack]
  omega

theorem setBci_pack {newBci : ℕ} (hbitmap : bitmap < 2 ^ 16) (hbci : bci < 2 ^ 9)
    (hlocals : locals < 2 ^ 4) (hheight : height < 2 ^ 2) (hnew : newBci < 2 ^ 9) :
    setBci (.integer (pack bitmap bci locals height)) newBci =
      .integer (pack bitmap newBci locals height) := by
  rw [setBci, if_pos isShortMap_pack, uintField, pack, and_0xFFFF007F hbitmap hbci (by omega),
    or_shiftLeft_bci (by omega) hnew, pack]

theorem update_setShortMap (hbitmap : bitmap < 2 ^ 16) (hbci : bci < 2 ^ 9)
    (hlocals : locals < 2 ^ 4) (hheight : height < 2 ^ 2) :
    (fresh.setShortMap bitmap).update locals height bci =
      .integer (pack bitmap bci locals height) := by
  have hfresh : fresh.setShortMap bitmap = .integer (pack bitmap 0 0 0) := by
    have hright : bitmap <<< 16 = 2 ^ 16 * bitmap + 0 := by
      rw [Nat.shiftLeft_eq]
      omega
    have hone : (fresh.uintField ||| shortEntryFlag) &&& 0xFFFF = 2 ^ 16 * 0 + 1 := rfl
    rw [setShortMap, hone, hright, two_pow_mul_add_or (by omega) (by omega), Nat.zero_or,
      Nat.or_zero, pack, Nat.mul_zero, Nat.mul_zero, Nat.mul_zero, Nat.zero_add, Nat.zero_add,
      Nat.zero_add]
  have hfields : pack bitmap 0 0 0 ||| (((height &&& shortEntryStackHeightMask) <<< 1) |||
      (locals <<< 3)) = 2 ^ 16 * bitmap + (2 ^ 7 * 0 + (2 ^ 3 * locals + (2 * height + 1))) := by
    have hheights : (height &&& shortEntryStackHeightMask) <<< 1 = 2 ^ 3 * 0 + 2 * height := by
      rw [and_stackHeightMask, Nat.mod_eq_of_lt hheight, Nat.shiftLeft_eq]
      omega
    have hcounts : locals <<< 3 = 2 ^ 3 * locals + 0 := by
      rw [Nat.shiftLeft_eq]
      omega
    have hflag : 1 ||| 2 * height = 2 * height + 1 := by
      have hsplit := @two_pow_mul_add_or 1 0 height 1 0 (by omega) (by omega)
      simpa using hsplit
    rw [hheights, hcounts, two_pow_mul_add_or (by omega) (by omega), Nat.zero_or, Nat.or_zero]
    have hleft : pack bitmap 0 0 0 = 2 ^ 16 * bitmap + (2 ^ 3 * 0 + 1) := by
      unfold pack
      omega
    have hright : 2 ^ 3 * locals + 2 * height = 2 ^ 16 * 0 + (2 ^ 3 * locals + 2 * height) := by
      omega
    rw [hleft, hright, two_pow_mul_add_or (by omega) (by omega),
      two_pow_mul_add_or (by omega) (by omega), Nat.zero_or, Nat.or_zero, hflag]
    omega
  rw [hfresh, update, if_pos isShortMap_pack, uintField, hfields,
    and_0xFFFF007F hbitmap (by omega) (by omega), or_shiftLeft_bci (by omega) hbci, pack]

end Pack

/-! ### What an entry holds -/

/-- Bit `p` of the map of an entry. The map of a long map starts after its three fields. -/
def bit (e : MapEntry) (p : ℕ) : Bool :=
  if e.isShortMap then e.getShortMap.testBit p else streamBit 16 e.getLongMap (3 * 16 + p)

/-- The entries that the generator writes. -/
inductive WellFormed : MapEntry → Prop
  | short {bitmap bci locals height : ℕ} (hbitmap : bitmap < 2 ^ 16) (hbci : bci < 2 ^ 9)
      (hlocals : locals < 2 ^ 4) (hheight : height < 2 ^ 2) :
      WellFormed (.integer (pack bitmap bci locals height))
  | long {longmap : List ℕ} (hlength : 3 ≤ longmap.length) : WellFormed (.pointer longmap)

/-- The entry stands for the stackmap. -/
structure Encodes (e : MapEntry) (stackmap : VerifierStackmap) : Prop where
  wellFormed : e.WellFormed
  bci : e.getBci = stackmap.bci
  locals : e.getLocals = stackmap.locals.length
  stackHeight : e.getStackHeight = stackmap.stack.length
  bit : ∀ p < stackmap.slots, e.bit p = stackmap.isReference p

section Encodes

variable {stackmap : VerifierStackmap} {bitmap : ℕ} {longmap : List ℕ} {e : MapEntry}

/-- **Spec lemma** for a short map that is written into a fresh entry. -/
theorem encodes_update_setShortMap (hbitmap : bitmap < 2 ^ 16) (hbci : stackmap.bci < 2 ^ 9)
    (hlocals : stackmap.locals.length < 2 ^ 4) (hheight : stackmap.stack.length < 2 ^ 2)
    (hbits : ∀ p < stackmap.slots, bitmap.testBit p = stackmap.isReference p) :
    Encodes ((fresh.setShortMap bitmap).update stackmap.locals.length stackmap.stack.length
      stackmap.bci) stackmap := by
  rw [update_setShortMap hbitmap hbci hlocals hheight]
  exact {
    wellFormed := .short hbitmap hbci hlocals hheight
    bci := getBci_pack hbci hlocals hheight
    locals := getLocals_pack hlocals hheight
    stackHeight := getStackHeight_pack hheight
    bit := by
      intro p hp
      rw [bit, if_pos isShortMap_pack, getShortMap_pack hbitmap hbci hlocals hheight]
      exact hbits p hp }

theorem update_setLongMap (count height bci : ℕ) : (e.setLongMap longmap).update count height bci =
      .pointer (((longmap.set 0 count).set 1 height).set 2 bci) := by
  rw [setLongMap, update, if_neg (by simp), getLongMap]

theorem streamBit_set_attribute {index value : ℕ} (hindex : index < 3) (p : ℕ) :
    streamBit 16 (longmap.set index value) (3 * 16 + p) = streamBit 16 longmap (3 * 16 + p) :=
  streamBit_set_of_ne (by omega)

/-- **Spec lemma** for a long map. -/
theorem encodes_update_setLongMap (hlength : 3 ≤ longmap.length)
    (hbits : ∀ p < stackmap.slots, streamBit 16 longmap (3 * 16 + p) = stackmap.isReference p) :
    Encodes ((e.setLongMap longmap).update stackmap.locals.length stackmap.stack.length
      stackmap.bci) stackmap := by
  have hzero : 0 < longmap.length := by omega
  have hone : 1 < longmap.length := by omega
  have htwo : 2 < longmap.length := by omega
  rw [update_setLongMap]
  exact {
    wellFormed := .long (by simpa using hlength)
    bci := by simp [getBci, getLongMap, htwo]
    locals := by simp [getLocals, getLongMap, hzero]
    stackHeight := by simp [getStackHeight, getLongMap, hone]
    bit := by
      intro p hp
      rw [bit, if_neg (by simp), getLongMap, streamBit_set_attribute (by omega),
        streamBit_set_attribute (by omega), streamBit_set_attribute (by omega)]
      exact hbits p hp }

/-- **Spec lemma** for `set_bci`: nothing but the bci changes, if a short map has room for it. -/
theorem encodes_setBci (h : Encodes e stackmap) {bci : ℕ} (hbci : bci < 2 ^ 16)
    (hshort : e.isShortMap = true → bci < 2 ^ 9) :
    Encodes (e.setBci bci) (stackmap.withBci bci) := by
  have hwithBci : (stackmap.withBci bci).bci = bci := stackmap.withBci_of_lt hbci
  obtain ⟨hwellFormed, hbciOld, hlocalsOld, hheightOld, hbitOld⟩ := h
  cases hwellFormed with
  | @short bitmap bciOld locals height hbitmap hfield hlocals hheight =>
    have hnew : bci < 2 ^ 9 := hshort isShortMap_pack
    rw [setBci_pack hbitmap hfield hlocals hheight hnew]
    rw [getLocals_pack hlocals hheight] at hlocalsOld
    rw [getStackHeight_pack hheight] at hheightOld
    exact {
      wellFormed := .short hbitmap hnew hlocals hheight
      bci := (getBci_pack hnew hlocals hheight).trans hwithBci.symm
      locals := (getLocals_pack hlocals hheight).trans hlocalsOld
      stackHeight := (getStackHeight_pack hheight).trans hheightOld
      bit := by
        intro p hp
        have hold := hbitOld p hp
        rw [bit, if_pos isShortMap_pack, getShortMap_pack hbitmap hfield hlocals hheight] at hold
        rw [bit, if_pos isShortMap_pack, getShortMap_pack hbitmap hnew hlocals hheight]
        exact hold }
  | @long longmap hlength =>
    have htwo : 2 < longmap.length := by omega
    have hset : (pointer longmap).setBci bci = .pointer (longmap.set 2 bci) := by
      rw [setBci, if_neg (by simp), getLongMap]
    rw [hset]
    exact {
      wellFormed := .long (by simpa using hlength)
      bci := by simp [getBci, getLongMap, htwo, hwithBci]
      locals := by simpa [getLocals, getLongMap] using hlocalsOld
      stackHeight := by simpa [getStackHeight, getLongMap] using hheightOld
      bit := by
        intro p hp
        have hold := hbitOld p hp
        rw [bit, if_neg (by simp)] at hold ⊢
        rw [getLongMap, streamBit_set_attribute (by omega)]
        exact hold }

end Encodes

end MapEntry

end CldcVm.Stackmap
