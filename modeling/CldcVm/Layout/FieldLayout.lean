import CldcVm.Verifier.Method

/-!
# Field offsets and oop maps

Model of `ClassFileParser::update_fields` and of the part of `parse_class_internal` that calls
it (`runtime/ClassFileParser.cpp`, lines 2088–2159 and 1873–1970), with `ENABLE_ISOLATES`: the
static fields are in the task mirror of the class.

A field entry keeps its offset in 16 bits, and the offset 0 means that the entry has none yet.
The oop map of a class lists the distances, in words, from one reference to the next.
-/

namespace CldcVm.Layout

open Verifier (BasicType)

/-! ## Sizes -/

/-- `byte_size_for` (`utilities/GlobalDefinitions.cpp`, lines 146–168). -/
def byteSizeFor : BasicType → ℕ
  | .boolean | .byte => 1
  | .char | .short => 2
  | .float | .int | .object | .array => 4
  | .double | .long => 8
  | .void => 0

/-- `align_size_up` and `align_allocation_size`, to a word. -/
def alignUp (size : ℕ) : ℕ := (size + 3) / 4 * 4

/-- `FieldType::allocation_byte_size` (`handles/FieldType.cpp`, lines 43–49). -/
def allocationByteSize (type : BasicType) (isStatic : Bool) : ℕ :=
  if isStatic then alignUp (byteSizeFor type) else byteSizeFor type

/-- `Instance::header_size`: the near pointer. -/
def headerSize : ℕ := 4

/-- `TaskMirror::static_field_start`: the seven words of `TaskMirrorDesc`. -/
def staticFieldStart : ℕ := 28

/-! ## Declarations and entries -/

/-- A declared field; `is_valid_field_type` has accepted its type. -/
structure Declaration where
  isStatic : Bool
  type : BasicType
  type_ne : type ≠ .void
deriving DecidableEq

/-- The entry of a field: `OFFSET_OFFSET` is a `jushort`. -/
structure FieldEntry extends Declaration where
  offset : ℕ
deriving DecidableEq

namespace FieldEntry

/-- The size of the field. -/
def size (field : FieldEntry) : ℕ := allocationByteSize field.type field.isStatic

/-- A field that an oop map lists. -/
def isReference (field : FieldEntry) : Bool := field.type = .object || field.type = .array

end FieldEntry

/-- `parse_fields`: the entries of the declared fields, with no offset. -/
def parseFields (declarations : List Declaration) : List FieldEntry :=
  declarations.map fun declaration => ⟨declaration, 0⟩

/-- The sum of the sizes of the fields. -/
def totalSize (fields : List FieldEntry) : ℕ := (fields.map FieldEntry.size).sum

/-! ## `update_fields` -/

def oopMapEscape : ℕ := 0x80

/-- The bytes for one reference (lines 2142–2148). -/
def encodeDelta (wordDelta : ℕ) : List UInt8 :=
  if wordDelta ≥ oopMapEscape then 0x80 :: encodeDelta (wordDelta - (oopMapEscape - 1))
  else [UInt8.ofNat wordDelta]
termination_by wordDelta
decreasing_by
  simp only [oopMapEscape] at *
  omega

/-- The distance in words, as a `size_t` (line 2140). -/
def wordDelta (fieldOffset prevOopOffset : ℕ) : ℕ :=
  ((((fieldOffset : ℤ) - prevOopOffset).tdiv 4) % 2 ^ 32).toNat

/-- What the loops of `update_fields` carry along: `next_offset`, `prev_oop_offset` and the
bytes written to the map. -/
structure Progress where
  nextOffset : ℕ
  prevOopOffset : ℕ
  map : List UInt8

/-- The entry has no offset yet, and the pass with this size is the one for it
(lines 2102–2132). -/
def isDue (isStatic : Bool) (currentMax : ℕ) (field : FieldEntry) : Bool :=
  field.offset = 0 && field.isStatic = isStatic && field.size ≥ currentMax

/-- The progress after an entry has got its offset (lines 2133–2150). -/
def Progress.advance (progress : Progress) (field : FieldEntry) : Progress :=
  if field.isReference then
    { nextOffset := progress.nextOffset + field.size
      prevOopOffset := progress.nextOffset
      map := progress.map ++
        encodeDelta (wordDelta progress.nextOffset progress.prevOopOffset) }
  else { progress with nextOffset := progress.nextOffset + field.size }

/-- One pass over the entries (lines 2098–2154). -/
def updatePass (isStatic : Bool) (currentMax : ℕ) :
    Progress → List FieldEntry → Progress × List FieldEntry
  | progress, [] => (progress, [])
  | progress, field :: fields =>
    if isDue isStatic currentMax field then
      let (progress', fields) := updatePass isStatic currentMax (progress.advance field) fields
      (progress', { field with offset := progress.nextOffset % 2 ^ 16 } :: fields)
    else
      let (progress, fields) := updatePass isStatic currentMax progress fields
      (progress, field :: fields)

/-- The sizes of the passes (lines 2095–2096). -/
def passes (isStatic : Bool) : List ℕ := if isStatic then [1] else [4, 2, 1]

/-- `update_fields` (lines 2088–2159). -/
def updateFields (isStatic : Bool) (nextOffset prevOopOffset : ℕ) (fields : List FieldEntry) :
    Progress × List FieldEntry :=
  (passes isStatic).foldl
    (fun (progress, fields) currentMax => updatePass isStatic currentMax progress fields)
    (⟨nextOffset, prevOopOffset, []⟩, fields)

/-! ## Superclasses -/

/-- The words that the bytes of an oop map span, as the walkers add them up. -/
def mapWords (map : List UInt8) : ℕ :=
  (map.map fun entry => if entry = 0x80 then 127 else entry.toNat).sum

/-- What a class inherits: an instance size that `new_instance_class` has accepted, and an oop
map, without its terminator, that ends with a reference inside the instance. -/
structure SuperClass where
  instanceSize : ℕ
  oopMap : List UInt8
  size_pos : 0 < instanceSize
  size_le : instanceSize ≤ 0x7FFF
  size_aligned : 4 ∣ instanceSize
  entry_pos : ∀ entry ∈ oopMap, 0 < entry.toNat
  entry_le : ∀ entry ∈ oopMap, entry.toNat ≤ 0x80
  last_ne : oopMap.getLast? ≠ some 0x80
  inInstance : 4 * mapWords oopMap < instanceSize

namespace SuperClass

/-- `InstanceClass::nonstatic_map_size`. -/
def nonstaticMapSize (super : SuperClass) : ℕ := super.oopMap.length + 1

/-- `InstanceClass::last_nonstatic_oop_offset` (`handles/InstanceClass.cpp`, lines 264–272). -/
def lastNonstaticOopOffset (super : SuperClass) : ℕ :=
  super.oopMap.foldl (fun oopOffset value => oopOffset + value.toNat * 4) 0

end SuperClass

/-! ## `parse_class_internal` -/

/-- What `parse_class_internal` makes of the fields. The static oop map follows the other
one. -/
structure ParsedClass where
  fields : List FieldEntry
  instanceSize : ℕ
  staticFieldSize : ℕ
  nonstaticOopMap : List UInt8
  staticOopMap : List UInt8

variable (super : Option SuperClass) (declarations : List Declaration)

/-- `first_nonstatic_offset`. -/
def firstNonstaticOffset : ℕ := (super.map SuperClass.instanceSize).getD headerSize

/-- `prev_nonstatic_oop_offset`, before the fields. -/
def prevNonstaticOopOffset : ℕ := (super.map SuperClass.lastNonstaticOopOffset).getD 0

/-- The inherited part of the map. -/
def inheritedMap : List UInt8 := (super.map SuperClass.oopMap).getD []

/-- `nonstatic_map_size`, before the fields. -/
def inheritedMapSize : ℕ := (super.map SuperClass.nonstaticMapSize).getD 1

/-- `nonstatic_field_size` and `static_field_size` (lines 654–680). -/
def nonstaticFieldSize : ℕ :=
  alignUp (totalSize ((parseFields declarations).filter fun field => !field.isStatic))

def staticFieldSize : ℕ := totalSize ((parseFields declarations).filter fun field => field.isStatic)

/-- The call for the fields that are not static (lines 1920–1923). -/
def updateNonstatic : Progress × List FieldEntry :=
  updateFields false (firstNonstaticOffset super) (prevNonstaticOopOffset super)
    (parseFields declarations)

/-- The call for the static fields (lines 1925–1927). -/
def updateStatic : Progress × List FieldEntry :=
  updateFields true staticFieldStart 0 (updateNonstatic super declarations).2

/-- `parse_class_internal`, lines 1873–1970: the loops at the end copy as many bytes of each map
as its size says. -/
def parseClass : ParsedClass :=
  let nonstaticMap := (updateNonstatic super declarations).1.map
  let staticMap := (updateStatic super declarations).1.map
  { fields := (updateStatic super declarations).2
    instanceSize := alignUp (firstNonstaticOffset super + nonstaticFieldSize declarations)
    staticFieldSize := staticFieldSize declarations
    nonstaticOopMap :=
      (inheritedMap super ++ nonstaticMap ++ [0]).take
        (inheritedMapSize super + nonstaticMap.length)
    staticOopMap := (staticMap ++ [0]).take (1 + staticMap.length) }

/-! ## The walkers -/

/-- The loop of `OopDesc::map_oops_do` (`memory/OopDesc.inline.hpp`, lines 27–45), and of the
copies of it in `mark_forward_pointers` and in the update of the object pointers
(`memory/ObjectHeap.cpp`, lines 2534–2552 and 3001–3025): the byte offsets visited, and what
follows the terminator. `none` is a walk over the end of the bytes. -/
def walk (base : ℕ) : List UInt8 → Option (List ℕ × List UInt8)
  | [] => none
  | entry :: map =>
    if entry.toInt8 > 0 then
      (walk (base + 4 * entry.toNat) map).map fun (offsets, rest) =>
        ((base + 4 * entry.toNat) :: offsets, rest)
    else if entry = 0 then some ([], map)
    else walk (base + 4 * (oopMapEscape - 1)) map

end CldcVm.Layout
