import CldcVm.Lib.Words

/-!
# The name table of the file system

Models of `rmfsInitialize`, `searchNameTabByID`, `rmfsNewNameTable`,
`searchNameTabByString`, `delNameTabByID`, `delNameTabByString` and
`rmfsTruncateNameTable` (`vm/os/utilities/rmfsAlloc.cpp`, lines 152–890).

The storage is a memory of bytes at addresses below `2^31`, so that they are positive as
`int`. A `_RmfsNameTabHdr` has 8 bytes: `nameLen`, `identifier` and `size`. `tempBuf` is
scratch space, and only what is read back from it is modelled. `jvmmemcpy` copies byte
by byte, from the lowest address on.
-/

namespace CldcVm.Rmfs

open Lib

/-- A file name: a C string that fits, with its header and the padding, into `tempBuf`. -/
structure FileName where
  bytes : List Byte
  nonzero : ∀ b ∈ bytes, b ≠ 0
  fits : bytes.length + 8 + 4 ≤ 300
deriving DecidableEq

/-- The raw memory, and the `static` variables of the allocator. -/
structure Storage where
  mem : Memory
  memoryEnd : ℕ
  nameTableEnd : ℕ
  dataBufferEnd : ℕ
  globalNameID : ℕ

/-- `sizeof(_RmfsNameTabHdr)`. -/
def nameHdrSize : ℕ := 8

/-- `nameLen`. -/
def nameLenAt (m : Memory) (p : ℕ) : ℕ := readWord m 2 p

/-- `identifier`. -/
def identifierAt (m : Memory) (p : ℕ) : ℕ := readWord m 2 (p + 2)

/-- The identifier is written to the storage. -/
def setIdentifier (m : Memory) (p identifier : ℕ) : Memory := writeWord m 2 (p + 2) identifier

/-- `strcmp(...) == 0`. -/
def sameString (m : Memory) (p : ℕ) : List Byte → Bool
  | [] => m p == 0
  | b :: bs => m p == b && sameString m (p + 1) bs

/-- `strcpy` of a string that ends before `fuel` bytes. -/
def stringAt (m : Memory) (p : ℕ) : (fuel : ℕ) → List Byte
  | 0 => []
  | fuel + 1 => if m p = 0 then [] else m p :: stringAt m (p + 1) fuel

namespace Storage

/-- `rmfsInitialize`, without the header of the storage, which is not read again; the
first identifier is `RmfsGlobalNameID + 1`. -/
def rmfsInitialize (m : Memory) (start size : ℕ) : Storage :=
  ⟨m, start + size, start + size, start + 12, 1⟩

variable (s : Storage)

/-- `tabLength`. -/
def tabLength : ℕ := s.memoryEnd - s.nameTableEnd

/-! ## Lookup -/

/-- The loop of `searchNameTabByID`. A round advances by a header at least. -/
def searchIDFrom (identifier : ℕ) : (fuel curLength : ℕ) → Option (ℕ × List Byte)
  | 0, _ => none
  | fuel + 1, curLength =>
    let p := s.nameTableEnd + curLength
    if s.tabLength < curLength + nameHdrSize + nameLenAt s.mem p then none
    else if identifierAt s.mem p = identifier then
      some (p, stringAt s.mem (p + nameHdrSize) (s.memoryEnd - p))
    else if s.tabLength ≤ curLength + nameHdrSize + nameLenAt s.mem p + nameHdrSize then none
    else searchIDFrom identifier fuel (curLength + nameHdrSize + nameLenAt s.mem p)

/-- `searchNameTabByID`: the position and the name. -/
def searchNameTabByID (identifier : ℕ) : Option (ℕ × List Byte) :=
  if s.tabLength < nameHdrSize then none else s.searchIDFrom identifier s.tabLength 0

/-- The loop of `searchNameTabByString`. -/
def searchStringFrom (filename : FileName) : (fuel curLength : ℕ) → Option (ℕ × ℕ)
  | 0, _ => none
  | fuel + 1, curLength =>
    let p := s.nameTableEnd + curLength
    if s.tabLength < curLength + nameHdrSize + nameLenAt s.mem p then none
    else if sameString s.mem (p + nameHdrSize) filename.bytes then
      some (p, identifierAt s.mem p)
    else if s.tabLength < curLength + nameHdrSize + nameLenAt s.mem p + nameHdrSize then none
    else searchStringFrom filename fuel (curLength + nameHdrSize + nameLenAt s.mem p)

/-- `searchNameTabByString`: the position and the identifier. -/
def searchNameTabByString (filename : FileName) : Option (ℕ × ℕ) :=
  if s.tabLength < nameHdrSize then none else s.searchStringFrom filename s.tabLength 0

/-! ## Creation -/

end Storage

/-- `nameLen` of a new entity. -/
def paddedLength (bytes : List Byte) : ℕ := (bytes.length / 4 + 1) * 4

/-- The length of an entity in `delNameTabByID` and `delNameTabByString`. -/
def lastNameLen (bytes : List Byte) : ℕ :=
  let length := nameHdrSize + bytes.length + 1
  if length = length / 4 * 4 then length else (length / 4 + 1) * 4

/-- `tempBuf` with a new entity. -/
def entityBytes (filename : FileName) (identifier : ℕ) : List Byte :=
  toBytes 2 (paddedLength filename.bytes) ++ toBytes 2 identifier ++ toBytes 4 0 ++
    filename.bytes ++ List.replicate (paddedLength filename.bytes - filename.bytes.length) 0

namespace Storage

variable (s : Storage)

/-- `RmfsGlobalNameID++`. -/
def nextNameID : ℕ := (s.globalNameID + 1) % 2 ^ 32

/-- The last part of `rmfsNewNameTable`: a new entity before the others. -/
def addNameTable (filename : FileName) : ℕ × Storage :=
  let length := paddedLength filename.bytes + nameHdrSize
  let s := { s with globalNameID := s.nextNameID }
  if s.nameTableEnd - s.dataBufferEnd ≤ length then (0, s)
  else
    (s.globalNameID % 2 ^ 16, { s with
      mem := write s.mem (s.nameTableEnd - length) (entityBytes filename s.globalNameID)
      nameTableEnd := s.nameTableEnd - length })

/-- `rmfsNewNameTable`: the identifier, and 0 if there is not enough space. -/
def rmfsNewNameTable (filename : FileName) : ℕ × Storage :=
  match s.searchNameTabByString filename with
  | some (entityPos, 0) =>
    (s.nextNameID % 2 ^ 16, { s with
      globalNameID := s.nextNameID
      mem := setIdentifier s.mem entityPos (s.nextNameID % 2 ^ 16) })
  | some (_, fileID) => (fileID, { s with globalNameID := s.nextNameID })
  | none => s.addNameTable filename

/-! ## Deletion -/

/-- The last entity is removed. -/
def removeLast (bytes : List Byte) (entityPos : ℕ) : Storage :=
  if entityPos = s.nameTableEnd then { s with nameTableEnd := s.nameTableEnd + lastNameLen bytes }
  else s

/-- `delNameTabByID`. -/
def delNameTabByID (identifier : ℕ) : Bool × Storage :=
  match s.searchNameTabByID identifier with
  | some (entityPos, filename) =>
    (true, { s with mem := setIdentifier s.mem entityPos 0 }.removeLast filename entityPos)
  | none => (false, s)

/-- `delNameTabByString`. -/
def delNameTabByString (filename : FileName) : Bool × Storage :=
  match s.searchNameTabByString filename with
  | some (entityPos, _) =>
    (true, { s with mem := setIdentifier s.mem entityPos 0 }.removeLast filename.bytes entityPos)
  | none => (false, s)

end Storage

/-! ## Truncation -/

/-- The bits of an `int` as an `unsigned int`, or as an address. -/
def asUnsigned (x : ℤ) : ℕ := (x % 2 ^ 32).toNat

/-- `(unsigned short) *p` for a `char`, which is signed or not. -/
def charToShort (signedChar : Bool) (b : Byte) : ℕ :=
  if signedChar then (b.signExtend 16).toNat else b.toNat

/-- The inner loop of `rmfsTruncateNameTable`: segments move down by their length. -/
def slideSegments (length : ℕ) : (fuel : ℕ) → Memory → (tempAddress remainByte : ℤ) →
    Option (Memory × ℤ × ℤ)
  | 0, _, _, _ => none
  | fuel + 1, m, tempAddress, remainByte =>
    if length ≤ asUnsigned remainByte then
      slideSegments length fuel
        (memcpy m (asUnsigned tempAddress) (asUnsigned (tempAddress + length)) length)
        (tempAddress + length) (remainByte - length)
    else some (m, tempAddress, remainByte)

/-- What `rmfsTruncateNameTable` does with an entity that it takes for a hole. -/
def fillHole (fuel : ℕ) (m : Memory) (length : ℕ) (tempAddress remainByte : ℤ) : Option Memory :=
  match slideSegments length fuel m tempAddress remainByte with
  | none => none
  | some (m, tempAddress, remainByte) =>
    if 0 < remainByte then
      some (memcpy m (asUnsigned tempAddress) (asUnsigned (tempAddress + length)) remainByte.toNat)
    else some m

/-- The loop of `rmfsTruncateNameTable`. It steps over four bytes of a header only, and it
reads one byte of each field. -/
def truncateFrom (signedChar : Bool) (nameTabBuffer : ℕ) :
    (fuel : ℕ) → Memory → (tabLength curLength : ℤ) → Option (Memory × ℤ)
  | 0, _, _, _ => none
  | fuel + 1, m, tabLength, curLength =>
    let nameLen := charToShort signedChar (m (asUnsigned (nameTabBuffer + curLength)))
    let identifier := charToShort signedChar (m (asUnsigned (nameTabBuffer + curLength + 2)))
    if asUnsigned (curLength + nameHdrSize) ≤ asUnsigned tabLength then
      if identifier = 0 then
        match fillHole fuel m (nameLen + nameHdrSize)
            (nameTabBuffer + (curLength + 4) - nameHdrSize)
            (tabLength - (curLength + 4) - (nameLen + nameHdrSize)) with
        | none => none
        | some m => truncateFrom signedChar nameTabBuffer fuel m
            (tabLength - (nameLen + nameHdrSize)) (curLength + 4 - nameHdrSize)
      else if tabLength < curLength + 4 + nameLen then some (m, tabLength)
      else truncateFrom signedChar nameTabBuffer fuel m tabLength (curLength + 4 + nameLen)
    else some (m, tabLength)

/-- `rmfsTruncateNameTable`. -/
def Storage.rmfsTruncateNameTable (s : Storage) (signedChar : Bool) (fuel : ℕ) : Option Storage :=
  if s.tabLength < nameHdrSize then some s
  else
    match truncateFrom signedChar s.nameTableEnd fuel s.mem s.tabLength 0 with
    | none => none
    | some (m, tabLength) => some { s with
        mem := memcpy m (asUnsigned (s.memoryEnd - tabLength)) s.nameTableEnd (asUnsigned tabLength)
        nameTableEnd := asUnsigned (s.memoryEnd - tabLength) }

end CldcVm.Rmfs
