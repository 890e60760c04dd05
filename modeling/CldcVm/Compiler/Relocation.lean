import Mathlib

/-!
# The relocation stream

The relocation entries of a compiled method: `RelocationStream` and
`RelocationReader` (`compiler/Relocation.{hpp,cpp}`) and the emission of entries
(`compiler/BinaryAssemblerCommon.{hpp,cpp}`).

The stream is written from the end of the compiled method down. A position here
is the number of ushorts between the end and the entry, so that it grows, and
the word at a position is `words position`.
-/

namespace CldcVm.Compiler

/-! ## Entries -/

/-- `Relocation::Kind`, without the kinds of call infos and checkpoints, which
have streams of their own. -/
inductive Kind
  | oop | comment | osrStub | compilerStub | romOop | npeItem | preLoad | longBranch
  | compressedVsf
deriving DecidableEq, Repr

namespace Kind

/-- The value of the enumeration. -/
def code : Kind → ℕ
  | oop => 0
  | comment => 1
  | osrStub => 2
  | compilerStub => 3
  | romOop => 4
  | npeItem => 5
  | preLoad => 6
  | longBranch => 7
  | compressedVsf => 8

/-- The kind of a value. -/
def ofCode : ℕ → Option Kind
  | 0 => some oop
  | 1 => some comment
  | 2 => some osrStub
  | 3 => some compilerStub
  | 4 => some romOop
  | 5 => some npeItem
  | 6 => some preLoad
  | 7 => some longBranch
  | 8 => some compressedVsf
  | _ => none

/-- `has_param` (`Relocation.hpp`, lines 74–78). -/
def hasParam : Kind → Bool
  | osrStub | npeItem | preLoad => true
  | _ => false

end Kind

/-- `right_n_bits(offset_width - 1)`. -/
def maxEmbeddedOffset : ℤ := 2047

/-- `- max_embedded_offset - 1`. -/
def minEmbeddedOffset : ℤ := -2048

/-- `bitfield(offset, 0, offset_width)`. -/
def embed (offset : ℤ) : ℕ := (offset % 4096).toNat

/-- `sign_extend(bitfield(word, 0, offset_width), offset_width)`. -/
def embeddedOffset (word : ℕ) : ℤ :=
  let x : ℤ := word % 4096
  if x < 2048 then x else x - 4096

/-- The kind bits and the offset bits of an entry do not overlap. -/
def entryWord (kind : ℕ) (offset : ℕ) : ℕ := kind * 4096 + offset

/-! ## Emission -/

/-- The members of `RelocationStream` and of the assembler that emission uses:
`codeSize` is `_code_offset`, and `space` the bytes between `base_offset()`
and `end_offset()` of the compiled method. -/
structure RelocationStream where
  words : ℕ → ℕ
  position : ℕ
  codeOffset : ℤ
  oopPosition : ℕ
  oopCodeOffset : ℤ
  codeSize : ℕ
  space : ℕ

namespace RelocationStream

/-- The stream of a new compiled method (`RelocationStream::initialize`). -/
def initial (words : ℕ → ℕ) (space : ℕ) : RelocationStream where
  words := words
  position := 0
  codeOffset := 0
  oopPosition := 0
  oopCodeOffset := 0
  codeSize := 0
  space := space

/-- `has_room_for(bytes)`, with the slop of 8 bytes. -/
def hasRoomFor (s : RelocationStream) (bytes : ℕ) : Bool :=
  2 * s.position + s.codeSize + bytes + 8 ≤ s.space

/-- `emit_relocation_ushort` (lines 45–53): the stream advances even where the
word is not written. -/
def emitUshort (value : ℕ) (s : RelocationStream) : RelocationStream :=
  { s with
    words := if s.hasRoomFor 2 then Function.update s.words s.position (value % 65536) else s.words
    position := s.position + 1 }

/-- `emit_dummy` (lines 81–84). Its call of `compute_embedded_offset` finds the
largest or smallest offset that fits, so that it pads no further. -/
def emitDummy (codeOffset : ℤ) (s : RelocationStream) : RelocationStream :=
  let s := emitUshort (entryWord Kind.comment.code (embed (codeOffset - s.codeOffset)))
    { s with codeOffset := codeOffset }
  emitUshort 0 s

/-- The loops of `compute_embedded_offset`. -/
def padUp : (fuel : ℕ) → (codeOffset : ℤ) → RelocationStream → RelocationStream
  | 0, _, s => s
  | fuel + 1, codeOffset, s =>
    if codeOffset - s.codeOffset > maxEmbeddedOffset then
      padUp fuel codeOffset (emitDummy (s.codeOffset + maxEmbeddedOffset) s)
    else s

def padDown : (fuel : ℕ) → (codeOffset : ℤ) → RelocationStream → RelocationStream
  | 0, _, s => s
  | fuel + 1, codeOffset, s =>
    if codeOffset - s.codeOffset < minEmbeddedOffset then
      padDown fuel codeOffset (emitDummy (s.codeOffset + minEmbeddedOffset) s)
    else s

/-- `compute_embedded_offset` (lines 55–71). Every iteration changes the distance
by at least one, so it is fuel enough. -/
def computeEmbeddedOffset (codeOffset : ℤ) (s : RelocationStream) : ℕ × RelocationStream :=
  let s := padUp (codeOffset - s.codeOffset).natAbs codeOffset s
  let s := padDown (codeOffset - s.codeOffset).natAbs codeOffset s
  (embed (codeOffset - s.codeOffset), { s with codeOffset := codeOffset })

/-- `emit_relocation(kind, code_offset)` (lines 73–79). -/
def emitRelocation (kind : Kind) (codeOffset : ℤ) (s : RelocationStream) : RelocationStream :=
  let (offset, s) := computeEmbeddedOffset codeOffset s
  emitUshort (entryWord kind.code offset) s

/-- The words that follow the first word of an entry. -/
def emitWords (words : List ℕ) (s : RelocationStream) : RelocationStream :=
  words.foldl (fun s word => emitUshort word s) s

/-- `jvm_memmove` of the words between the two positions, down by `n` words. -/
def moveDown (n : ℕ) (s : RelocationStream) : RelocationStream :=
  { s with
    words := fun i =>
      if s.oopPosition + n ≤ i ∧ i < s.position + n then s.words (i - n) else s.words i }

/-- `emit_relocation_oop` (lines 89–170). -/
def emitRelocationOop (s : RelocationStream) : RelocationStream :=
  let codeOffset : ℤ := s.codeSize
  if s.position - s.oopPosition > 0 then
    let first := s.words s.oopPosition
    let firstCodeOffset := s.oopCodeOffset + embeddedOffset first
    let fromLastOop := codeOffset - s.oopCodeOffset
    let toFirst := firstCodeOffset - codeOffset
    let paddingBefore := ((fromLastOop - 1).tdiv maxEmbeddedOffset).toNat * 2
    let paddingAfter := ((toFirst + 1).tdiv minEmbeddedOffset).toNat * 2
    let moveOffset := paddingBefore + paddingAfter + 1
    let s₁ := if s.hasRoomFor (2 * moveOffset) then s.moveDown moveOffset else s
    let (before, s₂) := computeEmbeddedOffset codeOffset
      { s₁ with position := s.oopPosition, codeOffset := s.oopCodeOffset }
    let s₃ := emitUshort (entryWord Kind.oop.code before) s₂
    let (after, s₄) := computeEmbeddedOffset firstCodeOffset s₃
    let s₅ := emitUshort (entryWord (first / 4096 % 16) after) s₄
    { s₅ with
      position := s.position + moveOffset
      codeOffset := s.codeOffset
      oopPosition := s₃.position
      oopCodeOffset := codeOffset }
  else
    let (offset, s₁) := computeEmbeddedOffset codeOffset s
    let s₂ := emitUshort (entryWord Kind.oop.code offset) s₁
    { s₂ with oopPosition := s₂.position, oopCodeOffset := codeOffset }

/-- `emit_sentinel`. -/
def emitSentinel (s : RelocationStream) : RelocationStream := emitUshort 0 s

/-- `has_overflown_compiled_method`. -/
def hasOverflown (s : RelocationStream) : Bool := !s.hasRoomFor 0

end RelocationStream

/-! ## Compressed frames -/

/-- A register that a location can be mapped to: the register allocator gives out
neither `gp` (`r5`), `jsp` (`r6`) nor `pc` (`r15`). -/
def MappedRegister := { r : ℕ // r < 15 ∧ r ≠ 5 ∧ r ≠ 6 }
deriving DecidableEq

/-- A location of a frame that is in a register. A method has at most `2^16`
locals and as many stack words. -/
structure MappedLocation where
  index : ℕ
  register : MappedRegister
  index_lt : index < 2 ^ 17

namespace CompressedFrame

/-- The words of the pool that a location takes. -/
def locationSize (index : ℕ) : ℕ := if index < 4096 then 1 else 2

/-- The first pass of `emit_vsf` over the locations (lines 192–205). -/
def registerList (locations : List MappedLocation) : ℕ :=
  locations.foldl (fun regList loc => regList ||| 2 ^ loc.register.val) 0

def countLocations (locations : List MappedLocation) : ℕ → ℤ :=
  locations.foldl (fun regLocation loc =>
    Function.update regLocation (loc.register.val + 1)
      (regLocation (loc.register.val + 1) - locationSize loc.index)) fun _ => 0

/-- The loop that sums the counts (lines 226–228); there are 16 registers. -/
def sumLocations (regLocation : ℕ → ℤ) : ℕ → ℤ :=
  (List.range 16).foldl (fun regLocation i =>
    Function.update regLocation (i + 1) (regLocation (i + 1) + regLocation i)) regLocation

/-- `reg_location` and the pool. The pool lies at negative offsets. -/
structure Pool where
  regLocation : ℕ → ℤ
  words : ℤ → ℕ

/-- One location of the second pass (lines 239–251). -/
def fillLocation (pool : Pool) (loc : MappedLocation) : Pool :=
  let offset := pool.regLocation loc.register.val - 1
  if loc.index < 4096 then
    { regLocation := Function.update pool.regLocation loc.register.val offset
      words := Function.update pool.words offset loc.index }
  else
    { regLocation := Function.update pool.regLocation loc.register.val (offset - 1)
      words := Function.update (Function.update pool.words offset (4096 ||| loc.index >>> 12))
        (offset - 1) (loc.index &&& 0xcfff) }

/-- The marks of the last locations (lines 254–258). -/
def markLast (regList : ℕ) (pool : Pool) : ℤ → ℕ :=
  (List.range 16).foldl (fun words i =>
    if regList.testBit i then
      Function.update words (pool.regLocation i) (words (pool.regLocation i) ||| 0x2000)
    else words) pool.words

/-- The words of the pool, in the order in which they follow the entry. -/
def poolWords (locations : List MappedLocation) : List ℕ :=
  let regLocation := sumLocations (countLocations locations)
  let pool := locations.foldl fillLocation ⟨regLocation, fun _ => 0⟩
  let words := markLast (registerList locations) pool
  (List.range (-regLocation 16).toNat).map fun (j : ℕ) => words (-(j + 1 : ℤ))

/-- The register list with the difference of the stack pointers (lines 207–219),
and the difference itself where it is too large for two bits. -/
def spWords (regList : ℕ) (spDelta : ℤ) : List ℕ :=
  if spDelta ≥ 3 then [regList ||| 3 <<< 5, spDelta.toNat % 65536]
  else if spDelta ≥ 0 then [regList ||| spDelta.toNat <<< 5]
  else if -spDelta < 3 then [regList ||| 2 ^ 15 ||| (-spDelta).toNat <<< 5]
  else [regList ||| 2 ^ 15 ||| 3 <<< 5, (-spDelta).toNat % 65536]

/-- The words after the entry that `emit_vsf` (lines 172–260) emits. -/
def payload (spDelta : ℤ) (locations : List MappedLocation) : List ℕ :=
  spWords (registerList locations) spDelta ++ poolWords locations

end CompressedFrame

/-! ## The entries of a compilation -/

/-- An entry as the compiler asks for it, or as the reader finds it: its kind, its
code offset and the words that follow it. -/
structure Entry where
  kind : Kind
  codeOffset : ℤ
  payload : List ℕ
deriving DecidableEq, Repr

/-- What the compiler does with the assembler, as far as the stream goes. -/
inductive Action
  /-- Code is emitted: `_code_offset` advances. -/
  | code (bytes : ℕ)
  /-- `ensure_compiled_method_space` moves the stream to a higher address. -/
  | expand (bytes : ℕ)
  | oop
  | compilerStub
  | romOop
  | longBranch
  | osrEntry (bci : ℕ)
  | npeItem (codeOffset param : ℕ)
  | preLoad (codeOffset param : ℕ)
  /-- A comment of at most 1023 chars. -/
  | comment (text : List UInt8) (h : text.length < 1024)
  | vsf (spDelta : ℤ) (locations : List MappedLocation)

/-- A `char` of a comment becomes a ushort by sign extension. -/
def charWord (c : UInt8) : ℕ := if c.toNat < 128 then c.toNat else 0xff00 + c.toNat

namespace Action

/-- The entry that an action emits, at a code offset of the assembler. -/
def entry (codeSize : ℕ) : Action → Option Entry
  | code _ => none
  | expand _ => none
  | oop => some ⟨.oop, codeSize, []⟩
  | compilerStub => some ⟨.compilerStub, codeSize, []⟩
  | romOop => some ⟨.romOop, codeSize, []⟩
  | longBranch => some ⟨.longBranch, codeSize, []⟩
  | osrEntry bci => some ⟨.osrStub, codeSize, [bci]⟩
  | npeItem codeOffset param => some ⟨.npeItem, codeOffset, [param]⟩
  | preLoad codeOffset param => some ⟨.preLoad, codeOffset, [param]⟩
  | comment text _ => some ⟨.comment, codeSize, text.length :: text.map charWord⟩
  | vsf spDelta locations =>
    some ⟨.compressedVsf, codeSize, CompressedFrame.payload spDelta locations⟩

/-- The action on the stream. -/
def run (a : Action) (s : RelocationStream) : RelocationStream :=
  match a with
  | code bytes => { s with codeSize := s.codeSize + bytes }
  | expand bytes => { s with space := s.space + bytes }
  | oop => s.emitRelocationOop
  | compilerStub => s.emitRelocation .compilerStub s.codeSize
  | romOop => s.emitRelocation .romOop s.codeSize
  | longBranch => s.emitRelocation .longBranch s.codeSize
  | osrEntry bci => (s.emitRelocation .osrStub s.codeSize).emitUshort bci
  | npeItem codeOffset param => (s.emitRelocation .npeItem codeOffset).emitUshort param
  | preLoad codeOffset param => (s.emitRelocation .preLoad codeOffset).emitUshort param
  | comment text _ =>
    ((s.emitRelocation .comment s.codeSize).emitUshort text.length).emitWords (text.map charWord)
  | vsf spDelta locations =>
    (s.emitRelocation .compressedVsf s.codeSize).emitWords
      (CompressedFrame.payload spDelta locations)

end Action

/-- A compilation: the stream, closed with its sentinel, and the entries that have
been emitted. It is given up when the compiled method overflows. -/
def compile : List Action → RelocationStream → Option (RelocationStream × List Entry)
  | [], s =>
    let s' := s.emitSentinel
    if s'.hasOverflown then none else some (s', [])
  | a :: actions, s =>
    let s' := a.run s
    if s'.hasOverflown then none
    else
      match compile actions s' with
      | none => none
      | some (s'', entries) => some (s'', (a.entry s.codeSize).toList ++ entries)

/-! ## The reader -/

namespace RelocationReader

variable (words : ℕ → ℕ)

/-- The inner loop of `advance` over the locations of one register. -/
def skipRegister : (fuel position : ℕ) → Option ℕ
  | 0, _ => none
  | fuel + 1, position =>
    if (words position).testBit 13 then some (position + 1) else skipRegister fuel (position + 1)

/-- The outer loop: the register list without `sp_mask` and `sp_negative`. -/
def skipRegisters (fuel regList : ℕ) : (registers : List ℕ) → (position : ℕ) → Option ℕ
  | [], position => some position
  | r :: registers, position =>
    if regList.testBit r then
      match skipRegister words fuel position with
      | none => none
      | some position => skipRegisters fuel regList registers position
    else skipRegisters fuel regList registers position

/-- The bits of `reg_mask` in a ushort. -/
def mapRegisters : List ℕ := [0, 1, 2, 3, 4, 7, 8, 9, 10, 11, 12, 13, 14]

/-- `advance` (`Relocation.cpp`, lines 37–71): the position of the next entry. The
search for a mark is given up after `fuel` words. -/
def advance (fuel : ℕ) (kind : Kind) (position : ℕ) : Option ℕ :=
  if kind.hasParam then some (position + 2)
  else if kind = .comment then some (position + 2 + words (position + 1))
  else if kind = .compressedVsf then
    let regList := words (position + 1)
    skipRegisters words fuel regList mapRegisters
      (position + if regList.testBit 5 && regList.testBit 6 then 3 else 2)
  else some (position + 1)

/-- The entries from a position on, until the sentinel. -/
def entriesFrom : (fuel position : ℕ) → (codeOffset : ℤ) → Option (List Entry)
  | 0, _, _ => none
  | fuel + 1, position, codeOffset =>
    let current := words position
    if current = 0 then some []
    else
      match Kind.ofCode (current / 4096 % 16) with
      | none => none
      | some kind =>
        let codeOffset := codeOffset + embeddedOffset current
        match advance words fuel kind position with
        | none => none
        | some next =>
          let payload := (List.range (next - (position + 1))).map fun i => words (position + 1 + i)
          (entriesFrom fuel next codeOffset).map (⟨kind, codeOffset, payload⟩ :: ·)

end RelocationReader

/-- What a `RelocationReader` finds in a stream. A stream has no more entries than
words. -/
def RelocationStream.read (s : RelocationStream) : Option (List Entry) :=
  RelocationReader.entriesFrom s.words s.position 0 0

end CldcVm.Compiler
