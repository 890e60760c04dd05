import CldcVm.Files.FileDecoder
import CldcVm.Inflate.InputWindow

/-!
# The inflater

`Inflater::do_inflate`, `inflate_stored`, `inflate_huffman` and `decode_dynamic_huffman_tables`
(`runtime/Inflate.cpp`, lines 168–564) as a machine that takes one turn of a loop, or the code
between two loops, at a time. The machine stands at a `Point`; what the locals hold there is in it
or in the fields. Between two calls of `do_inflate`, `Inflater::get_bytes` makes room in the output
buffer (lines 98–107).

The output bytes are left out, no decision depends on them: of the output buffer there are its
length and `out_offset`. A run ends with an error or an exception, it is not resumed after one.
-/

namespace CldcVm.Inflate

open Files

/-! ## Tables of the code -/

/-- `INFLATER_INPUT_BUFFER`. -/
def inflaterInputBuffer : ℕ := 32768

/-- `INFLATER_OUTPUT_BUFFER`. -/
def inflaterOutputBuffer : ℕ := 65536

/-- `EXTRA_OUTPUT_BYTES`. -/
def extraOutputBytes : ℕ := 260

/-- `MAX_QUICK_CXD` and `MAX_QUICK_LXL`. -/
def maxQuickCxd : ℕ := 6
def maxQuickLxl : ℕ := 9

/-- `MAX_ZIP_EXTRA_LENGTH_BITS`, `MAX_ZIP_EXTRA_DISTANCE_BITS` and `MAX_ZIP_DISTANCE_CODE`. -/
def maxZipExtraLengthBits : ℕ := 5
def maxZipExtraDistanceBits : ℕ := 13
def maxZipDistanceCode : ℕ := 29

/-- `LITXLEN_BASE`. -/
def litxlenBase : ℕ := 257

/-- `ll_extra_bits`. -/
def llExtraBits : List ℕ :=
  [0, 0, 0, 0, 0, 0, 0, 0, 1, 1, 1, 1, 2, 2, 2, 2, 3, 3, 3, 3, 4, 4, 4, 4, 5, 5, 5, 5, 0]

/-- `ll_length_base`. -/
def llLengthBase : List ℕ :=
  [3, 4, 5, 6, 7, 8, 9, 10, 11, 13, 15, 17, 19, 23, 27, 31, 35, 43, 51, 59, 67, 83, 99, 115, 131,
    163, 195, 227, 258]

/-- `dist_extra_bits`. -/
def distExtraBits : List ℕ :=
  [0, 0, 0, 0, 1, 1, 2, 2, 3, 3, 4, 4, 5, 5, 6, 6, 7, 7, 8, 8, 9, 9, 10, 10, 11, 11, 12, 12, 13, 13]

/-- `dist_base`. -/
def distBase : List ℕ :=
  [1, 2, 3, 4, 5, 7, 9, 13, 17, 25, 33, 49, 65, 97, 129, 193, 257, 385, 513, 769, 1025, 1537, 2049,
    3073, 4097, 6145, 8193, 12289, 16385, 24577]

/-- `ccode_idx`. -/
def ccodeIdx : List ℕ := [16, 17, 18, 0, 8, 7, 9, 6, 10, 5, 11, 4, 12, 3, 13, 2, 14, 1, 15]

/-- `codelen_buf_size`. -/
def codelenBufSize : ℕ := 286 + 32

/-- `block_type`. -/
inductive BlockType
  | noCompression
  | fixedHuffman
  | dynaHuffman
  | invalid
  | unknown
deriving DecidableEq, Repr

/-- `btype`, two bits. -/
def BlockType.ofBits : ℕ → BlockType
  | 0 => .noCompression
  | 1 => .fixedHuffman
  | 2 => .dynaHuffman
  | _ => .invalid

/-! ## The state -/

/-- Where the code is: at a call of `do_inflate`, back in its loop, in
`decode_dynamic_huffman_tables` before the numbers of codes, at the top of one of its two loops,
or at the top of the loop of `inflate_huffman`. -/
inductive Point
  | call
  | block
  | dynamicHeader
  | codeLengthCodes (hlit hdist hclen i : ℕ) (codelen : List ℕ)
  | codeLengths (ccodes : HuffmanCodeTable) (hlit hdist codePtr : ℕ) (codelen : List ℕ)
  | huffman
deriving DecidableEq, Repr

/-- An inflater. `lastBlock` is the flag `LAST_BLOCK`. -/
structure Inflater where
  input : Input
  lastBlock : Bool
  blockType : BlockType
  lengthBuffer : Option HuffmanCodeTable
  distanceBuffer : Option HuffmanCodeTable
  outBufferLength : ℕ
  outOffset : ℕ
  point : Point

/-- The result of `GET_HUFFMAN_ENTRY`: an error entry is an error. -/
def entryOf : Option (Option (ℕ × ℕ)) → Except Stop (ℕ × ℕ)
  | none => .error .outside
  | some none => .error .error
  | some (some entry) => .ok entry

/-- `make_code_table` for a caller. -/
def tableOf : Option (Option HuffmanCodeTable) → Except Stop HuffmanCodeTable
  | none => .error .outside
  | some none => .error .thrown
  | some (some table) => .ok table

/-- `reverse_9bits`. -/
def reverse9bits (code : ℕ) : Option ℕ := do
  let high ← reverse5[code &&& 0x1f]?
  let low ← reverse5[code >>> 4]?
  return high <<< 4 ||| low

/-- The literal or length, and its bits, in the fixed code, lines 321–339. -/
def fixedEntry (inData : ℕ) : Option (Option (ℕ × ℕ)) :=
  (reverse9bits (inData % 2 ^ 9)).map fun code =>
    if code < 0x060 then some (0x100 + code >>> 2, 7)
    else if code < 0x190 then
      some (if code < 0x180 then code >>> 1 - 0x030 else code >>> 1 + (0x118 - 0x0c0), 8)
    else some (0x90 + code - 0x190, 9)

/-- The distance code and its bits in the fixed code, lines 373–375. -/
def fixedDistance (inData : ℕ) : Option (Option (ℕ × ℕ)) :=
  (reverse5[inData % 2 ^ 5]?).map fun d0 => some (d0, 5)

namespace Inflater

variable (s : Inflater)

/-- `outLength`. -/
def outLength : ℕ :=
  if s.input.incremental then usub s.outBufferLength extraOutputBytes else s.outBufferLength

/-- The next literal or length. -/
def litxlenEntry (inData : ℕ) : Except Stop (ℕ × ℕ) :=
  if s.blockType = .fixedHuffman then entryOf (fixedEntry inData)
  else entryOf (s.lengthBuffer.bind fun lcodes => getHuffmanEntry lcodes inData)

/-- The next distance code. -/
def distanceEntry (inData : ℕ) : Except Stop (ℕ × ℕ) :=
  if s.blockType = .fixedHuffman then entryOf (fixedDistance inData)
  else entryOf (s.distanceBuffer.bind fun dcodes => getHuffmanEntry dcodes inData)

/-! ## `inflate_huffman` -/

/-- A literal, lines 344–354. -/
def putLiteral (input : Input) : Except Stop Inflater :=
  let full := s.outLength ≤ s.outOffset
  if full ∧ ¬ input.incremental then .error .error
  else .ok { s with
    input := input
    outOffset := s.outOffset + 1
    point := if full then .call else .huffman }

/-- A copy, lines 388–406. -/
def putCopy (input : Input) (length distance : ℕ) : Except Stop Inflater :=
  let full := s.outLength < s.outOffset + length
  if s.outOffset < distance then .error .error
  else if full ∧ ¬ input.incremental then .error .error
  else .ok { s with
    input := input
    outOffset := s.outOffset + length
    point := if full then .call else .huffman }

/-- The rest of a copy after its length code, lines 360–386. -/
def copyTurn (input : Input) (n : ℕ) : Except Stop Inflater :=
  let moreBits := llExtraBits.getD n 0
  let length := llLengthBase.getD n 0 + input.nextBits moreBits
  ((input.dumpBits moreBits).needBits maxBits).bind fun input =>
    (s.distanceEntry input.inData).bind fun (d0, bits) =>
      if maxZipDistanceCode < d0 then .error .error
      else ((input.dumpBits bits).needBits maxZipExtraDistanceBits).bind fun input =>
        let moreBits := distExtraBits.getD d0 0
        let distance := distBase.getD d0 0 + input.nextBits moreBits
        s.putCopy (input.dumpBits moreBits) length distance

/-- What the loop does for a literal or length, lines 344–406. -/
def symbolTurn (input : Input) (litxlen : ℕ) : Except Stop Inflater :=
  if litxlen ≤ 255 then s.putLiteral input
  else if litxlen = 256 then
    .ok { s with
      input := input
      blockType := .unknown
      point := .call }
  else if 285 < litxlen then .error .error
  else s.copyTurn input (litxlen - litxlenBase)

/-- A turn of the loop of `inflate_huffman`. -/
def huffmanTurn (allocates : Bool) : Except Stop Inflater :=
  if s.input.inLength ≤ s.input.inOffset then
    (s.input.refill allocates).map fun input => { s with
      input := input
      point := .call }
  else (s.input.needBits (maxBits + maxZipExtraLengthBits)).bind fun input =>
    (s.litxlenEntry input.inData).bind fun (litxlen, bits) =>
      s.symbolTurn (input.dumpBits bits) litxlen

/-! ## `inflate_stored` -/

/-- The copy of `length` bytes out of the input buffer. -/
def copyStored (input : Input) (outOffset length : ℕ) : Except Stop Inflater :=
  if input.validBytes < input.inOffset + length then .error .overrun
  else .ok { s with
    input := { input with inOffset := input.inOffset + length }
    outOffset := outOffset
    blockType := .unknown
    point := .call }

/-- The bytes of a stored block, lines 243–282: those that are not in the input buffer are read
first. A new output buffer keeps the part of the dictionary that the block does not replace. -/
def storedBytes (allocates : Bool) (input : Input) (length : ℕ) : Except Stop Inflater :=
  let avail := input.inBuffer.length - input.inOffset
  if s.outLength < s.outOffset + length ∧ ¬ allocates then .error .thrown
  else
    let outOffset := if s.outLength < s.outOffset + length then
      FileDecoder.dictionarySize - length else s.outOffset
    if avail < length then
      match input.file with
      | none => .error .outside
      | some file =>
        let (bytes, file) := getBytesRaw file (length - avail)
        if bytes.length ≠ length - avail then .error .error
        else s.copyStored { input with file := some file } (outOffset + length) avail
    else s.copyStored input (outOffset + length) length

/-- `inflate_stored`. -/
def inflateStored (allocates : Bool) : Except Stop Inflater :=
  ((s.input.dumpBits (s.input.inDataSize % 8)).needBits 32).bind fun input =>
    let length := input.nextBits 16
    let input := input.dumpBits 16
    let nlength := input.nextBits 16
    let input := input.dumpBits 16
    if length + nlength ≠ 0xFFFF then .error .error
    else s.storedBytes allocates input length

/-! ## `decode_dynamic_huffman_tables` -/

/-- The numbers of codes, lines 433–439. -/
def dynamicHeader : Except Stop Inflater :=
  (s.input.needBits 14).map fun input =>
    let hlit := 257 + input.nextBits 5
    let input := input.dumpBits 5
    let hdist := 1 + input.nextBits 5
    let input := input.dumpBits 5
    let hclen := 4 + input.nextBits 4
    let input := input.dumpBits 4
    { s with
      input := input
      point := .codeLengthCodes hlit hdist hclen 0 (List.replicate 19 0) }

/-- A turn of the loop over the codes of the code lengths, lines 461–469, or the table of these
codes, lines 471–482. -/
def codeLengthCode (heuristic allocates : Bool) (hlit hdist hclen i : ℕ) (codelen : List ℕ) :
    Except Stop Inflater :=
  if i < hclen then
    (s.input.needBits 3).bind fun input => (input.check allocates).map fun input => { s with
      input := input.dumpBits 3
      point := .codeLengthCodes hlit hdist hclen (i + 1)
        (codelen.set (ccodeIdx.getD i 0) (input.nextBits 3)) }
  else (tableOf (makeCodeTable heuristic allocates codelen maxQuickCxd)).map fun ccodes =>
    { s with point := .codeLengths ccodes hlit hdist 0 (List.replicate codelenBufSize 0) }

/-- `memset(codePtr, value, count)` in the array of code lengths. -/
def fillCodelen (codelen : List ℕ) (codePtr value count : ℕ) : Except Stop (List ℕ) :=
  if codelen.length < codePtr + count then .error .outside
  else .ok (codelen.take codePtr ++ List.replicate count value ++ codelen.drop (codePtr + count))

/-- The code lengths of one code, lines 518–549. A repeat code that goes too far is reported, and
obeyed. -/
def putCodeLengths (ccodes : HuffmanCodeTable) (hlit hdist codePtr : ℕ) (codelen : List ℕ)
    (val : ℕ) (input : Input) : Except Stop Inflater :=
  if val ≤ 15 then
    (fillCodelen codelen codePtr val 1).map fun codelen => { s with
      input := input
      point := .codeLengths ccodes hlit hdist (codePtr + 1) codelen }
  else if val ≤ 18 then
    let bits := if val = 18 then 7 else val - 14
    let count := (if val = 18 then 11 else 3) + input.nextBits bits
    let input := input.dumpBits bits
    if val = 16 then
      if codePtr = 0 then .error .error
      else (fillCodelen codelen codePtr (codelen.getD (codePtr - 1) 0) count).map fun codelen =>
        { s with
          input := input
          point := .codeLengths ccodes hlit hdist (codePtr + count) codelen }
    else .ok { s with
      input := input
      point := .codeLengths ccodes hlit hdist (codePtr + count) codelen }
  else .error .error

/-- The two tables, lines 552–563. -/
def makeTables (heuristic allocates : Bool) (hlit hdist : ℕ) (codelen : List ℕ) :
    Except Stop Inflater :=
  if codelen.length < hlit + hdist then .error .outside
  else (tableOf (makeCodeTable heuristic allocates (codelen.take hlit) maxQuickLxl)).bind
    fun lcodes =>
      (tableOf (makeCodeTable heuristic allocates ((codelen.drop hlit).take hdist)
        maxQuickCxd)).map fun dcodes => { s with
          lengthBuffer := some lcodes
          distanceBuffer := some dcodes
          point := .block }

/-- A turn of the loop over the code lengths, lines 498–550, or the tables. -/
def codeLength (heuristic allocates : Bool) (ccodes : HuffmanCodeTable) (hlit hdist codePtr : ℕ)
    (codelen : List ℕ) : Except Stop Inflater :=
  if codePtr < hlit + hdist then
    (s.input.needBits (maxBits + 7)).bind fun input =>
      (entryOf (getHuffmanEntry ccodes input.inData)).bind fun (val, bits) =>
        ((input.dumpBits bits).check allocates).bind fun input =>
          s.putCodeLengths ccodes hlit hdist codePtr codelen val input
  else s.makeTables heuristic allocates hlit hdist codelen

/-! ## `do_inflate` -/

/-- The header of a block, lines 174–200. -/
def blockHeader (allocates : Bool) : Except Stop Inflater :=
  if s.lastBlock then .error .complete
  else (s.input.check allocates).bind fun input => (input.needBits 3).map fun input =>
    let btype := input.nextBits 3
    let blockType := BlockType.ofBits (btype >>> 1)
    { s with
      input := input.dumpBits 3
      lastBlock := decide (btype % 2 = 1)
      blockType := blockType
      point := if blockType = .dynaHuffman then .dynamicHeader else .block }

/-- The branches of `do_inflate`. -/
def doInflate (allocates : Bool) : Except Stop Inflater :=
  match s.blockType with
  | .unknown => s.blockHeader allocates
  | .invalid => .error .error
  | .noCompression => s.inflateStored allocates
  | .fixedHuffman | .dynaHuffman => s.huffmanTurn allocates

/-- One step. `allocates` tells whether there is memory for new arrays, `heuristic` is
`EnableLookupTableSizeHeuristic`. -/
def step (heuristic allocates : Bool) : Except Stop Inflater :=
  match s.point with
  | .call | .block => s.doInflate allocates
  | .dynamicHeader => s.dynamicHeader
  | .codeLengthCodes hlit hdist hclen i codelen =>
    s.codeLengthCode heuristic allocates hlit hdist hclen i codelen
  | .codeLengths ccodes hlit hdist codePtr codelen =>
    s.codeLength heuristic allocates ccodes hlit hdist codePtr codelen
  | .huffman => s.huffmanTurn allocates

/-! ## Runs -/

/-- What follows a state: a step of the inflater, or a new output buffer in `get_bytes`, which
keeps the dictionary. -/
inductive Next (heuristic : Bool) : Inflater → Inflater → Prop
  | step {s s' : Inflater} (allocates : Bool) (h : s.step heuristic allocates = .ok s') :
      Next heuristic s s'
  | slide {s : Inflater} (hpoint : s.point = .call)
      (hlimit : FileDecoder.inflaterOutputLimit < s.outOffset) :
      Next heuristic s { s with outOffset := FileDecoder.dictionarySize }

/-- A new inflater with an input buffer. -/
def allocated (file : Option OsFile) (incremental : Bool) (inBuffer : List (Option UInt8))
    (size : ℕ) : Inflater where
  input := ⟨file, incremental, inBuffer, 0, 0, 0⟩
  lastBlock := false
  blockType := .unknown
  lengthBuffer := none
  distanceBuffer := none
  outBufferLength :=
    if incremental then min size inflaterOutputBuffer + extraOutputBytes else size
  outOffset := 0
  point := .call

/-- `Inflater::allocate` for an entry of a file: the input buffer is filled. -/
def openEntry (file : OsFile) (incremental : Bool) (compLen size : ℕ) : Inflater :=
  let inSize := if incremental then
    min (compLen + extraInputBytes) (inflaterInputBuffer + extraInputBytes)
    else compLen + extraInputBytes
  let (bytes, file) := getBytesRaw file inSize
  allocated (some file) incremental
    (bytes.map some ++ List.replicate (inSize - bytes.length) none) size

/-- The inflaters to start with: for an entry of a file, for a romized resource
(`natives/Natives.cpp`, lines 1346–1363), and for data in memory, as `Jvm_inflate` makes it
(`runtime/JarFileUncommon.cpp`, lines 57–72): the extra bytes behind them are not set. -/
inductive Start : Inflater → Prop
  | entry (file : OsFile) (incremental : Bool) (compLen size : ℕ) :
      Start (openEntry file incremental compLen size)
  | resource (data : List UInt8) (size : ℕ) :
      Start (allocated none true (data.map some) size)
  | memory (data : List UInt8) (size : ℕ) :
      Start (allocated none false (data.map some ++ List.replicate extraInputBytes none) size)

end Inflater

end CldcVm.Inflate
