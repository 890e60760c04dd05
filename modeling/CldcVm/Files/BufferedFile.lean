import Mathlib.Data.Int.Lemmas
import Mathlib.Tactic.Linarith

/-!
# Buffered files

Model of `BufferedFile` (`runtime/BufferedFile.{hpp,cpp}`), and of the file of the operating
system under it, with `fseek` and `fread` as `OsFile_linux.cpp` calls them. A `jint` and a
`long` have 32 bits, as on the targets of the VM.

Result: `getBytesLoop` ends: each turn copies a byte, or fills the buffer, or reaches the end
of the file.
-/

namespace CldcVm.Files

/-- The value that a `jint` field keeps of an integer. -/
def jint (x : ℤ) : ℤ := Int.bmod x (2 ^ 32)

/-- An `int` as a `size_t` argument. -/
def sizeT (x : ℤ) : ℕ := (x % 2 ^ 32).toNat

/-- The `origin` of a seek. -/
inductive Origin
  | seekSet
  | seekCur
  | seekEnd
deriving DecidableEq, Repr

/-! ## The file under the buffer -/

/-- An open file, with its position; the length is a `long`. -/
structure OsFile where
  content : List UInt8
  pos : ℕ
  length_lt : content.length < 2 ^ 31

/-- A value that a file position can have. -/
def IsPosition (x : ℤ) : Prop := 0 ≤ x ∧ x < 2 ^ 31

instance (x : ℤ) : Decidable (IsPosition x) := inferInstanceAs (Decidable (_ ∧ _))

namespace OsFile

/-- Where a seek goes. -/
def target (file : OsFile) (offset : ℤ) : Origin → ℤ
  | .seekSet => offset
  | .seekCur => file.pos + offset
  | .seekEnd => file.content.length + offset

/-- `OsFile_seek`: `fseek`, which fails, and leaves the position, where the new position is
negative or no `long`. -/
def seek (file : OsFile) (offset : ℤ) (origin : Origin) : ℤ × OsFile :=
  if IsPosition (file.target offset origin) then
    (0, { file with pos := (file.target offset origin).toNat })
  else (-1, file)

/-- `OsFile_read`: `fread` of items of one byte. -/
def read (file : OsFile) (count : ℕ) : List UInt8 × OsFile :=
  let bytes := (file.content.drop file.pos).take count
  (bytes, { file with pos := file.pos + bytes.length })

end OsFile

/-! ## `BufferedFile` -/

/-- `BufferedFile`. -/
structure BufferedFile where
  file : OsFile
  atEof : Bool
  dataBuffer : List UInt8
  bufferSize : ℕ
  fileSize : ℤ
  index : ℤ
  count : ℤ
  filePos : ℤ

namespace BufferedFile

/-- `allocate`, `init` and `open` (lines 40–46, 180–186 and 209–221): the file is at its
beginning, and the new buffer has any content. -/
def openFile (file : OsFile) (dataBuffer : List UInt8) : BufferedFile where
  file := { file with pos := 0 }
  atEof := false
  dataBuffer := dataBuffer
  bufferSize := dataBuffer.length
  fileSize := file.content.length
  index := 0
  count := 0
  filePos := 0

/-- `last_unread_file_pos`. -/
def lastUnreadFilePos (bf : BufferedFile) : ℤ := bf.filePos - (bf.count - bf.index)

/-- `refill_buffer` (lines 66–96). -/
def refillBuffer (bf : BufferedFile) : BufferedFile :=
  if bf.atEof then bf
  else
    let max := jint (bf.fileSize - bf.filePos)
    let bytesToRead := if bf.bufferSize > max then max else bf.bufferSize
    let file := (bf.file.seek bf.filePos .seekSet).2
    let (bytes, file) := file.read (sizeT bytesToRead)
    let countRead : ℤ := bytes.length
    { bf with
      file := file
      dataBuffer := bytes ++ bf.dataBuffer.drop bytes.length
      count := countRead
      filePos := jint (bf.filePos + countRead)
      index := 0
      atEof := if countRead ≤ 0 then true else bf.atEof }

/-- How far the loop of `get_bytes` is from a byte: one turn that fills the buffer, or none;
it ends at the end of the file. -/
def rank (bf : BufferedFile) : ℕ :=
  if bf.atEof then 0 else if bf.index < bf.count then 1 else 2

theorem rank_refillBuffer_lt {bf : BufferedFile} (hEof : bf.atEof = false)
    (h : bf.count ≤ bf.index) : bf.refillBuffer.rank < bf.rank := by
  have hrank : bf.rank = 2 := by
    simp only [rank, hEof, Bool.false_eq_true, if_false,
      if_neg (show ¬ bf.index < bf.count by omega)]
  rw [hrank, refillBuffer, if_neg (by simp [hEof])]
  simp only [rank]
  split_ifs <;> simp_all

/-- The number of bytes that one turn of the loop of `get_bytes` copies (line 112). -/
def numToRead (bf : BufferedFile) (num : ℕ) : ℤ :=
  if (num : ℤ) > bf.count - bf.index then bf.count - bf.index else num

/-- The `memcpy` of one turn: the bytes, and the index after them. -/
def copy (bf : BufferedFile) (num : ℕ) : List UInt8 × BufferedFile :=
  ((bf.dataBuffer.drop bf.index.toNat).take (bf.numToRead num).toNat,
    { bf with index := bf.index + bf.numToRead num })

/-- The state after one turn of the loop, with `num` bytes still to read before it. -/
def turn (bf : BufferedFile) (num : ℕ) : BufferedFile :=
  if 0 < num - (bf.numToRead num).toNat then (bf.copy num).2.refillBuffer else (bf.copy num).2

/-- The loop of `get_bytes` (lines 110–123). A `memcpy` of a negative size has no result. -/
def getBytesLoop (bf : BufferedFile) (num : ℕ) : Option (List UInt8 × BufferedFile) :=
  if _hmore : bf.atEof = false ∧ 0 < num then
    if _hneg : bf.numToRead num < 0 then none
    else
      (getBytesLoop (bf.turn num) (num - (bf.numToRead num).toNat)).map
        fun (bytes, bf') => ((bf.copy num).1 ++ bytes, bf')
  else some ([], bf)
termination_by (num, bf.rank)
decreasing_by
  by_cases hzero : bf.numToRead num = 0
  · have hle : bf.count ≤ bf.index := by
      unfold numToRead at hzero
      split at hzero <;> omega
    rw [hzero, Int.toNat_zero, Nat.sub_zero]
    apply Prod.Lex.right
    have hturn : bf.turn num = bf.refillBuffer := by
      rw [turn, copy, hzero, Int.toNat_zero, Nat.sub_zero, if_pos _hmore.2, add_zero]
    rw [hturn]
    exact rank_refillBuffer_lt _hmore.1 hle
  · apply Prod.Lex.left
    omega

/-- `get_bytes` (lines 97–125). -/
def getBytes (bf : BufferedFile) (num : ℕ) (isBuffered : Bool) :
    Option (List UInt8 × BufferedFile) :=
  if isBuffered then bf.getBytesLoop num
  else
    let file := (bf.file.seek (-(bf.count - bf.index)) .seekCur).2
    let (bytes, file) := file.read num
    some (bytes, { bf with file := file, count := 0, index := 0 })

/-- The end of `seek` (lines 170–177): the buffer is flushed, and the file is moved. -/
def seekFile (bf : BufferedFile) (offset : ℤ) (origin : Origin) (filePos : ℤ) :
    ℤ × BufferedFile :=
  let (status, file) := bf.file.seek offset origin
  (status, { bf with
    file := file
    filePos := filePos
    count := 0
    index := 0
    atEof := if filePos < bf.fileSize then false else bf.atEof })

/-- `seek` (lines 127–178). -/
def seek (bf : BufferedFile) (offset : ℤ) (origin : Origin) : ℤ × BufferedFile :=
  match origin with
  | .seekCur =>
    if bf.count > 0 then
      if jint (offset + bf.index) ≥ 0 ∧ jint (offset + bf.index) < bf.count then
        (0, { bf with index := jint (offset + bf.index) })
      else
        let offset := jint (offset - (bf.count - bf.index))
        bf.seekFile offset .seekCur (jint (bf.filePos + offset))
    else bf.seekFile offset .seekCur bf.filePos
  | .seekSet =>
    if bf.count > 0 ∧ offset ≥ bf.filePos - bf.count ∧ offset < bf.filePos then
      (0, { bf with index := bf.count - (bf.filePos - offset) })
    else bf.seekFile offset .seekSet offset
  | .seekEnd =>
    if bf.count > 0 ∧ bf.count = bf.fileSize ∧ jint (bf.count + offset) ≥ 0 then
      (0, { bf with index := jint (bf.count + offset) })
    else bf.seekFile offset .seekEnd (jint (bf.fileSize + offset))

end BufferedFile

/-! ## Sequences of calls -/

/-- A call; an offset is a `jint`. -/
inductive Call
  | seek (offset : Int32) (origin : Origin)
  | getBytes (num : ℕ) (isBuffered : Bool)

/-- What a call returns. -/
inductive Result
  | status (code : ℤ)
  | bytes (bytes : List UInt8)
deriving DecidableEq

namespace OsFile

/-- A call on a plain file. -/
def call (file : OsFile) : Call → Result × OsFile
  | .seek offset origin =>
    let (code, file) := file.seek offset.toInt origin
    (.status code, file)
  | .getBytes num _ =>
    let (bytes, file) := file.read num
    (.bytes bytes, file)

/-- What the calls return, and the position after each. -/
def trace (file : OsFile) : List Call → List (Result × ℤ)
  | [] => []
  | c :: calls =>
    let (result, file) := file.call c
    (result, file.pos) :: trace file calls

end OsFile

namespace BufferedFile

/-- A call on a buffered file. -/
def call (bf : BufferedFile) : Call → Option (Result × BufferedFile)
  | .seek offset origin =>
    let (code, bf) := bf.seek offset.toInt origin
    some (.status code, bf)
  | .getBytes num isBuffered =>
    (bf.getBytes num isBuffered).map fun (bytes, bf) => (.bytes bytes, bf)

/-- What the calls return, and `last_unread_file_pos` after each, as long as they have a
result. -/
def trace (bf : BufferedFile) : List Call → List (Result × ℤ)
  | [] => []
  | c :: calls =>
    match bf.call c with
    | none => []
    | some (result, bf) => (result, bf.lastUnreadFilePos) :: trace bf calls

end BufferedFile

end CldcVm.Files
