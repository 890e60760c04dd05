import Mathlib.Tactic.Linarith
import Mathlib.Data.List.Basic

/-!
# Character streams

Model of `UTF8Stream` and `UnicodeStream` (`utilities/CharacterStream.{hpp,cpp}`), of
`Universe::new_string`, which decodes a stream, of the loop that encodes a string
(`natives/jni.cpp`, lines 1343–1357, and `debugger/DebuggerStream.cpp`, lines 293–302), and
of `ClassFileParser::is_valid_utf8_in_buffer` (lines 133–150).

Result: `getNextJchar_lt`: a scan that succeeds advances the index, so `length` ends.
-/

namespace CldcVm.Strings

/-! ## `UTF8Stream` -/

/-- `UTF8Stream`: the part of a byte array from `utf8Start` on, `utf8Length` bytes long. -/
structure Utf8Stream where
  bytes : List UInt8
  utf8Start : ℕ
  utf8Length : ℕ
  inBounds : utf8Start + utf8Length ≤ bytes.length

namespace Utf8Stream

variable (stream : Utf8Stream)

/-- The index after the last byte of the stream. -/
def utf8End : ℕ := stream.utf8Start + stream.utf8Length

/-- `byte_at`. -/
def byteAt (index : ℕ) : UInt8 := stream.bytes.getD index 0

/-- `get_next_jchar_slow` (lines 84–134). The result is `none` for `UTF8_ERROR`, or the value and
the index after it. -/
def getNextJcharSlow (index : ℕ) (ch1 : UInt8) : Option (UInt16 × ℕ) :=
  match ch1.toNat >>> 4 with
  | 0x8 | 0x9 | 0xA | 0xB | 0xF => none
  | 0xC | 0xD =>
    if index < stream.utf8End then
      let ch2 := stream.byteAt index
      if ch2 &&& 0xC0 = 0x80 then
        let highFive := ch1 &&& 0x1F
        let lowSix := ch2 &&& 0x3F
        some (UInt16.ofNat ((highFive.toNat <<< 6) + lowSix.toNat), index + 1)
      else none
    else none
  | 0xE =>
    if index < stream.utf8End then
      let ch2 := stream.byteAt index
      if ch2 &&& 0xC0 = 0x80 ∧ index + 1 < stream.utf8End then
        let ch3 := stream.byteAt (index + 1)
        if ch3 &&& 0xC0 = 0x80 then
          let highFour := ch1 &&& 0x0F
          let midSix := ch2 &&& 0x3F
          let lowSix := ch3 &&& 0x3F
          some (UInt16.ofNat ((((highFour.toNat <<< 6) + midSix.toNat) <<< 6) + lowSix.toNat),
            index + 2)
        else
          -- the third byte stays for the next character
          let highFour := ch1 &&& 0x0F
          let lowSix := ch2 &&& 0x3F
          some (UInt16.ofNat ((highFour.toNat <<< 6) + lowSix.toNat), index + 1)
      else none
    else none
  | _ => some (ch1.toUInt16, index)

/-- `get_next_jchar_from_utf8` (lines 60–76). -/
def getNextJchar (index : ℕ) : Option (UInt16 × ℕ) :=
  if index < stream.utf8Start ∨ stream.utf8End ≤ index then none
  else
    let ch1 := stream.byteAt index
    if ch1 = 0 then none
    else if 128 ≤ ch1.toNat then stream.getNextJcharSlow (index + 1) ch1
    else some (ch1.toUInt16, index + 1)

variable {stream}

theorem le_of_getNextJcharSlow {index index' : ℕ} {ch1 : UInt8} {value : UInt16}
    (h : stream.getNextJcharSlow index ch1 = some (value, index')) : index ≤ index' := by
  unfold getNextJcharSlow at h
  grind

theorem getNextJchar_lt {index index' : ℕ} {value : UInt16}
    (h : stream.getNextJchar index = some (value, index')) :
    index < stream.utf8End ∧ index < index' := by
  unfold getNextJchar at h
  split at h
  · exact absurd h (by simp)
  · next hin =>
    refine ⟨by omega, ?_⟩
    simp only at h
    split_ifs at h with hzero hslow
    · have := le_of_getNextJcharSlow h
      omega
    · simp only [Option.some.injEq, Prod.mk.injEq] at h
      omega

variable (stream)

/-- The loop of `length` from an index on: the number of characters there. -/
def lengthFrom (index : ℕ) : Option ℕ :=
  if index < stream.utf8End then
    match h : stream.getNextJchar index with
    | none => none
    | some (_, index') => (lengthFrom index').map (· + 1)
  else some 0
termination_by stream.utf8End - index
decreasing_by
  have := getNextJchar_lt h
  omega

/-- `length` (lines 136–148); `none` is `UTF8_ERROR`. -/
def length : Option ℕ := stream.lengthFrom stream.utf8Start

/-- `is_valid`. -/
def isValid : Bool := stream.length.isSome

/-- `raw_read` (lines 154–163): the value, and the new `_utf8_index`. The value is not
initialized where the scan fails. -/
def rawRead (index : ℕ) : Option UInt16 × ℕ :=
  match stream.getNextJchar index with
  | none => (none, index + 1)
  | some (value, index') => (some value, index')

/-- `n` reads in a row, with no translation. -/
def readN : ℕ → ℕ → List (Option UInt16)
  | 0, _ => []
  | n + 1, index =>
    let (value, index') := stream.rawRead index
    value :: readN n index'

end Utf8Stream

/-- `Universe::new_string(stream, 0, 0)` (lines 1637–1658): the characters of the new string. -/
def newString (stream : Utf8Stream) : List (Option UInt16) :=
  stream.readN (stream.length.getD 0) stream.utf8Start

/-! ## Encoding -/

/-- `utf8_write` (lines 167–190), into the array of a `ByteStream`: the array and the index
after the character. -/
def utf8Write (array : List UInt8) (index : ℕ) (ch : UInt16) : List UInt8 × ℕ :=
  if ch ≠ 0 ∧ ch.toNat ≤ 0x7F then
    (array.set index (UInt8.ofNat ch.toNat), index + 1)
  else if ch.toNat ≤ 0x7FF then
    let highFive := UInt8.ofNat (ch.toNat >>> 6)
    let lowSix := UInt8.ofNat (ch.toNat &&& 0x3F)
    ((array.set index (highFive ||| 0xC0)).set (index + 1) (lowSix ||| 0x80), index + 2)
  else
    let highFour := UInt8.ofNat (ch.toNat >>> 12)
    let midSix := UInt8.ofNat ((ch.toNat >>> 6) &&& 0x3F)
    let lowSix := UInt8.ofNat (ch.toNat &&& 0x3F)
    (((array.set index (highFour ||| 0xE0)).set (index + 1) (midSix ||| 0x80)).set (index + 2)
      (lowSix ||| 0x80), index + 3)

/-- The loop that writes the characters of a string one after the other. -/
def utf8WriteAll (array : List UInt8) (index : ℕ) : List UInt16 → List UInt8 × ℕ
  | [] => (array, index)
  | ch :: s =>
    let (array, index) := utf8Write array index ch
    utf8WriteAll array index s

/-- `UnicodeStream`: the part of a character array from `unicodeStart` on. -/
structure UnicodeStream where
  chars : List UInt16
  unicodeStart : ℕ
  unicodeLength : ℕ
  inBounds : unicodeStart + unicodeLength ≤ chars.length

namespace UnicodeStream

/-- `utf8_size` (lines 195–199). -/
def utf8Size (c : UInt16) : ℕ :=
  if 0x0001 ≤ c.toNat ∧ c.toNat ≤ 0x007F then 1
  else if c.toNat ≤ 0x07FF then 2
  else 3

/-- `char_at`. -/
def charAt (stream : UnicodeStream) (index : ℕ) : UInt16 := stream.chars.getD index 0

/-- `utf8_length` (lines 201–209). -/
def utf8Length (stream : UnicodeStream) : ℕ :=
  (List.range' stream.unicodeStart stream.unicodeLength).foldl
    (fun result index => result + utf8Size (stream.charAt index)) 0

/-- The characters of the stream. -/
def content (stream : UnicodeStream) : List UInt16 :=
  (stream.chars.drop stream.unicodeStart).take stream.unicodeLength

end UnicodeStream

/-- The string written by `unchecked_get_string_utf_region` and `write_raw_string`: the array
has three bytes for each character, and the part before the index is used. -/
def utf8Encode (s : List UInt16) : List UInt8 × ℕ :=
  utf8WriteAll (List.replicate (s.length * 3) 0) 0 s

/-! ## `is_valid_utf8_in_buffer` -/

/-- The loop of `is_valid_utf8_in_buffer`: every byte is positive as a `jbyte`. -/
def allPositive (buffer : List UInt8) : (p : ℕ) → (n : ℕ) → Bool
  | _, 0 => true
  | p, n + 1 =>
    if (buffer.getD p 0).toInt8 ≤ 0 then false else allPositive buffer (p + 1) n

/-- `ClassFileParser::is_valid_utf8_in_buffer` (lines 134–150), with the buffer position as an
index. -/
def isValidUtf8InBuffer (buffer : List UInt8) (position utf8Length : ℕ) : Bool :=
  if h : position + utf8Length ≤ buffer.length then
    if allPositive buffer position utf8Length then true
    else (Utf8Stream.mk buffer position utf8Length h).isValid
  else false

end CldcVm.Strings
