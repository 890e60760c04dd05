import CldcVm.Files.BufferedFile
import CldcVm.Inflate.CodeTable
import CldcVm.Lib.BitReader

/-!
# The input window of the inflater

The input side of `Inflater`: the input buffer, the macros `LOAD_IN`, `NEXTBYTE`, `NEEDBITS`,
`NEXTBITS` and `DUMPBITS` (`runtime/Inflate.hpp`, lines 115–137), `refill_input`
(`runtime/Inflate.cpp`, lines 144–166) and `FileDecoder::get_bytes_raw`
(`runtime/FileDecoder.cpp`, lines 98–107).

The buffer is an array that is not cleared. A byte of it that does not come from the file, because
the file has ended, has no value here, and reading one has no result (`Stop.overrun`).

Results:

* `Input.needBits_ok`, `Input.needBits_overrun`: `NEEDBITS` comes to its end iff so many bits are
  left, and changes none of them.
-/

namespace CldcVm.Inflate

open Files Lib

/-! ## Model of the C++ code -/

/-- `EXTRA_INPUT_BYTES`. -/
def extraInputBytes : ℕ := 4

/-- How a run of the inflater ends: with `INFLATE_COMPLETE`, with `INFLATE_ERROR`, with an
exception, by reading a byte of the input buffer that does not come from the file, or with an
access outside another array. -/
inductive Stop
  | complete
  | error
  | thrown
  | overrun
  | outside
deriving DecidableEq, Repr

/-- The fields of an inflater that concern the input. The position of the file is `file_pos`; the
handle is missing if all the input is in the buffer. -/
structure Input where
  file : Option OsFile
  incremental : Bool
  inBuffer : List (Option UInt8)
  inOffset : ℕ
  inDataSize : ℕ
  inData : ℕ

/-- `FileDecoder::get_bytes_raw`, which seeks to `file_pos` first. -/
def getBytesRaw (file : OsFile) (count : ℕ) : List UInt8 × OsFile := file.read count

namespace Input

/-- `inLength`. -/
def inLength (input : Input) : ℕ :=
  if input.incremental then usub input.inBuffer.length extraInputBytes else input.inBuffer.length

/-- `inData |= NEXTBYTE() << inDataSize`. -/
def loadByte (input : Input) : Except Stop Input :=
  match input.inBuffer[input.inOffset]? with
  | some (some b) => .ok { input with
      inOffset := input.inOffset + 1
      inDataSize := input.inDataSize + 8
      inData := (input.inData ||| b.toNat <<< input.inDataSize) % 2 ^ 32 }
  | _ => .error .overrun

/-- The loop of `NEEDBITS`. -/
def needBitsLoop (j : ℕ) : (fuel : ℕ) → Input → Except Stop Input
  | 0, input => .ok input
  | fuel + 1, input =>
    if input.inDataSize < j then input.loadByte.bind (needBitsLoop j fuel) else .ok input

/-- `NEEDBITS`. Every turn loads eight bits. -/
def needBits (j : ℕ) (input : Input) : Except Stop Input := needBitsLoop j j input

/-- `NEXTBITS`. -/
def nextBits (j : ℕ) (input : Input) : ℕ := input.inData % 2 ^ j

/-- `DUMPBITS`. -/
def dumpBits (j : ℕ) (input : Input) : Input :=
  { input with inData := input.inData >>> j, inDataSize := input.inDataSize - j }

/-- `refill_input`, with its guarantee on `processed`. -/
def refillInput (allocates : Bool) (processed : ℕ) (input : Input) : Except Stop Input :=
  match input.file with
  | none => .ok input
  | some file =>
    if input.inBuffer.length < processed then .error .overrun
    else if allocates then
      let (bytes, file) := getBytesRaw file processed
      .ok { input with
        file := some file
        inBuffer := input.inBuffer.drop processed ++ bytes.map some ++
          List.replicate (processed - bytes.length) none }
    else .error .thrown

/-- A refill, and `inOffset = 0`. -/
def refill (allocates : Bool) (input : Input) : Except Stop Input :=
  (input.refillInput allocates input.inOffset).map fun input => { input with inOffset := 0 }

/-- The check for an input overflow, with the refill. -/
def check (allocates : Bool) (input : Input) : Except Stop Input :=
  if input.inLength ≤ input.inOffset then input.refill allocates else .ok input

end Input

/-! ## The bytes that come from the file -/

/-- The values in front of the first that is missing. -/
def leading {α : Type} : List (Option α) → List α
  | some a :: rest => a :: leading rest
  | _ => []

section Leading

variable {α : Type} {cells : List (Option α)} {n : ℕ}

theorem leading_length_le (cells : List (Option α)) : (leading cells).length ≤ cells.length := by
  induction cells with
  | nil => exact le_rfl
  | cons c cells ih =>
    cases c with
    | none => exact Nat.zero_le _
    | some a =>
      rw [leading, List.length_cons, List.length_cons]
      omega

theorem getElem?_leading (cells : List (Option α)) (hn : n < (leading cells).length) :
    cells[n]? = some (leading cells)[n]? := by
  induction cells generalizing n with
  | nil => exact absurd hn (Nat.not_lt_zero n)
  | cons c cells ih =>
    cases c with
    | none => exact absurd hn (Nat.not_lt_zero n)
    | some a =>
      rw [leading] at hn ⊢
      cases n with
      | zero => rfl
      | succ n =>
        rw [List.getElem?_cons_succ, List.getElem?_cons_succ]
        exact ih (by simpa using hn)

/-- Behind the values is a missing one, or the end. -/
theorem getElem?_leading_length (cells : List (Option α)) :
    cells[(leading cells).length]? = none ∨ cells[(leading cells).length]? = some none := by
  induction cells with
  | nil => exact .inl rfl
  | cons c cells ih =>
    cases c with
    | none => exact .inr rfl
    | some a =>
      rw [leading, List.length_cons, List.getElem?_cons_succ]
      exact ih

theorem leading_drop (cells : List (Option α)) (hn : n ≤ (leading cells).length) :
    leading (cells.drop n) = (leading cells).drop n := by
  induction n generalizing cells with
  | zero => rfl
  | succ n ih =>
    cases cells with
    | nil => rfl
    | cons c cells =>
      cases c with
      | none => exact absurd hn (by simp [leading])
      | some a =>
        rw [leading, List.drop_succ_cons, List.drop_succ_cons]
        exact ih cells (by simpa [leading] using hn)

theorem leading_of_length_le (h : cells.length ≤ (leading cells).length) :
    cells = (leading cells).map some := by
  induction cells with
  | nil => rfl
  | cons c cells ih =>
    cases c with
    | none => exact absurd h (by simp [leading])
    | some a =>
      rw [leading, List.map_cons]
      rw [leading, List.length_cons, List.length_cons] at h
      rw [← ih (by omega)]

theorem leading_map_some_append (values : List α) (cells : List (Option α)) :
    leading (values.map some ++ cells) = values ++ leading cells := by
  induction values with
  | nil => rfl
  | cons a values ih => rw [List.map_cons, List.cons_append, leading, ih, List.cons_append]

theorem leading_replicate (n : ℕ) : leading (List.replicate n (none : Option α)) = [] := by
  cases n with
  | zero => rfl
  | succ n => rfl

end Leading

namespace Input

variable (input : Input)

/-- The number of bytes at the front of the input buffer that come from the file. -/
def validBytes : ℕ := (leading input.inBuffer).length

/-- The bytes that have not been loaded yet. -/
def unread : List UInt8 := leading (input.inBuffer.drop input.inOffset)

/-- What is left to read. -/
def reader : BitReader := ⟨input.inData, input.inDataSize, input.unread⟩

/-- The input offset is within the valid bytes, and the bytes are missing only where the file has
ended. -/
structure Inv : Prop where
  offset_le : input.inOffset ≤ input.validBytes
  ended : input.validBytes < input.inBuffer.length →
    ∀ file ∈ input.file, file.content.length ≤ file.pos
  fits : input.reader.Fits
  size_le : input.inDataSize ≤ 32

variable {input} {j : ℕ}

theorem Inv.unread_eq (h : input.Inv) :
    input.unread = (leading input.inBuffer).drop input.inOffset := leading_drop _ h.offset_le

theorem Inv.left_eq (h : input.Inv) :
    input.reader.left = input.inDataSize + 8 * (input.validBytes - input.inOffset) := by
  show input.inDataSize + 8 * input.unread.length = _
  rw [h.unread_eq, List.length_drop]
  rfl

/-- The guarantee of `refill_input`. -/
theorem Inv.offset_le_length (h : input.Inv) : input.inOffset ≤ input.inBuffer.length :=
  h.offset_le.trans (leading_length_le _)

/-! ## `NEEDBITS` and `DUMPBITS` -/

/-- The same bits are left, in other places. -/
structure Loaded (input input' : Input) : Prop where
  inv : input'.Inv
  file_eq : input'.file = input.file
  incremental_eq : input'.incremental = input.incremental
  inBuffer_eq : input'.inBuffer = input.inBuffer
  value_eq : input'.reader.value = input.reader.value
  left_eq : input'.reader.left = input.reader.left
  size_le : input.inDataSize ≤ input'.inDataSize
  offset_eq : input'.inDataSize + 8 * input.inOffset = input.inDataSize + 8 * input'.inOffset

theorem Loaded.refl (h : input.Inv) : Loaded input input :=
  ⟨h, rfl, rfl, rfl, rfl, rfl, le_rfl, rfl⟩

theorem Loaded.trans {input' input'' : Input} (h : Loaded input input')
    (h' : Loaded input' input'') : Loaded input input'' where
  inv := h'.inv
  file_eq := h'.file_eq.trans h.file_eq
  incremental_eq := h'.incremental_eq.trans h.incremental_eq
  inBuffer_eq := h'.inBuffer_eq.trans h.inBuffer_eq
  value_eq := h'.value_eq.trans h.value_eq
  left_eq := h'.left_eq.trans h.left_eq
  size_le := h.size_le.trans h'.size_le
  offset_eq := by
    have h1 := h.offset_eq
    have h2 := h'.offset_eq
    omega

theorem loadByte_ok (h : input.Inv) (hlt : input.inOffset < input.validBytes)
    (hsize : input.inDataSize + 8 ≤ 32) :
    ∃ input', input.loadByte = .ok input' ∧ Loaded input input' ∧
      input'.inDataSize = input.inDataSize + 8 := by
  have hcell := getElem?_leading input.inBuffer hlt
  obtain ⟨b, hb⟩ : ∃ b, (leading input.inBuffer)[input.inOffset]? = some b :=
    ⟨_, List.getElem?_eq_getElem hlt⟩
  rw [hb] at hcell
  have hunread : input.unread = b :: leading (input.inBuffer.drop (input.inOffset + 1)) := by
    rw [h.unread_eq, leading_drop _ hlt, List.drop_eq_getElem_cons hlt]
    rw [List.getElem?_eq_getElem hlt] at hb
    rw [Option.some.inj hb]
  have hfits := h.fits.load b (leading (input.inBuffer.drop (input.inOffset + 1)))
  -- the word has room for the byte
  have hword : (input.inData ||| b.toNat <<< input.inDataSize) % 2 ^ 32 =
      input.inData ||| b.toNat <<< input.inDataSize := by
    apply Nat.mod_eq_of_lt
    exact lt_of_lt_of_le hfits (Nat.pow_le_pow_right (by decide) hsize)
  refine ⟨{ input with
    inOffset := input.inOffset + 1
    inDataSize := input.inDataSize + 8
    inData := (input.inData ||| b.toNat <<< input.inDataSize) % 2 ^ 32 }, ?_, ?_, rfl⟩
  · unfold loadByte
    rw [hcell]
  · have hreader : ∀ i, i = (input.inData ||| b.toNat <<< input.inDataSize) → reader { input with
          inOffset := input.inOffset + 1
          inDataSize := input.inDataSize + 8
          inData := i } =
        input.reader.load b (leading (input.inBuffer.drop (input.inOffset + 1))) := by
      rintro i rfl
      rfl
    have heq := hreader _ hword
    refine ⟨⟨hlt, h.ended, ?_, hsize⟩, rfl, rfl, rfl, ?_, ?_, Nat.le_add_right _ _, ?_⟩
    · rw [heq]
      exact hfits
    · rw [heq]
      exact BitReader.value_load h.fits hunread
    · rw [heq]
      exact BitReader.left_load hunread
    · show input.inDataSize + 8 + 8 * input.inOffset = input.inDataSize + 8 * (input.inOffset + 1)
      ring

theorem loadByte_overrun (h : input.Inv) (hge : input.validBytes ≤ input.inOffset) :
    input.loadByte = .error .overrun := by
  have heq : input.inOffset = (leading input.inBuffer).length := Nat.le_antisymm h.offset_le hge
  unfold loadByte
  rw [heq]
  rcases getElem?_leading_length input.inBuffer with hend | hend
  · rw [hend]
  · rw [hend]

/-- **Run lemma**: the loop of `NEEDBITS` comes to its end if there are so many bits. -/
theorem needBitsLoop_ok {fuel : ℕ} (hfuel : j ≤ input.inDataSize + 8 * fuel) (h : input.Inv)
    (hsize : input.inDataSize + 8 * ((j + 7 - input.inDataSize) / 8) ≤ 32)
    (hleft : j ≤ input.reader.left) :
    ∃ input', needBitsLoop j fuel input = .ok input' ∧ Loaded input input' ∧
      j ≤ input'.inDataSize ∧ input'.inDataSize ≤ max input.inDataSize (j + 7) := by
  induction fuel generalizing input with
  | zero => exact ⟨input, rfl, .refl h, by omega, le_max_left _ _⟩
  | succ fuel ih =>
    rw [needBitsLoop]
    by_cases hlt : input.inDataSize < j
    · rw [if_pos hlt]
      rw [h.left_eq] at hleft
      obtain ⟨input₁, hload, hloaded, heq⟩ := loadByte_ok h (by omega) (by omega)
      rw [hload]
      obtain ⟨input', hloop, hloaded', hj, hmax⟩ := ih (by omega) hloaded.inv (by omega)
        (by rw [hloaded.left_eq, h.left_eq]; exact hleft)
      exact ⟨input', hloop, hloaded.trans hloaded', hj, by omega⟩
    · rw [if_neg hlt]
      exact ⟨input, rfl, .refl h, not_lt.mp hlt, le_max_left _ _⟩

/-- **Run lemma**: it does not if there are not. -/
theorem needBitsLoop_overrun {fuel : ℕ} (hfuel : j ≤ input.inDataSize + 8 * fuel) (h : input.Inv)
    (hsize : input.inDataSize + 8 * ((j + 7 - input.inDataSize) / 8) ≤ 32)
    (hleft : input.reader.left < j) : needBitsLoop j fuel input = .error .overrun := by
  induction fuel generalizing input with
  | zero =>
    rw [h.left_eq] at hleft
    omega
  | succ fuel ih =>
    rw [needBitsLoop]
    have hlt : input.inDataSize < j := by
      rw [h.left_eq] at hleft
      omega
    rw [if_pos hlt]
    rcases Nat.lt_or_ge input.inOffset input.validBytes with hin | hout
    · obtain ⟨input₁, hload, hloaded, heq⟩ := loadByte_ok h hin (by omega)
      rw [hload]
      exact ih (by omega) hloaded.inv (by omega) (by rw [hloaded.left_eq]; exact hleft)
    · rw [loadByte_overrun h hout]
      rfl

/-- **Spec lemma** of `NEEDBITS`. -/
theorem needBits_ok (h : input.Inv)
    (hsize : input.inDataSize + 8 * ((j + 7 - input.inDataSize) / 8) ≤ 32)
    (hleft : j ≤ input.reader.left) :
    ∃ input', input.needBits j = .ok input' ∧ Loaded input input' ∧
      j ≤ input'.inDataSize ∧ input'.inDataSize ≤ max input.inDataSize (j + 7) :=
  needBitsLoop_ok (by omega) h hsize hleft

theorem needBits_overrun (h : input.Inv)
    (hsize : input.inDataSize + 8 * ((j + 7 - input.inDataSize) / 8) ≤ 32)
    (hleft : input.reader.left < j) : input.needBits j = .error .overrun :=
  needBitsLoop_overrun (by omega) h hsize hleft

/-- **Spec lemma** of `NEXTBITS`: the lowest bits of what is left. -/
theorem nextBits_eq (hj : j ≤ input.inDataSize) :
    input.nextBits j = input.reader.value % 2 ^ j := (@BitReader.mod_word input.reader j hj).symm

/-- **Spec lemma** of `DUMPBITS`. -/
theorem Inv.dumpBits (h : input.Inv) (hj : j ≤ input.inDataSize) : (input.dumpBits j).Inv where
  offset_le := h.offset_le
  ended := h.ended
  fits := h.fits.drop hj
  size_le := (Nat.sub_le _ _).trans h.size_le

theorem left_dumpBits (hj : j ≤ input.inDataSize) :
    (input.dumpBits j).reader.left = input.reader.left - j :=
  @BitReader.left_drop input.reader j hj

theorem value_dumpBits (hj : j ≤ input.inDataSize) :
    (input.dumpBits j).reader.value = input.reader.value / 2 ^ j :=
  @BitReader.value_drop input.reader j hj

/-! ## `refill_input` -/

/-- The same bits are in the word, and the buffer is read from its start. -/
structure Refilled (input input' : Input) : Prop where
  inv : input'.Inv
  incremental_eq : input'.incremental = input.incremental
  length_eq : input'.inBuffer.length = input.inBuffer.length
  offset_eq : input'.inOffset = 0
  size_eq : input'.inDataSize = input.inDataSize

/-- A new buffer: the bytes that are left, and those that the file has. -/
theorem refilled_of_file {file : OsFile} (h : input.Inv) (hfile : input.file = some file) :
    Refilled input { input with
      file := some (getBytesRaw file input.inOffset).2
      inBuffer := input.inBuffer.drop input.inOffset ++
        (getBytesRaw file input.inOffset).1.map some ++
        List.replicate (input.inOffset - (getBytesRaw file input.inOffset).1.length) none
      inOffset := 0 } := by
  have hlength := h.offset_le_length
  have hoffset : input.inOffset ≤ (leading input.inBuffer).length := h.offset_le
  set bytes := (getBytesRaw file input.inOffset).1 with hbytes
  have hcount : bytes.length = min input.inOffset (file.content.length - file.pos) := by
    rw [hbytes, getBytesRaw, OsFile.read, List.length_take, List.length_drop]
  have hpos : (getBytesRaw file input.inOffset).2.pos = file.pos + bytes.length := rfl
  refine ⟨⟨Nat.zero_le _, ?_, h.fits, h.size_le⟩, rfl, ?_, rfl, rfl⟩
  · intro hshort file' hfile'
    obtain rfl := Option.some.inj hfile'
    show file.content.length ≤ (getBytesRaw file input.inOffset).2.pos
    rw [hpos]
    rcases Nat.lt_or_ge input.validBytes input.inBuffer.length with hlt | hge
    · -- the file had ended before
      have hended := h.ended hlt file hfile
      omega
    · have hall := leading_of_length_le hge
      -- a short read is one at the end of the file
      by_contra hmore
      have hfull : bytes.length = input.inOffset := by omega
      have hvalid : leading (input.inBuffer.drop input.inOffset ++ bytes.map some ++
          List.replicate (input.inOffset - bytes.length) none) =
            (leading input.inBuffer).drop input.inOffset ++ bytes := by
        rw [List.append_assoc, hall, ← List.map_drop, leading_map_some_append,
          leading_map_some_append, leading_replicate, List.append_nil, ← hall]
      have hshort' : (leading (input.inBuffer.drop input.inOffset ++ bytes.map some ++
          List.replicate (input.inOffset - bytes.length) none)).length <
            (input.inBuffer.drop input.inOffset ++ bytes.map some ++
              List.replicate (input.inOffset - bytes.length) none).length := hshort
      have hge' : input.inBuffer.length ≤ (leading input.inBuffer).length := hge
      rw [hvalid] at hshort'
      simp only [List.length_append, List.length_drop, List.length_map,
        List.length_replicate] at hshort'
      omega
  · simp only [List.length_append, List.length_drop, List.length_map, List.length_replicate]
    omega

/-- **Spec lemma** of `refill_input`: its guarantee holds. -/
theorem refill_ok (h : input.Inv) :
    ∃ input', input.refill true = .ok input' ∧ Refilled input input' := by
  unfold refill refillInput
  cases hfile : input.file with
  | none =>
    refine ⟨{ input with inOffset := 0 }, rfl, ?_⟩
    exact ⟨⟨Nat.zero_le _, h.ended, h.fits, h.size_le⟩, rfl, rfl, rfl, rfl⟩
  | some file =>
    simp only [if_neg (not_lt.mpr h.offset_le_length), if_true]
    exact ⟨_, rfl, refilled_of_file h hfile⟩

/-- Without memory for the new buffer there may be an exception. -/
theorem refill_cases (h : input.Inv) (allocates : Bool) :
    input.refill allocates = .error .thrown ∨ input.refill allocates = input.refill true := by
  cases allocates with
  | true => exact .inr rfl
  | false =>
    unfold refill refillInput
    cases hfile : input.file with
    | none => exact .inr rfl
    | some file =>
      simp only [if_neg (not_lt.mpr h.offset_le_length)]
      exact .inl rfl

end Input

end CldcVm.Inflate
