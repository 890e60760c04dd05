import CldcVm.Files.BufferedFile
import Mathlib.Data.List.Basic

/-!
# A buffered file against a plain one

`cursor` is the plain file at the position that a buffered file stands for. The invariant
`Inv` says that the position of the operating system is the one that the object remembers,
and that the buffer holds the bytes before it.

Result: `getBytesLoop_spec`: the loop of `get_bytes` reads what the plain file reads.
-/

namespace CldcVm.Files

theorem jint_eq {x : ℤ} (h1 : -2 ^ 31 ≤ x) (h2 : x < 2 ^ 31) : jint x = x := by
  unfold jint
  apply Int.bmod_eq_of_le <;> omega

theorem jint_isPosition {x : ℤ} (h : IsPosition x) : jint x = x :=
  jint_eq (by have := h.1; omega) h.2

/-- A sum of two `jint` that is no position becomes a negative `jint`. -/
theorem jint_neg {x : ℤ} (h1 : -2 ^ 31 ≤ x) (h2 : x < 2 ^ 32 - 1) (h : ¬ IsPosition x) :
    jint x < 0 := by
  unfold IsPosition at h
  unfold jint
  rw [Int.bmod_def]
  split <;> omega

theorem OsFile.read_add (file : OsFile) (m n : ℕ) : file.read (m + n) =
      ((file.read m).1 ++ ((file.read m).2.read n).1, ((file.read m).2.read n).2) := by
  have hbytes : (file.content.drop file.pos).take (m + n) = (file.content.drop file.pos).take m ++
        (file.content.drop (file.pos + ((file.content.drop file.pos).take m).length)).take n := by
    rw [List.take_add, List.drop_drop, List.length_take, List.length_drop]
    by_cases hm : m ≤ file.content.length - file.pos
    · rw [min_eq_left hm]
    · rw [List.drop_eq_nil_of_le (show file.content.length ≤ file.pos + m by omega),
        List.drop_eq_nil_of_le (show file.content.length ≤
          file.pos + min m (file.content.length - file.pos) by omega)]
  simp only [OsFile.read, hbytes, List.length_append, Nat.add_assoc]

namespace BufferedFile

/-- The plain file that a buffered file stands for. -/
def cursor (bf : BufferedFile) : OsFile := { bf.file with pos := bf.lastUnreadFilePos.toNat }

/-- What holds between two calls. -/
structure Inv (bf : BufferedFile) : Prop where
  fileSize_eq : bf.fileSize = bf.file.content.length
  pos_eq : bf.filePos = bf.file.pos
  filePos_lt : bf.filePos < 2 ^ 31
  index_nonneg : 0 ≤ bf.index
  count_nonneg : 0 ≤ bf.count
  count_le : bf.count ≤ bf.filePos
  count_le_size : bf.count ≤ bf.bufferSize
  filePos_le : 0 < bf.count → bf.filePos ≤ bf.fileSize
  buffer_eq : bf.dataBuffer.take bf.count.toNat =
    (bf.file.content.drop (bf.filePos - bf.count).toNat).take bf.count.toNat
  position_lt : bf.lastUnreadFilePos < 2 ^ 31
  index_eq : bf.count = 0 → bf.index = 0
  atEof_imp : bf.atEof = true → bf.count = 0 ∧ bf.fileSize ≤ bf.filePos

theorem inv_openFile (file : OsFile) (dataBuffer : List UInt8) :
    (openFile file dataBuffer).Inv := by
  constructor <;> simp [openFile, lastUnreadFilePos]

theorem Inv.isPosition {bf : BufferedFile} (h : bf.Inv) : IsPosition bf.lastUnreadFilePos := by
  have := h.index_nonneg
  have := h.count_le
  refine ⟨?_, h.position_lt⟩
  unfold lastUnreadFilePos
  omega

/-! ## `refill_buffer` -/

/-- The bytes that one read of the file under the buffer gives. -/
def readAhead (bf : BufferedFile) (count : ℕ) : List UInt8 :=
  (bf.file.content.drop bf.file.pos).take count

theorem Inv.filePos_add_le {bf : BufferedFile} (h : bf.Inv) (count : ℕ) :
    (0 < (bf.readAhead count).length → bf.filePos + (bf.readAhead count).length ≤ bf.fileSize) := by
  have := h.fileSize_eq
  have := h.pos_eq
  unfold readAhead
  rw [List.length_take, List.length_drop]
  omega

/-- The state after a read of `count` bytes into the buffer. -/
def filled (bf : BufferedFile) (count : ℕ) : BufferedFile :=
  { bf with
    file := { bf.file with pos := bf.file.pos + (bf.readAhead count).length }
    dataBuffer := bf.readAhead count ++ bf.dataBuffer.drop (bf.readAhead count).length
    count := (bf.readAhead count).length
    filePos := bf.filePos + (bf.readAhead count).length
    index := 0
    atEof := if ((bf.readAhead count).length : ℤ) ≤ 0 then true else bf.atEof }

section

variable (bf : BufferedFile) (n : ℕ)

@[simp] theorem filled_count : (bf.filled n).count = (bf.readAhead n).length := rfl

@[simp] theorem filled_filePos : (bf.filled n).filePos = bf.filePos + (bf.readAhead n).length := rfl

@[simp] theorem filled_index : (bf.filled n).index = 0 := rfl

end

/-- The seek of `refill_buffer` changes nothing, and its sizes do not overflow. -/
theorem refillBuffer_eq_filled {bf : BufferedFile} (h : bf.Inv) (hEof : bf.atEof = false) :
    ∃ count : ℕ, bf.refillBuffer = bf.filled count ∧ (bf.readAhead count).length ≤ bf.bufferSize ∧
      (0 < bf.bufferSize → bf.filePos < bf.fileSize → 0 < count) := by
  have hsize := h.fileSize_eq
  have hlt := bf.file.length_lt
  have hpos := h.pos_eq
  have hposlt := h.filePos_lt
  have hseek : (bf.file.seek bf.filePos .seekSet).2 = bf.file := by
    have hposition : IsPosition bf.filePos := ⟨by omega, hposlt⟩
    rw [OsFile.seek, OsFile.target, if_pos hposition, hpos, Int.toNat_natCast]
  have hmax : jint (bf.fileSize - bf.filePos) = bf.fileSize - bf.filePos :=
    jint_eq (by omega) (by omega)
  refine ⟨sizeT (if bf.bufferSize > bf.fileSize - bf.filePos then bf.fileSize - bf.filePos
    else bf.bufferSize), ?_, ?_, ?_⟩
  · rw [refillBuffer, if_neg (by simp [hEof])]
    simp only [hmax, hseek]
    generalize sizeT (if bf.bufferSize > bf.fileSize - bf.filePos then
      bf.fileSize - bf.filePos else bf.bufferSize) = n
    have hfilePos := h.filePos_add_le n
    have hjint : jint (bf.filePos + (bf.readAhead n).length) =
        bf.filePos + (bf.readAhead n).length := jint_eq (by omega) (by omega)
    unfold readAhead at hjint
    simp only [OsFile.read, filled, readAhead, hjint]
    rfl
  · rw [readAhead, List.length_take, List.length_drop]
    unfold sizeT
    split_ifs <;> omega
  · intro hbuffer hbefore
    unfold sizeT
    split_ifs <;> omega

theorem Inv.filled {bf : BufferedFile} (h : bf.Inv) (hEof : bf.atEof = false) (count : ℕ)
    (hbuffer : (bf.readAhead count).length ≤ bf.bufferSize)
    (hcount : bf.filePos < bf.fileSize → 0 < count) : (bf.filled count).Inv := by
  have hle := h.filePos_add_le count
  have hsize := h.fileSize_eq
  have hlt := bf.file.length_lt
  have hposlt := h.filePos_lt
  have hpos := h.pos_eq
  have hnew : bf.filePos + (bf.readAhead count).length < 2 ^ 31 := by omega
  exact {
    fileSize_eq := hsize
    pos_eq := by
      show bf.filePos + _ = ((_ + _ : ℕ) : ℤ)
      push_cast
      rw [hpos]
    filePos_lt := hnew
    index_nonneg := le_rfl
    count_nonneg := by exact Int.natCast_nonneg _
    count_le := by
      show ((bf.readAhead count).length : ℤ) ≤ bf.filePos + (bf.readAhead count).length
      omega
    count_le_size := Int.ofNat_le.mpr hbuffer
    filePos_le := by
      intro hread
      rw [filled_count] at hread
      exact hle (by omega)
    buffer_eq := by
      show (bf.readAhead count ++ _).take ((bf.readAhead count).length : ℤ).toNat =
        (bf.file.content.drop (bf.filePos + (bf.readAhead count).length -
          (bf.readAhead count).length).toNat).take ((bf.readAhead count).length : ℤ).toNat
      rw [Int.toNat_natCast, List.take_left, add_sub_cancel_right, hpos, Int.toNat_natCast,
        readAhead, List.length_take, List.take_eq_take_min]
    position_lt := by
      rw [lastUnreadFilePos, filled_filePos, filled_count, filled_index]
      omega
    index_eq := fun _ => rfl
    atEof_imp := by
      intro hEof'
      have hzero : (bf.readAhead count).length = 0 := by
        by_contra hne
        have hfalse : (bf.filled count).atEof = bf.atEof := if_neg (by omega)
        rw [hfalse, hEof] at hEof'
        exact absurd hEof' (by simp)
      refine ⟨by rw [filled_count, hzero, Nat.cast_zero], ?_⟩
      show bf.fileSize ≤ bf.filePos + (bf.readAhead count).length
      rw [readAhead, List.length_take, List.length_drop] at hzero
      omega }

theorem refillBuffer_spec {bf : BufferedFile} (h : bf.Inv) (hindex : bf.index = bf.count)
    (hsize : 0 < bf.bufferSize ∨ bf.fileSize ≤ bf.filePos) :
    bf.refillBuffer.Inv ∧ bf.refillBuffer.cursor = bf.cursor ∧
    bf.refillBuffer.index ≤ bf.refillBuffer.count ∧
    (0 < bf.refillBuffer.bufferSize ∨ bf.refillBuffer.fileSize ≤ bf.refillBuffer.filePos) := by
  cases hEof : bf.atEof with
  | true =>
    rw [refillBuffer, if_pos hEof]
    exact ⟨h, rfl, by omega, hsize⟩
  | false =>
    obtain ⟨count, hfilled, hbuffer, hcount⟩ := refillBuffer_eq_filled h hEof
    rw [hfilled]
    refine ⟨h.filled hEof count hbuffer ?_, ?_, Int.natCast_nonneg _, ?_⟩
    · intro hbefore
      exact hcount (by omega) hbefore
    · unfold cursor lastUnreadFilePos filled
      simp only
      congr 1
      omega
    · refine hsize.imp id ?_
      intro hle
      show bf.fileSize ≤ bf.filePos + _
      omega

/-! ## `get_bytes` -/

section Copy

variable {bf : BufferedFile} (num : ℕ)

theorem numToRead_le (bf : BufferedFile) (num : ℕ) :
    bf.numToRead num ≤ num ∧ bf.numToRead num ≤ bf.count - bf.index := by
  unfold numToRead
  split <;> omega

theorem numToRead_nonneg (hindex : bf.index ≤ bf.count) : 0 ≤ bf.numToRead num := by
  unfold numToRead
  split <;> omega

/-- What `memcpy` copies is what stands in the file at the position. -/
theorem copy_bytes (h : bf.Inv) (hindex : bf.index ≤ bf.count) : (bf.copy num).1 =
      (bf.file.content.drop bf.lastUnreadFilePos.toNat).take (bf.numToRead num).toNat := by
  have hnum := numToRead_le bf num
  have hnonneg := numToRead_nonneg num hindex
  have := h.index_nonneg
  have := h.count_le
  have htake : ∀ l : List UInt8, (l.drop bf.index.toNat).take (bf.numToRead num).toNat =
      ((l.take bf.count.toNat).drop bf.index.toNat).take (bf.numToRead num).toNat := by
    intro l
    rw [List.drop_take, List.take_take, min_eq_left (by omega)]
  rw [copy]
  simp only
  rw [htake, h.buffer_eq, ← htake, List.drop_drop]
  congr 2
  unfold lastUnreadFilePos
  omega

theorem Inv.copy (h : bf.Inv) (hindex : bf.index ≤ bf.count) : (bf.copy num).2.Inv := by
  have hnum := numToRead_le bf num
  have hnonneg := numToRead_nonneg num hindex
  have hindex0 := h.index_nonneg
  have hposition : (bf.copy num).2.lastUnreadFilePos = bf.lastUnreadFilePos + bf.numToRead num := by
    unfold lastUnreadFilePos BufferedFile.copy
    simp only
    omega
  exact { h with
    index_nonneg := by
      show 0 ≤ bf.index + _
      omega
    position_lt := by
      have := h.filePos_lt
      rw [hposition]
      unfold lastUnreadFilePos
      omega
    index_eq := by
      intro hcount
      have hcount' : bf.count = 0 := hcount
      have := h.index_eq hcount'
      show bf.index + _ = 0
      omega }

/-- **Step lemma**: one turn of the loop reads what the plain file reads. -/
theorem turn_spec (h : bf.Inv) (hindex : bf.index ≤ bf.count)
    (hsize : 0 < bf.bufferSize ∨ bf.fileSize ≤ bf.filePos) :
    (bf.copy num).1 = (bf.cursor.read (bf.numToRead num).toNat).1 ∧
    (bf.turn num).cursor = (bf.cursor.read (bf.numToRead num).toNat).2 ∧
    (bf.turn num).Inv ∧ (bf.turn num).index ≤ (bf.turn num).count ∧
    (0 < (bf.turn num).bufferSize ∨ (bf.turn num).fileSize ≤ (bf.turn num).filePos) := by
  have hnum := numToRead_le bf num
  have hnonneg := numToRead_nonneg num hindex
  have hcopy := h.copy num hindex
  have hbytes := copy_bytes num h hindex
  have hcursor : (bf.copy num).2.cursor = (bf.cursor.read (bf.numToRead num).toNat).2 := by
    have := h.index_nonneg
    have := h.count_le
    have hsize := h.fileSize_eq
    have hread : ((bf.file.content.drop bf.lastUnreadFilePos.toNat).take
        (bf.numToRead num).toNat).length = (bf.numToRead num).toNat := by
      have hbefore := h.filePos_le
      rw [List.length_take, List.length_drop]
      unfold lastUnreadFilePos
      omega
    simp only [OsFile.read, cursor, hread]
    congr 1
    unfold lastUnreadFilePos BufferedFile.copy
    simp only
    omega
  refine ⟨hbytes, ?_⟩
  unfold turn
  split_ifs with hmore
  · have hempty : (bf.copy num).2.index = (bf.copy num).2.count := by
      have hall : bf.numToRead num = bf.count - bf.index := by
        unfold numToRead at hmore ⊢
        split_ifs at hmore ⊢ <;> omega
      show bf.index + bf.numToRead num = bf.count
      omega
    obtain ⟨hinv, hsame, hle, hsize'⟩ := refillBuffer_spec hcopy hempty hsize
    exact ⟨hsame.trans hcursor, hinv, hle, hsize'⟩
  · refine ⟨hcursor, hcopy, ?_, hsize⟩
    show bf.index + bf.numToRead num ≤ bf.count
    omega

/-- **Run lemma**: the loop of `get_bytes` reads what the plain file reads. -/
theorem getBytesLoop_spec (h : bf.Inv) (hindex : bf.index ≤ bf.count)
    (hsize : 0 < bf.bufferSize ∨ bf.fileSize ≤ bf.filePos) :
    ∃ bf', bf.getBytesLoop num = some ((bf.cursor.read num).1, bf') ∧
      bf'.cursor = (bf.cursor.read num).2 ∧ bf'.Inv := by
  induction bf, num using getBytesLoop.induct with
  | case1 bf num hmore hneg =>
    have := numToRead_nonneg num hindex
    omega
  | case2 bf num hmore hneg ih =>
    obtain ⟨hbytes, hcursor, hinv, hle, hsize'⟩ := turn_spec num h hindex hsize
    obtain ⟨bf', hloop, hcursor', hinv'⟩ := ih hinv hle hsize'
    have hnum := (numToRead_le bf num).1
    have hsplit : num = (bf.numToRead num).toNat + (num - (bf.numToRead num).toNat) := by omega
    have hread := bf.cursor.read_add (bf.numToRead num).toNat (num - (bf.numToRead num).toNat)
    rw [← hsplit] at hread
    refine ⟨bf', ?_, ?_, hinv'⟩
    · rw [getBytesLoop, dif_pos hmore, dif_neg hneg, hloop, Option.map_some, hread, hbytes, hcursor]
    · rw [hcursor', hcursor, hread]
  | case3 bf num hdone =>
    refine ⟨bf, ?_, ?_, h⟩
    all_goals
      have hnil : (bf.cursor.read num).1 = [] := by
        cases hEof : bf.atEof with
        | true =>
          obtain ⟨hcount, hend⟩ := h.atEof_imp hEof
          have hsize := h.fileSize_eq
          have := h.index_eq hcount
          show (bf.file.content.drop bf.lastUnreadFilePos.toNat).take num = []
          rw [List.drop_eq_nil_of_le, List.take_nil]
          unfold lastUnreadFilePos
          omega
        | false =>
          have hzero : num = 0 := by
            by_contra hne
            exact hdone ⟨hEof, by omega⟩
          rw [hzero]
          rfl
    · rw [getBytesLoop, dif_neg hdone, hnil]
    · show bf.cursor = { bf.cursor with pos := bf.cursor.pos + (bf.cursor.read num).1.length }
      rw [hnil]
      rfl

end Copy

end BufferedFile

end CldcVm.Files
