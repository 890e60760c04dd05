import CldcVm.Files.Cursor

/-!
# Calls on a buffered file

Results:

* `trace_eq_iff`: a sequence of calls returns the same bytes, counts and positions on both
  files exactly when each of its calls meets `StepOk`.
-/

namespace CldcVm.Files

namespace BufferedFile

variable (bf : BufferedFile)

/-- When a call on a buffered file that is in step with the plain one is right. -/
def StepOk : Call → Prop
  | .seek offset .seekSet => 0 ≤ offset.toInt
  | .seek offset .seekCur =>
    if bf.count = 0 then offset.toInt = 0 ∨ ¬ IsPosition (bf.lastUnreadFilePos + offset.toInt)
    else IsPosition (bf.lastUnreadFilePos + offset.toInt)
  | .seek offset .seekEnd => IsPosition (bf.fileSize + offset.toInt)
  | .getBytes num true =>
    num = 0 ∨ bf.index ≤ bf.count ∧ (0 < bf.bufferSize ∨ bf.fileSize ≤ bf.lastUnreadFilePos)
  | .getBytes num false =>
    ((bf.file.content.drop bf.lastUnreadFilePos.toNat).take num).length = bf.count - bf.index

/-- The call returns the same on the two files, and leaves them in step. -/
def Agrees (c : Call) : Prop :=
  ∃ result bf', bf.call c = some (result, bf') ∧
    bf.cursor.call c = (result, bf'.cursor) ∧ bf'.Inv

/-- The call has no result, or leaves the two files at different positions. -/
def Disagrees (c : Call) : Prop :=
  ∀ result bf', bf.call c = some (result, bf') →
    bf'.lastUnreadFilePos ≠ (bf.cursor.call c).2.pos

variable {bf}

/-! ## `seek` -/

theorem cursor_pos (h : bf.Inv) : (bf.cursor.pos : ℤ) = bf.lastUnreadFilePos :=
  Int.toNat_of_nonneg h.isPosition.1

theorem Inv.setIndex (h : bf.Inv) {index : ℤ} (hcount : bf.count ≠ 0) (hindex : 0 ≤ index)
    (hlt : bf.filePos - (bf.count - index) < 2 ^ 31) : Inv { bf with index := index } :=
  { h with
    index_nonneg := hindex
    position_lt := hlt
    index_eq := fun hzero => absurd hzero hcount }

theorem Inv.flushed (h : bf.Inv) {pos : ℕ} (atEof : Bool) (hpos : (pos : ℤ) < 2 ^ 31)
    (hEof : atEof = true → bf.fileSize ≤ pos) : Inv { bf with
      file := { bf.file with pos := pos }
      filePos := pos
      count := 0
      index := 0
      atEof := atEof } where
  fileSize_eq := h.fileSize_eq
  pos_eq := rfl
  filePos_lt := hpos
  index_nonneg := le_rfl
  count_nonneg := le_rfl
  count_le := Int.natCast_nonneg pos
  count_le_size := Int.natCast_nonneg bf.bufferSize
  filePos_le := fun h => absurd h (lt_irrefl _)
  buffer_eq := rfl
  position_lt := by
    show (pos : ℤ) - (0 - 0) < 2 ^ 31
    omega
  index_eq := fun _ => rfl
  atEof_imp := fun h => ⟨rfl, hEof h⟩

theorem le_of_atEof {pos size : ℤ} {atEof : Bool}
    (h : (if pos < size then false else atEof) = true) : size ≤ pos := by
  split_ifs at h
  omega

variable {origin : Origin}

theorem seekFile_spec (h : bf.Inv) {offset : ℤ}
    (hposition : IsPosition (bf.file.target offset origin)) :
    (bf.seekFile offset origin (bf.file.target offset origin)).1 = 0 ∧
    (bf.seekFile offset origin (bf.file.target offset origin)).2.Inv ∧
    (bf.seekFile offset origin (bf.file.target offset origin)).2.cursor =
      { bf.file with pos := (bf.file.target offset origin).toNat } := by
  have hseek : bf.file.seek offset origin =
      (0, { bf.file with pos := (bf.file.target offset origin).toNat }) := by
    rw [OsFile.seek, if_pos hposition]
  obtain ⟨hnonneg, hlt⟩ := hposition
  have hpos : ((bf.file.target offset origin).toNat : ℤ) = bf.file.target offset origin :=
    Int.toNat_of_nonneg hnonneg
  unfold seekFile
  rw [hseek]
  generalize (bf.file.target offset origin).toNat = pos at hpos ⊢
  rw [← hpos] at hlt ⊢
  refine ⟨rfl, h.flushed _ hlt le_of_atEof, ?_⟩
  unfold cursor lastUnreadFilePos
  simp only
  congr 1

theorem agrees_of_seekFile (h : bf.Inv) {offset : Int32} {offset' : ℤ}
    {origin' : Origin} {filePos : ℤ}
    (hseek : bf.seek offset.toInt origin = bf.seekFile offset' origin' filePos)
    (hfilePos : filePos = bf.file.target offset' origin')
    (htarget : bf.file.target offset' origin' = bf.cursor.target offset.toInt origin)
    (hposition : IsPosition (bf.cursor.target offset.toInt origin)) :
    bf.Agrees (.seek offset origin) := by
  have hposition' : IsPosition (bf.file.target offset' origin') := htarget ▸ hposition
  obtain ⟨hstatus, hinv, hcursor⟩ := seekFile_spec h hposition'
  refine ⟨.status (bf.seek offset.toInt origin).1, (bf.seek offset.toInt origin).2, rfl, ?_, ?_⟩
  · rw [OsFile.call, OsFile.seek, if_pos hposition, hseek, hfilePos, hstatus, hcursor, htarget]
    rfl
  · rw [hseek, hfilePos]
    exact hinv

theorem agrees_of_setIndex (h : bf.Inv) {offset : Int32} {index : ℤ}
    (hseek : bf.seek offset.toInt origin = (0, { bf with index := index }))
    (hcount : bf.count ≠ 0) (hindex : 0 ≤ index)
    (htarget : bf.filePos - (bf.count - index) = bf.cursor.target offset.toInt origin)
    (hposition : IsPosition (bf.cursor.target offset.toInt origin)) :
    bf.Agrees (.seek offset origin) := by
  refine ⟨.status (bf.seek offset.toInt origin).1, (bf.seek offset.toInt origin).2, rfl, ?_, ?_⟩
  · rw [OsFile.call, OsFile.seek, if_pos hposition, hseek, ← htarget]
    rfl
  · rw [hseek]
    exact h.setIndex hcount hindex (htarget ▸ hposition.2)

section Seek

variable {offset : Int32}

theorem seekSet_agrees (h : bf.Inv) (hok : bf.StepOk (.seek offset .seekSet)) :
    bf.Agrees (.seek offset .seekSet) := by
  have hoffset : 0 ≤ offset.toInt := hok
  have hposition : IsPosition (bf.cursor.target offset.toInt .seekSet) :=
    ⟨hoffset, offset.toInt_lt⟩
  by_cases hin : bf.count > 0 ∧ offset.toInt ≥ bf.filePos - bf.count ∧ offset.toInt < bf.filePos
  · have hseek : bf.seek offset.toInt .seekSet =
        (0, { bf with index := bf.count - (bf.filePos - offset.toInt) }) := if_pos hin
    apply agrees_of_setIndex h hseek _ _ _ hposition
    · omega
    · omega
    · show _ = offset.toInt
      omega
  · have hseek : bf.seek offset.toInt .seekSet =
        bf.seekFile offset.toInt .seekSet offset.toInt := if_neg hin
    exact agrees_of_seekFile h hseek rfl rfl hposition

theorem seekSet_disagrees (h : bf.Inv) (hok : ¬ bf.StepOk (.seek offset .seekSet)) :
    bf.Disagrees (.seek offset .seekSet) := by
  have hoffset : ¬ 0 ≤ offset.toInt := hok
  have hcount := h.count_le
  intro result bf' hcall
  have hout : bf.seek offset.toInt .seekSet = bf.seekFile offset.toInt .seekSet offset.toInt :=
    if_neg (by omega)
  rw [call, hout] at hcall
  obtain ⟨-, rfl⟩ := Prod.mk.inj (Option.some.inj hcall)
  show offset.toInt - (0 - 0) ≠ _
  omega

theorem cursor_target_seekCur (h : bf.Inv) :
    bf.cursor.target offset.toInt .seekCur = bf.lastUnreadFilePos + offset.toInt := by
  rw [OsFile.target, cursor_pos h]

theorem lastUnreadFilePos_of_empty (h : bf.Inv) (hcount : bf.count = 0) :
    bf.lastUnreadFilePos = bf.filePos := by
  rw [lastUnreadFilePos, hcount, h.index_eq hcount, sub_zero, sub_zero]

/-- A failed seek of the file leaves an object with an empty buffer as it was, but for the
mark of the end. -/
theorem seekCur_agrees_of_fail (h : bf.Inv) (hcount : bf.count = 0)
    (hfail : ¬ IsPosition (bf.lastUnreadFilePos + offset.toInt)) :
    bf.Agrees (.seek offset .seekCur) := by
  have hindex := h.index_eq hcount
  have hpos := h.pos_eq
  have hlast := lastUnreadFilePos_of_empty h hcount
  have hfile : bf.file.seek offset.toInt .seekCur = (-1, bf.file) := by
    rw [OsFile.seek, if_neg]
    rwa [OsFile.target, ← hpos, ← hlast]
  have hcursor : bf.cursor.seek offset.toInt .seekCur = (-1, bf.cursor) := by
    rw [OsFile.seek, if_neg]
    rwa [cursor_target_seekCur h]
  have hseek : bf.seek offset.toInt .seekCur =
      bf.seekFile offset.toInt .seekCur bf.filePos := if_neg (by omega)
  refine ⟨.status (bf.seek offset.toInt .seekCur).1, (bf.seek offset.toInt .seekCur).2, rfl, ?_, ?_⟩
  · rw [OsFile.call, hcursor, hseek, seekFile, hfile]
    simp only [cursor, lastUnreadFilePos, hcount, hindex]
  · rw [hseek, seekFile, hfile]
    have hflushed := h.flushed (if bf.filePos < bf.fileSize then false else bf.atEof)
      (hpos ▸ h.filePos_lt) (hpos ▸ le_of_atEof)
    rwa [← hpos] at hflushed

/-- In bounds, the arithmetic of a relative seek does not overflow. -/
theorem seekCur_agrees (h : bf.Inv) (hok : bf.StepOk (.seek offset .seekCur)) :
    bf.Agrees (.seek offset .seekCur) := by
  have hcountle := h.count_le
  have hpos := h.pos_eq
  have hcount0 := h.count_nonneg
  have hposlt := h.filePos_lt
  have htarget : bf.cursor.target offset.toInt .seekCur =
      bf.lastUnreadFilePos + offset.toInt := cursor_target_seekCur h
  by_cases hcount : bf.count = 0
  · rw [StepOk, if_pos hcount] at hok
    have hlast := lastUnreadFilePos_of_empty h hcount
    rcases hok with hzero | hfail
    · have hseek : bf.seek offset.toInt .seekCur =
          bf.seekFile offset.toInt .seekCur bf.filePos := if_neg (by omega)
      refine agrees_of_seekFile h hseek ?_ ?_ ?_
      · rw [OsFile.target, hzero]
        omega
      · rw [htarget, hlast, hpos, OsFile.target]
      · rw [htarget, hzero, hlast, add_zero]
        exact ⟨by omega, hposlt⟩
    · exact seekCur_agrees_of_fail h hcount hfail
  · rw [StepOk, if_neg hcount] at hok
    have hposition : IsPosition (bf.cursor.target offset.toInt .seekCur) := by
      rw [htarget]
      exact hok
    obtain ⟨hnonneg, hlt⟩ := hok
    unfold lastUnreadFilePos at hnonneg hlt
    have hjint : jint (offset.toInt + bf.index) = offset.toInt + bf.index :=
      jint_eq (by omega) (by omega)
    have hjint' : jint (offset.toInt - (bf.count - bf.index)) =
        offset.toInt - (bf.count - bf.index) := jint_eq (by omega) (by omega)
    by_cases hin : offset.toInt + bf.index ≥ 0 ∧ offset.toInt + bf.index < bf.count
    · have hseek : bf.seek offset.toInt .seekCur =
          (0, { bf with index := offset.toInt + bf.index }) := by
        rw [← hjint] at hin
        show (if bf.count > 0 then _ else _) = _
        rw [if_pos (by omega), if_pos hin, hjint]
      apply agrees_of_setIndex h hseek hcount hin.1 _ hposition
      rw [htarget, lastUnreadFilePos]
      omega
    · have hseek : bf.seek offset.toInt .seekCur =
          bf.seekFile (offset.toInt - (bf.count - bf.index)) .seekCur
            (jint (bf.filePos + (offset.toInt - (bf.count - bf.index)))) := by
        rw [← hjint] at hin
        show (if bf.count > 0 then _ else _) = _
        rw [if_pos (by omega), if_neg hin]
        simp only [hjint']
      refine agrees_of_seekFile h hseek ?_ ?_ hposition
      · rw [OsFile.target, ← hpos, jint_eq (by omega) (by omega)]
      · rw [htarget, OsFile.target, ← hpos, lastUnreadFilePos]
        omega

theorem jint_add_jint (x y : ℤ) : jint (x + jint y) = jint (x + y) := Int.add_bmod_bmod

/-- A position that is none, as the remembered one after a flush. -/
theorem disagrees_of_seekFile {origin' : Origin} {offset' filePos : ℤ}
    (hseek : bf.seek offset.toInt origin = bf.seekFile offset' origin' filePos)
    (hne : filePos ≠ (bf.cursor.call (.seek offset origin)).2.pos) :
    bf.Disagrees (.seek offset origin) := by
  intro result bf' hcall
  rw [call, hseek] at hcall
  obtain ⟨-, rfl⟩ := Prod.mk.inj (Option.some.inj hcall)
  show filePos - (0 - 0) ≠ _
  rwa [sub_zero, sub_zero]

theorem seekCur_disagrees (h : bf.Inv) (hok : ¬ bf.StepOk (.seek offset .seekCur)) :
    bf.Disagrees (.seek offset .seekCur) := by
  have hindex0 := h.index_nonneg
  have hcountle := h.count_le
  have hposition := h.isPosition
  have hoffset := offset.toInt_lt
  have hoffset' := offset.le_toInt
  by_cases hcount : bf.count = 0
  · rw [StepOk, if_pos hcount, not_or, not_not] at hok
    have hseek : bf.seek offset.toInt .seekCur =
        bf.seekFile offset.toInt .seekCur bf.filePos := if_neg (by omega)
    apply disagrees_of_seekFile hseek
    have htarget : IsPosition (bf.cursor.target offset.toInt .seekCur) := by
      rw [cursor_target_seekCur h]
      exact hok.2
    rw [OsFile.call, OsFile.seek, if_pos htarget, cursor_target_seekCur h]
    show bf.filePos ≠ ((bf.lastUnreadFilePos + offset.toInt).toNat : ℤ)
    rw [Int.toNat_of_nonneg hok.2.1, lastUnreadFilePos_of_empty h hcount]
    have := hok.1
    omega
  · rw [StepOk, if_neg hcount] at hok
    have hneg : jint (bf.lastUnreadFilePos + offset.toInt) < 0 := by
      apply jint_neg _ _ hok
      · have := hposition.1
        omega
      · have := hposition.2
        omega
    have hout : ¬ (jint (offset.toInt + bf.index) ≥ 0 ∧
        jint (offset.toInt + bf.index) < bf.count) := by
      have hlt := hposition.2
      have hposlt := h.filePos_lt
      unfold IsPosition lastUnreadFilePos at hok
      unfold lastUnreadFilePos at hlt
      intro hin
      by_cases hjint : offset.toInt + bf.index < 2 ^ 31
      · rw [jint_eq (by omega) hjint] at hin
        omega
      · have := jint_neg (x := offset.toInt + bf.index) (by omega) (by omega) (fun hp => hjint hp.2)
        omega
    have hseek : bf.seek offset.toInt .seekCur =
        bf.seekFile (jint (offset.toInt - (bf.count - bf.index))) .seekCur
          (jint (bf.filePos + jint (offset.toInt - (bf.count - bf.index)))) := by
      show (if bf.count > 0 then _ else _) = _
      have := h.count_nonneg
      rw [if_pos (by omega), if_neg hout]
    apply disagrees_of_seekFile hseek
    have hsum : bf.filePos + (offset.toInt - (bf.count - bf.index)) =
        bf.lastUnreadFilePos + offset.toInt := by
      unfold lastUnreadFilePos
      omega
    rw [jint_add_jint, hsum]
    omega

theorem seekEnd_agrees (h : bf.Inv) (hok : bf.StepOk (.seek offset .seekEnd)) :
    bf.Agrees (.seek offset .seekEnd) := by
  have hokp : IsPosition (bf.fileSize + offset.toInt) := hok
  have hsize := h.fileSize_eq
  have htarget : bf.cursor.target offset.toInt .seekEnd = bf.fileSize + offset.toInt := by
    rw [hsize]
    rfl
  have hposition : IsPosition (bf.cursor.target offset.toInt .seekEnd) := by
    rwa [htarget]
  by_cases hin : bf.count > 0 ∧ bf.count = bf.fileSize ∧ jint (bf.count + offset.toInt) ≥ 0
  · have hjint : jint (bf.count + offset.toInt) = bf.count + offset.toInt := by
      rw [hin.2.1]
      exact jint_isPosition hokp
    have hseek : bf.seek offset.toInt .seekEnd =
        (0, { bf with index := jint (bf.count + offset.toInt) }) := if_pos hin
    have hle := h.filePos_le hin.1
    have hcountle := h.count_le
    apply agrees_of_setIndex h hseek _ hin.2.2 _ hposition
    · omega
    · rw [hjint, htarget]
      omega
  · have hseek : bf.seek offset.toInt .seekEnd =
        bf.seekFile offset.toInt .seekEnd (jint (bf.fileSize + offset.toInt)) := if_neg hin
    refine agrees_of_seekFile h hseek ?_ rfl hposition
    rw [jint_isPosition hokp, hsize]
    rfl

theorem seekEnd_disagrees (h : bf.Inv) (hok : ¬ bf.StepOk (.seek offset .seekEnd)) :
    bf.Disagrees (.seek offset .seekEnd) := by
  have hsize := h.fileSize_eq
  have hlt := bf.file.length_lt
  have hoffset := offset.toInt_lt
  have hoffset' := offset.le_toInt
  have hneg : jint (bf.fileSize + offset.toInt) < 0 := jint_neg (by omega) (by omega) hok
  have hseek : bf.seek offset.toInt .seekEnd =
      bf.seekFile offset.toInt .seekEnd (jint (bf.fileSize + offset.toInt)) := by
    apply if_neg
    rintro ⟨-, hcount, hnonneg⟩
    rw [hcount] at hnonneg
    omega
  apply disagrees_of_seekFile hseek
  omega

end Seek

/-! ## `get_bytes` -/

section GetBytes

variable {num : ℕ}

theorem getBytesLoop_done (hdone : ¬ (bf.atEof = false ∧ 0 < num)) :
    bf.getBytesLoop num = some ([], bf) := by
  rw [getBytesLoop, dif_neg hdone]

theorem getBytesTrue_agrees (h : bf.Inv) (hok : bf.StepOk (.getBytes num true)) :
    bf.Agrees (.getBytes num true) := by
  rcases hok with rfl | ⟨hindex, hsize⟩
  · refine ⟨.bytes [], bf, ?_, rfl, h⟩
    rw [call, getBytes, if_pos rfl, getBytesLoop_done (by omega), Option.map_some]
  · have hsize' : 0 < bf.bufferSize ∨ bf.fileSize ≤ bf.filePos := by
      unfold lastUnreadFilePos at hsize
      omega
    obtain ⟨bf', hloop, hcursor, hinv⟩ := getBytesLoop_spec num h hindex hsize'
    refine ⟨.bytes (bf.cursor.read num).1, bf', ?_, ?_, hinv⟩
    · rw [call, getBytes, if_pos rfl, hloop, Option.map_some]
    · rw [OsFile.call, hcursor]

theorem getBytesLoop_noBuffer (h : bf.Inv) (hbuffer : bf.bufferSize = 0)
    (hEof : bf.atEof = false) (hnum : 0 < num) :
    ∃ bf', bf.getBytesLoop num = some ([], bf') ∧ bf'.lastUnreadFilePos = bf.lastUnreadFilePos := by
  have hcount0 := h.count_nonneg
  have hcountle := h.count_le_size
  have hcount : bf.count = 0 := by omega
  have hindex := h.index_eq hcount
  have hzero : bf.numToRead num = 0 := by
    rw [numToRead, if_pos (by omega)]
    omega
  have hcopy : bf.copy num = ([], bf) := by
    rw [copy, hzero, add_zero]
    rfl
  obtain ⟨n, hfilled, hread, -⟩ := refillBuffer_eq_filled h hEof
  have hturn : bf.turn num = bf.filled n := by
    rw [turn, hzero, Int.toNat_zero, Nat.sub_zero, if_pos hnum, hcopy, hfilled]
  have hempty : (bf.readAhead n).length = 0 := by omega
  have hEof' : (bf.filled n).atEof = true := if_pos (by omega)
  refine ⟨bf.filled n, ?_, ?_⟩
  · rw [getBytesLoop, dif_pos ⟨hEof, hnum⟩, dif_neg (by omega), hturn,
      getBytesLoop_done (by simp [hEof']), Option.map_some, hcopy]
    rfl
  · rw [lastUnreadFilePos, filled_filePos, filled_count, filled_index, hempty,
      lastUnreadFilePos_of_empty h hcount]
    simp

theorem getBytesTrue_disagrees (h : bf.Inv) (hok : ¬ bf.StepOk (.getBytes num true)) :
    bf.Disagrees (.getBytes num true) := by
  have hcount0 := h.count_nonneg
  have hsize := h.fileSize_eq
  intro result bf' hcall
  rw [call, getBytes, if_pos rfl] at hcall
  unfold StepOk at hok
  have hnum : 0 < num := by omega
  by_cases hindex : bf.index ≤ bf.count
  · have hbuffer : bf.bufferSize = 0 := by omega
    have hbefore : bf.lastUnreadFilePos < bf.fileSize := by omega
    have hcountle := h.count_le_size
    have hlast := lastUnreadFilePos_of_empty h (by omega)
    have hEof : bf.atEof = false := by
      by_contra hne
      have := (h.atEof_imp (by simpa using hne)).2
      omega
    obtain ⟨bf'', hloop, hpos⟩ := getBytesLoop_noBuffer h hbuffer hEof hnum
    rw [hloop] at hcall
    obtain ⟨-, rfl⟩ := Prod.mk.inj (Option.some.inj hcall)
    rw [hpos]
    show _ ≠ ((bf.lastUnreadFilePos.toNat +
      ((bf.file.content.drop bf.lastUnreadFilePos.toNat).take num).length : ℕ) : ℤ)
    rw [List.length_take, List.length_drop]
    omega
  · have hEof : bf.atEof = false := by
      by_contra hne
      have hcount := (h.atEof_imp (by simpa using hne)).1
      have := h.index_eq hcount
      omega
    have hneg : bf.numToRead num < 0 := by
      rw [numToRead, if_pos (by omega)]
      omega
    rw [getBytesLoop, dif_pos ⟨hEof, hnum⟩, dif_pos hneg] at hcall
    exact absurd hcall (by simp)

/-- The seek of a read that is not buffered goes to the position. -/
theorem getBytes_unbuffered (h : bf.Inv) : bf.getBytes num false = some ((bf.cursor.read num).1,
      { bf with file := (bf.cursor.read num).2, count := 0, index := 0 }) := by
  have htarget : bf.file.target (-(bf.count - bf.index)) .seekCur = bf.lastUnreadFilePos := by
    rw [OsFile.target, ← h.pos_eq, lastUnreadFilePos]
    omega
  have hseek : (bf.file.seek (-(bf.count - bf.index)) .seekCur).2 = bf.cursor := by
    rw [OsFile.seek, htarget, if_pos h.isPosition]
    rfl
  rw [getBytes, if_neg (by simp)]
  simp only [hseek]

theorem getBytesFalse_agrees (h : bf.Inv) (hok : bf.StepOk (.getBytes num false)) :
    bf.Agrees (.getBytes num false) := by
  have hread : (((bf.cursor.read num).1.length : ℕ) : ℤ) = bf.count - bf.index := hok
  have hpos : bf.filePos = ((bf.cursor.pos + (bf.cursor.read num).1.length : ℕ) : ℤ) := by
    rw [Nat.cast_add, cursor_pos h, hread, lastUnreadFilePos]
    omega
  have hcall : bf.call (.getBytes num false) = some (.bytes (bf.cursor.read num).1,
      { bf with file := (bf.cursor.read num).2, count := 0, index := 0 }) := by
    rw [call, getBytes_unbuffered h, Option.map_some]
  refine ⟨_, _, hcall, ?_, ?_⟩
  · have htoNat : (bf.filePos - (0 - 0)).toNat =
        bf.cursor.pos + (bf.cursor.read num).1.length := by omega
    show (Result.bytes (bf.cursor.read num).1, (bf.cursor.read num).2) =
      (Result.bytes (bf.cursor.read num).1,
        { (bf.cursor.read num).2 with pos := (bf.filePos - (0 - 0)).toNat })
    rw [htoNat]
    rfl
  · have hflushed := h.flushed bf.atEof (hpos ▸ h.filePos_lt)
      (fun hEof => hpos ▸ (h.atEof_imp hEof).2)
    rw [← hpos] at hflushed
    exact hflushed

theorem getBytesFalse_disagrees (h : bf.Inv) (hok : ¬ bf.StepOk (.getBytes num false)) :
    bf.Disagrees (.getBytes num false) := by
  have hread : ¬ ((((bf.cursor.read num).1.length : ℕ) : ℤ) = bf.count - bf.index) := hok
  intro result bf' hcall
  rw [call, getBytes_unbuffered h] at hcall
  obtain ⟨-, rfl⟩ := Prod.mk.inj (Option.some.inj hcall)
  show bf.filePos - (0 - 0) ≠ ((bf.cursor.pos + (bf.cursor.read num).1.length : ℕ) : ℤ)
  rw [Nat.cast_add, cursor_pos h, lastUnreadFilePos]
  omega

end GetBytes

/-! ## Sequences of calls -/

/-- **Step lemma**: a call that meets its condition agrees with the plain file. -/
theorem call_agrees (h : bf.Inv) {c : Call} (hok : bf.StepOk c) : bf.Agrees c := by
  match c with
  | .seek _ .seekSet => exact seekSet_agrees h hok
  | .seek _ .seekCur => exact seekCur_agrees h hok
  | .seek _ .seekEnd => exact seekEnd_agrees h hok
  | .getBytes _ true => exact getBytesTrue_agrees h hok
  | .getBytes _ false => exact getBytesFalse_agrees h hok

/-- **Step lemma**: any other call does not. -/
theorem call_disagrees (h : bf.Inv) {c : Call} (hok : ¬ bf.StepOk c) : bf.Disagrees c := by
  match c with
  | .seek _ .seekSet => exact seekSet_disagrees h hok
  | .seek _ .seekCur => exact seekCur_disagrees h hok
  | .seek _ .seekEnd => exact seekEnd_disagrees h hok
  | .getBytes _ true => exact getBytesTrue_disagrees h hok
  | .getBytes _ false => exact getBytesFalse_disagrees h hok

/-- Every call of a sequence meets its condition, in the state in which it is made. -/
def RunOk (bf : BufferedFile) : List Call → Prop
  | [] => True
  | c :: calls => bf.StepOk c ∧
    ∀ result bf', bf.call c = some (result, bf') → RunOk bf' calls

/-- **Run lemma**: the two files return the same as long as the calls meet their conditions. -/
theorem trace_eq_cursor_trace_iff (h : bf.Inv) (calls : List Call) :
    bf.trace calls = bf.cursor.trace calls ↔ bf.RunOk calls := by
  induction calls generalizing bf with
  | nil => simp [trace, OsFile.trace, RunOk]
  | cons c calls ih =>
    by_cases hok : bf.StepOk c
    · obtain ⟨result, bf', hcall, hcursor, hinv⟩ := call_agrees h hok
      have hrun : bf.RunOk (c :: calls) ↔ bf'.RunOk calls := by
        simp only [RunOk, hok, true_and, hcall, Option.some.injEq, Prod.mk.injEq]
        constructor
        · intro hall
          exact hall result bf' ⟨rfl, rfl⟩
        · rintro hall _ _ ⟨rfl, rfl⟩
          exact hall
      rw [hrun, ← ih hinv, trace, OsFile.trace, hcall, hcursor]
      simp only [cursor_pos hinv, List.cons.injEq, true_and]
    · have hrun : ¬ bf.RunOk (c :: calls) := fun hrun => hok hrun.1
      refine iff_of_false ?_ hrun
      rw [trace, OsFile.trace]
      cases hcall : bf.call c with
      | none => simp
      | some out =>
        obtain ⟨result, bf'⟩ := out
        intro heq
        have hpos := (Prod.mk.inj (List.cons.inj heq).1).2
        exact call_disagrees h hok result bf' hcall hpos

/-- **Main theorem**: on a file that has just been opened, a sequence of calls returns the same
bytes, counts and positions as on a plain file exactly when every call meets its
condition. -/
theorem trace_eq_iff (file : OsFile) (dataBuffer : List UInt8) (calls : List Call) :
    (openFile file dataBuffer).trace calls = OsFile.trace { file with pos := 0 } calls ↔
      (openFile file dataBuffer).RunOk calls :=
  trace_eq_cursor_trace_iff (inv_openFile file dataBuffer) calls

/-- A relative seek in a file that has just been opened is forgotten. -/
theorem trace_seekCur_ne :
    (openFile ⟨[10, 11, 12], 0, by decide⟩ [0, 0]).trace [.seek 1 .seekCur, .getBytes 1 true] =
      [(.status 0, 0), (.bytes [10], 1)] ∧
    OsFile.trace ⟨[10, 11, 12], 0, by decide⟩ [.seek 1 .seekCur, .getBytes 1 true] =
      [(.status 0, 1), (.bytes [11], 2)] := by
  constructor
  · simp [openFile, trace, call, seek, seekFile, OsFile.seek, OsFile.target, IsPosition,
      getBytes, lastUnreadFilePos]
    rw [getBytesLoop]
    simp [turn, copy, numToRead, refillBuffer, OsFile.seek, OsFile.target, OsFile.read,
      IsPosition, jint, sizeT, Int.bmod]
    rw [getBytesLoop]
    simp [turn, copy, numToRead]
    rw [getBytesLoop]
    simp
  · decide

end BufferedFile

end CldcVm.Files
