import CldcVm.Files.Refinement
import CldcVm.Jar.FindEntry

/-!
# The end of the central directory

Model of `JarFileParser::find_end_of_central_header` (`runtime/JarFileParser.cpp`, lines
408–519), on the buffered file it reads from. The search goes backwards through the file, with a
window of at most `TMPBUFFERSIZE` bytes in a static buffer; a read outside the bytes of the
window is an error here.

Results:

* `findEndOfCentralHeader_iff`: the search stays in its window, and finds the last end record
  of the part of the file it searches, exactly when no refill is too short.
-/

namespace CldcVm.Jar

open Files

/-! ## Headers -/

/-- `ENDHDRSIZ`, `LOCHDRSIZ` and `TMPBUFFERSIZE`. -/
def endHdrSiz : ℤ := 22

def locHdrSiz : ℤ := 30

def tmpBufferSize : ℕ := 64

/-- An access outside the bytes of the window, or a `memcpy` of a negative size. -/
inductive SearchError
  | outOfWindow
  | badCopy
deriving DecidableEq, Repr

/-- `bp[n]`, for a `bp` in the window. -/
def chAt (window : Bytes) (i : ℤ) : Except SearchError ℕ :=
  if 0 ≤ i ∧ i < window.length then .ok (ch window i.toNat) else .error .outOfWindow

/-- `SH(bp, n)`. -/
def shAt (window : Bytes) (i : ℤ) : Except SearchError ℕ := do
  let low ← chAt window i
  let high ← chAt window (i + 1)
  pure (low + 2 ^ 8 * high)

/-- `LG(bp, n)`. -/
def lgAt (window : Bytes) (i : ℤ) : Except SearchError ℕ := do
  let low ← shAt window i
  let high ← shAt window (i + 2)
  pure (low + 2 ^ 16 * high)

/-- `seek`, and `get_bytes` of `num` bytes: no bytes where one of the two fails. -/
def readAt (bf : BufferedFile) (offset : ℤ) (origin : Origin) (num : ℕ) :
    Except SearchError (Option Bytes × BufferedFile) :=
  if (bf.seek offset origin).1 < 0 then .ok (none, (bf.seek offset origin).2)
  else
    match (bf.seek offset origin).2.getBytes num true with
    | none => .error .badCopy
    | some (bytes, bf') => .ok (if bytes.length = num then some bytes else none, bf')

/-! ## The search -/

/-- The fields of `raw_current_entry` that are set; `nextCenOffset` is `cenOffset`. -/
structure CentralHeader where
  cenOffset : ℤ
  locOffset : ℤ
deriving DecidableEq, Repr

/-- The header is found at `endpos`; the entry is set where a local header is found, too. -/
structure Found where
  endpos : ℤ
  entry : Option CentralHeader
deriving DecidableEq, Repr

/-- The variables of the loop; `bp` stands for `bp - buffer`. -/
structure HeaderSearch where
  bf : BufferedFile
  window : Bytes
  currentOffset : ℤ
  bp : ℤ

/-- What one turn of the loop does. -/
inductive Turn
  | found (result : Found)
  | giveUp
  | next (st : HeaderSearch)

/-- `minOffset` (lines 419–422). -/
def minOffset (length : ℤ) : ℤ :=
  if length - (0xFFFF + endHdrSiz) < locHdrSiz + cenHdrSiz then locHdrSiz + cenHdrSiz
  else length - (0xFFFF + endHdrSiz)

/-- How far the `switch` moves `bp` back (lines 449–491). -/
def skip (c : ℕ) : ℤ :=
  if c = 6 then 3 else if c = 5 then 2 else if c = 0x4B then 1 else 4

/-- `bp[1] == 'K' && bp[2] == 5 && bp[3] == 6`. -/
def signatureAt (window : Bytes) (bp : ℤ) : Except SearchError Bool := do
  let c1 ← chAt window (bp + 1)
  if c1 ≠ 0x4B then pure false
  else
    let c2 ← chAt window (bp + 2)
    if c2 ≠ 5 then pure false
    else
      let c3 ← chAt window (bp + 3)
      pure (c3 == 6)

/-- The tests of the case `'P'` (lines 458–464): `endpos + ENDHDRSIZ + ENDCOM(bp) == length`. -/
def lengthAt (length : ℤ) (st : HeaderSearch) : Except SearchError Bool := do
  let com ← shAt st.window (st.bp + 20)
  pure (Files.jint (Files.jint (st.currentOffset + st.bp) + endHdrSiz + com) == length)

/-- Whether `bp`, with `bp[0]` the character `c`, is the end header. -/
def headerAt (length : ℤ) (c : ℕ) (st : HeaderSearch) : Except SearchError Bool :=
  if c = 0x50 then do
    let signature ← signatureAt st.window st.bp
    if signature then lengthAt length st else pure false
  else pure false

/-- Lines 465–484: the header is found. -/
def localHeader (st : HeaderSearch) : Except SearchError Found := do
  let endpos := Files.jint (st.currentOffset + st.bp)
  let siz ← lgAt st.window (st.bp + 12)
  let off ← lgAt st.window (st.bp + 16)
  let cenOffset := Files.jint (endpos - siz)
  let locOffset := Files.jint (cenOffset - off)
  let (sig, _) ← readAt st.bf locOffset .seekSet 4
  pure ⟨endpos, if sig = some [0x50, 0x4B, 3, 4] then some ⟨cenOffset, locOffset⟩ else none⟩

/-- `count` of a refill, for `left` bytes that are left in the file (lines 496–507). -/
def refillCount (left bp : ℤ) : ℤ :=
  if left > tmpBufferSize - endHdrSiz + -bp then tmpBufferSize - endHdrSiz + -bp else left

/-- The refill (lines 509–516). -/
def refill (count : ℤ) (st : HeaderSearch) : Except SearchError Turn := do
  let (bytes, bf) ← readAt st.bf (st.currentOffset - count) .seekSet count.toNat
  match bytes with
  | none => pure .giveUp
  | some bytes =>
    pure (.next
      { bf := bf
        window := (bytes ++ st.window).take tmpBufferSize
        currentOffset := st.currentOffset - count
        bp := st.bp + count })

/-- Lines 493–517: the window moves back where `bp` has left it. -/
def moveBack (minOffset : ℤ) (st : HeaderSearch) : Except SearchError Turn :=
  if st.bp < 0 then
    if st.currentOffset - minOffset ≤ 0 then .ok .giveUp
    else refill (refillCount (st.currentOffset - minOffset) st.bp) st
  else .ok (.next st)

/-- One turn of the loop. -/
def step (length minOffset : ℤ) (st : HeaderSearch) : Except SearchError Turn := do
  let c ← chAt st.window st.bp
  let header ← headerAt length c st
  if header then
    let found ← localHeader st
    pure (.found found)
  else moveBack minOffset { st with bp := st.bp - skip c }

/-! ## The loop ends -/

theorem bind_eq_ok {α β : Type} {x : Except SearchError α} {f : α → Except SearchError β}
    {b : β} : (x >>= f) = .ok b ↔ ∃ a, x = .ok a ∧ f a = .ok b := by
  cases x with
  | error e => simp [bind, Except.bind]
  | ok a => simp [bind, Except.bind]

theorem skip_pos (c : ℕ) : 0 < skip c := by
  unfold skip
  split_ifs <;> omega

theorem skip_le (c : ℕ) : skip c ≤ 4 := by
  unfold skip
  split_ifs <;> omega

theorem chAt_bounds {window : Bytes} {i : ℤ} {c : ℕ} (h : chAt window i = .ok c) :
    0 ≤ i ∧ i < window.length := by
  unfold chAt at h
  split_ifs at h with hi
  exact hi

theorem refillCount_pos {left bp : ℤ} (hleft : 0 < left) (hbp : bp < 0) :
    0 < refillCount left bp := by
  unfold refillCount tmpBufferSize endHdrSiz
  split_ifs <;> omega

theorem refill_next {count : ℤ} {st st' : HeaderSearch} (h : refill count st = .ok (.next st')) :
    st'.currentOffset = st.currentOffset - count := by
  obtain ⟨⟨bytes, bf⟩, -, h⟩ := bind_eq_ok.mp h
  match bytes with
  | none => cases h
  | some bytes =>
    cases h
    rfl

/-- A turn that goes on has moved the window back, or `bp` in it. -/
theorem step_lt {length minOffset : ℤ} {st st' : HeaderSearch}
    (h : step length minOffset st = .ok (.next st')) :
    Prod.Lex (· < ·) (· < ·) ((st'.currentOffset - minOffset).toNat, st'.bp.toNat)
      ((st.currentOffset - minOffset).toNat, st.bp.toNat) := by
  obtain ⟨c, hc, h⟩ := bind_eq_ok.mp h
  obtain ⟨header, -, h⟩ := bind_eq_ok.mp h
  have hbp := chAt_bounds hc
  have hskip := skip_pos c
  split_ifs at h
  · obtain ⟨found, -, h⟩ := bind_eq_ok.mp h
    cases h
  · unfold moveBack at h
    simp only at h
    split_ifs at h with hleaves hleft
    · cases h
    · have hoffset := refill_next h
      have hcount := refillCount_pos (not_le.mp hleft) hleaves
      simp only at hoffset hcount
      exact Prod.Lex.left _ _ (by omega)
    · cases h
      exact Prod.Lex.right _ (by simp only; omega)

/-- The `for` loop of `find_end_of_central_header`. -/
def searchLoop (length minOffset : ℤ) (st : HeaderSearch) : Except SearchError (Option Found) :=
  match _hstep : step length minOffset st with
  | .error e => .error e
  | .ok (.found result) => .ok (some result)
  | .ok .giveUp => .ok none
  | .ok (.next st') => searchLoop length minOffset st'
termination_by ((st.currentOffset - minOffset).toNat, st.bp.toNat)
decreasing_by exact step_lt _hstep

/-- `find_end_of_central_header`. -/
def findEndOfCentralHeader (bf : BufferedFile) : Except SearchError (Option Found) := do
  let length := Files.jint bf.fileSize
  let (bytes, bf) ← readAt bf (-endHdrSiz) .seekEnd endHdrSiz.toNat
  match bytes with
  | none => pure none
  | some bytes => searchLoop length (minOffset length) ⟨bf, bytes, length - endHdrSiz, 0⟩

/-! ## Reading the file -/

section Reading

variable {bf : BufferedFile}

theorem seek_bufferSize (bf : BufferedFile) (offset : ℤ) (origin : Origin) :
    (bf.seek offset origin).2.bufferSize = bf.bufferSize := by
  unfold BufferedFile.seek
  cases origin <;> simp only <;> split_ifs <;> rfl

theorem refillBuffer_bufferSize (bf : BufferedFile) :
    bf.refillBuffer.bufferSize = bf.bufferSize := by
  unfold BufferedFile.refillBuffer
  split <;> rfl

theorem turn_bufferSize (bf : BufferedFile) (num : ℕ) :
    (bf.turn num).bufferSize = bf.bufferSize := by
  unfold BufferedFile.turn
  split
  · exact refillBuffer_bufferSize _
  · rfl

theorem getBytesLoop_bufferSize {num : ℕ} {bytes : Bytes} {bf' : BufferedFile}
    (h : bf.getBytesLoop num = some (bytes, bf')) : bf'.bufferSize = bf.bufferSize := by
  induction bf, num using BufferedFile.getBytesLoop.induct generalizing bytes bf' with
  | case1 bf num hmore hneg =>
    rw [BufferedFile.getBytesLoop, dif_pos hmore, dif_pos hneg] at h
    cases h
  | case2 bf num hmore hneg ih =>
    rw [BufferedFile.getBytesLoop, dif_pos hmore, dif_neg hneg, Option.map_eq_some_iff] at h
    obtain ⟨⟨rest, bf₁⟩, hrest, heq⟩ := h
    obtain ⟨-, rfl⟩ := Prod.mk.inj heq
    rw [ih hrest, turn_bufferSize]
  | case3 bf num hdone =>
    rw [BufferedFile.getBytesLoop_done hdone] at h
    obtain ⟨-, rfl⟩ := Prod.mk.inj (Option.some.inj h)
    rfl

/-- The buffered file is in step with the plain file of these bytes. -/
structure Reads (bf : BufferedFile) (file : Bytes) : Prop where
  inv : bf.Inv
  content : bf.file.content = file
  bufferSize_pos : 0 < bf.bufferSize

theorem Reads.length_lt {file : Bytes} (h : Reads bf file) : (file.length : ℤ) < 2 ^ 31 := by
  have := bf.file.length_lt
  rw [h.content] at this
  exact_mod_cast this

theorem Reads.fileSize {file : Bytes} (h : Reads bf file) : bf.fileSize = file.length := by
  rw [h.inv.fileSize_eq, h.content]

variable {offset : ℤ}

/-- A read after a seek that has gone to `pos`. -/
theorem readAt_of_seek {file : Bytes} (h : Reads bf file) {origin : Origin}
    (num : ℕ) {bf' : BufferedFile} {pos : ℕ} (hseek : bf.seek offset origin = (0, bf'))
    (hinv : bf'.Inv) (hcursor : bf'.cursor = { bf.file with pos := pos })
    (hindex : bf'.index ≤ bf'.count) :
    ∃ bf'', readAt bf offset origin num =
        .ok (if (getBytes file pos num).length = num then some (getBytes file pos num) else none,
          bf'') ∧ Reads bf'' file := by
  have hsize : bf'.bufferSize = bf.bufferSize := by
    have := seek_bufferSize bf offset origin
    rwa [hseek] at this
  have hpos := h.bufferSize_pos
  obtain ⟨bf'', hloop, hcursor', hinv'⟩ :=
    BufferedFile.getBytesLoop_spec num hinv hindex (.inl (by omega))
  have hbytes : (bf'.cursor.read num).1 = getBytes file pos num := by
    rw [hcursor, ← h.content]
    rfl
  have hcontent : bf''.file.content = file := by
    have : bf''.cursor.content = bf'.cursor.content := by rw [hcursor']; rfl
    rw [← h.content]
    rw [hcursor] at this
    exact this
  refine ⟨bf'', ?_, hinv', hcontent, ?_⟩
  · rw [readAt, hseek, if_neg (by simp)]
    simp only [BufferedFile.getBytes, if_true, hloop, hbytes]
  · rw [getBytesLoop_bufferSize hloop]
    omega

/-- `seek(offset, SEEK_SET)` and a read, at a position of the file. -/
theorem readAt_set {file : Bytes} (h : Reads bf file) (num : ℕ) (hoffset : IsPosition offset) :
    ∃ bf', readAt bf offset .seekSet num =
        .ok (if (getBytes file offset.toNat num).length = num then
          some (getBytes file offset.toNat num) else none, bf') ∧ Reads bf' file := by
  by_cases hin : bf.count > 0 ∧ offset ≥ bf.filePos - bf.count ∧ offset < bf.filePos
  · have hseek : bf.seek offset .seekSet =
        (0, { bf with index := bf.count - (bf.filePos - offset) }) := if_pos hin
    have hback : bf.filePos - (bf.count - (bf.count - (bf.filePos - offset))) = offset := by omega
    refine readAt_of_seek h num hseek (h.inv.setIndex ?_ ?_ ?_) ?_ ?_
    · omega
    · omega
    · rw [hback]
      exact hoffset.2
    · unfold BufferedFile.cursor BufferedFile.lastUnreadFilePos
      simp only [hback]
    · simp only
      omega
  · have hout : bf.seek offset .seekSet = bf.seekFile offset .seekSet offset := if_neg hin
    have hspec : (bf.seekFile offset .seekSet offset).1 = 0 ∧
        (bf.seekFile offset .seekSet offset).2.Inv ∧
        (bf.seekFile offset .seekSet offset).2.cursor = { bf.file with pos := offset.toNat } :=
      BufferedFile.seekFile_spec h.inv hoffset
    have hseek : bf.seek offset .seekSet = (0, (bf.seekFile offset .seekSet offset).2) :=
      hout.trans (Prod.ext hspec.1 rfl)
    exact readAt_of_seek h num hseek hspec.2.1 hspec.2.2 le_rfl

theorem readAt_neg {file : Bytes} (h : Reads bf file) (num : ℕ)
    (hoffset : offset < 0) : ∃ bf', readAt bf offset .seekSet num = .ok (none, bf') := by
  have hcount := h.inv.count_le
  have hout : bf.seek offset .seekSet = bf.seekFile offset .seekSet offset :=
    if_neg (fun hin => by omega)
  have hfail : bf.file.seek offset .seekSet = (-1, bf.file) := by
    apply if_neg
    rintro ⟨hnonneg, -⟩
    change 0 ≤ offset at hnonneg
    omega
  refine ⟨(bf.seek offset .seekSet).2, if_pos ?_⟩
  rw [hout, BufferedFile.seekFile, hfail]
  show (-1 : ℤ) < 0
  decide

/-- A read at any offset with a sign bit or without ends without a crash. -/
theorem readAt_jint {file : Bytes} (h : Reads bf file) (x : ℤ) (num : ℕ) :
    ∃ result, readAt bf (Files.jint x) .seekSet num = .ok result := by
  rcases lt_or_ge (Files.jint x) 0 with hneg | hnonneg
  · obtain ⟨bf', hread⟩ := readAt_neg h num hneg
    exact ⟨_, hread⟩
  · have hlt : Files.jint x < 2 ^ 31 := by
      unfold Files.jint
      have := @Int.bmod_lt x (2 ^ 32) (by norm_num)
      omega
    obtain ⟨bf', hread, -⟩ := readAt_set h num ⟨hnonneg, hlt⟩
    exact ⟨_, hread⟩

theorem readAt_end {file : Bytes} (h : Reads bf file) (hlength : endHdrSiz ≤ file.length) :
    ∃ bf', readAt bf (-endHdrSiz) .seekEnd endHdrSiz.toNat =
        .ok (some (file.drop (file.length - 22)), bf') ∧ Reads bf' file := by
  have hsize := h.fileSize
  have hlt := h.length_lt
  have hcontent : (bf.file.content.length : ℤ) = file.length := by rw [h.content]
  unfold endHdrSiz at hlength ⊢
  have hposition : IsPosition (bf.fileSize + -22) := ⟨by omega, by omega⟩
  have hjint : Files.jint (bf.fileSize + -22) = bf.fileSize + -22 := Files.jint_isPosition hposition
  have hpos : (bf.fileSize + -22).toNat = file.length - 22 := by omega
  have hbytes : getBytes file (file.length - 22) 22 = file.drop (file.length - 22) := by
    apply List.take_of_length_le
    rw [List.length_drop]
    omega
  have hnum : (getBytes file (file.length - 22) 22).length = 22 := by
    rw [hbytes, List.length_drop]
    omega
  obtain ⟨bf', hread, hreads⟩ : ∃ bf', readAt bf (-22) .seekEnd 22 =
      .ok (if (getBytes file (file.length - 22) 22).length = 22 then
        some (getBytes file (file.length - 22) 22) else none, bf') ∧ Reads bf' file := by
    by_cases hin : bf.count > 0 ∧ bf.count = bf.fileSize ∧ Files.jint (bf.count + -22) ≥ 0
    · have hseek : bf.seek (-22) .seekEnd =
          (0, { bf with index := Files.jint (bf.count + -22) }) := if_pos hin
      have hle := h.inv.filePos_le hin.1
      have hcount := h.inv.count_le
      have hindex : Files.jint (bf.count + -22) = bf.count - 22 := by
        rw [hin.2.1, hjint]
        rfl
      rw [hindex] at hseek
      refine readAt_of_seek h 22 hseek (h.inv.setIndex ?_ ?_ ?_) ?_ ?_
      · omega
      · omega
      · omega
      · unfold BufferedFile.cursor BufferedFile.lastUnreadFilePos
        simp only
        congr 1
        omega
      · simp only
        omega
    · have hout : bf.seek (-22) .seekEnd =
          bf.seekFile (-22) .seekEnd (Files.jint (bf.fileSize + -22)) := if_neg hin
      have htarget : bf.file.target (-22) .seekEnd = bf.fileSize + -22 := by
        show (bf.file.content.length : ℤ) + -22 = _
        omega
      have hspec := BufferedFile.seekFile_spec h.inv (htarget ▸ hposition)
      rw [htarget, hpos] at hspec
      rw [hjint] at hout
      have hseek : bf.seek (-22) .seekEnd =
          (0, (bf.seekFile (-22) .seekEnd (bf.fileSize + -22)).2) :=
        hout.trans (Prod.ext hspec.1 rfl)
      exact readAt_of_seek h 22 hseek hspec.2.1 hspec.2.2 le_rfl
  rw [if_pos hnum, hbytes] at hread
  exact ⟨bf', hread, hreads⟩

theorem readAt_end_short {file : Bytes} (h : Reads bf file)
    (hlength : (file.length : ℤ) < endHdrSiz) (num : ℕ) :
    ∃ bf', readAt bf (-endHdrSiz) .seekEnd num = .ok (none, bf') := by
  have hsize := h.fileSize
  have hcontent : (bf.file.content.length : ℤ) = file.length := by rw [h.content]
  unfold endHdrSiz at hlength ⊢
  have hneg : Files.jint (bf.fileSize + -22) < 0 := by
    rw [Files.jint_eq (by omega) (by omega)]
    omega
  have hout : bf.seek (-22) .seekEnd =
      bf.seekFile (-22) .seekEnd (Files.jint (bf.fileSize + -22)) := by
    apply if_neg
    rintro ⟨-, hcount, hnonneg⟩
    rw [hcount] at hnonneg
    omega
  have hfail : bf.file.seek (-22) .seekEnd = (-1, bf.file) := by
    apply if_neg
    rintro ⟨hnonneg, -⟩
    change 0 ≤ (bf.file.content.length : ℤ) + -22 at hnonneg
    omega
  refine ⟨(bf.seek (-22) .seekEnd).2, if_pos ?_⟩
  rw [hout, BufferedFile.seekFile, hfail]
  show (-1 : ℤ) < 0
  decide

end Reading

/-! ## End records of a file -/

/-- The file has an end record at `s`: the signature, and a comment that ends with the file. -/
def EndRecordAt (file : Bytes) (s : ℕ) : Prop :=
  ch file s = 0x50 ∧ ch file (s + 1) = 0x4B ∧ ch file (s + 2) = 5 ∧ ch file (s + 3) = 6 ∧
    s + 22 + sh file (s + 20) = file.length

instance (file : Bytes) (s : ℕ) : Decidable (EndRecordAt file s) :=
  inferInstanceAs (Decidable (_ ∧ _))

/-- The tail that is searched: from `minOffset` on, and the place of a record without a
comment in any case. -/
def Searched (file : Bytes) (s : ℕ) : Prop :=
  minOffset file.length ≤ s ∨ s + 22 = file.length

theorem EndRecordAt.le {file : Bytes} {s : ℕ} (h : EndRecordAt file s) : s + 22 ≤ file.length := by
  have := h.2.2.2.2
  omega

theorem not_endRecordAt_of_skip {file : Bytes} {s r : ℕ} (hlt : r < s)
    (hskip : (s : ℤ) - skip (ch file s) < r) : ¬ EndRecordAt file r := by
  rintro ⟨h0, h1, h2, h3, -⟩
  -- the byte at `s` is one of the last three of the signature
  obtain rfl | rfl | rfl : s = r + 1 ∨ s = r + 2 ∨ s = r + 3 := by
    have := skip_le (ch file s)
    omega
  · rw [h1] at hskip
    simp [skip] at hskip
  · rw [h2] at hskip
    simp [skip] at hskip
  · rw [h3] at hskip
    simp [skip] at hskip

/-! ## One turn of the loop -/

/-- The window holds the bytes of the file from `currentOffset` on, and all of the header at
`bp` where `bp` is in the window. -/
structure WindowOk (file : Bytes) (st : HeaderSearch) : Prop where
  reads : Reads st.bf file
  offset_nonneg : 0 ≤ st.currentOffset
  window_eq : st.window = (file.drop st.currentOffset.toNat).take st.window.length
  length_le : st.currentOffset + st.window.length ≤ file.length
  length_ge : 22 ≤ st.window.length
  record_le : st.bp + 22 ≤ st.window.length

section Turn

variable {file : Bytes} {st : HeaderSearch}

theorem WindowOk.chAt (h : WindowOk file st) {i : ℤ} (hi : 0 ≤ i) (hlt : i < st.window.length) :
    chAt st.window i = .ok (ch file (st.currentOffset + i).toNat) := by
  have hoffset := h.offset_nonneg
  rw [Jar.chAt, if_pos ⟨hi, hlt⟩]
  congr 1
  unfold ch
  rw [h.window_eq, List.getD_eq_getElem?_getD, List.getElem?_take, if_pos (by omega),
    List.getElem?_drop, ← List.getD_eq_getElem?_getD]
  congr 2
  omega

/-- The place of `bp` in the file. -/
def HeaderSearch.place (st : HeaderSearch) : ℤ := st.currentOffset + st.bp

variable (h : WindowOk file st) (hbp : 0 ≤ st.bp)

include h hbp

variable {n : ℕ}

theorem WindowOk.field (hn : n < 22) :
    Jar.chAt st.window (st.bp + n) = .ok (ch file (st.place.toNat + n)) := by
  have := h.record_le
  have := h.offset_nonneg
  rw [h.chAt (by omega) (by omega)]
  congr 2
  unfold HeaderSearch.place
  omega

theorem WindowOk.shField (hn : n + 1 < 22) :
    shAt st.window (st.bp + n) = .ok (sh file (st.place.toNat + n)) := by
  have h1 := h.field hbp (show n < 22 by omega)
  have h2 := h.field hbp hn
  rw [Nat.cast_add, Nat.cast_one, ← add_assoc] at h2
  unfold shAt sh
  rw [h1, h2]
  rfl

theorem WindowOk.lgField (hn : n + 3 < 22) :
    lgAt st.window (st.bp + n) = .ok (lg file (st.place.toNat + n)) := by
  have h1 := h.shField hbp (show n + 1 < 22 by omega)
  have h2 := h.shField hbp (show n + 2 + 1 < 22 by omega)
  rw [Nat.cast_add, Nat.cast_ofNat, ← add_assoc] at h2
  unfold lgAt lg
  rw [h1, h2]
  rfl

theorem WindowOk.place_bounds : 0 ≤ st.place ∧ st.place + 22 ≤ file.length := by
  have := h.record_le
  have := h.offset_nonneg
  have := h.length_le
  unfold HeaderSearch.place
  omega

/-- The offset in the file that `endpos` holds. -/
theorem endpos_eq : Files.jint (st.currentOffset + st.bp) = st.place := by
  obtain ⟨hplace, hend⟩ := h.place_bounds hbp
  have hlt := h.reads.length_lt
  change Files.jint st.place = _
  exact Files.jint_isPosition ⟨hplace, by omega⟩

/-- **Spec lemma** of the tests of a turn. -/
theorem headerAt_eq : headerAt file.length (ch file st.place.toNat) st =
      .ok (decide (EndRecordAt file st.place.toNat)) := by
  obtain ⟨hplace, hend⟩ := h.place_bounds hbp
  have hlt := h.reads.length_lt
  have h1 := h.field hbp (show 1 < 22 by omega)
  have h2 := h.field hbp (show 2 < 22 by omega)
  have h3 := h.field hbp (show 3 < 22 by omega)
  have hcom := h.shField hbp (show 20 + 1 < 22 by omega)
  have hsh : sh file (st.place.toNat + 20) < 2 ^ 16 := by
    unfold sh ch
    have := (file.getD (st.place.toNat + 20) 0).toNat_lt
    have := (file.getD (st.place.toNat + 20 + 1) 0).toNat_lt
    omega
  have hjint : Files.jint (Files.jint (st.currentOffset + st.bp) + endHdrSiz +
      sh file (st.place.toNat + 20)) = file.length ↔
      st.place.toNat + 22 + sh file (st.place.toNat + 20) = file.length := by
    rw [endpos_eq h hbp]
    unfold Files.jint endHdrSiz
    rw [Int.bmod_def]
    split_ifs <;> omega
  unfold headerAt signatureAt lengthAt EndRecordAt
  rw [show st.bp + 1 = st.bp + (1 : ℕ) from rfl, show st.bp + 2 = st.bp + (2 : ℕ) from rfl,
    show st.bp + 3 = st.bp + (3 : ℕ) from rfl, show st.bp + 20 = st.bp + (20 : ℕ) from rfl,
    h1, h2, h3, hcom]
  simp only [bind, Except.bind, pure, Except.pure]
  have hlength : (Files.jint (Files.jint (st.currentOffset + st.bp) + endHdrSiz +
      sh file (st.place.toNat + 20)) == (file.length : ℤ)) =
      decide (st.place.toNat + 22 + sh file (st.place.toNat + 20) = file.length) := by
    rw [Bool.eq_iff_iff, beq_iff_eq, hjint, decide_eq_true_iff]
  by_cases h6 : ch file (st.place.toNat + 3) = 6 <;> split_ifs <;> simp_all

theorem localHeader_spec : ∃ entry, localHeader st = .ok ⟨st.place, entry⟩ := by
  have hsiz := h.lgField hbp (show 12 + 3 < 22 by omega)
  have hoff := h.lgField hbp (show 16 + 3 < 22 by omega)
  obtain ⟨⟨sig, bf'⟩, hread⟩ := readAt_jint h.reads
    (Files.jint (st.place - lg file (st.place.toNat + 12)) - lg file (st.place.toNat + 16)) 4
  refine ⟨if sig = some [0x50, 0x4B, 3, 4] then
    some ⟨Files.jint (st.place - lg file (st.place.toNat + 12)),
      Files.jint (Files.jint (st.place - lg file (st.place.toNat + 12)) -
        lg file (st.place.toNat + 16))⟩
    else none, ?_⟩
  unfold localHeader
  rw [show st.bp + 12 = st.bp + (12 : ℕ) from rfl, show st.bp + 16 = st.bp + (16 : ℕ) from rfl,
    hsiz, hoff, endpos_eq h hbp]
  simp only [bind, Except.bind, pure, Except.pure, hread]

theorem step_found {minOffset : ℤ} (hrecord : EndRecordAt file st.place.toNat) :
    ∃ entry, step file.length minOffset st = .ok (.found ⟨st.place, entry⟩) := by
  have hc := h.field hbp (show 0 < 22 by omega)
  have hheader := headerAt_eq h hbp
  rw [Nat.cast_zero, add_zero, Nat.add_zero] at hc
  rw [decide_eq_true hrecord] at hheader
  obtain ⟨entry, hlocal⟩ := localHeader_spec h hbp
  refine ⟨entry, ?_⟩
  unfold step
  rw [hc]
  simp only [bind, Except.bind, pure, Except.pure, hheader, hlocal, if_true]

/-- A turn elsewhere moves `bp` back. -/
theorem step_skip {minOffset : ℤ} (hrecord : ¬ EndRecordAt file st.place.toNat) :
    step file.length minOffset st =
      moveBack minOffset { st with bp := st.bp - skip (ch file st.place.toNat) } := by
  have hc := h.field hbp (show 0 < 22 by omega)
  have hheader := headerAt_eq h hbp
  rw [Nat.cast_zero, add_zero, Nat.add_zero] at hc
  rw [decide_eq_false hrecord] at hheader
  unfold step
  rw [hc]
  simp only [bind, Except.bind, hheader, Bool.false_eq_true, if_false]

end Turn

theorem WindowOk.setBp {file : Bytes} {st : HeaderSearch} (h : WindowOk file st) {bp : ℤ}
    (hbp : bp ≤ st.bp) : WindowOk file { st with bp := bp } :=
  { h with
    record_le := by
      have := h.record_le
      show bp + 22 ≤ (st.window.length : ℤ)
      omega }

theorem refillCount_le {left bp : ℤ} :
    refillCount left bp ≤ left ∧ refillCount left bp ≤ 42 - bp := by
  unfold refillCount tmpBufferSize endHdrSiz
  split_ifs <;> omega

theorem take_append_take (l : Bytes) (w m n : ℕ) :
    (l.drop w).take m ++ (l.drop (w + m)).take n = (l.drop w).take (m + n) := by
  rw [List.take_add, List.drop_drop]

/-- **Step lemma** of the refill: the window moves back, and `bp` stays at its place. -/
theorem refill_spec {file : Bytes} {st : HeaderSearch} (h : WindowOk file st) {left : ℤ}
    (hleft : 0 < left) (hle : left ≤ st.currentOffset) (hbp : st.bp < 0) :
    ∃ st', refill (refillCount left st.bp) st = .ok (.next st') ∧ WindowOk file st' ∧
      st'.currentOffset = st.currentOffset - refillCount left st.bp ∧ st'.place = st.place := by
  obtain ⟨hcount, hroom⟩ := @refillCount_le left st.bp
  have hpos := refillCount_pos hleft hbp
  generalize refillCount left st.bp = count at hcount hroom hpos
  have hlength := h.length_le
  have hlt := h.reads.length_lt
  have hge := h.length_ge
  have hrecord := h.record_le
  obtain ⟨bf', hread, hreads⟩ := readAt_set h.reads count.toNat
    (show IsPosition (st.currentOffset - count) from ⟨by omega, by omega⟩)
  have hnum : (getBytes file (st.currentOffset - count).toNat count.toNat).length =
      count.toNat := by
    unfold getBytes
    rw [List.length_take, List.length_drop]
    omega
  rw [if_pos hnum] at hread
  have hwindow : getBytes file (st.currentOffset - count).toNat count.toNat ++ st.window =
      (file.drop (st.currentOffset - count).toNat).take (count.toNat + st.window.length) := by
    have hnext : st.currentOffset.toNat = (st.currentOffset - count).toNat + count.toNat := by omega
    rw [h.window_eq, hnext, getBytes, take_append_take, ← hnext, ← h.window_eq]
  refine ⟨⟨bf', (getBytes file (st.currentOffset - count).toNat count.toNat ++ st.window).take
    tmpBufferSize, st.currentOffset - count, st.bp + count⟩, ?_, ?_, rfl, ?_⟩
  · unfold refill
    simp only [bind, Except.bind, pure, Except.pure, hread]
  · have hsize : ((getBytes file (st.currentOffset - count).toNat count.toNat ++
        st.window).take tmpBufferSize).length = min 64 (count.toNat + st.window.length) := by
      rw [List.length_take, List.length_append, hnum]
      rfl
    exact {
      reads := hreads
      offset_nonneg := by show 0 ≤ st.currentOffset - count; omega
      window_eq := by
        simp only [hsize]
        rw [hwindow, List.take_take]
        rfl
      length_le := by simp only [hsize]; omega
      length_ge := by simp only [hsize]; omega
      record_le := by simp only [hsize]; omega }
  · unfold HeaderSearch.place
    simp only
    omega

/-! ## The places the search comes to -/

/-- The search comes to the place `s` of the file with a window that begins at `w`. -/
inductive Scans (file : Bytes) : ℤ → ℤ → Prop
  | start : 22 ≤ file.length → Scans file (file.length - 22) (file.length - 22)
  | back {w s : ℤ} : Scans file w s → w ≤ s → ¬ EndRecordAt file s.toNat →
      w ≤ s - skip (ch file s.toNat) → Scans file w (s - skip (ch file s.toNat))
  | refill {w s : ℤ} : Scans file w s → w ≤ s → ¬ EndRecordAt file s.toNat →
      s - skip (ch file s.toNat) < w → minOffset file.length < w →
      Scans file (w - refillCount (w - minOffset file.length) (s - skip (ch file s.toNat) - w))
        (s - skip (ch file s.toNat))

/-- The search leaves a window that begins above `minOffset`, for a place below `minOffset`:
fewer bytes are left to read than `bp` lies before the buffer. -/
def ShortRefill (file : Bytes) (w s : ℤ) : Prop :=
  w ≤ s ∧ ¬ EndRecordAt file s.toNat ∧ minOffset file.length < w ∧
    s - skip (ch file s.toNat) < minOffset file.length

/-- No turn of the search ends in a refill that is too short. -/
def RefillsSuffice (file : Bytes) : Prop := ∀ w s, Scans file w s → ¬ ShortRefill file w s

section Places

variable {file : Bytes} {w s : ℤ}

theorem minOffset_ge (length : ℤ) : 76 ≤ minOffset length := by
  unfold minOffset locHdrSiz cenHdrSiz endHdrSiz
  split_ifs <;> omega

theorem Scans.length_ge (h : Scans file w s) : 22 ≤ file.length := by
  induction h with
  | start hlength => exact hlength
  | back _ _ _ _ ih => exact ih
  | refill _ _ _ _ _ ih => exact ih

/-- A window begins where the search has begun, or not before `minOffset`. -/
theorem Scans.window_ge (h : Scans file w s) :
    minOffset file.length ≤ w ∨ w = file.length - 22 := by
  induction h with
  | start _ => exact .inr rfl
  | back _ _ _ _ ih => exact ih
  | @refill w s _ _ _ _ hleft ih =>
    left
    have := (@refillCount_le (w - minOffset file.length) (s - skip (ch file s.toNat) - w)).1
    omega

theorem Scans.window_nonneg (h : Scans file w s) : 0 ≤ w := by
  have := minOffset_ge file.length
  have := h.length_ge
  rcases h.window_ge with hw | hw <;> omega

theorem passed_skip (hs : 0 ≤ s) (hrecord : ¬ EndRecordAt file s.toNat)
    (hpassed : ∀ r : ℕ, s < r → ¬ EndRecordAt file r) (r : ℕ)
    (hr : s - skip (ch file s.toNat) < r) : ¬ EndRecordAt file r := by
  rcases lt_trichotomy (r : ℤ) s with hlt | heq | hgt
  · exact not_endRecordAt_of_skip (show r < s.toNat by omega) (by omega)
  · rwa [show r = s.toNat by omega]
  · exact hpassed r hgt

/-- **Run lemma**: no record lies behind the place of the search. -/
theorem Scans.passed (h : Scans file w s) : ∀ r : ℕ, s < r → ¬ EndRecordAt file r := by
  induction h with
  | start _ =>
    intro r hr hrecord
    have := hrecord.le
    omega
  | back hscan hin hrecord _ ih =>
    exact passed_skip (by have := hscan.window_nonneg; omega) hrecord ih
  | refill hscan hin hrecord _ _ ih =>
    exact passed_skip (by have := hscan.window_nonneg; omega) hrecord ih

theorem Scans.le (h : Scans file w s) : s ≤ file.length - 22 := by
  induction h with
  | start _ => exact le_rfl
  | @back w s _ _ _ _ ih =>
    have := skip_pos (ch file s.toNat)
    omega
  | @refill w s _ _ _ _ _ ih =>
    have := skip_pos (ch file s.toNat)
    omega

end Places

/-! ## The loop follows the search -/

section Loop

variable {file : Bytes} {st : HeaderSearch}

theorem searchLoop_eq (length minOffset : ℤ) (st : HeaderSearch) : searchLoop length minOffset st =
      match step length minOffset st with
      | .error e => .error e
      | .ok (.found result) => .ok (some result)
      | .ok .giveUp => .ok none
      | .ok (.next st') => searchLoop length minOffset st' := by
  rw [searchLoop]
  split <;> simp_all

/-- **Step lemma**: a turn that stays in the window. -/
theorem step_back (h : WindowOk file st) (hbp : 0 ≤ st.bp)
    (hrecord : ¬ EndRecordAt file st.place.toNat)
    (hin : st.currentOffset ≤ st.place - skip (ch file st.place.toNat)) :
    ∃ st', step file.length (minOffset file.length) st = .ok (.next st') ∧ WindowOk file st' ∧
      st'.currentOffset = st.currentOffset ∧
      st'.place = st.place - skip (ch file st.place.toNat) := by
  have hskip := skip_pos (ch file st.place.toNat)
  refine ⟨{ st with bp := st.bp - skip (ch file st.place.toNat) }, ?_, h.setBp (by omega), rfl, ?_⟩
  · have hplace : st.place = st.currentOffset + st.bp := rfl
    rw [step_skip h hbp hrecord, moveBack, if_neg]
    simp only
    omega
  · unfold HeaderSearch.place
    simp only
    omega

/-- **Step lemma**: a turn that leaves the window, with bytes left above `minOffset`. -/
theorem step_refill (h : WindowOk file st) (hbp : 0 ≤ st.bp)
    (hrecord : ¬ EndRecordAt file st.place.toNat)
    (hout : st.place - skip (ch file st.place.toNat) < st.currentOffset)
    (hleft : minOffset file.length < st.currentOffset) :
    ∃ st', step file.length (minOffset file.length) st = .ok (.next st') ∧ WindowOk file st' ∧
      st'.currentOffset = st.currentOffset - refillCount (st.currentOffset - minOffset file.length)
        (st.place - skip (ch file st.place.toNat) - st.currentOffset) ∧
      st'.place = st.place - skip (ch file st.place.toNat) := by
  have hskip := skip_pos (ch file st.place.toNat)
  have hmin := minOffset_ge file.length
  have hbp' : st.place - skip (ch file st.place.toNat) - st.currentOffset =
      st.bp - skip (ch file st.place.toNat) := by
    unfold HeaderSearch.place
    omega
  have hneg : st.bp - skip (ch file st.place.toNat) < 0 := by omega
  have hmoved : WindowOk file { st with bp := st.bp - skip (ch file st.place.toNat) } :=
    h.setBp (by omega)
  obtain ⟨st', hrefill, hok, hoffset, hplace⟩ :=
    refill_spec hmoved (show 0 < st.currentOffset - minOffset file.length by omega)
      (by simp only; omega) hneg
  refine ⟨st', ?_, hok, ?_, ?_⟩
  · rw [step_skip h hbp hrecord, moveBack, if_pos hneg, if_neg (by simp only; omega)]
    exact hrefill
  · rw [hoffset, hbp']
  · rw [hplace]
    unfold HeaderSearch.place
    simp only
    omega

/-- **Step lemma**: a turn that leaves the window at `minOffset`. -/
theorem step_giveUp (h : WindowOk file st) (hbp : 0 ≤ st.bp)
    (hrecord : ¬ EndRecordAt file st.place.toNat)
    (hout : st.place - skip (ch file st.place.toNat) < st.currentOffset)
    (hleft : st.currentOffset ≤ minOffset file.length) :
    step file.length (minOffset file.length) st = .ok .giveUp := by
  have hplace : st.place = st.currentOffset + st.bp := rfl
  rw [step_skip h hbp hrecord, moveBack, if_pos (by simp only; omega), if_pos (by simp only; omega)]

theorem searchLoop_outside (length minOffset : ℤ) (hbp : st.bp < 0) :
    searchLoop length minOffset st = .error .outOfWindow := by
  have hread : chAt st.window st.bp = .error .outOfWindow := by
    unfold chAt
    exact if_neg (by omega)
  have hstep : step length minOffset st = .error .outOfWindow := by
    unfold step
    rw [hread]
    rfl
  rw [searchLoop_eq, hstep]

/-- **Run lemma**: the loop comes wherever the search comes. -/
theorem Scans.reached {w s : ℤ} (hscan : Scans file w s) {st₀ : HeaderSearch}
    (h₀ : WindowOk file st₀) (hoffset₀ : st₀.currentOffset = file.length - 22)
    (hplace₀ : st₀.place = file.length - 22) :
    ∃ st, WindowOk file st ∧ st.currentOffset = w ∧ st.place = s ∧
      searchLoop file.length (minOffset file.length) st₀ =
        searchLoop file.length (minOffset file.length) st := by
  induction hscan with
  | start _ => exact ⟨st₀, h₀, hoffset₀, hplace₀, rfl⟩
  | back _ hin hrecord hstay ih =>
    obtain ⟨st, hok, rfl, rfl, hloop⟩ := ih
    have hbp : 0 ≤ st.bp := by
      unfold HeaderSearch.place at hin
      omega
    obtain ⟨st', hstep, hok', hoffset', hplace'⟩ := step_back hok hbp hrecord hstay
    refine ⟨st', hok', hoffset', hplace', ?_⟩
    rw [hloop, searchLoop_eq, hstep]
  | refill _ hin hrecord hout hleft ih =>
    obtain ⟨st, hok, rfl, rfl, hloop⟩ := ih
    have hbp : 0 ≤ st.bp := by
      unfold HeaderSearch.place at hin
      omega
    obtain ⟨st', hstep, hok', hoffset', hplace'⟩ := step_refill hok hbp hrecord hout hleft
    refine ⟨st', hok', hoffset', hplace', ?_⟩
    rw [hloop, searchLoop_eq, hstep]

end Loop

/-! ## The result -/

/-- What the function should return: the last end record of the searched tail, or none. -/
def Finds (file : Bytes) : Option Found → Prop
  | some found =>
    ∃ s : ℕ, found.endpos = s ∧ IsGreatest {r | Searched file r ∧ EndRecordAt file r} s
  | none => ∀ r, Searched file r → ¬ EndRecordAt file r

/-- The function returns, without an access outside its window, what it should. -/
def SearchCorrect (bf : BufferedFile) (file : Bytes) : Prop :=
  ∃ result, findEndOfCentralHeader bf = .ok result ∧ Finds file result

section Result

variable {file : Bytes} {bf : BufferedFile}

/-- The first window. -/
def firstSearch (file : Bytes) (bf : BufferedFile) : HeaderSearch :=
  ⟨bf, file.drop (file.length - 22), file.length - 22, 0⟩

theorem windowOk_firstSearch (h : Reads bf file) (hlength : 22 ≤ file.length) :
    WindowOk file (firstSearch file bf) := by
  have hsize : (file.drop (file.length - 22)).length = 22 := by
    rw [List.length_drop]
    omega
  exact {
    reads := h
    offset_nonneg := by simp only [firstSearch]; omega
    window_eq := by
      have hpos : ((file.length : ℤ) - 22).toNat = file.length - 22 := by omega
      simp only [firstSearch]
      rw [hpos, List.take_length]
    length_le := by simp only [firstSearch, hsize]; omega
    length_ge := by simp only [firstSearch, hsize]; omega
    record_le := by simp only [firstSearch, hsize]; omega }

theorem place_firstSearch (file : Bytes) (bf : BufferedFile) :
    (firstSearch file bf).place = file.length - 22 := add_zero _

theorem findEndOfCentralHeader_long (h : Reads bf file) (hlength : 22 ≤ file.length) :
    ∃ bf', Reads bf' file ∧ findEndOfCentralHeader bf =
      searchLoop file.length (minOffset file.length) (firstSearch file bf') := by
  have hlt := h.length_lt
  have hsize : Files.jint bf.fileSize = file.length := by
    rw [h.fileSize]
    exact Files.jint_isPosition ⟨by omega, hlt⟩
  obtain ⟨bf', hread, hreads⟩ := readAt_end h (by unfold endHdrSiz; omega)
  refine ⟨bf', hreads, ?_⟩
  unfold findEndOfCentralHeader
  simp only [hread, hsize, bind, Except.bind]
  rfl

theorem findEndOfCentralHeader_short (h : Reads bf file) (hlength : file.length < 22) :
    findEndOfCentralHeader bf = .ok none := by
  obtain ⟨bf', hread⟩ := readAt_end_short h (by unfold endHdrSiz; omega) endHdrSiz.toNat
  unfold findEndOfCentralHeader
  simp only [hread, bind, Except.bind]
  rfl

theorem step_cases {st : HeaderSearch} (hsuffice : RefillsSuffice file) (h : WindowOk file st)
    (hbp : 0 ≤ st.bp) (hscan : Scans file st.currentOffset st.place) :
    (∃ entry, step file.length (minOffset file.length) st = .ok (.found ⟨st.place, entry⟩) ∧
      EndRecordAt file st.place.toNat) ∨
    (step file.length (minOffset file.length) st = .ok .giveUp ∧
      ∀ r, Searched file r → ¬ EndRecordAt file r) ∨
    (∃ st', step file.length (minOffset file.length) st = .ok (.next st') ∧ WindowOk file st' ∧
      0 ≤ st'.bp ∧ Scans file st'.currentOffset st'.place) := by
  have hin : st.currentOffset ≤ st.place := by
    unfold HeaderSearch.place
    omega
  by_cases hrecord : EndRecordAt file st.place.toNat
  · obtain ⟨entry, hstep⟩ := step_found h hbp hrecord
    exact .inl ⟨entry, hstep, hrecord⟩
  by_cases hstay : st.currentOffset ≤ st.place - skip (ch file st.place.toNat)
  · obtain ⟨st', hstep, hok, hoffset, hplace⟩ := step_back h hbp hrecord hstay
    refine .inr (.inr ⟨st', hstep, hok, ?_, ?_⟩)
    · have hplace' : st'.place = st'.currentOffset + st'.bp := rfl
      omega
    · rw [hoffset, hplace]
      exact hscan.back hin hrecord hstay
  have hout := not_le.mp hstay
  rcases lt_or_ge (minOffset file.length) st.currentOffset with hleft | hend
  · obtain ⟨st', hstep, hok, hoffset, hplace⟩ := step_refill h hbp hrecord hout hleft
    refine .inr (.inr ⟨st', hstep, hok, ?_, ?_⟩)
    · -- the refill is not short
      have henough : minOffset file.length ≤ st.place - skip (ch file st.place.toNat) :=
        not_lt.mp fun hshort => hsuffice _ _ hscan ⟨hin, hrecord, hleft, hshort⟩
      have hplace' : st'.place = st'.currentOffset + st'.bp := rfl
      unfold refillCount tmpBufferSize endHdrSiz at hoffset
      split_ifs at hoffset <;> omega
    · rw [hoffset, hplace]
      exact hscan.refill hin hrecord hout hleft
  · refine .inr (.inl ⟨step_giveUp h hbp hrecord hout hend, fun r hr => ?_⟩)
    have hnonneg := hscan.window_nonneg
    apply passed_skip (show 0 ≤ st.place by omega) hrecord hscan.passed
    have hle := hscan.le
    rcases hr with hr | hr <;> omega

/-- **Run lemma**: where every refill suffices, the loop finds the last record. -/
theorem searchLoop_finds (hsuffice : RefillsSuffice file) (st : HeaderSearch)
    (h : WindowOk file st) (hbp : 0 ≤ st.bp) (hscan : Scans file st.currentOffset st.place) :
    ∃ result, searchLoop file.length (minOffset file.length) st = .ok result ∧
      Finds file result := by
  induction st using searchLoop.induct (file.length : ℤ) (minOffset file.length) with
  | case1 st e hstep =>
    rcases step_cases hsuffice h hbp hscan with ⟨_, hcase, -⟩ | ⟨hcase, -⟩ | ⟨_, hcase, -⟩ <;>
      (rw [hstep] at hcase; cases hcase)
  | case2 st found hstep =>
    rcases step_cases hsuffice h hbp hscan with ⟨entry, hcase, hrecord⟩ | ⟨hcase, -⟩ | ⟨_, hcase, -⟩
    · obtain ⟨hplace, hend⟩ := h.place_bounds hbp
      refine ⟨some ⟨st.place, entry⟩, by rw [searchLoop_eq, hcase], st.place.toNat, ?_, ?_, ?_⟩
      · show st.place = _
        omega
      · refine ⟨?_, hrecord⟩
        unfold Searched
        have hplace' : st.place = st.currentOffset + st.bp := rfl
        rcases hscan.window_ge with hw | hw <;> omega
      · rintro r ⟨-, hr⟩
        by_contra hlt
        exact hscan.passed r (by omega) hr
    · rw [hstep] at hcase
      cases hcase
    · rw [hstep] at hcase
      cases hcase
  | case3 st hstep =>
    rcases step_cases hsuffice h hbp hscan with ⟨_, hcase, -⟩ | ⟨hcase, hnone⟩ | ⟨_, hcase, -⟩
    · rw [hstep] at hcase
      cases hcase
    · exact ⟨none, by rw [searchLoop_eq, hcase], hnone⟩
    · rw [hstep] at hcase
      cases hcase
  | case4 st st' hstep ih =>
    rcases step_cases hsuffice h hbp hscan with ⟨_, hcase, -⟩ | ⟨hcase, -⟩ |
      ⟨st₁, hcase, hok, hbp', hscan'⟩
    · rw [hstep] at hcase
      cases hcase
    · rw [hstep] at hcase
      cases hcase
    · obtain rfl : st' = st₁ := by
        rw [hstep] at hcase
        cases hcase
        rfl
      obtain ⟨result, hloop, hfinds⟩ := ih hok hbp' hscan'
      refine ⟨result, ?_, hfinds⟩
      rw [searchLoop_eq, hstep]
      exact hloop

theorem searchLoop_of_short {st₀ : HeaderSearch} (h₀ : WindowOk file st₀)
    (hoffset₀ : st₀.currentOffset = file.length - 22) (hplace₀ : st₀.place = file.length - 22)
    {w s : ℤ} (hscan : Scans file w s) (hshort : ShortRefill file w s) :
    searchLoop file.length (minOffset file.length) st₀ = .error .outOfWindow := by
  obtain ⟨hin, hrecord, hleft, hbelow⟩ := hshort
  obtain ⟨st, hok, hoffset, hplace, hloop⟩ :=
    (hscan.refill hin hrecord (by omega) hleft).reached h₀ hoffset₀ hplace₀
  have hplace' : st.place = st.currentOffset + st.bp := rfl
  rw [hloop, searchLoop_outside]
  unfold refillCount tmpBufferSize endHdrSiz at hoffset
  split_ifs at hoffset <;> omega

/-- **Main theorem**: on every file, the search returns, without an access outside its window,
the last end record of the searched tail, or none where there is none, exactly when no
refill is too short. -/
theorem findEndOfCentralHeader_iff (h : Reads bf file) :
    SearchCorrect bf file ↔ RefillsSuffice file := by
  rcases lt_or_ge file.length 22 with hshort | hlength
  · refine iff_of_true ⟨none, findEndOfCentralHeader_short h hshort, ?_⟩ ?_
    · intro r _ hrecord
      have := hrecord.le
      omega
    · rintro w s hscan -
      have := hscan.length_ge
      omega
  · obtain ⟨bf', hreads, hfind⟩ := findEndOfCentralHeader_long h hlength
    have hfirst := windowOk_firstSearch hreads hlength
    have hplace := place_firstSearch file bf'
    constructor
    · rintro ⟨result, hresult, -⟩ w s hscan hrefill
      rw [hfind, searchLoop_of_short hfirst rfl hplace hscan hrefill] at hresult
      cases hresult
    · intro hsuffice
      have hscan : Scans file (firstSearch file bf').currentOffset
          (firstSearch file bf').place := by
        rw [hplace]
        exact Scans.start hlength
      obtain ⟨result, hloop, hfinds⟩ := searchLoop_finds hsuffice _ hfirst le_rfl hscan
      exact ⟨result, hfind.trans hloop, hfinds⟩

end Result

theorem Scans.eq_start {file : Bytes} {w s : ℤ} (hscan : Scans file w s)
    (h : EndRecordAt file (file.length - 22)) : s = file.length - 22 := by
  induction hscan with
  | start _ => rfl
  | @back w s hscan _ hrecord _ ih =>
    rw [ih, show ((file.length : ℤ) - 22).toNat = file.length - 22 by omega] at hrecord
    exact absurd h hrecord
  | @refill w s hscan _ hrecord _ _ ih =>
    rw [ih, show ((file.length : ℤ) - 22).toNat = file.length - 22 by omega] at hrecord
    exact absurd h hrecord

theorem refillsSuffice_of_noComment {file : Bytes} (h : EndRecordAt file (file.length - 22)) :
    RefillsSuffice file := by
  rintro w s hscan ⟨-, hrecord, -⟩
  rw [hscan.eq_start h, show ((file.length : ℤ) - 22).toNat = file.length - 22 by omega] at hrecord
  exact hrecord h

/-- A JAR file without entries. -/
def emptyJar : OsFile := ⟨[0x50, 0x4B, 5, 6] ++ List.replicate 18 0, 0, by decide⟩

/-- A file of 99 zero bytes: after the first skip one byte is left above `minOffset`, and `bp`
lies four bytes before the buffer. -/
def zeroFile : OsFile := ⟨List.replicate 99 0, 0, by decide⟩

theorem reads_openFile (file : OsFile) (dataBuffer : Bytes) (h : dataBuffer ≠ []) :
    Reads (BufferedFile.openFile file dataBuffer) file.content :=
  ⟨BufferedFile.inv_openFile file dataBuffer, rfl, List.length_pos_iff.mpr h⟩

theorem searchCorrect_emptyJar :
    SearchCorrect (BufferedFile.openFile emptyJar [0]) emptyJar.content :=
  (findEndOfCentralHeader_iff (reads_openFile emptyJar [0] (by simp))).mpr
    (refillsSuffice_of_noComment (by decide))

theorem not_searchCorrect_zeroFile :
    ¬ SearchCorrect (BufferedFile.openFile zeroFile [0]) zeroFile.content := by
  rw [findEndOfCentralHeader_iff (reads_openFile zeroFile [0] (by simp))]
  intro h
  have hbyte : ch zeroFile.content 77 = 0 := by decide
  have hskip : skip (ch zeroFile.content (77 : ℤ).toNat) = 4 := by
    show skip (ch zeroFile.content 77) = 4
    rw [hbyte]
    rfl
  refine h 77 77 (Scans.start (by decide)) ⟨le_rfl, ?_, by decide, ?_⟩
  · show ¬ EndRecordAt zeroFile.content 77
    rintro ⟨h0, -⟩
    rw [hbyte] at h0
    cases h0
  · rw [hskip]
    decide

end CldcVm.Jar
