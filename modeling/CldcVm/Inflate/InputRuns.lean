import CldcVm.Inflate.Overrun

/-!
# The input offset along a run

The other steps of the inflater, and its runs: where the bits of every step are left
(`Inflater.Enough`), the input offset stays within the valid bytes of the input buffer, and no byte
behind them is read.

Results:

* `inWindow_of_run`: along runs whose steps have enough, the input offset stays within the valid
  bytes.
-/

namespace CldcVm.Inflate

open Files Lib

namespace Inflater

variable {s : Inflater} {allocates : Bool} {input : Input}

/-! ## `inflate_stored` -/

theorem copyStored_keepsWindow (h : s.Inv) (hinput : input.Inv) (outOffset length : ℕ) :
    KeepsWindow allocates (input.inOffset + length ≤ input.validBytes)
      (s.copyStored input outOffset length) := by
  unfold copyStored
  by_cases hover : input.validBytes < input.inOffset + length
  · rw [if_pos hover]
    exact ⟨fun hle => absurd hover (not_lt.mpr hle), fun _ _ => rfl, nofun⟩
  · rw [if_neg hover]
    have hinv : { input with inOffset := input.inOffset + length }.Inv :=
      ⟨not_lt.mp hover, hinput.ended, hinput.fits, hinput.size_le⟩
    have hstate : Inv { s with
        input := { input with inOffset := input.inOffset + length }
        outOffset := outOffset
        blockType := .unknown
        point := .call } := h.atPoint hinv rfl rfl rfl nofun
    exact (KeepsWindow.ok hstate).congr (iff_of_true trivial (not_lt.mp hover))

theorem validBytes_eq_of_read {file : OsFile} {count : ℕ} (hinput : input.Inv)
    (hfile : input.file = some file) (hcount : 0 < count)
    (hread : (getBytesRaw file count).1.length = count) :
    input.validBytes = input.inBuffer.length := by
  have hle : input.validBytes ≤ input.inBuffer.length := leading_length_le _
  rw [getBytesRaw, OsFile.read, List.length_take, List.length_drop] at hread
  by_contra hne
  have hended := hinput.ended (by omega) file hfile
  omega

theorem withFile_inv (hinput : input.Inv) (hall : input.validBytes = input.inBuffer.length)
    (file : Option OsFile) : { input with file := file }.Inv :=
  ⟨hinput.offset_le, fun hlt => absurd hlt (not_lt.mpr hall.ge), hinput.fits, hinput.size_le⟩

/-- **Step lemma**: bytes that are not in the buffer are read from the file, so there are no
missing ones in front of them. -/
theorem storedBytes_keepsWindow (h : s.Inv) (hinput : input.Inv) (length : ℕ) :
    KeepsWindow allocates (length ≤ input.inBuffer.length - input.inOffset →
      input.inOffset + length ≤ input.validBytes) (s.storedBytes allocates input length) := by
  unfold storedBytes
  simp only
  by_cases hroom : s.outLength < s.outOffset + length ∧ ¬ allocates = true
  · rw [if_pos hroom]
    exact ⟨fun _ => nofun, fun htrue => absurd htrue hroom.2, nofun⟩
  · rw [if_neg hroom]
    by_cases hdeficit : input.inBuffer.length - input.inOffset < length
    · have htrue : length ≤ input.inBuffer.length - input.inOffset →
          input.inOffset + length ≤ input.validBytes := fun hle => by omega
      rw [if_pos hdeficit]
      cases hfile : input.file with
      | none =>
        exact (@KeepsWindow.stop allocates .outside (by decide)).congr (iff_of_true trivial htrue)
      | some file =>
        by_cases hshort : (getBytesRaw file
            (length - (input.inBuffer.length - input.inOffset))).1.length ≠
              length - (input.inBuffer.length - input.inOffset)
        · simp only [if_pos hshort]
          exact (@KeepsWindow.stop allocates .error (by decide)).congr (iff_of_true trivial htrue)
        · simp only [if_neg hshort]
          have hall := validBytes_eq_of_read hinput hfile (Nat.sub_pos_of_lt hdeficit)
            (not_not.mp hshort)
          refine (copyStored_keepsWindow h (withFile_inv hinput hall _) _ _).congr ?_
          refine iff_of_true ?_ htrue
          have hle := hinput.offset_le
          show input.inOffset + (input.inBuffer.length - input.inOffset) ≤ input.validBytes
          omega
    · rw [if_neg hdeficit]
      refine (copyStored_keepsWindow h hinput _ _).congr ?_
      exact ⟨fun hle _ => hle, fun hle => hle (not_lt.mp hdeficit)⟩

/-- **Step lemma**: a stored block. -/
theorem inflateStored_keepsWindow (h : s.Inv) :
    KeepsWindow allocates s.EnoughStored (s.inflateStored allocates) := by
  have hsize := h.input.size_le
  have hskip : s.input.inDataSize % 8 ≤ s.input.inDataSize := Nat.mod_le _ _
  have hinv := h.input.dumpBits hskip
  have hleft := Input.left_dumpBits hskip
  have hvalue := Input.value_dumpBits hskip
  unfold inflateStored EnoughStored
  simp only
  set skipped := s.input.inDataSize % 8 with hskipped
  have hsize' : (s.input.dumpBits skipped).inDataSize = s.input.inDataSize - skipped := rfl
  -- the bits that are left of the last byte are skipped, so the word can hold four bytes
  have hneeds : (s.input.dumpBits skipped).inDataSize +
      8 * ((32 + 7 - (s.input.dumpBits skipped).inDataSize) / 8) ≤ 32 := by
    rw [hsize']
    omega
  have hbody : KeepsWindow allocates (32 ≤ (s.input.dumpBits skipped).reader.left ∧
      ((s.input.dumpBits skipped).reader.value % 2 ^ 16 +
          (s.input.dumpBits skipped).reader.value / 2 ^ 16 % 2 ^ 16 = 0xFFFF →
        skipped + 32 + 8 * ((s.input.dumpBits skipped).reader.value % 2 ^ 16) ≤
            s.input.inDataSize + 8 * (s.input.inBuffer.length - s.input.inOffset) →
          skipped + 32 + 8 * ((s.input.dumpBits skipped).reader.value % 2 ^ 16) ≤
            s.input.reader.left))
      (s.inflateStored allocates) := by
    apply KeepsWindow.needBits hinv hneeds
    intro input hloaded hbits hle
    have hfull : input.inDataSize = 32 := Nat.le_antisymm hloaded.inv.size_le hbits
    have hdump := hloaded.inv.dumpBits (show 16 ≤ input.inDataSize by omega)
    have hrest : (input.dumpBits 16).inDataSize = 16 := by
      show input.inDataSize - 16 = 16
      omega
    have hdump' := hdump.dumpBits (show 16 ≤ (input.dumpBits 16).inDataSize from hrest.ge)
    have hlength : input.nextBits 16 = (s.input.dumpBits skipped).reader.value % 2 ^ 16 := by
      rw [Input.nextBits_eq (by omega), hloaded.value_eq]
    have hnlength : (input.dumpBits 16).nextBits 16 =
        (s.input.dumpBits skipped).reader.value / 2 ^ 16 % 2 ^ 16 := by
      rw [Input.nextBits_eq hrest.ge, Input.value_dumpBits (by omega), hloaded.value_eq]
    simp only
    rw [hlength, hnlength]
    by_cases hbad : (s.input.dumpBits skipped).reader.value % 2 ^ 16 +
        (s.input.dumpBits skipped).reader.value / 2 ^ 16 % 2 ^ 16 ≠ 0xFFFF
    · rw [if_pos hbad]
      exact (@KeepsWindow.stop allocates .error (by decide)).congr
        (iff_of_true trivial fun heq => absurd heq hbad)
    · rw [if_neg hbad]
      refine (storedBytes_keepsWindow h hdump' _).congr ?_
      rw [imp_iff_right (not_not.mp hbad)]
      -- the two ways to count the bytes that are left
      have hoffset := hloaded.offset_eq
      have hlen : input.inBuffer.length = s.input.inBuffer.length :=
        congrArg List.length hloaded.inBuffer_eq
      have hvalid : input.validBytes = s.input.validBytes := by
        unfold Input.validBytes
        rw [hloaded.inBuffer_eq]
        rfl
      have hwithin' := hloaded.inv.offset_le_length
      have hstart := h.input.offset_le
      rw [hfull, hsize'] at hoffset
      rw [h.input.left_eq]
      change (_ ≤ input.inBuffer.length - input.inOffset →
        input.inOffset + _ ≤ input.validBytes) ↔ _
      change _ + 8 * s.input.inOffset = _ at hoffset
      rw [hlen, hvalid] at *
      constructor
      · intro hcopy hroom
        have := hcopy (by omega)
        omega
      · intro hcopy hroom
        have := hcopy (by omega)
        omega
  refine hbody.congr ?_
  rw [hleft, hvalue]
  constructor
  · rintro ⟨h1, h2⟩
    exact ⟨by omega, h2⟩
  · rintro ⟨h1, h2⟩
    exact ⟨by omega, h2⟩

/-! ## `decode_dynamic_huffman_tables` -/

theorem map_eq_bind {α β : Type} (f : α → β) (result : Except Stop α) :
    result.map f = result.bind fun a => .ok (f a) := by
  cases result <;> rfl

/-- **Step lemma**: the numbers of codes. -/
theorem dynamicHeader_keepsWindow (h : s.Inv) :
    KeepsWindow allocates (14 ≤ s.input.reader.left) s.dynamicHeader := by
  have hsize := h.input.size_le
  unfold dynamicHeader
  rw [map_eq_bind]
  refine (@KeepsWindow.needBits allocates True _ _ _ h.input (by omega) ?_).congr (iff_of_eq (and_true _))
  intro input hloaded hbits _
  have h1 := hloaded.inv.dumpBits (show 5 ≤ input.inDataSize by omega)
  have h2 := h1.dumpBits (show 5 ≤ input.inDataSize - 5 by omega)
  have h3 := h2.dumpBits (show 4 ≤ input.inDataSize - 5 - 5 by omega)
  apply KeepsWindow.ok
  exact h.atPoint h3 rfl rfl rfl nofun

variable {heuristic : Bool}

/-- **Step lemma**: a code of the code lengths, or the table of these codes. -/
theorem codeLengthCode_keepsWindow (h : s.Inv) (hlit hdist hclen i : ℕ) (codelen : List ℕ) :
    KeepsWindow allocates (i < hclen → 3 ≤ s.input.reader.left)
      (s.codeLengthCode heuristic allocates hlit hdist hclen i codelen) := by
  have hsize := h.input.size_le
  unfold codeLengthCode
  by_cases hi : i < hclen
  · rw [if_pos hi]
    refine (@KeepsWindow.needBits allocates True _ _ _ h.input (by omega) ?_).congr
      ((iff_of_eq (and_true _)).trans (imp_iff_right hi).symm)
    intro input hloaded hbits _
    rw [map_eq_bind]
    apply KeepsWindow.check hloaded.inv
    intro input' _ hinv hsame
    apply KeepsWindow.ok
    exact h.atPoint (hinv.dumpBits (show 3 ≤ input'.inDataSize by omega)) rfl rfl rfl nofun
  · rw [if_neg hi]
    have htrue : i < hclen → 3 ≤ s.input.reader.left := fun hlt => absurd hlt hi
    cases htable : tableOf (makeCodeTable heuristic allocates codelen maxQuickCxd) with
    | error stop =>
      refine (KeepsWindow.stop ?_).congr (iff_of_true trivial htrue)
      rintro rfl
      exact tableOf_ne_overrun _ htable
    | ok table =>
      refine (KeepsWindow.ok ?_).congr (iff_of_true trivial htrue)
      refine h.atPoint h.input rfl rfl rfl ?_
      intro table' hlit' hdist' codePtr' codelen' heq
      obtain ⟨rfl, -⟩ := Point.codeLengths.inj heq
      exact fits_of_makeCodeTable (tableOf_eq_ok htable)

theorem fillCodelen_ne_overrun (codelen : List ℕ) (codePtr value count : ℕ) :
    fillCodelen codelen codePtr value count ≠ .error .overrun := by
  unfold fillCodelen
  split_ifs <;> nofun

theorem putCodeLengths_keepsWindow {ccodes : HuffmanCodeTable} (h : s.Inv) (hinput : input.Inv)
    (hfits : ccodes.Fits) (hlit hdist codePtr val : ℕ) (codelen : List ℕ)
    (hsize : 7 ≤ input.inDataSize) :
    KeepsWindow allocates True (s.putCodeLengths ccodes hlit hdist codePtr codelen val input) := by
  have hpoint : ∀ (input' : Input), input'.Inv → ∀ codePtr' codelen', Inv { s with
      input := input'
      point := .codeLengths ccodes hlit hdist codePtr' codelen' } := by
    intro input' hinput' codePtr' codelen'
    refine h.atPoint hinput' rfl rfl rfl ?_
    intro table hlit' hdist' codePtr'' codelen'' heq
    obtain ⟨rfl, -⟩ := Point.codeLengths.inj heq
    exact hfits
  have hfill : ∀ (input' : Input), input'.Inv → ∀ codePtr' value count, KeepsWindow allocates True
      ((fillCodelen codelen codePtr value count).map fun codelen => { s with
        input := input'
        point := .codeLengths ccodes hlit hdist codePtr' codelen }) := by
    intro input' hinput' codePtr' value count
    cases hcodelen : fillCodelen codelen codePtr value count with
    | error stop =>
      apply KeepsWindow.stop
      rintro rfl
      exact fillCodelen_ne_overrun _ _ _ _ hcodelen
    | ok codelen' => exact KeepsWindow.ok (hpoint input' hinput' _ _)
  unfold putCodeLengths
  simp only
  by_cases hplain : val ≤ 15
  · rw [if_pos hplain]
    exact hfill input hinput _ _ _
  · rw [if_neg hplain]
    by_cases hrepeat : val ≤ 18
    · rw [if_pos hrepeat]
      have hbits : (if val = 18 then 7 else val - 14) ≤ input.inDataSize := by
        split_ifs <;> omega
      have hdump := hinput.dumpBits hbits
      by_cases hcopy : val = 16
      · rw [if_pos hcopy]
        by_cases hfirst : codePtr = 0
        · rw [if_pos hfirst]
          exact KeepsWindow.stop (by decide)
        · rw [if_neg hfirst]
          exact hfill _ hdump _ _ _
      · rw [if_neg hcopy]
        exact KeepsWindow.ok (hpoint _ hdump _ _)
    · rw [if_neg hrepeat]
      exact KeepsWindow.stop (by decide)

theorem makeTables_keepsWindow (h : s.Inv) (hlit hdist : ℕ) (codelen : List ℕ) :
    KeepsWindow allocates True (s.makeTables heuristic allocates hlit hdist codelen) := by
  unfold makeTables
  by_cases houtside : codelen.length < hlit + hdist
  · rw [if_pos houtside]
    exact KeepsWindow.stop (by decide)
  · rw [if_neg houtside]
    cases hl : tableOf (makeCodeTable heuristic allocates (codelen.take hlit) maxQuickLxl) with
    | error stop =>
      apply KeepsWindow.stop
      rintro rfl
      exact tableOf_ne_overrun _ hl
    | ok lcodes =>
      cases hd : tableOf (makeCodeTable heuristic allocates ((codelen.drop hlit).take hdist)
          maxQuickCxd) with
      | error stop =>
        simp only [Except.bind]
        apply KeepsWindow.stop
        rintro rfl
        exact tableOf_ne_overrun _ hd
      | ok dcodes =>
        simp only [Except.bind]
        apply KeepsWindow.ok
        refine ⟨h.input, ?_, ?_, nofun⟩
        · intro table heq
          obtain rfl := Option.some.inj heq
          exact fits_of_makeCodeTable (tableOf_eq_ok hl)
        · intro table heq
          obtain rfl := Option.some.inj heq
          exact fits_of_makeCodeTable (tableOf_eq_ok hd)

/-- **Step lemma**: the code lengths of a code, or the tables. -/
theorem codeLength_keepsWindow {ccodes : HuffmanCodeTable} (h : s.Inv)
    (hfits : ccodes.Fits) (hlit hdist codePtr : ℕ) (codelen : List ℕ) :
    KeepsWindow allocates (codePtr < hlit + hdist → maxBits + 7 ≤ s.input.reader.left)
      (s.codeLength heuristic allocates ccodes hlit hdist codePtr codelen) := by
  have hsize := h.input.size_le
  unfold codeLength
  by_cases hmore : codePtr < hlit + hdist
  · rw [if_pos hmore]
    have hneeds : s.input.inDataSize + 8 * ((maxBits + 7 + 7 - s.input.inDataSize) / 8) ≤ 32 := by
      unfold maxBits
      omega
    refine (@KeepsWindow.needBits allocates True _ _ _ h.input hneeds ?_).congr
      ((iff_of_eq (and_true _)).trans (imp_iff_right hmore).symm)
    intro input hloaded hbits _
    cases hentry : entryOf (getHuffmanEntry ccodes input.inData) with
    | error stop =>
      apply KeepsWindow.stop
      rintro rfl
      exact entryOf_ne_overrun _ hentry
    | ok entry =>
      obtain ⟨val, bits⟩ := entry
      have hb := bits_le_of_getHuffmanEntry (entryOf_eq_ok.mp hentry)
      have hdump := hloaded.inv.dumpBits (show bits ≤ input.inDataSize by omega)
      apply KeepsWindow.check hdump
      intro input' _ hinv hsame
      apply putCodeLengths_keepsWindow h hinv hfits
      have hrest : (input.dumpBits bits).inDataSize = input.inDataSize - bits := rfl
      omega
  · rw [if_neg hmore]
    exact (makeTables_keepsWindow h _ _ _).congr (iff_of_true trivial fun hlt => absurd hlt hmore)

/-! ## `do_inflate` -/

/-- **Step lemma**: the header of a block. -/
theorem blockHeader_keepsWindow (h : s.Inv) : KeepsWindow allocates (s.lastBlock = false →
      ∀ input, s.input.check true = .ok input → 3 ≤ input.reader.left)
      (s.blockHeader allocates) := by
  unfold blockHeader
  cases hlast : s.lastBlock with
  | true =>
    exact (@KeepsWindow.stop allocates .complete (by decide)).congr (iff_of_true trivial nofun)
  | false =>
    simp only [Bool.false_eq_true, if_false]
    apply KeepsWindow.check h.input
    intro input hcheck hinv hsame
    have hsize := hinv.size_le
    rw [map_eq_bind]
    refine (@KeepsWindow.needBits allocates True _ _ _ hinv (by omega) ?_).congr ?_
    · intro input' hloaded hbits _
      apply KeepsWindow.ok
      refine h.atPoint (hloaded.inv.dumpBits hbits) rfl rfl rfl ?_
      intro table hlit hdist codePtr codelen heq
      simp only at heq
      split_ifs at heq
    · rw [and_true, imp_iff_right trivial]
      constructor
      · intro hle input' hcheck'
        rw [hcheck] at hcheck'
        obtain rfl := Except.ok.inj hcheck'
        exact hle
      · exact fun hall => hall input hcheck

theorem doInflate_keepsWindow (h : s.Inv) : KeepsWindow allocates (match s.blockType with
      | .unknown => s.lastBlock = false →
          ∀ input, s.input.check true = .ok input → 3 ≤ input.reader.left
      | .invalid => True
      | .noCompression => s.EnoughStored
      | .fixedHuffman | .dynaHuffman => s.EnoughHuffman) (s.doInflate allocates) := by
  unfold doInflate
  cases s.blockType with
  | noCompression => exact inflateStored_keepsWindow h
  | fixedHuffman => exact huffmanTurn_keepsWindow h
  | dynaHuffman => exact huffmanTurn_keepsWindow h
  | invalid => exact KeepsWindow.stop (by decide)
  | unknown => exact blockHeader_keepsWindow h

/-- **Spec lemma**: a step reads past the valid bytes iff there are not enough bits, and otherwise
keeps the invariant. -/
theorem step_keepsWindow (heuristic : Bool) (h : s.Inv) :
    KeepsWindow allocates s.Enough (s.step heuristic allocates) := by
  unfold step Enough
  cases hpoint : s.point with
  | call => exact doInflate_keepsWindow h
  | block => exact doInflate_keepsWindow h
  | dynamicHeader => exact dynamicHeader_keepsWindow h
  | codeLengthCodes hlit hdist hclen i codelen =>
    exact codeLengthCode_keepsWindow h hlit hdist hclen i codelen
  | codeLengths ccodes hlit hdist codePtr codelen =>
    exact codeLength_keepsWindow h (h.ccodes hpoint) hlit hdist codePtr codelen
  | huffman => exact huffmanTurn_keepsWindow h

/-! ## What a turn asks for -/

/-! ## Runs -/

theorem leading_filled (bytes : List UInt8) (n : ℕ) :
    leading (bytes.map some ++ List.replicate n none) = bytes := by
  rw [leading_map_some_append, leading_replicate, List.append_nil]

theorem inv_allocated {file : Option OsFile} {incremental : Bool} {bytes : List UInt8} {n : ℕ}
    (hended : n ≠ 0 → ∀ f ∈ file, f.content.length ≤ f.pos) (size : ℕ) :
    (allocated file incremental (bytes.map some ++ List.replicate n none) size).Inv := by
  refine ⟨⟨Nat.zero_le _, ?_, Nat.zero_lt_one, Nat.zero_le _⟩, nofun, nofun, nofun⟩
  intro hlt
  apply hended
  rintro rfl
  unfold Input.validBytes at hlt
  rw [show (allocated file incremental (bytes.map some ++ List.replicate 0 none) size).input.inBuffer
      = bytes.map some ++ List.replicate 0 none from rfl, leading_filled] at hlt
  simp at hlt

theorem inv_start (h : Start s) : s.Inv := by
  cases h with
  | entry file incremental compLen size =>
    apply inv_allocated
    intro hshort file' hfile'
    obtain rfl := Option.some.inj hfile'
    change _ - ((file.content.drop file.pos).take _).length ≠ 0 at hshort
    rw [List.length_take, List.length_drop] at hshort
    show file.content.length ≤ file.pos + ((file.content.drop file.pos).take _).length
    rw [List.length_take, List.length_drop]
    omega
  | resource data size =>
    have hnone := @inv_allocated none true data 0 (fun hne => absurd rfl hne) size
    rwa [List.replicate_zero, List.append_nil] at hnone
  | memory data size => exact inv_allocated (fun _ f hmem => absurd hmem (Option.not_mem_none f)) size

/-- A step of a run that has the bits it asks for. -/
def EnoughNext (heuristic : Bool) (s s' : Inflater) : Prop := s.Enough ∧ Next heuristic s s'

/-- **Run lemma**: the invariant along a run. -/
theorem inv_of_run {s' : Inflater} (hstart : Start s)
    (hrun : Relation.ReflTransGen (EnoughNext heuristic) s s') : s'.Inv := by
  induction hrun with
  | refl => exact inv_start hstart
  | tail _ hnext ih =>
    cases hnext.2 with
    | step allocates h => exact (step_keepsWindow heuristic ih).inv _ h
    | slide _ _ => exact ⟨ih.input, ih.lcodes, ih.dcodes, ih.ccodes⟩

/-- The input offset stays within the valid bytes along every run, and no byte behind them is
read. -/
def StaysInWindow (heuristic : Bool) (s : Inflater) : Prop :=
  ∀ s', Relation.ReflTransGen (Next heuristic) s s' →
    s'.input.inOffset ≤ s'.input.validBytes ∧
      ∀ allocates, s'.step heuristic allocates ≠ .error .overrun

/-- **Main theorem**: in a run whose steps have the bits they ask for, the input offset is within
the valid bytes in every state, the guarantee of `refill_input` holds there, and the next step
reads behind these bytes only if it asks for more bits than are left; with memory for the
arrays, it does so then. -/
theorem inWindow_of_run (heuristic : Bool) {s s' : Inflater} (hstart : Start s)
    (hrun : Relation.ReflTransGen (EnoughNext heuristic) s s') :
    s'.input.inOffset ≤ s'.input.validBytes ∧ s'.input.inOffset ≤ s'.input.inBuffer.length ∧
      (s'.Enough → ∀ allocates, s'.step heuristic allocates ≠ .error .overrun) ∧
      (¬ s'.Enough → s'.step heuristic true = .error .overrun) := by
  have hinv := inv_of_run hstart hrun
  refine ⟨hinv.input.offset_le, hinv.input.offset_le_length, ?_, ?_⟩
  · exact fun henough allocates => (step_keepsWindow heuristic hinv).not_overrun henough
  · exact fun hnot => (step_keepsWindow heuristic hinv).overrun rfl hnot

/-- An entry of length 0 in a file of four bytes: a last block with the fixed code, which begins
with a length. -/
def shortEntry : Inflater := openEntry ⟨[0x1b, 0x01, 0x00, 0x00], 0, by decide⟩ false 0 0

/-- After its header. -/
def shortEntryBlock : Inflater :=
  { shortEntry with
    input := { shortEntry.input with
      inOffset := 1
      inDataSize := 5
      inData := 3 }
    lastBlock := true
    blockType := .fixedHuffman
    point := .block }

theorem step_shortEntry : shortEntry.step true true = .ok shortEntryBlock := rfl

theorem enough_shortEntry : shortEntry.Enough := by
  intro _ input hcheck
  obtain rfl := Except.ok.inj hcheck
  decide

/-- The header of the block has its bits. -/
theorem inWindow_shortEntry :
    shortEntryBlock.input.inOffset ≤ shortEntryBlock.input.validBytes ∧
      shortEntryBlock.input.inOffset ≤ shortEntryBlock.input.inBuffer.length ∧
      (shortEntryBlock.Enough → ∀ allocates,
        shortEntryBlock.step true allocates ≠ .error .overrun) ∧
      (¬ shortEntryBlock.Enough → shortEntryBlock.step true true = .error .overrun) :=
  inWindow_of_run true (.entry _ _ _ _)
    (.single ⟨enough_shortEntry, .step true step_shortEntry⟩)

/-- The extra bits of the distance are behind the end of the array: the input buffer holds the four
extra bytes, and the code asks for 34 bits up to there. -/
theorem not_staysInWindow_shortEntry : ¬ StaysInWindow true shortEntry := by
  intro h
  have hstep : Next true shortEntry shortEntryBlock := .step true step_shortEntry
  exact (h _ (.single hstep)).2 true rfl

end Inflater

end CldcVm.Inflate
