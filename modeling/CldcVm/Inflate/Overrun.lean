import CldcVm.Inflate.Inflater
import CldcVm.Inflate.MakeCodeTable

/-!
# Reading past the end of the input

The code checks the input offset at some points only, and asks `NEEDBITS` for more bits in between.
`Enough` tells, of the state at such a point, that all the bits that the code asks for up to the
next one are left; in the loop of `inflate_huffman` this depends on the codes that come next.

Results:

* `KeepsWindow.needBits`, `KeepsWindow.check`: the parts of a step.
* `huffmanTurn_keepsWindow`: a turn of the loop of `inflate_huffman` reads past the valid bytes iff
  it asks for more bits than are left, and otherwise keeps the input offset within them.
-/

namespace CldcVm.Inflate

open Files Lib

/-! ## Looking up codes -/

/-- A table whose codes have 15 bits at most. -/
structure HuffmanCodeTable.Fits (table : HuffmanCodeTable) : Prop where
  quickBits_le : table.quickBits ≤ maxBits
  maxCodeLen_le : table.maxCodeLen ≤ maxBits

variable {x y : ℕ}

theorem mod_congr {k : ℕ} (h : x % 2 ^ maxBits = y % 2 ^ maxBits) (hk : k ≤ maxBits) :
    x % 2 ^ k = y % 2 ^ k := by
  rw [← Nat.mod_mod_of_dvd x (pow_dvd_pow 2 hk), h, Nat.mod_mod_of_dvd y (pow_dvd_pow 2 hk)]

theorem getHuffmanEntry_congr {table : HuffmanCodeTable} (hfits : table.Fits)
    (h : x % 2 ^ maxBits = y % 2 ^ maxBits) :
    getHuffmanEntry table x = getHuffmanEntry table y := by
  unfold getHuffmanEntry
  rw [mod_congr h hfits.quickBits_le, mod_congr h hfits.maxCodeLen_le]

variable {bits inData : ℕ}

theorem bits_le_of_getHuffmanEntry {table : HuffmanCodeTable} {symbol : ℕ}
    (h : getHuffmanEntry table inData = some (some (symbol, bits))) : bits ≤ maxBits := by
  have hentry : ∀ huff : ℕ, some (if huff = 0 then none else some (huff >>> 4, huff &&& 0xf)) =
        some (some (symbol, bits)) → bits ≤ maxBits := by
    intro huff heq
    have heq' := Option.some.inj heq
    split_ifs at heq' with hzero
    obtain ⟨-, rfl⟩ := Prod.mk.inj (Option.some.inj heq')
    exact Nat.and_le_right
  unfold getHuffmanEntry at h
  obtain ⟨huff, -, h⟩ := Option.bind_eq_some_iff.mp h
  split_ifs at h with hlong
  · obtain ⟨huff', -, h⟩ := Option.bind_eq_some_iff.mp h
    exact hentry huff' h
  · exact hentry huff h

theorem fits_of_makeCodeTable {heuristic allocates : Bool} {codelen : List ℕ} {maxQuickBits : ℕ}
    {table : HuffmanCodeTable}
    (h : makeCodeTable heuristic allocates codelen maxQuickBits = some (some table)) :
    table.Fits := by
  have hmax := maxLen_le codelen
  obtain ⟨hlen, -⟩ := layout_eq heuristic codelen maxQuickBits
  have hquick : (layout heuristic codelen maxQuickBits).quickBits ≤ maxLen codelen := by
    unfold layout
    simp only
    split_ifs with hle
    · exact le_rfl
    · exact (not_le.mp hle).le
  unfold makeCodeTable at h
  cases allocates with
  | false => cases h
  | true =>
    obtain ⟨fill, -, hfill⟩ := Option.map_eq_some_iff.mp h
    obtain rfl := Option.some.inj hfill
    exact ⟨hquick.trans hmax, hlen.trans_le hmax⟩

theorem entryOf_eq_ok {result : Option (Option (ℕ × ℕ))} {entry : ℕ × ℕ} :
    entryOf result = .ok entry ↔ result = some (some entry) := by
  rcases result with - | - | e
  · exact ⟨nofun, nofun⟩
  · exact ⟨nofun, nofun⟩
  · exact ⟨fun h => by rw [Except.ok.inj h], fun h => by rw [Option.some.inj (Option.some.inj h)]; rfl⟩

theorem entryOf_ne_overrun (result : Option (Option (ℕ × ℕ))) :
    entryOf result ≠ .error .overrun := by
  rcases result with - | - | e <;> nofun

theorem tableOf_ne_overrun (result : Option (Option HuffmanCodeTable)) :
    tableOf result ≠ .error .overrun := by
  rcases result with - | - | table <;> nofun

theorem tableOf_eq_ok {result : Option (Option HuffmanCodeTable)} {table : HuffmanCodeTable}
    (h : tableOf result = .ok table) : result = some (some table) := by
  rcases result with - | - | t
  · cases h
  · cases h
  · rw [Except.ok.inj h]

namespace Inflater

variable {s : Inflater}

/-- The input window is right, and the tables fit. -/
structure Inv (s : Inflater) : Prop where
  input : s.input.Inv
  lcodes : ∀ table ∈ s.lengthBuffer, table.Fits
  dcodes : ∀ table ∈ s.distanceBuffer, table.Fits
  ccodes : ∀ {table hlit hdist codePtr codelen},
    s.point = .codeLengths table hlit hdist codePtr codelen → table.Fits

theorem litxlenEntry_congr (h : s.Inv) (hxy : x % 2 ^ maxBits = y % 2 ^ maxBits) :
    s.litxlenEntry x = s.litxlenEntry y := by
  unfold litxlenEntry
  have hfixed : fixedEntry x = fixedEntry y := by
    unfold fixedEntry
    rw [mod_congr hxy (show 9 ≤ maxBits by decide)]
  rw [hfixed]
  cases hbuffer : s.lengthBuffer with
  | none => rfl
  | some table => rw [Option.bind_some, Option.bind_some,
      getHuffmanEntry_congr (h.lcodes table hbuffer) hxy]

theorem distanceEntry_congr (h : s.Inv) (hxy : x % 2 ^ maxBits = y % 2 ^ maxBits) :
    s.distanceEntry x = s.distanceEntry y := by
  unfold distanceEntry
  have hfixed : fixedDistance x = fixedDistance y := by
    unfold fixedDistance
    rw [mod_congr hxy (show 5 ≤ maxBits by decide)]
  rw [hfixed]
  cases hbuffer : s.distanceBuffer with
  | none => rfl
  | some table => rw [Option.bind_some, Option.bind_some,
      getHuffmanEntry_congr (h.dcodes table hbuffer) hxy]

theorem reverse9bits_lt {code code' : ℕ} (hlt : code < 2 ^ 9)
    (h : reverse9bits code = some code') : code' < 2 ^ 9 := by
  have key : ∀ code < 2 ^ 9, (reverse9bits code).all (fun c => decide (c < 2 ^ 9)) = true := by
    decide +kernel
  have hall := key code hlt
  rw [h] at hall
  exact of_decide_eq_true hall

/-- A literal or length of the fixed code has up to 9 bits, a length up to 8. -/
theorem bits_le_of_fixedEntry {litxlen : ℕ} (h : fixedEntry inData = some (some (litxlen, bits))) :
    bits ≤ 9 ∧ (256 < litxlen → bits ≤ 8) := by
  obtain ⟨code, hcode, hentry⟩ := Option.map_eq_some_iff.mp h
  have hlt := reverse9bits_lt (Nat.mod_lt inData (Nat.two_pow_pos 9)) hcode
  split_ifs at hentry with h1 h2
  all_goals
    obtain ⟨hlit, hbits⟩ := Prod.mk.inj (Option.some.inj hentry)
    omega

theorem bits_le_of_litxlenEntry {litxlen : ℕ}
    (h : s.litxlenEntry inData = .ok (litxlen, bits)) : bits ≤ maxBits := by
  unfold litxlenEntry at h
  split_ifs at h with hfixed
  · exact (bits_le_of_fixedEntry (entryOf_eq_ok.mp h)).1.trans (by decide)
  · obtain ⟨table, -, hentry⟩ := Option.bind_eq_some_iff.mp (entryOf_eq_ok.mp h)
    exact bits_le_of_getHuffmanEntry hentry

theorem bits_le_of_distanceEntry {d0 : ℕ}
    (h : s.distanceEntry inData = .ok (d0, bits)) : bits ≤ maxBits := by
  unfold distanceEntry at h
  split_ifs at h with hfixed
  · obtain ⟨code, -, hentry⟩ := Option.map_eq_some_iff.mp (entryOf_eq_ok.mp h)
    obtain ⟨-, rfl⟩ := Prod.mk.inj (Option.some.inj hentry)
    decide
  · obtain ⟨table, -, hentry⟩ := Option.bind_eq_some_iff.mp (entryOf_eq_ok.mp h)
    exact bits_le_of_getHuffmanEntry hentry

/-! ## Having enough -/

/-- The bits that a turn of the loop of `inflate_huffman` asks for. -/
def huffmanAsks (s : Inflater) : ℕ :=
  let value := s.input.reader.value
  let asks := maxBits + maxZipExtraLengthBits
  match s.litxlenEntry value with
  | .ok (litxlen, bits) =>
    if 256 < litxlen ∧ litxlen ≤ 285 then
      let used := bits + llExtraBits.getD (litxlen - litxlenBase) 0
      let asks := max asks (used + maxBits)
      match s.distanceEntry (value / 2 ^ used) with
      | .ok (d0, bits) =>
        if d0 ≤ maxZipDistanceCode then max asks (used + bits + maxZipExtraDistanceBits) else asks
      | .error _ => asks
    else asks
  | .error _ => asks

/-- There are the lengths of a stored block, and its bytes, if the input buffer has room for
them. -/
def EnoughStored (s : Inflater) : Prop :=
  let skipped := s.input.inDataSize % 8
  let value := s.input.reader.value / 2 ^ skipped
  let length := value % 2 ^ 16
  skipped + 32 ≤ s.input.reader.left ∧
    (length + value / 2 ^ 16 % 2 ^ 16 = 0xFFFF →
      skipped + 32 + 8 * length ≤
        s.input.inDataSize + 8 * (s.input.inBuffer.length - s.input.inOffset) →
      skipped + 32 + 8 * length ≤ s.input.reader.left)

/-- There are the bits of a turn of the loop of `inflate_huffman`, or there is a refill. -/
def EnoughHuffman (s : Inflater) : Prop :=
  s.input.inOffset < s.input.inLength → s.huffmanAsks ≤ s.input.reader.left

/-- There are the bits that the step asks for. -/
def Enough (s : Inflater) : Prop :=
  match s.point with
  | .call | .block =>
    match s.blockType with
    | .unknown => s.lastBlock = false →
        ∀ input, s.input.check true = .ok input → 3 ≤ input.reader.left
    | .invalid => True
    | .noCompression => s.EnoughStored
    | .fixedHuffman | .dynaHuffman => s.EnoughHuffman
  | .dynamicHeader => 14 ≤ s.input.reader.left
  | .codeLengthCodes _ _ hclen i _ => i < hclen → 3 ≤ s.input.reader.left
  | .codeLengths _ hlit hdist codePtr _ =>
    codePtr < hlit + hdist → maxBits + 7 ≤ s.input.reader.left
  | .huffman => s.EnoughHuffman

/-- A result that reads past the valid bytes only if there is not enough, always then if no
exception comes first, and otherwise keeps the invariant. -/
structure KeepsWindow (allocates : Bool) (enough : Prop) (result : Except Stop Inflater) :
    Prop where
  not_overrun : enough → result ≠ .error .overrun
  overrun : allocates = true → ¬ enough → result = .error .overrun
  inv : ∀ s', result = .ok s' → s'.Inv

section Results

variable {allocates : Bool} {enough : Prop} {result : Except Stop Inflater}

theorem KeepsWindow.stop {stop : Stop} (h : stop ≠ .overrun) :
    KeepsWindow allocates True (.error stop) :=
  ⟨fun _ heq => h (Except.error.inj heq), fun _ hnot => (hnot trivial).elim, nofun⟩

theorem KeepsWindow.ok {s : Inflater} (h : s.Inv) : KeepsWindow allocates True (.ok s) :=
  ⟨fun _ => nofun, fun _ hnot => (hnot trivial).elim, fun _ heq => Except.ok.inj heq ▸ h⟩

theorem KeepsWindow.congr {enough' : Prop} (h : KeepsWindow allocates enough result)
    (heq : enough ↔ enough') : KeepsWindow allocates enough' result :=
  propext heq ▸ h

/-- `NEEDBITS` and what comes after it. -/
theorem KeepsWindow.needBits {input : Input} {j : ℕ} {next : Input → Except Stop Inflater}
    (h : input.Inv) (hsize : input.inDataSize + 8 * ((j + 7 - input.inDataSize) / 8) ≤ 32)
    (hnext : ∀ input', Input.Loaded input input' → j ≤ input'.inDataSize →
      j ≤ input.reader.left → KeepsWindow allocates enough (next input')) :
    KeepsWindow allocates (j ≤ input.reader.left ∧ enough) ((input.needBits j).bind next) := by
  rcases Nat.lt_or_ge input.reader.left j with hlt | hle
  · rw [Input.needBits_overrun h hsize hlt]
    exact ⟨fun henough => absurd henough.1 (not_le.mpr hlt), fun _ _ => rfl, nofun⟩
  · obtain ⟨input', hload, hloaded, hj, -⟩ := Input.needBits_ok h hsize hle
    rw [hload]
    exact (hnext input' hloaded hj hle).congr (and_iff_right hle).symm

theorem KeepsWindow.check {input : Input} {next : Input → Except Stop Inflater} (h : input.Inv)
    (hnext : ∀ input', input.check true = .ok input' → input'.Inv →
      input'.inDataSize = input.inDataSize → KeepsWindow allocates enough (next input')) :
    KeepsWindow allocates enough ((input.check allocates).bind next) := by
  unfold Input.check at hnext ⊢
  by_cases hover : input.inLength ≤ input.inOffset
  · rw [if_pos hover] at hnext ⊢
    obtain ⟨input', hrefill, hrefilled⟩ := Input.refill_ok h
    have hthen := hnext input' hrefill hrefilled.inv hrefilled.size_eq
    rcases Input.refill_cases h allocates with hthrown | hsame
    · -- an exception comes first, so there was no memory
      have hfalse : allocates = true → False := by
        rintro rfl
        rw [hthrown] at hrefill
        cases hrefill
      rw [hthrown]
      exact ⟨fun _ => nofun, fun htrue => (hfalse htrue).elim, nofun⟩
    · rw [hsame, hrefill]
      exact hthen
  · rw [if_neg hover] at hnext ⊢
    exact hnext input rfl h rfl

end Results

theorem Inv.atPoint (h : s.Inv) {input : Input} (hinput : input.Inv) {s' : Inflater}
    (heq : s'.input = input) (hl : s'.lengthBuffer = s.lengthBuffer)
    (hd : s'.distanceBuffer = s.distanceBuffer) (hpoint : ∀ table hlit hdist codePtr codelen,
      s'.point = .codeLengths table hlit hdist codePtr codelen → table.Fits) : s'.Inv where
  input := heq ▸ hinput
  lcodes := hl ▸ h.lcodes
  dcodes := hd ▸ h.dcodes
  ccodes := fun heq' => hpoint _ _ _ _ _ heq'

section Turns

variable {allocates : Bool} {input : Input}

/-! ## `inflate_huffman` -/

theorem putLiteral_keepsWindow (h : s.Inv) (hinput : input.Inv) :
    KeepsWindow allocates True (s.putLiteral input) := by
  unfold putLiteral
  simp only
  split_ifs
  · exact .stop (by decide)
  · exact .ok (h.atPoint hinput rfl rfl rfl nofun)
  · exact .ok (h.atPoint hinput rfl rfl rfl nofun)

theorem putCopy_keepsWindow (h : s.Inv) (hinput : input.Inv) (length distance : ℕ) :
    KeepsWindow allocates True (s.putCopy input length distance) := by
  unfold putCopy
  simp only
  split_ifs
  · exact .stop (by decide)
  · exact .stop (by decide)
  · exact .ok (h.atPoint hinput rfl rfl rfl nofun)
  · exact .ok (h.atPoint hinput rfl rfl rfl nofun)

theorem distanceEntry_inData (h : s.Inv) (hsize : maxBits ≤ input.inDataSize) :
    s.distanceEntry input.inData = s.distanceEntry input.reader.value :=
  distanceEntry_congr h (@BitReader.mod_word input.reader maxBits hsize).symm

theorem litxlenEntry_inData (h : s.Inv) (hsize : maxBits ≤ input.inDataSize) :
    s.litxlenEntry input.inData = s.litxlenEntry input.reader.value :=
  litxlenEntry_congr h (@BitReader.mod_word input.reader maxBits hsize).symm

theorem distanceEntry_ne_overrun (inData : ℕ) : s.distanceEntry inData ≠ .error .overrun := by
  unfold distanceEntry
  split_ifs <;> exact entryOf_ne_overrun _

theorem litxlenEntry_ne_overrun (inData : ℕ) : s.litxlenEntry inData ≠ .error .overrun := by
  unfold litxlenEntry
  split_ifs <;> exact entryOf_ne_overrun _

theorem llExtraBits_le (n : ℕ) : llExtraBits.getD n 0 ≤ maxZipExtraLengthBits := by
  have hall : ∀ bits ∈ llExtraBits, bits ≤ maxZipExtraLengthBits := by decide
  rcases Nat.lt_or_ge n llExtraBits.length with hlt | hge
  · rw [List.getD_eq_getElem _ _ hlt]
    exact hall _ (List.getElem_mem hlt)
  · rw [List.getD_eq_default _ _ hge]
    exact Nat.zero_le _

theorem distExtraBits_le (n : ℕ) : distExtraBits.getD n 0 ≤ maxZipExtraDistanceBits := by
  have hall : ∀ bits ∈ distExtraBits, bits ≤ maxZipExtraDistanceBits := by decide
  rcases Nat.lt_or_ge n distExtraBits.length with hlt | hge
  · rw [List.getD_eq_getElem _ _ hlt]
    exact hall _ (List.getElem_mem hlt)
  · rw [List.getD_eq_default _ _ hge]
    exact Nat.zero_le _

/-- There are the bits of a copy after its length code: its distance code is looked up behind the
extra bits of the length. -/
def EnoughCopy (s : Inflater) (reader : BitReader) (n : ℕ) : Prop :=
  let used := llExtraBits.getD n 0
  used + maxBits ≤ reader.left ∧
    ∀ d0 bits, s.distanceEntry (reader.value / 2 ^ used) = .ok (d0, bits) →
      d0 ≤ maxZipDistanceCode → used + bits + maxZipExtraDistanceBits ≤ reader.left

/-- **Step lemma**: the rest of a copy. -/
theorem copyTurn_keepsWindow (h : s.Inv) (hinput : input.Inv) (n : ℕ)
    (hsize : maxZipExtraLengthBits ≤ input.inDataSize) :
    KeepsWindow allocates (s.EnoughCopy input.reader n) (s.copyTurn input n) := by
  have hused := (llExtraBits_le n).trans hsize
  have hleft := Input.left_dumpBits hused
  have hvalue := Input.value_dumpBits hused
  have hinv := hinput.dumpBits hused
  have hle := hinv.size_le
  have hword : llExtraBits.getD n 0 ≤ input.reader.left := hused.trans (Nat.le_add_right _ _)
  unfold copyTurn
  set used := llExtraBits.getD n 0 with hdef
  -- the distance code
  have hcode : KeepsWindow allocates (maxBits ≤ (input.dumpBits used).reader.left ∧
      ∀ d0 bits, s.distanceEntry (input.dumpBits used).reader.value = .ok (d0, bits) →
        d0 ≤ maxZipDistanceCode →
          bits + maxZipExtraDistanceBits ≤ (input.dumpBits used).reader.left)
      (((input.dumpBits used).needBits maxBits).bind fun input' =>
        (s.distanceEntry input'.inData).bind fun entry =>
          if maxZipDistanceCode < entry.1 then .error .error
          else ((input'.dumpBits entry.2).needBits maxZipExtraDistanceBits).bind fun input'' =>
            s.putCopy (input''.dumpBits (distExtraBits.getD entry.1 0))
              (llLengthBase.getD n 0 + input.nextBits used)
              (distBase.getD entry.1 0 + input''.nextBits (distExtraBits.getD entry.1 0))) := by
    apply KeepsWindow.needBits hinv (by unfold maxBits; omega)
    intro input' hloaded hbits hbitsLeft
    rw [distanceEntry_inData h hbits, hloaded.value_eq]
    cases hentry : s.distanceEntry (input.dumpBits used).reader.value with
    | error stop =>
      refine (KeepsWindow.stop ?_).congr (iff_of_true trivial ?_)
      · rintro rfl
        exact distanceEntry_ne_overrun _ hentry
      · rintro _ _ ⟨⟩
    | ok entry =>
      obtain ⟨d0, bits⟩ := entry
      have hb := bits_le_of_distanceEntry hentry
      show KeepsWindow allocates _ (if maxZipDistanceCode < d0 then _ else _)
      by_cases hbad : maxZipDistanceCode < d0
      · rw [if_pos hbad]
        refine (KeepsWindow.stop (by decide)).congr (iff_of_true trivial ?_)
        intro d0' bits' heq hle'
        obtain ⟨rfl, -⟩ := Prod.mk.inj (Except.ok.inj heq)
        exact absurd hle' (not_le.mpr hbad)
      · rw [if_neg hbad]
        have hdump := hloaded.inv.dumpBits (hb.trans hbits)
        have hsize' := hdump.size_le
        have hleft' := Input.left_dumpBits (hb.trans hbits)
        rw [hloaded.left_eq] at hleft'
        have hneeds : (input'.dumpBits bits).inDataSize +
            8 * ((maxZipExtraDistanceBits + 7 - (input'.dumpBits bits).inDataSize) / 8) ≤ 32 := by
          unfold maxZipExtraDistanceBits
          omega
        refine (@KeepsWindow.needBits allocates True _ _ _ hdump hneeds ?_).congr ?_
        · intro input'' hloaded' hbits' _
          exact putCopy_keepsWindow h
            (hloaded'.inv.dumpBits ((distExtraBits_le d0).trans hbits')) _ _
        · rw [and_true, hleft']
          constructor
          · intro hle' d0' bits' heq _
            obtain ⟨rfl, rfl⟩ := Prod.mk.inj (Except.ok.inj heq)
            omega
          · intro hall
            have := hall d0 bits rfl (not_lt.mp hbad)
            omega
  refine hcode.congr ?_
  unfold EnoughCopy
  simp only [← hdef]
  rw [hleft, hvalue]
  constructor
  · rintro ⟨h15, hall⟩
    refine ⟨by omega, fun d0 bits heq hd => ?_⟩
    have := hall d0 bits heq hd
    omega
  · rintro ⟨h15, hall⟩
    refine ⟨by omega, fun d0 bits heq hd => ?_⟩
    have := hall d0 bits heq hd
    omega

theorem symbolTurn_keepsWindow (h : s.Inv) (hinput : input.Inv) (litxlen : ℕ)
    (hsize : maxZipExtraLengthBits ≤ input.inDataSize) : KeepsWindow allocates
      (256 < litxlen → litxlen ≤ 285 → s.EnoughCopy input.reader (litxlen - litxlenBase))
      (s.symbolTurn input litxlen) := by
  unfold symbolTurn
  split_ifs with hliteral hend hbad
  · exact (putLiteral_keepsWindow h hinput).congr (iff_of_true trivial fun hgt => by omega)
  · refine (KeepsWindow.ok ?_).congr (iff_of_true trivial fun hgt => by omega)
    exact h.atPoint hinput rfl rfl rfl nofun
  · exact (KeepsWindow.stop (by decide)).congr (iff_of_true trivial fun _ hle => by omega)
  · refine (copyTurn_keepsWindow h hinput _ hsize).congr ?_
    exact ⟨fun henough _ _ => henough, fun henough => henough (by omega) (by omega)⟩

theorem forall_ok_iff {P : ℕ → ℕ → Prop} {a b : ℕ} :
    (∀ a' b', (.ok (a, b) : Except Stop (ℕ × ℕ)) = .ok (a', b') → P a' b') ↔ P a b := by
  constructor
  · exact fun h => h a b rfl
  · intro h a' b' heq
    obtain ⟨rfl, rfl⟩ := Prod.mk.inj (Except.ok.inj heq)
    exact h

theorem huffmanAsks_le_iff (s : Inflater) : s.huffmanAsks ≤ s.input.reader.left ↔
      maxBits + maxZipExtraLengthBits ≤ s.input.reader.left ∧
        ∀ litxlen bits, s.litxlenEntry s.input.reader.value = .ok (litxlen, bits) →
          256 < litxlen → litxlen ≤ 285 →
            bits + llExtraBits.getD (litxlen - litxlenBase) 0 + maxBits ≤ s.input.reader.left ∧
              ∀ d0 bits', s.distanceEntry (s.input.reader.value /
                2 ^ (bits + llExtraBits.getD (litxlen - litxlenBase) 0)) = .ok (d0, bits') →
                  d0 ≤ maxZipDistanceCode →
                    bits + llExtraBits.getD (litxlen - litxlenBase) 0 + bits' +
                      maxZipExtraDistanceBits ≤ s.input.reader.left := by
  unfold huffmanAsks
  simp only
  cases hentry : s.litxlenEntry s.input.reader.value with
  | error stop => exact ⟨fun hle => ⟨hle, nofun⟩, And.left⟩
  | ok entry =>
    obtain ⟨litxlen, bits⟩ := entry
    rw [forall_ok_iff]
    by_cases hcopy : 256 < litxlen ∧ litxlen ≤ 285
    · have hguard : ∀ P : Prop, (256 < litxlen → litxlen ≤ 285 → P) ↔ P :=
        fun P => ⟨fun hP => hP hcopy.1 hcopy.2, fun hP _ _ => hP⟩
      simp only [if_pos hcopy]
      rw [hguard]
      cases hdistance : s.distanceEntry (s.input.reader.value /
          2 ^ (bits + llExtraBits.getD (litxlen - litxlenBase) 0)) with
      | error stop =>
        rw [max_le_iff]
        exact and_congr_right fun _ => ⟨fun hle => ⟨hle, nofun⟩, And.left⟩
      | ok entry' =>
        obtain ⟨d0, bits'⟩ := entry'
        rw [forall_ok_iff]
        by_cases hd : d0 ≤ maxZipDistanceCode
        · rw [imp_iff_right hd]
          simp only [if_pos hd]
          rw [max_le_iff, max_le_iff, and_assoc]
        · simp only [if_neg hd]
          rw [max_le_iff]
          exact and_congr_right fun _ => ⟨fun hle => ⟨hle, fun hle' => absurd hle' hd⟩, And.left⟩
    · simp only [if_neg hcopy]
      exact ⟨fun hle => ⟨hle, fun h1 h2 => absurd ⟨h1, h2⟩ hcopy⟩, And.left⟩

/-- **Step lemma**: a turn of the loop of `inflate_huffman`. -/
theorem huffmanTurn_keepsWindow (h : s.Inv) :
    KeepsWindow allocates s.EnoughHuffman (s.huffmanTurn allocates) := by
  unfold huffmanTurn EnoughHuffman
  by_cases hover : s.input.inLength ≤ s.input.inOffset
  · rw [if_pos hover]
    have htrue : s.input.inOffset < s.input.inLength →
        s.huffmanAsks ≤ s.input.reader.left := fun hlt => absurd hover (not_le.mpr hlt)
    obtain ⟨input, hrefill, hrefilled⟩ := Input.refill_ok h.input
    rcases Input.refill_cases h.input allocates with hthrown | hsame
    · rw [hthrown]
      exact (@KeepsWindow.stop allocates .thrown (by decide)).congr (iff_of_true trivial htrue)
    · rw [hsame, hrefill]
      have hinv : Inv { s with
          input := input
          point := .call } := h.atPoint hrefilled.inv rfl rfl rfl nofun
      exact (KeepsWindow.ok hinv).congr (iff_of_true trivial htrue)
  · rw [if_neg hover]
    have hsize := h.input.size_le
    have hneeds : s.input.inDataSize +
        8 * ((maxBits + maxZipExtraLengthBits + 7 - s.input.inDataSize) / 8) ≤ 32 := by
      unfold maxBits maxZipExtraLengthBits
      omega
    rw [← not_lt, not_not] at hover
    have hasks : (s.input.inOffset < s.input.inLength → s.huffmanAsks ≤ s.input.reader.left) ↔ _ :=
      (true_imp_iff.symm.trans (imp_congr_left (iff_true_intro hover).symm)).symm.trans
        (huffmanAsks_le_iff s)
    refine (KeepsWindow.needBits h.input hneeds ?_).congr hasks.symm
    intro input hloaded hbits hleft
    have hword : maxBits ≤ input.inDataSize := by
      unfold maxBits maxZipExtraLengthBits at *
      omega
    rw [litxlenEntry_inData h hword, hloaded.value_eq]
    cases hentry : s.litxlenEntry s.input.reader.value with
    | error stop =>
      refine (KeepsWindow.stop ?_).congr (iff_of_true trivial nofun)
      rintro rfl
      exact litxlenEntry_ne_overrun _ hentry
    | ok entry =>
      obtain ⟨litxlen, bits⟩ := entry
      have hb := bits_le_of_litxlenEntry hentry
      have hb' : bits + maxZipExtraLengthBits ≤ input.inDataSize := by omega
      have hdump := hloaded.inv.dumpBits (show bits ≤ input.inDataSize by omega)
      have hsize' : maxZipExtraLengthBits ≤ (input.dumpBits bits).inDataSize := by
        show maxZipExtraLengthBits ≤ input.inDataSize - bits
        omega
      have hl := Input.left_dumpBits (show bits ≤ input.inDataSize by omega)
      have hv := Input.value_dumpBits (show bits ≤ input.inDataSize by omega)
      have hinner : input.inDataSize ≤ input.reader.left := Nat.le_add_right _ _
      rw [hloaded.left_eq] at hl hinner
      rw [hloaded.value_eq] at hv
      refine (symbolTurn_keepsWindow h hdump litxlen hsize').congr ?_
      rw [forall_ok_iff]
      refine imp_congr_right fun _ => imp_congr_right fun _ => ?_
      unfold EnoughCopy
      simp only
      rw [hl, hv, Nat.div_div_eq_div_mul, ← pow_add]
      constructor
      · rintro ⟨h1, h2⟩
        refine ⟨by omega, fun d0 bits' heq hd => ?_⟩
        have := h2 d0 bits' heq hd
        omega
      · rintro ⟨h1, h2⟩
        refine ⟨by omega, fun d0 bits' heq hd => ?_⟩
        have := h2 d0 bits' heq hd
        omega

end Turns

end Inflater

end CldcVm.Inflate
