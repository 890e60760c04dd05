import CldcVm.Compiler.Relocation
import CldcVm.Lib.Segment

/-!
# The stream as a list of entries

`encode` is the stream that a list of entries stands for. What the compiler emits
is `encode` of the entries with padding between them, and the reader reads
`encode` back.
-/

namespace CldcVm.Compiler

open Lib

/-! ## Words -/

theorem embed_lt (offset : ℤ) : embed offset < 4096 := by
  unfold embed
  omega

theorem entryWord_lt (kind : Kind) (offset : ℤ) : entryWord kind.code (embed offset) < 65536 := by
  have := embed_lt offset
  have hcode : kind.code ≤ 8 := by cases kind <;> decide
  unfold entryWord
  omega

theorem entryWord_div {kind : ℕ} (hkind : kind < 16) (offset : ℤ) :
    entryWord kind (embed offset) / 4096 % 16 = kind := by
  have := embed_lt offset
  unfold entryWord
  omega

theorem ofCode_code (kind : Kind) : Kind.ofCode kind.code = some kind := by
  cases kind <;> rfl

theorem code_lt (kind : Kind) : kind.code < 16 := by
  cases kind <;> decide

theorem embeddedOffset_entryWord {kind : ℕ} {offset : ℤ} (hmin : minEmbeddedOffset ≤ offset)
    (hmax : offset ≤ maxEmbeddedOffset) :
    embeddedOffset (entryWord kind (embed offset)) = offset := by
  unfold minEmbeddedOffset at hmin
  unfold maxEmbeddedOffset at hmax
  have hlow : ((entryWord kind (embed offset) : ℕ) : ℤ) % 4096 = offset % 4096 := by
    unfold entryWord embed
    omega
  unfold embeddedOffset
  simp only [hlow]
  split_ifs <;> omega

theorem entryWord_eq_zero_iff {kind : Kind} {offset : ℤ} (hmin : minEmbeddedOffset ≤ offset)
    (hmax : offset ≤ maxEmbeddedOffset) :
    entryWord kind.code (embed offset) = 0 ↔ kind = .oop ∧ offset = 0 := by
  unfold minEmbeddedOffset at hmin
  unfold maxEmbeddedOffset at hmax
  have hcode : kind.code = 0 ↔ kind = .oop := by cases kind <;> simp [Kind.code]
  unfold entryWord embed
  rw [← hcode]
  omega

/-! ## Lists of entries -/

/-- The stream of a list of entries, after an entry at `prev`. -/
def encode : (prev : ℤ) → List Entry → List ℕ
  | _, [] => []
  | prev, e :: entries =>
    entryWord e.kind.code (embed (e.codeOffset - prev)) ::
      (e.payload ++ encode e.codeOffset entries)

/-- The code offset after the entries. -/
def lastOffset : (prev : ℤ) → List Entry → ℤ
  | prev, [] => prev
  | _, e :: entries => lastOffset e.codeOffset entries

/-- The distances between the entries fit into an entry word. -/
def SmallSteps : (prev : ℤ) → List Entry → Prop
  | _, [] => True
  | prev, e :: entries =>
    minEmbeddedOffset ≤ e.codeOffset - prev ∧ e.codeOffset - prev ≤ maxEmbeddedOffset ∧
      SmallSteps e.codeOffset entries

/-- No oop entry lies at the code offset of the entry before it. -/
def OopsApart : (prev : ℤ) → List Entry → Prop
  | _, [] => True
  | prev, e :: entries => (e.kind = .oop → e.codeOffset ≠ prev) ∧ OopsApart e.codeOffset entries

variable {prev : ℤ} {entries entries' : List Entry}

theorem encode_append : encode prev (entries ++ entries') =
      encode prev entries ++ encode (lastOffset prev entries) entries' := by
  induction entries generalizing prev with
  | nil => rfl
  | cons e entries ih =>
    show _ :: (e.payload ++ encode e.codeOffset (entries ++ entries')) = _
    rw [ih, ← List.append_assoc]
    rfl

theorem lastOffset_append :
    lastOffset prev (entries ++ entries') = lastOffset (lastOffset prev entries) entries' := by
  induction entries generalizing prev with
  | nil => rfl
  | cons e entries ih => exact ih

theorem smallSteps_append : SmallSteps prev (entries ++ entries') ↔
      SmallSteps prev entries ∧ SmallSteps (lastOffset prev entries) entries' := by
  induction entries generalizing prev with
  | nil => exact (iff_of_eq (true_and _)).symm
  | cons e entries ih =>
    show _ ∧ _ ∧ SmallSteps e.codeOffset (entries ++ entries') ↔ _
    rw [ih, ← and_assoc, ← and_assoc, and_assoc (a := _ ≤ _)]
    rfl

theorem oopsApart_append : OopsApart prev (entries ++ entries') ↔
      OopsApart prev entries ∧ OopsApart (lastOffset prev entries) entries' := by
  induction entries generalizing prev with
  | nil => exact (iff_of_eq (true_and _)).symm
  | cons e entries ih =>
    show _ ∧ OopsApart e.codeOffset (entries ++ entries') ↔ _
    rw [ih, ← and_assoc]
    rfl

/-! ## Padding -/

/-- A padding entry: a comment without text. -/
def dummy (codeOffset : ℤ) : Entry := ⟨.comment, codeOffset, [0]⟩

/-- `n` padding entries, each `step` after the one before. -/
def dummies (step : ℤ) : (n : ℕ) → (prev : ℤ) → List Entry
  | 0, _ => []
  | n + 1, prev => dummy (prev + step) :: dummies step n (prev + step)

/-- The padding between two code offsets. -/
def padding (prev codeOffset : ℤ) : List Entry :=
  if prev ≤ codeOffset then dummies maxEmbeddedOffset ((codeOffset - prev - 1).toNat / 2047) prev
  else dummies minEmbeddedOffset ((prev - codeOffset - 1).toNat / 2048) prev

theorem lastOffset_dummies (step : ℤ) (n : ℕ) :
    lastOffset prev (dummies step n prev) = prev + n * step := by
  induction n generalizing prev with
  | zero => simp [dummies, lastOffset]
  | succ n ih =>
    show lastOffset (prev + step) (dummies step n (prev + step)) = _
    rw [ih]
    push_cast
    ring

theorem smallSteps_dummies {step : ℤ} (hmin : minEmbeddedOffset ≤ step)
    (hmax : step ≤ maxEmbeddedOffset) (n : ℕ) : SmallSteps prev (dummies step n prev) := by
  induction n generalizing prev with
  | zero => trivial
  | succ n ih => exact ⟨by simpa [dummy] using hmin, by simpa [dummy] using hmax, ih⟩

theorem length_encode_dummies (step : ℤ) (n : ℕ) :
    (encode prev (dummies step n prev)).length = 2 * n := by
  induction n generalizing prev with
  | zero => rfl
  | succ n ih =>
    show ((0 :: encode (prev + step) (dummies step n (prev + step))).length + 1) = _
    rw [List.length_cons, ih]
    ring

/-- After the padding, the distance fits, and it is zero only if it was. -/
theorem padding_reaches (prev codeOffset : ℤ) :
    minEmbeddedOffset ≤ codeOffset - lastOffset prev (padding prev codeOffset) ∧
      codeOffset - lastOffset prev (padding prev codeOffset) ≤ maxEmbeddedOffset ∧
      (codeOffset = lastOffset prev (padding prev codeOffset) ↔ codeOffset = prev) := by
  unfold padding
  split_ifs with h
  · rw [lastOffset_dummies]
    unfold minEmbeddedOffset maxEmbeddedOffset
    omega
  · rw [lastOffset_dummies]
    unfold minEmbeddedOffset maxEmbeddedOffset
    omega

theorem smallSteps_padding (prev codeOffset : ℤ) : SmallSteps prev (padding prev codeOffset) := by
  unfold padding
  split_ifs
  · exact smallSteps_dummies (by decide) (by decide) _
  · exact smallSteps_dummies (by decide) (by decide) _

/-! ## Emission -/

variable {codeOffset : ℤ}

namespace RelocationStream

variable {s : RelocationStream}

/-- The words a stream still has room for have been written. -/
def Room (s : RelocationStream) : Prop := 2 * s.position + s.codeSize + 8 ≤ s.space

theorem room_iff : s.Room ↔ s.hasOverflown = false := by
  simp [Room, hasOverflown, hasRoomFor]

theorem emitWords_append (words words' : List ℕ) :
    s.emitWords (words ++ words') = (s.emitWords words).emitWords words' := List.foldl_append

theorem emitWords_cons (word : ℕ) (words : List ℕ) :
    s.emitWords (word :: words) = (s.emitUshort word).emitWords words := rfl

theorem emitWords_codeOffset (words : List ℕ) (codeOffset : ℤ) :
    emitWords words { s with codeOffset := codeOffset } =
      { s.emitWords words with codeOffset := codeOffset } := by
  induction words generalizing s with
  | nil => rfl
  | cons word words ih =>
    rw [emitWords_cons, emitWords_cons, ← ih]
    rfl

/-- What the emission of words leaves alone, and where it ends. -/
theorem emitWords_frame (words : List ℕ) :
    (s.emitWords words).position = s.position + words.length ∧
      (s.emitWords words).codeSize = s.codeSize ∧ (s.emitWords words).space = s.space := by
  induction words generalizing s with
  | nil => exact ⟨rfl, rfl, rfl⟩
  | cons word words ih =>
    obtain ⟨h1, h2, h3⟩ := ih (s := s.emitUshort word)
    rw [emitWords_cons, h1, h2, h3, List.length_cons]
    exact ⟨show s.position + 1 + words.length = _ by omega, rfl, rfl⟩

theorem emitWords_eq (words : List ℕ) (hroom : 2 * (s.position + words.length) + s.codeSize + 8 ≤
    s.space) : s.emitWords words = { s with
      words := write s.words s.position (words.map (· % 65536))
      position := s.position + words.length } := by
  induction words generalizing s with
  | nil => rfl
  | cons word words ih =>
    rw [List.length_cons] at hroom
    have hfirst : s.hasRoomFor 2 = true := by
      simp only [hasRoomFor, decide_eq_true_eq]
      omega
    have hstep : s.emitUshort word = { s with
        words := Function.update s.words s.position (word % 65536)
        position := s.position + 1 } := by
      unfold emitUshort
      rw [if_pos hfirst]
    rw [emitWords_cons, hstep, ih (by simp only; omega)]
    simp only [List.length_cons, List.map_cons, write]
    rw [show s.position + 1 + words.length = s.position + (words.length + 1) by omega]

theorem emitDummy_eq (codeOffset : ℤ) : s.emitDummy codeOffset =
      { s.emitWords (encode s.codeOffset [dummy codeOffset]) with codeOffset := codeOffset } := by
  rw [← emitWords_codeOffset]
  rfl

/-- A loop that emits one padding entry after the other. -/
theorem emitWords_dummies (step : ℤ) (n : ℕ) :
    { s.emitWords (encode s.codeOffset (dummies step (n + 1) s.codeOffset)) with
      codeOffset := s.codeOffset + (n + 1 : ℕ) * step } =
      let s' := s.emitDummy (s.codeOffset + step)
      { s'.emitWords (encode s'.codeOffset (dummies step n s'.codeOffset)) with
        codeOffset := s'.codeOffset + n * step } := by
  have happend : encode s.codeOffset (dummies step (n + 1) s.codeOffset) =
      encode s.codeOffset [dummy (s.codeOffset + step)] ++
        encode (s.codeOffset + step) (dummies step n (s.codeOffset + step)) := rfl
  rw [emitDummy_eq]
  simp only [emitWords_codeOffset]
  rw [happend, emitWords_append]
  congr 1
  push_cast
  ring

theorem padUp_eq {fuel : ℕ} (hfuel : (codeOffset - s.codeOffset - 1).toNat / 2047 ≤ fuel) :
    s.padUp fuel codeOffset = let n := (codeOffset - s.codeOffset - 1).toNat / 2047
      { s.emitWords (encode s.codeOffset (dummies maxEmbeddedOffset n s.codeOffset)) with
        codeOffset := s.codeOffset + n * maxEmbeddedOffset } := by
  generalize hn : (codeOffset - s.codeOffset - 1).toNat / 2047 = n at hfuel
  induction fuel generalizing s n with
  | zero =>
    obtain rfl : n = 0 := by omega
    simp [padUp, dummies, encode, emitWords]
  | succ fuel ih =>
    unfold padUp
    split_ifs with hfar
    · obtain ⟨n, rfl⟩ : ∃ k, n = k + 1 := ⟨n - 1, by unfold maxEmbeddedOffset at hfar; omega⟩
      rw [ih n ?_ (by omega)]
      · exact (emitWords_dummies maxEmbeddedOffset n).symm
      · rw [emitDummy_eq]
        simp only
        unfold maxEmbeddedOffset at hfar ⊢
        omega
    · obtain rfl : n = 0 := by unfold maxEmbeddedOffset at hfar; omega
      simp [dummies, encode, emitWords]

theorem padDown_eq {fuel : ℕ} (hfuel : (s.codeOffset - codeOffset - 1).toNat / 2048 ≤ fuel) :
    s.padDown fuel codeOffset = let n := (s.codeOffset - codeOffset - 1).toNat / 2048
      { s.emitWords (encode s.codeOffset (dummies minEmbeddedOffset n s.codeOffset)) with
        codeOffset := s.codeOffset + n * minEmbeddedOffset } := by
  generalize hn : (s.codeOffset - codeOffset - 1).toNat / 2048 = n at hfuel
  induction fuel generalizing s n with
  | zero =>
    obtain rfl : n = 0 := by omega
    simp [padDown, dummies, encode, emitWords]
  | succ fuel ih =>
    unfold padDown
    split_ifs with hfar
    · obtain ⟨n, rfl⟩ : ∃ k, n = k + 1 := ⟨n - 1, by unfold minEmbeddedOffset at hfar; omega⟩
      rw [ih n ?_ (by omega)]
      · exact (emitWords_dummies minEmbeddedOffset n).symm
      · rw [emitDummy_eq]
        simp only
        unfold minEmbeddedOffset at hfar ⊢
        omega
    · obtain rfl : n = 0 := by unfold minEmbeddedOffset at hfar; omega
      simp [dummies, encode, emitWords]

/-- `compute_embedded_offset` emits the padding. -/
theorem computeEmbeddedOffset_eq (codeOffset : ℤ) : s.computeEmbeddedOffset codeOffset =
      (embed (codeOffset - lastOffset s.codeOffset (padding s.codeOffset codeOffset)),
        { s.emitWords (encode s.codeOffset (padding s.codeOffset codeOffset)) with
          codeOffset := codeOffset }) := by
  unfold computeEmbeddedOffset padding
  simp only
  rw [padUp_eq (by omega)]
  split_ifs with h
  · rw [lastOffset_dummies, padDown_eq (by unfold maxEmbeddedOffset; simp only; omega)]
    have hnone : ∀ n : ℕ, n = (codeOffset - s.codeOffset - 1).toNat / 2047 →
        (s.codeOffset + n * maxEmbeddedOffset - codeOffset - 1).toNat / 2048 = 0 := by
      intro n hn
      unfold maxEmbeddedOffset
      omega
    simp only [hnone _ rfl]
    simp [dummies, encode, emitWords]
  · have hnone : (codeOffset - s.codeOffset - 1).toNat / 2047 = 0 := by omega
    simp only [hnone]
    simp only [dummies, encode, emitWords, List.foldl_nil, Nat.cast_zero, zero_mul, add_zero]
    rw [padDown_eq (by simp only; omega), lastOffset_dummies]
    rfl

theorem emitRelocation_eq (kind : Kind) (codeOffset : ℤ) : s.emitRelocation kind codeOffset =
      { s.emitWords (encode s.codeOffset (padding s.codeOffset codeOffset ++
          [⟨kind, codeOffset, []⟩])) with codeOffset := codeOffset } := by
  unfold emitRelocation
  rw [computeEmbeddedOffset_eq]
  simp only
  rw [encode_append, emitWords_append]
  rfl

end RelocationStream

/-! ## The entries of a stream -/

/-- The entry as it is stored: words are cut to ushorts. -/
def Entry.stored (e : Entry) : Entry := { e with payload := e.payload.map (· % 65536) }

theorem encode_map_mod (prev : ℤ) (entries : List Entry) :
    (encode prev entries).map (· % 65536) = encode prev (entries.map Entry.stored) := by
  induction entries generalizing prev with
  | nil => rfl
  | cons e entries ih =>
    show _ :: (e.payload ++ encode e.codeOffset entries).map _ = _
    rw [List.map_append, ih]
    show entryWord e.kind.code (embed (e.codeOffset - prev)) % 65536 :: _ = _
    rw [Nat.mod_eq_of_lt (entryWord_lt e.kind _)]
    rfl

theorem dummies_map_stored (step : ℤ) (n : ℕ) :
    (dummies step n prev).map Entry.stored = dummies step n prev := by
  induction n generalizing prev with
  | zero => rfl
  | succ n ih =>
    show _ :: (dummies step n (prev + step)).map _ = _
    rw [ih]
    rfl

theorem padding_map_stored (prev codeOffset : ℤ) :
    (padding prev codeOffset).map Entry.stored = padding prev codeOffset := by
  unfold padding
  split_ifs
  · exact dummies_map_stored _ _
  · exact dummies_map_stored _ _

/-- The stream holds the oop entries and after them the other ones. -/
structure Emitted (s : RelocationStream) (oops others : List Entry) : Prop where
  oopWords : Holds s.words 0 (encode 0 oops)
  otherWords : Holds s.words s.oopPosition (encode s.oopCodeOffset others)
  oopPosition : s.oopPosition = (encode 0 oops).length
  position : s.position = s.oopPosition + (encode s.oopCodeOffset others).length
  oopCodeOffset : s.oopCodeOffset = lastOffset 0 oops
  codeOffset : s.codeOffset = lastOffset s.oopCodeOffset others
  oopSteps : SmallSteps 0 oops
  otherSteps : SmallSteps s.oopCodeOffset others

variable {s : RelocationStream} {oops others : List Entry}

theorem emitted_initial (words : ℕ → ℕ) (space : ℕ) : Emitted (.initial words space) [] [] where
  oopWords := holds_nil
  otherWords := holds_nil
  oopPosition := rfl
  position := rfl
  oopCodeOffset := rfl
  codeOffset := rfl
  oopSteps := trivial
  otherSteps := trivial

/-- The padding and the entry that follow an entry at `prev`. -/
def padded (prev : ℤ) (e : Entry) : List Entry := padding prev e.codeOffset ++ [e]

theorem padded_map_stored (prev : ℤ) (e : Entry) :
    (padded prev e).map Entry.stored = padded prev e.stored := by
  unfold padded
  rw [List.map_append, padding_map_stored]
  rfl

theorem lastOffset_padded (prev : ℤ) (e : Entry) :
    lastOffset prev (padded prev e) = e.codeOffset := by
  unfold padded
  rw [lastOffset_append]
  rfl

theorem smallSteps_padded (prev : ℤ) (e : Entry) : SmallSteps prev (padded prev e) := by
  obtain ⟨hmin, hmax, -⟩ := padding_reaches prev e.codeOffset
  exact smallSteps_append.mpr ⟨smallSteps_padding _ _, hmin, hmax, trivial⟩

/-- **Step lemma**: an entry that is no oop entry is appended. -/
theorem Emitted.append (h : Emitted s oops others) (e : Entry) {s' : RelocationStream}
    (hs' : s' = { s.emitWords (encode s.codeOffset (padded s.codeOffset e)) with
      codeOffset := e.codeOffset }) (hroom : s'.Room) :
    Emitted s' oops (others ++ padded s.codeOffset e.stored) := by
  subst hs'
  have hwords := RelocationStream.emitWords_eq (s := s) (encode s.codeOffset (padded s.codeOffset e))
  obtain ⟨hposition, hcodeSize, hspace⟩ := RelocationStream.emitWords_frame (s := s)
    (encode s.codeOffset (padded s.codeOffset e))
  unfold RelocationStream.Room at hroom
  simp only [hposition, hcodeSize, hspace] at hroom
  rw [hwords hroom, encode_map_mod, padded_map_stored]
  have hlength : (encode s.codeOffset (padded s.codeOffset e.stored)).length =
      (encode s.codeOffset (padded s.codeOffset e)).length := by
    rw [← padded_map_stored, ← encode_map_mod, List.length_map]
  have hend := h.position
  rw [h.codeOffset] at hlength ⊢
  refine {
    oopWords := h.oopWords.write_other (.inl ?_)
    otherWords := ?_
    oopPosition := h.oopPosition
    position := ?_
    oopCodeOffset := h.oopCodeOffset
    codeOffset := ?_
    oopSteps := h.oopSteps
    otherSteps := smallSteps_append.mpr ⟨h.otherSteps, smallSteps_padded _ _⟩ }
  · rw [← h.oopPosition]
    omega
  · simp only
    rw [encode_append, holds_append, ← hend]
    exact ⟨h.otherWords.write_other (.inl hend.ge), Holds.write_self⟩
  · simp only
    rw [encode_append, List.length_append, hlength, hend]
    omega
  · rw [lastOffset_append, lastOffset_padded]
    rfl

theorem emitRelocation_emitWords (kind : Kind) (codeOffset : ℤ) (payload : List ℕ) :
    (s.emitRelocation kind codeOffset).emitWords payload =
      { s.emitWords (encode s.codeOffset (padded s.codeOffset ⟨kind, codeOffset, payload⟩)) with
        codeOffset := codeOffset } := by
  have hsplit : encode s.codeOffset (padded s.codeOffset ⟨kind, codeOffset, payload⟩) =
      encode s.codeOffset (padding s.codeOffset codeOffset ++ [⟨kind, codeOffset, []⟩]) ++
        payload := by
    unfold padded
    rw [encode_append, encode_append, List.append_assoc]
    simp [encode]
  rw [RelocationStream.emitRelocation_eq, RelocationStream.emitWords_codeOffset, hsplit,
    RelocationStream.emitWords_append]

theorem Action.run_eq {a : Action} {e : Entry} (ha : a.entry s.codeSize = some e)
    (hkind : e.kind ≠ .oop) :
    a.run s = { s.emitWords (encode s.codeOffset (padded s.codeOffset e)) with
      codeOffset := e.codeOffset } := by
  cases a with
  | code bytes => cases ha
  | expand bytes => cases ha
  | oop =>
    cases ha
    exact absurd rfl hkind
  | compilerStub =>
    cases ha
    exact emitRelocation_emitWords .compilerStub s.codeSize []
  | romOop =>
    cases ha
    exact emitRelocation_emitWords .romOop s.codeSize []
  | longBranch =>
    cases ha
    exact emitRelocation_emitWords .longBranch s.codeSize []
  | osrEntry bci =>
    cases ha
    exact emitRelocation_emitWords .osrStub s.codeSize [bci]
  | npeItem codeOffset param =>
    cases ha
    exact emitRelocation_emitWords .npeItem codeOffset [param]
  | preLoad codeOffset param =>
    cases ha
    exact emitRelocation_emitWords .preLoad codeOffset [param]
  | comment text hlen =>
    cases ha
    exact emitRelocation_emitWords .comment s.codeSize (text.length :: text.map charWord)
  | vsf spDelta locations =>
    cases ha
    exact emitRelocation_emitWords .compressedVsf s.codeSize _

/-! ## Oop entries -/

theorem paddingBefore_eq {distance : ℤ} (h : 0 ≤ distance) :
    ((distance - 1).tdiv maxEmbeddedOffset).toNat = (distance - 1).toNat / 2047 := by
  unfold maxEmbeddedOffset
  rcases lt_or_ge 0 distance with hpos | hzero
  · rw [Int.tdiv_eq_ediv_of_nonneg (by omega)]
    omega
  · obtain rfl : distance = 0 := by omega
    rfl

theorem paddingAfter_eq {distance : ℤ} (h : distance ≤ 0) :
    ((distance + 1).tdiv minEmbeddedOffset).toNat = (-distance - 1).toNat / 2048 := by
  unfold minEmbeddedOffset
  rcases lt_or_ge distance 0 with hneg | hzero
  · rw [Int.tdiv_neg, ← Int.neg_tdiv, Int.tdiv_eq_ediv_of_nonneg (by omega)]
    omega
  · obtain rfl : distance = 0 := by omega
    rfl

theorem length_encode_padding_of_le {prev : ℤ} (h : prev ≤ codeOffset) :
    (encode prev (padding prev codeOffset)).length =
      ((codeOffset - prev - 1).tdiv maxEmbeddedOffset).toNat * 2 := by
  rw [paddingBefore_eq (by omega)]
  unfold padding
  rw [if_pos h, length_encode_dummies, Nat.mul_comm]

theorem length_encode_padding_of_ge {prev : ℤ} (h : codeOffset ≤ prev) :
    (encode prev (padding prev codeOffset)).length =
      ((codeOffset - prev + 1).tdiv minEmbeddedOffset).toNat * 2 := by
  rw [paddingAfter_eq (by omega), show -(codeOffset - prev) - 1 = prev - codeOffset - 1 by omega]
  unfold padding
  split_ifs with heq
  · obtain rfl : prev = codeOffset := by omega
    simp [dummies, encode]
  · rw [length_encode_dummies, Nat.mul_comm]

/-- The entry of an oop at a code offset. -/
def oopEntry (codeOffset : ℤ) : Entry := ⟨.oop, codeOffset, []⟩

/-- What follows the new oop entry: the entries that were there, with padding
before the first one. -/
def repadded (codeOffset : ℤ) : List Entry → List Entry
  | [] => []
  | e :: entries => padding codeOffset e.codeOffset ++ e :: entries

@[simp] theorem emitRelocation_codeSize (kind : Kind) (codeOffset : ℤ) :
    (s.emitRelocation kind codeOffset).codeSize = s.codeSize := by
  rw [RelocationStream.emitRelocation_eq]
  exact (RelocationStream.emitWords_frame _).2.1

@[simp] theorem emitRelocation_space (kind : Kind) (codeOffset : ℤ) :
    (s.emitRelocation kind codeOffset).space = s.space := by
  rw [RelocationStream.emitRelocation_eq]
  exact (RelocationStream.emitWords_frame _).2.2

theorem emitRelocation_position (kind : Kind) (codeOffset : ℤ) :
    (s.emitRelocation kind codeOffset).position =
      s.position + (encode s.codeOffset (padded s.codeOffset ⟨kind, codeOffset, []⟩)).length := by
  rw [RelocationStream.emitRelocation_eq]
  exact (RelocationStream.emitWords_frame _).1

theorem emitRelocation_written {kind : Kind} {words : List ℕ}
    (hwords : encode s.codeOffset (padded s.codeOffset ⟨kind, codeOffset, []⟩) = words)
    (hroom : 2 * (s.position + words.length) + s.codeSize + 8 ≤ s.space) :
    s.emitRelocation kind codeOffset = { s with
      words := write s.words s.position words
      position := s.position + words.length
      codeOffset := codeOffset } := by
  have heq := RelocationStream.emitRelocation_eq (s := s) kind codeOffset
  have hmod := encode_map_mod s.codeOffset (padded s.codeOffset ⟨kind, codeOffset, []⟩)
  rw [padded_map_stored, show Entry.stored ⟨kind, codeOffset, []⟩ = ⟨kind, codeOffset, []⟩ from rfl,
    hwords] at hmod
  rw [show padding s.codeOffset codeOffset ++ [⟨kind, codeOffset, []⟩] =
    padded s.codeOffset ⟨kind, codeOffset, []⟩ from rfl, hwords] at heq
  rw [heq, RelocationStream.emitWords_eq words hroom, hmod]

theorem Emitted.oop_nil (h : Emitted s oops []) (hroom : s.emitRelocationOop.Room) :
    Emitted s.emitRelocationOop (oops ++ padded s.oopCodeOffset (oopEntry s.codeSize)) [] := by
  have hend : s.position = s.oopPosition := h.position
  have hoffset : s.codeOffset = s.oopCodeOffset := h.codeOffset
  have heq : s.emitRelocationOop = let s₂ := s.emitRelocation .oop s.codeSize
      { s₂ with oopPosition := s₂.position, oopCodeOffset := s.codeSize } := by
    unfold RelocationStream.emitRelocationOop
    simp only
    rw [if_neg (by omega)]
    rfl
  simp only [heq, RelocationStream.Room, emitRelocation_position, emitRelocation_codeSize,
    emitRelocation_space] at hroom
  rw [heq, emitRelocation_written rfl hroom, hoffset]
  have hwords : encode 0 (oops ++ padded s.oopCodeOffset (oopEntry s.codeSize)) =
      encode 0 oops ++ encode s.oopCodeOffset (padded s.oopCodeOffset (oopEntry s.codeSize)) := by
    rw [encode_append, ← h.oopCodeOffset]
  refine {
    oopWords := ?_
    otherWords := holds_nil
    oopPosition := ?_
    position := rfl
    oopCodeOffset := ?_
    codeOffset := rfl
    oopSteps := ?_
    otherSteps := trivial }
  · rw [hwords, holds_append, Nat.zero_add, ← h.oopPosition, ← hend]
    exact ⟨h.oopWords.write_other (.inl (by rw [← h.oopPosition]; omega)), Holds.write_self⟩
  · rw [hwords, List.length_append, ← h.oopPosition, ← hend]
    rfl
  · rw [lastOffset_append, ← h.oopCodeOffset, lastOffset_padded]
    rfl
  · rw [smallSteps_append, ← h.oopCodeOffset]
    exact ⟨h.oopSteps, smallSteps_padded _ _⟩

/-- The insertion of an oop entry before the other entries: the stream has been
moved down, and the first of the other entries gets a new distance. -/
theorem emitRelocationOop_eq {e : Entry} (h : Emitted s oops (e :: others))
    (hoop : s.oopCodeOffset ≤ s.codeSize) (he : e.codeOffset ≤ s.codeSize) : s.emitRelocationOop =
      let n := (encode s.oopCodeOffset (padding s.oopCodeOffset s.codeSize)).length +
        (encode s.codeSize (padding s.codeSize e.codeOffset)).length + 1
      let s₁ := if s.hasRoomFor (2 * n) then s.moveDown n else s
      let s₃ := RelocationStream.emitRelocation .oop s.codeSize
        { s₁ with position := s.oopPosition, codeOffset := s.oopCodeOffset }
      let s₅ := s₃.emitRelocation e.kind e.codeOffset
      { s₅ with
        position := s.position + n
        codeOffset := s.codeOffset
        oopPosition := s₃.position
        oopCodeOffset := s.codeSize } := by
  have hfirst : s.words s.oopPosition =
      entryWord e.kind.code (embed (e.codeOffset - s.oopCodeOffset)) := (holds_cons.mp h.otherWords).1
  have hoffset : s.oopCodeOffset + embeddedOffset (s.words s.oopPosition) = e.codeOffset := by
    rw [hfirst, embeddedOffset_entryWord h.otherSteps.1 h.otherSteps.2.1]
    ring
  have hkind : s.words s.oopPosition / 4096 % 16 = e.kind.code := by
    rw [hfirst, entryWord_div (code_lt e.kind)]
  have hpos : s.position - s.oopPosition > 0 := by
    rw [h.position, Nat.add_sub_cancel_left]
    exact Nat.succ_pos _
  unfold RelocationStream.emitRelocationOop
  simp only
  rw [if_pos hpos, hoffset, hkind, ← length_encode_padding_of_le hoop,
    ← length_encode_padding_of_ge he]
  rfl

/-- **Step lemma**: an oop entry comes after the oop entries. -/
theorem Emitted.oop (h : Emitted s oops others) (hoop : s.oopCodeOffset ≤ s.codeSize)
    (hothers : ∀ e ∈ others, e.codeOffset ≤ s.codeSize) (hroom : s.emitRelocationOop.Room) :
    Emitted s.emitRelocationOop (oops ++ padded s.oopCodeOffset (oopEntry s.codeSize))
      (repadded s.codeSize others) := by
  cases others with
  | nil => exact h.oop_nil hroom
  | cons e others =>
    have heq := emitRelocationOop_eq h hoop (hothers e List.mem_cons_self)
    generalize hA : encode s.oopCodeOffset (padded s.oopCodeOffset (oopEntry s.codeSize)) = A
    generalize hB : encode s.codeSize (padded s.codeSize ⟨e.kind, e.codeOffset, []⟩) = B
    generalize hT : e.payload ++ encode e.codeOffset others = T
    have hn : (encode s.oopCodeOffset (padding s.oopCodeOffset s.codeSize)).length +
        (encode s.codeSize (padding s.codeSize e.codeOffset)).length + 1 + 1 =
          A.length + B.length := by
      rw [← hA, ← hB]
      unfold padded
      rw [encode_append, encode_append, List.length_append, List.length_append]
      simp only [oopEntry, encode, List.append_nil, List.length_singleton]
      omega
    generalize hN : (encode s.oopCodeOffset (padding s.oopCodeOffset s.codeSize)).length +
        (encode s.codeSize (padding s.codeSize e.codeOffset)).length + 1 = N at heq hn
    have hroomN : 2 * (s.position + N) + s.codeSize + 8 ≤ s.space := by
      rw [heq] at hroom
      unfold RelocationStream.Room at hroom
      simp only [emitRelocation_codeSize, emitRelocation_space] at hroom
      split_ifs at hroom <;> exact hroom
    have hmove : s.hasRoomFor (2 * N) = true := by
      simp only [RelocationStream.hasRoomFor, decide_eq_true_eq]
      omega
    simp only [hmove, if_true] at heq
    have hlength : s.position = s.oopPosition + (1 + T.length) := by
      rw [h.position, ← hT, Nat.add_comm 1]
      rfl
    have hs₃ := emitRelocation_written (s := { s.moveDown N with
      position := s.oopPosition, codeOffset := s.oopCodeOffset }) hA (by
        simp only [RelocationStream.moveDown]
        omega)
    have hs₅ := emitRelocation_written (s := { s.moveDown N with
      words := write (s.moveDown N).words s.oopPosition A
      position := s.oopPosition + A.length
      codeOffset := s.codeSize }) hB (by
        simp only [RelocationStream.moveDown]
        omega)
    rw [hs₃, hs₅] at heq
    have htail : Holds (s.moveDown N).words (s.oopPosition + A.length + B.length) T := by
      have hrest := (holds_cons.mp h.otherWords).2
      rw [hT] at hrest
      refine hrest.congr fun i hi => ?_
      show (if _ then _ else _) = _
      rw [if_pos (by omega)]
      congr 1
      omega
    have hbefore : Holds (s.moveDown N).words 0 (encode 0 oops) := by
      refine h.oopWords.congr fun i hi => ?_
      show (if _ then _ else _) = _
      rw [← h.oopPosition] at hi
      rw [if_neg (by omega)]
    have hencodeOops : encode 0 (oops ++ padded s.oopCodeOffset (oopEntry s.codeSize)) =
        encode 0 oops ++ A := by
      rw [encode_append, ← h.oopCodeOffset, hA]
    have hencodeOthers : encode s.codeSize (repadded s.codeSize (e :: others)) = B ++ T := by
      rw [← hB, ← hT]
      unfold repadded padded
      rw [encode_append, encode_append, List.append_assoc]
      rfl
    rw [heq]
    refine {
      oopWords := ?_
      otherWords := ?_
      oopPosition := ?_
      position := ?_
      oopCodeOffset := ?_
      codeOffset := ?_
      oopSteps := ?_
      otherSteps := ?_ }
    · simp only
      rw [hencodeOops, holds_append, Nat.zero_add, ← h.oopPosition]
      have hoops := h.oopPosition
      exact ⟨(hbefore.write_other (.inl (by omega))).write_other (.inl (by omega)),
        Holds.write_self.write_other (.inl le_rfl)⟩
    · simp only
      rw [hencodeOthers, holds_append]
      exact ⟨Holds.write_self, (htail.write_other (.inr (by omega))).write_other (.inr le_rfl)⟩
    · rw [hencodeOops, List.length_append, ← h.oopPosition]
    · simp only
      rw [hencodeOthers, List.length_append]
      omega
    · rw [lastOffset_append, ← h.oopCodeOffset, lastOffset_padded]
      rfl
    · simp only
      rw [h.codeOffset]
      unfold repadded
      rw [lastOffset_append]
      rfl
    · rw [smallSteps_append, ← h.oopCodeOffset]
      exact ⟨h.oopSteps, smallSteps_padded _ _⟩
    · have hsteps := smallSteps_padded s.codeSize e
      unfold padded at hsteps
      obtain ⟨hpad, hmin, hmax, -⟩ := smallSteps_append.mp hsteps
      exact smallSteps_append.mpr ⟨hpad, hmin, hmax, h.otherSteps.2.2⟩

end CldcVm.Compiler
