import CldcVm.Compiler.CompressedFrame

/-!
# The reader finds what the compiler emits

The oop entries of a compilation come first and the other ones after them, each
group in the order of emission, with padding between the entries. The stream
ends early where an oop entry has no distance to the entry before it, since such
an entry is the zero word of the sentinel.

Result: `read_compile_iff`, the round trip.
-/

namespace CldcVm.Compiler

open Lib

/-! ## Reading a list of entries -/

/-- The reader finds the end of an entry. -/
def Readable (e : Entry) : Prop :=
  ∀ (w : ℕ → ℕ) (position fuel : ℕ), Holds w (position + 1) e.payload → e.payload.length ≤ fuel →
    RelocationReader.advance w fuel e.kind position = some (position + 1 + e.payload.length)

variable {w : ℕ → ℕ} {prev : ℤ} {entries : List Entry}

/-- An encoded list is read back. -/
theorem entriesFrom_encode {fuel position : ℕ} (hsteps : SmallSteps prev entries)
    (hapart : OopsApart prev entries) (hread : ∀ e ∈ entries, Readable e)
    (hw : Holds w position (encode prev entries ++ [0]))
    (hfuel : (encode prev entries).length < fuel) :
    RelocationReader.entriesFrom w fuel position prev = some entries := by
  induction entries generalizing prev position fuel with
  | nil =>
    obtain ⟨fuel, rfl⟩ : ∃ k, fuel = k + 1 := ⟨fuel - 1, by omega⟩
    have hzero : w position = 0 := (holds_cons.mp hw).1
    unfold RelocationReader.entriesFrom
    simp only
    rw [if_pos hzero]
  | cons e entries ih =>
    obtain ⟨fuel, rfl⟩ : ∃ k, fuel = k + 1 := ⟨fuel - 1, by omega⟩
    obtain ⟨hmin, hmax, hsteps⟩ := hsteps
    obtain ⟨hoop, hapart⟩ := hapart
    have hw' : Holds w position (entryWord e.kind.code (embed (e.codeOffset - prev)) ::
        (e.payload ++ (encode e.codeOffset entries ++ [0]))) := by
      rw [← List.append_assoc]
      exact hw
    obtain ⟨hfirst, hrest⟩ := holds_cons.mp hw'
    obtain ⟨hpayload, htail⟩ := holds_append.mp hrest
    have hlength : (encode prev (e :: entries)).length =
        e.payload.length + (encode e.codeOffset entries).length + 1 := by
      show (_ :: (e.payload ++ encode e.codeOffset entries)).length = _
      rw [List.length_cons, List.length_append]
    have hnonzero : w position ≠ 0 := by
      rw [hfirst]
      intro hzero
      obtain ⟨hkind, hoffset⟩ := (entryWord_eq_zero_iff hmin hmax).mp hzero
      exact hoop hkind (by omega)
    have hkind : Kind.ofCode (w position / 4096 % 16) = some e.kind := by
      rw [hfirst, entryWord_div (code_lt e.kind), ofCode_code]
    have hoffset : prev + embeddedOffset (w position) = e.codeOffset := by
      rw [hfirst, embeddedOffset_entryWord hmin hmax]
      ring
    unfold RelocationReader.entriesFrom
    simp only
    rw [if_neg hnonzero, hkind]
    simp only
    rw [hread e List.mem_cons_self w position fuel hpayload (by omega)]
    simp only
    rw [hoffset, ih hsteps hapart (fun e' he' => hread e' (List.mem_cons_of_mem e he')) htail
      (by omega), Nat.add_sub_cancel_left, hpayload.map_range]
    rfl

theorem exists_of_not_oopsApart (h : ¬OopsApart prev entries) :
    ∃ before e after, entries = before ++ e :: after ∧ e.kind = .oop ∧
      e.codeOffset = lastOffset prev before ∧ OopsApart prev before := by
  induction entries generalizing prev with
  | nil => exact absurd trivial h
  | cons e entries ih =>
    by_cases hoop : e.kind = .oop ∧ e.codeOffset = prev
    · exact ⟨[], e, entries, rfl, hoop.1, hoop.2, trivial⟩
    · have happart : e.kind = .oop → e.codeOffset ≠ prev := fun hk hc => hoop ⟨hk, hc⟩
      obtain ⟨before, e', after, heq, hkind, hoffset, hbefore⟩ := ih fun hr => h ⟨happart, hr⟩
      refine ⟨e :: before, e', after, ?_, hkind, hoffset, happart, hbefore⟩
      rw [heq]
      rfl

theorem entriesFrom_stops {fuel position : ℕ} (hsteps : SmallSteps prev entries)
    (hapart : ¬OopsApart prev entries) (hread : ∀ e ∈ entries, Readable e)
    (hw : Holds w position (encode prev entries ++ [0]))
    (hfuel : (encode prev entries).length < fuel) :
    ∃ before e after, entries = before ++ e :: after ∧ e.kind = .oop ∧
      RelocationReader.entriesFrom w fuel position prev = some before := by
  obtain ⟨before, e, after, rfl, hkind, hoffset, hbefore⟩ := exists_of_not_oopsApart hapart
  refine ⟨before, e, after, rfl, hkind, ?_⟩
  have hsplit : encode prev (before ++ e :: after) ++ [0] = (encode prev before ++ [0]) ++
      (e.payload ++ encode e.codeOffset after ++ [0]) := by
    have hword : entryWord e.kind.code (embed (e.codeOffset - lastOffset prev before)) = 0 := by
      rw [hkind, hoffset, sub_self]
      rfl
    rw [encode_append]
    simp only [encode, hword, List.append_assoc, List.cons_append, List.nil_append]
  have hlength : (encode prev before).length ≤ (encode prev (before ++ e :: after)).length := by
    rw [encode_append, List.length_append]
    omega
  rw [hsplit] at hw
  exact entriesFrom_encode (smallSteps_append.mp hsteps).1 hbefore
    (fun e' he' => hread e' (List.mem_append_left _ he')) (holds_append.mp hw).1 (by omega)

/-! ## Padding aside -/

/-- The first list is the second one with padding entries put in. -/
inductive WithPadding : List Entry → List Entry → Prop
  | nil : WithPadding [] []
  | entry (e : Entry) {r l : List Entry} : WithPadding r l → WithPadding (e :: r) (e :: l)
  | padding (codeOffset : ℤ) {r l : List Entry} :
      WithPadding r l → WithPadding (dummy codeOffset :: r) l

namespace WithPadding

variable {r r' l l' : List Entry}

theorem refl (l : List Entry) : WithPadding l l := by
  induction l with
  | nil => exact .nil
  | cons e l ih => exact .entry e ih

theorem append (h : WithPadding r l) (h' : WithPadding r' l') :
    WithPadding (r ++ r') (l ++ l') := by
  induction h with
  | nil => exact h'
  | entry e _ ih => exact .entry e ih
  | padding codeOffset _ ih => exact .padding codeOffset ih

theorem trans {m : List Entry} (h : WithPadding r m) (h' : WithPadding m l) : WithPadding r l := by
  induction h generalizing l with
  | nil => exact h'
  | entry e _ ih =>
    cases h' with
    | entry _ h' => exact .entry e (ih h')
    | padding codeOffset h' => exact .padding codeOffset (ih h')
  | padding codeOffset _ ih => exact .padding codeOffset (ih h')

theorem filter_eq (h : WithPadding r l) {p : Kind → Bool} (hp : p .comment = false) :
    r.filter (fun e => p e.kind) = l.filter fun e => p e.kind := by
  induction h with
  | nil => rfl
  | entry e _ ih => rw [List.filter_cons, List.filter_cons, ih]
  | padding codeOffset _ ih =>
    rw [List.filter_cons, if_neg (by rw [show p (dummy codeOffset).kind = false from hp]; decide)]
    exact ih

theorem dummies (step : ℤ) (n : ℕ) (prev : ℤ) :
    WithPadding (Compiler.dummies step n prev ++ l) l := by
  induction n generalizing prev with
  | zero => exact refl l
  | succ n ih => exact .padding _ (ih _)

theorem prepend (prev codeOffset : ℤ) : WithPadding (Compiler.padding prev codeOffset ++ l) l := by
  unfold Compiler.padding
  split_ifs
  · exact dummies _ _ _
  · exact dummies _ _ _

end WithPadding

/-! ## The entries of the actions are readable -/

theorem readable_nil {e : Entry} (hpayload : e.payload = []) (hparam : e.kind.hasParam = false)
    (hcomment : e.kind ≠ .comment) (hvsf : e.kind ≠ .compressedVsf) : Readable e := by
  intro w position fuel _ _
  unfold RelocationReader.advance
  rw [hparam, if_neg (by decide), if_neg hcomment, if_neg hvsf, hpayload]
  rfl

theorem readable_param {e : Entry} {param : ℕ} (hpayload : e.payload = [param])
    (hparam : e.kind.hasParam = true) : Readable e := by
  intro w position fuel _ _
  unfold RelocationReader.advance
  rw [if_pos hparam, hpayload]
  rfl

theorem readable_comment {codeOffset : ℤ} (text : List ℕ) :
    Readable ⟨.comment, codeOffset, text.length :: text⟩ := by
  intro w position fuel hw _
  have hlength : w (position + 1) = text.length := (holds_cons.mp hw).1
  show some (position + 2 + w (position + 1)) = some (position + 1 + (text.length + 1))
  rw [hlength]
  congr 1
  omega

theorem readable_dummy (codeOffset : ℤ) : Readable (dummy codeOffset) := readable_comment []

theorem charWord_lt (c : UInt8) : charWord c < 65536 := by
  have := c.toNat_lt
  unfold charWord
  split_ifs <;> omega

theorem Entry.stored_eq_iff {e : Entry} : e.stored = e ↔ ∀ word ∈ e.payload, word < 65536 := by
  have hpayload : e.stored = e ↔ e.payload.map (· % 65536) = e.payload.map id := by
    rw [List.map_id]
    constructor
    · intro h
      exact congrArg Entry.payload h
    · intro h
      unfold Entry.stored
      rw [h]
  rw [hpayload, List.map_inj_left]
  refine forall₂_congr fun word _ => ?_
  show word % 65536 = word ↔ word < 65536
  omega

variable {a : Action} {e : Entry} {codeSize : ℕ}

theorem Action.stored_eq (ha : a.entry codeSize = some e)
    (hkind : e.kind = .oop ∨ e.kind = .comment) : e.stored = e := by
  rw [Entry.stored_eq_iff]
  cases a with
  | oop =>
    cases ha
    exact nofun
  | comment text hlength =>
    cases ha
    intro word hword
    rcases List.mem_cons.mp hword with rfl | hword
    · omega
    · obtain ⟨c, -, rfl⟩ := List.mem_map.mp hword
      exact charWord_lt c
  | code | expand => cases ha
  | compilerStub | romOop | longBranch | osrEntry | npeItem | preLoad | vsf =>
    cases ha
    rcases hkind with hkind | hkind <;> cases hkind

theorem Action.readable (ha : a.entry codeSize = some e) : Readable e.stored := by
  cases a with
  | code | expand => cases ha
  | oop | compilerStub | romOop | longBranch =>
    cases ha
    exact readable_nil rfl rfl nofun nofun
  | osrEntry | npeItem | preLoad =>
    cases ha
    exact readable_param rfl rfl
  | comment text hlength =>
    rw [Action.stored_eq ha (.inr (by cases ha; rfl))]
    cases ha
    rw [← List.length_map (f := charWord)]
    exact readable_comment (text.map charWord)
  | vsf spDelta locations =>
    cases ha
    rw [Entry.stored_eq_iff.mpr (CompressedFrame.payload_lt spDelta locations)]
    intro w position fuel hw hfuel
    exact CompressedFrame.skipRegisters_payload hw hfuel

theorem Action.eq_oop (ha : a.entry codeSize = some e) (hkind : e.kind = .oop) : a = .oop := by
  cases a with
  | oop => rfl
  | code | expand => cases ha
  | compilerStub | romOop | longBranch | osrEntry | npeItem | preLoad | comment | vsf =>
    cases ha
    cases hkind

/-! ## Code offsets in the stream -/

theorem lastOffset_le {c : ℤ} (hprev : prev ≤ c) (h : ∀ e ∈ entries, e.codeOffset ≤ c) :
    lastOffset prev entries ≤ c := by
  induction entries generalizing prev with
  | nil => exact hprev
  | cons e entries ih =>
    exact ih (h e List.mem_cons_self) fun e' he' => h e' (List.mem_cons_of_mem e he')

theorem codeOffset_dummies {d : Entry} {step : ℤ} {n : ℕ} (hd : d ∈ dummies step n prev) :
    ∃ k : ℕ, k ≤ n ∧ d = dummy (prev + k * step) := by
  induction n generalizing prev with
  | zero => cases hd
  | succ n ih =>
    rcases List.mem_cons.mp hd with rfl | hd
    · exact ⟨1, by omega, by rw [Nat.cast_one, one_mul]⟩
    · obtain ⟨k, hk, rfl⟩ := ih hd
      refine ⟨k + 1, by omega, ?_⟩
      congr 1
      push_cast
      ring

theorem mem_padding {d : Entry} {codeOffset c : ℤ} (hd : d ∈ padding prev codeOffset)
    (hprev : prev ≤ c) (hc : codeOffset ≤ c) : d.codeOffset ≤ c ∧ ∃ o, d = dummy o := by
  unfold padding at hd
  split_ifs at hd with h
  · obtain ⟨k, hk, rfl⟩ := codeOffset_dummies hd
    refine ⟨?_, _, rfl⟩
    show prev + k * maxEmbeddedOffset ≤ c
    unfold maxEmbeddedOffset
    omega
  · obtain ⟨k, hk, rfl⟩ := codeOffset_dummies hd
    refine ⟨?_, _, rfl⟩
    show prev + k * minEmbeddedOffset ≤ c
    unfold minEmbeddedOffset
    omega

theorem mem_padded {d : Entry} (hd : d ∈ padded prev e) : d = e ∨ ∃ o, d = dummy o := by
  rcases List.mem_append.mp hd with hd | hd
  · exact .inr (mem_padding hd (le_max_left _ _) (le_max_right _ _)).2
  · exact .inl (List.mem_singleton.mp hd)

theorem oopsApart_of_kind (h : ∀ e ∈ entries, e.kind ≠ .oop) : OopsApart prev entries := by
  induction entries generalizing prev with
  | nil => trivial
  | cons e entries ih =>
    exact ⟨fun hkind => absurd hkind (h e List.mem_cons_self),
      ih fun e' he' => h e' (List.mem_cons_of_mem e he')⟩

theorem oopsApart_padding (prev codeOffset : ℤ) : OopsApart prev (padding prev codeOffset) := by
  refine oopsApart_of_kind fun d hd => ?_
  obtain ⟨-, o, rfl⟩ := mem_padding hd (le_max_left prev codeOffset) (le_max_right prev codeOffset)
  exact nofun

theorem oopsApart_oopEntry (codeOffset : ℤ) :
    OopsApart prev (padded prev (oopEntry codeOffset)) ↔ codeOffset ≠ prev := by
  unfold padded
  rw [oopsApart_append]
  have hreaches := (padding_reaches prev codeOffset).2.2
  show _ ∧ ((Kind.oop = .oop → codeOffset ≠ lastOffset prev (padding prev codeOffset)) ∧ True) ↔ _
  rw [and_true, ne_eq, hreaches]
  exact ⟨fun h => h.2 rfl, fun h => ⟨oopsApart_padding _ _, fun _ => h⟩⟩

/-! ## The run of a compilation -/

/-- The entries of oops, and the other ones. -/
def oopEntries (entries : List Entry) : List Entry := entries.filter (·.kind = .oop)

def otherEntries (entries : List Entry) : List Entry := entries.filter (·.kind ≠ .oop)

/-- What the stream holds after the emission of `entries`: the oop entries and the
other ones, with padding. -/
structure Written (s : RelocationStream) (entries oops others : List Entry) : Prop where
  emitted : Emitted s oops others
  oopsPadded : WithPadding oops (oopEntries entries)
  othersPadded : WithPadding others ((otherEntries entries).map Entry.stored)
  apart : OopsApart 0 oops ↔ OopsApart 0 (oopEntries entries)
  oopCodeOffset : s.oopCodeOffset = lastOffset 0 (oopEntries entries)
  noOops : ∀ e ∈ others, e.kind ≠ .oop
  readable : ∀ e ∈ oops ++ others, Readable e
  stored : ∀ e ∈ entries, e.kind = .oop ∨ e.kind = .comment → e.stored = e
  bounded : ∀ c : ℤ, 0 ≤ c → (∀ e ∈ entries, e.codeOffset ≤ c) → ∀ e ∈ others, e.codeOffset ≤ c

variable {s : RelocationStream} {oops others : List Entry}

theorem written_initial (words : ℕ → ℕ) (space : ℕ) : Written (.initial words space) [] [] [] where
  emitted := emitted_initial words space
  oopsPadded := .nil
  othersPadded := .nil
  apart := Iff.rfl
  oopCodeOffset := rfl
  noOops := fun _ he => by cases he
  readable := fun _ he => by cases he
  stored := fun _ he => by cases he
  bounded := fun _ _ _ _ he => by cases he

theorem Written.resize (h : Written s entries oops others) (codeSize space : ℕ) :
    Written { s with codeSize := codeSize, space := space } entries oops others :=
  { h with
    emitted := {
      oopWords := h.emitted.oopWords
      otherWords := h.emitted.otherWords
      oopPosition := h.emitted.oopPosition
      position := h.emitted.position
      oopCodeOffset := h.emitted.oopCodeOffset
      codeOffset := h.emitted.codeOffset
      oopSteps := h.emitted.oopSteps
      otherSteps := h.emitted.otherSteps } }

theorem Written.codeOffset_le (h : Written s entries oops others) {c : ℤ} (hc : 0 ≤ c)
    (hentries : ∀ e ∈ entries, e.codeOffset ≤ c) : s.oopCodeOffset ≤ c ∧ s.codeOffset ≤ c := by
  have hoop : s.oopCodeOffset ≤ c := by
    rw [h.oopCodeOffset]
    exact lastOffset_le hc fun e he => hentries e (List.mem_of_mem_filter he)
  refine ⟨hoop, ?_⟩
  rw [h.emitted.codeOffset]
  exact lastOffset_le hoop (h.bounded c hc hentries)

/-- **Step lemma**: an entry that is no oop entry. -/
theorem Written.append (h : Written s entries oops others) (ha : a.entry s.codeSize = some e)
    (hkind : e.kind ≠ .oop) (hroom : (a.run s).Room) :
    Written (a.run s) (entries ++ [e]) oops (others ++ padded s.codeOffset e.stored) := by
  have hoops : oopEntries (entries ++ [e]) = oopEntries entries := by
    unfold oopEntries
    rw [List.filter_append, List.filter_singleton, decide_eq_false hkind]
    exact List.append_nil _
  have hothers : otherEntries (entries ++ [e]) = otherEntries entries ++ [e] := by
    unfold otherEntries
    rw [List.filter_append, List.filter_singleton, decide_eq_true hkind]
    rfl
  have hframe : (a.run s).oopCodeOffset = s.oopCodeOffset := by
    have hoopCodeOffset := (h.emitted.append e (Action.run_eq ha hkind) hroom).oopCodeOffset
    rw [hoopCodeOffset, h.emitted.oopCodeOffset]
  refine {
    emitted := h.emitted.append e (Action.run_eq ha hkind) hroom
    oopsPadded := ?_
    othersPadded := ?_
    apart := ?_
    oopCodeOffset := ?_
    noOops := ?_
    readable := ?_
    stored := ?_
    bounded := ?_ }
  · rw [hoops]
    exact h.oopsPadded
  · rw [hothers, List.map_append]
    exact h.othersPadded.append (WithPadding.prepend _ _)
  · rw [hoops]
    exact h.apart
  · rw [hoops, hframe]
    exact h.oopCodeOffset
  · intro d hd
    rcases List.mem_append.mp hd with hd | hd
    · exact h.noOops d hd
    · rcases mem_padded hd with rfl | ⟨o, rfl⟩
      · exact hkind
      · exact nofun
  · intro d hd
    rw [← List.append_assoc] at hd
    rcases List.mem_append.mp hd with hd | hd
    · exact h.readable d hd
    · rcases mem_padded hd with rfl | ⟨o, rfl⟩
      · exact Action.readable ha
      · exact readable_dummy o
  · intro d hd hkind'
    rcases List.mem_append.mp hd with hd | hd
    · exact h.stored d hd hkind'
    · rw [List.mem_singleton.mp hd] at hkind' ⊢
      exact Action.stored_eq ha hkind'
  · intro c hc hentries d hd
    have hbefore : ∀ e' ∈ entries, e'.codeOffset ≤ c := fun e' he' =>
      hentries e' (List.mem_append_left _ he')
    have he : e.codeOffset ≤ c := hentries e (List.mem_append_right _ List.mem_cons_self)
    rcases List.mem_append.mp hd with hd | hd
    · exact h.bounded c hc hbefore d hd
    · rcases List.mem_append.mp hd with hd | hd
      · exact (mem_padding hd (h.codeOffset_le hc hbefore).2 he).1
      · rw [List.mem_singleton.mp hd]
        exact he

/-- **Step lemma**: an oop entry. -/
theorem Written.oop (h : Written s entries oops others)
    (hentries : ∀ e ∈ entries, e.codeOffset ≤ s.codeSize) (hroom : s.emitRelocationOop.Room) :
    Written s.emitRelocationOop (entries ++ [oopEntry s.codeSize])
      (oops ++ padded s.oopCodeOffset (oopEntry s.codeSize)) (repadded s.codeSize others) := by
  have hnonneg : (0 : ℤ) ≤ s.codeSize := Int.natCast_nonneg _
  have hoops : oopEntries (entries ++ [oopEntry s.codeSize]) =
      oopEntries entries ++ [oopEntry s.codeSize] := by
    unfold oopEntries
    rw [List.filter_append]
    rfl
  have hothers : otherEntries (entries ++ [oopEntry s.codeSize]) = otherEntries entries := by
    unfold otherEntries
    rw [List.filter_append]
    exact List.append_nil _
  have hemitted := h.emitted.oop (h.codeOffset_le hnonneg hentries).1
    (h.bounded s.codeSize hnonneg hentries) hroom
  have hrepadded : ∀ d ∈ repadded s.codeSize others, d ∈ others ∨ ∃ o, d = dummy o := by
    intro d hd
    cases others with
    | nil => cases hd
    | cons e others =>
      rcases List.mem_append.mp hd with hd | hd
      · exact .inr (mem_padding hd (le_max_left _ _) (le_max_right _ _)).2
      · exact .inl hd
  refine {
    emitted := hemitted
    oopsPadded := ?_
    othersPadded := ?_
    apart := ?_
    oopCodeOffset := ?_
    noOops := ?_
    readable := ?_
    stored := ?_
    bounded := ?_ }
  · rw [hoops]
    exact h.oopsPadded.append (WithPadding.prepend _ _)
  · rw [hothers]
    cases others with
    | nil => exact h.othersPadded
    | cons e others => exact (WithPadding.prepend _ _).trans h.othersPadded
  · rw [hoops, oopsApart_append, oopsApart_append, h.apart, ← h.oopCodeOffset,
      ← h.emitted.oopCodeOffset, oopsApart_oopEntry]
    exact and_congr_right fun _ => ⟨fun hne => ⟨fun _ => hne, trivial⟩, fun hs => hs.1 rfl⟩
  · rw [hoops, lastOffset_append, hemitted.oopCodeOffset, lastOffset_append,
      ← h.emitted.oopCodeOffset, lastOffset_padded]
    rfl
  · intro d hd
    rcases hrepadded d hd with hd | ⟨o, rfl⟩
    · exact h.noOops d hd
    · exact nofun
  · intro d hd
    rcases List.mem_append.mp hd with hd | hd
    · rcases List.mem_append.mp hd with hd | hd
      · exact h.readable d (List.mem_append_left _ hd)
      · rcases mem_padded hd with rfl | ⟨o, rfl⟩
        · exact readable_nil rfl rfl nofun nofun
        · exact readable_dummy o
    · rcases hrepadded d hd with hd | ⟨o, rfl⟩
      · exact h.readable d (List.mem_append_right _ hd)
      · exact readable_dummy o
  · intro d hd hkind
    rcases List.mem_append.mp hd with hd | hd
    · exact h.stored d hd hkind
    · rw [List.mem_singleton.mp hd]
      rfl
  · intro c hc hbound d hd
    have hbefore := h.bounded c hc fun e he => hbound e (List.mem_append_left _ he)
    have hsize : (s.codeSize : ℤ) ≤ c := hbound _ (List.mem_append_right _ List.mem_cons_self)
    cases others with
    | nil => cases hd
    | cons e others =>
      rcases List.mem_append.mp hd with hd | hd
      · exact (mem_padding hd hsize (hbefore e List.mem_cons_self)).1
      · exact hbefore d hd

theorem Action.run_of_entry_none (ha : a.entry codeSize = none) :
    ∃ codeSize' space', a.run s = { s with codeSize := codeSize', space := space' } := by
  cases a with
  | code bytes => exact ⟨s.codeSize + bytes, s.space, rfl⟩
  | expand bytes => exact ⟨s.codeSize, s.space + bytes, rfl⟩
  | oop | compilerStub | romOop | longBranch | osrEntry | npeItem | preLoad | comment | vsf =>
    cases ha

/-- **Step lemma**: an action. -/
theorem Written.step (h : Written s entries oops others) (a : Action)
    (hmono : (entries ++ (a.entry s.codeSize).toList).Pairwise (·.codeOffset ≤ ·.codeOffset))
    (hroom : (a.run s).Room) :
    ∃ oops' others', Written (a.run s) (entries ++ (a.entry s.codeSize).toList) oops' others' := by
  cases ha : a.entry s.codeSize with
  | none =>
    obtain ⟨codeSize', space', hrun⟩ := Action.run_of_entry_none (s := s) ha
    refine ⟨oops, others, ?_⟩
    rw [hrun]
    simpa using h.resize codeSize' space'
  | some e =>
    rw [ha] at hmono
    by_cases hkind : e.kind = .oop
    · obtain rfl : a = .oop := Action.eq_oop ha hkind
      obtain rfl : oopEntry s.codeSize = e := Option.some.inj ha
      refine ⟨_, _, h.oop (fun e' he' => ?_) hroom⟩
      exact (List.pairwise_append.mp hmono).2.2 e' he' _ List.mem_cons_self
    · exact ⟨_, _, h.append ha hkind hroom⟩

/-- **Run lemma**: a compilation. -/
theorem Written.run {actions : List Action} {emitted : List Entry} {s' : RelocationStream}
    (h : Written s entries oops others) (hrun : compile actions s = some (s', emitted))
    (hmono : (entries ++ emitted).Pairwise (·.codeOffset ≤ ·.codeOffset)) :
    ∃ s'' oops' others', Written s'' (entries ++ emitted) oops' others' ∧
      s' = s''.emitSentinel ∧ s'.Room := by
  induction actions generalizing s entries oops others emitted with
  | nil =>
    unfold compile at hrun
    simp only at hrun
    split_ifs at hrun with hover
    obtain ⟨rfl, rfl⟩ := Prod.mk.inj (Option.some.inj hrun)
    refine ⟨s, oops, others, ?_, rfl, ?_⟩
    · rw [List.append_nil]
      exact h
    · exact RelocationStream.room_iff.mpr (Bool.eq_false_iff.mpr hover)
  | cons a actions ih =>
    unfold compile at hrun
    simp only at hrun
    split_ifs at hrun with hover
    cases hrest : compile actions (a.run s) with
    | none =>
      rw [hrest] at hrun
      cases hrun
    | some result =>
      obtain ⟨s₁, emitted'⟩ := result
      rw [hrest] at hrun
      obtain ⟨rfl, rfl⟩ := Prod.mk.inj (Option.some.inj hrun)
      rw [← List.append_assoc] at hmono ⊢
      obtain ⟨oops', others', hstep⟩ := h.step a (List.pairwise_append.mp hmono).1
        (RelocationStream.room_iff.mpr (Bool.eq_false_iff.mpr hover))
      exact ih hstep hrest hmono

/-! ## The round trip -/

/-- The closed stream is an encoded list. -/
theorem Written.holds (h : Written s entries oops others) (hroom : s.emitSentinel.Room) :
    Holds s.emitSentinel.words 0 (encode 0 (oops ++ others) ++ [0]) ∧
      s.emitSentinel.position = (encode 0 (oops ++ others)).length + 1 := by
  have hroom' : 2 * (s.position + 1) + s.codeSize + 8 ≤ s.space := hroom
  have heq : s.emitSentinel = { s with
      words := write s.words s.position [0]
      position := s.position + 1 } := RelocationStream.emitWords_eq [0] hroom'
  have hencode : encode 0 (oops ++ others) = encode 0 oops ++ encode s.oopCodeOffset others := by
    rw [encode_append, ← h.emitted.oopCodeOffset]
  have hposition : s.position = (encode 0 (oops ++ others)).length := by
    rw [h.emitted.position, h.emitted.oopPosition, hencode, List.length_append]
  rw [heq]
  simp only
  rw [← hposition, hencode, holds_append, ← hencode, ← hposition, Nat.zero_add]
  refine ⟨⟨?_, Holds.write_self⟩, rfl⟩
  refine Holds.write_other ?_ (.inl (by omega))
  rw [hencode, holds_append, Nat.zero_add, ← h.emitted.oopPosition]
  exact ⟨h.emitted.oopWords, h.emitted.otherWords⟩

/-- The entries that are no comments are compared word by word. -/
theorem stored_of_filter {l : List Entry}
    (hfilter : (l.map Entry.stored).filter (fun e => decide (e.kind ≠ .comment)) =
      l.filter fun e => decide (e.kind ≠ .comment)) :
    ∀ e ∈ l, e.kind ≠ .comment → e.stored = e := by
  have hmap : (l.map Entry.stored).filter (fun e => decide (e.kind ≠ .comment)) =
      (l.filter fun e => decide (e.kind ≠ .comment)).map Entry.stored := List.filter_map
  rw [hmap] at hfilter
  intro e he hkind
  exact List.map_inj_left.mp (hfilter.trans (List.map_id _).symm) e
    (List.mem_filter.mpr ⟨he, decide_eq_true hkind⟩)

theorem not_withPadding_of_stops {l l' before after : List Entry}
    (hl : WithPadding (before ++ e :: after) l)
    (hkind : e.kind = .oop) (hsame : l.filter (fun e => decide (e.kind = .oop)) =
      l'.filter fun e => decide (e.kind = .oop)) : ¬WithPadding before l' := by
  intro h
  have hbefore := h.filter_eq (p := fun k => decide (k = .oop)) rfl
  have hall := hl.filter_eq (p := fun k => decide (k = .oop)) rfl
  have hlength := congrArg List.length ((hall.trans hsame).trans hbefore.symm)
  rw [List.filter_append, List.length_append, List.filter_cons, if_pos (decide_eq_true hkind),
    List.length_cons] at hlength
  omega

/-- **Main theorem**: a reader of the closed stream finds the oop entries and then
the other ones, padding aside, if and only if the oop entries lie apart and
every parameter is a ushort. -/
theorem read_compile_iff {words : ℕ → ℕ} {space : ℕ} {actions : List Action}
    {s' : RelocationStream} {emitted : List Entry}
    (hrun : compile actions (.initial words space) = some (s', emitted))
    (hmono : emitted.Pairwise (·.codeOffset ≤ ·.codeOffset)) :
    (∃ found, s'.read = some found ∧
        WithPadding found (oopEntries emitted ++ otherEntries emitted)) ↔
      OopsApart 0 (oopEntries emitted) ∧ ∀ e ∈ emitted, ∀ word ∈ e.payload, word < 65536 := by
  obtain ⟨s, oops, others, h, rfl, hroom⟩ := (written_initial words space).run hrun hmono
  rw [List.nil_append] at h
  obtain ⟨hholds, hposition⟩ := h.holds hroom
  have hsteps : SmallSteps 0 (oops ++ others) :=
    smallSteps_append.mpr ⟨h.emitted.oopSteps, h.emitted.oopCodeOffset ▸ h.emitted.otherSteps⟩
  have hapart : OopsApart 0 (oops ++ others) ↔ OopsApart 0 (oopEntries emitted) := by
    rw [oopsApart_append, h.apart]
    exact and_iff_left (oopsApart_of_kind h.noOops)
  have hpadded : WithPadding (oops ++ others)
      (oopEntries emitted ++ (otherEntries emitted).map Entry.stored) :=
    h.oopsPadded.append h.othersPadded
  have hfuel : (encode 0 (oops ++ others)).length < s.emitSentinel.position := by omega
  by_cases hoops : OopsApart 0 (oopEntries emitted)
  · have hread : s.emitSentinel.read = some (oops ++ others) :=
      entriesFrom_encode hsteps (hapart.mpr hoops) h.readable hholds hfuel
    rw [and_iff_right hoops, hread]
    constructor
    · rintro ⟨found, hfound, hsame⟩ e he
      obtain rfl := Option.some.inj hfound
      rw [← Entry.stored_eq_iff]
      have hfilter := (hpadded.filter_eq (p := fun k => decide (k ≠ .comment)) rfl).symm.trans
        (hsame.filter_eq (p := fun k => decide (k ≠ .comment)) rfl)
      rw [List.filter_append, List.filter_append] at hfilter
      by_cases hkind : e.kind = .oop ∨ e.kind = .comment
      · exact h.stored e he hkind
      · obtain ⟨hnoOop, hnoComment⟩ := not_or.mp hkind
        exact stored_of_filter (List.append_cancel_left hfilter) e
          (List.mem_filter.mpr ⟨he, decide_eq_true hnoOop⟩) hnoComment
    · intro hushorts
      have hstored : (otherEntries emitted).map Entry.stored = otherEntries emitted := by
        refine (List.map_congr_left fun e he => ?_).trans (List.map_id _)
        exact Entry.stored_eq_iff.mpr (hushorts e (List.mem_of_mem_filter he))
      rw [hstored] at hpadded
      exact ⟨oops ++ others, rfl, hpadded⟩
  · obtain ⟨before, e, after, hsplit, hkind, hread⟩ :=
      entriesFrom_stops hsteps (fun ha => hoops (hapart.mp ha)) h.readable hholds hfuel
    refine iff_of_false ?_ fun hall => hoops hall.1
    rintro ⟨found, hfound, hsame⟩
    have hread' : s.emitSentinel.read = some before := hread
    obtain rfl : before = found := Option.some.inj (hread'.symm.trans hfound)
    rw [hsplit] at hpadded
    refine not_withPadding_of_stops hpadded hkind ?_ hsame
    have hother : ∀ e ∈ otherEntries emitted, ¬decide (e.kind = .oop) = true := by
      intro e he
      simpa [otherEntries] using (List.mem_filter.mp he).2
    have hstored : ∀ e ∈ (otherEntries emitted).map Entry.stored,
        ¬decide (e.kind = .oop) = true := by
      intro e he
      obtain ⟨e', he', rfl⟩ := List.mem_map.mp he
      exact hother e' he'
    rw [List.filter_append, List.filter_append, List.filter_eq_nil_iff.mpr hother,
      List.filter_eq_nil_iff.mpr hstored]

/-- Two oops, and an osr entry between them. -/
def literalsAndOsrEntry : List Action := [.code 8, .oop, .osrEntry 3, .code 4, .oop]

theorem read_compile_literalsAndOsrEntry :
    ∃ s', compile literalsAndOsrEntry (.initial (fun _ => 0) 64) =
        some (s', [⟨.oop, 8, []⟩, ⟨.osrStub, 8, [3]⟩, ⟨.oop, 12, []⟩]) ∧
      ∃ found, s'.read = some found ∧
        WithPadding found [⟨.oop, 8, []⟩, ⟨.oop, 12, []⟩, ⟨.osrStub, 8, [3]⟩] := by
  have hapart : OopsApart 0 [⟨.oop, 8, []⟩, ⟨.oop, 12, []⟩] := by simp [OopsApart]
  obtain ⟨s', hrun⟩ : ∃ s', compile literalsAndOsrEntry (.initial (fun _ => 0) 64) =
      some (s', [⟨.oop, 8, []⟩, ⟨.osrStub, 8, [3]⟩, ⟨.oop, 12, []⟩]) := ⟨_, rfl⟩
  exact ⟨s', hrun, (read_compile_iff hrun (by decide)).mpr ⟨hapart, by decide⟩⟩

/-- Two oops at one code offset. -/
def oopsTogether : List Action := [.code 8, .oop, .oop]

/-- The second one is the zero word, at which the reader stops. -/
theorem not_read_compile_oopsTogether :
    ∃ s', compile oopsTogether (.initial (fun _ => 0) 64) =
        some (s', [⟨.oop, 8, []⟩, ⟨.oop, 8, []⟩]) ∧
      s'.read = some [⟨.oop, 8, []⟩] ∧
      ¬∃ found, s'.read = some found ∧ WithPadding found [⟨.oop, 8, []⟩, ⟨.oop, 8, []⟩] := by
  obtain ⟨s', hrun, hread⟩ : ∃ s', compile oopsTogether (.initial (fun _ => 0) 64) =
      some (s', [⟨.oop, 8, []⟩, ⟨.oop, 8, []⟩]) ∧ s'.read = some [⟨.oop, 8, []⟩] :=
    ⟨_, rfl, by decide⟩
  refine ⟨s', hrun, hread, ?_⟩
  rintro ⟨found, hfound, hpadded⟩
  obtain rfl := Option.some.inj (hread.symm.trans hfound)
  cases hpadded with
  | entry _ hrest => cases hrest

end CldcVm.Compiler
