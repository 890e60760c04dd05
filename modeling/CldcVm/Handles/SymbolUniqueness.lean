import CldcVm.Handles.SymbolTable

/-!
# Symbols are unique

Results:

* `symbolFor_unique`: over any run of calls, two symbols are the same exactly if their byte strings
  are; no symbol is lost; a call that only checks leaves the table as it is; no probe loop goes on
  beyond the table.
-/

namespace CldcVm.Symbols

open Probing

/-! ## Comparisons -/

theorem byteAt_lt (s : Text) (i : ℕ) : byteAt s i < 2 ^ 8 := UInt8.toNat_lt _

variable {s : Text}

theorem eq_of_byteAt {t : Text} (hlen : s.length = t.length)
    (h : ∀ i < s.length, byteAt s i = byteAt t i) : s = t := by
  refine List.ext_getElem hlen ?_
  intro i hi hi'
  have hbyte := h i hi
  simp only [byteAt, List.getD_eq_getElem?_getD, List.getElem?_eq_getElem hi,
    List.getElem?_eq_getElem hi', Option.getD_some] at hbyte
  exact UInt8.toNat_inj.mp hbyte

theorem blob0_eq_iff {t : Text} (hs : s.length < 2 ^ 16) (ht : t.length < 2 ^ 16) :
    blob0 s = blob0 t ↔
      s.length = t.length ∧ byteAt s 0 = byteAt t 0 ∧ byteAt s 1 = byteAt t 1 := by
  have := byteAt_lt s 0
  have := byteAt_lt s 1
  have := byteAt_lt t 0
  have := byteAt_lt t 1
  unfold blob0
  omega

theorem blob1_eq_iff {t : Text} :
    blob1 s = blob1 t ↔ byteAt s 2 = byteAt t 2 ∧ byteAt s 3 = byteAt t 3 ∧
      byteAt s 4 = byteAt t 4 ∧ byteAt s 5 = byteAt t 5 := by
  have := byteAt_lt s 2
  have := byteAt_lt s 3
  have := byteAt_lt s 4
  have := byteAt_lt s 5
  have := byteAt_lt t 2
  have := byteAt_lt t 3
  have := byteAt_lt t 4
  have := byteAt_lt t 5
  unfold blob1
  omega

theorem matchesText_iff {old : Text} (hold : old.length < 2 ^ 16) :
    matchesText s old = true ↔ old = s := by
  simp only [matchesText, Bool.and_eq_true, beq_iff_eq, Nat.mod_eq_of_lt hold]
  constructor
  · rintro ⟨hlen, heq⟩
    rw [hlen, List.take_length] at heq
    exact heq.symm
  · rintro rfl
    exact ⟨rfl, (List.take_length).symm⟩

variable {old : SymbolDesc}

theorem short_iff (hs : s.length ≤ 2)
    (hold : old.utf8.length < 2 ^ 16) : blob0 s = old.body0 ↔ old.utf8 = s := by
  rw [SymbolDesc.body0, blob0_eq_iff (by omega) hold]
  constructor
  · rintro ⟨hlen, h0, h1⟩
    refine (eq_of_byteAt hlen ?_).symm
    intro i hi
    obtain rfl | rfl : i = 0 ∨ i = 1 := by omega
    · exact h0
    · exact h1
  · rintro rfl
    exact ⟨rfl, rfl, rfl⟩

/-- A text of three to six bytes is its first two words; the second one is a word of the symbol
where the first ones are equal. -/
theorem medium_iff (hs : 2 < s.length) (hs' : s.length ≤ 6) (hold : old.utf8.length < 2 ^ 16) :
    (blob0 s = old.body0 ∧ blob1 s = old.body1) ↔ old.utf8 = s := by
  rw [SymbolDesc.body0, blob0_eq_iff (by omega) hold, SymbolDesc.body1, headerSize]
  constructor
  · rintro ⟨⟨hlen, h0, h1⟩, hbody⟩
    rw [if_neg (by omega), blob1_eq_iff] at hbody
    obtain ⟨h2, h3, h4, h5⟩ := hbody
    refine (eq_of_byteAt hlen ?_).symm
    intro i hi
    obtain rfl | rfl | rfl | rfl | rfl | rfl :
      i = 0 ∨ i = 1 ∨ i = 2 ∨ i = 3 ∨ i = 4 ∨ i = 5 := by omega
    · exact h0
    · exact h1
    · exact h2
    · exact h3
    · exact h4
    · exact h5
  · rintro rfl
    rw [if_neg (by omega)]
    exact ⟨⟨rfl, rfl, rfl⟩, rfl⟩

/-- **Spec lemma** for the three loops: they all search for the same symbol. -/
theorem comparison_iff (hold : old.utf8.length < 2 ^ 16) :
    comparison s old = true ↔ old.utf8 = s := by
  rw [comparison]
  split
  · split
    · rw [beq_iff_eq, short_iff ‹_› hold]
    · rw [Bool.and_eq_true, beq_iff_eq, beq_iff_eq, medium_iff (by omega) (by omega) hold]
  · exact matchesText_iff hold

/-! ## Symbols in ROM -/

variable {s' : Text}

theorem eq_of_matchesText {old : Text} (h : matchesText s old = true)
    (h' : matchesText s' old = true) : s = s' := by
  simp only [matchesText, Bool.and_eq_true, beq_iff_eq] at h h'
  rw [h.2, h'.2, h.1, h'.1]

theorem bucketFor_spec {buckets : List (List Text)} {i p : ℕ}
    (h : bucketFor buckets s = some (i, p)) :
    ∃ old, (buckets.getD i [])[p]? = some old ∧ matchesText s old = true := by
  rw [bucketFor] at h
  split at h
  · rw [Option.map_eq_some_iff] at h
    obtain ⟨p', hfind, heq⟩ := h
    cases heq
    obtain ⟨hp, hmatch, -⟩ := List.findIdx?_eq_some_iff_getElem.mp hfind
    exact ⟨_, List.getElem?_eq_getElem hp, hmatch⟩
  · cases h

variable {ref : SymbolRef}

theorem romSymbolFor_spec :
    ∀ {images : List (List (List Text))} {m : ℕ}, romSymbolFor s images m = some ref →
      ∃ t i p old, ref = .rom (m + t) i p ∧ ((images.getD t []).getD i [])[p]? = some old ∧
        matchesText s old = true := by
  intro images
  induction images with
  | nil =>
    intro m h
    cases h
  | cons buckets images ih =>
    intro m h
    rw [romSymbolFor] at h
    split at h
    · rename_i i p hbucket
      cases h
      obtain ⟨old, hold, hmatch⟩ := bucketFor_spec hbucket
      exact ⟨0, i, p, old, rfl, hold, hmatch⟩
    · obtain ⟨t, i, p, old, rfl, hold, hmatch⟩ := ih h
      refine ⟨t + 1, i, p, old, ?_, hold, hmatch⟩
      rw [Nat.add_right_comm, Nat.add_assoc]

theorem romSymbolFor_inj {images : List (List (List Text))}
    (h : romSymbolFor s images 0 = some ref) (h' : romSymbolFor s' images 0 = some ref) :
    s = s' := by
  obtain ⟨t, i, p, old, rfl, hold, hmatch⟩ := romSymbolFor_spec h
  obtain ⟨t', i', p', old', heq, hold', hmatch'⟩ := romSymbolFor_spec h'
  simp only [Nat.zero_add, SymbolRef.rom.injEq] at heq
  obtain ⟨rfl, rfl, rfl⟩ := heq
  rw [hold] at hold'
  cases hold'
  exact eq_of_matchesText hmatch hmatch'

theorem romSymbolFor_ne_heap {images : List (List (List Text))} {id : ℕ} :
    romSymbolFor s images 0 ≠ some (.heap id) := by
  intro h
  obtain ⟨t, i, p, old, heq, -⟩ := romSymbolFor_spec h
  cases heq

/-! ## Growth -/

namespace SymbolTable

/-- The length is a power of two, and the entries are where a search finds them. -/
structure Wf (t : SymbolTable) : Prop where
  pow : ∃ k, t.length = 2 ^ k
  placed : Placed SymbolDesc.utf8 hash t.length t.slot

/-- The symbol is in the table. -/
def Holds (t : SymbolTable) (d : SymbolDesc) : Prop := Stored t.slot t.length d

variable {t : SymbolTable} {d : SymbolDesc}

theorem Wf.length_pos (h : t.Wf) : 0 < t.length := by
  obtain ⟨k, hk⟩ := h.pow
  rw [hk]
  exact Nat.two_pow_pos k

theorem Wf.and_mask (h : t.Wf) (x : ℕ) : x &&& t.mask = x % t.length := by
  obtain ⟨k, hk⟩ := h.pow
  rw [mask, hk, Nat.and_two_pow_sub_one_eq_mod]

theorem Wf.next_eq (h : t.Wf) : ∀ i < t.length, t.next i = (i + 1) % t.length :=
  fun i _ => h.and_mask (i + 1)

theorem Wf.search_eq (h : t.Wf) (hit : SymbolDesc → Bool) (s : Text) : t.search hit s =
      probe t.slot hit t.next (hash s % t.length) t.length (hash s % t.length) := by
  rw [search, h.and_mask]

theorem wf_init (k : ℕ) : (init (2 ^ k)).Wf := ⟨⟨k, rfl⟩, placed_empty⟩

theorem not_holds_init {size : ℕ} : ¬(init size).Holds d := by
  rintro ⟨i, -, h⟩
  cases h

theorem Wf.put (h : t.Wf) {hit : SymbolDesc → Bool} {index : ℕ}
    (hsearch : t.search hit d.utf8 = some (.hole index)) (hnew : ∀ b, t.Holds b → b.utf8 ≠ d.utf8) :
    (t.put index d).Wf ∧ (∀ b, (t.put index d).Holds b ↔ b = d ∨ t.Holds b) ∧ index < t.length := by
  rw [h.search_eq] at hsearch
  obtain ⟨hindex, hnone⟩ := hole_spec h.next_eq h.length_pos hsearch
  exact ⟨⟨h.pow, h.placed.put h.next_eq h.length_pos hsearch hnew⟩,
    fun b => stored_put hindex hnone, hindex⟩

/-- **Spec lemma** for `insert`: in a table with a free slot its loop ends there. -/
theorem Wf.insert (h : t.Wf) (hfree : (occupied t.slot t.length).card < t.length)
    (hnew : ∀ b, t.Holds b → b.utf8 ≠ d.utf8) :
    ∃ t', t.insert d = some t' ∧ t'.length = t.length ∧ t'.Wf ∧
      (∀ b, t'.Holds b ↔ b = d ∨ t.Holds b) ∧
      (occupied t'.slot t'.length).card ≤ (occupied t.slot t.length).card + 1 := by
  obtain ⟨index, hprobe⟩ := @probe_hole_of_card_lt _ _ hash _ _ _ d.utf8 h.next_eq hfree
  have hsearch : t.search (fun _ => false) d.utf8 = some (.hole index) := by
    rw [h.search_eq, hprobe]
  obtain ⟨hwf, hholds, hindex⟩ := h.put hsearch hnew
  refine ⟨t.put index d, ?_, rfl, hwf, hholds, card_occupied_put_le hindex⟩
  rw [SymbolTable.insert, hsearch]

/-- What the loop of `grow_and_replace_symbol_table` has moved after `m` steps. -/
structure Moved (t new : SymbolTable) (m : ℕ) : Prop where
  length : new.length = t.length * 2
  wf : new.Wf
  holds : ∀ b, new.Holds b ↔ ∃ i < m, t.slot i = some b
  card : (occupied new.slot new.length).card ≤ m

/-- **Step lemma** for the loop. -/
theorem Moved.step (h : t.Wf) {new : SymbolTable} {m : ℕ} (hm : m < t.length)
    (hmoved : Moved t new m) : ∃ new', t.move new m = some new' ∧ Moved t new' (m + 1) := by
  rw [move]
  cases hslot : t.slot m with
  | none =>
    refine ⟨new, rfl, hmoved.length, hmoved.wf, fun b => ?_, Nat.le_succ_of_le hmoved.card⟩
    rw [hmoved.holds]
    constructor
    · rintro ⟨i, hi, hb⟩
      exact ⟨i, Nat.lt_succ_of_lt hi, hb⟩
    · rintro ⟨i, hi, hb⟩
      have hne : i ≠ m := by
        rintro rfl
        rw [hslot] at hb
        cases hb
      exact ⟨i, by omega, hb⟩
  | some symbol =>
    have hnew : ∀ b, new.Holds b → b.utf8 ≠ symbol.utf8 := by
      intro b hb heq
      obtain ⟨i, hi, hib⟩ := (hmoved.holds b).mp hb
      have := h.placed.inj i (by omega) m hm b symbol hib hslot heq
      omega
    have hfree : (occupied new.slot new.length).card < new.length := by
      have := hmoved.card
      rw [hmoved.length] at this ⊢
      omega
    obtain ⟨new', hinsert, hlength, hwf, hholds, hcard⟩ := hmoved.wf.insert hfree hnew
    refine ⟨new', hinsert, hlength.trans hmoved.length, hwf, fun b => ?_,
      hcard.trans (Nat.succ_le_succ hmoved.card)⟩
    rw [hholds, hmoved.holds]
    constructor
    · rintro (rfl | ⟨i, hi, hb⟩)
      · exact ⟨m, Nat.lt_succ_self m, hslot⟩
      · exact ⟨i, Nat.lt_succ_of_lt hi, hb⟩
    · rintro ⟨i, hi, hb⟩
      obtain hlt | rfl := Nat.lt_succ_iff_lt_or_eq.mp hi
      · exact .inr ⟨i, hlt, hb⟩
      · rw [hslot] at hb
        exact .inl (Option.some.inj hb).symm

/-- **Run lemma** for the loop. -/
theorem Wf.moved (h : t.Wf) : ∀ m ≤ t.length,
    ∃ new, (List.range m).foldlM t.move (init (t.length * 2)) = some new ∧ Moved t new m := by
  intro m
  induction m with
  | zero =>
    intro _
    obtain ⟨k, hk⟩ := h.pow
    refine ⟨_, rfl, rfl, ?_, fun b => ?_, ?_⟩
    · rw [hk, ← Nat.pow_succ]
      exact wf_init (k + 1)
    · simp [not_holds_init]
    · simp [init, occupied_empty]
  | succ m ih =>
    intro hm
    obtain ⟨new, hfold, hmoved⟩ := ih (by omega)
    obtain ⟨new', hmove, hmoved'⟩ := hmoved.step h (by omega)
    refine ⟨new', ?_, hmoved'⟩
    rw [List.range_succ, List.foldlM_append, hfold]
    simp [hmove]

/-- **Spec lemma** for `grow_and_replace_symbol_table`: with or without memory, the table holds the
same symbols afterwards. -/
theorem Wf.grow (h : t.Wf) (allocated : Bool) :
    ∃ t', t.growAndReplaceSymbolTable allocated = some t' ∧ t'.Wf ∧
      ∀ b, t'.Holds b ↔ t.Holds b := by
  cases allocated with
  | false => exact ⟨t, rfl, h, fun _ => Iff.rfl⟩
  | true =>
    obtain ⟨new, hfold, hmoved⟩ := h.moved t.length le_rfl
    exact ⟨new, hfold, hmoved.wf, hmoved.holds⟩

theorem Wf.growIfNeeded (h : t.Wf) (newCount : ℕ) (allocated : Bool) :
    ∃ t', t.growIfNeeded newCount allocated = some t' ∧ t'.Wf ∧ ∀ b, t'.Holds b ↔ t.Holds b := by
  rw [SymbolTable.growIfNeeded]
  split
  · exact h.grow allocated
  · exact ⟨t, rfl, h, fun _ => Iff.rfl⟩

end SymbolTable

/-! ## Calls -/

section Calls

variable {images : List (List (List Text))} {st : State} {c : Call}

/-- The invariant of the state of a task. -/
structure Sound (images : List (List (List Text))) (st : State) : Prop where
  wf : st.table.Wf
  created : ∀ d, st.table.Holds d → d.id < st.created
  short : ∀ d, st.table.Holds d → d.utf8.length ≤ 0xfff0
  notRom : ∀ d, st.table.Holds d → romSymbolFor d.utf8 images 0 = none
  ids : ∀ d d', st.table.Holds d → st.table.Holds d' → d.id = d'.id → d = d'

/-- The symbol has been entered, or is in ROM, with these bytes. -/
def Denotes (images : List (List (List Text))) (st : State) (ref : SymbolRef) (s : Text) : Prop :=
  romSymbolFor s images 0 = some ref ∨ ∃ d, st.table.Holds d ∧ ref = .heap d.id ∧ d.utf8 = s

theorem sound_initial (k : ℕ) : Sound images (initial k) where
  wf := SymbolTable.wf_init k
  created := fun _ h => absurd h SymbolTable.not_holds_init
  short := fun _ h => absurd h SymbolTable.not_holds_init
  notRom := fun _ h => absurd h SymbolTable.not_holds_init
  ids := fun _ _ h => absurd h SymbolTable.not_holds_init

theorem Sound.text_unique (h : Sound images st)
    (hs : Denotes images st ref s) (hs' : Denotes images st ref s') : s = s' := by
  obtain hrom | ⟨d, hd, rfl, rfl⟩ := hs
  · obtain hrom' | ⟨d', -, rfl, -⟩ := hs'
    · exact romSymbolFor_inj hrom hrom'
    · exact absurd hrom romSymbolFor_ne_heap
  · obtain hrom' | ⟨d', hd', heq, rfl⟩ := hs'
    · exact absurd hrom' romSymbolFor_ne_heap
    · rw [h.ids d d' hd hd' (SymbolRef.heap.inj heq)]

theorem Sound.ref_unique (h : Sound images st) {ref' : SymbolRef}
    (hs : Denotes images st ref s) (hs' : Denotes images st ref' s) : ref = ref' := by
  obtain hrom | ⟨d, hd, rfl, rfl⟩ := hs
  · obtain hrom' | ⟨d', hd', rfl, rfl⟩ := hs'
    · rw [hrom] at hrom'
      exact Option.some.inj hrom'
    · rw [h.notRom d' hd'] at hrom
      cases hrom
  · obtain hrom' | ⟨d', hd', rfl, heq⟩ := hs'
    · rw [h.notRom d hd] at hrom'
      cases hrom'
    · rw [h.wf.placed.eq_of_key hd hd' heq.symm]

/-- What one call does: the symbol it returns has the text, and what has been entered is kept. -/
structure Answered (images : List (List (List Text))) (st : State) (c : Call) (r : Return)
    (st' : State) : Prop where
  sound : Sound images st'
  denotes : ∀ ref, r = .symbol ref → Denotes images st' ref c.text
  keeps : ∀ ref s, Denotes images st ref s → Denotes images st' ref s
  finds : ∀ ref, c.text.length ≤ 0xfff0 → Denotes images st ref c.text → r = .symbol ref
  checks : c.checkOnly = true → st' = st

theorem Sound.answered_none (h : Sound images st) {r : Return} (hr : ∀ ref, r ≠ .symbol ref)
    (hnone : c.text.length ≤ 0xfff0 → ∀ ref, ¬Denotes images st ref c.text) :
    Answered images st c r st where
  sound := h
  denotes := fun ref heq => absurd heq (hr ref)
  keeps := fun _ _ hs => hs
  finds := fun ref hlen hs => absurd hs (hnone hlen ref)
  checks := fun _ => rfl

theorem Sound.answered_found (h : Sound images st)
    (hs : Denotes images st ref c.text) : Answered images st c (.symbol ref) st where
  sound := h
  denotes := by
    intro ref' heq
    cases heq
    exact hs
  keeps := fun _ _ hs' => hs'
  finds := fun ref' _ hs' => congrArg Return.symbol (h.ref_unique hs hs')
  checks := fun _ => rfl

theorem Sound.hit_iff (h : Sound images st) (s : Text) :
    ∀ b, Stored st.table.slot st.table.length b → (comparison s b = true ↔ b.utf8 = s) :=
  fun b hb => comparison_iff (lt_of_le_of_lt (h.short b hb) (by decide))

theorem Sound.not_denotes (h : Sound images st) (hrom : romSymbolFor s images 0 = none)
    (hsearch : ∀ old, st.table.search (comparison s) s ≠ some (.found old)) (ref : SymbolRef) :
    ¬Denotes images st ref s := by
  rintro (hrom' | ⟨d, hd, rfl, rfl⟩)
  · rw [hrom] at hrom'
    cases hrom'
  · refine hsearch d ?_
    rw [h.wf.search_eq]
    exact h.wf.placed.probe_eq_found h.wf.next_eq (h.hit_iff d.utf8) hd rfl

/-- **Spec lemma** for a new symbol. -/
theorem Sound.enter (h : Sound images st) {index : ℕ} (hlen : c.text.length ≤ 0xfff0)
    (hrom : romSymbolFor c.text images 0 = none) (hcreates : c.checkOnly = false)
    (hsearch : st.table.search (comparison c.text) c.text = some (.hole index)) :
    ∃ r st', enter st c index = some (r, st') ∧ Answered images st c r st' := by
  have hnone : ∀ ref, ¬Denotes images st ref c.text := by
    refine h.not_denotes hrom ?_
    intro old heq
    rw [hsearch] at heq
    cases heq
  rw [Symbols.enter]
  cases hmemory : c.newSymbol with
  | none => exact ⟨.outOfMemory, st, rfl, h.answered_none (by simp) (fun _ => hnone)⟩
  | some behind =>
    set symbol : SymbolDesc := ⟨st.created, c.text, behind⟩ with hsymbol
    have hnew : ∀ b, st.table.Holds b → b.utf8 ≠ symbol.utf8 := fun b hb heq =>
      hnone (.heap b.id) (.inr ⟨b, hb, rfl, heq⟩)
    obtain ⟨hwf, hholds, -⟩ := @SymbolTable.Wf.put _ symbol h.wf _ _ hsearch hnew
    obtain ⟨grown, hgrown, hwf', hholds'⟩ := hwf.growIfNeeded (st.count + 1) c.newTable
    have hall : ∀ b, grown.Holds b ↔ b = symbol ∨ st.table.Holds b := fun b =>
      (hholds' b).trans (hholds b)
    refine ⟨.symbol (.heap st.created), ⟨grown, st.count + 1, st.created + 1⟩, ?_, ?_⟩
    · simp [← hsymbol, hgrown]
    refine ⟨⟨hwf', ?_, ?_, ?_, ?_⟩, ?_, ?_, ?_, ?_⟩
    · intro d hd
      obtain rfl | hold := (hall d).mp hd
      · exact Nat.lt_succ_self _
      · exact Nat.lt_succ_of_lt (h.created d hold)
    · intro d hd
      obtain rfl | hold := (hall d).mp hd
      · exact hlen
      · exact h.short d hold
    · intro d hd
      obtain rfl | hold := (hall d).mp hd
      · exact hrom
      · exact h.notRom d hold
    · intro d d' hd hd' heq
      obtain rfl | hold := (hall d).mp hd <;> obtain rfl | hold' := (hall d').mp hd'
      · rfl
      · exact absurd heq.symm (h.created d' hold').ne
      · exact absurd heq (h.created d hold).ne
      · exact h.ids d d' hold hold' heq
    · intro ref heq
      cases heq
      exact .inr ⟨symbol, (hall symbol).mpr (.inl rfl), rfl, rfl⟩
    · rintro ref s (hs | ⟨d, hd, rfl, rfl⟩)
      · exact .inl hs
      · exact .inr ⟨d, (hall d).mpr (.inr hd), rfl, rfl⟩
    · exact fun ref _ hs => absurd hs (hnone ref)
    · intro hcheck
      rw [hcreates] at hcheck
      cases hcheck

/-- **Step lemma**: every loop of a call ends, and the call answers as it should. -/
theorem Sound.symbolFor (h : Sound images st) (c : Call) :
    ∃ r st', symbolFor images st c = some (r, st') ∧ Answered images st c r st' := by
  rw [Symbols.symbolFor]
  split
  · exact ⟨_, st, rfl, h.answered_none (by simp) (fun hlen => by omega)⟩
  have hlen : c.text.length ≤ 0xfff0 := by omega
  cases hrom : romSymbolFor c.text images 0 with
  | some oldSym => exact ⟨_, st, rfl, h.answered_found (.inl hrom)⟩
  | none =>
    obtain ⟨out, hprobe, -⟩ := probe_total st.table.slot (comparison c.text) h.wf.next_eq
      (Nat.mod_lt (hash c.text) h.wf.length_pos)
    rw [← h.wf.search_eq] at hprobe
    rw [hprobe]
    cases out with
    | found old =>
      rw [h.wf.search_eq] at hprobe
      obtain ⟨hstored, hhit⟩ := stored_of_found h.wf.next_eq h.wf.length_pos hprobe
      exact ⟨_, st, rfl, h.answered_found
        (.inr ⟨old, hstored, rfl, (h.hit_iff c.text old hstored).mp hhit⟩)⟩
    | hole index =>
      cases hcheck : c.checkOnly with
      | true =>
        refine ⟨.null, st, rfl, h.answered_none (by simp) fun _ => h.not_denotes hrom ?_⟩
        intro old heq
        rw [hprobe] at heq
        cases heq
      | false => exact h.enter hlen hrom hcheck hprobe
    | full =>
      have hnone : ∀ ref, ¬Denotes images st ref c.text := by
        refine h.not_denotes hrom ?_
        intro old heq
        rw [hprobe] at heq
        cases heq
      cases hcheck : c.checkOnly with
      | true => exact ⟨.null, st, rfl, h.answered_none (by simp) fun _ => hnone⟩
      | false => exact ⟨.outOfMemory, st, rfl, h.answered_none (by simp) fun _ => hnone⟩

theorem length_of_symbol {r : Return} {st' : State}
    (hcall : symbolFor images st c = some (r, st')) (hr : r = .symbol ref) :
    c.text.length ≤ 0xfff0 := by
  by_contra hlong
  rw [symbolFor, if_pos (by omega)] at hcall
  cases hcall
  cases hr

/-- What a run of calls does. -/
structure Ran (images : List (List (List Text))) (st : State) (calls : List Call)
    (returns : List Return) (st' : State) : Prop where
  length : returns.length = calls.length
  sound : Sound images st'
  keeps : ∀ ref s, Denotes images st ref s → Denotes images st' ref s
  denotes : ∀ (i : ℕ) (c : Call) (ref : SymbolRef), calls[i]? = some c →
    returns[i]? = some (.symbol ref) → Denotes images st' ref c.text ∧ c.text.length ≤ 0xfff0
  finds : ∀ (i : ℕ) (c : Call) (ref : SymbolRef), calls[i]? = some c →
    c.text.length ≤ 0xfff0 → Denotes images st ref c.text → returns[i]? = some (.symbol ref)
  later : ∀ (i j : ℕ) (c c' : Call) (ref : SymbolRef), i < j → calls[i]? = some c →
    calls[j]? = some c' → returns[i]? = some (.symbol ref) → c'.text = c.text →
    returns[j]? = some (.symbol ref)

/-- **Run lemma**. -/
theorem Sound.run : ∀ (calls : List Call) {st : State}, Sound images st →
    ∃ returns st', run images st calls = some (returns, st') ∧ Ran images st calls returns st' := by
  intro calls
  induction calls with
  | nil =>
    intro st h
    exact ⟨[], st, rfl, rfl, h, fun _ _ hs => hs, by simp, by simp, by simp⟩
  | cons c calls ih =>
    intro st h
    obtain ⟨r, st₁, hcall, hanswer⟩ := h.symbolFor c
    obtain ⟨returns, st₂, hrun, hran⟩ := ih hanswer.sound
    have hheard : ∀ ref, r = .symbol ref →
        Denotes images st₁ ref c.text ∧ c.text.length ≤ 0xfff0 := fun ref hr =>
      ⟨hanswer.denotes ref hr, length_of_symbol hcall hr⟩
    refine ⟨r :: returns, st₂, ?_, ?_, hran.sound, ?_, ?_, ?_, ?_⟩
    · simp [Symbols.run, hcall, hrun]
    · simp [hran.length]
    · exact fun ref s hs => hran.keeps ref s (hanswer.keeps ref s hs)
    · intro i c' ref hc hr
      cases i with
      | zero =>
        simp only [List.getElem?_cons_zero, Option.some.injEq] at hc hr
        subst hc
        exact ⟨hran.keeps _ _ (hheard ref hr).1, (hheard ref hr).2⟩
      | succ i => exact hran.denotes i c' ref hc hr
    · intro i c' ref hc hlen hs
      cases i with
      | zero =>
        simp only [List.getElem?_cons_zero, Option.some.injEq] at hc
        subst hc
        rw [List.getElem?_cons_zero, hanswer.finds ref hlen hs]
      | succ i => exact hran.finds i c' ref hc hlen (hanswer.keeps ref _ hs)
    · intro i j c' c'' ref hij hc hc' hr heq
      obtain ⟨j, rfl⟩ : ∃ j', j = j' + 1 := ⟨j - 1, by omega⟩
      cases i with
      | zero =>
        simp only [List.getElem?_cons_zero, Option.some.injEq] at hc hr
        subst hc
        obtain ⟨hdenotes, hlen⟩ := hheard ref hr
        rw [← heq] at hdenotes hlen
        exact hran.finds j c'' ref hc' hlen hdenotes
      | succ i => exact hran.later i j c' c'' ref (by omega) hc hc' hr heq

/-- **Main theorem**. From the empty table of a task on, whatever is called and however much memory
there is, every loop ends; two symbols are the same exactly if their byte strings are; a symbol that
has been returned is returned again for the same bytes; and a call that only checks changes
nothing. -/
theorem symbolFor_unique (images : List (List (List Text))) (k : ℕ) (calls : List Call) :
    ∃ returns st, Symbols.run images (initial k) calls = some (returns, st) ∧
      returns.length = calls.length ∧
      (∀ (i j : ℕ) (c c' : Call) (ref ref' : SymbolRef), calls[i]? = some c →
        calls[j]? = some c' → returns[i]? = some (.symbol ref) →
        returns[j]? = some (.symbol ref') → (ref = ref' ↔ c.text = c'.text)) ∧
      (∀ (i j : ℕ) (c c' : Call) (ref : SymbolRef), i < j → calls[i]? = some c →
        calls[j]? = some c' → returns[i]? = some (.symbol ref) → c'.text = c.text →
        returns[j]? = some (.symbol ref)) ∧
      (∀ c : Call, c.checkOnly = true → ∃ r, symbolFor images st c = some (r, st)) := by
  obtain ⟨returns, st, hrun, hran⟩ := (sound_initial k : Sound images (initial k)).run calls
  refine ⟨returns, st, hrun, hran.length, ?_, hran.later, ?_⟩
  · intro i j c c' ref ref' hc hc' hr hr'
    obtain ⟨hs, -⟩ := hran.denotes i c ref hc hr
    obtain ⟨hs', -⟩ := hran.denotes j c' ref' hc' hr'
    constructor
    · rintro rfl
      exact hran.sound.text_unique hs hs'
    · intro heq
      rw [← heq] at hs'
      exact hran.sound.ref_unique hs hs'
  · intro c hcheck
    obtain ⟨r, st', hcall, hanswer⟩ := hran.sound.symbolFor c
    rw [hanswer.checks hcheck] at hcall
    exact ⟨r, hcall⟩

-- a table of one slot that cannot grow is full after the first symbol, which is still found
example : (Symbols.run [] (initial 0) [⟨[65], false, some 7, false⟩, ⟨[66], false, some 7, true⟩,
      ⟨[65], true, none, true⟩]).map Prod.fst =
    some [.symbol (.heap 0), .outOfMemory, .symbol (.heap 0)] := by decide

end Calls

end CldcVm.Symbols
