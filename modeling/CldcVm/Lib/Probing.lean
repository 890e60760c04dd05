import Mathlib.Data.Finset.Card

/-!
# Open addressing with linear probing

A table of `n` slots, in which an entry is at the first free slot from the home of its key on,
around the end of the table. An entry that is in the table is found as long as no hole comes between its
home and its slot.

Results:

* `probe_total`: a search ends within `n` reads.
* `Placed.probe_eq_found`, `Placed.stored_of_found`: it finds what is stored under the key, and
  nothing else.
* `Placed.put`: an entry put in the hole that the search of its key has come to keeps the table.
* `probe_hole_of_card_lt`: a table that is not full has a hole.
-/

namespace CldcVm.Probing

open Function (update update_apply update_of_ne update_self)

variable {α κ : Type*}

/-- How a search ends. -/
inductive Probe (α : Type*)
  | found (a : α)
  | hole (index : ℕ)
  | full
deriving DecidableEq

/-- The search from `index` on, until the next index is `start` again. At most `fuel` reads. -/
def probe (slot : ℕ → Option α) (hit : α → Bool) (next : ℕ → ℕ) (start : ℕ) :
    (fuel : ℕ) → (index : ℕ) → Option (Probe α)
  | 0, _ => none
  | fuel + 1, index =>
    match slot index with
    | none => some (.hole index)
    | some old =>
      if hit old then some (.found old)
      else if next index = start then some .full
      else probe slot hit next start fuel (next index)

/-! ## The order of the slots -/

/-- The slot that is `d` steps after `start`. -/
def stepped (n start d : ℕ) : ℕ := (start + d) % n

theorem stepped_lt {n start d : ℕ} (hn : 0 < n) : stepped n start d < n := Nat.mod_lt _ hn

theorem stepped_zero {n start : ℕ} (h : start < n) : stepped n start 0 = start :=
  Nat.mod_eq_of_lt h

theorem stepped_succ (n start d : ℕ) : (stepped n start d + 1) % n = stepped n start (d + 1) := by
  simp only [stepped, Nat.mod_add_mod, Nat.add_assoc]

theorem stepped_self {n start : ℕ} (h : start < n) : stepped n start n = start := by
  simp only [stepped, Nat.add_mod_right, Nat.mod_eq_of_lt h]

theorem stepped_ne {n start d : ℕ} (h : start < n) (hd : 0 < d) (hdn : d < n) :
    stepped n start d ≠ start := by
  intro heq
  by_cases hwrap : start + d < n
  · rw [stepped, Nat.mod_eq_of_lt hwrap] at heq
    omega
  · rw [stepped, Nat.mod_eq_sub_mod (by omega), Nat.mod_eq_of_lt (by omega)] at heq
    omega

variable {i : ℕ}

/-- Every slot is met from `start` on. -/
theorem exists_stepped {n start : ℕ} (h : start < n) (hi : i < n) :
    ∃ d < n, stepped n start d = i := by
  by_cases hle : start ≤ i
  · refine ⟨i - start, by omega, ?_⟩
    rw [stepped, Nat.add_sub_cancel' hle, Nat.mod_eq_of_lt hi]
  · refine ⟨i + n - start, by omega, ?_⟩
    rw [stepped, Nat.add_sub_cancel' (by omega), Nat.add_mod_right, Nat.mod_eq_of_lt hi]

/-! ## The search -/

section Search

variable {slot : ℕ → Option α} {hit : α → Bool} {next : ℕ → ℕ} {n start : ℕ}

/-- The first `d` slots from `start` on hold entries that are not what is searched. -/
def Passed (slot : ℕ → Option α) (hit : α → Bool) (n start d : ℕ) : Prop :=
  ∀ e < d, ∃ b, slot (stepped n start e) = some b ∧ hit b = false

/-- What the outcome of a search from `start` on says of the table. -/
def Outcome (slot : ℕ → Option α) (hit : α → Bool) (n start : ℕ) : Probe α → Prop
  | .found a => ∃ d < n, slot (stepped n start d) = some a ∧ hit a = true ∧
      Passed slot hit n start d
  | .hole i => ∃ d < n, i = stepped n start d ∧ slot i = none ∧ Passed slot hit n start d
  | .full => Passed slot hit n start n

theorem Passed.succ {d : ℕ} {b : α} (h : Passed slot hit n start d)
    (hslot : slot (stepped n start d) = some b) (hb : hit b = false) :
    Passed slot hit n start (d + 1) := by
  intro e he
  obtain hlt | rfl := Nat.lt_succ_iff_lt_or_eq.mp he
  · exact h e hlt
  · exact ⟨b, hslot, hb⟩

variable (slot hit) in
/-- **Run lemma**: the search from the slot at distance `d` on. -/
theorem probe_from (hnext : ∀ i < n, next i = (i + 1) % n) (hstart : start < n) :
    ∀ fuel d, d + fuel = n → 0 < fuel → Passed slot hit n start d →
      ∃ out, probe slot hit next start fuel (stepped n start d) = some out ∧
        Outcome slot hit n start out := by
  intro fuel
  induction fuel with
  | zero => omega
  | succ fuel ih =>
    intro d hd _ hpassed
    have hdn : d < n := by omega
    simp only [probe]
    cases hslot : slot (stepped n start d) with
    | none => exact ⟨.hole _, rfl, d, hdn, rfl, hslot, hpassed⟩
    | some old =>
      by_cases hold : hit old = true
      · simp only [if_pos hold]
        exact ⟨.found old, rfl, d, hdn, hslot, hold, hpassed⟩
      · simp only [if_neg hold]
        have hpassed' := hpassed.succ hslot (Bool.eq_false_iff.mpr hold)
        rw [hnext _ (stepped_lt (by omega)), stepped_succ]
        by_cases hlast : d + 1 = n
        · -- the whole table has been read: the index is back at `start`
          rw [hlast, stepped_self hstart, if_pos rfl]
          exact ⟨.full, rfl, hlast ▸ hpassed'⟩
        · rw [if_neg (stepped_ne hstart (Nat.succ_pos d) (by omega))]
          exact ih (d + 1) (by omega) (by omega) hpassed'

variable (slot hit) in
/-- **Spec lemma**: a search ends within `n` reads. -/
theorem probe_total (hnext : ∀ i < n, next i = (i + 1) % n) (hstart : start < n) :
    ∃ out, probe slot hit next start n start = some out ∧ Outcome slot hit n start out := by
  have h := probe_from slot hit hnext hstart n 0 (by omega) (by omega) (by intro e he; omega)
  rwa [stepped_zero hstart] at h

/-- What a search has come up with is so. -/
theorem outcome_of_probe (hnext : ∀ i < n, next i = (i + 1) % n) (hstart : start < n)
    {out : Probe α} (h : probe slot hit next start n start = some out) :
    Outcome slot hit n start out := by
  obtain ⟨out', heq, hout⟩ := probe_total slot hit hnext hstart
  rw [heq] at h
  cases h
  exact hout

end Search

/-! ## Tables -/

section Tables

/-- The entry is in one of the `n` slots. -/
def Stored (slot : ℕ → Option α) (n : ℕ) (a : α) : Prop := ∃ i < n, slot i = some a

/-- The table with no entry. -/
def empty : ℕ → Option α := fun _ => none

/-- No hole comes between the home of an entry and its slot, and no key is stored twice. -/
structure Placed (key : α → κ) (hash : κ → ℕ) (n : ℕ) (slot : ℕ → Option α) : Prop where
  reach : ∀ i < n, ∀ a, slot i = some a → ∃ d < n, i = stepped n (hash (key a) % n) d ∧
    ∀ e < d, (slot (stepped n (hash (key a) % n) e)).isSome
  inj : ∀ i < n, ∀ j < n, ∀ a b, slot i = some a → slot j = some b → key a = key b → i = j

variable {key : α → κ} {hash : κ → ℕ} {n : ℕ} {slot : ℕ → Option α} {hit : α → Bool}
  {next : ℕ → ℕ} {k : κ} {a b : α}

theorem placed_empty : Placed key hash n (empty : ℕ → Option α) where
  reach := by
    intro i _ a ha
    cases ha
  inj := by
    intro i _ j _ a b ha
    cases ha

theorem Placed.eq_of_key (h : Placed key hash n slot) (ha : Stored slot n a)
    (hb : Stored slot n b) (heq : key a = key b) : a = b := by
  obtain ⟨i, hi, hai⟩ := ha
  obtain ⟨j, hj, hbj⟩ := hb
  obtain rfl := h.inj i hi j hj a b hai hbj heq
  rw [hai] at hbj
  exact Option.some.inj hbj

theorem Placed.probe_eq_found (h : Placed key hash n slot) (hnext : ∀ i < n, next i = (i + 1) % n)
    (hhit : ∀ b, Stored slot n b → (hit b = true ↔ key b = k)) (ha : Stored slot n a)
    (hk : key a = k) :
    probe slot hit next (hash k % n) n (hash k % n) = some (.found a) := by
  obtain ⟨i, hi, hai⟩ := ha
  have hn : 0 < n := by omega
  have hhita : hit a = true := (hhit a ⟨i, hi, hai⟩).mpr hk
  obtain ⟨d, hd, rfl, hfull⟩ := h.reach i hi a hai
  rw [hk] at hai hfull
  obtain ⟨out, heq, hout⟩ := probe_total slot hit hnext (Nat.mod_lt (hash k) hn)
  rw [heq]
  cases out with
  | found b =>
    obtain ⟨e, -, hslot, hhitb, -⟩ := hout
    have hb : Stored slot n b := ⟨_, stepped_lt hn, hslot⟩
    have hba : b = a :=
      h.eq_of_key hb ⟨_, stepped_lt hn, hai⟩ (((hhit b hb).mp hhitb).trans hk.symm)
    rw [hba]
  | hole j =>
    obtain ⟨e, -, rfl, hnone, hpassed⟩ := hout
    obtain hlt | rfl | hgt := Nat.lt_trichotomy e d
    · -- a hole before the slot of the entry
      have := hfull e hlt
      rw [hnone] at this
      cases this
    · rw [hai] at hnone
      cases hnone
    · obtain ⟨b, hb, hmiss⟩ := hpassed d hgt
      rw [hai] at hb
      cases hb
      rw [hhita] at hmiss
      cases hmiss
  | full =>
    obtain ⟨b, hb, hmiss⟩ := hout d hd
    rw [hai] at hb
    cases hb
    rw [hhita] at hmiss
    cases hmiss

theorem stored_of_found (hnext : ∀ i < n, next i = (i + 1) % n) (hn : 0 < n)
    (h : probe slot hit next (hash k % n) n (hash k % n) = some (.found a)) :
    Stored slot n a ∧ hit a = true := by
  obtain ⟨d, -, hslot, hhit, -⟩ := outcome_of_probe hnext (Nat.mod_lt (hash k) hn) h
  exact ⟨⟨_, stepped_lt hn, hslot⟩, hhit⟩

theorem hole_spec (hnext : ∀ i < n, next i = (i + 1) % n) (hn : 0 < n)
    (h : probe slot hit next (hash k % n) n (hash k % n) = some (.hole i)) :
    i < n ∧ slot i = none := by
  obtain ⟨d, -, rfl, hnone, -⟩ := outcome_of_probe hnext (Nat.mod_lt (hash k) hn) h
  exact ⟨stepped_lt hn, hnone⟩

theorem stored_put (hi : i < n) (hnone : slot i = none) :
    Stored (update slot i (some a)) n b ↔ b = a ∨ Stored slot n b := by
  constructor
  · rintro ⟨j, hj, hslot⟩
    by_cases hji : j = i
    · rw [hji, update_self] at hslot
      exact .inl (Option.some.inj hslot).symm
    · rw [update_of_ne hji] at hslot
      exact .inr ⟨j, hj, hslot⟩
  · rintro (rfl | ⟨j, hj, hslot⟩)
    · exact ⟨i, hi, update_self ..⟩
    · have hji : j ≠ i := by
        rintro rfl
        rw [hnone] at hslot
        cases hslot
      exact ⟨j, hj, (update_of_ne hji ..).trans hslot⟩

theorem Placed.put (h : Placed key hash n slot) (hnext : ∀ i < n, next i = (i + 1) % n)
    (hn : 0 < n) {i : ℕ}
    (hprobe : probe slot hit next (hash (key a) % n) n (hash (key a) % n) = some (.hole i))
    (hnew : ∀ b, Stored slot n b → key b ≠ key a) :
    Placed key hash n (update slot i (some a)) := by
  obtain ⟨d, hd, rfl, hnone, hpassed⟩ := outcome_of_probe hnext (Nat.mod_lt _ hn) hprobe
  have hkept : ∀ j, (slot j).isSome →
      (update slot (stepped n (hash (key a) % n) d) (some a) j).isSome := by
    intro j hj
    rw [update_apply]
    split
    · rfl
    · exact hj
  refine ⟨?_, ?_⟩
  · intro j hj b hb
    by_cases hji : j = stepped n (hash (key a) % n) d
    · rw [hji, update_self] at hb
      cases hb
      refine ⟨d, hd, hji, fun e he => hkept _ ?_⟩
      obtain ⟨c, hc, -⟩ := hpassed e he
      rw [hc]
      rfl
    · rw [update_of_ne hji] at hb
      obtain ⟨d', hd', heq, hfull⟩ := h.reach j hj b hb
      exact ⟨d', hd', heq, fun e he => hkept _ (hfull e he)⟩
  · intro j hj j' hj' b c hb hc heq
    by_cases hji : j = stepped n (hash (key a) % n) d <;>
      by_cases hji' : j' = stepped n (hash (key a) % n) d
    · exact hji.trans hji'.symm
    · rw [hji, update_self] at hb
      cases hb
      rw [update_of_ne hji'] at hc
      exact absurd heq.symm (hnew c ⟨j', hj', hc⟩)
    · rw [hji', update_self] at hc
      cases hc
      rw [update_of_ne hji] at hb
      exact absurd heq (hnew b ⟨j, hj, hb⟩)
    · rw [update_of_ne hji] at hb
      rw [update_of_ne hji'] at hc
      exact h.inj j hj j' hj' b c hb hc heq

/-! ## Free slots -/

/-- The slots that hold an entry. -/
def occupied (slot : ℕ → Option α) (n : ℕ) : Finset ℕ :=
  (Finset.range n).filter fun i => (slot i).isSome

theorem occupied_empty : occupied (empty : ℕ → Option α) n = ∅ := by
  simp [occupied, empty]

theorem occupied_put (hi : i < n) :
    occupied (update slot i (some a)) n = insert i (occupied slot n) := by
  ext j
  simp only [occupied, Finset.mem_filter, Finset.mem_range, Finset.mem_insert,
    update_apply]
  by_cases hji : j = i
  · simp [hji, hi]
  · simp [hji]

theorem card_occupied_put_le (hi : i < n) :
    (occupied (update slot i (some a)) n).card ≤ (occupied slot n).card + 1 := by
  rw [occupied_put hi]
  exact Finset.card_insert_le _ _

theorem probe_hole_of_card_lt (hnext : ∀ i < n, next i = (i + 1) % n)
    (hfree : (occupied slot n).card < n) :
    ∃ i, probe slot (fun _ => false) next (hash k % n) n (hash k % n) = some (.hole i) := by
  have hstart : hash k % n < n := Nat.mod_lt _ (by omega)
  obtain ⟨out, heq, hout⟩ := probe_total slot (fun _ => false) hnext hstart
  cases out with
  | found b =>
    obtain ⟨d, -, -, hhit, -⟩ := hout
    cases hhit
  | hole i => exact ⟨i, heq⟩
  | full =>
    have hall : occupied slot n = Finset.range n := by
      refine Finset.filter_true_of_mem ?_
      intro i hi
      obtain ⟨d, hd, rfl⟩ := exists_stepped hstart (Finset.mem_range.mp hi)
      obtain ⟨b, hb, -⟩ := hout d hd
      rw [hb]
      rfl
    rw [hall, Finset.card_range] at hfree
    exact absurd hfree (lt_irrefl n)

end Tables

end CldcVm.Probing
