import Mathlib.Dynamics.PeriodicPts.Defs

/-!
# Round robins

A search that goes around a cycle, from the element after a given one up to that element. It
stops at the first element that is good, and remembers the first one that is acceptable.

Result: `search_spec`: what the search comes up with.
-/

namespace CldcVm.Lib

variable {α : Type*}

/-- The outcome of a search: a good element, or the first acceptable one if there is any. -/
inductive Found (α : Type*)
  | good (x : α)
  | fallback (x : Option α)

/-- The search from `x` on, until `current` has been met. -/
def search [DecidableEq α] (next : α → α) (good acceptable : α → Bool) (current : α) :
    (fuel : ℕ) → (x : α) → (fallback : Option α) → Option (Found α)
  | 0, _, _ => none
  | fuel + 1, x, fallback =>
    if good (next x) then some (.good (next x))
    else
      let fallback :=
        if acceptable (next x) && fallback.isNone then some (next x) else fallback
      if next x = current then some (.fallback fallback)
      else search next good acceptable current fuel (next x) fallback

/-- `y` is the first element after `current` that has the property. -/
def IsFirst (next : α → α) (p : α → Bool) (current y : α) : Prop :=
  ∃ k, next^[k + 1] current = y ∧ p y = true ∧ ∀ i < k, p (next^[i + 1] current) = false

/-- No element of the cycle has the property. -/
def NoneIn (next : α → α) (p : α → Bool) (current : α) : Prop :=
  ∀ k, p (next^[k + 1] current) = false

variable {next : α → α} {p good acceptable : α → Bool} {current x y : α}

theorem IsFirst.unique (h : IsFirst next p current x) (h' : IsFirst next p current y) : x = y := by
  obtain ⟨k, rfl, hx, hbefore⟩ := h
  obtain ⟨k', rfl, hy, hbefore'⟩ := h'
  obtain hlt | rfl | hgt := Nat.lt_trichotomy k k'
  · rw [hbefore' k hlt] at hx
    cases hx
  · rfl
  · rw [hbefore k' hgt] at hy
    cases hy

theorem IsFirst.not_noneIn (h : IsFirst next p current y) : ¬NoneIn next p current := by
  obtain ⟨k, rfl, hy, -⟩ := h
  intro hnone
  rw [hnone k] at hy
  cases hy

/-- The first elements that have been seen say it for the whole cycle. -/
theorem noneIn_of_period {n : ℕ} (hn : next^[n + 1] current = current)
    (h : ∀ i < n + 1, p (next^[i + 1] current) = false) : NoneIn next p current := by
  intro k
  have hperiod : Function.IsPeriodicPt next (n + 1) current := hn
  rw [← hperiod.iterate_mod_apply (k + 1)]
  obtain hzero | hpos := Nat.eq_zero_or_pos ((k + 1) % (n + 1))
  · rw [hzero, Function.iterate_zero_apply, ← hn]
    exact h n (Nat.lt_succ_self n)
  · have hlt : (k + 1) % (n + 1) < n + 1 := Nat.mod_lt _ (Nat.succ_pos n)
    obtain ⟨i, hi⟩ : ∃ i, (k + 1) % (n + 1) = i + 1 := Nat.exists_eq_succ_of_ne_zero hpos.ne'
    rw [hi]
    exact h i (by omega)

/-- The acceptable element that is remembered after `n` steps. -/
def Remembers (next : α → α) (p : α → Bool) (current : α) (n : ℕ) : Option α → Prop
  | some y => IsFirst next p current y
  | none => ∀ i < n, p (next^[i + 1] current) = false

/-- **Step lemma.** The first acceptable element is kept. -/
theorem Remembers.step {n : ℕ} {fallback : Option α}
    (h : Remembers next p current n fallback) : Remembers next p current (n + 1)
      (if p (next^[n + 1] current) && fallback.isNone then some (next^[n + 1] current)
        else fallback) := by
  cases fallback with
  | some y =>
    rw [Option.isNone_some, Bool.and_false]
    exact h
  | none =>
    rw [Option.isNone_none, Bool.and_true]
    by_cases hp : p (next^[n + 1] current) = true
    · rw [if_pos hp]
      exact ⟨n, rfl, hp, h⟩
    · rw [if_neg hp]
      intro i hi
      obtain hlt | rfl := Nat.lt_succ_iff_lt_or_eq.mp hi
      · exact h i hlt
      · exact Bool.eq_false_iff.mpr hp

/-- What a search finds: the first good element, or that there is none, and then the first
acceptable one. -/
def Finds (next : α → α) (good acceptable : α → Bool) (current : α) : Found α → Prop
  | .good y => IsFirst next good current y
  | .fallback (some y) => NoneIn next good current ∧ IsFirst next acceptable current y
  | .fallback none => NoneIn next good current ∧ NoneIn next acceptable current

/-- **Run lemma.** The search goes around once. -/
theorem search_finds [DecidableEq α] {n fuel : ℕ} {fallback : Option α}
    (hreturn : ∃ k, n ≤ k ∧ k < n + fuel ∧ next^[k + 1] current = current)
    (hgood : ∀ i < n, good (next^[i + 1] current) = false)
    (hmemory : Remembers next acceptable current n fallback) :
    ∃ found, search next good acceptable current fuel (next^[n] current) fallback = some found ∧
      Finds next good acceptable current found := by
  induction fuel generalizing n fallback with
  | zero =>
    obtain ⟨k, hle, hlt, -⟩ := hreturn
    omega
  | succ fuel ih =>
    have hnext : next (next^[n] current) = next^[n + 1] current :=
      (Function.iterate_succ_apply' next n current).symm
    rw [search, hnext]
    by_cases hp : good (next^[n + 1] current) = true
    · rw [if_pos hp]
      exact ⟨_, rfl, n, rfl, hp, hgood⟩
    · rw [if_neg hp]
      have hgood' : ∀ i < n + 1, good (next^[i + 1] current) = false := by
        intro i hi
        obtain hlt | rfl := Nat.lt_succ_iff_lt_or_eq.mp hi
        · exact hgood i hlt
        · exact Bool.eq_false_iff.mpr hp
      have hmemory' := hmemory.step
      simp only
      generalize (if acceptable (next^[n + 1] current) && fallback.isNone
        then some (next^[n + 1] current) else fallback) = fallback' at hmemory' ⊢
      by_cases hend : next^[n + 1] current = current
      · rw [if_pos hend]
        refine ⟨_, rfl, ?_⟩
        cases fallback' with
        | some y => exact ⟨noneIn_of_period hend hgood', hmemory'⟩
        | none => exact ⟨noneIn_of_period hend hgood', noneIn_of_period hend hmemory'⟩
      · rw [if_neg hend]
        obtain ⟨k, hle, hlt, hk⟩ := hreturn
        refine ih ⟨k, ?_, by omega, hk⟩ hgood' hmemory'
        by_contra hlt'
        obtain rfl : k = n := by omega
        exact hend hk

/-- **Spec lemma.** A search around a cycle. -/
theorem search_spec [DecidableEq α] {fuel : ℕ}
    (hreturn : ∃ k < fuel, next^[k + 1] current = current) :
    ∃ found, search next good acceptable current fuel current none = some found ∧
      Finds next good acceptable current found := by
  obtain ⟨k, hlt, hk⟩ := hreturn
  exact search_finds (n := 0) ⟨k, Nat.zero_le k, by omega, hk⟩
    (fun i hi => absurd hi (Nat.not_lt_zero i)) (fun i hi => absurd hi (Nat.not_lt_zero i))

end CldcVm.Lib
