import Mathlib.Tactic

/-!
# Binary heaps

Keys at the positions `1` to `n`, where position `i` is below position `i / 2`. A key that is out of
order is exchanged with that above it, or with the smallest one below it.

Results:

* `UpOrder.swap`, `UpOrder.isHeap`: the way up.
* `DownOrder.swap`, `DownOrder.isHeap`: the way down.
* `IsHeap.push`, `IsHeap.replaceRoot`: where the ways begin.
* `IsHeap.root_le`: the first key is the smallest one.
* `bijOn_exchange`, `bijOn_push`, `bijOn_pop`: the elements of the heap.
-/

namespace CldcVm.BinaryHeap

variable {α : Type*} [LinearOrder α] {key key' : ℕ → α} {n k : ℕ}

/-- No key is smaller than the key above it. -/
def IsHeap (key : ℕ → α) (n : ℕ) : Prop := ∀ i, 2 ≤ i → i ≤ n → key (i / 2) ≤ key i

/-- Only the key of position `k` may be smaller than the key above it. -/
structure UpOrder (key : ℕ → α) (n k : ℕ) : Prop where
  except : ∀ i, 2 ≤ i → i ≤ n → i ≠ k → key (i / 2) ≤ key i
  grand : 2 ≤ k → ∀ i ≤ n, i / 2 = k → key (k / 2) ≤ key i

/-- Only the keys below position `k` may be smaller than the key of `k`. -/
structure DownOrder (key : ℕ → α) (n k : ℕ) : Prop where
  except : ∀ i, 2 ≤ i → i ≤ n → i / 2 ≠ k → key (i / 2) ≤ key i
  grand : 2 ≤ k → ∀ i ≤ n, i / 2 = k → key (k / 2) ≤ key i

/-- The keys of two positions are exchanged. -/
def exchange {β : Type*} (key : ℕ → β) (i j : ℕ) : ℕ → β := key ∘ Equiv.swap i j

theorem exchange_left {β : Type*} (key : ℕ → β) (i j : ℕ) : exchange key i j i = key j := by
  rw [exchange, Function.comp_apply, Equiv.swap_apply_left]

theorem exchange_right {β : Type*} (key : ℕ → β) (i j : ℕ) : exchange key i j j = key i := by
  rw [exchange, Function.comp_apply, Equiv.swap_apply_right]

theorem exchange_other {β : Type*} (key : ℕ → β) {i j x : ℕ} (hi : x ≠ i) (hj : x ≠ j) :
    exchange key i j x = key x := by
  rw [exchange, Function.comp_apply, Equiv.swap_apply_of_ne_of_ne hi hj]

/-- **Step lemma**: the key goes up. -/
theorem UpOrder.swap (h : UpOrder key n k) (hk : 2 ≤ k) (hkn : k ≤ n)
    (hlt : key k ≤ key (k / 2)) : UpOrder (exchange key (k / 2) k) n (k / 2) := by
  have habove : ∀ x, x / 2 = k / 2 → 2 ≤ x → x ≤ n → x ≠ k → key (k / 2) ≤ key x := by
    intro x hx hx2 hxn hne
    rw [← hx]
    exact h.except x hx2 hxn hne
  constructor
  · intro i hi hin hne
    by_cases hik : i = k
    · rw [hik, exchange_left, exchange_right]
      exact hlt
    · rw [exchange_other key hne hik]
      by_cases hbelow : i / 2 = k
      · rw [hbelow, exchange_right]
        exact h.grand hk i hin hbelow
      · by_cases hsibling : i / 2 = k / 2
        · rw [hsibling, exchange_left]
          exact hlt.trans (habove i hsibling hi hin hik)
        · rw [exchange_other key hsibling hbelow]
          exact h.except i hi hin hik
  · intro hk2 i hin hbelow
    have hgrand := h.except (k / 2) hk2 (by omega) (by omega)
    rw [exchange_other key (by omega) (by omega)]
    by_cases hik : i = k
    · rw [hik, exchange_right]
      exact hgrand
    · rw [exchange_other key (by omega) hik]
      exact hgrand.trans (habove i hbelow (by omega) hin hik)

theorem UpOrder.isHeap (h : UpOrder key n k) (hstop : 2 ≤ k → key (k / 2) ≤ key k) :
    IsHeap key n := by
  intro i hi hin
  by_cases hik : i = k
  · subst hik
    exact hstop hi
  · exact h.except i hi hin hik

/-- **Step lemma**: the key goes down, in exchange for the smallest one below it. -/
theorem DownOrder.swap {j : ℕ} (h : DownOrder key n k) (hk : 1 ≤ k) (hj : j / 2 = k) (hjn : j ≤ n)
    (hleast : ∀ i ≤ n, i / 2 = k → key j ≤ key i) (hlt : key j ≤ key k) :
    DownOrder (exchange key k j) n j := by
  constructor
  · intro i hi hin hne
    by_cases hbelow : i / 2 = k
    · rw [hbelow, exchange_left]
      by_cases hij : i = j
      · rw [hij, exchange_right]
        exact hlt
      · rw [exchange_other key (by omega) hij]
        exact hleast i hin hbelow
    · rw [exchange_other key hbelow hne]
      by_cases hik : i = k
      · rw [hik, exchange_left]
        exact h.grand (by omega) j hjn hj
      · rw [exchange_other key hik (by omega)]
        exact h.except i hi hin hbelow
  · intro _ i hin hbelow
    rw [hj, exchange_left, exchange_other key (by omega) (by omega), ← hbelow]
    exact h.except i (by omega) hin (by omega)

theorem DownOrder.isHeap (h : DownOrder key n k)
    (hstop : ∀ i ≤ n, 2 ≤ i → i / 2 = k → key k ≤ key i) : IsHeap key n := by
  intro i hi hin
  by_cases hbelow : i / 2 = k
  · rw [hbelow]
    exact hstop i hin hi hbelow
  · exact h.except i hi hin hbelow

theorem IsHeap.push (h : IsHeap key n) (heq : ∀ i, 1 ≤ i → i ≤ n → key' i = key i) :
    UpOrder key' (n + 1) (n + 1) := by
  constructor
  · intro i hi hin hne
    rw [heq i (by omega) (by omega), heq (i / 2) (by omega) (by omega)]
    exact h i hi (by omega)
  · intro _ i hin hbelow
    omega

theorem IsHeap.replaceRoot {m : ℕ} (h : IsHeap key m) (hn : n ≤ m)
    (heq : ∀ i, 2 ≤ i → i ≤ n → key' i = key i) : DownOrder key' n 1 := by
  constructor
  · intro i hi hin hne
    rw [heq i hi hin, heq (i / 2) (by omega) (by omega)]
    exact h i hi (by omega)
  · intro h2
    omega

theorem IsHeap.root_le (h : IsHeap key n) (i : ℕ) (hi : 1 ≤ i) (hin : i ≤ n) : key 1 ≤ key i := by
  induction i using Nat.strong_induction_on with
  | _ i ih =>
    by_cases h1 : i = 1
    · rw [h1]
    · exact (ih (i / 2) (by omega) (by omega) (by omega)).trans (h i (by omega) hin)

/-- **Step lemma**: an exchange inside the heap keeps its elements. -/
theorem bijOn_exchange {β : Type*} {a : ℕ → β} {s : Set β} {i j : ℕ}
    (h : Set.BijOn a (Set.Icc 1 n) s) (hi : i ∈ Set.Icc 1 n) (hj : j ∈ Set.Icc 1 n) :
    Set.BijOn (exchange a i j) (Set.Icc 1 n) s :=
  h.comp (Equiv.swap_bijOn_self ⟨fun _ => hj, fun _ => hi⟩)

/-- **Step lemma**: another element is put at the end. -/
theorem bijOn_push {β : Type*} {a : ℕ → β} {s : Set β} {t : β}
    (h : Set.BijOn a (Set.Icc 1 n) s) (ht : t ∉ s) :
    Set.BijOn (Function.update a (n + 1) t) (Set.Icc 1 (n + 1)) (insert t s) := by
  have heq : Set.EqOn (Function.update a (n + 1) t) a (Set.Icc 1 n) := fun i hi =>
    Function.update_of_ne (fun heq => absurd hi.2 (by omega)) ..
  have hrest : Set.BijOn (Function.update a (n + 1) t) (Set.Icc 1 n) s := h.congr heq.symm
  have hself : Function.update a (n + 1) t (n + 1) = t := Function.update_self ..
  have hall := hrest.insert (a := n + 1) (by rw [hself]; exact ht)
  rw [hself] at hall
  convert hall using 1
  ext i
  simp only [Set.mem_Icc, Set.mem_insert_iff]
  omega

/-- **Step lemma**: the last element is taken away. -/
theorem bijOn_pop {β : Type*} {a : ℕ → β} {s : Set β}
    (h : Set.BijOn a (Set.Icc 1 (n + 1)) s) : Set.BijOn a (Set.Icc 1 n) (s \ {a (n + 1)}) := by
  have hlast : n + 1 ∈ Set.Icc 1 (n + 1) := ⟨by omega, le_rfl⟩
  have hsub : Set.Icc 1 n ⊆ Set.Icc 1 (n + 1) := Set.Icc_subset_Icc_right (Nat.le_succ n)
  refine ⟨fun i hi => ?_, h.injOn.mono hsub, fun x hx => ?_⟩
  · refine ⟨h.mapsTo (hsub hi), fun heq => ?_⟩
    have hin : i = n + 1 := h.injOn (hsub hi) hlast heq
    have hle := hi.2
    omega
  · obtain ⟨i, hi, rfl⟩ := h.surjOn hx.1
    refine ⟨i, ⟨hi.1, ?_⟩, rfl⟩
    have hne : i ≠ n + 1 := fun heq => hx.2 (congrArg a heq)
    have hle := hi.2
    omega

end CldcVm.BinaryHeap
