import Mathlib.Algebra.BigOperators.Group.Finset.Basic
import Mathlib.Algebra.GroupWithZero.Nat

/-!
# Serial places

Keys that take one or more slots each, and that are given places one after the other, in the order
in which they come.

Results:

* `places_bounds`, `places_apart`: the places are within the slots taken so far, and those of two
  keys are apart.
* `exists_place`, `place_unique`: a key has one place.
* `slots_eq_sum`: the slots that are taken.
-/

namespace CldcVm.Lib.Interning

variable {κ : Type*} (width : κ → ℕ)

/-- The slots that the keys take. -/
def slots (ks : List κ) : ℕ := (ks.map width).sum

/-- The keys with their places, from `base` on. -/
def places (base : ℕ) : List κ → List (κ × ℕ)
  | [] => []
  | k :: ks => (k, base) :: places (base + width k) ks

variable {width} {base p q : ℕ} {k l : κ} {ks : List κ}

theorem slots_append (ks ls : List κ) :
    slots width (ks ++ ls) = slots width ks + slots width ls := by
  simp [slots]

theorem slots_singleton (k : κ) : slots width [k] = width k := by simp [slots]

theorem places_append (base : ℕ) (ks ls : List κ) : places width base (ks ++ ls) =
    places width base ks ++ places width (base + slots width ks) ls := by
  induction ks generalizing base with
  | nil => simp [places, slots]
  | cons k ks ih =>
    simp only [List.cons_append, places, ih, slots, List.map_cons, List.sum_cons]
    rw [Nat.add_assoc]

theorem mem_of_place (h : (k, p) ∈ places width base ks) : k ∈ ks := by
  induction ks generalizing base with
  | nil => simp [places] at h
  | cons l ks ih =>
    simp only [places, List.mem_cons] at h
    obtain heq | h := h
    · rw [(Prod.mk.inj heq).1]
      exact List.mem_cons_self
    · exact List.mem_cons_of_mem _ (ih h)

theorem exists_place (base : ℕ) (h : k ∈ ks) : ∃ p, (k, p) ∈ places width base ks := by
  induction ks generalizing base with
  | nil => simp at h
  | cons l ks ih =>
    obtain rfl | h := List.mem_cons.1 h
    · exact ⟨base, List.mem_cons_self⟩
    · obtain ⟨p, hp⟩ := ih (base + width l) h
      exact ⟨p, List.mem_cons_of_mem _ hp⟩

theorem places_bounds (h : (k, p) ∈ places width base ks) :
    base ≤ p ∧ p + width k ≤ base + slots width ks := by
  induction ks generalizing base with
  | nil => simp [places] at h
  | cons l ks ih =>
    simp only [slots, List.map_cons, List.sum_cons] at ih ⊢
    simp only [places, List.mem_cons] at h
    obtain heq | h := h
    · obtain ⟨rfl, rfl⟩ := Prod.mk.inj heq
      omega
    · have := ih h
      omega

theorem places_apart (hp : (k, p) ∈ places width base ks) (hq : (l, q) ∈ places width base ks)
    (hne : k ≠ l) : p + width k ≤ q ∨ q + width l ≤ p := by
  induction ks generalizing base with
  | nil => simp [places] at hp
  | cons m ks ih =>
    simp only [places, List.mem_cons] at hp hq
    obtain hp' | hp := hp
    · obtain ⟨rfl, rfl⟩ := Prod.mk.inj hp'
      obtain hq' | hq := hq
      · exact absurd (Prod.mk.inj hq').1.symm hne
      · exact .inl (places_bounds hq).1
    · obtain hq' | hq := hq
      · obtain ⟨rfl, rfl⟩ := Prod.mk.inj hq'
        exact .inr (places_bounds hp).1
      · exact ih hp hq

theorem place_unique (hks : ks.Nodup) (hp : (k, p) ∈ places width base ks)
    (hq : (k, q) ∈ places width base ks) : p = q := by
  induction ks generalizing base with
  | nil => simp [places] at hp
  | cons m ks ih =>
    obtain ⟨hm, hks⟩ := List.nodup_cons.1 hks
    simp only [places, List.mem_cons] at hp hq
    obtain hp' | hp := hp
    · obtain ⟨rfl, rfl⟩ := Prod.mk.inj hp'
      obtain hq' | hq := hq
      · exact (Prod.mk.inj hq').2.symm
      · exact absurd (mem_of_place hq) hm
    · obtain hq' | hq := hq
      · obtain ⟨rfl, rfl⟩ := Prod.mk.inj hq'
        exact absurd (mem_of_place hp) hm
      · exact ih hks hp hq

theorem place_injective (hwidth : ∀ k, 0 < width k) (hks : ks.Nodup)
    (hp : (k, p) ∈ places width base ks) (hq : (l, q) ∈ places width base ks) : p = q ↔ k = l := by
  constructor
  · rintro rfl
    by_contra hne
    have := places_apart hp hq hne
    have := hwidth k
    have := hwidth l
    omega
  · rintro rfl
    exact place_unique hks hp hq

theorem slots_eq_sum [DecidableEq κ] (hks : ks.Nodup) :
    slots width ks = ∑ k ∈ ks.toFinset, width k := by
  rw [slots, List.sum_toFinset _ hks]

end CldcVm.Lib.Interning
