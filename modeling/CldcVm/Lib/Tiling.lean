import Mathlib.Algebra.BigOperators.Group.List.Basic
import Mathlib.Algebra.GroupWithZero.Nat

/-!
# Records that tile a range

Records of varying length lie one after the other from `p` to `e`. Where a record lies
is decided by the lengths of those before it, and what it means for one to be there is
a parameter.

Results:
* `tiles_append`, `Tiles.end_eq`, `Tiles.congr`: a tiling is made of its parts.
* `mem_placed_iff`, `placed_disjoint`: the records and their places.
* `Tiles.at_of_mem`: every record is at its place.
-/

namespace CldcVm.Lib

variable {β : Type} (length : β → ℕ) (At : ℕ → β → Prop)

/-- The records lie one after the other from `p` to `e`. -/
def Tiles : (p : ℕ) → List β → (e : ℕ) → Prop
  | p, [], e => p = e
  | p, b :: bs, e => At p b ∧ Tiles (p + length b) bs e

/-- The records with their places. -/
def placed : (p : ℕ) → List β → List (ℕ × β)
  | _, [] => []
  | p, b :: bs => (p, b) :: placed (p + length b) bs

/-- The length of the records together. -/
def totalLength (bs : List β) : ℕ := (bs.map length).sum

variable {length At} {p q e : ℕ} {b b' : β} {bs bs' : List β}

@[simp] theorem totalLength_nil : totalLength length ([] : List β) = 0 := rfl

@[simp] theorem totalLength_cons :
    totalLength length (b :: bs) = length b + totalLength length bs := rfl

@[simp] theorem totalLength_append :
    totalLength length (bs ++ bs') = totalLength length bs + totalLength length bs' := by
  rw [totalLength, List.map_append, List.sum_append]
  rfl

theorem tiles_append : Tiles length At p (bs ++ bs') e ↔
    Tiles length At p bs (p + totalLength length bs) ∧
      Tiles length At (p + totalLength length bs) bs' e := by
  induction bs generalizing p with
  | nil => simp [Tiles]
  | cons b bs ih => rw [List.cons_append, Tiles, Tiles, ih, totalLength_cons, ← add_assoc, and_assoc]

theorem Tiles.end_eq (h : Tiles length At p bs e) : e = p + totalLength length bs := by
  induction bs generalizing p with
  | nil => exact h.symm
  | cons b bs ih => rw [ih h.2, totalLength_cons, add_assoc]

/-- The records are still there if each of them is. -/
theorem Tiles.congr {At' : ℕ → β → Prop} (h : Tiles length At p bs e)
    (hat : ∀ q b, (q, b) ∈ placed length p bs → At q b → At' q b) : Tiles length At' p bs e := by
  induction bs generalizing p with
  | nil => exact h
  | cons b bs ih =>
    refine ⟨hat p b List.mem_cons_self h.1, ih h.2 fun q b' hmem => ?_⟩
    exact hat q b' (List.mem_cons_of_mem _ hmem)

theorem Tiles.at_of_mem (h : Tiles length At p bs e) (hmem : (q, b) ∈ placed length p bs) :
    At q b := by
  induction bs generalizing p with
  | nil => cases hmem
  | cons b' bs ih =>
    rcases List.mem_cons.mp hmem with heq | hmem
    · cases heq
      exact h.1
    · exact ih h.2 hmem

theorem placed_append : placed length p (bs ++ bs') =
    placed length p bs ++ placed length (p + totalLength length bs) bs' := by
  induction bs generalizing p with
  | nil => rfl
  | cons b bs ih => rw [List.cons_append, placed, placed, ih, totalLength_cons, ← add_assoc]; rfl

/-- A record is at the end of those before it. -/
theorem mem_placed_iff : (q, b) ∈ placed length p bs ↔
    ∃ l r, bs = l ++ b :: r ∧ q = p + totalLength length l := by
  constructor
  · intro h
    induction bs generalizing p with
    | nil => cases h
    | cons b' bs ih =>
      rcases List.mem_cons.mp h with heq | hmem
      · cases heq
        exact ⟨[], bs, rfl, rfl⟩
      · obtain ⟨l, r, rfl, rfl⟩ := ih hmem
        exact ⟨b' :: l, r, rfl, by rw [totalLength_cons, add_assoc]⟩
  · rintro ⟨l, r, rfl, rfl⟩
    rw [placed_append]
    exact List.mem_append_right _ List.mem_cons_self

theorem le_of_mem_placed (h : (q, b) ∈ placed length p bs) : p ≤ q := by
  obtain ⟨l, r, -, rfl⟩ := mem_placed_iff.mp h
  exact Nat.le_add_right _ _

theorem add_length_le_of_mem_placed (h : (q, b) ∈ placed length p bs) :
    q + length b ≤ p + totalLength length bs := by
  obtain ⟨l, r, rfl, rfl⟩ := mem_placed_iff.mp h
  rw [totalLength_append, totalLength_cons]
  omega

/-- Records have a length, so there are not more of them than places. -/
theorem length_le_totalLength (hlength : ∀ b : β, 0 < length b) (bs : List β) :
    bs.length ≤ totalLength length bs := by
  induction bs with
  | nil => exact Nat.le_refl 0
  | cons b bs ih =>
    have hb := hlength b
    rw [List.length_cons, totalLength_cons]
    omega

/-- Two records that are not at the same place do not overlap. -/
theorem placed_disjoint (h : (p, b) ∈ placed length e bs) (h' : (q, b') ∈ placed length e bs)
    (hne : (p, b) ≠ (q, b')) : p + length b ≤ q ∨ q + length b' ≤ p := by
  induction bs generalizing e with
  | nil => cases h
  | cons b₀ bs ih =>
    rcases List.mem_cons.mp h with heq | hmem
    · cases heq
      rcases List.mem_cons.mp h' with heq' | hmem'
      · exact (hne heq'.symm).elim
      · exact .inl (le_of_mem_placed hmem')
    · rcases List.mem_cons.mp h' with heq' | hmem'
      · cases heq'
        exact .inr (le_of_mem_placed hmem)
      · exact ih hmem hmem'

end CldcVm.Lib
