import Mathlib

/-!
# Segments of a memory

A memory is a function from positions to words. `Holds w p l` says that the list
`l` lies in the memory `w` from the position `p` on, and `write w p l` puts it
there.

Results:
* `holds_append`, `holds_cons`: a segment is made of its parts.
* `Holds.write_self`, `Holds.write_other`: what a write does to segments.
-/

namespace CldcVm.Lib

variable {α : Type}

/-- The list lies in the memory from `p` on. -/
def Holds (w : ℕ → α) (p : ℕ) (l : List α) : Prop := ∀ i a, l[i]? = some a → w (p + i) = a

/-- The memory with the list from `p` on. -/
def write (w : ℕ → α) (p : ℕ) : List α → ℕ → α
  | [] => w
  | a :: l => write (Function.update w p a) (p + 1) l

variable {w : ℕ → α} {p q : ℕ} {a : α} {l l' : List α}

theorem holds_nil : Holds w p [] := fun _ _ h => by cases h

theorem holds_cons : Holds w p (a :: l) ↔ w p = a ∧ Holds w (p + 1) l := by
  constructor
  · intro h
    refine ⟨h 0 a rfl, fun i b hb => ?_⟩
    rw [show p + 1 + i = p + (i + 1) by omega]
    exact h (i + 1) b hb
  · rintro ⟨h0, h⟩ i b hb
    cases i with
    | zero =>
      cases hb
      exact h0
    | succ i =>
      rw [show p + (i + 1) = p + 1 + i by omega]
      exact h i b hb

theorem holds_append : Holds w p (l ++ l') ↔ Holds w p l ∧ Holds w (p + l.length) l' := by
  induction l generalizing p with
  | nil => simp [holds_nil]
  | cons a l ih =>
    rw [List.cons_append, holds_cons, holds_cons, ih, List.length_cons, and_assoc,
      show p + (l.length + 1) = p + 1 + l.length by omega]

/-- A segment as it is read word by word. -/
theorem Holds.map_range (h : Holds w p l) : (List.range l.length).map (fun i => w (p + i)) = l := by
  apply List.ext_getElem?
  intro i
  rw [List.getElem?_map]
  by_cases hi : i < l.length
  · rw [List.getElem?_range hi, Option.map_some, List.getElem?_eq_getElem hi]
    exact congrArg some (h i _ (List.getElem?_eq_getElem hi))
  · rw [List.getElem?_eq_none (by simpa using hi), List.getElem?_eq_none (by simpa using hi)]
    rfl

/-- A segment only depends on the words it covers. -/
theorem Holds.congr {v : ℕ → α} (h : Holds w p l) (hv : ∀ i < l.length, v (q + i) = w (p + i)) :
    Holds v q l := by
  intro i b hb
  rw [hv i (List.getElem?_eq_some_iff.mp hb).1]
  exact h i b hb

/-! ## Writes -/

theorem write_of_lt {i : ℕ} (h : i < p) : write w p l i = w i := by
  induction l generalizing w p with
  | nil => rfl
  | cons a l ih =>
    show write (Function.update w p a) (p + 1) l i = w i
    rw [ih (by omega), Function.update_of_ne h.ne]

theorem write_of_ge {i : ℕ} (h : p + l.length ≤ i) : write w p l i = w i := by
  induction l generalizing w p with
  | nil => rfl
  | cons a l ih =>
    rw [List.length_cons] at h
    show write (Function.update w p a) (p + 1) l i = w i
    rw [ih (by omega), Function.update_of_ne (by omega)]

theorem Holds.write_self : Holds (write w p l) p l := by
  induction l generalizing w p with
  | nil => exact holds_nil
  | cons a l ih =>
    refine holds_cons.mpr ⟨?_, ih⟩
    show write (Function.update w p a) (p + 1) l p = a
    rw [write_of_lt p.lt_succ_self, Function.update_self]

/-- A write leaves the segments before it and after it alone. -/
theorem Holds.write_other (h : Holds w q l') (hq : q + l'.length ≤ p ∨ p + l.length ≤ q) :
    Holds (write w p l) q l' := by
  refine h.congr fun i hi => ?_
  rcases hq with hq | hq
  · exact write_of_lt (by omega)
  · exact write_of_ge (by omega)

end CldcVm.Lib
