import CldcVm.Lib.Segment

/-!
# Compaction in place

One pass over an array that moves the elements which are kept down over those which are not,
with a position that is read and a position that is written next.

Results:
* `compact_spec`: the elements that are kept lie one after the other, in their order.
* `skip_none_iff`, `skip_some`: the leading elements that are kept need no move.
-/

namespace CldcVm.Lib

variable {α : Type} (keep : α → Bool)

/-- The next `left` elements from `src` on, the next one that is kept goes to `next`. -/
def compact : (left src next : ℕ) → (ℕ → α) → ℕ × (ℕ → α)
  | 0, _, next, w => (next, w)
  | left + 1, src, next, w =>
    if keep (w src) then compact left (src + 1) (next + 1) (Function.update w next (w src))
    else compact left (src + 1) next w

/-- The first of the next `left` elements that is not kept. -/
def skip (w : ℕ → α) : (left src : ℕ) → Option ℕ
  | 0, _ => none
  | left + 1, src => if keep (w src) then skip w left (src + 1) else some src

variable {keep} {w : ℕ → α} {l : List α} {src next : ℕ}

theorem Holds.update_below {a : α} (h : Holds w src l) (hnext : next < src) :
    Holds (Function.update w next a) src l :=
  h.congr fun _ _ => Function.update_of_ne (by omega) a w

/-- What is kept is compacted and what is below is left alone. -/
theorem compact_spec (h : Holds w src l) (hle : next ≤ src) :
    (compact keep l.length src next w).1 = next + (l.filter keep).length ∧
      Holds (compact keep l.length src next w).2 next (l.filter keep) ∧
      ∀ j < next, (compact keep l.length src next w).2 j = w j := by
  induction l generalizing w src next with
  | nil => exact ⟨rfl, holds_nil, fun _ _ => rfl⟩
  | cons a l ih =>
    obtain ⟨ha, htail⟩ := holds_cons.mp h
    rw [List.length_cons, compact, ha]
    by_cases hkeep : keep a = true
    · rw [if_pos hkeep, List.filter_cons_of_pos hkeep, List.length_cons]
      have htail' : Holds (Function.update w next a) (src + 1) l := htail.update_below (by omega)
      obtain ⟨hlen, hholds, hlow⟩ := ih htail' (by omega : next + 1 ≤ src + 1)
      refine ⟨by omega, holds_cons.mpr ⟨?_, hholds⟩, fun j hj => ?_⟩
      · rw [hlow next next.lt_succ_self, Function.update_self]
      · rw [hlow j (by omega), Function.update_of_ne (by omega)]
    · rw [if_neg hkeep, List.filter_cons_of_neg hkeep]
      exact ih htail (by omega)

theorem skip_none_iff (h : Holds w src l) :
    skip keep w l.length src = none ↔ ∀ a ∈ l, keep a = true := by
  induction l generalizing src with
  | nil => simp [skip]
  | cons a l ih =>
    obtain ⟨ha, htail⟩ := holds_cons.mp h
    rw [List.length_cons, skip, ha, List.forall_mem_cons]
    by_cases hkeep : keep a = true
    · rw [if_pos hkeep, ih htail]
      simp [hkeep]
    · rw [if_neg hkeep]
      simp [hkeep]

/-- What lies before the first element that is not kept. -/
theorem skip_some {i : ℕ} (h : Holds w src l) (hskip : skip keep w l.length src = some i) :
    src ≤ i ∧ i < src + l.length ∧ (∀ a ∈ l.take (i - src), keep a = true) ∧
      keep (w i) = false := by
  induction l generalizing src with
  | nil => exact absurd hskip (by simp [skip])
  | cons a l ih =>
    obtain ⟨ha, htail⟩ := holds_cons.mp h
    rw [List.length_cons, skip, ha] at hskip
    by_cases hkeep : keep a = true
    · rw [if_pos hkeep] at hskip
      obtain ⟨hle, hlt, hbefore, hnot⟩ := ih htail hskip
      rw [List.length_cons]
      refine ⟨by omega, by omega, ?_, hnot⟩
      rw [show i - src = i - (src + 1) + 1 by omega, List.take_succ_cons]
      exact List.forall_mem_cons.mpr ⟨hkeep, hbefore⟩
    · rw [if_neg hkeep, Option.some_inj] at hskip
      subst hskip
      rw [List.length_cons, Nat.sub_self, List.take_zero, ha]
      exact ⟨le_refl _, by omega, fun _ h => absurd h List.not_mem_nil, Bool.eq_false_iff.mpr hkeep⟩

end CldcVm.Lib
