import Mathlib.Data.List.Nodup
import Mathlib.Tactic.Ring

/-!
# Blocks of words that are moved

A memory as a function of the address, the words of it that are changed in place, and blocks that
are copied from one place to another. A sequence of such moves keeps what every block has, as long
as no move touches the place from which a later one reads, nor the place to which an earlier one
has written.

Results:
* `foldl_modifyAt`: words changed in place, one after the other.
* `memmove_inside`, `memmove_outside`: what one move does.
* `foldl_moves`: what a sequence of moves does.
-/

namespace CldcVm.Lib

variable {α : Type*}

/-! ## Words changed in place -/

/-- The word at an address is changed, as the address has it. -/
def modifyAt (f : ℤ → α → α) (mem : ℤ → α) (p : ℤ) : ℤ → α := Function.update mem p (f p (mem p))

theorem modifyAt_apply (f : ℤ → α → α) (mem : ℤ → α) (p a : ℤ) :
    modifyAt f mem p a = if a = p then f a (mem a) else mem a := by
  unfold modifyAt
  by_cases h : a = p
  · subst h
    rw [if_pos rfl, Function.update_self]
  · rw [if_neg h, Function.update_of_ne h]

/-- **Run lemma.** Every address of the list is changed once. -/
theorem foldl_modifyAt (f : ℤ → α → α) (mem : ℤ → α) {l : List ℤ} (hl : l.Nodup) (a : ℤ) :
    l.foldl (modifyAt f) mem a = if a ∈ l then f a (mem a) else mem a := by
  induction l generalizing mem with
  | nil => rfl
  | cons p l ih =>
    obtain ⟨hp, hl⟩ := List.nodup_cons.mp hl
    rw [List.foldl_cons, ih _ hl, modifyAt_apply]
    by_cases ha : a = p
    · subst ha
      rw [if_neg hp, if_pos rfl, if_pos List.mem_cons_self]
    · simp only [if_neg ha, List.mem_cons, or_iff_right ha]

/-! ## One move -/

/-- `memmove(dst, src, n)`: the words are read before any is written. -/
def memmove (mem : ℤ → α) (dst src n : ℤ) : ℤ → α := fun a =>
  if dst ≤ a ∧ a < dst + n then mem (src + (a - dst)) else mem a

theorem memmove_inside (mem : ℤ → α) {dst src n i : ℤ} (hi : 0 ≤ i) (hn : i < n) :
    memmove mem dst src n (dst + i) = mem (src + i) := by
  unfold memmove
  rw [if_pos (by omega), add_sub_cancel_left]

theorem memmove_outside (mem : ℤ → α) {dst src n a : ℤ} (ha : a < dst ∨ dst + n ≤ a) :
    memmove mem dst src n a = mem a := by
  unfold memmove
  rw [if_neg (by omega)]

/-! ## A sequence of moves -/

section Moves

variable {σ A ι : Type*} {get : σ → A → α} {step : σ → ι → σ} {src touched : ι → A → Prop}
  {place : ι → A → A} {value : ι → A → α}

/-- **Run lemma.** A step that finds its block as it was at first writes the right words, and no
others than those that it may touch. If no step touches a block that a later one reads, nor a place
to which an earlier one has written, then every block arrives. -/
theorem foldl_moves {s₀ : σ} {l : List ι}
    (hstep : ∀ s, ∀ i ∈ l, (∀ a, src i a → get s a = get s₀ a) →
      (∀ a, src i a → get (step s i) (place i a) = value i a) ∧
        ∀ a, ¬touched i a → get (step s i) a = get s a)
    (hl : l.Pairwise fun i j =>
      (∀ a, src j a → ¬touched i a) ∧ ∀ a, src i a → ¬touched j (place i a))
    (s : σ) (hs : ∀ i ∈ l, ∀ a, src i a → get s a = get s₀ a) :
    (∀ i ∈ l, ∀ a, src i a → get (l.foldl step s) (place i a) = value i a) ∧
      ∀ a, (∀ i ∈ l, ¬touched i a) → get (l.foldl step s) a = get s a := by
  induction l generalizing s with
  | nil => exact ⟨fun i hi => absurd hi List.not_mem_nil, fun _ _ => rfl⟩
  | cons i l ih =>
    obtain ⟨hi, hl⟩ := List.pairwise_cons.mp hl
    obtain ⟨hmove, hframe⟩ := hstep s i List.mem_cons_self (hs i List.mem_cons_self)
    obtain ⟨ihmove, ihframe⟩ := ih (fun s j hj => hstep s j (List.mem_cons_of_mem i hj)) hl
      (step s i) fun j hj a ha => by
        rw [hframe a ((hi j hj).1 a ha), hs j (List.mem_cons_of_mem i hj) a ha]
    rw [List.foldl_cons]
    refine ⟨fun j hj a ha => ?_, fun a ha => ?_⟩
    · obtain rfl | hj := List.mem_cons.mp hj
      · rw [ihframe _ fun k hk => (hi k hk).2 a ha, hmove a ha]
      · exact ihmove j hj a ha
    · rw [ihframe a fun k hk => ha k (List.mem_cons_of_mem i hk),
        hframe a (ha i List.mem_cons_self)]

end Moves

end CldcVm.Lib
