import Mathlib.Data.List.Basic

/-!
# Scattered writes

A list of entries is written into a memory, each at an address of its own choice. Addresses may
repeat as long as the entries of one address agree on the value.

Results:
* `scatter_apply`: what is at the address of an entry.
* `scatter_of_forall_ne`: everything else stays.
-/

namespace CldcVm.Lib

variable {α β ι : Type*} [DecidableEq α]

/-- The entries are written one after the other. -/
def scatter (addr : ι → α) (value : ι → β) (l : List ι) (w : α → β) : α → β :=
  l.foldl (fun w e => Function.update w (addr e) (value e)) w

variable {addr : ι → α} {value : ι → β} {l : List ι} {w : α → β}

theorem scatter_cons (e : ι) : scatter addr value (e :: l) w =
    scatter addr value l (Function.update w (addr e) (value e)) := rfl

/-- An address that no entry has stays as it is. -/
theorem scatter_of_forall_ne {a : α} (h : ∀ e ∈ l, addr e ≠ a) :
    scatter addr value l w a = w a := by
  induction l generalizing w with
  | nil => rfl
  | cons e l ih =>
    rw [scatter_cons, ih fun e' he' => h e' (List.mem_cons_of_mem _ he'),
      Function.update_of_ne (h e List.mem_cons_self).symm]

/-- An address has the value of its entries, if they agree on it. -/
theorem scatter_apply {e : ι} (he : e ∈ l) (h : ∀ e' ∈ l, addr e' = addr e → value e' = value e) :
    scatter addr value l w (addr e) = value e := by
  induction l generalizing w e with
  | nil => cases he
  | cons e₀ l ih =>
    rw [scatter_cons]
    by_cases hlater : ∃ e' ∈ l, addr e' = addr e
    · -- A later entry of the same address decides.
      obtain ⟨e', he', haddr⟩ := hlater
      have hvalue : value e' = value e := h e' (List.mem_cons_of_mem _ he') haddr
      rw [← haddr, ← hvalue]
      refine ih he' fun e'' he'' haddr' => ?_
      rw [hvalue]
      exact h e'' (List.mem_cons_of_mem _ he'') (haddr'.trans haddr)
    · have hfirst : e = e₀ := by
        obtain rfl | hmem := List.mem_cons.mp he
        · rfl
        · exact absurd ⟨e, hmem, rfl⟩ hlater
      rw [scatter_of_forall_ne fun e' he' haddr => hlater ⟨e', he', haddr⟩, hfirst,
        Function.update_self]

end CldcVm.Lib
