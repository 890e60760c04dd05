import Mathlib.Data.List.Nodup

/-!
# Chains of linked nodes

Nodes that lead to one another by a field, from a first node on; `none` ends a chain.

Results:

* `Linked.congr`: a chain stays when the fields of other nodes are written.
* `Linked.push`, `Linked.unlinkFirst`, `Linked.unlink`: a node is put before a chain, or taken out
  of it.
-/

namespace CldcVm.LinkedChain

variable {R : Type}

/-- The nodes from a first one on. -/
inductive Linked (next : R → Option R) : Option R → List R → Prop
  | nil : Linked next none []
  | cons {r : R} {rs : List R} : Linked next (next r) rs → Linked next (some r) (r :: rs)

variable {next next' : R → Option R} {first : Option R} {nodes : List R}

theorem Linked.nil_iff : Linked next none nodes ↔ nodes = [] := by
  refine ⟨fun h => ?_, fun h => h ▸ Linked.nil⟩
  match h with
  | .nil => rfl

theorem Linked.some_iff {r : R} :
    Linked next (some r) nodes ↔ ∃ rs, nodes = r :: rs ∧ Linked next (next r) rs := by
  refine ⟨fun h => ?_, fun ⟨rs, hnodes, h⟩ => hnodes ▸ Linked.cons h⟩
  match h with
  | .cons h => exact ⟨_, rfl, h⟩

theorem Linked.congr (h : Linked next first nodes) (heq : ∀ r ∈ nodes, next' r = next r) :
    Linked next' first nodes := by
  induction h with
  | nil => exact Linked.nil
  | @cons r rs _ ih =>
    refine Linked.cons ?_
    rw [heq r List.mem_cons_self]
    exact ih fun x hx => heq x (List.mem_cons_of_mem r hx)

/-- A node is put before a chain. -/
theorem Linked.push {r : R} (h : Linked next first nodes) (hr : r ∉ nodes)
    (hnext : next' r = first) (heq : ∀ x ≠ r, next' x = next x) :
    Linked next' (some r) (r :: nodes) := by
  refine Linked.cons ?_
  rw [hnext]
  refine h.congr fun x hx => heq x ?_
  rintro rfl
  exact hr hx

theorem Linked.unlinkFirst {r : R} (h : Linked next first (r :: nodes)) :
    first = some r ∧ Linked next (next r) nodes := by
  match h with
  | .cons h => exact ⟨rfl, h⟩

theorem Linked.unlink {p r : R} {before after : List R}
    (h : Linked next first (before ++ p :: r :: after)) (hnodup : (before ++ p :: r :: after).Nodup)
    (hnext : next' p = next r) (heq : ∀ x ≠ p, next' x = next x) :
    Linked next' first (before ++ p :: after) := by
  induction before generalizing first with
  | nil =>
    obtain ⟨rfl, hrest⟩ := h.unlinkFirst
    obtain ⟨-, hafter⟩ := hrest.unlinkFirst
    refine Linked.cons ?_
    rw [hnext]
    refine hafter.congr fun x hx => heq x ?_
    rintro rfl
    simp [hx] at hnodup
  | cons x before ih =>
    obtain ⟨rfl, hrest⟩ := h.unlinkFirst
    obtain ⟨hx, hnodup⟩ := List.nodup_cons.1 hnodup
    refine Linked.cons ?_
    have hne : x ≠ p := by
      rintro rfl
      simp at hx
    rw [heq x hne]
    exact ih hrest hnodup

end CldcVm.LinkedChain
