import Mathlib.Logic.Relation
import Mathlib.Data.List.Nodup

/-!
# Lists in the order of dependencies

A list, newest first, in which every element comes after what it needs.

Results: `Ordered.mem_of_reflTransGen`: what an element needs is in the list;
`Ordered.acyclic`: no element needs itself.
-/

namespace CldcVm.Lib

variable {α : Type} (Needs : α → α → Prop)

/-- Every element comes after what it needs; the newest is the first one. -/
def Ordered : List α → Prop
  | [] => True
  | x :: l => (∀ y, Needs x y → y ∈ l) ∧ Ordered l

variable {Needs} {l l' : List α} {x y : α}

theorem Ordered.tail (h : Ordered Needs (l' ++ l)) : Ordered Needs l := by
  induction l' with
  | nil => exact h
  | cons _ _ ih => exact ih h.2

/-- What stands at a place needs only what stands after it. -/
theorem Ordered.needs (h : Ordered Needs (l' ++ x :: l)) (hxy : Needs x y) : y ∈ l :=
  h.tail.1 y hxy

theorem Ordered.mem (h : Ordered Needs l) (hx : x ∈ l) (hxy : Needs x y) : y ∈ l := by
  obtain ⟨l₁, l₂, rfl⟩ := List.append_of_mem hx
  exact List.mem_append_right _ (List.mem_cons_of_mem _ (h.needs hxy))

theorem Ordered.mem_of_reflTransGen (h : Ordered Needs l) (hx : x ∈ l)
    (hxy : Relation.ReflTransGen Needs x y) : y ∈ l := by
  induction hxy with
  | refl => exact hx
  | tail _ hstep ih => exact h.mem ih hstep

/-- What stands at a place comes, at last, to what stands after it. -/
theorem Ordered.transGen (h : Ordered Needs (l' ++ x :: l))
    (hxy : Relation.TransGen Needs x y) : y ∈ l := by
  obtain ⟨z, hxz, hzy⟩ := Relation.TransGen.head'_iff.mp hxy
  exact h.tail.2.mem_of_reflTransGen (h.needs hxz) hzy

theorem Ordered.acyclic (h : Ordered Needs l) (hnodup : l.Nodup) (hx : x ∈ l) :
    ¬Relation.TransGen Needs x x := by
  intro hcycle
  obtain ⟨l₁, l₂, rfl⟩ := List.append_of_mem hx
  have hnot := (List.nodup_cons.mp (List.Nodup.of_append_right hnodup)).1
  exact hnot (h.transGen hcycle)

end CldcVm.Lib
