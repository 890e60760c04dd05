import Mathlib.Data.Finset.Card

/-!
# Exploring a graph

A depth-first walk over a graph that lists the successors of every element it comes to for the
first time, behind the elements it starts from. An element may be listed more than once; it is
expanded once.

Results:

* `explore_spec`: what is listed and expanded.
* `mem_explore_iff`: from nothing expanded, exactly what can be reached is listed.
* `explore_isSome`: a depth above the number of elements suffices, on any graph.
-/

namespace CldcVm.Lib

variable {α : Type}

/-! ## What can be reached -/

/-- The edges of the graph. -/
def Edge (succ : α → List α) (x y : α) : Prop := y ∈ succ x

/-- `y` can be reached from one of `xs`. -/
def ReachedFrom (succ : α → List α) (xs : List α) (y : α) : Prop :=
  ∃ x ∈ xs, Relation.ReflTransGen (Edge succ) x y

variable {succ : α → List α} {xs : List α} {x y : α}

theorem ReachedFrom.of_mem (h : x ∈ xs) : ReachedFrom succ xs x := ⟨x, h, .refl⟩

theorem ReachedFrom.of_succ (hx : x ∈ xs) (h : ReachedFrom succ (succ x) y) :
    ReachedFrom succ xs y := by
  obtain ⟨z, hz, hzy⟩ := h
  exact ⟨x, hx, hzy.head hz⟩

theorem ReachedFrom.mono {xs' : List α} (h : ReachedFrom succ xs y) (hsub : xs ⊆ xs') :
    ReachedFrom succ xs' y := by
  obtain ⟨z, hz, hzy⟩ := h
  exact ⟨z, hsub hz, hzy⟩

/-! ## What a walk lists -/

/-- What a part of a walk does that starts at `xs` with `seen` expanded: it lists and expands
only what can be reached, and lists and expands the successors of all that it expands. -/
structure Explored (succ : α → List α) (xs : List α) (seen : Finset α) (listed : List α)
    (seen' : Finset α) : Prop where
  seen_subset : seen ⊆ seen'
  listed_reached : ∀ y ∈ listed, ReachedFrom succ xs y
  seen_reached : ∀ y ∈ seen', y ∉ seen → ReachedFrom succ xs y
  expanded : ∀ x ∈ xs, x ∈ seen'
  successors : ∀ x ∈ seen', x ∉ seen → ∀ y ∈ succ x, y ∈ listed ∧ y ∈ seen'

variable {seen seen' : Finset α}

/-- An element that was expanded before, and then the others. -/
theorem Explored.skip {x : α} {xs more : List α} (hseen : x ∈ seen)
    (hrest : Explored succ xs seen more seen') : Explored succ (x :: xs) seen more seen' := by
  refine { hrest with
    listed_reached := fun y hy => (hrest.listed_reached y hy).mono (List.subset_cons_self x xs)
    seen_reached := fun y hy hnot =>
      (hrest.seen_reached y hy hnot).mono (List.subset_cons_self x xs)
    expanded := fun y hy => ?_ }
  rcases List.mem_cons.mp hy with rfl | hy
  · exact hrest.seen_subset hseen
  · exact hrest.expanded y hy

theorem Explored.nil (seen : Finset α) : Explored succ [] seen [] seen :=
  ⟨Finset.Subset.refl _, fun _ h => absurd h List.not_mem_nil, fun _ h hnot => absurd h hnot,
    fun _ h => absurd h List.not_mem_nil, fun _ h hnot => absurd h hnot⟩

/-- The elements a walk starts from are listed in front. -/
theorem Explored.listed {xs more : List α}
    (h : Explored succ xs seen more seen') : Explored succ xs seen (xs ++ more) seen' := by
  refine { h with listed_reached := fun y hy => ?_, successors := fun x hx hnot y hy => ?_ }
  · rcases List.mem_append.mp hy with hy | hy
    · exact .of_mem hy
    · exact h.listed_reached y hy
  · exact ⟨List.mem_append_right xs (h.successors x hx hnot y hy).1,
      (h.successors x hx hnot y hy).2⟩

/-! ## The walk -/

variable [DecidableEq α]

/-- One element of the walk, with what is listed and expanded before it; `deeper` is the walk
from its successors. -/
def visit (succ : α → List α) (deeper : List α → Finset α → Option (List α × Finset α))
    (state : List α × Finset α) (x : α) : Option (List α × Finset α) :=
  if x ∈ state.2 then some state
  else (deeper (succ x) (insert x state.2)).map fun (more, seen) => (state.1 ++ more, seen)

/-- The elements that a walk lists from `xs`, at most `depth` deep, and the expanded ones. -/
def explore (succ : α → List α) :
    (depth : ℕ) → List α → Finset α → Option (List α × Finset α)
  | 0, _, _ => none
  | depth + 1, xs, seen => xs.foldlM (visit succ (explore succ depth)) (xs, seen)

/-- **Step lemma**: an element that is expanded, and then the others. -/
theorem Explored.cons {x : α} {xs more more' : List α} {seen seen₁ seen₂ : Finset α}
    (hsucc : succ x ⊆ more) (hinner : Explored succ (succ x) (insert x seen) more seen₁)
    (hrest : Explored succ xs seen₁ more' seen₂) :
    Explored succ (x :: xs) seen (more ++ more') seen₂ := by
  have hx : x ∈ x :: xs := List.mem_cons_self
  have hxs : xs ⊆ x :: xs := List.subset_cons_self x xs
  refine ⟨?_, ?_, ?_, ?_, ?_⟩
  · exact (Finset.subset_insert x seen).trans (hinner.seen_subset.trans hrest.seen_subset)
  · intro y hy
    rcases List.mem_append.mp hy with hy | hy
    · exact (hinner.listed_reached y hy).of_succ hx
    · exact (hrest.listed_reached y hy).mono hxs
  · intro y hy hnot
    by_cases hy₁ : y ∈ seen₁
    · by_cases hyx : y = x
      · subst hyx
        exact .of_mem hx
      · refine (hinner.seen_reached y hy₁ ?_).of_succ hx
        simp [hyx, hnot]
    · exact (hrest.seen_reached y hy hy₁).mono hxs
  · intro y hy
    rcases List.mem_cons.mp hy with rfl | hy
    · exact hrest.seen_subset (hinner.seen_subset (Finset.mem_insert_self y seen))
    · exact hrest.expanded y hy
  · intro y hy hnot z hz
    by_cases hy₁ : y ∈ seen₁
    · have hz₁ : z ∈ more ∧ z ∈ seen₁ := by
        by_cases hyx : y = x
        · subst hyx
          exact ⟨hsucc hz, hinner.expanded z hz⟩
        · exact hinner.successors y hy₁ (by simp [hyx, hnot]) z hz
      exact ⟨List.mem_append_left more' hz₁.1, hrest.seen_subset hz₁.2⟩
    · have hz₂ := hrest.successors y hy hy₁ z hz
      exact ⟨List.mem_append_right more hz₂.1, hz₂.2⟩

variable {depth : ℕ}

/-- The walk over the elements of a list, where the walks from their successors are known. -/
theorem visits_of_explore (ih : ∀ {xs listed : List α} {seen seen' : Finset α},
      explore succ depth xs seen = some (listed, seen') →
      ∃ more, listed = xs ++ more ∧ Explored succ xs seen more seen')
    (xs : List α) {before listed : List α}
    (h : xs.foldlM (visit succ (explore succ depth)) (before, seen) = some (listed, seen')) :
    ∃ more, listed = before ++ more ∧ Explored succ xs seen more seen' := by
  induction xs generalizing before seen with
  | nil =>
    obtain ⟨rfl, rfl⟩ := Prod.mk.inj (Option.some.inj h)
    exact ⟨[], (List.append_nil _).symm, .nil seen⟩
  | cons x xs ihxs =>
    rw [List.foldlM_cons, Option.bind_eq_bind, Option.bind_eq_some_iff] at h
    obtain ⟨⟨listed₁, seen₁⟩, hvisit, hrest⟩ := h
    obtain ⟨more₂, rfl, hspec⟩ := ihxs hrest
    unfold visit at hvisit
    split_ifs at hvisit with hseen
    · obtain ⟨rfl, rfl⟩ := Prod.mk.inj (Option.some.inj hvisit)
      exact ⟨more₂, rfl, hspec.skip hseen⟩
    · obtain ⟨⟨more₁, seen₂⟩, hexplore, heq⟩ := Option.map_eq_some_iff.mp hvisit
      obtain ⟨rfl, rfl⟩ := Prod.mk.inj heq
      obtain ⟨deeper, rfl, hinner⟩ := ih hexplore
      exact ⟨succ x ++ deeper ++ more₂, List.append_assoc _ _ _,
        .cons (List.subset_append_left _ _) hinner.listed hspec⟩

/-- **Run lemma**: the walk lists what it starts from, and then more. -/
theorem explore_spec {xs listed : List α} (h : explore succ depth xs seen = some (listed, seen')) :
    ∃ more, listed = xs ++ more ∧ Explored succ xs seen more seen' := by
  induction depth generalizing xs listed seen seen' with
  | zero => cases h
  | succ depth ih => exact visits_of_explore ih xs h

theorem visits_listed {xs before listed : List α}
    (h : xs.foldlM (visit succ (explore succ depth)) (before, seen) = some (listed, seen')) :
    before <+: listed := by
  obtain ⟨more, rfl, -⟩ := visits_of_explore explore_spec xs h
  exact List.prefix_append before more

/-- **Main theorem**: from nothing expanded, exactly what can be reached is listed. -/
theorem mem_explore_iff {xs listed : List α}
    (h : explore succ depth xs ∅ = some (listed, seen')) (y : α) :
    y ∈ listed ↔ ReachedFrom succ xs y := by
  obtain ⟨more, rfl, hspec⟩ := explore_spec h
  constructor
  · exact hspec.listed.listed_reached y
  · rintro ⟨x, hx, hreach⟩
    -- everything on the way is listed and expanded
    suffices hboth : y ∈ xs ++ more ∧ y ∈ seen' from hboth.1
    induction hreach with
    | refl => exact ⟨List.mem_append_left more hx, hspec.expanded x hx⟩
    | tail _ hedge ih =>
      have hsuccs := hspec.successors _ ih.2 (Finset.notMem_empty _) _ hedge
      exact ⟨List.mem_append_right xs hsuccs.1, hsuccs.2⟩

/-! ## The depth -/

theorem explore_mono {xs : List α} {result : List α × Finset α}
    (h : explore succ depth xs seen = some result) :
    explore succ (depth + 1) xs seen = some result := by
  induction depth generalizing xs seen result with
  | zero => cases h
  | succ depth ih =>
    suffices hloop : ∀ (xs : List α) (state : List α × Finset α),
        xs.foldlM (visit succ (explore succ depth)) state = some result →
        xs.foldlM (visit succ (explore succ (depth + 1))) state = some result from
      hloop xs (xs, seen) h
    intro xs
    induction xs with
    | nil => exact fun _ h => h
    | cons x xs ihxs =>
      intro state h
      rw [List.foldlM_cons, Option.bind_eq_bind, Option.bind_eq_some_iff] at h ⊢
      obtain ⟨state₁, hvisit, hrest⟩ := h
      refine ⟨state₁, ?_, ihxs state₁ hrest⟩
      unfold visit at hvisit ⊢
      split_ifs at hvisit ⊢
      · exact hvisit
      · obtain ⟨inner, hinner, heq⟩ := Option.map_eq_some_iff.mp hvisit
        rw [ih hinner, Option.map_some, heq]

/-- **Main theorem**: a depth above the number of elements that are not yet expanded suffices,
whether the graph has cycles or not. -/
theorem explore_isSome {all : Finset α} (hclosed : ∀ x ∈ all, ∀ y ∈ succ x, y ∈ all)
    {xs : List α} (hxs : ∀ x ∈ xs, x ∈ all)
    (hdepth : (all \ seen).card < depth) : (explore succ depth xs seen).isSome := by
  induction depth generalizing xs seen with
  | zero => omega
  | succ depth ih =>
    suffices hloop : ∀ (xs before : List α) (seen : Finset α), (∀ x ∈ xs, x ∈ all) →
        (all \ seen).card < depth + 1 →
        (xs.foldlM (visit succ (explore succ depth)) (before, seen)).isSome from
      hloop xs xs seen hxs hdepth
    intro xs
    induction xs with
    | nil => exact fun _ _ _ _ => rfl
    | cons x xs ihxs =>
      intro before seen hxs hdepth
      obtain ⟨hx, hxs⟩ := List.forall_mem_cons.mp hxs
      rw [List.foldlM_cons]
      by_cases hseen : x ∈ seen
      · rw [visit, if_pos hseen]
        exact ihxs before seen hxs hdepth
      · have hsmaller : (all \ insert x seen).card < depth := by
          have hlt : (all \ insert x seen).card < (all \ seen).card := by
            apply Finset.card_lt_card
            refine Finset.ssubset_iff_of_subset ?_ |>.mpr ⟨x, ?_, ?_⟩
            · exact Finset.sdiff_subset_sdiff (Finset.Subset.refl _) (Finset.subset_insert x seen)
            · exact Finset.mem_sdiff.mpr ⟨hx, hseen⟩
            · simp
          omega
        have hinner := ih (hclosed x hx) hsmaller
        obtain ⟨⟨more, seen₁⟩, hexplore⟩ := Option.isSome_iff_exists.mp hinner
        rw [visit, if_neg hseen, hexplore]
        obtain ⟨_, -, hspec⟩ := explore_spec hexplore
        refine ihxs (before ++ more) seen₁ hxs (lt_of_le_of_lt ?_ hdepth)
        apply Finset.card_le_card
        exact Finset.sdiff_subset_sdiff (Finset.Subset.refl _)
          ((Finset.subset_insert x seen).trans hspec.seen_subset)

end CldcVm.Lib
