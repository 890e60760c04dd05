import CldcVm.Lib.Cycles

/-!
# A search for cycles that takes the nodes away

The nodes of a list are looked at one after the other. From one that has no mark, all that is
reached is marked, and a cycle that is reached is counted; then the node is taken away. Marks of an
earlier node do not stop the search.

Results:

* `mem_approaches_cons`, `mem_freshCycles_cons`: what one node does to the nodes from which a cycle
  is reached from outside, and to the cycles that are not.
* `found_eq`: what is counted.
-/

namespace CldcVm.Lib.CycleSearch

open Relation Cycles

variable {α : Type*} {r : α → α → Prop} {C D : Set α} {L rest : List α} {M : Set α} {b h : α}

/-- What is reached in the list. -/
def reached (r : α → α → Prop) (L : List α) (b : α) : Set α :=
  {x | ReflTransGen (within r {x | x ∈ L}) b x}

/-- The cycle is in the list and is reached from the node. -/
def Leads (r : α → α → Prop) (L : List α) (b : α) (C : Set α) : Prop :=
  IsCycle r C ∧ (∀ c ∈ C, c ∈ L) ∧ ∃ c ∈ C, c ∈ reached r L b

open Classical in
/-- What the search counts, where `M` has been marked. -/
noncomputable def found (r : α → α → Prop) : List α → Set α → ℕ
  | [], _ => 0
  | b :: rest, M =>
    if b ∈ M then found r rest M
    else (if ∃ C, Leads r (b :: rest) b C then 1 else 0) +
      found r rest (M ∪ reached r (b :: rest) b)

/-- The node comes before all nodes of the cycle and leads to it, and is not reached from an earlier
node. -/
def IsApproach (r : α → α → Prop) (C : Set α) : List α → α → Prop
  | [], _ => False
  | b :: rest, h => (h = b ∧ (∀ c ∈ C, c ∈ rest) ∧ ∃ c ∈ C, c ∈ reached r (b :: rest) b) ∨
      (h ∉ reached r (b :: rest) b ∧ IsApproach r C rest h)

/-- The nodes without a mark that come to the cycle from outside. -/
def approaches (r : α → α → Prop) (C : Set α) (L : List α) (M : Set α) : Set α :=
  {h | h ∉ M ∧ IsApproach r C L h}

/-- The nodes that come to a cycle from outside. -/
def allApproaches (r : α → α → Prop) (L : List α) (M : Set α) : Set α :=
  {h | ∃ C, IsCycle r C ∧ h ∈ approaches r C L M}

/-- The cycles without a mark that no node comes to from outside. -/
def freshCycles (r : α → α → Prop) (L : List α) (M : Set α) : Set (Set α) :=
  {C | IsCycle r C ∧ (∀ c ∈ C, c ∈ L) ∧ (∀ c ∈ C, c ∉ M) ∧ approaches r C L M = ∅}

/-- What is reached from a mark has one. -/
def MarksClosed (r : α → α → Prop) (L : List α) (M : Set α) : Prop :=
  ∀ x ∈ M, ∀ y ∈ L, r x y → y ∈ M

/-! ## Marks -/

theorem MarksClosed.reached (h : MarksClosed r L M) (hb : b ∈ M) : reached r L b ⊆ M := by
  intro x hx
  induction hx with
  | refl => exact hb
  | tail _ hxy ih => exact h _ ih _ hxy.2 hxy.1

/-- A node has been looked at. -/
theorem MarksClosed.cons (h : MarksClosed r (b :: rest) M) :
    MarksClosed r rest (M ∪ CycleSearch.reached r (b :: rest) b) := by
  rintro x (hx | hx) y hy hxy
  · exact .inl (h x hx y (List.mem_cons_of_mem b hy) hxy)
  · exact .inr (ReflTransGen.tail hx ⟨hxy, List.mem_cons_of_mem b hy⟩)

/-! ## Approaches -/

theorem IsApproach.mem (h' : IsApproach r C L h) : h ∈ L := by
  induction L with
  | nil => exact h'.elim
  | cons b rest ih =>
    obtain ⟨rfl, -, -⟩ | ⟨-, h'⟩ := h'
    · exact List.mem_cons_self
    · exact List.mem_cons_of_mem b (ih h')

theorem IsApproach.cycle_mem (h' : IsApproach r C L h) : ∀ c ∈ C, c ∈ L := by
  induction L with
  | nil => exact h'.elim
  | cons b rest ih =>
    obtain ⟨-, hC, -⟩ | ⟨-, h'⟩ := h'
    · exact fun c hc => List.mem_cons_of_mem b (hC c hc)
    · exact fun c hc => List.mem_cons_of_mem b (ih h' c hc)

/-- **Step lemma**: the approaches before and after a node has been looked at. -/
theorem mem_approaches_cons (hb : b ∉ rest) : h ∈ approaches r C (b :: rest) M ↔
    (h = b ∧ b ∉ M ∧ (∀ c ∈ C, c ∈ rest) ∧ ∃ c ∈ C, c ∈ reached r (b :: rest) b) ∨
      h ∈ approaches r C rest (M ∪ reached r (b :: rest) b) := by
  constructor
  · rintro ⟨hM, ⟨rfl, hC, hlead⟩ | ⟨hnot, h'⟩⟩
    · exact .inl ⟨rfl, hM, hC, hlead⟩
    · exact .inr ⟨fun hmem => hmem.elim hM hnot, h'⟩
  · rintro (⟨rfl, hM, hC, hlead⟩ | ⟨hnot, h'⟩)
    · exact ⟨hM, .inl ⟨rfl, hC, hlead⟩⟩
    · exact ⟨fun hM => hnot (.inl hM), .inr ⟨fun hr => hnot (.inr hr), h'⟩⟩

/-- A node that is led to by none does not matter to a cycle. -/
theorem approaches_cons_of_not_leads (hb : b ∉ rest)
    (hnot : ¬∃ c ∈ C, c ∈ reached r (b :: rest) b) : approaches r C (b :: rest) M =
      approaches r C rest (M ∪ reached r (b :: rest) b) := by
  ext h
  rw [mem_approaches_cons hb]
  exact or_iff_right fun h' => hnot h'.2.2.2

/-- **Step lemma**: the cycles without an approach, of those that the node does not lead to. -/
theorem mem_freshCycles_cons (hb : b ∉ rest)
    (hnot : ¬∃ c ∈ C, c ∈ reached r (b :: rest) b) : C ∈ freshCycles r (b :: rest) M ↔
      C ∈ freshCycles r rest (M ∪ reached r (b :: rest) b) := by
  have hbC : b ∉ C := fun hmem => hnot ⟨b, hmem, ReflTransGen.refl⟩
  have hlist : (∀ c ∈ C, c ∈ b :: rest) ↔ ∀ c ∈ C, c ∈ rest := by
    refine forall₂_congr fun c hc => ?_
    rw [List.mem_cons, or_iff_right]
    rintro rfl
    exact hbC hc
  have hmarks : (∀ c ∈ C, c ∉ M) ↔ ∀ c ∈ C, c ∉ M ∪ reached r (b :: rest) b := by
    refine forall₂_congr fun c hc => not_congr ?_
    rw [Set.mem_union, or_iff_left]
    exact fun hreached => hnot ⟨c, hc, hreached⟩
  simp only [freshCycles, Set.mem_ofPred_eq]
  rw [hlist, hmarks, approaches_cons_of_not_leads hb hnot]

/-! ## What is counted -/

theorem allApproaches_subset : allApproaches r L M ⊆ {x | x ∈ L} := by
  rintro h ⟨C, -, -, h'⟩
  exact h'.mem

theorem finite_allApproaches : (allApproaches r L M).Finite :=
  L.finite_toSet.subset allApproaches_subset

theorem finite_freshCycles : (freshCycles r L M).Finite :=
  (finite_cycles r L.finite_toSet).subset fun _ hC => ⟨hC.1, hC.2.1⟩

section Search

variable (hr : Relator.RightUnique r)
include hr

theorem Leads.eq (hC : Leads r L b C) (hD : IsCycle r D) (hlead : ∃ d ∈ D, d ∈ reached r L b) :
    D = C := by
  obtain ⟨hcycle, -, c, hc, hbc⟩ := hC
  obtain ⟨d, hd, hbd⟩ := hlead
  exact hD.eq_of_reaches hr hcycle hd hc (reaches_of_within hbd) (reaches_of_within hbc)

omit hr in
theorem sets_cons_of_marked (hb : b ∉ rest) (hM : MarksClosed r (b :: rest) M) (hbM : b ∈ M) :
    allApproaches r (b :: rest) M = allApproaches r rest M ∧
      freshCycles r (b :: rest) M = freshCycles r rest M := by
  have hsame : M ∪ reached r (b :: rest) b = M := Set.union_eq_left.2 (hM.reached hbM)
  constructor
  · ext h
    refine exists_congr fun C => and_congr_right fun _ => ?_
    rw [mem_approaches_cons hb, hsame]
    exact or_iff_right fun h' => h'.2.1 hbM
  · ext C
    by_cases hlead : ∃ c ∈ C, c ∈ reached r (b :: rest) b
    · obtain ⟨c, hc, hbc⟩ := hlead
      have hcM := hM.reached hbM hbc
      exact ⟨fun h => (h.2.2.1 c hc hcM).elim, fun h => (h.2.2.1 c hc hcM).elim⟩
    · rw [mem_freshCycles_cons hb hlead, hsame]

omit hr in
theorem sets_cons_of_not_leads (hb : b ∉ rest) (hnot : ¬∃ C, Leads r (b :: rest) b C) :
    allApproaches r (b :: rest) M = allApproaches r rest (M ∪ reached r (b :: rest) b) ∧
      freshCycles r (b :: rest) M = freshCycles r rest (M ∪ reached r (b :: rest) b) := by
  constructor
  · ext h
    refine exists_congr fun C => and_congr_right fun hC => ?_
    rw [mem_approaches_cons hb]
    refine or_iff_right fun h' => hnot ⟨C, hC, fun c hc => ?_, h'.2.2.2⟩
    exact List.mem_cons_of_mem b (h'.2.2.1 c hc)
  · ext C
    by_cases hlead : ∃ c ∈ C, c ∈ reached r (b :: rest) b
    · constructor
      · exact fun h => (hnot ⟨C, h.1, h.2.1, hlead⟩).elim
      · intro h
        exact (hnot ⟨C, h.1, fun c hc => List.mem_cons_of_mem b (h.2.1 c hc), hlead⟩).elim
    · exact mem_freshCycles_cons hb hlead

theorem sets_cons_of_outside (hb : b ∉ rest) (hbM : b ∉ M) (hC : Leads r (b :: rest) b C)
    (hbC : b ∉ C) :
    allApproaches r (b :: rest) M = insert b (allApproaches r rest (M ∪ reached r (b :: rest) b)) ∧
      freshCycles r (b :: rest) M = freshCycles r rest (M ∪ reached r (b :: rest) b) := by
  have hrest : ∀ c ∈ C, c ∈ rest := by
    intro c hc
    obtain rfl | hmem := List.mem_cons.1 (hC.2.1 c hc)
    · exact (hbC hc).elim
    · exact hmem
  constructor
  · ext h
    rw [Set.mem_insert_iff]
    constructor
    · rintro ⟨D, hD, h'⟩
      obtain ⟨rfl, -, -, -⟩ | h' := (mem_approaches_cons hb).1 h'
      · exact .inl rfl
      · exact .inr ⟨D, hD, h'⟩
    · rintro (rfl | ⟨D, hD, h'⟩)
      · exact ⟨C, hC.1, (mem_approaches_cons hb).2 (.inl ⟨rfl, hbM, hrest, hC.2.2⟩)⟩
      · exact ⟨D, hD, (mem_approaches_cons hb).2 (.inr h')⟩
  · ext D
    by_cases hlead : ∃ c ∈ D, c ∈ reached r (b :: rest) b
    · constructor
      · intro h
        obtain rfl := hC.eq hr h.1 hlead
        have hmem : b ∈ approaches r D (b :: rest) M :=
          (mem_approaches_cons hb).2 (.inl ⟨rfl, hbM, hrest, hlead⟩)
        rw [h.2.2.2] at hmem
        exact hmem.elim
      · intro h
        obtain ⟨c, hc, hbc⟩ := hlead
        exact (h.2.2.1 c hc (.inr hbc)).elim
    · exact mem_freshCycles_cons hb hlead

theorem sets_cons_of_inside (hb : b ∉ rest) (hM : MarksClosed r (b :: rest) M) (hbM : b ∉ M)
    (hC : Leads r (b :: rest) b C) (hbC : b ∈ C) :
    allApproaches r (b :: rest) M = allApproaches r rest (M ∪ reached r (b :: rest) b) ∧
      freshCycles r (b :: rest) M =
        insert C (freshCycles r rest (M ∪ reached r (b :: rest) b)) := by
  have hnone : ∀ h M', h ∉ approaches r C rest M' :=
    fun h M' h' => hb (h'.2.cycle_mem b hbC)
  constructor
  · ext h
    refine exists_congr fun D => and_congr_right fun hD => ?_
    rw [mem_approaches_cons hb]
    refine or_iff_right fun h' => ?_
    obtain rfl := hC.eq hr hD h'.2.2.2
    exact hb (h'.2.2.1 b hbC)
  · ext D
    rw [Set.mem_insert_iff]
    by_cases hlead : ∃ c ∈ D, c ∈ reached r (b :: rest) b
    · constructor
      · exact fun h => .inl (hC.eq hr h.1 hlead)
      · rintro (rfl | h)
        · refine ⟨hC.1, hC.2.1, fun c hc hcM => hbM ?_, ?_⟩
          · -- Round the cycle from a member with a mark.
            have hcb : ReflTransGen (within r {x | x ∈ b :: rest}) c b :=
              hC.1.reaches_within hC.2.1 hc (hC.1.reaches hr hc hbC)
            exact hM.reached hcM hcb
          · ext h
            rw [mem_approaches_cons hb]
            refine ⟨?_, fun h' => h'.elim⟩
            rintro (⟨-, -, hrest, -⟩ | h')
            · exact hb (hrest b hbC)
            · exact hnone h _ h'
        · obtain ⟨c, hc, hbc⟩ := hlead
          exact (h.2.2.1 c hc (.inr hbc)).elim
    · rw [mem_freshCycles_cons hb hlead, or_iff_right]
      rintro rfl
      exact hlead hC.2.2

/-- **Main theorem**: the search counts every node that comes to a cycle from outside, and once
every cycle that none comes to. -/
theorem found_eq (hL : L.Nodup) (hM : MarksClosed r L M) :
    found r L M = (allApproaches r L M).ncard + (freshCycles r L M).ncard := by
  induction L generalizing M with
  | nil =>
    have happroaches : allApproaches r [] M = ∅ := by
      ext h
      exact ⟨fun ⟨_, _, _, h'⟩ => h'.elim, fun h' => h'.elim⟩
    have hfresh : freshCycles r [] M = ∅ := by
      ext C
      refine ⟨fun h => ?_, fun h' => h'.elim⟩
      obtain ⟨c, hc⟩ := h.1.nonempty
      simpa using h.2.1 c hc
    rw [happroaches, hfresh, Set.ncard_empty, Set.ncard_empty, found]
  | cons b rest ih =>
    obtain ⟨hb, hrest⟩ := List.nodup_cons.1 hL
    rw [found]
    by_cases hbM : b ∈ M
    · obtain ⟨hA, hB⟩ := sets_cons_of_marked hb hM hbM
      have hclosed : MarksClosed r rest M :=
        fun x hx y hy => hM x hx y (List.mem_cons_of_mem b hy)
      rw [if_pos hbM, hA, hB, ih hrest hclosed]
    rw [if_neg hbM, ih hrest hM.cons]
    by_cases hlead : ∃ C, Leads r (b :: rest) b C
    · rw [if_pos hlead]
      obtain ⟨C, hC⟩ := hlead
      by_cases hbC : b ∈ C
      · obtain ⟨hA, hB⟩ := sets_cons_of_inside hr hb hM hbM hC hbC
        rw [hA, hB, Set.ncard_insert_of_notMem ?_ finite_freshCycles]
        · omega
        · exact fun h => hb (h.2.1 b hbC)
      · obtain ⟨hA, hB⟩ := sets_cons_of_outside hr hb hbM hC hbC
        rw [hA, hB, Set.ncard_insert_of_notMem ?_ finite_allApproaches]
        · omega
        · exact fun h => hb (allApproaches_subset h)
    · obtain ⟨hA, hB⟩ := sets_cons_of_not_leads (M := M) hb hlead
      rw [if_neg hlead, hA, hB, zero_add]

end Search

end CldcVm.Lib.CycleSearch
