import Mathlib.Data.Set.Card

/-!
# Cycles of a relation with one successor at most

A relation in which nothing has two successors, and its restriction to a set.

Results:

* `IsCycle.eq_of_mem`, `IsCycle.reaches`: two cycles are equal or apart, and a cycle is closed.
* `isCycle_within_iff`: the cycles of a restriction are the cycles within the set.
* `IsCycle.eq_of_reaches`: one cycle at most is reached from a node.
* `cycles_image`, `ncard_cycles_image`: the cycles under other names.
-/

namespace CldcVm.Lib.Cycles

open Relation

variable {α β : Type*} {r : α → α → Prop} {s : Set α} {C D : Set α} {a b c : α}

/-- The set is what is reached from one of its members, which is reached again. -/
def IsCycle (r : α → α → Prop) (C : Set α) : Prop :=
  ∃ a, TransGen r a a ∧ C = {b | ReflTransGen r a b}

/-- The relation with targets in the set only. -/
def within (r : α → α → Prop) (s : Set α) (a b : α) : Prop := r a b ∧ b ∈ s

/-! ## Restrictions -/

theorem within_le (r : α → α → Prop) (s : Set α) : within r s ≤ r := fun _ _ h => h.1

theorem reaches_of_within (h : ReflTransGen (within r s) a b) : ReflTransGen r a b :=
  ReflTransGen.mono (within_le r s) a b h

theorem mem_of_reaches_within (h : ReflTransGen (within r s) a b) (ha : a ∈ s) : b ∈ s := by
  obtain rfl | ⟨c, -, hcb⟩ := ReflTransGen.cases_tail h
  · exact ha
  · exact hcb.2

/-! ## Cycles -/

/-- What is reached from a member is a member. -/
theorem IsCycle.closed (h : IsCycle r C) (ha : a ∈ C) (hab : ReflTransGen r a b) : b ∈ C := by
  obtain ⟨c, -, rfl⟩ := h
  exact ReflTransGen.trans ha hab

theorem IsCycle.nonempty (h : IsCycle r C) : C.Nonempty := by
  obtain ⟨a, -, rfl⟩ := h
  exact ⟨a, ReflTransGen.refl⟩

section RightUnique

variable (hr : Relator.RightUnique r)
include hr

theorem reaches_back (ha : TransGen r a a) (hab : ReflTransGen r a b) : ReflTransGen r b a := by
  induction hab with
  | refl => exact ReflTransGen.refl
  | @tail b c _ hbc ih =>
    -- One step from `b` leads to `c`, on the way back to `a` or on the way round from it.
    obtain rfl | ⟨d, hbd, hda⟩ := ReflTransGen.cases_head ih
    · obtain ⟨d, hbd, hdb⟩ := TransGen.head'_iff.1 ha
      rwa [hr hbc hbd]
    · rwa [hr hbc hbd]

theorem IsCycle.reaches (h : IsCycle r C) (ha : a ∈ C) (hb : b ∈ C) : ReflTransGen r a b := by
  obtain ⟨c, hc, rfl⟩ := h
  exact (reaches_back hr hc ha).trans hb

theorem IsCycle.again (h : IsCycle r C) (ha : a ∈ C) : TransGen r a a := by
  obtain ⟨c, hc, rfl⟩ := h
  exact TransGen.trans_right (reaches_back hr hc ha) (TransGen.trans_left hc ha)

/-- **Main lemma**: two cycles with a common member are equal. -/
theorem IsCycle.eq_of_mem (hC : IsCycle r C) (hD : IsCycle r D) (haC : a ∈ C) (haD : a ∈ D) :
    C = D := by
  ext b
  exact ⟨fun hb => hD.closed haD (hC.reaches hr haC hb),
    fun hb => hC.closed haC (hD.reaches hr haD hb)⟩

omit hr in
theorem IsCycle.reaches_within (hC : IsCycle r C) (hs : C ⊆ s) (ha : a ∈ C)
    (hab : ReflTransGen r a b) : ReflTransGen (within r s) a b := by
  induction hab with
  | refl => exact ReflTransGen.refl
  | tail hab hbc ih => exact ih.tail ⟨hbc, hs (hC.closed ha (hab.tail hbc))⟩

omit hr in
/-- The members of a cycle of a restriction are in the set. -/
theorem IsCycle.subset_of_within (h : IsCycle (within r s) C) : C ⊆ s := by
  obtain ⟨a, ha, rfl⟩ := h
  obtain ⟨b, -, hba⟩ := TransGen.tail'_iff.1 ha
  exact fun c hc => mem_of_reaches_within hc hba.2

/-- **Main lemma**: the cycles of a restriction are the cycles within the set. -/
theorem isCycle_within_iff : IsCycle (within r s) C ↔ IsCycle r C ∧ C ⊆ s := by
  constructor
  · intro h
    have hsub := h.subset_of_within
    obtain ⟨a, ha, rfl⟩ := h
    refine ⟨⟨a, TransGen.mono (within_le r s) a a ha, ?_⟩, hsub⟩
    have hr' : Relator.RightUnique (within r s) := fun _ _ _ h h' => hr h.1 h'.1
    ext b
    refine ⟨reaches_of_within, fun hab => ?_⟩
    induction hab with
    | refl => exact ReflTransGen.refl
    | @tail b c _ hbc ih =>
      have hb : TransGen (within r s) b b :=
        IsCycle.again hr' ⟨a, ha, rfl⟩ ih
      obtain ⟨d, hbd, -⟩ := TransGen.head'_iff.1 hb
      rw [hr hbc hbd.1]
      exact ReflTransGen.tail ih hbd
  · rintro ⟨h, hs⟩
    obtain ⟨a, ha, rfl⟩ := h
    have hC : IsCycle r {b | ReflTransGen r a b} := ⟨a, ha, rfl⟩
    refine ⟨a, ?_, ?_⟩
    · obtain ⟨b, hab, hba⟩ := TransGen.tail'_iff.1 ha
      have hwithin : ReflTransGen (within r s) a b :=
        hC.reaches_within hs ReflTransGen.refl hab
      exact TransGen.tail' hwithin ⟨hba, hs ReflTransGen.refl⟩
    · ext b
      exact ⟨hC.reaches_within hs ReflTransGen.refl, reaches_of_within⟩

theorem IsCycle.eq_of_reaches {d : α} (hC : IsCycle r C) (hD : IsCycle r D) (hc : c ∈ C)
    (hd : d ∈ D) (hac : ReflTransGen r a c) (had : ReflTransGen r a d) : C = D := by
  obtain hcd | hdc := ReflTransGen.total_of_right_unique hr hac had
  · exact hC.eq_of_mem hr hD (hC.closed hc hcd) hd
  · exact hC.eq_of_mem hr hD hc (hD.closed hd hdc)

end RightUnique

theorem finite_cycles (r : α → α → Prop) (hs : s.Finite) : {C | IsCycle r C ∧ C ⊆ s}.Finite :=
  hs.finite_subsets.subset fun _ hC => hC.2

/-! ## Cycles under other names -/

section Renaming

variable {β : Type*} {q : β → β → Prop} {φ : α → β}

/-- A path under other names. -/
theorem reaches_map (hφ : ∀ a ∈ s, ∀ b ∈ s, r a b → q (φ a) (φ b)) (ha : a ∈ s)
    (hab : ReflTransGen (within r s) a b) : ReflTransGen (within q (φ '' s)) (φ a) (φ b) := by
  induction hab with
  | refl => exact ReflTransGen.refl
  | tail hab hbc ih =>
    have hb := mem_of_reaches_within hab ha
    exact ih.tail ⟨hφ _ hb _ hbc.2 hbc.1, ⟨_, hbc.2, rfl⟩⟩

/-- A path under the first names. -/
theorem exists_reaches_of_map (hφ : ∀ a ∈ s, ∀ b ∈ s, q (φ a) (φ b) → r a b) (ha : a ∈ s) {y : β}
    (hy : ReflTransGen (within q (φ '' s)) (φ a) y) :
    ∃ b ∈ s, φ b = y ∧ ReflTransGen (within r s) a b := by
  induction hy with
  | refl => exact ⟨a, ha, rfl, ReflTransGen.refl⟩
  | tail _ hyz ih =>
    obtain ⟨b, hb, rfl, hab⟩ := ih
    obtain ⟨c, hc, rfl⟩ := hyz.2
    exact ⟨c, hc, rfl, hab.tail ⟨hφ b hb c hc hyz.1, hc⟩⟩

/-- **Main theorem**: the cycles within the image of a set are the images of those within it. -/
theorem cycles_image (hr : Relator.RightUnique r) (hq : Relator.RightUnique q)
    (hφ : ∀ a ∈ s, ∀ b ∈ s, r a b ↔ q (φ a) (φ b)) :
    {D | IsCycle q D ∧ D ⊆ φ '' s} = (fun C => φ '' C) '' {C | IsCycle r C ∧ C ⊆ s} := by
  have hto : ∀ a ∈ s, ∀ b ∈ s, r a b → q (φ a) (φ b) := fun a ha b hb => (hφ a ha b hb).1
  have hfrom : ∀ a ∈ s, ∀ b ∈ s, q (φ a) (φ b) → r a b := fun a ha b hb => (hφ a ha b hb).2
  have himage : ∀ a ∈ s, φ '' {b | ReflTransGen (within r s) a b} =
      {y | ReflTransGen (within q (φ '' s)) (φ a) y} := by
    intro a ha
    ext y
    constructor
    · rintro ⟨b, hab, rfl⟩
      exact reaches_map hto ha hab
    · intro hy
      obtain ⟨b, -, rfl, hab⟩ := exists_reaches_of_map hfrom ha hy
      exact ⟨b, hab, rfl⟩
  ext D
  simp only [Set.mem_ofPred_eq, Set.mem_image, ← isCycle_within_iff hr, ← isCycle_within_iff hq]
  constructor
  · intro hD
    have hsub := hD.subset_of_within
    obtain ⟨y, hy, rfl⟩ := hD
    obtain ⟨a, ha, rfl⟩ := hsub ReflTransGen.refl
    refine ⟨{b | ReflTransGen (within r s) a b}, ⟨a, ?_, rfl⟩, himage a ha⟩
    obtain ⟨z, hyz, hzy⟩ := TransGen.tail'_iff.1 hy
    obtain ⟨b, hb, rfl, hab⟩ := exists_reaches_of_map hfrom ha hyz
    exact TransGen.tail' hab ⟨hfrom b hb a ha hzy.1, ha⟩
  · rintro ⟨C, hC, rfl⟩
    have hsub := hC.subset_of_within
    obtain ⟨a, ha, rfl⟩ := hC
    have has : a ∈ s := hsub ReflTransGen.refl
    refine ⟨φ a, ?_, himage a has⟩
    obtain ⟨b, hab, hba⟩ := TransGen.tail'_iff.1 ha
    have hb := mem_of_reaches_within hab has
    exact TransGen.tail' (reaches_map hto has hab) ⟨hto b hb a has hba.1, ⟨a, has, rfl⟩⟩

/-- There are as many. -/
theorem ncard_cycles_image (hr : Relator.RightUnique r) (hq : Relator.RightUnique q)
    (hφ : ∀ a ∈ s, ∀ b ∈ s, r a b ↔ q (φ a) (φ b)) (hinj : Set.InjOn φ s) :
    {D | IsCycle q D ∧ D ⊆ φ '' s}.ncard = {C | IsCycle r C ∧ C ⊆ s}.ncard := by
  rw [cycles_image hr hq hφ]
  refine Set.InjOn.ncard_image fun C hC D hD h => ?_
  exact (hinj.image_eq_image_iff hC.2 hD.2).1 h

end Renaming

end CldcVm.Lib.Cycles
