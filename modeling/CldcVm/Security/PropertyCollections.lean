import CldcVm.Security.PermissionCollections

/-!
# Collections of property permissions

A climb collects the actions of all wildcards on its way, also of the one below a dot at the end of
the name, which does not imply the name.

Results:

* `collections_agree_iff`: when a collection, of basic or of property permissions, answers what its
  members say.
-/

namespace CldcVm.Security

variable {desired effective b : ℕ}

/-! ## Actions -/

theorem covers_iff : effective &&& desired = desired ↔
    ∀ b, desired.testBit b = true → effective.testBit b = true := by
  constructor
  · intro h b hb
    rw [← h, Nat.testBit_and] at hb
    exact (Bool.and_eq_true_iff.mp hb).1
  · intro h
    refine Nat.eq_of_testBit_eq fun b => ?_
    rw [Nat.testBit_and]
    by_cases hb : desired.testBit b = true
    · rw [h b hb, hb, Bool.and_true]
    · rw [Bool.not_eq_true] at hb
      rw [hb, Bool.and_false]

theorem testBit_accumulate (effective : ℕ) (x : Option PropertyPermission) (b : ℕ) :
    (accumulate effective x).testBit b = true ↔
      effective.testBit b = true ∨ ∃ y, x = some y ∧ y.mask.testBit b = true := by
  match x with
  | none => simp [accumulate]
  | some y => simp [accumulate, Nat.testBit_or]

theorem new_name (p : BasicPermission) : BasicPermission.new p.name = some p := by
  obtain ⟨name, wildcard, path, made⟩ := p
  rw [BasicPermission.new]
  split
  · rename_i h
    rw [made] at h
    cases h
  · rename_i wildcard' path' h
    rw [made] at h
    cases h
    rfl

theorem new_getActions (p : BasicPermission) {mask : ℕ}
    (h : mask &&& (READ ||| WRITE) = mask ∧ mask ≠ 0) :
    PropertyPermission.new p.name (getActions mask) = some ⟨p, mask, h⟩ := by
  rw [PropertyPermission.new, new_name, getMask_getActions h.1 h.2]
  exact dif_pos h

/-! ## Members -/

/-- The entry of a name has an action. -/
def PropertyPermissionCollection.Has (c : PropertyPermissionCollection) (q : List Jchar) (b : ℕ) :
    Prop :=
  ∃ x, c.perms q = some x ∧ x.mask.testBit b = true

/-- A member has a name and an action. -/
def HasMember (members : List PropertyPermission) (q : List Jchar) (b : ℕ) : Prop :=
  ∃ m ∈ members, m.name = q ∧ m.mask.testBit b = true

/-- A table of the actions of the members of a collection. -/
structure PropertyPermissionCollection.Holds (c : PropertyPermissionCollection)
    (members : List PropertyPermission) : Prop where
  has : ∀ q b, c.Has q b ↔ HasMember members q b
  allAllowed : c.allAllowed = true ↔ ∃ m ∈ members, m.name = [star]
  readOnly : c.readOnly = false

variable {c : PropertyPermissionCollection} {members : List PropertyPermission}

theorem PropertyPermissionCollection.holds_new : new.Holds [] := by
  refine ⟨fun q b => ?_, by simp [new], rfl⟩
  simp [Has, HasMember, new]

theorem valid_or {a b : ℕ} (ha : a &&& (READ ||| WRITE) = a ∧ a ≠ 0)
    (hb : b &&& (READ ||| WRITE) = b) : (a ||| b) &&& (READ ||| WRITE) = a ||| b ∧ a ||| b ≠ 0 := by
  refine ⟨?_, fun h => ha.2 (Nat.or_eq_zero_iff.mp h).1⟩
  rw [Nat.and_or_distrib_right, ha.1, hb]

/-- **Spec lemma** of the entry that `add` makes. -/
theorem merge_spec (c : PropertyPermissionCollection) (pp : PropertyPermission) :
    ∃ entry, c.merge pp = some entry ∧
      ∀ b, entry.mask.testBit b = true ↔ c.Has pp.name b ∨ pp.mask.testBit b = true := by
  rw [PropertyPermissionCollection.merge]
  obtain hx | ⟨x, hx⟩ := (c.perms pp.name).eq_none_or_eq_some
  · simp [PropertyPermissionCollection.Has, hx]
  · simp only [hx]
    by_cases hmask : x.mask = pp.mask
    · refine ⟨x, if_neg (by simp [hmask]), fun b => ?_⟩
      simp [PropertyPermissionCollection.Has, hx, hmask]
    · rw [if_pos hmask, new_getActions pp.toBasicPermission (valid_or x.valid pp.valid.1)]
      refine ⟨_, rfl, fun b => ?_⟩
      simp [PropertyPermissionCollection.Has, hx, Nat.testBit_or]

/-- **Step lemma**: `add`. -/
theorem PropertyPermissionCollection.Holds.add (h : c.Holds members) (pp : PropertyPermission) :
    ∃ c', c.add pp = some c' ∧ c'.Holds (members ++ [pp]) := by
  obtain ⟨entry, hmerge, hentry⟩ := merge_spec c pp
  have hmember : ∀ q b, HasMember (members ++ [pp]) q b ↔
      HasMember members q b ∨ pp.name = q ∧ pp.mask.testBit b = true := by
    intro q b
    simp only [HasMember, List.mem_append, List.mem_singleton, or_and_right, exists_or,
      exists_eq_left]
  refine ⟨{ c with
    perms := Function.update c.perms pp.name (some entry)
    allAllowed := if ¬ c.allAllowed ∧ pp.name = [star] then true else c.allAllowed }, ?_,
    fun q b => ?_, ?_, h.readOnly⟩
  · rw [PropertyPermissionCollection.add, if_neg (by simp [h.readOnly]), hmerge]
    rfl
  · rw [hmember, ← h.has]
    show (∃ x, Function.update c.perms pp.name (some entry) q = some x ∧ _) ↔ _
    by_cases hq : q = pp.name
    · rw [hq, Function.update_self]
      simp [hentry]
    · rw [Function.update_of_ne hq]
      simp [PropertyPermissionCollection.Has, Ne.symm hq]
  · have hall := h.allAllowed
    simp only [List.mem_append, List.mem_singleton, or_and_right, exists_or, exists_eq_left, ← hall]
    by_cases hc : c.allAllowed = true
    · simp [hc]
    · by_cases hstar : pp.name = [star]
      · simp [hc, hstar]
      · simp [hc, hstar]

theorem PropertyPermissionCollection.Holds.addAll (h : c.Holds members)
    (added : List PropertyPermission) :
    ∃ c', added.foldlM PropertyPermissionCollection.add c = some c' ∧
      c'.Holds (members ++ added) := by
  induction added generalizing c members with
  | nil => exact ⟨c, rfl, by rwa [List.append_nil]⟩
  | cons pp added ih =>
    obtain ⟨c', hadd, h'⟩ := h.add pp
    obtain ⟨c'', hrest, h''⟩ := ih h'
    refine ⟨c'', ?_, by rwa [List.append_assoc] at h''⟩
    rw [List.foldlM_cons, hadd]
    exact hrest

/-! ## Answers -/

/-- **Step lemma**: one entry is looked up, before the rest of the way. -/
theorem accumulate_step {x : Option PropertyPermission} {rest : ℕ → Bool} {P : ℕ → Prop}
    (hleft : effective &&& desired ≠ desired)
    (hrest : ∀ effective', effective' &&& desired ≠ desired → (rest effective' = true ↔
        ∀ b, desired.testBit b = true → effective'.testBit b = true ∨ P b)) :
    (if x.isSome ∧ accumulate effective x &&& desired = desired then true
      else rest (accumulate effective x)) = true ↔ ∀ b, desired.testBit b = true →
        effective.testBit b = true ∨ (∃ y, x = some y ∧ y.mask.testBit b = true) ∨ P b := by
  have hbits := testBit_accumulate effective x
  by_cases hdone : x.isSome ∧ accumulate effective x &&& desired = desired
  · rw [if_pos hdone]
    simp only [true_iff]
    intro b hb
    rw [← or_assoc, ← hbits]
    exact .inl (covers_iff.mp hdone.2 b hb)
  · have hleft' : accumulate effective x &&& desired ≠ desired := by
      intro heq
      match x with
      | none => exact hleft heq
      | some y => exact hdone ⟨rfl, heq⟩
    rw [if_neg hdone, hrest _ hleft']
    simp only [hbits, or_assoc]

/-- **Run lemma** of the climb. -/
theorem PropertyPermissionCollection.climb_iff {name : List Jchar} (fuel : ℕ) (path : List Jchar)
    (limit : ℕ) (hfuel : limit < fuel) (hlimit : limit ≤ name.length)
    (hpath : path.take limit = name.take limit) (hleft : effective &&& desired ≠ desired) :
    c.climb desired fuel path limit effective = true ↔ ∀ b, desired.testBit b = true →
      effective.testBit b = true ∨ ∃ q, Visited name limit q ∧ c.Has q b := by
  induction fuel generalizing path limit effective with
  | zero => omega
  | succ fuel ih =>
    rw [PropertyPermissionCollection.climb]
    match hlast : lastIndexOf path dot limit with
    | none =>
      have hnone := visited_none hpath hlast
      have hopen : ¬ ∀ b, desired.testBit b = true → effective.testBit b = true :=
        fun hall => hleft (covers_iff.mpr hall)
      simpa [hnone] using hopen
    | some last =>
      have hvisited := visited_iff hpath hlast
      obtain ⟨hlt, hpath'⟩ := take_above hlimit hpath hlast
      have hstep := @accumulate_step desired effective (c.perms (path.take (last + 1) ++ [star]))
        (c.climb desired fuel (path.take (last + 1) ++ [star]) last)
        (fun b => ∃ q, Visited name last q ∧ c.Has q b) hleft fun effective' hleft' =>
          ih _ last (by omega) (by omega) hpath' hleft'
      simp only
      rw [hstep]
      refine forall₂_congr fun b _ => or_congr_right ?_
      simp only [hvisited, or_and_right, exists_or, exists_eq_left]
      rfl

/-- What a collection of property permissions answers: for each action a member of the name itself,
of `*`, or of a wildcard at a dot of the name. -/
theorem PropertyPermissionCollection.Holds.implies_iff (h : c.Holds members)
    (p : PropertyPermission) :
    c.implies p = true ↔ ∀ b, p.mask.testBit b = true → HasMember members [star] b ∨
      HasMember members p.name b ∨ ∃ q, Visited p.name p.name.length q ∧ HasMember members q b := by
  have hleft : 0 &&& p.mask ≠ p.mask := by
    rw [Nat.zero_and]
    exact Ne.symm p.valid.2
  have hclimb : ∀ effective, effective &&& p.mask ≠ p.mask →
      (c.climb p.mask (p.name.length + 1) p.name p.name.length effective = true ↔
        ∀ b, p.mask.testBit b = true → effective.testBit b = true ∨
          ∃ q, Visited p.name p.name.length q ∧ c.Has q b) :=
    fun effective hleft => climb_iff (p.name.length + 1) p.name p.name.length
      (Nat.lt_succ_self _) le_rfl rfl hleft
  have hname : ∀ effective, effective &&& p.mask ≠ p.mask →
      ((if (c.perms p.name).isSome ∧ accumulate effective (c.perms p.name) &&& p.mask = p.mask then
          true
        else c.climb p.mask (p.name.length + 1) p.name p.name.length
          (accumulate effective (c.perms p.name))) = true ↔
        ∀ b, p.mask.testBit b = true → effective.testBit b = true ∨ c.Has p.name b ∨
          ∃ q, Visited p.name p.name.length q ∧ c.Has q b) :=
    fun effective hleft => accumulate_step hleft fun effective' hleft' => hclimb effective' hleft'
  simp only [← h.has]
  rw [PropertyPermissionCollection.implies]
  by_cases hall : c.allAllowed = true
  · have hstar := @accumulate_step p.mask 0 (c.perms [star]) (fun effective =>
        if (c.perms p.name).isSome ∧ accumulate effective (c.perms p.name) &&& p.mask = p.mask then
          true
        else c.climb p.mask (p.name.length + 1) p.name p.name.length
          (accumulate effective (c.perms p.name)))
      (fun b => c.Has p.name b ∨ ∃ q, Visited p.name p.name.length q ∧ c.Has q b) hleft
      hname
    simpa [hall, PropertyPermissionCollection.Has] using hstar
  · have hnone : ∀ b, ¬ c.Has [star] b := by
      intro b hb
      obtain ⟨m, hm, hstar, -⟩ := (h.has _ _).mp hb
      exact hall (h.allAllowed.mpr ⟨m, hm, hstar⟩)
    have hzero := hname 0 hleft
    simpa [hall, hnone] using hzero

/-! ## Agreement -/

/-- An action is that of a member whose name implies the name of a permission. -/
def Grants (members : List PropertyPermission) (p : BasicPermission) (b : ℕ) : Prop :=
  ∃ m ∈ members, m.mask.testBit b = true ∧ m.toBasicPermission.implies p = true

/-- An action that a permission asks for is only that of the wildcard below the dot at the end of
its name, and this wildcard or members that imply the name have all the others. -/
def Overreaches (members : List PropertyPermission) (p : PropertyPermission) : Prop :=
  p.name.getLast? = some dot ∧
    (∀ b, p.mask.testBit b = true →
      Grants members p.toBasicPermission b ∨ HasMember members (p.name ++ [star]) b) ∧
    ∃ b, p.mask.testBit b = true ∧ ¬ Grants members p.toBasicPermission b

/-- The positions of a climb are those inside the name, and the dot at its end. -/
theorem visited_all {name : List Jchar} (hname : name ≠ []) (q : List Jchar) :
    Visited name name.length q ↔
      Visited name (name.length - 1) q ∨ name.getLast? = some dot ∧ q = name ++ [star] := by
  have hpos := List.length_pos_iff.mpr hname
  by_cases hlast : name.getLast? = some dot
  · have habove : above name (name.length - 1) = name ++ [star] := by
      rw [above, Nat.sub_add_cancel hpos, List.take_length]
    constructor
    · rintro ⟨i, hi, hdot, rfl⟩
      by_cases hin : i < name.length - 1
      · exact .inl ⟨i, hin, hdot, rfl⟩
      · rw [show i = name.length - 1 by omega]
        exact .inr ⟨hlast, habove⟩
    · rintro (⟨i, hi, hdot, rfl⟩ | ⟨-, rfl⟩)
      · exact ⟨i, by omega, hdot, rfl⟩
      · refine ⟨name.length - 1, by omega, ?_, habove.symm⟩
        rw [← List.getLast?_eq_getElem?, hlast]
  · rw [visited_of_last hlast]
    simp [hlast]

theorem grants_iff (p : BasicPermission) (b : ℕ) :
    Grants members p b ↔ HasMember members [star] b ∨ HasMember members p.name b ∨
      ∃ q, Visited p.name (p.name.length - 1) q ∧ HasMember members q b := by
  constructor
  · rintro ⟨m, hm, hb, himplies⟩
    obtain hname | hstar | ⟨i, hi, hdot, habove⟩ := (implies_iff _ _).mp himplies
    · exact .inr (.inl ⟨m, hm, hname, hb⟩)
    · exact .inl ⟨m, hm, hstar, hb⟩
    · exact .inr (.inr ⟨_, ⟨i, by omega, hdot, habove⟩, m, hm, rfl, hb⟩)
  · rintro (⟨m, hm, hstar, hb⟩ | ⟨m, hm, hname, hb⟩ | ⟨q, hq, m, hm, rfl, hb⟩)
    · exact ⟨m, hm, hb, (implies_iff _ _).mpr (.inr (.inl hstar))⟩
    · exact ⟨m, hm, hb, (implies_iff _ _).mpr (.inl hname)⟩
    · exact ⟨m, hm, hb, implies_of_visited hq⟩

theorem PropertyPermissionCollection.Holds.implies_iff_grants (h : c.Holds members)
    (p : PropertyPermission) :
    c.implies p = true ↔ ∀ b, p.mask.testBit b = true → Grants members p.toBasicPermission b ∨
        p.name.getLast? = some dot ∧ HasMember members (p.name ++ [star]) b := by
  rw [h.implies_iff]
  refine forall₂_congr fun b _ => ?_
  simp only [visited_all p.name_ne_nil, or_and_right, exists_or, and_assoc, exists_and_left,
    exists_eq_left, grants_iff, or_assoc]

/-- **Main theorem**: a collection answers what its members say, but for names that end in a dot. A
collection of basic permissions answers false for such a name when the wildcard below the dot hides
another one that implies the name; a collection of property permissions answers true when it takes
an action from that wildcard which it has from no member that implies the name. -/
theorem collections_agree_iff (basic : List BasicPermission) (p : BasicPermission)
    (added : List PropertyPermission) (q : PropertyPermission) :
    (∃ c, basic.foldlM BasicPermissionCollection.add .new = some c ∧
      ((c.implies p = true ↔ ∃ m ∈ basic, m.implies p = true) ↔ ¬ Shadowed basic p)) ∧
    ∃ c, added.foldlM PropertyPermissionCollection.add .new = some c ∧
      ((c.implies q = true ↔
          ∀ b, q.mask.testBit b = true → Grants added q.toBasicPermission b) ↔
        ¬ Overreaches added q) := by
  constructor
  · obtain ⟨c, hc, hholds⟩ := BasicPermissionCollection.holds_new.addAll basic
    refine ⟨c, hc, ?_⟩
    rw [List.nil_append] at hholds
    rw [hholds.implies_iff]
    constructor
    · intro h hshadowed
      exact (h.mpr hshadowed.2.2.2).2 hshadowed
    · exact fun h => and_iff_left h
  · obtain ⟨c, hc, hholds⟩ := PropertyPermissionCollection.holds_new.addAll added
    refine ⟨c, hc, ?_⟩
    rw [List.nil_append] at hholds
    rw [hholds.implies_iff_grants]
    constructor
    · rintro h ⟨hlast, hall, b, hb, hnot⟩
      refine hnot (h.mp (fun b hb => ?_) b hb)
      exact (hall b hb).imp_right fun hmember => ⟨hlast, hmember⟩
    · intro h
      refine ⟨fun hall b hb => ?_, fun hall b hb => Or.inl (hall b hb)⟩
      by_contra hnot
      obtain hgrants | ⟨hlast, -⟩ := hall b hb
      · exact hnot hgrants
      · exact h ⟨hlast, fun b hb => (hall b hb).imp_right And.right, b, hb, hnot⟩

/-- `a.b.*` hides `a.*` for the name `a.b.`, and `a.*` gives its action to the name `a.`. -/
theorem dot_names_disagree :
    (∃ (added : List BasicPermission) (p : BasicPermission) (c : BasicPermissionCollection),
      added.foldlM BasicPermissionCollection.add .new = some c ∧
        ¬ (c.implies p = true ↔ ∃ m ∈ added, m.implies p = true)) ∧
    ∃ (added : List PropertyPermission) (p : PropertyPermission)
      (c : PropertyPermissionCollection),
      added.foldlM PropertyPermissionCollection.add .new = some c ∧
        ¬ (c.implies p = true ↔
          ∀ b, p.mask.testBit b = true → Grants added p.toBasicPermission b) := by
  constructor
  · refine ⟨[⟨[97, 46, 98, 46, 42], true, [97, 46, 98, 46], by decide⟩,
      ⟨[97, 46, 42], true, [97, 46], by decide⟩],
      ⟨[97, 46, 98, 46], false, [97, 46, 98, 46], by decide⟩, _, rfl, ?_⟩
    decide
  · refine ⟨[⟨⟨[97, 46, 42], true, [97, 46], by decide⟩, 1, by decide⟩],
      ⟨⟨[97, 46], false, [97, 46], by decide⟩, 1, by decide⟩, _, rfl, fun h => ?_⟩
    obtain ⟨m, hm, -, himplies⟩ := h.mp (by decide) 0 (by decide)
    rw [List.mem_singleton.mp hm] at himplies
    revert himplies
    decide

end CldcVm.Security
