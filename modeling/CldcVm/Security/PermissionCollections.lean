import CldcVm.Security.PermissionNames

/-!
# What a collection of permissions implies

The collections look for the name itself and then climb from dot to dot. For a name that ends in a
dot the climb begins with the wildcard below this dot, which does not imply the name.

Results:

* `visited_iff`, `visited_none`, `take_above`: one step of a climb.
* `BasicPermissionCollection.Holds.implies_iff`: what a collection of basic permissions answers.
-/

namespace CldcVm.Security

variable {p : BasicPermission}

/-- The positions that a climb visits: the dots of a name, below a limit. -/
def Visited (name : List Jchar) (limit : ℕ) (q : List Jchar) : Prop :=
  ∃ i < limit, name[i]? = some dot ∧ q = above name i

variable {name path : List Jchar}

/-- **Step lemma**: the last dot is visited first. -/
theorem visited_iff {limit last : ℕ}
    (hpath : path.take limit = name.take limit) (hlast : lastIndexOf path dot limit = some last)
    (q : List Jchar) :
    Visited name limit q ↔ q = path.take (last + 1) ++ [star] ∨ Visited name last q := by
  have hspec := lastIndexOf_spec path dot limit
  rw [hlast] at hspec
  obtain ⟨hlt, hdot, hmax⟩ := hspec
  have hget : ∀ i < limit, path[i]? = name[i]? := by
    intro i hi
    have hi' := congrArg (fun l => l[i]?) hpath
    simpa [List.getElem?_take, hi] using hi'
  have htake : path.take (last + 1) = name.take (last + 1) := by
    have htake' := congrArg (List.take (last + 1)) hpath
    rwa [List.take_take, List.take_take, Nat.min_eq_left (by omega)] at htake'
  constructor
  · rintro ⟨i, hi, hname, rfl⟩
    have hle := hmax i hi (by rw [hget i hi]; exact hname)
    obtain rfl | hlt' := Nat.eq_or_lt_of_le hle
    · exact .inl (by rw [htake, above])
    · exact .inr ⟨i, hlt', hname, rfl⟩
  · rintro (rfl | ⟨i, hi, hname, rfl⟩)
    · exact ⟨last, hlt, by rw [← hget last hlt, hdot], by rw [htake, above]⟩
    · exact ⟨i, hi.trans hlt, hname, rfl⟩

theorem visited_none {limit : ℕ}
    (hpath : path.take limit = name.take limit) (hlast : lastIndexOf path dot limit = none)
    (q : List Jchar) : ¬ Visited name limit q := by
  have hspec := lastIndexOf_spec path dot limit
  rw [hlast] at hspec
  rintro ⟨i, hi, hname, -⟩
  have hi' := congrArg (fun l => l[i]?) hpath
  refine hspec i hi ?_
  simpa [List.getElem?_take, hi, hname] using hi'

theorem take_above {limit last : ℕ} (hlimit : limit ≤ name.length)
    (hpath : path.take limit = name.take limit) (hlast : lastIndexOf path dot limit = some last) :
    last < limit ∧ (path.take (last + 1) ++ [star]).take last = name.take last := by
  have hspec := lastIndexOf_spec path dot limit
  rw [hlast] at hspec
  have hlt := hspec.1
  have hlength : limit ≤ path.length := by
    have hlen := congrArg List.length hpath
    simp at hlen
    omega
  refine ⟨hlt, ?_⟩
  rw [List.take_append_of_le_length (by simp; omega), List.take_take, Nat.min_eq_left (by omega)]
  have htake := congrArg (List.take last) hpath
  rwa [List.take_take, List.take_take, Nat.min_eq_left (by omega)] at htake

/-! ## Basic permissions -/

/-- A table of the members of a collection. -/
structure BasicPermissionCollection.Holds (c : BasicPermissionCollection)
    (members : List BasicPermission) : Prop where
  sound : ∀ q x, c.perms q = some x → x.name = q ∧ x ∈ members
  complete : ∀ m ∈ members, (c.perms m.name).isSome
  allAllowed : c.allAllowed = true ↔ ∃ m ∈ members, m.name = [star]
  readOnly : c.readOnly = false

theorem BasicPermissionCollection.holds_new : new.Holds [] :=
  ⟨fun _ _ h => (nomatch h), fun _ h => (nomatch h), by simp [new], rfl⟩

/-- **Step lemma**: `add`. -/
theorem BasicPermissionCollection.Holds.add {c : BasicPermissionCollection}
    {members : List BasicPermission} (h : c.Holds members) (bp : BasicPermission) :
    ∃ c', c.add bp = some c' ∧ c'.Holds (members ++ [bp]) := by
  refine ⟨{ c with
    perms := Function.update c.perms bp.name (some bp)
    allAllowed := if ¬ c.allAllowed ∧ bp.name = [star] then true else c.allAllowed },
    if_neg (by simp [h.readOnly]), ?_, ?_, ?_, h.readOnly⟩
  · intro q x hx
    by_cases hq : q = bp.name
    · subst hq
      change Function.update c.perms bp.name (some bp) bp.name = some x at hx
      rw [Function.update_self] at hx
      cases hx
      exact ⟨rfl, by simp⟩
    · change Function.update c.perms bp.name (some bp) q = some x at hx
      rw [Function.update_of_ne hq] at hx
      obtain ⟨hname, hmem⟩ := h.sound q x hx
      exact ⟨hname, by simp [hmem]⟩
  · intro m hm
    change (Function.update c.perms bp.name (some bp) m.name).isSome
    by_cases hq : m.name = bp.name
    · rw [hq, Function.update_self]
      rfl
    · rw [Function.update_of_ne hq]
      obtain hm | hm := List.mem_append.mp hm
      · exact h.complete m hm
      · exact absurd (congrArg BasicPermission.name (List.mem_singleton.mp hm)) hq
  · have hall := h.allAllowed
    simp only [List.mem_append, List.mem_singleton, or_and_right, exists_or, exists_eq_left, ← hall]
    by_cases hc : c.allAllowed = true
    · simp [hc]
    · by_cases hstar : bp.name = [star]
      · simp [hc, hstar]
      · simp [hc, hstar]

theorem BasicPermissionCollection.Holds.addAll {c : BasicPermissionCollection}
    {members : List BasicPermission} (h : c.Holds members) (added : List BasicPermission) :
    ∃ c', added.foldlM BasicPermissionCollection.add c = some c' ∧ c'.Holds (members ++ added) := by
  induction added generalizing c members with
  | nil => exact ⟨c, rfl, by rwa [List.append_nil]⟩
  | cons bp added ih =>
    obtain ⟨c', hadd, h'⟩ := h.add bp
    obtain ⟨c'', hrest, h''⟩ := ih h'
    refine ⟨c'', ?_, by rwa [List.append_assoc] at h''⟩
    rw [List.foldlM_cons, hadd]
    exact hrest

/-- **Run lemma** of the climb, where every permission that it finds implies the name. -/
theorem climb_iff {c : BasicPermissionCollection} (fuel : ℕ) (path : List Jchar) (limit : ℕ)
    (hfuel : limit < fuel) (hlimit : limit ≤ p.name.length)
    (hpath : path.take limit = p.name.take limit)
    (hgood : ∀ q x, Visited p.name limit q → c.perms q = some x → x.implies p = true) :
    c.climb p fuel path limit = true ↔ ∃ q, Visited p.name limit q ∧ (c.perms q).isSome := by
  induction fuel generalizing path limit with
  | zero => omega
  | succ fuel ih =>
    rw [BasicPermissionCollection.climb]
    match hlast : lastIndexOf path dot limit with
    | none =>
      have hnone := visited_none hpath hlast
      simp [hnone]
    | some last =>
      have hvisited := visited_iff hpath hlast
      obtain ⟨hlt, hpath'⟩ := take_above hlimit hpath hlast
      have hfirst : Visited p.name limit (path.take (last + 1) ++ [star]) :=
        (hvisited _).mpr (.inl rfl)
      obtain hx | ⟨x, hx⟩ := (c.perms (path.take (last + 1) ++ [star])).eq_none_or_eq_some
      · simp only [hx]
        rw [ih (path.take (last + 1) ++ [star]) last (by omega) (by omega) hpath'
          fun q x hq => hgood q x ((hvisited q).mpr (.inr hq))]
        refine exists_congr fun q => ?_
        rw [hvisited q]
        constructor
        · exact fun h => ⟨.inr h.1, h.2⟩
        · rintro ⟨rfl | hq, hsome⟩
          · rw [hx] at hsome
            cases hsome
          · exact ⟨hq, hsome⟩
      · have himplies := hgood _ x hfirst hx
        simp only [hx, himplies, true_iff]
        exact ⟨_, hfirst, by rw [hx]; rfl⟩

/-- A wildcard below the last dot of a name hides those that imply the name. -/
def Shadowed (members : List BasicPermission) (p : BasicPermission) : Prop :=
  p.name.getLast? = some dot ∧ (∃ m ∈ members, m.name = p.name ++ [star]) ∧
    (∀ m ∈ members, m.name ≠ p.name ∧ m.name ≠ [star]) ∧ ∃ m ∈ members, m.implies p = true

theorem visited_of_last (hlast : name.getLast? ≠ some dot) (q : List Jchar) :
    Visited name name.length q ↔ Visited name (name.length - 1) q := by
  constructor
  · rintro ⟨i, hi, hdot, rfl⟩
    refine ⟨i, ?_, hdot, rfl⟩
    by_contra hge
    rw [List.getLast?_eq_getElem?, show name.length - 1 = i by omega] at hlast
    exact hlast hdot
  · rintro ⟨i, hi, hdot, rfl⟩
    exact ⟨i, by omega, hdot, rfl⟩

theorem implies_of_visited {m : BasicPermission} (h : Visited p.name (p.name.length - 1) m.name) :
    m.implies p = true := by
  obtain ⟨i, hi, hdot, hname⟩ := h
  exact (implies_iff m p).mpr (.inr (.inr ⟨i, by omega, hdot, hname⟩))

variable {c : BasicPermissionCollection} {members : List BasicPermission}

/-- Without the name itself and without `*` only the wildcards inside the name imply it. -/
theorem BasicPermissionCollection.Holds.exists_implies_iff (h : c.Holds members)
    (hnone : ∀ m ∈ members, m.name ≠ p.name ∧ m.name ≠ [star]) :
    (∃ m ∈ members, m.implies p = true) ↔
      ∃ q, Visited p.name (p.name.length - 1) q ∧ (c.perms q).isSome := by
  constructor
  · rintro ⟨m, hm, himplies⟩
    obtain hname | hstar | ⟨i, hi, hdot, habove⟩ := (implies_iff m p).mp himplies
    · exact absurd hname (hnone m hm).1
    · exact absurd hstar (hnone m hm).2
    · exact ⟨m.name, ⟨i, by omega, hdot, habove⟩, h.complete m hm⟩
  · rintro ⟨q, hq, hsome⟩
    obtain ⟨x, hx⟩ := Option.isSome_iff_exists.mp hsome
    obtain ⟨hname, hmem⟩ := h.sound q x hx
    exact ⟨x, hmem, implies_of_visited (hname ▸ hq)⟩

/-- The climb of a collection that has neither the name nor `*`. -/
theorem BasicPermissionCollection.Holds.climb_iff_implies (h : c.Holds members)
    (hnone : ∀ m ∈ members, m.name ≠ p.name ∧ m.name ≠ [star]) :
    c.climb p (p.name.length + 1) p.name p.name.length = true ↔
      (∃ m ∈ members, m.implies p = true) ∧ ¬ Shadowed members p := by
  have hgood : ∀ q x, Visited p.name (p.name.length - 1) q → c.perms q = some x →
      x.implies p = true := by
    intro q x hq hx
    exact implies_of_visited ((h.sound q x hx).1 ▸ hq)
  have hpos := List.length_pos_iff.mpr p.name_ne_nil
  by_cases hlast : p.name.getLast? = some dot
  · -- the first wildcard is that below the last dot, which does not imply the name
    have hindex : lastIndexOf p.name dot p.name.length = some (p.name.length - 1) := by
      obtain ⟨n, hn⟩ : ∃ n, p.name.length = n + 1 := ⟨p.name.length - 1, by omega⟩
      rw [List.getLast?_eq_getElem?, hn] at hlast
      rw [hn, lastIndexOf]
      exact if_pos hlast
    have htake : p.name.take (p.name.length - 1 + 1) = p.name := by
      rw [Nat.sub_add_cancel hpos, List.take_length]
    rw [BasicPermissionCollection.climb, hindex]
    simp only [htake]
    obtain hx | ⟨x, hx⟩ := (c.perms (p.name ++ [star])).eq_none_or_eq_some
    · have hfree : ∀ m ∈ members, m.name ≠ p.name ++ [star] := by
        intro m hm hname
        have hsome := h.complete m hm
        rw [hname, hx] at hsome
        cases hsome
      have hnot : ¬ Shadowed members p := by
        rintro ⟨-, ⟨m, hm, hname⟩, -⟩
        exact hfree m hm hname
      simp only [hx]
      rw [climb_iff p.name.length (p.name ++ [star]) (p.name.length - 1) (by omega) (by omega)
        (by rw [List.take_append_of_le_length (by omega)]) hgood, ← h.exists_implies_iff hnone]
      exact (and_iff_left hnot).symm
    · obtain ⟨hname, hmem⟩ := h.sound _ x hx
      have hfalse : x.implies p ≠ true := by
        rw [Ne, implies_iff, hname]
        rintro (heq | heq | ⟨i, hi, -, heq⟩)
        · simp at heq
        · exact p.name_ne_nil (by simpa using heq)
        · have hlength := congrArg List.length heq
          rw [length_above (by omega)] at hlength
          simp at hlength
          omega
      simp only [hx]
      exact ⟨fun h => absurd h hfalse, fun h =>
        absurd ⟨hlast, ⟨x, hmem, hname⟩, hnone, h.1⟩ h.2⟩
  · have hnot : ¬ Shadowed members p := fun hs => hlast hs.1
    rw [climb_iff (p.name.length + 1) p.name p.name.length (Nat.lt_succ_self _) le_rfl rfl
      fun q x hq => hgood q x ((visited_of_last hlast q).mp hq)]
    simp only [visited_of_last hlast]
    rw [← h.exists_implies_iff hnone]
    exact (and_iff_left hnot).symm

theorem BasicPermissionCollection.Holds.implies_iff (h : c.Holds members) (p : BasicPermission) :
    c.implies p = true ↔ (∃ m ∈ members, m.implies p = true) ∧ ¬ Shadowed members p := by
  rw [BasicPermissionCollection.implies]
  by_cases hall : c.allAllowed = true
  · obtain ⟨m, hm, hstar⟩ := h.allAllowed.mp hall
    rw [if_pos hall]
    simp only [true_iff]
    exact ⟨⟨m, hm, (Security.implies_iff m p).mpr (.inr (.inl hstar))⟩,
      fun hs => (hs.2.2.1 m hm).2 hstar⟩
  · rw [if_neg hall]
    obtain hx | ⟨x, hx⟩ := (c.perms p.name).eq_none_or_eq_some
    · have hnone : ∀ m ∈ members, m.name ≠ p.name ∧ m.name ≠ [star] := by
        refine fun m hm => ⟨fun hname => ?_, fun hstar => hall (h.allAllowed.mpr ⟨m, hm, hstar⟩)⟩
        have hsome := h.complete m hm
        rw [hname, hx] at hsome
        cases hsome
      simp only [hx]
      exact h.climb_iff_implies hnone
    · obtain ⟨hname, hmem⟩ := h.sound _ x hx
      have himplies : x.implies p = true := (Security.implies_iff x p).mpr (.inl hname)
      simp only [hx, himplies, true_iff]
      exact ⟨⟨x, hmem, himplies⟩, fun hs => (hs.2.2.1 x hmem).1 hname⟩

end CldcVm.Security
