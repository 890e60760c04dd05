import CldcVm.Security.Permissions

/-!
# Which names imply a name

Results:

* `BasicPermission.kind`: the names that end in a wildcard, and the others.
* `implies_iff`: a permission implies one of its own name, every one if its name is `*`, and those
  below a dot inside the name.
* `lastIndexOf_spec`: the last dot below a position.
* `getMask_getActions`: the text of a set of actions is read back.
-/

namespace CldcVm.Security

variable {name : List Jchar} {p m : BasicPermission}

/-- What may stand before a wildcard. -/
def Stem (q : List Jchar) : Prop := q = [] ∨ q.getLast? = some dot

instance (q : List Jchar) : Decidable (Stem q) :=
  inferInstanceAs (Decidable (q = [] ∨ q.getLast? = some dot))

theorem init_append (q : List Jchar) (c : Jchar) : init (q ++ [c]) =
      if c = star ∧ Stem q then some (true, q) else some (false, q ++ [c]) := by
  have hlast : (q ++ [c])[q.length]? = some c := by simp
  have hstem : (q.length + 1 = 1 ∨ (q ++ [c])[q.length - 1]? = some dot) ↔ Stem q := by
    by_cases hq : q = []
    · simp [hq, Stem]
    · have hpos : 0 < q.length := List.length_pos_iff.mpr hq
      rw [List.getElem?_append_left (by omega), ← List.getLast?_eq_getElem?, Stem]
      simp [hq]
  have htake : (if q.length + 1 = 1 then [] else (q ++ [c]).take q.length) = q := by
    by_cases hq : q = []
    · simp [hq]
    · simp [hq]
  rw [init, List.length_append, List.length_singleton, if_neg (by omega)]
  simp only [Nat.add_sub_cancel, hlast, Option.some.injEq]
  rw [htake]
  by_cases hwild : c = star ∧ Stem q
  · rw [if_pos hwild, if_pos ⟨hwild.1, hstem.mpr hwild.2⟩]
  · rw [if_neg hwild, if_neg fun h => hwild ⟨h.1, hstem.mp h.2⟩]

theorem BasicPermission.kind (p : BasicPermission) :
    (p.wildcard = true ∧ p.name = p.path ++ [star] ∧ Stem p.path) ∨
      (p.wildcard = false ∧ p.path = p.name ∧ p.name ≠ [] ∧
        ∀ q, Stem q → p.name ≠ q ++ [star]) := by
  obtain ⟨name, wildcard, path, made⟩ := p
  simp only
  obtain rfl | ⟨q, c, rfl⟩ := List.eq_nil_or_concat name
  · simp [init] at made
  · rw [List.concat_eq_append, init_append] at made
    rw [List.concat_eq_append]
    by_cases hwild : c = star ∧ Stem q
    · rw [if_pos hwild] at made
      cases made
      exact .inl ⟨rfl, by rw [hwild.1], hwild.2⟩
    · rw [if_neg hwild] at made
      cases made
      refine .inr ⟨rfl, rfl, by simp, fun q' hq' heq => ?_⟩
      obtain ⟨rfl, hc⟩ := List.append_inj' heq rfl
      exact hwild ⟨List.singleton_injective hc, hq'⟩

theorem BasicPermission.name_ne_nil (p : BasicPermission) : p.name ≠ [] := by
  obtain ⟨-, hname, -⟩ | ⟨-, -, hname, -⟩ := p.kind
  · simp [hname]
  · exact hname

theorem BasicPermission.wildcard_of_name (h : m.name = p.name) : m.wildcard = p.wildcard := by
  have hmade := p.made
  rw [← h, m.made] at hmade
  exact congrArg Prod.fst (Option.some.inj hmade)

theorem BasicPermission.path_of_name (h : m.name = p.name) : m.path = p.path := by
  have hmade := p.made
  rw [← h, m.made] at hmade
  exact congrArg Prod.snd (Option.some.inj hmade)

/-- The name with all that is below position `i`. -/
def above (name : List Jchar) (i : ℕ) : List Jchar := name.take (i + 1) ++ [star]

theorem length_above {i : ℕ} (hi : i < name.length) : (above name i).length = i + 2 := by
  simp [above]
  omega

theorem stem_begins {q : List Jchar} (hq : q ≠ []) : (Stem q ∧ q <+: name) ↔
      ∃ i < name.length, i + 1 = q.length ∧ name[i]? = some dot ∧ q = name.take (i + 1) := by
  have hpos : 0 < q.length := List.length_pos_iff.mpr hq
  constructor
  · rintro ⟨hstem | hstem, hbegins⟩
    · exact absurd hstem hq
    · have hle := hbegins.length_le
      refine ⟨q.length - 1, by omega, by omega, ?_, ?_⟩
      · rw [List.getLast?_eq_getElem?] at hstem
        obtain ⟨t, rfl⟩ := hbegins
        rw [List.getElem?_append_left (by omega), hstem]
      · rw [Nat.sub_add_cancel hpos]
        exact List.prefix_iff_eq_take.mp hbegins
  · rintro ⟨i, hi, hlength, hdot, hq'⟩
    refine ⟨.inr ?_, hq' ▸ List.take_prefix ..⟩
    rw [List.getLast?_eq_getElem?, ← hlength, hq', List.getElem?_take, if_pos (by omega)]
    exact hdot

/-- **Spec lemma** of `implies`. -/
theorem implies_iff (m p : BasicPermission) :
    m.implies p = true ↔ m.name = p.name ∨ m.name = [star] ∨
      ∃ i, i + 1 < p.name.length ∧ p.name[i]? = some dot ∧ m.name = above p.name i := by
  by_cases hsame : m.name = p.name
  · have hwild := BasicPermission.wildcard_of_name hsame
    have hpath := BasicPermission.path_of_name hsame
    have himplies : m.implies p = true := by
      rw [BasicPermission.implies, hwild, hpath]
      by_cases hp : p.wildcard = true
      · simp [hp]
      · simp [hp]
    exact ⟨fun _ => .inl hsame, fun _ => himplies⟩
  · rw [or_iff_right hsame]
    obtain ⟨hmwild, hmname, hmstem⟩ | ⟨hmwild, hmpath, hmnil, hmname⟩ := m.kind
    · -- every stem of the name but the whole of it
      have hstems : m.implies p = true ↔ m.path <+: p.name ∧ m.path.length < p.name.length := by
        obtain ⟨hpwild, hpname, hpstem⟩ | ⟨hpwild, hppath, -, -⟩ := p.kind
        · rw [BasicPermission.implies, if_pos hmwild, if_pos hpwild, List.isPrefixOf_iff_prefix]
          rw [hpname]
          constructor
          · intro hbegins
            exact ⟨hbegins.trans (List.prefix_append ..),
              lt_of_le_of_lt hbegins.length_le (by simp)⟩
          · rintro ⟨hbegins, hlt⟩
            refine List.prefix_of_prefix_length_le hbegins (List.prefix_append ..) ?_
            simpa [Nat.lt_succ_iff] using hlt
        · rw [BasicPermission.implies, if_pos hmwild, if_neg (by simp [hpwild]), hppath]
          simp [and_comm]
      rw [hstems]
      by_cases hnil : m.path = []
      · rw [hnil, List.nil_append] at hmname
        have hpos := List.length_pos_iff.mpr p.name_ne_nil
        refine ⟨fun _ => .inl hmname, fun _ => ?_⟩
        rw [hnil]
        exact ⟨List.nil_prefix, hpos⟩
      · have hstar : m.name ≠ [star] := by
          rw [hmname]
          simpa using hnil
        rw [or_iff_right hstar]
        have hbegins := @stem_begins p.name m.path hnil
        constructor
        · rintro ⟨hpre, hlt⟩
          obtain ⟨i, hi, hlength, hdot, hq⟩ := hbegins.mp ⟨hmstem, hpre⟩
          exact ⟨i, by omega, hdot, by rw [hmname, hq, above]⟩
        · rintro ⟨i, hi, hdot, habove⟩
          have hpath : m.path = p.name.take (i + 1) := by
            rw [hmname, above] at habove
            exact (List.append_inj' habove rfl).1
          have hlength : m.path.length = i + 1 := by
            rw [hpath, List.length_take]
            omega
          refine ⟨hpath ▸ List.take_prefix .., by omega⟩
    · have hnot : m.implies p ≠ true := by
        rw [BasicPermission.implies, if_neg (by simp [hmwild])]
        by_cases hp : p.wildcard = true
        · simp [hp]
        · obtain ⟨hpwild, -⟩ | ⟨-, hppath, -⟩ := p.kind
          · exact absurd hpwild hp
          · rw [if_neg hp, hmpath, hppath]
            simpa using hsame
      refine ⟨fun h => absurd h hnot, fun h => ?_⟩
      obtain hstar | ⟨i, hi, hdot, habove⟩ := h
      · exact absurd hstar (hmname [] (.inl rfl))
      · refine absurd habove (hmname _ (.inr ?_))
        rw [List.getLast?_eq_getElem?, List.length_take, List.getElem?_take,
          Nat.min_eq_left (by omega), if_pos (by omega)]
        exact hdot

/-- **Spec lemma** of `lastIndexOf`. -/
theorem lastIndexOf_spec (s : List Jchar) (c : Jchar) (limit : ℕ) : match lastIndexOf s c limit with
    | none => ∀ i < limit, s[i]? ≠ some c
    | some last => last < limit ∧ s[last]? = some c ∧ ∀ i < limit, s[i]? = some c → i ≤ last := by
  induction limit with
  | zero => exact fun i hi => absurd hi (Nat.not_lt_zero i)
  | succ limit ih =>
    rw [lastIndexOf]
    by_cases hhere : s[limit]? = some c
    · rw [if_pos hhere]
      exact ⟨Nat.lt_succ_self _, hhere, fun i hi _ => Nat.lt_succ_iff.mp hi⟩
    · rw [if_neg hhere]
      have hskip : ∀ i < limit + 1, s[i]? = some c → i < limit := by
        intro i hi hc
        obtain rfl | hlt := Nat.lt_succ_iff_lt_or_eq.mp hi |>.symm
        · exact absurd hc hhere
        · exact hlt
      match h : lastIndexOf s c limit with
      | none =>
        rw [h] at ih
        exact fun i hi hc => ih i (hskip i hi hc) hc
      | some last =>
        rw [h] at ih
        exact ⟨ih.1.trans (Nat.lt_succ_self _), ih.2.1, fun i hi hc => ih.2.2 i (hskip i hi hc) hc⟩

/-- The actions that `getActions` writes are read back. -/
theorem getMask_getActions {mask : ℕ} (h : mask &&& (READ ||| WRITE) = mask) (h0 : mask ≠ 0) :
    getMask (getActions mask) = some mask := by
  have hle : mask ≤ 3 := by
    rw [← h]
    exact Nat.and_le_right
  have hcases : mask = 1 ∨ mask = 2 ∨ mask = 3 := by omega
  obtain rfl | rfl | rfl := hcases <;> decide +kernel

end CldcVm.Security
