import CldcVm.Verifier.FrameLemmas

/-!
# Two-word values in the verifier's frame

A `Long` or `Double` takes two slots. The verifier writes its slots one at a
time, and some of its checks rely on the second half being where the first half
says (`GUARANTEE` in `check_local2` and `pop_invoke_arguments`).

The locals may keep a second half alone: `bogify_surrounding_doublewords` leaves
the second word when the first one is overwritten, as nothing can be done with
it. On the stack no half is ever alone.

Here are the two properties of the slot arrays, `HeadsFollowed` and
`HalvesPreceded`, and what the writes of the frame do to them.
-/

namespace CldcVm.Verifier

open Lib Comp
open Function (update update_of_ne update_self)

variable {kind : StackMapKind}

namespace StackMapKind

/-- The tag of the first word of a two-word value. -/
def isHead : StackMapKind → Bool
  | long | double => true
  | _ => false

/-- The tag of the second word of a two-word value. -/
def isHalf : StackMapKind → Bool
  | long2 | double2 => true
  | _ => false

/-- The tag of a one-word value. -/
def isSingle (kind : StackMapKind) : Bool := !kind.isHead && !kind.isHalf

theorem isHead_iff : kind.isHead = true ↔ kind = .double ∨ kind = .long := by
  cases kind <;> simp [isHead]

theorem isHalf_iff : kind.isHalf = true ↔ kind = .double2 ∨ kind = .long2 := by
  cases kind <;> simp [isHalf]

theorem isHalf_secondHalf (kind : StackMapKind) : kind.secondHalf.isHalf = true := by
  cases kind <;> rfl

theorem isHead_of_isHalf (h : kind.isHalf = true) : kind.isHead = false := by
  cases kind <;> simp_all [isHalf, isHead]

theorem isSingle_iff : kind.isSingle = true ↔ kind.isHead = false ∧ kind.isHalf = false := by
  simp [isSingle]

theorem isSingle_of_isReference (h : kind.isReference = true) : kind.isSingle = true := by
  cases kind <;> simp_all [isReference, isSingle, isHead, isHalf, isNewObject]

end StackMapKind

/-- Two slots that may stand next to each other on their own: two one-word values
or one two-word value. -/
def IsBlock (slots : Slot × Slot) : Prop :=
  (slots.1.tag.isSingle = true ∧ slots.2.tag.isSingle = true) ∨
    (slots.1.tag.isHead = true ∧ slots.2.tag = slots.1.tag.secondHalf)

/-- Every first word below `n` is followed by its second word. -/
def HeadsFollowed (slots : ℕ → Slot) (n : ℕ) : Prop :=
  ∀ i < n, (slots i).tag.isHead = true →
    i + 1 < n ∧ (slots (i + 1)).tag = (slots i).tag.secondHalf

/-- Every second word below `n` comes after its first word. -/
def HalvesPreceded (slots : ℕ → Slot) (n : ℕ) : Prop :=
  ∀ i < n, (slots i).tag.isHalf = true →
    ∃ j, i = j + 1 ∧ (slots j).tag.isHead = true ∧ (slots i).tag = (slots j).tag.secondHalf

/-! ## The stack as an array -/

theorem HeadsFollowed.push {v : ℕ → Slot} {n : ℕ} {slot : Slot} (h : HeadsFollowed v n)
    (hs : slot.tag.isSingle = true) : HeadsFollowed (update v n slot) (n + 1) := by
  intro i hi hhead
  rcases Nat.lt_succ_iff_lt_or_eq.mp hi with hlt | rfl
  · rw [update_of_ne hlt.ne] at hhead ⊢
    obtain ⟨h1, h2⟩ := h i hlt hhead
    rw [update_of_ne h1.ne]
    exact ⟨by omega, h2⟩
  · rw [update_self, (StackMapKind.isSingle_iff.mp hs).1] at hhead
    cases hhead

theorem HalvesPreceded.push {v : ℕ → Slot} {n : ℕ} {slot : Slot} (h : HalvesPreceded v n)
    (hs : slot.tag.isSingle = true) : HalvesPreceded (update v n slot) (n + 1) := by
  intro i hi hhalf
  rcases Nat.lt_succ_iff_lt_or_eq.mp hi with hlt | rfl
  · rw [update_of_ne hlt.ne] at hhalf ⊢
    obtain ⟨j, rfl, h1, h2⟩ := h i hlt hhalf
    exact ⟨j, rfl, by rwa [update_of_ne (by omega)],
      by rwa [update_of_ne (by omega)]⟩
  · rw [update_self, (StackMapKind.isSingle_iff.mp hs).2] at hhalf
    cases hhalf

theorem block_fst (v : ℕ → Slot) (n : ℕ) (slots : Slot × Slot) :
    update (update v n slots.1) (n + 1) slots.2 n = slots.1 := by
  rw [update_of_ne n.lt_succ_self.ne, update_self]

theorem block_snd (v : ℕ → Slot) (n : ℕ) (slots : Slot × Slot) :
    update (update v n slots.1) (n + 1) slots.2 (n + 1) = slots.2 :=
  update_self _ _ _

variable {v : ℕ → Slot} {i n : ℕ}

variable {slots : Slot × Slot}

theorem block_other (h1 : i ≠ n) (h2 : i ≠ n + 1) :
    update (update v n slots.1) (n + 1) slots.2 i = v i := by
  rw [update_of_ne h2, update_of_ne h1]

theorem HeadsFollowed.pushBlock (h : HeadsFollowed v n) (hs : IsBlock slots) :
    HeadsFollowed (update (update v n slots.1) (n + 1) slots.2) (n + 2) := by
  rcases hs with ⟨h1, h2⟩ | ⟨h1, h2⟩
  · exact (h.push h1).push h2
  · intro i hi hhead
    rcases Nat.lt_trichotomy i n with hlt | rfl | hgt
    · rw [block_other hlt.ne (by omega)] at hhead ⊢
      obtain ⟨h3, h4⟩ := h i hlt hhead
      rw [block_other (by omega) (by omega)]
      exact ⟨by omega, h4⟩
    · rw [block_fst, block_snd]
      exact ⟨by omega, h2⟩
    · obtain rfl : i = n + 1 := by omega
      rw [block_snd, h2, StackMapKind.isHead_of_isHalf (StackMapKind.isHalf_secondHalf _)] at hhead
      cases hhead

theorem HalvesPreceded.pushBlock (h : HalvesPreceded v n) (hs : IsBlock slots) :
    HalvesPreceded (update (update v n slots.1) (n + 1) slots.2) (n + 2) := by
  rcases hs with ⟨h1, h2⟩ | ⟨h1, h2⟩
  · exact (h.push h1).push h2
  · intro i hi hhalf
    rcases Nat.lt_trichotomy i n with hlt | rfl | hgt
    · rw [block_other hlt.ne (by omega)] at hhalf ⊢
      obtain ⟨j, rfl, h3, h4⟩ := h i hlt hhalf
      refine ⟨j, rfl, ?_⟩
      rw [block_other (by omega) (by omega)]
      exact ⟨h3, h4⟩
    · rw [block_fst] at hhalf
      rw [StackMapKind.isHead_of_isHalf hhalf] at h1
      cases h1
    · obtain rfl : i = n + 1 := by omega
      refine ⟨n, rfl, ?_⟩
      rw [block_snd, block_fst]
      exact ⟨h1, h2⟩

/-- What is popped must not begin with a second word. -/
theorem HeadsFollowed.truncate {k : ℕ} (h : HeadsFollowed v n) (hk : k ≤ n)
    (hcut : k < n → (v k).tag.isHalf = false) : HeadsFollowed v k := by
  intro i hi hhead
  obtain ⟨h1, h2⟩ := h i (by omega) hhead
  refine ⟨?_, h2⟩
  by_contra hge
  obtain rfl : k = i + 1 := by omega
  have := hcut h1
  rw [h2, StackMapKind.isHalf_secondHalf] at this
  cases this

theorem HalvesPreceded.truncate {k : ℕ} (h : HalvesPreceded v n) (hk : k ≤ n) :
    HalvesPreceded v k := fun i hi => h i (by omega)

theorem HeadsFollowed.top (h : HeadsFollowed v n) (hn : 0 < n) :
    (v (n - 1)).tag.isHead = false := by
  by_contra hne
  have := (h (n - 1) (by omega) ((Bool.not_eq_false _).mp hne)).1
  omega

/-- The two top slots are a block, if the lower one is no second word. -/
theorem HeadsFollowed.block (h : HeadsFollowed v n)
    (h' : HalvesPreceded v n) (hn : 2 ≤ n) (hlow : (v (n - 2)).tag.isHalf = false) :
    IsBlock (v (n - 2), v (n - 1)) := by
  have hidx : n - 2 + 1 = n - 1 := by omega
  by_cases hhead : (v (n - 2)).tag.isHead = true
  · right
    have := (h (n - 2) (by omega) hhead).2
    rw [hidx] at this
    exact ⟨hhead, this⟩
  · left
    have hhead := (Bool.not_eq_true _).mp hhead
    refine ⟨StackMapKind.isSingle_iff.mpr ⟨hhead, hlow⟩,
      StackMapKind.isSingle_iff.mpr ⟨h.top (by omega), ?_⟩⟩
    by_contra hne
    obtain ⟨j, h1, h2, -⟩ := h' (n - 1) (by omega) ((Bool.not_eq_false _).mp hne)
    obtain rfl : j = n - 2 := by omega
    rw [hhead] at h2
    cases h2

/-! ## The locals as an array -/

/-- Writing at `index` spoils a two-word value that begins before it. -/
theorem bogify_apply (v : ℕ → Slot) (index j : ℕ) : bogifySurroundingDoublewords v index j =
      if j + 1 = index ∧ (v j).tag.isHead = true then { v j with tag := .bogus } else v j := by
  unfold bogifySurroundingDoublewords
  by_cases hj : j + 1 = index
  · subst hj
    rw [Nat.add_sub_cancel]
    by_cases hhead : (v j).tag.isHead = true
    · rw [if_pos ⟨by omega, StackMapKind.isHead_iff.mp hhead⟩, if_pos ⟨rfl, hhead⟩,
        update_self]
    · rw [if_neg fun h => hhead (StackMapKind.isHead_iff.mpr h.2), if_neg fun h => hhead h.2]
  · have hkeep : ¬ (j + 1 = index ∧ (v j).tag.isHead = true) := fun h => hj h.1
    rw [if_neg hkeep]
    split_ifs with h
    · rw [update_of_ne (by omega)]
    · rfl

variable {index : ℕ}

/-- After the write it is enough that the other first words are followed. -/
theorem HeadsFollowed.bogify (h : ∀ j < n, j + 1 ≠ index → (v j).tag.isHead = true →
      j + 1 < n ∧ (v (j + 1)).tag = (v j).tag.secondHalf) :
    HeadsFollowed (bogifySurroundingDoublewords v index) n := by
  intro j hj hhead
  rw [bogify_apply] at hhead
  by_cases hspoiled : j + 1 = index ∧ (v j).tag.isHead = true
  · rw [if_pos hspoiled] at hhead
    cases hhead
  rw [if_neg hspoiled] at hhead
  obtain ⟨h1, h2⟩ := h j hj (fun he => hspoiled ⟨he, hhead⟩) hhead
  have hnext : (v (j + 1)).tag.isHead = false := by
    rw [h2]
    exact StackMapKind.isHead_of_isHalf (StackMapKind.isHalf_secondHalf _)
  rw [bogify_apply, bogify_apply, if_neg hspoiled, if_neg fun he => by simp [hnext] at he]
  exact ⟨h1, h2⟩

/-- A one-word value written to a local; `n` may grow by the local. -/
theorem HeadsFollowed.setSingle {n' : ℕ} {slot : Slot}
    (h : HeadsFollowed v n) (hs : slot.tag.isSingle = true) (hn : n ≤ n')
    (hn' : ∀ j < n', j ≠ index → j < n) :
    HeadsFollowed (bogifySurroundingDoublewords (update v index slot) index) n' := by
  refine HeadsFollowed.bogify fun j hj hne hhead => ?_
  by_cases hji : j = index
  · subst hji
    rw [update_self, (StackMapKind.isSingle_iff.mp hs).1] at hhead
    cases hhead
  · rw [update_of_ne hji] at hhead ⊢
    rw [update_of_ne hne]
    obtain ⟨h1, h2⟩ := h j (hn' j hj hji) hhead
    exact ⟨by omega, h2⟩

/-- A two-word value written to two locals. -/
theorem HeadsFollowed.setPair {n' : ℕ} (slots : Slot × Slot)
    (h : HeadsFollowed v n) (h1 : slots.2.tag = slots.1.tag.secondHalf) (hn : n ≤ n')
    (hindex : index + 1 < n') (hn' : ∀ j < n', j ≠ index → j ≠ index + 1 → j < n) :
    HeadsFollowed (bogifySurroundingDoublewords
      (update (update v index slots.1) (index + 1) slots.2) index) n' := by
  refine HeadsFollowed.bogify fun j hj hne hhead => ?_
  rcases eq_or_ne j index with rfl | hji
  · rw [block_fst, block_snd]
    exact ⟨hindex, h1⟩
  rcases eq_or_ne j (index + 1) with rfl | hji'
  · rw [block_snd, h1, StackMapKind.isHead_of_isHalf (StackMapKind.isHalf_secondHalf _)] at hhead
    cases hhead
  · rw [block_other hji hji'] at hhead ⊢
    rw [block_other hne (by omega)]
    obtain ⟨h2, h3⟩ := h j (hn' j hj hji hji') hhead
    exact ⟨by omega, h3⟩

/-! ## Stack maps -/

/-- Tags that come in one-word values and whole two-word values. -/
inductive PairedTags : List StackMapKind → Prop
  | nil : PairedTags []
  | single {kind : StackMapKind} {kinds : List StackMapKind} :
      kind.isSingle = true → PairedTags kinds → PairedTags (kind :: kinds)
  | pair {kind : StackMapKind} {kinds : List StackMapKind} :
      kind.isHead = true → PairedTags kinds → PairedTags (kind :: kind.secondHalf :: kinds)

theorem pairedTags_slotsOf (types : List VerificationType) :
    PairedTags ((slotsOf types).map Slot.tag) := by
  induction types with
  | nil => exact .nil
  | cons type types ih =>
    have hcons : (slotsOf (type :: types)).map Slot.tag =
        type.slots.map Slot.tag ++ (slotsOf types).map Slot.tag := by
      simp [slotsOf]
    rw [hcons]
    cases type
    case long => exact .pair rfl ih
    case double => exact .pair rfl ih
    all_goals exact .single rfl ih

theorem PairedTags.headFollowed {kinds : List StackMapKind} (h : PairedTags kinds)
    (hi : kinds[i]? = some kind) (hhead : kind.isHead = true) :
    kinds[i + 1]? = some kind.secondHalf := by
  induction h generalizing i with
  | nil => cases hi
  | single hs _ ih =>
    rcases i with _ | i
    · cases hi
      rw [(StackMapKind.isSingle_iff.mp hs).1] at hhead
      cases hhead
    · exact ih hi
  | pair _ _ ih =>
    rcases i with _ | _ | i
    · cases hi
      rfl
    · cases hi
      rw [StackMapKind.isHead_of_isHalf (StackMapKind.isHalf_secondHalf _)] at hhead
      cases hhead
    · exact ih hi

theorem PairedTags.halfPreceded {kinds : List StackMapKind} (h : PairedTags kinds)
    (hi : kinds[i]? = some kind) (hhalf : kind.isHalf = true) :
    ∃ j head, i = j + 1 ∧ kinds[j]? = some head ∧ head.isHead = true ∧ kind = head.secondHalf := by
  induction h generalizing i with
  | nil => cases hi
  | single hs _ ih =>
    rcases i with _ | i
    · cases hi
      rw [(StackMapKind.isSingle_iff.mp hs).2] at hhalf
      cases hhalf
    · obtain ⟨j, head, rfl, h1, h2, h3⟩ := ih hi
      exact ⟨j + 1, head, rfl, h1, h2, h3⟩
  | @pair head _ h1 _ ih =>
    rcases i with _ | _ | i
    · cases hi
      rw [StackMapKind.isHead_of_isHalf hhalf] at h1
      cases h1
    · cases hi
      exact ⟨0, head, rfl, rfl, h1, rfl⟩
    · obtain ⟨j, head', rfl, h2, h3, h4⟩ := ih hi
      exact ⟨j + 2, head', rfl, h2, h3, h4⟩

theorem overlay_tag {slots : List Slot} (hi : i < slots.length) :
    (slots.map Slot.tag)[i]? = some (overlay v 0 (carriedSlots slots none) i).tag := by
  rw [overlay_of_lt v i.zero_le (by simpa using hi), ← map_tag_carriedSlots slots none,
    List.getElem?_map, List.getElem?_eq_getElem (by simpa using hi)]
  rfl

theorem headsFollowed_overlay {slots : List Slot} (h : PairedTags (slots.map Slot.tag)) :
    HeadsFollowed (overlay v 0 (carriedSlots slots none)) slots.length := by
  intro i hi hhead
  have hnext := h.headFollowed (overlay_tag hi) hhead
  have hlt : i + 1 < slots.length := by
    have := (List.getElem?_eq_some_iff.mp hnext).1
    simpa using this
  rw [overlay_tag (v := v) hlt] at hnext
  exact ⟨hlt, Option.some.inj hnext⟩

theorem halvesPreceded_overlay {slots : List Slot} (h : PairedTags (slots.map Slot.tag)) :
    HalvesPreceded (overlay v 0 (carriedSlots slots none)) slots.length := by
  intro i hi hhalf
  obtain ⟨j, head, rfl, h1, h2, h3⟩ := h.halfPreceded (overlay_tag hi) hhalf
  rw [overlay_tag (v := v) (by omega)] at h1
  cases h1
  exact ⟨j, rfl, h2, h3⟩

variable {m : Method} {map : StackMap}

theorem mergedLocals_of_lt (h : i < map.localSlots.length) :
    mergedLocals m map v i = overlay v 0 (carriedSlots map.localSlots none) i :=
  if_neg fun h' => absurd h'.1 (Nat.not_le.mpr h)

theorem mergedLocals_of_ge (h : map.localSlots.length ≤ i) (hi : i < m.maxLocals) :
    mergedLocals m map v i = ⟨.bogus, none⟩ :=
  if_pos ⟨h, hi⟩

/-- The locals after a merge: those of the map, and unusable ones. -/
theorem headsFollowed_mergedLocals (hfit : map.localSlots.length ≤ m.maxLocals) :
    HeadsFollowed (mergedLocals m map v) m.maxLocals := by
  intro i hi hhead
  by_cases hmap : i < map.localSlots.length
  · rw [mergedLocals_of_lt hmap] at hhead ⊢
    obtain ⟨h1, h2⟩ := headsFollowed_overlay (pairedTags_slotsOf map.locals) i hmap hhead
    rw [mergedLocals_of_lt h1]
    exact ⟨lt_of_lt_of_le h1 hfit, h2⟩
  · rw [mergedLocals_of_ge (Nat.not_lt.mp hmap) hi] at hhead
    cases hhead

end CldcVm.Verifier
