import CldcVm.CodeCache.Cleanup

/-!
# Eviction by size

`evict` looks for the smallest cut-off weight such that the unlocked methods up to it are large
enough, and then goes from the last entry to the first. All methods below the cut-off weight
are freed, and methods of the cut-off weight as long as bytes are missing. A method is freed by
setting its weight to zero, so that a method of weight zero is freed in any case. Where the
cut-off weight is zero, the sweep stops to count before it stops to free.

Main results:
* `evict_iff`: the eviction is exact and minimal just if every unlocked method of weight zero
  is needed.
-/

namespace CldcVm.CodeCache

open Lib
open Function (update update_apply update_of_ne update_self)

/-! ## Locks -/

/-- A cache that differs from another one by locks only. -/
structure LockedFrom (c c' : Cache) : Prop where
  eq : c' = { c with weights := c'.weights }
  weights : ∀ i, c'.weights i = c.weights i ∨ c'.weights i = c.weights i ||| lockMask

variable {area : Area} {roots : Roots} {c c' c'' : Cache}

theorem LockedFrom.refl (c : Cache) : LockedFrom c c := ⟨rfl, fun _ => Or.inl rfl⟩

theorem or_lockMask_idem : ∀ b : Byte, b ||| lockMask ||| lockMask = b ||| lockMask := by
  decide +kernel

theorem LockedFrom.trans (h : LockedFrom c c') (h' : LockedFrom c' c'') : LockedFrom c c'' := by
  refine ⟨by rw [h'.eq, h.eq], fun i => ?_⟩
  obtain hi | hi := h.weights i
  · rw [← hi]
    exact h'.weights i
  · obtain hi' | hi' := h'.weights i
    · exact Or.inr (hi'.trans hi)
    · exact Or.inr (by rw [hi', hi, or_lockMask_idem])

theorem lockedFrom_lock (p : ℕ) (c : Cache) : LockedFrom c (lock area p c) := by
  rw [lock]
  split
  · refine ⟨rfl, fun i => ?_⟩
    by_cases hi : i = c.cacheIndex p
    · subst hi
      exact Or.inr (update_self _ _ _)
    · exact Or.inl (update_of_ne hi _ _)
  · exact LockedFrom.refl c

theorem lockedFrom_lockFrames (frames : List Frame) (c : Cache) :
    LockedFrom c (lockFrames area frames c) := by
  induction frames generalizing c with
  | nil => exact LockedFrom.refl c
  | cons frame frames ih =>
    match frame with
    | .entry true => exact LockedFrom.refl c
    | .entry false => exact ih c
    | .interpreted => exact ih c
    | .compiled p => exact (lockedFrom_lock p c).trans (ih _)

theorem lockedFrom_foldl {β : Type} (f : Cache → β → Cache) (h : ∀ c b, LockedFrom c (f c b))
    (bs : List β) (c : Cache) : LockedFrom c (bs.foldl f c) := by
  induction bs generalizing c with
  | nil => exact LockedFrom.refl c
  | cons b bs ih => exact (h c b).trans (ih (f c b))

/-- **Spec lemma.** `lock_unevictable` sets lock bits and changes nothing else. -/
theorem lockedFrom_lockUnevictable : LockedFrom c (lockUnevictable area roots c) :=
  (lockedFrom_foldl _ (fun c p => lockedFrom_lock p c) _ c).trans
    (lockedFrom_foldl _ (fun c frames => lockedFrom_lockFrames frames c) _ _)

/-! ## What an eviction is for -/

/-- The state of the cache between two operations. -/
structure Cache.Valid (area : Area) (c : Cache) : Prop where
  indexed : c.Indexed
  weights : ∀ i < c.count, (c.weights i).toNat < histogrammSize
  sizes : ∀ i < c.count, 0 < area.objectSize (c.map i)

variable (area roots c)

/-- The entries whose methods are not in use. -/
def unlocked : Finset ℕ :=
  (Finset.range c.count).filter fun i => (lockUnevictable area roots c).weights i &&& lockMask = 0

/-- The bytes of the methods of some entries. -/
def bytes (S : Finset ℕ) : ℤ := ∑ i ∈ S, (area.objectSize (c.map i) : ℤ)

/-- The entries of `c` whose methods are freed on the way to `c'`. -/
def evicted (c' : Cache) : Finset ℕ :=
  (Finset.range c.count).filter fun i => c.map i ∈ c'.freed.drop c.freed.length

/-- What `evict` promises for a size: the number that it returns is that of the bytes of the
methods it has freed, these are enough or all, none is heavier than an unlocked one that is
kept, and without the one that was freed last they would not have been enough. -/
structure Evicts (size returned : ℤ) (freed : Finset ℕ) : Prop where
  subset : freed ⊆ unlocked area roots c
  exact : returned = bytes area c freed
  enough : min size (bytes area c (unlocked area roots c)) ≤ bytes area c freed
  lightest : ∀ i ∈ freed, ∀ j ∈ unlocked area roots c, j ∉ freed → c.weights i ≤ c.weights j
  needed : ∀ i ∈ freed, (∀ j ∈ freed, c.weights j < c.weights i ∨
    c.weights j = c.weights i ∧ i ≤ j) → bytes area c (freed.erase i) < size

/-- The unlocked entries of weight zero. -/
def zeroWeight : Finset ℕ := (unlocked area roots c).filter fun i => c.weights i = 0

/-! ## The passes -/

variable {area roots c}

theorem sum_filter_range_succ (s : ℕ → ℤ) (P : ℕ → Prop) [DecidablePred P] (n : ℕ) :
    ∑ i ∈ (Finset.range (n + 1)).filter P, s i =
      (if P n then s n else 0) + ∑ i ∈ (Finset.range n).filter P, s i := by
  rw [Finset.sum_filter, Finset.sum_filter, Finset.sum_range_succ, add_comm]

theorem sum_weights_below (s : ℕ → ℤ) (w : ℕ → ℕ) (n m : ℕ) :
    ∑ x ∈ Finset.range m, ∑ i ∈ (Finset.range n).filter (fun i => w i = x), s i =
      ∑ i ∈ (Finset.range n).filter (fun i => w i < m), s i := by
  have hmaps : ∀ i ∈ (Finset.range n).filter (fun i => w i < m), w i ∈ Finset.range m :=
    fun i hi => Finset.mem_range.mpr (Finset.mem_filter.mp hi).2
  rw [← Finset.sum_fiberwise_of_maps_to hmaps s]
  apply Finset.sum_congr rfl
  intro x hx
  rw [Finset.filter_filter]
  apply Finset.sum_congr _ fun _ _ => rfl
  apply Finset.filter_congr
  intro i _
  have hlt := Finset.mem_range.mp hx
  omega

theorem toNat_ge_of_locked : ∀ b : Byte, b &&& lockMask ≠ 0 → 128 ≤ b.toNat := by decide +kernel

/-- **Spec lemma.** The histogram holds the bytes of every weight below the lock bit. -/
theorem histogramm_spec (k : ℕ) (h : ℕ → ℤ) {x : ℕ} (hx : x < 128) : histogramm area c k h x = h x +
      ∑ i ∈ (Finset.range k).filter (fun i => (c.weights i).toNat = x),
        (area.objectSize (c.map i) : ℤ) := by
  induction k generalizing h with
  | zero => simp [histogramm]
  | succ k ih =>
    rw [histogramm, ih, sum_filter_range_succ]
    by_cases hlocked : c.weights k &&& lockMask = 0
    · rw [if_pos hlocked, update_apply]
      by_cases hweight : (c.weights k).toNat = x
      · subst hweight
        rw [if_pos rfl, if_pos rfl, add_assoc]
      · rw [if_neg hweight, if_neg (Ne.symm hweight), zero_add]
    · have hge := toNat_ge_of_locked _ hlocked
      rw [if_neg hlocked, if_neg (by omega), zero_add]

/-- **Spec lemma.** The weights below the cut-off are not enough, and with the cut-off weight
they are. -/
theorem findCutoff_spec (h : ℕ → ℤ) (left weight : ℕ) (total size : ℤ) (hpos : 0 < size)
    (hsize : size = total - ∑ x ∈ Finset.range weight, h x) :
    (findCutoff h left weight size).1 ≤ weight + left ∧ (findCutoff h left weight size).2 =
        total - ∑ x ∈ Finset.range (findCutoff h left weight size).1, h x ∧
      0 < (findCutoff h left weight size).2 ∧
      ((findCutoff h left weight size).1 < weight + left →
        (findCutoff h left weight size).2 ≤ h (findCutoff h left weight size).1) := by
  induction left generalizing weight size with
  | zero => exact ⟨le_refl _, hsize, hpos, fun hlt => absurd hlt (lt_irrefl _)⟩
  | succ left ih =>
    rw [findCutoff]
    by_cases hstop : h weight ≥ size
    · rw [if_pos hstop]
      exact ⟨by omega, hsize, hpos, fun _ => hstop⟩
    · rw [if_neg hstop, show weight + (left + 1) = weight + 1 + left by omega]
      apply ih (weight + 1) (size - h weight) (by omega)
      rw [Finset.sum_range_succ, hsize]
      ring

/-- The entries of the cut-off weight that a sweep over the first `k` entries takes: the upper
ones, as many as it needs to use up the size. -/
structure Takes (s : ℕ → ℤ) (w : Memory) (cutoff k : ℕ) (size rest : ℤ) (T : Finset ℕ) : Prop where
  lt : ∀ i ∈ T, i < k
  weight : ∀ i ∈ T, (w i).toNat = cutoff
  rest_eq : rest = size - ∑ i ∈ T, s i
  upward : ∀ i ∈ T, ∀ j < k, i ≤ j → (w j).toNat = cutoff → j ∈ T
  stops : ∀ i < k, (w i).toNat = cutoff → i ∉ T → rest ≤ 0
  lowest : ∀ i ∈ T, (∀ j ∈ T, i ≤ j) → 0 < rest + s i
  nothing : size ≤ 0 → T = ∅

variable {s : ℕ → ℤ} {w w' : Memory} {cutoff k : ℕ} {size rest : ℤ} {T : Finset ℕ}

theorem Takes.congr (h : Takes s w' cutoff k size rest T) (hw : ∀ i < k, w' i = w i) :
    Takes s w cutoff k size rest T where
  lt := h.lt
  weight := fun i hi => by
    rw [← hw i (h.lt i hi)]
    exact h.weight i hi
  rest_eq := h.rest_eq
  upward := fun i hi j hj hle hweight => h.upward i hi j hj hle (by rwa [hw j hj])
  stops := fun i hi hweight => h.stops i hi (by rwa [hw i hi])
  lowest := h.lowest
  nothing := h.nothing

/-- An entry that is not taken, because it has another weight or the size is used up. -/
theorem Takes.leave (h : Takes s w cutoff k size rest T)
    (hk : (w k).toNat = cutoff → size ≤ 0) : Takes s w cutoff (k + 1) size rest T where
  lt := fun i hi => Nat.lt_succ_of_lt (h.lt i hi)
  weight := h.weight
  rest_eq := h.rest_eq
  upward := fun i hi j hj hle hweight => by
    by_cases hjk : j = k
    · subst hjk
      rw [h.nothing (hk hweight)] at hi
      exact absurd hi (Finset.notMem_empty i)
    · exact h.upward i hi j (by omega) hle hweight
  stops := fun i hi hweight hnot => by
    by_cases hik : i = k
    · subst hik
      have hle := hk hweight
      rw [h.rest_eq, h.nothing hle, Finset.sum_empty]
      omega
    · exact h.stops i (by omega) hweight hnot
  lowest := h.lowest
  nothing := h.nothing

/-- An entry of the cut-off weight that is taken. -/
theorem Takes.take (h : Takes s w cutoff k (size - s k) rest T) (hk : (w k).toNat = cutoff)
    (hsize : 0 < size) : Takes s w cutoff (k + 1) size rest (insert k T) where
  lt := fun i hi => by
    obtain rfl | hi := Finset.mem_insert.mp hi
    · exact i.lt_succ_self
    · exact Nat.lt_succ_of_lt (h.lt i hi)
  weight := fun i hi => by
    obtain rfl | hi := Finset.mem_insert.mp hi
    · exact hk
    · exact h.weight i hi
  rest_eq := by
    have hfresh : k ∉ T := fun hmem => lt_irrefl k (h.lt k hmem)
    rw [Finset.sum_insert hfresh, h.rest_eq]
    ring
  upward := fun i hi j hj hle hweight => by
    by_cases hjk : j = k
    · exact Finset.mem_insert.mpr (Or.inl hjk)
    · obtain rfl | hi := Finset.mem_insert.mp hi
      · omega
      · exact Finset.mem_insert_of_mem (h.upward i hi j (by omega) hle hweight)
  stops := fun i hi hweight hnot => by
    rw [Finset.mem_insert, not_or] at hnot
    exact h.stops i (by omega) hweight hnot.2
  lowest := fun i hi hmin => by
    obtain rfl | hi := Finset.mem_insert.mp hi
    · -- Nothing below was taken, so that the size that was left is the rest.
      have hempty : T = ∅ := by
        apply Finset.eq_empty_of_forall_notMem
        intro j hj
        have hle := hmin j (Finset.mem_insert_of_mem hj)
        exact absurd (h.lt j hj) (by omega)
      rw [h.rest_eq, hempty, Finset.sum_empty]
      omega
    · exact h.lowest i hi fun j hj => hmin j (Finset.mem_insert_of_mem hj)
  nothing := fun hle => absurd hsize (by omega)

/-- **Spec lemma.** The sweep sets the weights below the cut-off to zero, and those of the
entries of the cut-off weight that it takes. -/
theorem sweep_spec (map : ℕ → ℕ) (cutoff k : ℕ) (w : Memory) (size : ℤ) :
    ∃ T, Takes (fun i => (area.objectSize (map i) : ℤ)) w cutoff k size
        (sweep area map cutoff k (w, size)).2 T ∧
      ∀ i, (sweep area map cutoff k (w, size)).1 i =
        if i ∈ T ∨ i < k ∧ (w i).toNat < cutoff then 0 else w i := by
  induction k generalizing w size with
  | zero =>
    refine ⟨∅, ⟨by simp, by simp, by simp [sweep], by simp, by simp, by simp, fun _ => rfl⟩, ?_⟩
    intro i
    simp [sweep]
  | succ k ih =>
    have hsame : ∀ i < k, update w k 0 i = w i :=
      fun i hi => update_of_ne (by omega) _ _
    rw [sweep]
    by_cases hbelow : (w k).toNat < cutoff
    · rw [if_pos hbelow]
      obtain ⟨T, htakes, hval⟩ := ih (update w k 0) size
      refine ⟨T, (htakes.congr hsame).leave (by omega), fun i => ?_⟩
      rw [hval]
      by_cases hik : i = k
      · subst hik
        rw [update_self, ite_self, if_pos (Or.inr ⟨i.lt_succ_self, hbelow⟩)]
      · have hlt : i < k + 1 ↔ i < k := by omega
        simp only [update_of_ne hik, hlt]
    · rw [if_neg hbelow]
      by_cases htake : (w k).toNat = cutoff ∧ size > 0
      · rw [if_pos htake]
        obtain ⟨T, htakes, hval⟩ := ih (update w k 0) (size - area.objectSize (map k))
        refine ⟨insert k T, (htakes.congr hsame).take htake.1 htake.2, fun i => ?_⟩
        rw [hval]
        by_cases hik : i = k
        · subst hik
          rw [update_self, ite_self, if_pos (Or.inl (Finset.mem_insert_self i T))]
        · have hlt : i < k + 1 ↔ i < k := by omega
          simp only [update_of_ne hik, hlt, Finset.mem_insert, hik, false_or]
      · rw [if_neg htake]
        obtain ⟨T, htakes, hval⟩ := ih w size
        refine ⟨T, htakes.leave (fun heq => by omega), fun i => ?_⟩
        rw [hval]
        have hlt : i < k + 1 ∧ (w i).toNat < cutoff ↔ i < k ∧ (w i).toNat < cutoff := by
          constructor
          · rintro ⟨hi, hw⟩
            refine ⟨?_, hw⟩
            by_contra hik
            rw [show i = k by omega] at hw
            exact hbelow hw
          · exact fun ⟨hi, hw⟩ => ⟨by omega, hw⟩
        simp only [hlt]

/-! ## The entries that are freed -/

/-- What the passes leave behind for a size: a cut-off weight, what is left of the size at this
weight and at the end, and the entries of the cut-off weight that are taken. -/
structure Selects (s : ℕ → ℤ) (w : Memory) (n : ℕ) (total : ℤ) (cutoff : ℕ) (size rest : ℤ)
    (T : Finset ℕ) : Prop where
  weights : ∀ i < n, (w i).toNat < 64 ∨ 128 ≤ (w i).toNat
  sizes : ∀ i < n, 0 < s i
  cutoff_le : cutoff ≤ 64
  size_eq : size = total - ∑ i ∈ (Finset.range n).filter (fun i => (w i).toNat < cutoff), s i
  size_pos : 0 < size
  size_le : cutoff < 64 → size ≤ ∑ i ∈ (Finset.range n).filter (fun i => (w i).toNat = cutoff), s i
  takes : Takes s w cutoff n size rest T

/-- The entries of weight zero after the sweep. -/
def freedEntries (w : Memory) (n cutoff : ℕ) (T : Finset ℕ) : Finset ℕ :=
  (Finset.range n).filter fun i => i ∈ T ∨ (w i).toNat < cutoff ∨ (w i).toNat = 0

variable {i : ℕ}

theorem freedEntries_lt {n : ℕ} (hi : i ∈ freedEntries w n cutoff T) : i < n :=
  Finset.mem_range.mp (Finset.mem_filter.mp hi).1

theorem freedEntries_of_pos {n : ℕ} (hpos : 0 < cutoff) : freedEntries w n cutoff T =
    (Finset.range n).filter (fun i => i ∈ T ∨ (w i).toNat < cutoff) := by
  apply Finset.filter_congr
  intro i _
  constructor
  · rintro (hT | hbelow | hzero)
    · exact Or.inl hT
    · exact Or.inr hbelow
    · exact Or.inr (by omega)
  · rintro (hT | hbelow)
    · exact Or.inl hT
    · exact Or.inr (Or.inl hbelow)

namespace Selects

variable {n : ℕ} {total : ℤ} (h : Selects s w n total cutoff size rest T)

include h

theorem sizes_nonneg (hi : i < n) : 0 ≤ s i := (h.sizes i hi).le

/-- The entries that are taken and those below the cut-off have the bytes that are counted. -/
theorem sum_counted :
    ∑ i ∈ (Finset.range n).filter (fun i => i ∈ T ∨ (w i).toNat < cutoff), s i = total - rest := by
  have hsplit : (Finset.range n).filter (fun i => i ∈ T ∨ (w i).toNat < cutoff) =
      T ∪ (Finset.range n).filter (fun i => (w i).toNat < cutoff) := by
    ext i
    simp only [Finset.mem_filter, Finset.mem_union, Finset.mem_range]
    constructor
    · rintro ⟨hi, hT | hbelow⟩
      · exact Or.inl hT
      · exact Or.inr ⟨hi, hbelow⟩
    · rintro (hT | ⟨hi, hbelow⟩)
      · exact ⟨h.takes.lt i hT, Or.inl hT⟩
      · exact ⟨hi, Or.inr hbelow⟩
  have hdisjoint : Disjoint T ((Finset.range n).filter fun i => (w i).toNat < cutoff) := by
    apply Finset.disjoint_left.mpr
    intro i hT hbelow
    have hweight := h.takes.weight i hT
    have hlt := (Finset.mem_filter.mp hbelow).2
    omega
  rw [hsplit, Finset.sum_union hdisjoint, h.takes.rest_eq, h.size_eq]
  ring

theorem weight_le (hi : i ∈ freedEntries w n cutoff T) : (w i).toNat ≤ cutoff := by
  obtain hT | hbelow | hzero := (Finset.mem_filter.mp hi).2
  · exact (h.takes.weight i hT).le
  · exact hbelow.le
  · omega

/-- With a cut-off weight the size is used up. -/
theorem rest_nonpos (hlt : cutoff < 64) : rest ≤ 0 := by
  by_contra hrest
  have hall : (Finset.range n).filter (fun i => (w i).toNat = cutoff) = T := by
    ext i
    rw [Finset.mem_filter, Finset.mem_range]
    constructor
    · rintro ⟨hi, hweight⟩
      by_contra hnot
      exact hrest (h.takes.stops i hi hweight hnot)
    · exact fun hT => ⟨h.takes.lt i hT, h.takes.weight i hT⟩
  have hle := h.size_le hlt
  rw [hall] at hle
  have hrest_eq := h.takes.rest_eq
  omega

theorem takes_nothing (heq : cutoff = 64) : T = ∅ := by
  apply Finset.eq_empty_of_forall_notMem
  intro i hT
  have hweight := h.takes.weight i hT
  have hrange := h.weights i (h.takes.lt i hT)
  omega

theorem taken_nonempty (hlt : cutoff < 64) : T.Nonempty := by
  by_contra hempty
  rw [Finset.not_nonempty_iff_eq_empty] at hempty
  have hrest := h.takes.rest_eq
  rw [hempty, Finset.sum_empty] at hrest
  have hpos := h.size_pos
  have hnonpos := h.rest_nonpos hlt
  omega

theorem sum_le {S S' : Finset ℕ} (hsub : S ⊆ S') (hlt : ∀ i ∈ S', i < n) :
    ∑ i ∈ S, s i ≤ ∑ i ∈ S', s i :=
  Finset.sum_le_sum_of_subset_of_nonneg hsub fun i hi _ => h.sizes_nonneg (hlt i hi)

theorem counted_le_freed : total - rest ≤ ∑ i ∈ freedEntries w n cutoff T, s i := by
  rw [← h.sum_counted]
  refine h.sum_le (fun i hi => ?_) fun i => freedEntries_lt
  obtain ⟨hrange, hT | hbelow⟩ := Finset.mem_filter.mp hi
  · exact Finset.mem_filter.mpr ⟨hrange, Or.inl hT⟩
  · exact Finset.mem_filter.mpr ⟨hrange, Or.inr (Or.inl hbelow)⟩

theorem freedEntries_subset :
    freedEntries w n cutoff T ⊆ (Finset.range n).filter fun i => (w i).toNat < 64 := by
  intro i hi
  refine Finset.mem_filter.mpr ⟨(Finset.mem_filter.mp hi).1, ?_⟩
  have hle := h.weight_le hi
  have hrange := h.weights i (freedEntries_lt hi)
  have hcutoff := h.cutoff_le
  omega

theorem enough : min total (∑ i ∈ (Finset.range n).filter (fun i => (w i).toNat < 64), s i) ≤
    ∑ i ∈ freedEntries w n cutoff T, s i := by
  by_cases hlt : cutoff < 64
  · have hrest := h.rest_nonpos hlt
    have hcounted := h.counted_le_freed
    exact (min_le_left _ _).trans (by omega)
  · refine (min_le_right _ _).trans (h.sum_le (fun i hi => ?_) fun i => freedEntries_lt)
    obtain ⟨hrange, hweight⟩ := Finset.mem_filter.mp hi
    exact Finset.mem_filter.mpr ⟨hrange, Or.inr (Or.inl (by omega))⟩

theorem lightest {j : ℕ} (hi : i ∈ freedEntries w n cutoff T) (hj : j < n)
    (hkept : j ∉ freedEntries w n cutoff T) : (w i).toNat ≤ (w j).toNat := by
  have hle := h.weight_le hi
  have hge : ¬(w j).toNat < cutoff := fun hlt =>
    hkept (Finset.mem_filter.mpr ⟨Finset.mem_range.mpr hj, Or.inr (Or.inl hlt)⟩)
  omega

theorem exact_of_pos (hpos : 0 < cutoff) : total - rest = ∑ i ∈ freedEntries w n cutoff T, s i := by
  rw [freedEntries_of_pos hpos, h.sum_counted]

/-- Above the weight zero the entry that was freed last was needed. -/
theorem needed_of_pos (hpos : 0 < cutoff) (hi : i ∈ freedEntries w n cutoff T)
    (hlast : ∀ j ∈ freedEntries w n cutoff T, (w j).toNat < (w i).toNat ∨
      (w j).toNat = (w i).toNat ∧ i ≤ j) :
    ∑ j ∈ (freedEntries w n cutoff T).erase i, s j < total := by
  have hsum := Finset.add_sum_erase _ s hi
  have hexact := h.exact_of_pos hpos
  by_cases hlt : cutoff < 64
  · -- The last one has the cut-off weight and is the lowest of those that were taken.
    obtain ⟨t, ht⟩ := h.taken_nonempty hlt
    have htaken : ∀ j ∈ T, j ∈ freedEntries w n cutoff T := fun j hj =>
      Finset.mem_filter.mpr ⟨Finset.mem_range.mpr (h.takes.lt j hj), Or.inl hj⟩
    have hweight : (w i).toNat = cutoff := by
      have hle := h.weight_le hi
      have htop := hlast t (htaken t ht)
      have htweight := h.takes.weight t ht
      omega
    have hiT : i ∈ T := by
      obtain hT | hbelow | hzero := (Finset.mem_filter.mp hi).2
      · exact hT
      · omega
      · omega
    have hlow : ∀ j ∈ T, i ≤ j := by
      intro j hj
      have hcmp := hlast j (htaken j hj)
      have hjweight := h.takes.weight j hj
      omega
    have hneeded := h.takes.lowest i hiT hlow
    omega
  · have hnone := h.takes_nothing (by have := h.cutoff_le; omega)
    have hrest := h.takes.rest_eq
    rw [hnone, Finset.sum_empty] at hrest
    have hsize := h.size_pos
    have hnonneg := h.sizes_nonneg (freedEntries_lt hi)
    omega

/-- At the weight zero the sweep takes everything if the lowest entry is needed. -/
theorem taken_of_needed (hzero : cutoff = 0)
    (hneeded : ∀ z ∈ freedEntries w n cutoff T, (∀ j ∈ freedEntries w n cutoff T, z ≤ j) →
      ∑ j ∈ (freedEntries w n cutoff T).erase z, s j < total) :
    T = freedEntries w n cutoff T := by
  have hsub : T ⊆ freedEntries w n cutoff T := fun j hj =>
    Finset.mem_filter.mpr ⟨Finset.mem_range.mpr (h.takes.lt j hj), Or.inl hj⟩
  refine Finset.Subset.antisymm hsub fun i hi => ?_
  by_contra hnot
  have hweight : ∀ j ∈ freedEntries w n cutoff T, (w j).toNat = cutoff := by
    intro j hj
    have hle := h.weight_le hj
    omega
  -- The lowest entry is not taken either, and without it there would be enough.
  set z := (freedEntries w n cutoff T).min' ⟨i, hi⟩ with hz
  have hzmem : z ∈ freedEntries w n cutoff T := Finset.min'_mem _ _
  have hzle : ∀ j ∈ freedEntries w n cutoff T, z ≤ j := fun j hj => Finset.min'_le _ j hj
  have hznot : z ∉ T := fun hzT =>
    hnot (h.takes.upward z hzT i (freedEntries_lt hi) (hzle i hi) (hweight i hi))
  have hstop := h.takes.stops z (freedEntries_lt hzmem) (hweight z hzmem) hznot
  have hle : ∑ j ∈ T, s j ≤ ∑ j ∈ (freedEntries w n cutoff T).erase z, s j := by
    refine h.sum_le (fun j hj => Finset.mem_erase.mpr ⟨?_, hsub hj⟩) fun j hj => ?_
    · rintro rfl
      exact hznot hj
    · exact freedEntries_lt (Finset.mem_of_mem_erase hj)
  have hlt := hneeded z hzmem hzle
  have hrest := h.takes.rest_eq
  have hsize := h.size_eq
  have hbelow : (Finset.range n).filter (fun i => (w i).toNat < cutoff) = ∅ := by
    rw [hzero]
    simp
  rw [hbelow, Finset.sum_empty] at hsize
  omega

theorem mem_freedEntries_of_zero (hzero : cutoff = 0) :
    i ∈ freedEntries w n cutoff T ↔ i < n ∧ (w i).toNat = 0 := by
  constructor
  · intro hi
    have hle := h.weight_le hi
    exact ⟨freedEntries_lt hi, by omega⟩
  · rintro ⟨hi, hweight⟩
    exact Finset.mem_filter.mpr ⟨Finset.mem_range.mpr hi, Or.inr (Or.inr hweight)⟩

/-- At the weight zero all of the size is left for this weight. -/
theorem exact_of_taken (hzero : cutoff = 0) (htaken : T = freedEntries w n cutoff T) :
    total - rest = ∑ i ∈ freedEntries w n cutoff T, s i := by
  have hbelow : (Finset.range n).filter (fun i => (w i).toNat < cutoff) = ∅ := by
    rw [hzero]
    simp
  have hsize := h.size_eq
  rw [hbelow, Finset.sum_empty] at hsize
  rw [← htaken, h.takes.rest_eq, hsize]
  ring

theorem sum_below_lt {S : Finset ℕ} (hS : ∀ i ∈ S, i < n ∧ (w i).toNat < cutoff) :
    ∑ i ∈ S, s i < total := by
  have hsub : S ⊆ (Finset.range n).filter fun i => (w i).toNat < cutoff := fun i hi =>
    Finset.mem_filter.mpr ⟨Finset.mem_range.mpr (hS i hi).1, (hS i hi).2⟩
  have hle := h.sum_le hsub fun i hi => Finset.mem_range.mp (Finset.mem_filter.mp hi).1
  have hsize := h.size_eq
  have hpos := h.size_pos
  omega

end Selects

/-! ## The eviction -/

/-- The cut-off weight of `evict` and what is left of the size. -/
def cutoffOf (area : Area) (c : Cache) (size : ℤ) : ℕ × ℤ :=
  findCutoff (histogramm area c c.count fun _ => 0) histogrammSize 0 size

/-- The sweep of `evict`, on the cache with its locks. -/
def sweepOf (area : Area) (c : Cache) (size : ℤ) : Memory × ℤ :=
  sweep area c.map (cutoffOf area c size).1 c.count (c.weights, (cutoffOf area c size).2)

theorem evict_eq (hupb : 0 ≤ c.upb) (size : ℤ) : evict area roots size c =
    (unlock (evictZeroWeight area { lockUnevictable area roots c with
      weights := (sweepOf area (lockUnevictable area roots c) size).1 }),
    size - (sweepOf area (lockUnevictable area roots c) size).2) := by
  rw [evict, if_neg (by omega)]
  rfl

theorem and_lockMask_eq_zero : ∀ b : Byte, b.toNat < 64 → b &&& lockMask = 0 := by
  decide +kernel

theorem and_lockMask_ge : ∀ b : Byte, 128 ≤ b.toNat → b &&& lockMask ≠ 0 := by
  decide +kernel

theorem or_lockMask_ge : ∀ b : Byte, 128 ≤ (b ||| lockMask).toNat := by decide +kernel

section

variable (hvalid : c.Valid area) {c₁ : Cache} (hlocked : LockedFrom c c₁)

include hlocked

theorem LockedFrom.count_eq : c₁.count = c.count := by
  rw [hlocked.eq]
  rfl

theorem LockedFrom.map_eq : c₁.map = c.map := by rw [hlocked.eq]

include hvalid

theorem LockedFrom.weight_cases (hi : i < c.count) :
    (c₁.weights i).toNat < 64 ∧ c₁.weights i = c.weights i ∨ 128 ≤ (c₁.weights i).toNat := by
  obtain heq | heq := hlocked.weights i
  · exact Or.inl ⟨by rw [heq]; exact hvalid.weights i hi, heq⟩
  · exact Or.inr (by rw [heq]; exact or_lockMask_ge _)

theorem LockedFrom.unlocked_iff (hi : i < c.count) :
    c₁.weights i &&& lockMask = 0 ↔ (c₁.weights i).toNat < 64 := by
  constructor
  · intro hfree
    obtain ⟨hlt, -⟩ | hge := hlocked.weight_cases hvalid hi
    · exact hlt
    · exact absurd hfree (and_lockMask_ge _ hge)
  · exact and_lockMask_eq_zero _

/-- **Spec lemma.** The three passes select the entries that are to be freed. -/
theorem LockedFrom.selects (hpos : 0 < size) :
    ∃ T, Selects (fun i => (area.objectSize (c.map i) : ℤ)) c₁.weights c.count size
        (cutoffOf area c₁ size).1 (cutoffOf area c₁ size).2 (sweepOf area c₁ size).2 T ∧
      ∀ i < c.count, (sweepOf area c₁ size).1 i = 0 ↔
        i ∈ freedEntries c₁.weights c.count (cutoffOf area c₁ size).1 T := by
  obtain ⟨T, htakes, hval⟩ := @sweep_spec area c₁.map (cutoffOf area c₁ size).1 c₁.count c₁.weights
    (cutoffOf area c₁ size).2
  have hcut := findCutoff_spec (histogramm area c₁ c₁.count fun _ => 0) histogrammSize 0 size size
    hpos (by simp)
  obtain ⟨hle, hsize, hsize_pos, hsize_le⟩ := hcut
  have hhist : ∀ x < 128, histogramm area c₁ c₁.count (fun _ => 0) x =
      ∑ i ∈ (Finset.range c.count).filter (fun i => (c₁.weights i).toNat = x),
        (area.objectSize (c.map i) : ℤ) := by
    intro x hx
    rw [histogramm_spec _ _ hx, hlocked.count_eq, hlocked.map_eq, zero_add]
  have hcutoff : (cutoffOf area c₁ size).1 ≤ 64 := hle
  refine ⟨T, ⟨?_, ?_, hcutoff, ?_, hsize_pos, ?_, ?_⟩, fun i hi => ?_⟩
  · intro i hi
    exact (hlocked.weight_cases hvalid hi).imp_left And.left
  · exact fun i hi => by exact_mod_cast hvalid.sizes i hi
  · rw [← sum_weights_below, cutoffOf, hsize]
    congr 1
    apply Finset.sum_congr rfl
    intro x hx
    exact hhist x (by have := Finset.mem_range.mp hx; simp only [cutoffOf] at hcutoff; omega)
  · intro hlt
    rw [← hhist _ (by omega)]
    exact hsize_le hlt
  · simpa only [sweepOf, hlocked.map_eq, hlocked.count_eq] using htakes
  · have hi' : i < c₁.count := by rwa [hlocked.count_eq]
    rw [sweepOf, hval i, freedEntries, Finset.mem_filter, Finset.mem_range]
    simp only [hi, hi', true_and]
    split_ifs with hswept
    · simp only [true_iff]
      tauto
    · rw [not_or] at hswept
      simp only [hswept.1, hswept.2, false_or, ← BitVec.toNat_inj]
      rfl

end

/-- The entries that are freed are those of weight zero after the sweep. -/
theorem evicted_evict (hvalid : c.Valid area) (hupb : 0 ≤ c.upb) (size : ℤ) :
    i ∈ evicted c (evict area roots size c).1 ↔
      i < c.count ∧ (sweepOf area (lockUnevictable area roots c) size).1 i = 0 := by
  have hlocked := @lockedFrom_lockUnevictable area roots c
  set c₁ := lockUnevictable area roots c with hc₁
  set w := (sweepOf area c₁ size).1 with hw
  have hfreed := @removeEntries_freed area { c₁ with weights := w } _ _ patchZeroWeight keepWeighted
  have hold : c₁.freed = c.freed := by rw [hlocked.eq]
  rw [evicted, evict_eq hupb, Finset.mem_filter, Finset.mem_range]
  apply and_congr_right
  intro hi
  show c.map i ∈ (evictZeroWeight area { c₁ with weights := w }).freed.drop c.freed.length ↔ _
  rw [evictZeroWeight, hfreed]
  show c.map i ∈ (c₁.freed ++ _).drop c.freed.length ↔ _
  rw [hold, List.drop_left]
  constructor
  · intro hmem
    obtain ⟨e, he, hmethod⟩ := List.mem_map.mp hmem
    obtain ⟨hentry, hzero⟩ := List.mem_filter.mp he
    obtain ⟨j, hj, rfl⟩ := List.mem_map.mp hentry
    have hjlt : j < c.count := by
      rw [← hlocked.count_eq]
      exact List.mem_range.mp hj
    have hsame : c.map j = c.map i := (congrFun hlocked.map_eq j).symm.trans hmethod
    have hij : j = i := by
      rw [← hvalid.indexed j hjlt, hsame, hvalid.indexed i hi]
    simpa [Entry.isWeighted, Cache.entry, hij] using hzero
  · intro hzero
    have hmem : i ∈ List.range c₁.count := by
      rw [hlocked.count_eq]
      exact List.mem_range.mpr hi
    refine List.mem_map.mpr ⟨⟨w i, c₁.sensor i, c₁.map i⟩, List.mem_filter.mpr ⟨?_, ?_⟩, ?_⟩
    · exact List.mem_map_of_mem hmem
    · simpa [Entry.isWeighted] using hzero
    · rw [hlocked.map_eq]

theorem unlocked_iff (hvalid : c.Valid area) : i ∈ unlocked area roots c ↔
    i < c.count ∧ ((lockUnevictable area roots c).weights i).toNat < 64 := by
  rw [unlocked, Finset.mem_filter, Finset.mem_range]
  exact and_congr_right fun hi => lockedFrom_lockUnevictable.unlocked_iff hvalid hi

theorem weights_of_unlocked (hvalid : c.Valid area) (hi : i ∈ unlocked area roots c) :
    (lockUnevictable area roots c).weights i = c.weights i := by
  obtain ⟨hlt, hweight⟩ := (unlocked_iff hvalid).mp hi
  obtain ⟨-, heq⟩ | hge := (@lockedFrom_lockUnevictable area roots c).weight_cases hvalid hlt
  · exact heq
  · omega

theorem mem_zeroWeight (hvalid : c.Valid area) : i ∈ zeroWeight area roots c ↔
    i < c.count ∧ ((lockUnevictable area roots c).weights i).toNat = 0 := by
  rw [zeroWeight, Finset.mem_filter]
  constructor
  · rintro ⟨hi, hzero⟩
    rw [weights_of_unlocked hvalid hi, hzero]
    exact ⟨((unlocked_iff hvalid).mp hi).1, rfl⟩
  · rintro ⟨hi, hzero⟩
    have hmem : i ∈ unlocked area roots c := (unlocked_iff hvalid).mpr ⟨hi, by omega⟩
    rw [← weights_of_unlocked hvalid hmem]
    exact ⟨hmem, BitVec.eq_of_toNat_eq hzero⟩

/-- What the eviction from a cache that is not empty frees and returns. -/
theorem evict_selects (hvalid : c.Valid area) (hupb : 0 ≤ c.upb) (hsize : 0 < size) :
    ∃ cutoff left rest T, Selects (fun i => (area.objectSize (c.map i) : ℤ))
        (lockUnevictable area roots c).weights c.count size cutoff left rest T ∧
      evicted c (evict area roots size c).1 =
        freedEntries (lockUnevictable area roots c).weights c.count cutoff T ∧
      (evict area roots size c).2 = size - rest := by
  obtain ⟨T, hsel, hval⟩ := (@lockedFrom_lockUnevictable area roots c).selects hvalid hsize
  refine ⟨_, _, _, T, hsel, ?_, by rw [evict_eq hupb]⟩
  ext i
  rw [evicted_evict hvalid hupb]
  constructor
  · exact fun ⟨hi, hzero⟩ => (hval i hi).mp hzero
  · exact fun hi => ⟨freedEntries_lt hi, (hval i (freedEntries_lt hi)).mpr hi⟩

/-- The entries that `evict` frees are unlocked, so that their weights are those of the cache. -/
theorem Selects.weights_eq {left : ℤ} (hvalid : c.Valid area)
    (hsel : Selects s (lockUnevictable area roots c).weights c.count size cutoff left rest T) :
    ∀ i ∈ freedEntries (lockUnevictable area roots c).weights c.count cutoff T,
      i ∈ unlocked area roots c ∧ (lockUnevictable area roots c).weights i = c.weights i := by
  intro i hi
  obtain ⟨hrange, hweight⟩ := Finset.mem_filter.mp (hsel.freedEntries_subset hi)
  have hmem : i ∈ unlocked area roots c :=
    (unlocked_iff hvalid).mpr ⟨Finset.mem_range.mp hrange, hweight⟩
  exact ⟨hmem, weights_of_unlocked hvalid hmem⟩

theorem evicts_empty (hupb : c.upb < 0) : Evicts area roots c size (evict area roots size c).2
    (evicted c (evict area roots size c).1) ∧ zeroWeight area roots c = ∅ := by
  have hcount : c.count = 0 := by
    rw [Cache.count]
    omega
  have hnone : unlocked area roots c = ∅ := by simp [unlocked, hcount]
  have hfreed : evicted c (evict area roots size c).1 = ∅ := by simp [evicted, hcount]
  refine ⟨?_, by rw [zeroWeight, hnone, Finset.filter_empty]⟩
  rw [hfreed, evict, if_pos hupb]
  refine ⟨Finset.empty_subset _, rfl, ?_, by simp, by simp⟩
  rw [hnone]
  exact min_le_right _ _

/-- **Main theorem.** `evict` is exact and frees no more than it has to, just if the unlocked
methods of weight zero are all needed: without the one of the lowest index they are not
enough. -/
theorem evict_iff (hvalid : c.Valid area) (hsize : 0 < size) :
    Evicts area roots c size (evict area roots size c).2
        (evicted c (evict area roots size c).1) ↔
      ∀ z ∈ zeroWeight area roots c, (∀ j ∈ zeroWeight area roots c, z ≤ j) →
        bytes area c ((zeroWeight area roots c).erase z) < size := by
  by_cases hupb : c.upb < 0
  · obtain ⟨hevicts, hzero⟩ := @evicts_empty area roots c size hupb
    rw [hzero]
    simp [hevicts]
  obtain ⟨cutoff, left, rest, T, hsel, hF, hret⟩ :=
    @evict_selects area roots c size hvalid (by omega) hsize
  have hfree := hsel.weights_eq hvalid
  have hzero : cutoff = 0 → zeroWeight area roots c =
      freedEntries (lockUnevictable area roots c).weights c.count cutoff T := by
    intro hcutoff
    ext i
    rw [mem_zeroWeight hvalid, hsel.mem_freedEntries_of_zero hcutoff]
  rw [hF, hret]
  constructor
  · intro hevicts z hz hlow
    by_cases hcutoff : cutoff = 0
    · -- All that is freed has the weight zero, so that the lowest entry is the last one.
      rw [hzero hcutoff] at hz hlow ⊢
      apply hevicts.needed z hz
      intro j hj
      have hzweight := ((hsel.mem_freedEntries_of_zero hcutoff).mp hz).2
      have hjweight := ((hsel.mem_freedEntries_of_zero hcutoff).mp hj).2
      rw [← (hfree j hj).2, ← (hfree z hz).2]
      exact Or.inr ⟨BitVec.eq_of_toNat_eq (hjweight.trans hzweight.symm), hlow j hj⟩
    · apply hsel.sum_below_lt
      intro i hi
      obtain ⟨hlt, hweight⟩ := (mem_zeroWeight hvalid).mp (Finset.mem_of_mem_erase hi)
      exact ⟨hlt, by omega⟩
  · intro hneeded
    have htaken : cutoff = 0 →
        T = freedEntries (lockUnevictable area roots c).weights c.count cutoff T := by
      intro hcutoff
      apply hsel.taken_of_needed hcutoff
      rw [← hzero hcutoff]
      exact hneeded
    refine ⟨fun i hi => (hfree i hi).1, ?_, ?_, ?_, ?_⟩
    · by_cases hcutoff : cutoff = 0
      · exact hsel.exact_of_taken hcutoff (htaken hcutoff)
      · exact hsel.exact_of_pos (by omega)
    · have henough := hsel.enough
      have hU : unlocked area roots c = (Finset.range c.count).filter fun i =>
          ((lockUnevictable area roots c).weights i).toNat < 64 := by
        ext i
        rw [unlocked_iff hvalid, Finset.mem_filter, Finset.mem_range]
      rw [← hU] at henough
      exact henough
    · intro i hi j hj hkept
      rw [← (hfree i hi).2, ← weights_of_unlocked hvalid hj]
      exact hsel.lightest hi ((unlocked_iff hvalid).mp hj).1 hkept
    · intro i hi hlast
      have hlast' : ∀ j ∈ freedEntries (lockUnevictable area roots c).weights c.count cutoff T,
          ((lockUnevictable area roots c).weights j).toNat <
              ((lockUnevictable area roots c).weights i).toNat ∨
            ((lockUnevictable area roots c).weights j).toNat =
              ((lockUnevictable area roots c).weights i).toNat ∧ i ≤ j := by
        intro j hj
        rw [(hfree j hj).2, (hfree i hi).2, BitVec.toNat_inj]
        exact hlast j hj
      by_cases hcutoff : cutoff = 0
      · -- No entry is lighter than another one, so that the last one is the lowest.
        have hlow : ∀ j ∈ freedEntries (lockUnevictable area roots c).weights c.count cutoff T,
            i ≤ j := by
          intro j hj
          have hiweight := ((hsel.mem_freedEntries_of_zero hcutoff).mp hi).2
          have hcmp := hlast' j hj
          omega
        rw [← hzero hcutoff] at hi hlow ⊢
        exact hneeded i hi hlow
      · exact hsel.needed_of_pos (by omega) hi hlast'

/-- A compiler area with methods of 64 bytes. -/
def smallArea : Area := ⟨4096, 8192, fun _ => 64⟩

/-- Nothing refers to a compiled method. -/
def noRoots : Roots := ⟨[], fun _ => false, 0, []⟩

/-- Two methods that have not been executed for some time. -/
def idleCache : Cache :=
  { Cache.insert smallArea 4160 (Cache.insert smallArea 4096 (init fun _ => 0)) with weights := fun _ => 0 }

theorem idleCache_valid : idleCache.Valid smallArea where
  indexed := by
    show ∀ i < 2, idleCache.cacheIndex (idleCache.map i) = i
    decide
  weights := fun _ _ => show (0#8).toNat < 64 by decide
  sizes := fun _ _ => show 0 < 64 by decide

/-- Both methods are needed for 100 bytes. -/
theorem evict_iff_idleCache :
    Evicts smallArea noRoots idleCache 100 (evict smallArea noRoots 100 idleCache).2
        (evicted idleCache (evict smallArea noRoots 100 idleCache).1) ↔
      ∀ z ∈ zeroWeight smallArea noRoots idleCache, (∀ j ∈ zeroWeight smallArea noRoots idleCache,
        z ≤ j) → bytes smallArea idleCache ((zeroWeight smallArea noRoots idleCache).erase z) < 100 :=
  evict_iff idleCache_valid (by decide)

/-- For 10 bytes both methods are freed, where one would be enough and is all that is counted. -/
theorem not_evicts_idleCache :
    idleCache.Valid smallArea ∧ (evict smallArea noRoots 10 idleCache).2 = 64 ∧
      bytes smallArea idleCache (evicted idleCache (evict smallArea noRoots 10 idleCache).1) = 128 ∧
      ¬Evicts smallArea noRoots idleCache 10 (evict smallArea noRoots 10 idleCache).2
        (evicted idleCache (evict smallArea noRoots 10 idleCache).1) := by
  have hret : (evict smallArea noRoots 10 idleCache).2 = 64 := by decide
  have hbytes :
      bytes smallArea idleCache (evicted idleCache (evict smallArea noRoots 10 idleCache).1) = 128 := by
    decide
  refine ⟨idleCache_valid, hret, hbytes, fun hevicts => ?_⟩
  have hexact := hevicts.exact
  rw [hret, hbytes] at hexact
  exact absurd hexact (by decide)

end CldcVm.CodeCache
