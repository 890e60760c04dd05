import CldcVm.CodeCache.Eviction

/-!
# The generations of the cache

Over any run of compilations, calls on the cache and compactions, the cache is two lists of
compiled methods: those from before the last promotion, and the younger ones. A young collection
looks at the entries above `last_old` only (`memory/ObjectHeap.cpp`, lines 2359–2368), and the
top of the compacted area is computed from `size` (lines 4528–4530).

Result: `generations_of_run`: the steps on the cache are those on the two lists, the code of the
methods lies in the compiler area without overlaps, and no method in use is unlinked.
-/

namespace CldcVm.CodeCache

open Lib

/-- The compiled methods of the cache, and those whose code has been unlinked. -/
structure Generations where
  old : List ℕ
  young : List ℕ
  freed : List ℕ

namespace Generations

def all (g : Generations) : List ℕ := g.old ++ g.young

/-- Unlink all methods but those that `keep` holds of. -/
def remove (keep : ℕ → Bool) (g : Generations) : Generations :=
  ⟨g.old.filter keep, g.young.filter keep, g.freed ++ g.all.filter (!keep ·)⟩

end Generations

/-! ## Steps -/

/-- `compiler_area_compute_new_locations`: one method behind the other. -/
def newLocations (area : Area) : (dst : ℕ) → List ℕ → List ℕ
  | _, [] => []
  | dst, p :: ps => dst :: newLocations area (dst + area.objectSize p) ps

/-- A field of the compiled methods, when that of index `i` has been moved to `places[i]`. -/
def moved (c : Cache) (places : List ℕ) (f : ℕ → ℕ) (q : ℕ) : ℕ :=
  if places.idxOf q < places.length then f (c.map (places.idxOf q)) else f q

/-- `compact_and_move_compiler_area`, as far as the methods and the cache go. -/
def compact (start : ℕ) (area : Area) (c : Cache) : Area × Cache :=
  let places := newLocations area start c.methods
  (⟨start, (start + c.size).toNat, moved c places area.objectSize⟩,
    { c with
      map := fun i => places.getD i (c.map i)
      patchedMethod := c.patchedMethod.map fun p => places.getD (c.cacheIndex p) p
      cacheIndex := moved c places c.cacheIndex })

/-- The area with new code at its top. -/
def Area.extend (area : Area) (size : ℕ) : Area :=
  { area with
    compilerAreaTop := area.compilerAreaTop + size
    objectSize := Function.update area.objectSize area.compilerAreaTop size }

/-- What happens to the cache. New code lies at the top of the compiler area
(`compiler_area_allocate_code`). Before a timer tick compiled code has left its marks in `sensor`. -/
inductive Op where
  | insert (size : ℕ) (hpos : 0 < size)
  | alloc (roots : Roots)
  | onPromotion
  | onTimerTick (sensor : Memory)
  | degrade
  | evict (roots : Roots) (size : ℤ)
  | smartEvictUnderweight (roots : Roots)
  | cleanupUnmarked (marked : ℕ → Bool)
  | compact (start : ℕ)

/-- The frames that `lock_unevictable` looks at. -/
def visited : List Frame → List Frame
  | [] => []
  | .entry true :: _ => []
  | frame :: frames => frame :: visited frames

/-- A handle or a frame refers to the method. -/
def Roots.InUse (roots : Roots) (p : ℕ) : Prop :=
  p ∈ roots.handles.filter roots.locks ∨ ∃ frames ∈ roots.threads, .compiled p ∈ visited frames

/-- Some methods have been unlinked, but none in use. -/
def Generations.Unlinks (roots : Roots) (g g' : Generations) : Prop :=
  ∃ keep : ℕ → Bool, (∀ p ∈ g.all, roots.InUse p → keep p = true) ∧ g' = g.remove keep

namespace Op

def exec (area : Area) (c : Cache) : Op → Area × Cache
  | insert size _ => (area.extend size, c.insert (area.extend size) area.compilerAreaTop)
  | alloc roots => (area, (CodeCache.alloc area roots c).1)
  | onPromotion => (area, CodeCache.onPromotion c)
  | onTimerTick sensor => (area, CodeCache.onTimerTick { c with sensor := sensor })
  | degrade => (area, CodeCache.degrade c)
  | evict roots size => (area, (CodeCache.evict area roots size c).1)
  | smartEvictUnderweight roots => (area, (CodeCache.smartEvictUnderweight area roots c).1)
  | cleanupUnmarked marked => (area, CodeCache.cleanupUnmarked area marked c)
  | compact start => CodeCache.compact start area c

/-- What a step is on the lists. -/
def Spec (g g' : Generations) : Op → Prop
  | insert _ _ => ∃ p, g' = { g with young := g.young ++ [p] }
  | onPromotion => g' = ⟨g.all, [], g.freed⟩
  | onTimerTick _ | degrade => g' = g
  | cleanupUnmarked marked => g' = g.remove marked
  | alloc roots | evict roots _ | smartEvictUnderweight roots => g.Unlinks roots g'
  | compact _ => ∃ places : List ℕ, places.length = g.all.length ∧
    g' = ⟨places.take g.old.length, places.drop g.old.length, g.freed⟩

end Op

/-- The cache is the two lists, one after the other, in the order of the code. -/
structure Refines (area : Area) (c : Cache) (g : Generations) : Prop where
  upb_ge : -1 ≤ c.upb
  methods : c.methods = g.all
  lastOld : c.lastOld = (g.old.length : ℤ) - 1
  freed : c.freed = g.freed
  start_le : area.compilerAreaStart ≤ area.compilerAreaTop
  placed : ∀ p ∈ g.all, 0 < area.objectSize p ∧ area.compilerAreaStart ≤ p ∧
    p + area.objectSize p ≤ area.compilerAreaTop
  apart : g.all.Pairwise fun p q => p + area.objectSize p ≤ q
  indexed : c.Indexed
  size : c.size = (g.all.map fun p => (area.objectSize p : ℤ)).sum

variable {area : Area} {c c' : Cache} {g : Generations} {roots : Roots} {p i : ℕ}

theorem Refines.ascending (h : Refines area c g) : g.all.Pairwise (· < ·) := by
  refine h.apart.imp_of_mem fun hp _ hle => ?_
  have hpos := (h.placed _ hp).1
  omega

theorem Refines.count_eq (h : Refines area c g) : c.count = g.all.length := by
  rw [← h.methods, Cache.methods, List.length_map, List.length_range]

theorem Refines.reweigh (h : Refines area c g) (w q : Memory) :
    Refines area { c with weights := w, sensor := q } g :=
  ⟨h.upb_ge, h.methods, h.lastOld, h.freed, h.start_le, h.placed, h.apart, h.indexed, h.size⟩

/-! ## Removals -/

variable {keep : Cache → ℕ → Bool} {K : Entry → Bool} {patch : Cache → Option ℕ}
  {left src next : ℕ}

/-- What is moved knows its new index, and what is still to be moved its old one. -/
theorem compactEntries_indexed (hle : next ≤ src)
    (h : ∀ i, i < next ∨ src ≤ i ∧ i < src + left → c.cacheIndex (c.map i) = i) :
    ∀ i < (compactEntries area keep left src next c).1,
      (compactEntries area keep left src next c).2.cacheIndex
        ((compactEntries area keep left src next c).2.map i) = i := by
  induction left generalizing src next c with
  | zero => exact fun i hi => h i (.inl hi)
  | succ left ih =>
    rw [compactEntries]
    split
    · refine ih (by omega) fun i hi => ?_
      show Function.update c.cacheIndex (c.map src) next
        (Function.update c.map next (c.map src) i) = i
      by_cases hin : i = next
      · simp [hin]
      · have hold := h i (by omega)
        rw [Function.update_of_ne hin, Function.update_of_ne, hold]
        intro heq
        rw [heq, h src (by omega)] at hold
        omega
    · exact ih (c := dropEntry area src c) (by omega) fun i hi => h i (by omega)

/-- The scan ends at the last of `k` entries that are not above the threshold. -/
theorem lastNotAbove_eq {map : ℕ → ℕ} {threshold n k : ℕ} (hle : k ≤ n)
    (hlow : ∀ i < k, map i ≤ threshold) (hhigh : ∀ i < n, k ≤ i → threshold < map i) :
    lastNotAbove map threshold n = (k : ℤ) - 1 := by
  induction n with
  | zero => simp [lastNotAbove, Nat.le_zero.mp hle]
  | succ n ih =>
    rw [lastNotAbove]
    by_cases hk : k = n + 1
    · have hlast := hlow n (by omega)
      rw [if_neg (by omega)]
      omega
    · rw [if_pos (hhigh n n.lt_succ_self (by omega))]
      exact ih (by omega) fun i hi => hhigh i (by omega)

theorem map_of_methods {l : List ℕ} (h : c.methods = l) {i : ℕ} (hi : i < l.length) :
    c.map i = l[i] := by
  subst h
  simp [Cache.methods]

/-- The threshold of a removal is between the two lists. -/
theorem Refines.threshold (h : Refines area c g) : (∀ p ∈ g.old, p ≤ computeThreshold c) ∧
      (g.old ≠ [] → ∀ p ∈ g.young, computeThreshold c < p) := by
  obtain ⟨hold, -, hless⟩ := List.pairwise_append.mp h.ascending
  rcases List.eq_nil_or_concat g.old with hnil | ⟨before, last, heq⟩
  · simp [hnil]
  · rw [List.concat_eq_append] at heq
    have hthreshold : computeThreshold c = last := by
      have hlast := h.lastOld
      rw [heq, List.length_append, List.length_singleton] at hlast
      have hlength := congrArg List.length heq
      rw [computeThreshold, if_pos (by omega), map_of_methods h.methods
        (by rw [Generations.all, heq]; simp; omega)]
      simp [Generations.all, heq, show c.lastOld.toNat = before.length by omega]
    rw [hthreshold]
    refine ⟨fun p hp => ?_, fun _ p hp => hless last (by simp [heq]) p hp⟩
    rw [heq] at hp hold
    rcases List.mem_append.mp hp with hp | hp
    · exact ((List.pairwise_append.mp hold).2.2 p hp last (by simp)).le
    · exact (List.mem_singleton.mp hp).le

theorem map_filter_entries {k : ℕ → Bool} (h : ∀ e ∈ c.entries, k e.method = K e) :
    (c.entries.filter K).map Entry.method = c.methods.filter k := by
  rw [methods_eq, List.filter_map]
  exact congrArg _ (List.filter_congr fun e he => (h e he).symm)

theorem Refines.entry_cacheIndex (h : Refines area c g) {e : Entry} (he : e ∈ c.entries) :
    c.entry (c.cacheIndex e.method) = e := by
  obtain ⟨i, hi, rfl⟩ := List.mem_map.mp he
  exact congrArg c.entry (h.indexed i (List.mem_range.mp hi))

/-- **Step lemma**: a removal filters the two lists. -/
theorem Refines.removeEntries (h : Refines area c g) (hkeep : ∀ c i, keep c i = K (c.entry i))
    {k : ℕ → Bool} (hK : ∀ e ∈ c.entries, k e.method = K e) :
    Refines area (CodeCache.removeEntries area keep patch c) (g.remove k) := by
  have hnot : (c.entries.filter (!K ·)).map Entry.method = g.all.filter (!k ·) := by
    rw [← h.methods]
    exact map_filter_entries fun e he => by rw [hK e he]
  have hmethods : (CodeCache.removeEntries area keep patch c).methods = (g.remove k).all := by
    rw [methods_eq, removeEntries_entries hkeep, map_filter_entries hK, h.methods]
    exact List.filter_append _ _
  have hfreed := @removeEntries_freed area c keep K patch hkeep
  rw [hnot, h.freed] at hfreed
  obtain ⟨hall, heq⟩ | ⟨src, hsrc, hbefore, -, heq⟩ :=
    @removeEntries_cases area c keep K patch hkeep
  · have hkeeps : ∀ p ∈ g.all, k p = true := by
      intro p hp
      rw [← h.methods, methods_eq] at hp
      obtain ⟨e, he, rfl⟩ := List.mem_map.mp hp
      exact (hK e he).trans (hall e he)
    have hsame : (g.remove k).old = g.old :=
      List.filter_eq_self.mpr fun p hp => hkeeps p (List.mem_append_left _ hp)
    rw [heq] at hmethods hfreed ⊢
    have hgall := h.methods.symm.trans hmethods
    exact ⟨h.upb_ge, hmethods, hsame ▸ h.lastOld, hfreed, h.start_le, hgall ▸ h.placed,
      hgall ▸ h.apart, h.indexed, hgall ▸ h.size⟩
  · set c₁ : Cache := { c with patchedMethod := patch c }
    set r := compactEntries area keep (c.entries.drop src).length src src c₁
    have hlast : r.2.lastOld = c.lastOld := compactEntries_frame.2.1
    have hsize : r.2.size = c.size - (((c.entries.drop src).filter (!K ·)).map fun e =>
        (area.objectSize e.method : ℤ)).sum :=
      (@compactEntries_freed area c₁ _ src src keep K hkeep (holds_drop hsrc) le_rfl).2
    have hindexed := @compactEntries_indexed area c₁ keep (c.entries.drop src).length src src le_rfl
      fun i hi => h.indexed i (by
        rw [List.length_drop, length_entries] at hi
        omega)
    rw [← filter_not_of_prefix hbefore] at hsize
    rw [heq] at hmethods hfreed ⊢
    have hfilter : (g.remove k).all = g.all.filter k := (List.filter_append _ _).symm
    have hcount : ((r.1 : ℤ) - 1 + 1).toNat = r.1 := by omega
    have hlength : r.1 = (g.remove k).all.length := by
      rw [← hmethods, Cache.methods, List.length_map, List.length_range, ← hcount]
      rfl
    refine ⟨show -1 ≤ (r.1 : ℤ) - 1 by omega, hmethods, ?_, hfreed, h.start_le, ?_, ?_, ?_, ?_⟩
    · obtain ⟨hlow, hhigh⟩ := h.threshold
      have hold := h.lastOld
      have hle := List.length_filter_le k g.old
      have hkept : (g.remove k).old.length = (g.old.filter k).length := rfl
      have hall : (g.remove k).all.length = (g.old.filter k).length + (g.young.filter k).length :=
        List.length_append
      show lastNotAbove r.2.map (computeThreshold c) (min r.2.lastOld ((r.1 : ℤ) - 1) + 1).toNat = _
      rw [hlast]
      refine lastNotAbove_eq (by omega) (fun i hi => ?_) fun i hi hge => ?_
      · have hi' : i < (g.old.filter k).length := by omega
        rw [show r.2.map i = (g.remove k).all[i] from map_of_methods hmethods (by omega)]
        refine hlow _ (List.mem_of_mem_filter (p := k) ?_)
        simp only [Generations.all, Generations.remove, List.getElem_append_left hi']
        exact List.getElem_mem _
      · have hge' : (g.old.filter k).length ≤ i := by omega
        have hne : g.old ≠ [] := fun hnil => by
          rw [hnil, List.length_nil] at hold
          omega
        rw [show r.2.map i = (g.remove k).all[i] from map_of_methods hmethods (by omega)]
        refine hhigh hne _ (List.mem_of_mem_filter (p := k) ?_)
        simp only [Generations.all, Generations.remove, List.getElem_append_right hge']
        exact List.getElem_mem _
    · rw [hfilter]
      exact fun p hp => h.placed p (List.mem_of_mem_filter hp)
    · rw [hfilter]
      exact h.apart.filter k
    · intro i hi
      exact hindexed i (hcount ▸ hi)
    · have hparts := ((List.filter_append_perm k g.all).map
        fun p => (area.objectSize p : ℤ)).sum_eq
      rw [List.map_append, List.sum_append, ← hnot, List.map_map] at hparts
      show r.2.size = _
      rw [hsize, hfilter, h.size, ← hparts]
      exact add_sub_cancel_right _ _

/-! ## Locks -/

theorem LockedFrom.locked (h : LockedFrom c c') (hi : 128 ≤ (c.weights i).toNat) :
    128 ≤ (c'.weights i).toNat := by
  obtain heq | heq := h.weights i
  · rwa [heq]
  · rw [heq]
    exact or_lockMask_ge _

theorem LockedFrom.cacheIndex_eq (h : LockedFrom c c') : c'.cacheIndex = c.cacheIndex := by
  rw [h.eq]

theorem locked_lock (hindex : area.hasIndex p = true) :
    128 ≤ ((lock area p c).weights (c.cacheIndex p)).toNat := by
  rw [lock, if_pos hindex]
  dsimp only
  rw [Function.update_self]
  exact or_lockMask_ge _

theorem locked_lockFrames (hindex : area.hasIndex p = true) {frames : List Frame}
    (hp : .compiled p ∈ visited frames) :
    128 ≤ ((lockFrames area frames c).weights (c.cacheIndex p)).toNat := by
  induction frames generalizing c with
  | nil => exact absurd hp List.not_mem_nil
  | cons frame frames ih =>
    cases frame with
    | entry isFirst =>
      cases isFirst with
      | true => exact absurd hp List.not_mem_nil
      | false => exact ih (by simpa [visited] using hp)
    | interpreted => exact ih (by simpa [visited] using hp)
    | compiled q =>
      rcases List.mem_cons.mp hp with heq | hp
      · cases heq
        exact (lockedFrom_lockFrames frames _).locked (locked_lock hindex)
      · have hlock := ih (c := lock area q c) hp
        rwa [(lockedFrom_lock q c).cacheIndex_eq] at hlock

theorem locked_foldl {β : Type} {f : Cache → β → Cache} (hf : ∀ c b, LockedFrom c (f c b))
    {bs : List β} {b : β} (hb : b ∈ bs)
    (h : ∀ c', c'.cacheIndex = c.cacheIndex → 128 ≤ ((f c' b).weights i).toNat) :
    128 ≤ ((bs.foldl f c).weights i).toNat := by
  induction bs generalizing c with
  | nil => exact absurd hb List.not_mem_nil
  | cons b' bs ih =>
    rcases List.mem_cons.mp hb with rfl | hb
    · exact (lockedFrom_foldl f hf bs _).locked (h c rfl)
    · exact ih hb fun c' hc' => h c' (hc'.trans (hf c b').cacheIndex_eq)

theorem locked_lockUnevictable (hindex : area.hasIndex p = true) (hp : roots.InUse p) :
    128 ≤ ((lockUnevictable area roots c).weights (c.cacheIndex p)).toNat := by
  have hhandles := lockedFrom_foldl _ (fun c p => @lockedFrom_lock area p c)
    (roots.handles.filter roots.locks) c
  have hframes : ∀ c frames, LockedFrom c (lockFrames area frames c) :=
    fun c frames => lockedFrom_lockFrames frames c
  rcases hp with hp | ⟨frames, hframes', hp⟩
  · refine (lockedFrom_foldl _ hframes roots.threads _).locked ?_
    exact locked_foldl (fun c p => lockedFrom_lock p c) hp fun c' hc' => hc' ▸ locked_lock hindex
  · refine locked_foldl hframes hframes' fun c' hc' => ?_
    rw [← hhandles.cacheIndex_eq, ← hc']
    exact locked_lockFrames hindex hp

theorem findCutoff_le (h : ℕ → ℤ) (left weight : ℕ) (size : ℤ) :
    (findCutoff h left weight size).1 ≤ weight + left := by
  induction left generalizing weight size with
  | zero => exact le_rfl
  | succ left ih =>
    rw [findCutoff]
    split
    · exact Nat.le_add_right _ _
    · exact (ih _ _).trans (by omega)

theorem sweepOf_ne_zero {size : ℤ} (hi : 128 ≤ (c.weights i).toNat) :
    (sweepOf area c size).1 i ≠ 0 := by
  obtain ⟨T, htakes, hval⟩ := @sweep_spec area c.map (cutoffOf area c size).1 c.count c.weights
    (cutoffOf area c size).2
  have hle : (cutoffOf area c size).1 ≤ 0 + 64 := findCutoff_le _ _ _ _
  have hkept : ¬(i ∈ T ∨ i < c.count ∧ (c.weights i).toNat < (cutoffOf area c size).1) := by
    rintro (hT | ⟨-, hlt⟩)
    · have hweight := htakes.weight i hT
      omega
    · omega
  rw [show (sweepOf area c size).1 i = _ from hval i, if_neg hkept]
  intro hzero
  rw [hzero] at hi
  exact absurd hi (by decide)

/-! ## Calls -/

theorem unlinks_none : g.Unlinks roots g :=
  ⟨fun _ => true, fun _ _ _ => rfl, by simp [Generations.remove]⟩

theorem Refines.evictUnlocked (h : Refines area c g) {w : Memory}
    (hw : ∀ i, 128 ≤ ((lockUnevictable area roots c).weights i).toNat → w i ≠ 0) :
    ∃ g', g.Unlinks roots g' ∧ Refines area
      (unlock (evictZeroWeight area { lockUnevictable area roots c with weights := w })) g' := by
  refine ⟨_, ⟨fun p => w (c.cacheIndex p) != 0, fun p hp huse => ?_, rfl⟩, ?_⟩
  · obtain ⟨hpos, hstart, htop⟩ := h.placed p hp
    refine bne_iff_ne.mpr (hw _ (locked_lockUnevictable ?_ huse))
    rw [Area.hasIndex, Bool.and_eq_true, decide_eq_true_eq, decide_eq_true_eq]
    omega
  · rw [lockedFrom_lockUnevictable.eq]
    have hc := h.reweigh w c.sensor
    exact (hc.removeEntries keepWeighted fun e he =>
      congrArg Entry.isWeighted (hc.entry_cacheIndex he)).reweigh _ _

theorem Refines.smartEvictUnderweight (h : Refines area c g) (roots : Roots) :
    ∃ g', g.Unlinks roots g' ∧
      Refines area (CodeCache.smartEvictUnderweight area roots c).1 g' := by
  rw [CodeCache.smartEvictUnderweight]
  split
  · refine h.evictUnlocked fun i hi hzero => ?_
    exact absurd (hzero ▸ hi) (by decide)
  · exact ⟨g, unlinks_none, h⟩

theorem Refines.evict (h : Refines area c g) (roots : Roots) (size : ℤ) :
    ∃ g', g.Unlinks roots g' ∧ Refines area (CodeCache.evict area roots size c).1 g' := by
  by_cases hupb : c.upb < 0
  · rw [CodeCache.evict, if_pos hupb]
    exact ⟨g, unlinks_none, h⟩
  · rw [evict_eq (not_lt.mp hupb)]
    refine h.evictUnlocked fun i hi hzero => ?_
    exact sweepOf_ne_zero hi hzero

theorem Refines.onPromotion (h : Refines area c g) :
    Refines area (CodeCache.onPromotion c) ⟨g.all, [], g.freed⟩ := by
  have hall : Generations.all ⟨g.all, [], g.freed⟩ = g.all := List.append_nil _
  have hcount := h.count_eq
  have hge := h.upb_ge
  rw [Cache.count] at hcount
  exact ⟨hge, hall.symm ▸ h.methods, show c.upb = (g.all.length : ℤ) - 1 by omega, h.freed,
    h.start_le, hall.symm ▸ h.placed, hall.symm ▸ h.apart, h.indexed, hall.symm ▸ h.size⟩

theorem Refines.objectSize_extend (h : Refines area c g) (hp : p ∈ g.all) (size : ℕ) :
    (area.extend size).objectSize p = area.objectSize p :=
  Function.update_of_ne (by have hplaced := h.placed p hp; omega) _ _

theorem Refines.extend (h : Refines area c g) (size : ℕ) : Refines (area.extend size) c g where
  upb_ge := h.upb_ge
  methods := h.methods
  lastOld := h.lastOld
  freed := h.freed
  start_le := Nat.le_add_right_of_le h.start_le
  placed p hp := by
    obtain ⟨hpos, hstart, htop⟩ := h.placed p hp
    rw [h.objectSize_extend hp]
    exact ⟨hpos, hstart, Nat.le_add_right_of_le htop⟩
  apart := h.apart.imp_of_mem fun hp _ hle => by rwa [h.objectSize_extend hp]
  indexed := h.indexed
  size := h.size.trans (congrArg _ (List.map_congr_left fun p hp => by
    rw [h.objectSize_extend hp]))

theorem Refines.insert (h : Refines area c g) (hpos : 0 < area.objectSize p)
    (hstart : area.compilerAreaStart ≤ p) (htop : p + area.objectSize p ≤ area.compilerAreaTop)
    (hbelow : ∀ q ∈ g.all, q + area.objectSize q ≤ p) :
    Refines area (c.insert area p) { g with young := g.young ++ [p] } := by
  have hall : g.old ++ (g.young ++ [p]) = g.all ++ [p] := (List.append_assoc _ _ _).symm
  have hge := h.upb_ge
  have hcount : (c.insert area p).count = c.count + 1 := by
    show (c.upb + 1 + 1).toNat = (c.upb + 1).toNat + 1
    omega
  have hmap : ∀ i < c.count, (c.insert area p).map i = c.map i := fun i hi =>
    Function.update_of_ne (by rw [Cache.count] at hi; omega) _ _
  have hlast : (c.insert area p).map c.count = p := Function.update_self _ _ _
  refine ⟨show -1 ≤ c.upb + 1 by omega, ?_, h.lastOld, h.freed, h.start_le, ?_, ?_, fun i hi => ?_,
    ?_⟩
  · rw [Generations.all, hall, ← h.methods, Cache.methods, hcount, List.range_succ,
      List.map_append, List.map_singleton, hlast]
    exact congrArg (· ++ [p]) (List.map_congr_left fun i hi => hmap i (List.mem_range.mp hi))
  · rw [Generations.all, hall, List.forall_mem_append, List.forall_mem_singleton]
    exact ⟨h.placed, hpos, hstart, htop⟩
  · rw [Generations.all, hall, List.pairwise_append]
    refine ⟨h.apart, List.pairwise_singleton _ _, fun q hq r hr => ?_⟩
    rw [List.mem_singleton.mp hr]
    exact hbelow q hq
  · rw [hcount] at hi
    rcases Nat.lt_succ_iff_lt_or_eq.mp hi with hi | rfl
    · have hmem : c.map i ∈ g.all := h.methods ▸ List.mem_map_of_mem (List.mem_range.mpr hi)
      have hplaced := h.placed _ hmem
      have hle := hbelow _ hmem
      rw [hmap i hi]
      exact (Function.update_of_ne (by omega) _ _).trans (h.indexed i hi)
    · rw [hlast]
      exact Function.update_self _ _ _
  · show c.size + area.objectSize p = _
    rw [Generations.all, hall, h.size]
    simp

/-! ## Compactions -/

theorem length_newLocations (dst : ℕ) (l : List ℕ) :
    (newLocations area dst l).length = l.length := by
  induction l generalizing dst with
  | nil => rfl
  | cons p l ih => rw [newLocations, List.length_cons, ih, List.length_cons]

/-- Methods of the old sizes lie one behind the other. -/
theorem newLocations_apart {s : ℕ → ℕ} {dst : ℕ} {l : List ℕ}
    (hs : (newLocations area dst l).map s = l.map area.objectSize) :
    (newLocations area dst l).Pairwise (fun p q => p + s p ≤ q) ∧
      ∀ q ∈ newLocations area dst l, dst ≤ q ∧ q + s q ≤ dst + (l.map area.objectSize).sum := by
  induction l generalizing dst with
  | nil => exact ⟨List.Pairwise.nil, fun q hq => absurd hq List.not_mem_nil⟩
  | cons p l ih =>
    rw [newLocations, List.map_cons, List.map_cons] at hs
    obtain ⟨hfirst, hrest⟩ := List.cons.inj hs
    obtain ⟨hpairwise, hbounds⟩ := ih hrest
    rw [newLocations, List.pairwise_cons, List.forall_mem_cons, List.map_cons, List.sum_cons, hfirst]
    refine ⟨⟨fun q hq => (hbounds q hq).1, hpairwise⟩, by omega, fun q hq => ?_⟩
    have hq := hbounds q hq
    omega

theorem newLocations_ascending (dst : ℕ) {l : List ℕ} (hpos : ∀ p ∈ l, 0 < area.objectSize p) :
    (newLocations area dst l).Pairwise (· < ·) ∧ ∀ q ∈ newLocations area dst l, dst ≤ q := by
  induction l generalizing dst with
  | nil => exact ⟨List.Pairwise.nil, fun q hq => absurd hq List.not_mem_nil⟩
  | cons p l ih =>
    obtain ⟨hp, hl⟩ := List.forall_mem_cons.mp hpos
    obtain ⟨hpairwise, hge⟩ := ih (dst + area.objectSize p) hl
    rw [newLocations, List.pairwise_cons, List.forall_mem_cons]
    refine ⟨⟨fun q hq => ?_, hpairwise⟩, le_rfl, fun q hq => ?_⟩ <;>
    · have hq := hge q hq
      omega

/-- **Step lemma**: a compaction moves the methods, one to one. -/
theorem Refines.compact (h : Refines area c g) (start : ℕ) :
    ∃ places : List ℕ, places.length = g.all.length ∧ Refines (CodeCache.compact start area c).1
      (CodeCache.compact start area c).2
      ⟨places.take g.old.length, places.drop g.old.length, g.freed⟩ := by
  have hlength := @length_newLocations area start c.methods
  obtain ⟨hascending, -⟩ := @newLocations_ascending area start c.methods fun p hp =>
    (h.placed p (h.methods ▸ hp)).1
  refine ⟨newLocations area start c.methods, by rw [hlength, h.methods], ?_⟩
  rw [CodeCache.compact]
  set places := newLocations area start c.methods with hplaces
  have hcount : places.length = c.count := by rw [hlength, h.methods, h.count_eq]
  have hmoved : ∀ f : ℕ → ℕ, ∀ i (hi : i < places.length),
      moved c places f places[i] = f (c.map i) := by
    intro f i hi
    have hidx : places.idxOf places[i] = i :=
      List.Nodup.idxOf_getElem (hascending.imp fun h => h.ne) i hi
    rw [moved, hidx, if_pos hi]
  have hs : places.map (moved c places area.objectSize) = c.methods.map area.objectSize := by
    refine List.ext_getElem (by simp [hlength]) fun i hi hi' => ?_
    rw [List.length_map] at hi
    simp [hmoved _ i hi, Cache.methods]
  obtain ⟨hapart, hbounds⟩ := newLocations_apart hs
  have hsum : c.size = ((c.methods.map area.objectSize).sum : ℕ) := by
    rw [h.size, h.methods, Nat.cast_list_sum, List.map_map]
    rfl
  have hall : places.take g.old.length ++ places.drop g.old.length = places :=
    List.take_append_drop _ _
  have hmap : ∀ i (hi : i < places.length), places.getD i (c.map i) = places[i] :=
    fun i hi => List.getD_eq_getElem _ _ hi
  refine ⟨h.upb_ge, ?_, ?_, h.freed, ?_, ?_, ?_, fun i hi => ?_, ?_⟩ <;>
    dsimp only [Generations.all]
  · rw [hall]
    refine List.ext_getElem ?_ fun i hi hi' => ?_
    · rw [hcount, Cache.methods, List.length_map, List.length_range]
      rfl
    · simp [Cache.methods, hi']
  · rw [h.lastOld, List.length_take, hlength, h.methods, Generations.all, List.length_append,
      min_eq_left (Nat.le_add_right _ _)]
  · omega
  · rw [hall]
    intro q hq
    obtain ⟨i, hi, rfl⟩ := List.mem_iff_getElem.mp hq
    obtain ⟨hstart, htop⟩ := hbounds _ hq
    refine ⟨?_, hstart, by omega⟩
    rw [hmoved _ i hi]
    refine (h.placed _ (h.methods ▸ List.mem_map_of_mem (List.mem_range.mpr ?_))).1
    omega
  · rw [hall]
    exact hapart
  · have hi' : i < c.count := hi
    show moved c places c.cacheIndex (places.getD i (c.map i)) = i
    rw [hmap i (by omega), hmoved _ i (by omega)]
    exact h.indexed i hi'
  · rw [hall, hsum, ← hs, Nat.cast_list_sum, List.map_map]
    rfl

/-! ## Runs -/

/-- **Step lemma**: a step is what it is on the lists. -/
theorem Refines.exec (h : Refines area c g) (op : Op) :
    ∃ g', op.Spec g g' ∧ Refines (op.exec area c).1 (op.exec area c).2 g' := by
  cases op with
  | insert size hpos =>
    have hself : (area.extend size).objectSize area.compilerAreaTop = size :=
      Function.update_self _ _ _
    refine ⟨_, ⟨_, rfl⟩, (h.extend size).insert (hself.symm ▸ hpos) h.start_le ?_ fun q hq => ?_⟩
    · rw [hself]
      exact le_rfl
    · rw [h.objectSize_extend hq]
      exact (h.placed q hq).2.2
  | alloc roots =>
    show ∃ g', g.Unlinks roots g' ∧ Refines area (CodeCache.alloc area roots c).1 g'
    rw [CodeCache.alloc]
    split_ifs
    · dsimp only
      split_ifs <;> exact h.smartEvictUnderweight roots
    · exact ⟨g, unlinks_none, h⟩
  | onPromotion => exact ⟨_, rfl, h.onPromotion⟩
  | onTimerTick sensor =>
    refine ⟨g, rfl, ?_⟩
    show Refines area (CodeCache.onTimerTick { c with sensor := sensor }) g
    rw [CodeCache.onTimerTick]
    dsimp only
    split_ifs <;> exact h.reweigh _ _
  | degrade => exact ⟨g, rfl, h.reweigh _ c.sensor⟩
  | evict roots size => exact h.evict roots size
  | smartEvictUnderweight roots => exact h.smartEvictUnderweight roots
  | cleanupUnmarked marked =>
    exact ⟨_, rfl, h.removeEntries (K := Entry.isMarked marked) (keepMarked marked) fun _ _ => rfl⟩
  | compact start =>
    obtain ⟨places, hlength, hcompact⟩ := h.compact start
    exact ⟨_, ⟨places, hlength, rfl⟩, hcompact⟩

/-- The steps on the lists. -/
def Steps : List Op → Generations → Generations → Prop
  | [], g, g' => g = g'
  | op :: ops, g, g' => ∃ next, op.Spec g next ∧ Steps ops next g'

/-- **Main theorem**: over any run, from an empty compiler area on, the steps on the cache are those
on the two lists. -/
theorem generations_of_run (start : ℕ) (objectSize cacheIndex : ℕ → ℕ) (ops : List Op) :
    ∃ g, Steps ops ⟨[], [], []⟩ g ∧
      let s := ops.foldl (fun s op => op.exec s.1 s.2) (⟨start, start, objectSize⟩, init cacheIndex)
      Refines s.1 s.2 g := by
  have hrun : ∀ (s : Area × Cache) (g : Generations), Refines s.1 s.2 g → ∃ g', Steps ops g g' ∧
      Refines (ops.foldl (fun s op => op.exec s.1 s.2) s).1
        (ops.foldl (fun s op => op.exec s.1 s.2) s).2 g' := by
    induction ops with
    | nil => exact fun s g h => ⟨g, rfl, h⟩
    | cons op ops ih =>
      intro s g h
      obtain ⟨next, hspec, hnext⟩ := h.exec op
      obtain ⟨g', hsteps, hg'⟩ := ih _ _ hnext
      exact ⟨g', ⟨next, hspec, hsteps⟩, hg'⟩
  exact hrun _ _ ⟨le_rfl, rfl, rfl, rfl, le_rfl, fun p hp => absurd hp List.not_mem_nil,
    List.Pairwise.nil, fun i hi => absurd hi (Nat.not_lt_zero i), rfl⟩

end CldcVm.CodeCache
