import CldcVm.Romizer.MergedEntries
import Mathlib.Algebra.Order.BigOperators.Group.Finset
import Mathlib.Order.Interval.Finset.Nat

/-!
# The capacity of the merged pool

Results:

* `sound_iff_fits`: the merged pool is right in every state of the run, if and only if the entries
  that the classes take from other pools fit.
* `merged_pool_overflow`: entries of another pool that do not fit.
-/

namespace CldcVm.Romizer

open Lib.Interning

/-! ## The entries of a class -/

/-- The entries that have been merged since the last allocation. -/
def Session.merged (s : Session) : Finset Entry :=
  (s.calls.filterMap fun c => c.pool.entryAt c.index).toFinset

def Request.isOwn {constants : ConstantPool} : Request constants → Bool
  | own _ _ => true
  | other _ _ _ => false

/-- The entries that are asked for in the class's own pool, and those in other pools. -/
def SystemClass.ownEntries (c : SystemClass) : Finset Entry :=
  (entriesOf ((c.requests.filter (·.isOwn)).map fun r => (r.pool, r.index))).toFinset

def SystemClass.otherEntries (c : SystemClass) : Finset Entry :=
  (entriesOf ((c.requests.filter (!·.isOwn)).map fun r => (r.pool, r.index))).toFinset

/-- The number of slots that entries take. -/
def slotsOf (entries : Finset Entry) : ℕ := ∑ e ∈ entries, Entry.width e

/-- The entries of other pools, without those that the class also has in its own or that have been
merged, fit in the slots that are left by the merged entries and the class's own new ones. -/
def Session.Fits (s : Session) (c : SystemClass) : Prop :=
  slotsOf (c.otherEntries \ (s.merged ∪ c.ownEntries)) ≤
    s.rewriter.predictedMergedPoolSize -
      (s.rewriter.mergedEntriesCount + slotsOf (c.ownEntries \ s.merged))

variable {rs : List (ConstantPool × ℕ)}

theorem entriesOf_mem {e : Entry} :
    e ∈ entriesOf rs ↔ ∃ r ∈ rs, r.1.entryAt r.2 = some e := List.mem_filterMap

theorem SystemClass.entries_asks (c : SystemClass) :
    (entriesOf c.asks).toFinset = c.ownEntries ∪ c.otherEntries := by
  ext e
  simp only [SystemClass.ownEntries, SystemClass.otherEntries, SystemClass.asks,
    Finset.mem_union, List.mem_toFinset, entriesOf_mem, List.mem_map, List.mem_filter]
  constructor
  · rintro ⟨r, ⟨q, hq, rfl⟩, he⟩
    cases hown : q.isOwn with
    | true => exact .inl ⟨_, ⟨q, ⟨hq, hown⟩, rfl⟩, he⟩
    | false => exact .inr ⟨_, ⟨q, ⟨hq, by simp [hown]⟩, rfl⟩, he⟩
  · rintro (⟨r, ⟨q, ⟨hq, -⟩, rfl⟩, he⟩ | ⟨r, ⟨q, ⟨hq, -⟩, rfl⟩, he⟩)
    · exact ⟨_, ⟨q, hq, rfl⟩, he⟩
    · exact ⟨_, ⟨q, hq, rfl⟩, he⟩

theorem Request.isEntry {constants : ConstantPool} (r : Request constants) :
    r.pool.IsEntry r.index := by
  cases r with
  | own i h => exact h
  | other pool i h => exact h

theorem SystemClass.asks_isSome (c : SystemClass) : ∀ r ∈ c.asks, (r.1.entryAt r.2).isSome := by
  intro r hr
  obtain ⟨q, -, rfl⟩ := List.mem_map.1 hr
  simpa [ConstantPool.entryAt] using q.isEntry.resolved

variable {i : ℕ}

theorem ConstantPool.IsEntry.apart {pool : ConstantPool} {j : ℕ} (hj : pool.IsEntry j)
    (hlt : i < j) : i + (pool.tagAt i).width ≤ j := by
  have hle : (pool.tagAt i).width ≤ 2 := by
    rw [Tag.width]
    split <;> omega
  by_cases hnext : j = i + 1
  · rw [hj.first i hnext, hnext]
  · omega

theorem sum_width_le_length {pool : ConstantPool} {is : Finset ℕ} (h : ∀ i ∈ is, pool.IsEntry i) :
    ∑ i ∈ is, (pool.tagAt i).width ≤ pool.length := by
  have hdisjoint : ∀ i ∈ is, ∀ j ∈ is, i ≠ j → Disjoint (Finset.Ico i (i + (pool.tagAt i).width))
        (Finset.Ico j (j + (pool.tagAt j).width)) := by
    intro i hi j hj hne
    rw [Finset.disjoint_left]
    intro a ha ha'
    rw [Finset.mem_Ico] at ha ha'
    obtain hlt | hlt := Nat.lt_or_gt_of_ne hne
    · have := (h j hj).apart hlt
      omega
    · have := (h i hi).apart hlt
      omega
  calc ∑ i ∈ is, (pool.tagAt i).width
      = ∑ i ∈ is, (Finset.Ico i (i + (pool.tagAt i).width)).card := by simp
    _ = (is.biUnion fun i => Finset.Ico i (i + (pool.tagAt i).width)).card :=
        (Finset.card_biUnion hdisjoint).symm
    _ ≤ (Finset.range pool.length).card := by
        refine Finset.card_le_card (Finset.biUnion_subset.2 fun i hi a ha => ?_)
        have := (h i hi).inside
        rw [Finset.mem_Ico] at ha
        exact Finset.mem_range.2 (by omega)
    _ = pool.length := Finset.card_range _

theorem ownEntries_slots_le (c : SystemClass) : slotsOf c.ownEntries ≤ c.constants.length := by
  have hindex : ∀ e ∈ c.ownEntries, ∃ i,
      c.constants.IsEntry i ∧ c.constants.entryAt i = some e := by
    intro e he
    obtain ⟨p, hp, hentry⟩ := entriesOf_mem.1 (List.mem_toFinset.1 he)
    obtain ⟨r, hr, rfl⟩ := List.mem_map.1 hp
    cases r with
    | own i h => exact ⟨i, h, hentry⟩
    | other pool i h => simp [Request.isOwn] at hr
  choose! f hf using hindex
  have hinjective : Set.InjOn f c.ownEntries := by
    intro e he e' he' heq
    have hsame := (hf e he).2
    rw [heq, (hf e' he').2] at hsame
    exact (Option.some.inj hsame).symm
  calc slotsOf c.ownEntries
      = ∑ e ∈ c.ownEntries, (c.constants.tagAt (f e)).width := by
        refine Finset.sum_congr rfl fun e he => ?_
        rw [(ConstantPool.entryAt_eq_some.1 (hf e he).2).1]
        rfl
    _ = ∑ i ∈ c.ownEntries.image f, (c.constants.tagAt i).width :=
        (by rw [Finset.sum_image hinjective])
    _ ≤ c.constants.length := by
        refine sum_width_le_length fun i hi => ?_
        obtain ⟨e, he, rfl⟩ := Finset.mem_image.1 hi
        exact (hf e he).1

/-! ## The run -/

variable {heap : Heap} {image : Image} {k k' : Config}

/-- What holds in every state: the session is that of the entries merged so far, the entries that
are still asked for can be merged, and the merged pool has the predicted size. -/
structure Keeps (heap : Heap) (image : Image) (k : Config) (ks : List Entry) : Prop where
  interned : Interned heap k.session ks
  todo : ∀ r ∈ k.todo, (r.1.entryAt r.2).isSome
  size : k.session.rewriter.predictedMergedPoolSize = image.predictedSize
  length : k.session.rewriter.mergedPool.length = image.predictedSize

variable {s : Session} {ks : List Entry}

theorem Interned.merged_eq (h : Interned heap s ks) : s.merged = ks.toFinset := by
  ext e
  rw [Session.merged, List.mem_toFinset, List.mem_filterMap, List.mem_toFinset]
  constructor
  · rintro ⟨c, hc, he⟩
    obtain ⟨e', p, he', hp, -⟩ := h.calls c hc
    rw [he, Option.some.injEq] at he'
    rw [he']
    exact mem_of_place hp
  · exact h.asked e

theorem predictedSize_le (image : Image) : image.predictedSize ≤ 2 ^ 16 := by
  have := Nat.min_le_right ((image.classes.map (·.constants.length)).sum + image.symbols.length +
    image.strings.length + 1) 0xFFF0
  rw [Image.predictedSize]
  omega

theorem streamed_isSome (image : Image) : ∀ r ∈ image.streamed, (r.1.entryAt r.2).isSome := by
  intro r hr
  obtain hr | hr := List.mem_append.1 hr
  · obtain ⟨ref, -, rfl⟩ := List.mem_map.1 hr
    rfl
  · obtain ⟨ref, -, rfl⟩ := List.mem_map.1 hr
    rfl

theorem keeps_start (heap : Heap) (image : Image) : Keeps heap image image.start [] where
  interned := interned_allocate heap image.predictedSize
  todo := by
    intro r hr
    simp only [Image.start] at hr
    split at hr
    · exact streamed_isSome image r hr
    · exact absurd hr List.not_mem_nil
  size := rfl
  length := rfl

variable {s' : Session}

theorem Session.roomFor_spec {constants : ConstantPool} (h : s.roomFor constants = some s') :
    (s' = s ∨ s' = allocateMergedPool s.rewriter.predictedMergedPoolSize) ∧
      constants.length + s'.rewriter.mergedEntriesCount ≤ s.rewriter.predictedMergedPoolSize := by
  simp only [Session.roomFor] at h
  split at h
  · split at h
    · exact absurd h (by simp)
    · obtain rfl := Option.some.inj h
      exact ⟨.inr rfl, (by omega : constants.length + 1 ≤ _)⟩
  · obtain rfl := Option.some.inj h
    exact ⟨.inl rfl, by omega⟩

theorem keeps_allocate (heap : Heap) (image : Image) (c : SystemClass) (cs : List SystemClass) :
    Keeps heap image ⟨c.asks, cs, allocateMergedPool image.predictedSize⟩ [] :=
  ⟨interned_allocate heap _, c.asks_isSome, rfl, rfl⟩

variable {c : SystemClass} {cs : List SystemClass}

theorem Keeps.begin
    (h : Keeps heap image ⟨[], c :: cs, s⟩ ks) (hroom : s.roomFor c.constants = some s') :
    ∃ ks', Keeps heap image ⟨c.asks, cs, s'⟩ ks' := by
  obtain ⟨rfl | rfl, -⟩ := Session.roomFor_spec hroom
  · exact ⟨ks, h.interned, c.asks_isSome, h.size, h.length⟩
  · rw [show s.rewriter.predictedMergedPoolSize = image.predictedSize from h.size]
    exact ⟨[], keeps_allocate heap image c cs⟩

/-- **Step lemma.** -/
theorem Keeps.step {ks : List Entry} (h : Keeps heap image k ks) (hstep : k.step heap = some k') :
    ∃ ks', Keeps heap image k' ks' := by
  match k, h, hstep with
  | ⟨r :: rs, cs, s⟩, h, hstep =>
    obtain ⟨e, he⟩ := Option.isSome_iff_exists.1 (h.todo r List.mem_cons_self)
    obtain ⟨s', hcall, hs', hsize, hlength⟩ := h.interned.call he
    rw [Config.step, hcall, Option.map_some, Option.some.injEq] at hstep
    subst hstep
    exact ⟨_, hs', fun r hr => h.todo r (List.mem_cons_of_mem _ hr), hsize.trans h.size,
      hlength.trans h.length⟩
  | ⟨[], c :: cs, s⟩, h, hstep =>
    rw [Config.step, Option.some.injEq, beginClass] at hstep
    have hleft : Keeps heap image ⟨[], cs, s⟩ ks :=
      ⟨h.interned, fun _ hr => absurd hr List.not_mem_nil, h.size, h.length⟩
    split at hstep
    · split at hstep
      · rename_i s' hroom
        subst hstep
        exact h.begin hroom
      · subst hstep
        exact ⟨ks, hleft⟩
    · subst hstep
      exact ⟨ks, hleft⟩

/-- **Run lemma.** -/
theorem Keeps.reaches (h : image.Reaches heap k) : ∃ ks, Keeps heap image k ks := by
  induction h with
  | refl => exact ⟨[], keeps_start heap image⟩
  | tail _ hstep ih =>
    obtain ⟨ks, hks⟩ := ih
    exact hks.step hstep

/-! ## Room -/

theorem slotsOf_union (merged own other : Finset Entry) : slotsOf (merged ∪ (own ∪ other)) =
      slotsOf merged + slotsOf (own \ merged) + slotsOf (other \ (merged ∪ own)) := by
  have hsplit : merged ∪ (own ∪ other) = merged ∪ own \ merged ∪ other \ (merged ∪ own) := by
    rw [Finset.union_sdiff_self_eq_union, Finset.union_sdiff_self_eq_union, Finset.union_assoc]
  rw [hsplit, slotsOf, Finset.sum_union, Finset.sum_union Finset.disjoint_sdiff]
  · rfl
  · rw [Finset.union_sdiff_self_eq_union]
    exact Finset.disjoint_sdiff

/-- The slots that the class takes, if it begins in this session. -/
theorem Keeps.fits_iff (h : Keeps heap image ⟨c.asks, cs, s⟩ ks)
    (hroom : c.constants.length + s.rewriter.mergedEntriesCount ≤ image.predictedSize) :
    s.Fits c ↔ 1 + slotsOf (ks.toFinset ∪ (entriesOf c.asks).toFinset) ≤ image.predictedSize := by
  have hcount : s.rewriter.mergedEntriesCount = 1 + slotsOf ks.toFinset := h.interned.count_eq_sum
  have hsize : s.rewriter.predictedMergedPoolSize = image.predictedSize := h.size
  have hown : slotsOf (c.ownEntries \ ks.toFinset) ≤ c.constants.length :=
    (Finset.sum_le_sum_of_subset Finset.sdiff_subset).trans (ownEntries_slots_le c)
  rw [Session.Fits, h.interned.merged_eq, hsize, hcount, c.entries_asks, slotsOf_union]
  omega

theorem slotsOf_entriesOf_le (h : ∀ e ∈ entriesOf rs, Entry.width e = 1) :
    slotsOf (entriesOf rs).toFinset ≤ rs.length := by
  calc slotsOf (entriesOf rs).toFinset
      = (entriesOf rs).toFinset.card := by
        rw [slotsOf, Finset.card_eq_sum_ones]
        exact Finset.sum_congr rfl fun e he => h e (List.mem_toFinset.1 he)
    _ ≤ (entriesOf rs).length := List.toFinset_card_le _
    _ ≤ rs.length := List.length_filterMap_le _ _

theorem streamed_width (image : Image) : ∀ e ∈ entriesOf image.streamed, Entry.width e = 1 := by
  intro e he
  obtain ⟨r, hr, hentry⟩ := entriesOf_mem.1 he
  obtain hr | hr := List.mem_append.1 hr
  · obtain ⟨ref, -, rfl⟩ := List.mem_map.1 hr
    obtain rfl := Option.some.inj hentry
    rfl
  · obtain ⟨ref, -, rfl⟩ := List.mem_map.1 hr
    obtain rfl := Option.some.inj hentry
    rfl

/-- There is room for the merged entries and those that are still asked for. -/
def Room (image : Image) (k : Config) (ks : List Entry) : Prop :=
  1 + slotsOf (ks.toFinset ∪ (entriesOf k.todo).toFinset) ≤ image.predictedSize

theorem room_start (image : Image) : Room image image.start [] := by
  rw [Room, List.toFinset_nil, Finset.empty_union]
  simp only [Image.start]
  split
  · rename_i hstream
    have hfits : image.symbols.length + image.strings.length + 1 ≤ image.predictedSize :=
      hstream.2.2
    have hslots := slotsOf_entriesOf_le (streamed_width image)
    rw [Image.streamed, List.length_append, List.length_map, List.length_map] at hslots
    rw [Image.streamed]
    omega
  · show 1 + 0 ≤ image.predictedSize
    rw [Image.predictedSize]
    omega

/-- The entries of other pools fit, whenever a class begins. -/
def Image.AllFit (heap : Heap) (image : Image) : Prop :=
  ∀ c cs s s', image.Reaches heap ⟨[], c :: cs, s⟩ → c.optimizable →
    s.roomFor c.constants = some s' → s'.Fits c

/-- **Step lemma.** -/
theorem Room.step {ks : List Entry} (hfit : image.AllFit heap) (hreach : image.Reaches heap k)
    (h : Keeps heap image k ks) (hroom : Room image k ks) (hstep : k.step heap = some k') :
    ∃ ks', Keeps heap image k' ks' ∧ Room image k' ks' := by
  match k, h, hstep with
  | ⟨r :: rs, cs, s⟩, h, hstep =>
    obtain ⟨e, he⟩ := Option.isSome_iff_exists.1 (h.todo r List.mem_cons_self)
    obtain ⟨s', hcall, hs', hsize, hlength⟩ := h.interned.call he
    rw [Config.step, hcall, Option.map_some, Option.some.injEq] at hstep
    subst hstep
    refine ⟨_, ⟨hs', fun r hr => h.todo r (List.mem_cons_of_mem _ hr), hsize.trans h.size,
      hlength.trans h.length⟩, ?_⟩
    have hcons : entriesOf (r :: rs) = e :: entriesOf rs := by
      rw [entriesOf, List.filterMap_cons, he, entriesOf]
    rwa [Room, hcons, List.toFinset_cons, Finset.insert_eq, ← Finset.union_assoc,
      ← toFinset_addKey] at hroom
  | ⟨[], c :: cs, s⟩, h, hstep =>
    rw [Config.step, Option.some.injEq, beginClass] at hstep
    have hleft : Keeps heap image ⟨[], cs, s⟩ ks ∧ Room image ⟨[], cs, s⟩ ks :=
      ⟨⟨h.interned, fun _ hr => absurd hr List.not_mem_nil, h.size, h.length⟩, hroom⟩
    split at hstep
    · rename_i hopt
      split at hstep
      · rename_i s' hs'
        subst hstep
        obtain ⟨ks', hks'⟩ := h.begin hs'
        have hspace := (Session.roomFor_spec hs').2
        rw [show s.rewriter.predictedMergedPoolSize = image.predictedSize from h.size] at hspace
        exact ⟨ks', hks', (hks'.fits_iff hspace).1 (hfit c cs s s' hreach hopt hs')⟩
      · subst hstep
        exact ⟨ks, hleft⟩
    · subst hstep
      exact ⟨ks, hleft⟩

/-- **Run lemma.** -/
theorem Room.reaches (hfit : image.AllFit heap) (h : image.Reaches heap k) :
    ∃ ks, Keeps heap image k ks ∧ Room image k ks := by
  induction h with
  | refl => exact ⟨[], keeps_start heap image, room_start image⟩
  | tail hreach hstep ih =>
    obtain ⟨ks, hks, hroom⟩ := ih
    exact hroom.step hfit hreach hks hstep

/-! ## Soundness -/

theorem reaches_callAll
    (h : image.Reaches heap ⟨rs, cs, s⟩) (hcalls : s.callAll heap rs = some s') :
    image.Reaches heap ⟨[], cs, s'⟩ := by
  induction rs generalizing s with
  | nil =>
    obtain rfl := Option.some.inj hcalls
    exact h
  | cons r rs ih =>
    rw [Session.callAll, Option.bind_eq_some_iff] at hcalls
    obtain ⟨t, hcall, hrest⟩ := hcalls
    refine ih (h.tail ?_) hrest
    show (s.call heap r.1 r.2).map _ = _
    rw [hcall, Option.map_some]

theorem reaches_begin (h : image.Reaches heap ⟨[], c :: cs, s⟩) (hopt : c.optimizable)
    (hroom : s.roomFor c.constants = some s') : image.Reaches heap ⟨c.asks, cs, s'⟩ := by
  refine h.tail ?_
  show some (beginClass c cs s) = _
  rw [beginClass, if_pos hopt, hroom]

/-- **Run lemma**: a class is rewritten to its end. -/
theorem reaches_class {ks' : List Entry}
    (h : image.Reaches heap ⟨[], c :: cs, s⟩) (hopt : c.optimizable)
    (hroom : s.roomFor c.constants = some s') (hks' : Keeps heap image ⟨c.asks, cs, s'⟩ ks') :
    ∃ s'' ks'', image.Reaches heap ⟨[], cs, s''⟩ ∧ Keeps heap image ⟨[], cs, s''⟩ ks'' ∧
      ks''.toFinset = ks'.toFinset ∪ (entriesOf c.asks).toFinset := by
  obtain ⟨s'', ks'', hrun, hs'', hunion, hsize, hlength⟩ := hks'.interned.callAll hks'.todo
  have hempty : ∀ r ∈ ([] : List (ConstantPool × ℕ)), (r.1.entryAt r.2).isSome :=
    fun _ hr => absurd hr List.not_mem_nil
  exact ⟨s'', ks'', reaches_callAll (reaches_begin h hopt hroom) hrun,
    ⟨hs'', hempty, hsize.trans hks'.size, hlength.trans hks'.length⟩, hunion⟩

/-- **Main theorem**: in every state that the run comes to, the merged pool answers every call as it
should and has room for its entries, if and only if the entries that the classes take from other
pools fit. -/
theorem sound_iff_fits (heap : Heap) (image : Image) :
    (∀ k, image.Reaches heap k → Sound k.session) ↔ image.AllFit heap := by
  constructor
  · intro hsound c cs s s' hreach hopt hroom
    obtain ⟨ks, hks⟩ := Keeps.reaches hreach
    obtain ⟨ks', hks'⟩ := hks.begin hroom
    obtain ⟨s'', ks'', hend, hks'', hunion⟩ := reaches_class hreach hopt hroom hks'
    have hspace := (Session.roomFor_spec hroom).2
    rw [show s.rewriter.predictedMergedPoolSize = image.predictedSize from hks.size] at hspace
    refine (hks'.fits_iff hspace).2 ?_
    calc 1 + slotsOf (ks'.toFinset ∪ (entriesOf c.asks).toFinset)
        = s''.rewriter.mergedEntriesCount := by
          rw [← hunion]
          exact hks''.interned.count_eq_sum.symm
      _ ≤ s''.rewriter.mergedPool.length := (hsound _ hend).capacity
      _ = image.predictedSize := hks''.length
  · intro hfit k hreach
    obtain ⟨ks, hks, hroom⟩ := Room.reaches hfit hreach
    have hlength := hks.length
    refine hks.interned.sound ?_ ?_
    · have hsub : slotsOf ks.toFinset ≤ slotsOf (ks.toFinset ∪ (entriesOf k.todo).toFinset) :=
        Finset.sum_le_sum_of_subset Finset.subset_union_left
      have hcount : k.session.rewriter.mergedEntriesCount = 1 + slotsOf ks.toFinset :=
        hks.interned.count_eq_sum
      rw [Room] at hroom
      omega
    · rw [hlength]
      exact predictedSize_le image

/-! ## Entries that do not fit -/

/-- The pool of an interface, with the name and the signature of a method. -/
def interfacePool : ConstantPool := ⟨3, fun i => if i = 0 then .invalid else .utf8, BitVec.ofNat 32⟩

/-- A pool of integers. -/
def integerPool : ConstantPool :=
  ⟨65518, fun i => if i = 0 then .invalid else .integer, BitVec.ofNat 32⟩

/-- The pool of a class that does not implement the method of the interface. -/
def brokenPool : ConstantPool :=
  ⟨5, fun i => if i = 0 then .invalid else .utf8, fun i => BitVec.ofNat 32 (10 * i)⟩

theorem isEntry_of_narrow {pool : ConstantPool} (hwidth : ∀ j, (pool.tagAt j).width = 1)
    (hi : i < pool.length) (hresolved : (pool.valueAt i).isSome) : pool.IsEntry i where
  inside := by
    rw [hwidth]
    omega
  first := fun j _ => hwidth j
  resolved := hresolved

theorem interfacePool_isEntry (hi : i < 3) : interfacePool.IsEntry i := by
  refine isEntry_of_narrow (fun j => ?_) hi ?_
  · by_cases hj : j = 0 <;> simp [interfacePool, hj, Tag.width]
  · by_cases hj : i = 0 <;> simp [ConstantPool.valueAt, interfacePool, hj]

theorem integerPool_isEntry (hi : i < 65518) : integerPool.IsEntry i := by
  refine isEntry_of_narrow (fun j => ?_) hi ?_
  · by_cases hj : j = 0 <;> simp [integerPool, hj, Tag.width]
  · by_cases hj : i = 0 <;> simp [ConstantPool.valueAt, integerPool, hj]

theorem brokenPool_isEntry (hi : i < 5) : brokenPool.IsEntry i := by
  refine isEntry_of_narrow (fun j => ?_) hi ?_
  · by_cases hj : j = 0 <;> simp [brokenPool, hj, Tag.width]
  · by_cases hj : i = 0 <;> simp [ConstantPool.valueAt, brokenPool, hj]

def interfaceClass : SystemClass :=
  ⟨true, interfacePool, [.own 1 (interfacePool_isEntry (by decide)),
    .own 2 (interfacePool_isEntry (by decide))]⟩

/-- A class that has most of the integers of its pool in its code. -/
def integerClass : SystemClass :=
  ⟨true, integerPool, List.ofFn fun i : Fin 65514 =>
    .own (i + 1) (integerPool_isEntry (by omega))⟩

/-- A class that has all entries of its pool in use, and a method that throws an error in the place
of that of the interface. -/
def brokenClass : SystemClass :=
  ⟨true, brokenPool, [.own 0 (brokenPool_isEntry (by decide)),
    .own 1 (brokenPool_isEntry (by decide)), .own 2 (brokenPool_isEntry (by decide)),
    .own 3 (brokenPool_isEntry (by decide)), .own 4 (brokenPool_isEntry (by decide)),
    .other interfacePool 1 (interfacePool_isEntry (by decide)),
    .other interfacePool 2 (interfacePool_isEntry (by decide))]⟩

/-- The three classes; the pools have more entries than the largest merged pool. -/
def overflowImage : Image := ⟨[interfaceClass, integerClass, brokenClass], [], [], false⟩

/-- The integers in the code of the class. -/
def integerEntries : Finset Entry :=
  Finset.univ.image fun i : Fin 65514 => (.integer, .int (BitVec.ofNat 32 (i + 1)))

theorem entriesOf_integerClass : (entriesOf integerClass.asks).toFinset = integerEntries := by
  ext e
  simp only [integerEntries, SystemClass.asks, integerClass, List.mem_toFinset, entriesOf_mem,
    List.mem_map, List.mem_ofFn, Finset.mem_image, Finset.mem_univ, true_and]
  constructor
  · rintro ⟨_, ⟨_, ⟨i, rfl⟩, rfl⟩, he⟩
    exact ⟨i, Option.some.inj he⟩
  · rintro ⟨i, rfl⟩
    exact ⟨_, ⟨_, ⟨i, rfl⟩, rfl⟩, rfl⟩

theorem slotsOf_integerEntries : slotsOf integerEntries = 65514 := by
  have hinjective : Function.Injective fun i : Fin 65514 =>
      ((.integer, .int (BitVec.ofNat 32 (i + 1))) : Entry) := by
    intro i j hij
    have hbits : BitVec.ofNat 32 (i + 1) = BitVec.ofNat 32 (j + 1) := by simpa using hij
    have hnat := congrArg BitVec.toNat hbits
    rw [BitVec.toNat_ofNat, BitVec.toNat_ofNat] at hnat
    omega
  rw [slotsOf, integerEntries, Finset.sum_image hinjective.injOn]
  exact (Finset.sum_const 1).trans (by simp)

/-- What the hash codes read is of no importance here. -/
def zeroHeap : Heap := ⟨fun _ => 0, fun _ => 0, fun _ => 0, fun _ => 0⟩

/-- The name and signature of the interface's method come on top of a merged pool that is full: it
has 65520 slots, and 65522 entries. -/
theorem merged_pool_overflow :
    ¬∀ k, overflowImage.Reaches zeroHeap k → Sound k.session := by
  intro hsound
  have hsize : overflowImage.predictedSize = 65520 := rfl
  have hstart : overflowImage.Reaches zeroHeap ⟨[], [interfaceClass, integerClass, brokenClass],
      allocateMergedPool overflowImage.predictedSize⟩ := Relation.ReflTransGen.refl
  obtain ⟨s₁, ks₁, hreach₁, hks₁, hunion₁⟩ :=
    reaches_class hstart rfl rfl (keeps_allocate zeroHeap overflowImage interfaceClass _)
  have hcount₁ : s₁.rewriter.mergedEntriesCount = 3 := by
    have hcount := hks₁.interned.count_eq_sum
    rw [hunion₁] at hcount
    exact hcount.trans rfl
  have hsize₁ : s₁.rewriter.predictedMergedPoolSize = 65520 := hks₁.size
  have hroom₁ : s₁.roomFor integerClass.constants =
      some (allocateMergedPool overflowImage.predictedSize) := by
    simp only [Session.roomFor, hcount₁, hsize₁]
    rfl
  obtain ⟨s₂, ks₂, hreach₂, hks₂, hunion₂⟩ :=
    reaches_class hreach₁ rfl hroom₁ (keeps_allocate zeroHeap overflowImage integerClass _)
  rw [entriesOf_integerClass, List.toFinset_nil, Finset.empty_union] at hunion₂
  have hcount₂ : s₂.rewriter.mergedEntriesCount = 65515 := by
    have hcount := hks₂.interned.count_eq_sum
    rw [hunion₂] at hcount
    rwa [← slotsOf, slotsOf_integerEntries] at hcount
  have hsize₂ : s₂.rewriter.predictedMergedPoolSize = 65520 := hks₂.size
  have hroom₂ : s₂.roomFor brokenClass.constants = some s₂ := by
    simp only [Session.roomFor, hcount₂, hsize₂]
    exact if_neg (by decide : ¬5 + 65515 > 65520)
  obtain ⟨s₃, ks₃, hreach₃, hks₃, hunion₃⟩ := reaches_class hreach₂ rfl hroom₂
    ⟨hks₂.interned, brokenClass.asks_isSome, hks₂.size, hks₂.length⟩
  have hdisjoint : Disjoint integerEntries (entriesOf brokenClass.asks).toFinset := by
    rw [Finset.disjoint_left]
    intro e he he'
    obtain ⟨i, -, rfl⟩ := Finset.mem_image.1 he
    have htag : ∀ e ∈ entriesOf brokenClass.asks, e.1 ≠ Tag.integer := by decide
    exact htag _ (List.mem_toFinset.1 he') rfl
  have hcount₃ : s₃.rewriter.mergedEntriesCount = 65522 := by
    have hcount := hks₃.interned.count_eq_sum
    rw [hunion₃, hunion₂, Finset.sum_union hdisjoint] at hcount
    have hbroken : ∑ e ∈ (entriesOf brokenClass.asks).toFinset, Entry.width e = 7 := by decide
    rw [← slotsOf, slotsOf_integerEntries, hbroken] at hcount
    exact hcount
  have hcapacity : s₃.rewriter.mergedEntriesCount ≤ s₃.rewriter.mergedPool.length :=
    (hsound _ hreach₃).capacity
  have hlength : s₃.rewriter.mergedPool.length = 65520 := hks₃.length.trans hsize
  omega

end CldcVm.Romizer
