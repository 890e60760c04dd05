import CldcVm.Romizer.MergedPool
import CldcVm.Lib.Interning

/-!
# The entries of the merged pool

Results:

* `Interned.call`: what one call of `get_merged_pool_entry` does to the merged pool and its table.
* `Interned.callAll`: what a sequence of calls does.
* `Interned.sound`: the merged entries are those that were asked for, each with an index of its
  own.
-/

namespace CldcVm.Romizer

open Lib.Interning
open Function (update_apply update_of_ne update_self)

/-! ## Words -/

theorem low_append (x y : BitVec 32) : (x ++ y).truncate 32 = y := by
  apply BitVec.eq_of_getLsbD_eq
  intro j hj
  rw [BitVec.getLsbD_setWidth, BitVec.getLsbD_append]
  simp [hj]

theorem append_halves (bits : BitVec 64) :
    ((bits >>> 32).truncate 32 : BitVec 32) ++ (bits.truncate 32 : BitVec 32) = bits := by
  apply BitVec.eq_of_getLsbD_eq
  intro j hj
  rw [BitVec.getLsbD_append]
  by_cases hj32 : j < 32
  · rw [if_pos hj32, BitVec.getLsbD_setWidth]
    simp [hj32]
  · rw [if_neg hj32, BitVec.getLsbD_setWidth, BitVec.getLsbD_ushiftRight,
      show 32 + (j - 32) = j by omega]
    simp [show j - 32 < 32 by omega]

/-! ## Entries of a pool -/

theorem Tag.width_pos (tag : Tag) : 0 < tag.width := by
  rw [Tag.width]
  split <;> omega

theorem Entry.width_pos (e : Entry) : 0 < Entry.width e := e.1.width_pos

variable {heap : Heap} {pool pool' : ConstantPool} {i i' p q : ℕ} {e : Entry}

theorem ConstantPool.entryAt_eq_some :
    pool.entryAt i = some e ↔ pool.tagAt i = e.1 ∧ pool.valueAt i = some e.2 := by
  rw [ConstantPool.entryAt, Option.map_eq_some_iff]
  constructor
  · rintro ⟨value, hvalue, rfl⟩
    exact ⟨rfl, hvalue⟩
  · rintro ⟨htag, hvalue⟩
    exact ⟨e.2, hvalue, by rw [htag]⟩

theorem computeHashcode_isSome (heap : Heap) (h : pool.entryAt i = some e) :
    ∃ hash, computeHashcode heap pool i = some hash := by
  obtain ⟨-, hvalue⟩ := ConstantPool.entryAt_eq_some.1 h
  rw [ConstantPool.valueAt] at hvalue
  rw [computeHashcode]
  cases htag : pool.tagAt i <;> simp [htag] at hvalue ⊢

/-- Equal entries have the same hash code. -/
theorem computeHashcode_congr (heap : Heap) (h : pool.entryAt i = some e)
    (h' : pool'.entryAt i' = some e) :
    computeHashcode heap pool i = computeHashcode heap pool' i' := by
  obtain ⟨htag, hvalue⟩ := ConstantPool.entryAt_eq_some.1 h
  obtain ⟨htag', hvalue'⟩ := ConstantPool.entryAt_eq_some.1 h'
  have hword : pool.value32At i = pool'.value32At i' := by
    have hsame : pool.valueAt i = pool'.valueAt i' := hvalue.trans hvalue'.symm
    simp only [ConstantPool.valueAt, htag, htag'] at hsame hvalue
    cases hcase : e.1 <;> simp only [hcase] at hsame hvalue <;> simp at hsame hvalue
    all_goals first
      | exact hsame
      | rw [← low_append (pool.value32At (i + 1)) (pool.value32At i),
          ← low_append (pool'.value32At (i' + 1)) (pool'.value32At i')]
        exact congrArg (BitVec.truncate 32) hsame
  simp only [computeHashcode, htag, htag', hword]

/-! ## Putting an entry into a pool -/

theorem ConstantPool.entryAt_put_self (pool : ConstantPool) (p : ℕ)
    (h : pool'.entryAt i = some e) : (pool.put p e.1 e.2).entryAt p = some e := by
  obtain ⟨htag, hvalue⟩ := ConstantPool.entryAt_eq_some.1 h
  refine ConstantPool.entryAt_eq_some.2 ⟨update_self .., ?_⟩
  have hput : (pool.put p e.1 e.2).tagAt p = e.1 := update_self ..
  simp only [ConstantPool.valueAt, hput]
  simp only [ConstantPool.valueAt, htag] at hvalue
  cases hcase : e.1 <;> simp only [hcase] at hvalue <;> simp at hvalue <;>
    rw [← hvalue] <;> simp [ConstantPool.put, ConstantPool.value64At, update_of_ne]
  all_goals exact append_halves _

/-- The entries before the place are left. -/
theorem ConstantPool.entryAt_put_of_le (pool : ConstantPool) (tag : Tag) (value : Value)
    (h : q + (pool.tagAt q).width ≤ p) : (pool.put p tag value).entryAt q = pool.entryAt q := by
  have hpos := (pool.tagAt q).width_pos
  have htag : (pool.put p tag value).tagAt q = pool.tagAt q :=
    update_of_ne (by omega) ..
  have hword : ∀ r < p, (pool.put p tag value).value32At r = pool.value32At r := by
    intro r hr
    cases value with
    | oop ref => exact update_of_ne (by omega) ..
    | int bits => exact update_of_ne (by omega) ..
    | long bits =>
      exact (update_of_ne (by omega) ..).trans (update_of_ne (by omega) ..)
  have hvalue : (pool.put p tag value).valueAt q = pool.valueAt q := by
    simp only [ConstantPool.valueAt, htag]
    cases hcase : pool.tagAt q <;> simp only [hword q (by omega)]
    all_goals
      have h2 : q + 2 ≤ p := by simpa [hcase, Tag.width] using h
      simp only [ConstantPool.value64At, hword q (by omega), hword (q + 1) (by omega)]
  simp only [ConstantPool.entryAt, htag, hvalue]

/-! ## One call -/

/-- The keys with one more. -/
def addKey (ks : List Entry) (e : Entry) : List Entry := if e ∈ ks then ks else ks ++ [e]

theorem toFinset_addKey (ks : List Entry) (e : Entry) :
    (addKey ks e).toFinset = ks.toFinset ∪ {e} := by
  rw [addKey]
  split
  · rename_i h
    rw [Finset.union_eq_left.2]
    simpa using h
  · simp

/-- The merged pool has the entries `ks`, each at its place, and the table knows them. -/
structure Interned (heap : Heap) (s : Session) (ks : List Entry) : Prop where
  nodup : ks.Nodup
  count : s.rewriter.mergedEntriesCount = 1 + slots Entry.width ks
  stored : ∀ e p, (e, p) ∈ places Entry.width 1 ks → s.rewriter.mergedPool.entryAt p = some e
  table : ∀ b, ∀ info ∈ s.rewriter.entryLookupTable b,
    ((info.type, info.value), info.index) ∈ places Entry.width 1 ks
  listed : ∀ e p, (e, p) ∈ places Entry.width 1 ks → ∀ pool i hash, pool.entryAt i = some e →
    computeHashcode heap pool i = some hash →
      ⟨e.1, p, e.2⟩ ∈ s.rewriter.entryLookupTable (hash.toNat % numBuckets)
  calls : ∀ c ∈ s.calls, ∃ e p, c.pool.entryAt c.index = some e ∧
    (e, p) ∈ places Entry.width 1 ks ∧ c.answer = p % 2 ^ 16
  asked : ∀ e ∈ ks, ∃ c ∈ s.calls, c.pool.entryAt c.index = some e

variable {s : Session} {ks : List Entry}

theorem interned_allocate (heap : Heap) (size : ℕ) :
    Interned heap (allocateMergedPool size) [] where
  nodup := List.nodup_nil
  count := rfl
  stored := fun _ _ h => absurd h List.not_mem_nil
  table := fun _ _ h => absurd h List.not_mem_nil
  listed := fun _ _ h => absurd h List.not_mem_nil
  calls := fun _ h => absurd h List.not_mem_nil
  asked := fun _ h => absurd h List.not_mem_nil

theorem find_iff {info : HashEntry} (h : pool.entryAt i = some e) :
    (info.type = pool.tagAt i ∧ some info.value = pool.valueAt i) ↔
      (info.type, info.value) = e := by
  obtain ⟨htag, hvalue⟩ := ConstantPool.entryAt_eq_some.1 h
  rw [htag, hvalue, Option.some.injEq, Prod.ext_iff]

/-- **Spec lemma**: what has been merged is found. -/
theorem Interned.find_of_mem (h : Interned heap s ks) (he : pool.entryAt i = some e)
    (hmem : e ∈ ks) {hash : BitVec 32} (hhash : computeHashcode heap pool i = some hash) :
    ∃ p, (e, p) ∈ places Entry.width 1 ks ∧ findStoredHashEntry pool i
      (s.rewriter.entryLookupTable (hash.toNat % numBuckets)) = some p := by
  obtain ⟨p, hp⟩ := exists_place 1 hmem
  have hlisted := h.listed e p hp pool i hash he hhash
  obtain ⟨info, hinfo⟩ : ∃ info, (s.rewriter.entryLookupTable (hash.toNat % numBuckets)).find?
      (fun info => info.type = pool.tagAt i ∧ some info.value = pool.valueAt i) = some info := by
    rw [← Option.isSome_iff_exists, List.find?_isSome]
    exact ⟨_, hlisted, decide_eq_true ((find_iff he).2 rfl)⟩
  have hkey : (info.type, info.value) = e :=
    (find_iff he).1 (by simpa using List.find?_some hinfo)
  have hplace := h.table _ info (List.mem_of_find?_eq_some hinfo)
  rw [hkey] at hplace
  exact ⟨info.index, hplace, by rw [findStoredHashEntry, hinfo, Option.map_some]⟩

/-- **Spec lemma**: what has not been merged is not found. -/
theorem Interned.find_of_not_mem (h : Interned heap s ks) (he : pool.entryAt i = some e)
    (hmem : e ∉ ks) (b : ℕ) :
    findStoredHashEntry pool i (s.rewriter.entryLookupTable b) = none := by
  rw [findStoredHashEntry, Option.map_eq_none_iff, List.find?_eq_none]
  intro info hinfo hfound
  have hkey : (info.type, info.value) = e := (find_iff he).1 (by simpa using hfound)
  have hplace := mem_of_place (h.table b info hinfo)
  rw [hkey] at hplace
  exact hmem hplace

/-- The session after an entry that is new has been stored. -/
theorem Interned.store (h : Interned heap s ks) (he : pool.entryAt i = some e) (hmem : e ∉ ks)
    {hash : BitVec 32} (hhash : computeHashcode heap pool i = some hash) :
    Interned heap ⟨storeHashEntry e.1 e.2 (hash.toNat % numBuckets) s.rewriter.mergedEntriesCount
          { s.rewriter with mergedEntriesCount := s.rewriter.mergedEntriesCount + e.1.width },
        s.calls ++ [⟨pool, i, s.rewriter.mergedEntriesCount % 2 ^ 16⟩]⟩ (ks ++ [e]) := by
  have hplaces : places Entry.width 1 (ks ++ [e]) =
      places Entry.width 1 ks ++ [(e, s.rewriter.mergedEntriesCount)] := by
    rw [places_append, h.count]
    rfl
  refine ⟨?_, ?_, ?_, ?_, ?_, ?_, ?_⟩
  · rw [List.nodup_append]
    refine ⟨h.nodup, List.nodup_singleton e, fun a ha b hb heq => hmem ?_⟩
    rw [← List.mem_singleton.1 hb, ← heq]
    exact ha
  · rw [slots_append, slots_singleton, ← Nat.add_assoc, ← h.count]
    rfl
  · intro e' p hp
    rw [hplaces, List.mem_append, List.mem_singleton] at hp
    obtain hp | hp := hp
    · have hbounds := (places_bounds hp).2
      have hold := h.stored e' p hp
      have htag := (ConstantPool.entryAt_eq_some.1 hold).1
      refine (ConstantPool.entryAt_put_of_le _ _ _ ?_).trans hold
      rw [htag, h.count]
      exact hbounds
    · obtain ⟨rfl, rfl⟩ := Prod.mk.inj hp
      exact ConstantPool.entryAt_put_self _ _ he
  · intro b info hinfo
    rw [hplaces, List.mem_append, List.mem_singleton]
    simp only [storeHashEntry, update_apply] at hinfo
    split at hinfo
    · obtain rfl | hinfo := List.mem_cons.1 hinfo
      · exact .inr rfl
      · exact .inl (h.table _ info hinfo)
    · exact .inl (h.table _ info hinfo)
  · intro e' p hp pool' i' hash' he' hhash'
    rw [hplaces, List.mem_append, List.mem_singleton] at hp
    simp only [storeHashEntry, update_apply]
    obtain hp | hp := hp
    · have hold := h.listed e' p hp pool' i' hash' he' hhash'
      split
      · rename_i heq
        rw [heq] at hold
        exact List.mem_cons_of_mem _ hold
      · exact hold
    · obtain ⟨rfl, rfl⟩ := Prod.mk.inj hp
      rw [computeHashcode_congr heap he' he, hhash] at hhash'
      rw [if_pos (by rw [Option.some.inj hhash'])]
      exact List.mem_cons_self
  · intro c hc
    rw [hplaces]
    obtain hc | hc := List.mem_append.1 hc
    · obtain ⟨e', p, hentry, hp, hanswer⟩ := h.calls c hc
      exact ⟨e', p, hentry, List.mem_append_left _ hp, hanswer⟩
    · rw [List.mem_singleton.1 hc]
      exact ⟨e, _, he, List.mem_append_right _ (List.mem_singleton_self _), rfl⟩
  · intro e' he'
    obtain he' | he' := List.mem_append.1 he'
    · obtain ⟨c, hc, hentry⟩ := h.asked e' he'
      exact ⟨c, List.mem_append_left _ hc, hentry⟩
    · rw [List.mem_singleton.1 he']
      exact ⟨_, List.mem_append_right _ (List.mem_singleton_self _), he⟩

/-- **Step lemma**: one call merges the entry that it is asked for. -/
theorem Interned.call (h : Interned heap s ks) (he : pool.entryAt i = some e) :
    ∃ s', s.call heap pool i = some s' ∧ Interned heap s' (addKey ks e) ∧
      s'.rewriter.predictedMergedPoolSize = s.rewriter.predictedMergedPoolSize ∧
      s'.rewriter.mergedPool.length = s.rewriter.mergedPool.length := by
  obtain ⟨hash, hhash⟩ := computeHashcode_isSome heap he
  obtain ⟨htag, hvalue⟩ := ConstantPool.entryAt_eq_some.1 he
  simp only [Session.call, getMergedPoolEntry, hhash, hvalue, htag, addKey]
  by_cases hmem : e ∈ ks
  · obtain ⟨p, hp, hfind⟩ := h.find_of_mem he hmem hhash
    rw [hfind, if_pos hmem]
    refine ⟨_, rfl, ⟨h.nodup, h.count, h.stored, h.table, h.listed, ?_, ?_⟩, rfl, rfl⟩
    · intro c hc
      obtain hc | hc := List.mem_append.1 hc
      · exact h.calls c hc
      · rw [List.mem_singleton.1 hc]
        exact ⟨e, p, he, hp, rfl⟩
    · intro e' he'
      obtain ⟨c, hc, hentry⟩ := h.asked e' he'
      exact ⟨c, List.mem_append_left _ hc, hentry⟩
  · rw [h.find_of_not_mem he hmem, if_neg hmem]
    exact ⟨_, rfl, h.store he hmem hhash, rfl, rfl⟩

/-! ## A sequence of calls -/

/-- The entries that are asked for. -/
def entriesOf (rs : List (ConstantPool × ℕ)) : List Entry :=
  rs.filterMap fun r => r.1.entryAt r.2

/-- **Run lemma**: a sequence of calls merges the entries that it is asked for. -/
theorem Interned.callAll {rs : List (ConstantPool × ℕ)} (h : Interned heap s ks)
    (hrs : ∀ r ∈ rs, (r.1.entryAt r.2).isSome) :
    ∃ s' ks', s.callAll heap rs = some s' ∧ Interned heap s' ks' ∧
      ks'.toFinset = ks.toFinset ∪ (entriesOf rs).toFinset ∧
      s'.rewriter.predictedMergedPoolSize = s.rewriter.predictedMergedPoolSize ∧
      s'.rewriter.mergedPool.length = s.rewriter.mergedPool.length := by
  induction rs generalizing s ks with
  | nil => exact ⟨s, ks, rfl, h, by simp [entriesOf], rfl, rfl⟩
  | cons r rs ih =>
    obtain ⟨e, he⟩ := Option.isSome_iff_exists.1 (hrs r List.mem_cons_self)
    obtain ⟨s', hcall, h', hsize, hlength⟩ := h.call he
    obtain ⟨s'', ks', hrun, h'', hks, hsize', hlength'⟩ :=
      ih h' fun r hr => hrs r (List.mem_cons_of_mem _ hr)
    refine ⟨s'', ks', ?_, h'', ?_, hsize'.trans hsize, hlength'.trans hlength⟩
    · rw [Session.callAll, hcall, Option.bind_some, hrun]
    · have hcons : entriesOf (r :: rs) = e :: entriesOf rs := by
        rw [entriesOf, List.filterMap_cons, he, entriesOf]
      rw [hks, toFinset_addKey, hcons, List.toFinset_cons, Finset.union_assoc, Finset.insert_eq]

theorem Interned.count_eq_sum (h : Interned heap s ks) :
    s.rewriter.mergedEntriesCount = 1 + ∑ e ∈ ks.toFinset, Entry.width e := by
  rw [h.count, slots_eq_sum h.nodup]

/-! ## What the calls promise -/

/-- Every call has been answered with an index at which the merged pool has the entry, calls for the
same entry have the same answer and others do not, no slot belongs to two entries, and the merged
pool has room for all. -/
structure Sound (s : Session) : Prop where
  same : ∀ c ∈ s.calls, c.pool.entryAt c.index = s.rewriter.mergedPool.entryAt c.answer
  answer_eq_iff : ∀ c ∈ s.calls, ∀ d ∈ s.calls,
    c.answer = d.answer ↔ c.pool.entryAt c.index = d.pool.entryAt d.index
  apart : ∀ c ∈ s.calls, ∀ d ∈ s.calls, c.answer ≠ d.answer →
    c.answer + (c.pool.tagAt c.index).width ≤ d.answer ∨
      d.answer + (d.pool.tagAt d.index).width ≤ c.answer
  inside : ∀ c ∈ s.calls,
    1 ≤ c.answer ∧ c.answer + (c.pool.tagAt c.index).width ≤ s.rewriter.mergedEntriesCount
  capacity : s.rewriter.mergedEntriesCount ≤ s.rewriter.mergedPool.length

/-- As long as the entries fit, and their number is not cut. -/
theorem Interned.sound (h : Interned heap s ks)
    (hfits : s.rewriter.mergedEntriesCount ≤ s.rewriter.mergedPool.length)
    (hsize : s.rewriter.mergedPool.length ≤ 2 ^ 16) : Sound s := by
  have hcalls : ∀ c ∈ s.calls, ∃ e, c.pool.entryAt c.index = some e ∧
      (e, c.answer) ∈ places Entry.width 1 ks ∧ c.pool.tagAt c.index = e.1 := by
    intro c hc
    obtain ⟨e, p, he, hp, hanswer⟩ := h.calls c hc
    have hbounds := places_bounds hp
    have hpos := e.width_pos
    have hcount := h.count
    rw [Nat.mod_eq_of_lt (by omega)] at hanswer
    exact ⟨e, he, by rwa [hanswer], (ConstantPool.entryAt_eq_some.1 he).1⟩
  refine ⟨?_, ?_, ?_, ?_, hfits⟩
  · intro c hc
    obtain ⟨e, he, hp, -⟩ := hcalls c hc
    rw [he, h.stored e _ hp]
  · intro c hc d hd
    obtain ⟨e, he, hp, -⟩ := hcalls c hc
    obtain ⟨e', he', hp', -⟩ := hcalls d hd
    rw [he, he', Option.some.injEq]
    exact place_injective Entry.width_pos h.nodup hp hp'
  · intro c hc d hd hne
    obtain ⟨e, -, hp, htag⟩ := hcalls c hc
    obtain ⟨e', -, hp', htag'⟩ := hcalls d hd
    have hkeys : e ≠ e' := by
      rwa [Ne, ← place_injective Entry.width_pos h.nodup hp hp']
    have hplaces := places_apart hp hp' hkeys
    rw [htag, htag']
    exact hplaces
  · intro c hc
    obtain ⟨e, -, hp, htag⟩ := hcalls c hc
    rw [htag, h.count]
    exact places_bounds hp

end CldcVm.Romizer
