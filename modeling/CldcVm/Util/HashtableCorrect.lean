import CldcVm.Util.HashtableChains

/-!
# Hash tables as finite maps

Results:

* `Hashtable.rehashTo_spec`, `Hashtable.put_spec`, `Hashtable.remove_spec`: the changes of a table
  and of its contents. `put` returns, however often the table grows.
-/

namespace CldcVm.Hashing

open LinkedChain
open Function (update update_of_ne update_self)

/-! ## Finite maps -/

variable {K V : Type} [JavaKey K]

/-- The value of a key in a list of keys and values. -/
def lookup (m : List (K × V)) (key : K) : Option V :=
  (m.find? fun p => JavaKey.equals p.1 key).map Prod.snd

/-- The value of a key is replaced; a key that is there stays. -/
def replace (m : List (K × V)) (key : K) (value : V) : List (K × V) :=
  m.map fun p => if JavaKey.equals p.1 key = true then (p.1, value) else p

/-- A key is left out. -/
def without (m : List (K × V)) (key : K) : List (K × V) :=
  m.filter fun p => !JavaKey.equals p.1 key

variable {m m' : List (K × V)} {key : K} {value : V}

theorem lookup_eq_none : lookup m key = none ↔ ∀ p ∈ m, ¬ JavaKey.equals p.1 key = true := by
  rw [lookup, Option.map_eq_none_iff, List.find?_eq_none]

theorem Distinct.eq_of_equals (h : Distinct m) {p q : K × V} (hp : p ∈ m) (hq : q ∈ m)
    (hequals : JavaKey.equals p.1 q.1 = true) : p = q := by
  have : Std.Symm fun p q : K × V => JavaKey.equals p.1 q.1 = false :=
    ⟨fun p q hpq => by rw [equals_comm]; exact hpq⟩
  by_contra hne
  rw [List.Pairwise.forall h hp hq hne] at hequals
  simp at hequals

theorem lookup_of_mem (h : Distinct m) {k : K} (hmem : (k, value) ∈ m)
    (hequals : JavaKey.equals k key = true) : lookup m key = some value := by
  match hfind : m.find? fun p => JavaKey.equals p.1 key with
  | none => exact absurd hequals (List.find?_eq_none.1 hfind _ hmem)
  | some p =>
    have hp : JavaKey.equals p.1 key = true :=
      @List.find?_some _ (fun p : K × V => JavaKey.equals p.1 key) _ _ hfind
    have heq : p = (k, value) := h.eq_of_equals (List.mem_of_find?_eq_some hfind) hmem
      (JavaKey.trans _ _ _ hp (JavaKey.symm _ _ hequals))
    rw [lookup, hfind, heq]
    rfl

theorem exists_mem_of_lookup (h : lookup m key = some value) :
    ∃ k, (k, value) ∈ m ∧ JavaKey.equals k key = true := by
  obtain ⟨⟨k, v⟩, hfind, rfl⟩ := Option.map_eq_some_iff.1 h
  exact ⟨k, List.mem_of_find?_eq_some hfind,
    @List.find?_some _ (fun p : K × V => JavaKey.equals p.1 key) _ _ hfind⟩

theorem lookup_perm (h : Distinct m) (hperm : m.Perm m') : lookup m' key = lookup m key := by
  match hlookup : lookup m key with
  | none =>
    rw [lookup_eq_none] at hlookup ⊢
    exact fun p hp => hlookup p (hperm.mem_iff.2 hp)
  | some value =>
    obtain ⟨k, hmem, hequals⟩ := exists_mem_of_lookup hlookup
    exact lookup_of_mem (h.perm hperm) (hperm.mem_iff.1 hmem) hequals

theorem Distinct.replace (h : Distinct m) (key : K) (value : V) :
    Distinct (replace m key value) := by
  refine List.pairwise_map.2 (h.imp fun {p q} hpq => ?_)
  split <;> split <;> exact hpq

theorem Distinct.without (h : Distinct m) (key : K) : Distinct (without m key) := h.filter _

theorem Distinct.cons (h : Distinct m) (hnone : lookup m key = none) :
    Distinct ((key, value) :: m) := by
  refine List.pairwise_cons.2 ⟨fun p hp => ?_, h⟩
  have hne := lookup_eq_none.1 hnone p hp
  rw [equals_comm]
  simpa using hne

/-! ## Searches and contents -/

variable {s s' : Hashtable K V} {chains : ℕ → List Ref}

omit [JavaKey K] in
theorem mem_contents {p : K × V} : p ∈ s.contents chains ↔
    ∃ r ∈ refs chains s.table.length, pairAt s.entries r = some p := List.mem_filterMap

theorem lookup_none_of_find (h : ∀ r ∈ refs chains s.table.length, ¬ Matches s.entries key r) :
    lookup (s.contents chains) key = none := by
  rw [lookup_eq_none]
  rintro p hp hequals
  obtain ⟨r, hr, hpair⟩ := mem_contents.1 hp
  obtain ⟨entry, hentry, rfl⟩ := Option.map_eq_some_iff.1 hpair
  exact h r hr ⟨entry, hentry, hequals⟩

theorem WellFormed.eq_of_matches (h : WellFormed s chains) {r r' : Ref}
    (hr : r ∈ refs chains s.table.length) (hr' : r' ∈ refs chains s.table.length)
    (hmatches : Matches s.entries key r) (hmatches' : Matches s.entries key r') : r = r' := by
  obtain ⟨entry, hentry, hequals⟩ := hmatches
  obtain ⟨entry', hentry', hequals'⟩ := hmatches'
  have hpairs : (refs chains s.table.length).Pairwise fun r r' => ∀ e e', s.entries r = some e →
      s.entries r' = some e' → JavaKey.equals e.key e'.key = false := by
    refine (List.pairwise_filterMap.1 h.distinct).imp fun {r r'} hrr e e' he he' => ?_
    exact hrr (e.key, e.value) (by simp [pairAt, he]) (e'.key, e'.value) (by simp [pairAt, he'])
  have : Std.Symm fun r r' => ∀ e e', s.entries r = some e → s.entries r' = some e' →
      JavaKey.equals e.key e'.key = false :=
    ⟨fun r r' hrr e e' he he' => by rw [equals_comm]; exact hrr e' e he' he⟩
  by_contra hne
  have hfalse := List.Pairwise.forall hpairs hr hr' hne entry entry' hentry hentry'
  rw [JavaKey.trans _ _ _ hequals (JavaKey.symm _ _ hequals')] at hfalse
  simp at hfalse

/-! ## Growth -/

/-- **Spec lemma** for `rehash`: the table grows and keeps its contents, or the memory refuses. -/
theorem Hashtable.rehashTo_spec (h : WellFormed s chains) (memory : Memory) {newCapacity : ℤ}
    (hcapacity : newCapacity = ((2 * s.table.length + 1 : ℕ) : ℤ)) :
    ∃ N r, (∀ fuel ≥ N, s.rehashTo memory fuel newCapacity = some r) ∧
      (memory.array (2 ^ (0 + 1) * (s.table.length + 1) - 1) = false ∧
          r = .error .outOfMemoryError ∨ ∃ s' chains', r = .ok s' ∧ WellFormed s' chains' ∧
          s'.table.length = 2 * s.table.length + 1 ∧
          (s'.contents chains').Perm (s.contents chains)) := by
  have hnot : ¬ newCapacity < 0 := by omega
  have htoNat : newCapacity.toNat = 2 * s.table.length + 1 := by omega
  by_cases hmemory : memory.array (2 * s.table.length + 1) = true
  · have htable : newTable memory newCapacity =
        .ok (List.replicate (2 * s.table.length + 1) none) := by
      rw [newTable, if_neg hnot, htoNat, if_pos hmemory]
    have hreplicate : (List.replicate (2 * s.table.length + 1) (none : Option Ref)).length =
        2 * s.table.length + 1 := List.length_replicate
    obtain ⟨entries', table', chains', N, hrelinked, hrun⟩ := relinkAll_spec s.table.length
      s.entries _ (fun _ => []) (by rw [hreplicate]; omega) (Chained.empty _ _)
      (fun j hj => h.chained.linked j hj) h.chained.nodup_refs (by simp [refs_nil])
      fun r hr => by
        obtain ⟨i, hi, hri⟩ := mem_refs.1 hr
        obtain ⟨entry, hentry, -, hhash⟩ := h.chained.present i hi r hri
        exact ⟨entry, hentry, hhash⟩
    have hlength : table'.length = 2 * s.table.length + 1 := hrelinked.length.trans hreplicate
    have hperm : (refs chains' table'.length).Perm (refs chains s.table.length) := by
      have hp := hrelinked.perm
      rw [hreplicate, refs_nil, List.append_nil] at hp
      rwa [hlength]
    have hpairs : (pairs entries' (refs chains' table'.length)).Perm
        (pairs s.entries (refs chains s.table.length)) := by
      rw [pairs_congr fun r _ => pairAt_of_dataAt (hrelinked.data r)]
      exact hperm.filterMap _
    refine ⟨N, .ok ⟨entries', s.fresh, table', s.count, thresholdFor newCapacity⟩,
      fun fuel hfuel => ?_, .inr ⟨_, chains', rfl, ⟨?_, ?_, hrelinked.chained, fun i hi r hr => ?_,
        h.distinct.perm hpairs.symm, ?_⟩, hlength, hpairs⟩⟩
    · rw [Hashtable.rehashTo, htable]
      simp only [hrun fuel hfuel]
    · exact hlength.symm ▸ Nat.succ_pos _
    · exact hlength.le.trans (memory.limit _ hmemory)
    · obtain ⟨j, hj, hrj⟩ := mem_refs.1 (hperm.mem_iff.1 (mem_refs.2 ⟨i, hi, hr⟩))
      exact h.fresh j hj r hrj
    · exact h.count.trans hperm.length_eq.symm
  · have htable : newTable memory newCapacity = .error .outOfMemoryError := by
      rw [newTable, if_neg hnot, htoNat, if_neg hmemory]
    have hsize : 2 ^ (0 + 1) * (s.table.length + 1) - 1 = 2 * s.table.length + 1 := by omega
    refine ⟨0, .error .outOfMemoryError, fun fuel _ => ?_, .inl ⟨?_, rfl⟩⟩
    · rw [Hashtable.rehashTo, htable]
    · rw [hsize]
      simpa using hmemory

theorem WellFormed.newCapacity (h : WellFormed s chains) :
    jint (jint (s.table.length * 2) + 1) = ((2 * s.table.length + 1 : ℕ) : ℤ) := by
  have hlimit := h.limit
  have hdouble : jint ((s.table.length : ℤ) * 2) = (s.table.length : ℤ) * 2 :=
    jint_eq (by omega) (by omega)
  rw [hdouble, jint_eq (by omega) (by omega)]
  push_cast
  ring

/-! ## Putting a key -/

/-- The memory refuses an entry, or the table of one of the next sizes. -/
def Refused (memory : Memory) (length : ℕ) : Prop :=
  memory.entry = false ∨ ∃ k, memory.array (2 ^ (k + 1) * (length + 1) - 1) = false

theorem WellFormed.setValue (h : WellFormed s chains) {r : Ref} {entry : HashtableEntry K V}
    (hr : r ∈ refs chains s.table.length) (hentry : s.entries r = some entry)
    (hequals : JavaKey.equals entry.key key = true) (value : V) :
    let s' := { s with entries := update s.entries r (some { entry with value := value }) }
    WellFormed s' chains ∧ s'.contents chains = replace (s.contents chains) key value := by
  have hkept : ∀ x ≠ r, update s.entries r (some { entry with value := value }) x =
      s.entries x := fun x hx => update_of_ne hx ..
  have hself : update s.entries r (some { entry with value := value }) r =
      some { entry with value := value } := update_self ..
  have hnext : ∀ x, nextOf (update s.entries r (some { entry with value := value })) x =
      nextOf s.entries x := by
    intro x
    by_cases hx : x = r
    · rw [hx, nextOf, nextOf, hself, hentry]
      rfl
    · rw [nextOf, nextOf, hkept x hx]
  have hcontents : pairs (update s.entries r (some { entry with value := value }))
      (refs chains s.table.length) = replace (s.contents chains) key value := by
    rw [replace, Hashtable.contents, pairs, pairs, List.map_filterMap]
    refine List.filterMap_congr fun x hx => ?_
    by_cases hxr : x = r
    · rw [hxr, pairAt, pairAt, hself, hentry]
      simp [hequals]
    · rw [pairAt, pairAt, hkept x hxr]
      obtain ⟨other, hother⟩ := h.chained.exists_entry hx
      have hne : ¬ JavaKey.equals other.key key = true := fun heq =>
        hxr (h.eq_of_matches hx hr ⟨other, hother, heq⟩ ⟨entry, hentry, hequals⟩)
      simp [hother, hne]
  refine ⟨⟨h.pos, h.limit, ⟨fun i hi => ?_, fun i hi x hx => ?_, h.chained.nodup⟩, h.fresh, ?_,
    h.count⟩, hcontents⟩
  · exact (h.chained.linked i hi).congr fun x _ => hnext x
  · obtain ⟨other, hother, hindex, hhash⟩ := h.chained.present i hi x hx
    by_cases hxr : x = r
    · subst hxr
      rw [hentry] at hother
      obtain rfl := Option.some.inj hother
      exact ⟨_, hself, hindex, hhash⟩
    · exact ⟨other, (hkept x hxr).trans hother, hindex, hhash⟩
  · exact hcontents.symm ▸ h.distinct.replace key value

/-- A new entry is put before the chain of its bucket. -/
theorem WellFormed.insert (h : WellFormed s chains) (key : K) (value : V)
    (hnone : lookup (s.contents chains) key = none) :
    let index := indexFor (JavaKey.hashCode key) s.table.length
    let s' := { s with
      entries := update s.entries s.fresh
        (some ⟨JavaKey.hashCode key, key, value, s.bucket index⟩)
      fresh := s.fresh + 1
      table := s.table.set index (some s.fresh)
      count := s.count + 1 }
    ∃ chains', WellFormed s' chains' ∧
      (s'.contents chains').Perm ((key, value) :: s.contents chains) := by
  intro index s'
  have hi : index < s.table.length := indexFor_lt h.pos
  have hlength : s'.table.length = s.table.length := List.length_set
  have hnew : s.fresh ∉ refs chains s.table.length := by
    intro hmem
    obtain ⟨i, hi, hr⟩ := mem_refs.1 hmem
    exact lt_irrefl _ (h.fresh i hi _ hr)
  have hself : s'.entries s.fresh =
      some ⟨JavaKey.hashCode key, key, value, s.bucket index⟩ := update_self ..
  have hkept : ∀ x ≠ s.fresh, s'.entries x = s.entries x := fun x hx => update_of_ne hx ..
  have hchained := h.chained.push hi hnew hself rfl rfl rfl hkept
  have hperm : (refs (update chains index (s.fresh :: chains index)) s'.table.length).Perm
      (s.fresh :: refs chains s.table.length) := by
    rw [hlength]
    exact (refs_update_perm hi _).trans ((refs_perm hi).symm.cons _)
  have hpair : pairAt s'.entries s.fresh = some (key, value) := by rw [pairAt, hself]; rfl
  have hcontents : (s'.contents (update chains index (s.fresh :: chains index))).Perm
      ((key, value) :: s.contents chains) := by
    refine (hperm.filterMap _).trans ?_
    rw [List.filterMap_cons_some hpair]
    have hrest : List.filterMap (pairAt s'.entries) (refs chains s.table.length) =
        s.contents chains := pairs_congr fun r hr => by
      rw [pairAt, pairAt, hkept r fun heq => hnew (heq ▸ hr)]
    rw [hrest]
  have hdistinct : Distinct ((key, value) :: s.contents chains) := Distinct.cons h.distinct hnone
  refine ⟨_, ⟨?_, ?_, hchained, fun i hi' r hr => ?_, hdistinct.perm hcontents.symm, ?_⟩, hcontents⟩
  · rw [hlength]
    exact h.pos
  · rw [hlength]
    exact h.limit
  · show r < s.fresh + 1
    rcases List.mem_cons.1 (hperm.mem_iff.1 (mem_refs.2 ⟨i, hi', hr⟩)) with rfl | hr
    · exact Nat.lt_succ_self _
    · obtain ⟨j, hj, hrj⟩ := mem_refs.1 hr
      exact (h.fresh j hj r hrj).trans (Nat.lt_succ_self _)
  · show s.count + 1 = _
    rw [h.count, hperm.length_eq, List.length_cons]

/-- What `put` answers, and what is in the table after it. -/
def Put (refused : Prop) (m : List (K × V)) (key : K) (value : V) :
    Except Thrown (Option V) → List (K × V) → Prop
  | .ok (some old), m' => lookup m key = some old ∧ m'.Perm (replace m key value)
  | .ok none, m' => lookup m key = none ∧ m'.Perm ((key, value) :: m)
  | .error e, m' => e = .outOfMemoryError ∧ refused ∧ m'.Perm m

omit [JavaKey K] in
theorem Refused.grow {memory : Memory} {length : ℕ} (h : Refused memory (2 * length + 1)) :
    Refused memory length := by
  rcases h with h | ⟨k, h⟩
  · exact .inl h
  · refine .inr ⟨k + 1, ?_⟩
    have heq : 2 ^ (k + 1 + 1) * (length + 1) = 2 ^ (k + 1) * (2 * length + 1 + 1) := by ring
    rw [heq]
    exact h

theorem Put.perm {refused refused' : Prop} {a : Except Thrown (Option V)} {m₁ m₂ m' : List (K × V)}
    (h : Put refused m₁ key value a m') (hd : Distinct m₁) (hperm : m₁.Perm m₂)
    (hrefused : refused → refused') : Put refused' m₂ key value a m' := by
  match a, h with
  | .ok (some old), h =>
    exact ⟨(lookup_perm hd hperm).trans h.1, h.2.trans (hperm.map _)⟩
  | .ok none, h => exact ⟨(lookup_perm hd hperm).trans h.1, h.2.trans (hperm.cons _)⟩
  | .error e, h => exact ⟨h.1, hrefused h.2.1, h.2.2.trans hperm⟩

/-- **Spec lemma** for `put`: it returns. -/
theorem Hashtable.put_spec (memory : Memory) (key : K) (value : V) :
    ∀ (d : ℕ) (s : Hashtable K V) (chains : ℕ → List Ref), WellFormed s chains →
      0x08000000 - s.table.length = d →
      ∃ N a s' chains', (∀ fuel ≥ N, s.put memory key value fuel = some (a, s')) ∧
        WellFormed s' chains' ∧ Put (Refused memory s.table.length) (s.contents chains) key value a
          (s'.contents chains') := by
  intro d
  induction d using Nat.strong_induction_on with
  | _ d ih =>
    intro s chains h hd
    obtain ⟨found, N, hfound, hnone, hrun⟩ := s.find_spec h key
    match found, hfound with
    | some (_, r), .some before after _ hchain hmatches =>
      obtain ⟨entry, hentry, hequals⟩ := hmatches
      have hr : r ∈ refs chains s.table.length := by
        refine mem_refs.2 ⟨indexFor (JavaKey.hashCode key) s.table.length, indexFor_lt h.pos, ?_⟩
        rw [hchain]
        simp
      obtain ⟨hwell, hcontents⟩ := h.setValue hr hentry hequals value
      refine ⟨N + 1, .ok (some entry.value), _, chains, fun fuel hfuel => ?_, hwell,
        lookup_of_mem h.distinct (mem_pairs hr hentry) hequals, hcontents ▸ List.Perm.refl _⟩
      obtain ⟨k, rfl⟩ : ∃ k, fuel = k + 1 := ⟨fuel - 1, by omega⟩
      rw [Hashtable.put, Hashtable.putOnce, hrun (k + 1) (by omega)]
      simp only [hentry, Option.map_some]
    | none, _ =>
      have hlookup := lookup_none_of_find (hnone rfl)
      by_cases hthreshold : s.threshold ≤ s.count
      · obtain ⟨N₁, r, hrehash, hcases⟩ := s.rehashTo_spec h memory h.newCapacity
        rcases hcases with ⟨hrefused, rfl⟩ | ⟨s₁, chains₁, rfl, hwell, hlength, hperm⟩
        · refine ⟨max N N₁ + 1, .error .outOfMemoryError, s, chains, fun fuel hfuel => ?_, h,
            rfl, .inr ⟨0, ?_⟩, List.Perm.refl _⟩
          · obtain ⟨k, rfl⟩ : ∃ k, fuel = k + 1 := ⟨fuel - 1, by omega⟩
            have honce : s.putOnce memory key value (k + 1) =
                some (.done (.error .outOfMemoryError) s) := by
              rw [Hashtable.putOnce, hrun (k + 1) (by omega)]
              simp only
              rw [if_pos hthreshold, Hashtable.rehash, hrehash (k + 1) (by omega)]
            rw [Hashtable.put, honce]
          · exact hrefused
        · have hlimit := hwell.limit
          obtain ⟨N₂, a, s', chains', hput, hwell', hspec⟩ :=
            ih (0x08000000 - s₁.table.length) (by omega) s₁ chains₁ hwell rfl
          refine ⟨max (max N N₁) N₂ + 1, a, s', chains', fun fuel hfuel => ?_, hwell',
            hspec.perm hwell.distinct hperm fun hrefused => ?_⟩
          · obtain ⟨k, rfl⟩ : ∃ k, fuel = k + 1 := ⟨fuel - 1, by omega⟩
            have honce : s.putOnce memory key value (k + 1) = some (.again s₁) := by
              rw [Hashtable.putOnce, hrun (k + 1) (by omega)]
              simp only
              rw [if_pos hthreshold, Hashtable.rehash, hrehash (k + 1) (by omega)]
            rw [Hashtable.put, honce]
            exact hput k (by omega)
          · rw [hlength] at hrefused
            exact hrefused.grow
      · by_cases hmemory : memory.entry = true
        · obtain ⟨chains', hwell, hperm⟩ := h.insert key value hlookup
          refine ⟨N + 1, .ok none, _, chains', fun fuel hfuel => ?_, hwell, hlookup, hperm⟩
          obtain ⟨k, rfl⟩ : ∃ k, fuel = k + 1 := ⟨fuel - 1, by omega⟩
          rw [Hashtable.put, Hashtable.putOnce, hrun (k + 1) (by omega)]
          simp only
          rw [if_neg hthreshold, if_pos hmemory]
        · refine ⟨N + 1, .error .outOfMemoryError, s, chains, fun fuel hfuel => ?_, h, rfl,
            .inl (by simpa using hmemory), List.Perm.refl _⟩
          obtain ⟨k, rfl⟩ : ∃ k, fuel = k + 1 := ⟨fuel - 1, by omega⟩
          have honce : s.putOnce memory key value (k + 1) =
              some (.done (.error .outOfMemoryError) s) := by
            rw [Hashtable.putOnce, hrun (k + 1) (by omega)]
            simp only
            rw [if_neg hthreshold, if_neg hmemory]
          rw [Hashtable.put, honce]

/-! ## Removing a key -/

theorem WellFormed.contents_without (h : WellFormed s chains) {r : Ref} {entry : HashtableEntry K V}
    {entries' : Ref → Option (HashtableEntry K V)} {rs : List Ref}
    (hperm : (refs chains s.table.length).Perm (r :: rs)) (hentry : s.entries r = some entry)
    (hequals : JavaKey.equals entry.key key = true)
    (hdata : ∀ x, dataAt entries' x = dataAt s.entries x) :
    (pairs entries' rs).Perm (without (s.contents chains) key) ∧
      lookup (s.contents chains) key = some entry.value := by
  have hr : r ∈ refs chains s.table.length := hperm.mem_iff.2 List.mem_cons_self
  have hnodup : (r :: rs).Nodup := hperm.nodup_iff.1 h.chained.nodup_refs
  refine ⟨?_, lookup_of_mem h.distinct (mem_pairs hr hentry) hequals⟩
  have hpair : pairAt s.entries r = some (entry.key, entry.value) := by rw [pairAt, hentry]; rfl
  have hall : (s.contents chains).Perm ((entry.key, entry.value) :: pairs s.entries rs) := by
    have h := hperm.filterMap (pairAt s.entries)
    rwa [List.filterMap_cons_some hpair] at h
  have hrest : without (pairs s.entries rs) key = pairs s.entries rs := by
    refine List.filter_eq_self.2 fun p hp => ?_
    obtain ⟨x, hx, hxp⟩ := List.mem_filterMap.1 hp
    obtain ⟨other, hother, rfl⟩ := Option.map_eq_some_iff.1 hxp
    have hne : ¬ JavaKey.equals other.key key = true := by
      intro heq
      have hxr := h.eq_of_matches (hperm.mem_iff.2 (List.mem_cons_of_mem r hx)) hr
        ⟨other, hother, heq⟩ ⟨entry, hentry, hequals⟩
      exact (List.nodup_cons.1 hnodup).1 (hxr ▸ hx)
    simpa using hne
  rw [pairs_congr fun x _ => pairAt_of_dataAt (hdata x)]
  refine List.Perm.trans ?_ (hall.filter _).symm
  rw [List.filter_cons_of_neg (by simpa using hequals)]
  exact (List.Perm.of_eq hrest).symm

/-- **Spec lemma** for `remove`. -/
theorem Hashtable.remove_spec (h : WellFormed s chains) (key : K) : ∃ N s' chains', (∀ fuel ≥ N,
        s.remove key fuel = some (lookup (s.contents chains) key, s')) ∧
      WellFormed s' chains' ∧ (s'.contents chains').Perm (without (s.contents chains) key) := by
  obtain ⟨found, N, hfound, hnone, hrun⟩ := s.find_spec h key
  have hi : indexFor (JavaKey.hashCode key) s.table.length < s.table.length := indexFor_lt h.pos
  match found, hfound with
  | none, _ =>
    have hlookup := lookup_none_of_find (hnone rfl)
    refine ⟨N, s, chains, fun fuel hfuel => ?_, h, ?_⟩
    · rw [Hashtable.remove, hrun fuel hfuel, hlookup]
    · have hall : without (s.contents chains) key = s.contents chains := by
        refine List.filter_eq_self.2 fun p hp => ?_
        simpa using lookup_eq_none.1 hlookup p hp
      rw [hall]
  | some (_, r), .some before after _ hchain hmatches =>
    obtain ⟨entry, hentry, hequals⟩ := hmatches
    have hlinked := h.chained.linked _ hi
    have hnodup := h.chained.nodup _ hi
    rw [hchain] at hlinked hnodup
    have hrefs : (refs chains s.table.length).Perm (r :: refs (update chains
        (indexFor (JavaKey.hashCode key) s.table.length) (before ++ after)) s.table.length) := by
      refine (refs_perm hi).trans (List.Perm.trans ?_ ((refs_update_perm hi _).symm.cons r))
      rw [hchain, List.append_assoc, List.append_assoc, List.cons_append]
      exact List.perm_middle
    -- the chain without the entry, linked by the entry before it or by the table
    have hwell : ∀ (entries' : Ref → Option (HashtableEntry K V)) (table' : List (Option Ref)),
        table'.length = s.table.length →
        (∀ j ≠ indexFor (JavaKey.hashCode key) s.table.length, table'.getD j none = s.bucket j) →
        Linked (nextOf entries') (table'.getD
          (indexFor (JavaKey.hashCode key) s.table.length) none) (before ++ after) →
        (∀ j < s.table.length, j ≠ indexFor (JavaKey.hashCode key) s.table.length →
          ∀ x ∈ chains j, nextOf entries' x = nextOf s.entries x) →
        (∀ x, dataAt entries' x = dataAt s.entries x) →
        WellFormed { s with
          entries := entries'
          table := table'
          count := s.count - 1 } (update chains
            (indexFor (JavaKey.hashCode key) s.table.length) (before ++ after)) := by
      intro entries' table' hlength hbucket hlinked' hothers hdata
      have hsub : ∀ j < s.table.length, ∀ x ∈ update chains
          (indexFor (JavaKey.hashCode key) s.table.length) (before ++ after) j, x ∈ chains j := by
        intro j hj x hx
        by_cases hij : j = indexFor (JavaKey.hashCode key) s.table.length
        · subst hij
          rw [update_self, List.mem_append] at hx
          rw [hchain, List.mem_append, List.mem_cons]
          exact hx.imp id .inr
        · rwa [update_of_ne hij] at hx
      refine ⟨hlength.symm ▸ h.pos, hlength.symm ▸ h.limit, ⟨fun j hj => ?_, fun j hj x hx => ?_,
        fun j hj => ?_⟩, fun j hj x hx => ?_, ?_, ?_⟩
      · change j < table'.length at hj
        rw [hlength] at hj
        by_cases hij : j = indexFor (JavaKey.hashCode key) s.table.length
        · rw [hij, update_self]
          exact hlinked'
        · rw [update_of_ne hij]
          change Linked (nextOf entries') (table'.getD j none) (chains j)
          rw [hbucket j hij]
          exact (h.chained.linked j hj).congr (hothers j hj hij)
      · change j < table'.length at hj
        rw [hlength] at hj
        obtain ⟨other, hother, hindex, hhash⟩ := h.chained.present j hj x (hsub j hj x hx)
        have hx' := hdata x
        rw [dataAt, dataAt, hother] at hx'
        obtain ⟨other', hother', heq⟩ := Option.map_eq_some_iff.1 hx'
        obtain ⟨hhash', hkey', -⟩ : other'.hash = other.hash ∧ other'.key = other.key ∧
            other'.value = other.value := by simpa using heq
        refine ⟨other', hother', ?_, ?_⟩
        · change indexFor other'.hash table'.length = j
          rw [hlength, hhash', hindex]
        · rw [hhash', hkey', hhash]
      · change j < table'.length at hj
        rw [hlength] at hj
        by_cases hij : j = indexFor (JavaKey.hashCode key) s.table.length
        · rw [hij, update_self]
          exact (List.nodup_middle.1 hnodup).of_cons
        · rw [update_of_ne hij]
          exact h.chained.nodup j hj
      · change j < table'.length at hj
        rw [hlength] at hj
        exact h.fresh j hj x (hsub j hj x hx)
      · change Distinct (pairs entries' (refs _ table'.length))
        rw [hlength]
        exact Distinct.perm (h.distinct.without key)
          (h.contents_without hrefs hentry hequals hdata).1.symm
      · change s.count - 1 = (refs _ table'.length).length
        rw [hlength, h.count, hrefs.length_eq]
        rfl
    obtain ⟨hcontents, hlookup⟩ := h.contents_without hrefs hentry hequals fun x => rfl
    rcases List.eq_nil_or_concat before with rfl | ⟨before, p, rfl⟩
    · obtain ⟨-, hafter⟩ := hlinked.unlinkFirst
      have hnext : nextOf s.entries r = entry.next := by rw [nextOf, hentry]; rfl
      rw [hnext] at hafter
      have hlength : (s.table.set (indexFor (JavaKey.hashCode key) s.table.length)
          entry.next).length = s.table.length := List.length_set
      refine ⟨N, _, _, fun fuel hfuel => ?_, hwell s.entries (s.table.set
        (indexFor (JavaKey.hashCode key) s.table.length) entry.next) hlength (fun j hj => ?_) ?_
        (fun _ _ _ _ _ => rfl) fun _ => rfl, ?_⟩
      · rw [Hashtable.remove, hrun fuel hfuel, hlookup]
        simp only [hentry]
        rfl
      · simp [Hashtable.bucket, List.getD_eq_getElem?_getD, List.getElem?_set_ne hj.symm]
      · have hfirst : (s.table.set (indexFor (JavaKey.hashCode key) s.table.length)
            entry.next).getD (indexFor (JavaKey.hashCode key) s.table.length) none =
              entry.next := by
          simp [List.getD_eq_getElem?_getD, hi]
        rw [hfirst]
        exact hafter
      · rw [Hashtable.contents]
        simp only [hlength]
        exact hcontents
    · have hp : p ∈ chains (indexFor (JavaKey.hashCode key) s.table.length) := by
        rw [hchain]
        simp
      obtain ⟨previous, hprevious, -⟩ := h.chained.present _ hi p hp
      obtain ⟨entries', hentries'⟩ : ∃ entries', entries' = update s.entries p
          (some { previous with next := entry.next }) := ⟨_, rfl⟩
      have hself : entries' p = some { previous with next := entry.next } := by
        rw [hentries', update_self]
      have hkept : ∀ x ≠ p, entries' x = s.entries x := fun x hx => by
        rw [hentries', update_of_ne hx]
      have hdata : ∀ x, dataAt entries' x = dataAt s.entries x := by
        intro x
        by_cases hx : x = p
        · rw [hx, dataAt, dataAt, hself, hprevious]
          rfl
        · rw [dataAt, dataAt, hkept x hx]
      have hnext : nextOf s.entries r = entry.next := by rw [nextOf, hentry]; rfl
      rw [List.concat_eq_append, List.append_assoc, List.singleton_append] at hlinked hnodup
      have hunlinked : Linked (nextOf entries') (s.bucket
          (indexFor (JavaKey.hashCode key) s.table.length)) (before ++ p :: after) := by
        refine hlinked.unlink hnodup ?_ fun x hx => by rw [nextOf, nextOf, hkept x hx]
        rw [hnext, nextOf, hself]
        rfl
      refine ⟨N, _, _, fun fuel hfuel => ?_, hwell entries' s.table rfl (fun _ _ => rfl) ?_
        (fun j hj hij x hx => ?_) hdata, ?_⟩
      · rw [Hashtable.remove, hrun fuel hfuel, hlookup]
        simp only [hentry, List.concat_eq_append, List.getLast?_append, List.getLast?_singleton,
          Option.some_or, hprevious, Option.map_some, hentries']
      · rw [List.concat_eq_append, List.append_assoc, List.singleton_append]
        exact hunlinked
      · have hxp : x ≠ p := by
          rintro rfl
          exact hij (h.chained.eq_index hj hi hx hp)
        rw [nextOf, nextOf, hkept x hxp]
      · exact (h.contents_without hrefs hentry hequals hdata).1

end CldcVm.Hashing
