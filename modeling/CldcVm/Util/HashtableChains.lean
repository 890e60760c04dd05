import CldcVm.Util.Hashtable

/-!
# The chains of a hash table

Results:

* `WellFormed`: each bucket leads to a chain of entries whose keys belong there.
* `findEntry_spec`: the search in a chain.
* `Hashtable.find_spec`: the search in a table finds the entry with the key, if there is one.
-/

namespace CldcVm.Hashing

open LinkedChain
open Function (update update_of_ne update_self)

variable {K V : Type}

/-! ## Buckets -/

/-- The entries of the buckets below `n`. -/
def refs (chains : ℕ → List Ref) (n : ℕ) : List Ref := (List.range n).flatMap chains

/-- The entries of the other buckets. -/
def others (chains : ℕ → List Ref) (n i : ℕ) : List Ref := ((List.range n).erase i).flatMap chains

variable {chains : ℕ → List Ref} {n i : ℕ}

variable {r : Ref}

theorem mem_refs : r ∈ refs chains n ↔ ∃ i < n, r ∈ chains i := by
  simp [refs]

theorem refs_perm (hi : i < n) : (refs chains n).Perm (chains i ++ others chains n i) := by
  have hmem : i ∈ List.range n := List.mem_range.2 hi
  exact (List.perm_cons_erase hmem).flatMap_right chains

theorem others_update (l : List Ref) : others (update chains i l) n i = others chains n i := by
  refine List.flatMap_congr fun j hj => ?_
  rw [List.Nodup.mem_erase_iff List.nodup_range] at hj
  exact update_of_ne hj.1 ..

theorem refs_update_perm (hi : i < n) (l : List Ref) :
    (refs (update chains i l) n).Perm (l ++ others chains n i) := by
  have h := @refs_perm (update chains i l) n i hi
  rwa [update_self, others_update] at h

/-! ## Entries -/

/-- The `next` field. -/
def nextOf (entries : Ref → Option (HashtableEntry K V)) (r : Ref) : Option Ref :=
  (entries r).bind HashtableEntry.next

/-- The key and the value. -/
def pairAt (entries : Ref → Option (HashtableEntry K V)) (r : Ref) : Option (K × V) :=
  (entries r).map fun entry => (entry.key, entry.value)

/-- The keys and values of some entries. -/
def pairs (entries : Ref → Option (HashtableEntry K V)) (rs : List Ref) : List (K × V) :=
  rs.filterMap (pairAt entries)

variable {entries entries' : Ref → Option (HashtableEntry K V)}

theorem pairs_congr {rs : List Ref} (h : ∀ r ∈ rs, pairAt entries' r = pairAt entries r) :
    pairs entries' rs = pairs entries rs :=
  List.filterMap_congr h

theorem pairs_append (rs rs' : List Ref) :
    pairs entries (rs ++ rs') = pairs entries rs ++ pairs entries rs' := List.filterMap_append

theorem mem_pairs {rs : List Ref} {entry : HashtableEntry K V} (hr : r ∈ rs)
    (hentry : entries r = some entry) : (entry.key, entry.value) ∈ pairs entries rs :=
  List.mem_filterMap.2 ⟨r, hr, by rw [pairAt, hentry]; rfl⟩

/-! ## Tables -/

variable [JavaKey K]

/-- Keys are pairwise different. -/
def Distinct (m : List (K × V)) : Prop :=
  m.Pairwise fun p q => JavaKey.equals p.1 q.1 = false

theorem equals_comm (k k' : K) : JavaKey.equals k k' = JavaKey.equals k' k := by
  rw [Bool.eq_iff_iff]
  exact ⟨JavaKey.symm k k', JavaKey.symm k' k⟩

theorem Distinct.perm {m m' : List (K × V)} (h : Distinct m) (hperm : m.Perm m') : Distinct m' := by
  refine (hperm.pairwise_iff fun {p q} hpq => ?_).1 h
  rw [equals_comm]
  exact hpq

/-- Entries that belong in the buckets they are chained in. -/
structure Chained (entries : Ref → Option (HashtableEntry K V)) (table : List (Option Ref))
    (chains : ℕ → List Ref) : Prop where
  linked : ∀ i < table.length, Linked (nextOf entries) (table.getD i none) (chains i)
  present : ∀ i < table.length, ∀ r ∈ chains i, ∃ entry, entries r = some entry ∧
    indexFor entry.hash table.length = i ∧ entry.hash = JavaKey.hashCode entry.key
  nodup : ∀ i < table.length, (chains i).Nodup

variable {table : List (Option Ref)} {s s' : Hashtable K V} {key : K}

theorem Chained.eq_index (h : Chained entries table chains) {j : ℕ} (hi : i < table.length)
    (hj : j < table.length) (hri : r ∈ chains i) (hrj : r ∈ chains j) : i = j := by
  obtain ⟨entry, hentry, hindex, -⟩ := h.present i hi r hri
  obtain ⟨entry', hentry', hindex', -⟩ := h.present j hj r hrj
  rw [hentry] at hentry'
  obtain rfl := Option.some.inj hentry'
  exact hindex.symm.trans hindex'

theorem Chained.exists_entry (h : Chained entries table chains)
    (hr : r ∈ refs chains table.length) : ∃ entry, entries r = some entry := by
  obtain ⟨i, hi, hri⟩ := mem_refs.1 hr
  obtain ⟨entry, hentry, -⟩ := h.present i hi r hri
  exact ⟨entry, hentry⟩

theorem Chained.length_pairs (h : Chained entries table chains) :
    (pairs entries (refs chains table.length)).length = (refs chains table.length).length := by
  have hsome : ∀ rs : List Ref, (∀ r ∈ rs, ∃ entry, entries r = some entry) →
      (pairs entries rs).length = rs.length := by
    intro rs
    induction rs with
    | nil => exact fun _ => rfl
    | cons r rs ih =>
      intro hrs
      obtain ⟨entry, hentry⟩ := hrs r List.mem_cons_self
      have hpair : pairAt entries r = some (entry.key, entry.value) := by rw [pairAt, hentry]; rfl
      rw [pairs, List.filterMap_cons_some hpair, List.length_cons, List.length_cons]
      exact congrArg (· + 1) (ih fun x hx => hrs x (List.mem_cons_of_mem r hx))
  exact hsome _ fun r hr => h.exists_entry hr

theorem Chained.nodup_refs (h : Chained entries table chains) :
    (refs chains table.length).Nodup := by
  refine List.nodup_flatMap.2 ⟨fun i hi => h.nodup i (List.mem_range.1 hi), ?_⟩
  refine List.Pairwise.imp_of_mem (fun {i j} hi hj hij r hri hrj => ?_) List.nodup_range
  exact hij (h.eq_index (List.mem_range.1 hi) (List.mem_range.1 hj) hri hrj)

theorem Chained.empty (entries : Ref → Option (HashtableEntry K V)) (n : ℕ) :
    Chained entries (List.replicate n none) fun _ => [] := by
  refine ⟨fun i _ => ?_, fun _ _ _ hr => ?_, fun _ _ => List.nodup_nil⟩
  · have hfirst : (List.replicate n (none : Option Ref)).getD i none = none := by
      rw [List.getD_eq_getElem?_getD, List.getElem?_replicate]
      split <;> rfl
    rw [hfirst]
    exact Linked.nil
  · simp at hr

theorem refs_nil (n : ℕ) : refs (fun _ => []) n = [] := by
  simp [refs]

/-- A table with its chains. -/
structure WellFormed (s : Hashtable K V) (chains : ℕ → List Ref) : Prop where
  pos : 0 < s.table.length
  limit : s.table.length ≤ 0x08000000
  chained : Chained s.entries s.table chains
  fresh : ∀ i < s.table.length, ∀ r ∈ chains i, r < s.fresh
  distinct : Distinct (pairs s.entries (refs chains s.table.length))
  count : s.count = (refs chains s.table.length).length

/-- The keys and values of a table. -/
def Hashtable.contents (s : Hashtable K V) (chains : ℕ → List Ref) : List (K × V) :=
  pairs s.entries (refs chains s.table.length)

theorem indexFor_lt {hash : BitVec 32} (hn : 0 < n) : indexFor hash n < n := Nat.mod_lt _ hn

/-! ## Searches -/

/-- An entry has the key that is looked for. -/
def Matches (entries : Ref → Option (HashtableEntry K V)) (key : K) (r : Ref) : Prop :=
  ∃ entry, entries r = some entry ∧ JavaKey.equals entry.key key = true

/-- What a search of a chain finds: no entry, or the first one that matches and the one before. -/
inductive Found (entries : Ref → Option (HashtableEntry K V)) (key : K) (prev : Option Ref)
    (chain : List Ref) : Option (Option Ref × Ref) → Prop
  | none : (∀ r ∈ chain, ¬ Matches entries key r) → Found entries key prev chain none
  | some (before after : List Ref) (r : Ref) : chain = before ++ r :: after →
      Matches entries key r → Found entries key prev chain (some (before.getLast?.or prev, r))

theorem findEntry_spec {chain : List Ref} (hpresent : ∀ r ∈ chain, ∃ entry, entries r = some entry ∧
      entry.hash = JavaKey.hashCode entry.key) :
    ∀ e prev, Linked (nextOf entries) e chain → ∃ found, Found entries key prev chain found ∧
      ∀ fuel > chain.length, findEntry entries key fuel e prev = some found := by
  induction chain with
  | nil =>
    intro e prev hlinked
    match hlinked with
    | .nil =>
      refine ⟨none, .none (by simp), fun fuel hfuel => ?_⟩
      obtain ⟨k, rfl⟩ : ∃ k, fuel = k + 1 := ⟨fuel - 1, by omega⟩
      rfl
  | cons r chain ih =>
    intro e prev hlinked
    obtain ⟨rfl, hrest⟩ := hlinked.unlinkFirst
    obtain ⟨entry, hentry, hhash⟩ := hpresent r List.mem_cons_self
    by_cases hequals : JavaKey.equals entry.key key = true
    · have hcode : entry.hash = JavaKey.hashCode key := hhash.trans (JavaKey.hash _ _ hequals)
      refine ⟨_, .some [] chain r rfl ⟨entry, hentry, hequals⟩, fun fuel hfuel => ?_⟩
      obtain ⟨k, rfl⟩ : ∃ k, fuel = k + 1 := ⟨fuel - 1, by simp at hfuel; omega⟩
      simp only [findEntry, hentry]
      exact if_pos ⟨hcode, hequals⟩
    · have hnext : nextOf entries r = entry.next := by rw [nextOf, hentry]; rfl
      rw [hnext] at hrest
      obtain ⟨found, hfound, hrun⟩ := ih (fun x hx => hpresent x (List.mem_cons_of_mem r hx))
        entry.next (some r) hrest
      refine ⟨found, ?_, fun fuel hfuel => ?_⟩
      · match hfound with
        | .none hnone =>
          refine .none fun x hx => ?_
          rcases List.mem_cons.1 hx with rfl | hx
          · rintro ⟨entry', hentry', hequals'⟩
            rw [hentry] at hentry'
            rw [← Option.some.inj hentry'] at hequals'
            exact hequals hequals'
          · exact hnone x hx
        | .some before after x hchain hx =>
          have hlast : (r :: before).getLast?.or prev = before.getLast?.or (some r) := by
            match before with
            | [] => rfl
            | b :: before => rfl
          rw [← hlast]
          exact .some (r :: before) after x (by rw [hchain]; rfl) hx
      · obtain ⟨k, rfl⟩ : ∃ k, fuel = k + 1 := ⟨fuel - 1, by simp at hfuel; omega⟩
        simp only [findEntry, hentry]
        rw [if_neg fun h => hequals h.2]
        exact hrun k (by simp at hfuel; omega)

theorem Chained.index_of_matches (h : Chained entries table chains) {j : ℕ} (hj : j < table.length)
    (hr : r ∈ chains j) (hmatches : Matches entries key r) :
    j = indexFor (JavaKey.hashCode key) table.length := by
  obtain ⟨entry, hentry, hindex, hhash⟩ := h.present j hj r hr
  obtain ⟨entry', hentry', hequals⟩ := hmatches
  rw [hentry] at hentry'
  obtain rfl := Option.some.inj hentry'
  rw [← hindex, hhash, JavaKey.hash _ _ hequals]

/-- **Spec lemma** for the search of a key. -/
theorem Hashtable.find_spec (h : WellFormed s chains) (key : K) :
    ∃ found N, Found s.entries key none (chains (indexFor (JavaKey.hashCode key) s.table.length))
        found ∧ (found = none → ∀ r ∈ refs chains s.table.length, ¬ Matches s.entries key r) ∧
      ∀ fuel ≥ N, s.find key fuel = some found := by
  have hi : indexFor (JavaKey.hashCode key) s.table.length < s.table.length := indexFor_lt h.pos
  have hpresent : ∀ r ∈ chains (indexFor (JavaKey.hashCode key) s.table.length),
      ∃ entry, s.entries r = some entry ∧ entry.hash = JavaKey.hashCode entry.key := by
    intro r hr
    obtain ⟨entry, hentry, -, hhash⟩ := h.chained.present _ hi r hr
    exact ⟨entry, hentry, hhash⟩
  obtain ⟨found, hfound, hrun⟩ := findEntry_spec hpresent _ none (h.chained.linked _ hi)
  refine ⟨found, _, hfound, ?_, fun fuel hfuel => hrun fuel hfuel⟩
  rintro rfl r hr hmatches
  obtain ⟨j, hj, hrj⟩ := mem_refs.1 hr
  rw [h.chained.index_of_matches hj hrj hmatches] at hrj
  match hfound with
  | .none hnone => exact hnone r hrj hmatches

/-! ## Growth -/

/-- The hash code, the key and the value. -/
def dataAt (entries : Ref → Option (HashtableEntry K V)) (r : Ref) : Option (BitVec 32 × K × V) :=
  (entries r).map fun entry => (entry.hash, entry.key, entry.value)

omit [JavaKey K] in
theorem pairAt_of_dataAt {r : Ref} (h : dataAt entries' r = dataAt entries r) :
    pairAt entries' r = pairAt entries r := by
  have hpair : ∀ entries : Ref → Option (HashtableEntry K V),
      pairAt entries r = (dataAt entries r).map Prod.snd := by
    intro entries
    rw [pairAt, dataAt, Option.map_map]
    rfl
  rw [hpair, hpair, h]

/-- The entries that one of the loops of `rehash` has put into the new table. -/
structure Relinked (entries : Ref → Option (HashtableEntry K V)) (table : List (Option Ref))
    (chains : ℕ → List Ref) (todo : List Ref) (entries' : Ref → Option (HashtableEntry K V))
    (table' : List (Option Ref)) (chains' : ℕ → List Ref) : Prop where
  length : table'.length = table.length
  chained : Chained entries' table' chains'
  perm : (refs chains' table.length).Perm (todo ++ refs chains table.length)
  kept : ∀ r ∉ todo, entries' r = entries r
  data : ∀ r, dataAt entries' r = dataAt entries r

/-- **Step lemma**: an entry is put before the chain of its bucket. -/
theorem Chained.push (h : Chained entries table chains) {r : Ref} {entry : HashtableEntry K V}
    (hi : i < table.length) (hr : r ∉ refs chains table.length)
    (hentry : entries' r = some entry) (hindex : indexFor entry.hash table.length = i)
    (hhash : entry.hash = JavaKey.hashCode entry.key) (hnext : entry.next = table.getD i none)
    (hkept : ∀ x ≠ r, entries' x = entries x) :
    Chained entries' (table.set i (some r)) (update chains i (r :: chains i)) := by
  have hnot : ∀ j < table.length, r ∉ chains j := fun j hj hrj => hr (mem_refs.2 ⟨j, hj, hrj⟩)
  have hnextOf : ∀ x ≠ r, nextOf entries' x = nextOf entries x := by
    intro x hx
    rw [nextOf, nextOf, hkept x hx]
  have hlength : (table.set i (some r)).length = table.length := List.length_set
  refine ⟨fun j hj => ?_, fun j hj x hx => ?_, fun j hj => ?_⟩
  · rw [hlength] at hj
    by_cases hij : j = i
    · subst hij
      have hfirst : (table.set j (some r)).getD j none = some r := by
        simp [List.getD_eq_getElem?_getD, hj]
      rw [hfirst, update_self]
      refine (h.linked j hj).push (hnot j hj) ?_ hnextOf
      rw [nextOf, hentry]
      exact hnext
    · have hother : (table.set i (some r)).getD j none = table.getD j none := by
        simp [List.getD_eq_getElem?_getD, List.getElem?_set_ne (Ne.symm hij)]
      rw [hother, update_of_ne hij]
      refine (h.linked j hj).congr fun x hx => hnextOf x ?_
      rintro rfl
      exact hnot j hj hx
  · rw [hlength] at hj ⊢
    by_cases hxr : x = r
    · subst hxr
      have hij : j = i := by
        by_contra hij
        rw [update_of_ne hij] at hx
        exact hnot j hj hx
      exact ⟨entry, hentry, by rw [hij, hindex], hhash⟩
    · have hxj : x ∈ chains j := by
        by_cases hij : j = i
        · subst hij
          rw [update_self] at hx
          exact (List.mem_cons.1 hx).resolve_left hxr
        · rwa [update_of_ne hij] at hx
      rw [hkept x hxr]
      exact h.present j hj x hxj
  · rw [hlength] at hj
    by_cases hij : j = i
    · subst hij
      rw [update_self]
      exact List.nodup_cons.2 ⟨hnot j hj, h.nodup j hj⟩
    · rw [update_of_ne hij]
      exact h.nodup j hj

/-- **Run lemma** for the inner loop of `rehash`. -/
theorem relink_spec {todo : List Ref} :
    ∀ (old : Option Ref) (entries : Ref → Option (HashtableEntry K V)) (table : List (Option Ref))
      (chains : ℕ → List Ref), 0 < table.length → Chained entries table chains →
      Linked (nextOf entries) old todo → todo.Nodup → (∀ r ∈ todo, r ∉ refs chains table.length) →
      (∀ r ∈ todo, ∃ entry, entries r = some entry ∧ entry.hash = JavaKey.hashCode entry.key) →
      ∃ entries' table' chains', Relinked entries table chains todo entries' table' chains' ∧
        ∀ fuel > todo.length, relink fuel old entries table = some (entries', table') := by
  induction todo with
  | nil =>
    intro old entries table chains _ hchained hlinked _ _ _
    match hlinked with
    | .nil =>
      refine ⟨entries, table, chains, ⟨rfl, hchained, List.Perm.refl _, fun _ _ => rfl,
        fun _ => rfl⟩, fun fuel hfuel => ?_⟩
      obtain ⟨k, rfl⟩ : ∃ k, fuel = k + 1 := ⟨fuel - 1, by omega⟩
      rfl
  | cons r todo ih =>
    intro old entries table chains hpos hchained hlinked hnodup hnew hpresent
    obtain ⟨rfl, hrest⟩ := hlinked.unlinkFirst
    obtain ⟨entry, hentry, hhash⟩ := hpresent r List.mem_cons_self
    obtain ⟨hrtodo, hnodup⟩ := List.nodup_cons.1 hnodup
    have hi : indexFor entry.hash table.length < table.length := indexFor_lt hpos
    have hnext : nextOf entries r = entry.next := by rw [nextOf, hentry]; rfl
    rw [hnext] at hrest
    obtain ⟨entries₁, hentries₁⟩ : ∃ entries₁, entries₁ = update entries r
        (some { entry with next := table.getD (indexFor entry.hash table.length) none }) := ⟨_, rfl⟩
    have hself : entries₁ r =
        some { entry with next := table.getD (indexFor entry.hash table.length) none } := by
      rw [hentries₁, update_self]
    have hkept : ∀ x ≠ r, entries₁ x = entries x := fun x hx => by
      rw [hentries₁, update_of_ne hx]
    have hpush := hchained.push hi (hnew r List.mem_cons_self) hself rfl hhash rfl hkept
    have hlength : (table.set (indexFor entry.hash table.length) (some r)).length = table.length :=
      List.length_set
    have hperm := @refs_update_perm chains table.length _ hi
      (r :: chains (indexFor entry.hash table.length))
    have hlinked₁ : Linked (nextOf entries₁) entry.next todo := by
      refine hrest.congr fun x hx => ?_
      have hxr : x ≠ r := fun heq => hrtodo (heq ▸ hx)
      rw [nextOf, nextOf, hkept x hxr]
    have hnew₁ : ∀ x ∈ todo, x ∉ refs (update chains (indexFor entry.hash table.length)
        (r :: chains (indexFor entry.hash table.length))) table.length := by
      intro x hx hmem
      rw [hperm.mem_iff, List.cons_append, List.mem_cons, ← (refs_perm hi).mem_iff] at hmem
      rcases hmem with rfl | hmem
      · exact hrtodo hx
      · exact hnew x (List.mem_cons_of_mem r hx) hmem
    obtain ⟨entries', table', chains', hrelinked, hrun⟩ := ih entry.next entries₁ _ _
      (by rw [hlength]; exact hpos) hpush hlinked₁ hnodup (by rw [hlength]; exact hnew₁)
      fun x hx => by
        have hxr : x ≠ r := fun heq => hrtodo (heq ▸ hx)
        rw [hkept x hxr]
        exact hpresent x (List.mem_cons_of_mem r hx)
    refine ⟨entries', table', chains', ⟨?_, hrelinked.chained, ?_, fun x hx => ?_, fun x => ?_⟩,
      fun fuel hfuel => ?_⟩
    · rw [hrelinked.length, hlength]
    · have h := hrelinked.perm
      rw [hlength] at h
      refine h.trans ((hperm.append_left todo).trans ?_)
      rw [List.cons_append, List.cons_append]
      exact List.perm_middle.trans (((refs_perm hi).symm.append_left todo).cons r)
    · rw [List.mem_cons, not_or] at hx
      rw [hrelinked.kept x hx.2, hkept x hx.1]
    · rw [hrelinked.data x]
      by_cases hxr : x = r
      · subst hxr
        rw [dataAt, dataAt, hself, hentry]
        rfl
      · rw [dataAt, dataAt, hkept x hxr]
    · obtain ⟨k, rfl⟩ : ∃ k, fuel = k + 1 := ⟨fuel - 1, by simp at hfuel; omega⟩
      simp only [relink, hentry, ← hentries₁]
      exact hrun k (by simp at hfuel; omega)

theorem refs_succ (chains : ℕ → List Ref) (n : ℕ) :
    refs chains (n + 1) = refs chains n ++ chains n := by
  simp [refs, List.range_succ]

/-- **Run lemma** for the outer loop of `rehash`. -/
theorem relinkAll_spec {oldTable : List (Option Ref)} {old : ℕ → List Ref} :
    ∀ (i : ℕ) (entries : Ref → Option (HashtableEntry K V)) (table : List (Option Ref))
      (chains : ℕ → List Ref), 0 < table.length → Chained entries table chains →
      (∀ j < i, Linked (nextOf entries) (oldTable.getD j none) (old j)) →
      (refs old i).Nodup → (∀ r ∈ refs old i, r ∉ refs chains table.length) →
      (∀ r ∈ refs old i, ∃ entry, entries r = some entry ∧
        entry.hash = JavaKey.hashCode entry.key) → ∃ entries' table' chains' N,
        Relinked entries table chains (refs old i) entries' table' chains' ∧
        ∀ fuel ≥ N, relinkAll fuel oldTable i entries table = some (entries', table') := by
  intro i
  induction i with
  | zero =>
    intro entries table chains _ hchained _ _ _ _
    exact ⟨entries, table, chains, 0, ⟨rfl, hchained, List.Perm.refl _, fun _ _ => rfl,
      fun _ => rfl⟩, fun _ _ => rfl⟩
  | succ i ih =>
    intro entries table chains hpos hchained hlinked hnodup hnew hpresent
    rw [refs_succ] at hnodup hnew hpresent
    obtain ⟨hnodup₁, hnodup₂, hdisjoint⟩ := List.nodup_append.1 hnodup
    obtain ⟨entries₁, table₁, chains₁, hone, hrun₁⟩ := relink_spec (oldTable.getD i none) entries
      table chains hpos hchained (hlinked i (by omega)) hnodup₂
      (fun r hr => hnew r (List.mem_append_right _ hr))
      fun r hr => hpresent r (List.mem_append_right _ hr)
    have hkept : ∀ r ∈ refs old i, entries₁ r = entries r :=
      fun r hr => hone.kept r fun hr' => hdisjoint r hr r hr' rfl
    obtain ⟨entries', table', chains', N, hrest, hrun₂⟩ := ih entries₁ table₁ chains₁
      (by rw [hone.length]; exact hpos) hone.chained
      (fun j hj => (hlinked j (by omega)).congr fun r hr => by
        rw [nextOf, nextOf, hkept r (mem_refs.2 ⟨j, hj, hr⟩)])
      hnodup₁
      (fun r hr hmem => by
        rw [hone.length, hone.perm.mem_iff, List.mem_append] at hmem
        rcases hmem with hmem | hmem
        · exact hdisjoint r hr r hmem rfl
        · exact hnew r (List.mem_append_left _ hr) hmem)
      fun r hr => by
        rw [hkept r hr]
        exact hpresent r (List.mem_append_left _ hr)
    refine ⟨entries', table', chains', max N ((old i).length + 1),
      ⟨hrest.length.trans hone.length, hrest.chained, ?_, fun r hr => ?_, fun r => ?_⟩,
      fun fuel hfuel => ?_⟩
    · have h := hrest.perm
      rw [hone.length] at h
      rw [refs_succ, List.append_assoc]
      exact h.trans (hone.perm.append_left _)
    · rw [refs_succ, List.mem_append, not_or] at hr
      rw [hrest.kept r hr.1, hone.kept r hr.2]
    · rw [hrest.data r, hone.data r]
    · rw [relinkAll, hrun₁ fuel (by omega)]
      exact hrun₂ fuel (by omega)

end CldcVm.Hashing
