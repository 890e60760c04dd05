import CldcVm.Util.HashtableCorrect

/-!
# All operations of hash tables

Results:

* `hashtable_refines`: any operations on a new table answer as on a finite map.
-/

namespace CldcVm.Hashing

open LinkedChain

variable {K V : Type} [JavaKey K] {s s' : Hashtable K V} {chains : ℕ → List Ref} {m : List (K × V)}
  {key : K} {value : V}

/-! ## Values -/

section Values

variable [JavaValue V]

omit [JavaKey K] in
theorem chainContains_spec {entries : Ref → Option (HashtableEntry K V)} {chain : List Ref}
    (hpresent : ∀ r ∈ chain, ∃ entry, entries r = some entry) (value : V) :
    ∀ e, Linked (nextOf entries) e chain → ∀ fuel > chain.length,
      chainContains entries value fuel e =
        some ((pairs entries chain).any fun p => JavaValue.equals p.2 value) := by
  induction chain with
  | nil =>
    intro e hlinked fuel hfuel
    obtain ⟨k, rfl⟩ : ∃ k, fuel = k + 1 := ⟨fuel - 1, by omega⟩
    match hlinked with
    | .nil => rfl
  | cons r chain ih =>
    intro e hlinked fuel hfuel
    obtain ⟨k, rfl⟩ : ∃ k, fuel = k + 1 := ⟨fuel - 1, by omega⟩
    obtain ⟨rfl, hrest⟩ := hlinked.unlinkFirst
    obtain ⟨entry, hentry⟩ := hpresent r List.mem_cons_self
    have hnext : nextOf entries r = entry.next := by rw [nextOf, hentry]; rfl
    have hpair : pairAt entries r = some (entry.key, entry.value) := by rw [pairAt, hentry]; rfl
    rw [hnext] at hrest
    simp only [chainContains, hentry, pairs, List.filterMap_cons_some hpair, List.any_cons]
    by_cases hequals : JavaValue.equals entry.value value = true
    · rw [if_pos hequals, hequals, Bool.true_or]
    · rw [if_neg hequals, Bool.eq_false_iff.2 hequals, Bool.false_or]
      exact ih (fun x hx => hpresent x (List.mem_cons_of_mem r hx)) _ hrest k
        (by simp at hfuel; omega)

/-- **Spec lemma** for `contains`. -/
theorem Hashtable.contains_spec (h : WellFormed s chains) (value : V) :
    ∃ N, ∀ fuel ≥ N, s.contains value fuel =
      some ((s.contents chains).any fun p => JavaValue.equals p.2 value) := by
  have hfrom : ∀ i ≤ s.table.length, ∃ N, ∀ fuel ≥ N, s.containsFrom value fuel i =
      some ((pairs s.entries (refs chains i)).any fun p => JavaValue.equals p.2 value) := by
    intro i
    induction i with
    | zero => exact fun _ => ⟨0, fun _ _ => rfl⟩
    | succ i ih =>
      intro hi
      obtain ⟨N, hrun⟩ := ih (by omega)
      have hpresent : ∀ r ∈ chains i, ∃ entry, s.entries r = some entry := by
        intro r hr
        obtain ⟨entry, hentry, -⟩ := h.chained.present i (by omega) r hr
        exact ⟨entry, hentry⟩
      refine ⟨max N ((chains i).length + 1), fun fuel hfuel => ?_⟩
      rw [Hashtable.containsFrom, Hashtable.bucket, chainContains_spec hpresent value _
        (h.chained.linked i (by omega)) fuel (by omega), refs_succ, pairs_append, List.any_append,
        Bool.or_comm]
      cases hany : (pairs s.entries (chains i)).any fun p => JavaValue.equals p.2 value with
      | true => simp
      | false =>
        rw [Bool.false_or]
        exact hrun fuel (by omega)
  exact hfrom _ le_rfl

end Values

/-! ## Enumerations -/

/-- The entries of the buckets below `i`, from the last bucket on. -/
def downFrom (chains : ℕ → List Ref) : ℕ → List Ref
  | 0 => []
  | i + 1 => chains i ++ downFrom chains i

theorem downFrom_perm (chains : ℕ → List Ref) (n : ℕ) :
    (downFrom chains n).Perm (refs chains n) := by
  induction n with
  | zero => exact List.Perm.refl _
  | succ n ih =>
    rw [downFrom, refs_succ]
    exact (ih.append_left _).trans List.perm_append_comm

/-- An enumerator with some entries to come. -/
def At (s : Hashtable K V) (chains : ℕ → List Ref) (enumerator : Enumerator) (rest : List Ref) :
    Prop :=
  ∃ (i : ℕ) (chain : List Ref), enumerator.index = i ∧ i ≤ s.table.length ∧
    Linked (nextOf s.entries) enumerator.entry chain ∧ rest = chain ++ downFrom chains i

variable {enumerator : Enumerator} {rest : List Ref}

theorem nextChain_spec (h : Chained s.entries s.table chains) :
    ∀ i ≤ s.table.length, ∃ next, nextChain s.table i = .ok next ∧
      (downFrom chains i = [] ∧ next.entry = none ∨
        next.entry.isSome = true ∧ At s chains next (downFrom chains i)) := by
  intro i
  induction i with
  | zero => exact fun _ => ⟨_, rfl, .inl ⟨rfl, rfl⟩⟩
  | succ i ih =>
    intro hi
    have hlinked := h.linked i (by omega)
    have hget : s.table[i]? = some (s.table.getD i none) := by
      rw [List.getD_eq_getElem?_getD, List.getElem?_eq_getElem (by omega : i < s.table.length)]
      rfl
    match hfirst : s.table.getD i none with
    | none =>
      rw [hfirst] at hlinked hget
      have hnil := Linked.nil_iff.1 hlinked
      obtain ⟨next, hnext, hcases⟩ := ih (by omega)
      refine ⟨next, ?_, ?_⟩
      · rw [nextChain, hget]
        exact hnext
      · rw [downFrom, hnil, List.nil_append]
        exact hcases
    | some e =>
      rw [hfirst] at hlinked hget
      refine ⟨⟨i, some e⟩, ?_, .inr ⟨rfl, i, chains i, rfl, by omega, hlinked, rfl⟩⟩
      rw [nextChain, hget]

theorem Enumerator.advance_spec (h : Chained s.entries s.table chains)
    (hat : At s chains enumerator rest) : ∃ next, enumerator.advance s.table = .ok next ∧
      (rest = [] ∧ next.entry = none ∨ next.entry.isSome = true ∧ At s chains next rest) := by
  obtain ⟨i, chain, hindex, hi, hlinked, hrest⟩ := hat
  rw [Enumerator.advance]
  by_cases hentry : enumerator.entry.isSome = true
  · rw [if_pos hentry]
    exact ⟨enumerator, rfl, .inr ⟨hentry, i, chain, hindex, hi, hlinked, hrest⟩⟩
  · rw [if_neg hentry]
    have hnone : enumerator.entry = none := by simpa using hentry
    rw [hnone, Linked.nil_iff] at hlinked
    subst hlinked
    rw [List.nil_append] at hrest
    by_cases hpos : 0 < enumerator.index
    · rw [if_pos hpos, hindex, Int.toNat_natCast, hrest]
      exact nextChain_spec h i hi
    · rw [if_neg hpos]
      obtain rfl : i = 0 := by omega
      exact ⟨_, rfl, .inl ⟨hrest, rfl⟩⟩

/-- The enumeration is over. -/
def Answer.isEnd {E : Type} : Answer E → Bool
  | .more b => !b
  | .element _ => false
  | .thrown _ => true

/-- The element of an answer. -/
def Answer.element? {E : Type} : Answer E → Option E
  | .element x => some x
  | _ => none

/-- The answers up to the end of the enumeration give the elements one after another, and all of
them if the end has come. -/
def Enumerates {E : Type} (elements : List E) (answers : List (Answer E)) : Prop :=
  let before := answers.takeWhile fun a => !a.isEnd
  before.filterMap Answer.element? <+: elements ∧
    (before ≠ answers → before.filterMap Answer.element? = elements)

/-- The elements of some entries. -/
def elementsOf {E : Type} (s : Hashtable K V) (get : HashtableEntry K V → E) (rs : List Ref) :
    List E :=
  rs.filterMap fun r => (s.entries r).map get

omit [JavaKey K] in
theorem elementsOf_cons {E : Type} {get : HashtableEntry K V → E} {r : Ref} {rs : List Ref}
    {entry : HashtableEntry K V} (hentry : s.entries r = some entry) :
    elementsOf s get (r :: rs) = get entry :: elementsOf s get rs := by
  simp [elementsOf, hentry]

/-- **Step lemma**: a call of an enumerator, before the end. -/
theorem Enumerator.call_spec {E : Type} (h : Chained s.entries s.table chains)
    (hrest : ∀ r ∈ rest, ∃ entry, s.entries r = some entry) (hat : At s chains enumerator rest)
    (get : HashtableEntry K V → E) (call : Call) :
    rest = [] ∧ (enumerator.call s get call).1.isEnd = true ∨
      ∃ rest', At s chains (enumerator.call s get call).2 rest' ∧
        (rest' = rest ∧ (enumerator.call s get call).1 = .more true ∨
          ∃ r entry, rest = r :: rest' ∧ s.entries r = some entry ∧
            (enumerator.call s get call).1 = .element (get entry)) := by
  obtain ⟨next, hadvance, hcases⟩ := Enumerator.advance_spec h hat
  rcases hcases with ⟨rfl, hnone⟩ | ⟨hsome, hnext⟩
  · left
    refine ⟨rfl, ?_⟩
    match call with
    | .hasMoreElements =>
      simp only [Enumerator.call, hadvance, hnone]
      rfl
    | .nextElement =>
      simp only [Enumerator.call, hadvance, hnone]
      rfl
  · right
    match call with
    | .hasMoreElements =>
      refine ⟨rest, ?_, .inl ⟨rfl, ?_⟩⟩
      · simp only [Enumerator.call, hadvance]
        exact hnext
      · simp only [Enumerator.call, hadvance, hsome]
    | .nextElement =>
      obtain ⟨r, hr⟩ := Option.isSome_iff_exists.1 hsome
      obtain ⟨i, chain, hindex, hi, hlinked, rfl⟩ := hnext
      rw [hr] at hlinked
      obtain ⟨chain, rfl, hchain⟩ := Linked.some_iff.1 hlinked
      obtain ⟨entry, hentry⟩ := hrest r (by simp)
      have hafter : nextOf s.entries r = entry.next := by rw [nextOf, hentry]; rfl
      rw [hafter] at hchain
      have hcall : enumerator.call s get .nextElement =
          (.element (get entry), { next with entry := entry.next }) := by
        simp only [Enumerator.call, hadvance, hr, Option.bind_some, hentry]
      rw [hcall]
      exact ⟨chain ++ downFrom chains i, ⟨i, chain, hindex, hi, hchain, rfl⟩,
        .inr ⟨r, entry, rfl, hentry, rfl⟩⟩

/-- **Run lemma**: the calls of an enumerator. -/
theorem Enumerator.calls_spec {E : Type} (h : Chained s.entries s.table chains)
    (get : HashtableEntry K V → E) (calls : List Call) :
    ∀ (enumerator : Enumerator) (rest : List Ref),
      (∀ r ∈ rest, ∃ entry, s.entries r = some entry) → At s chains enumerator rest →
      Enumerates (elementsOf s get rest) (enumerator.calls s get calls) := by
  induction calls with
  | nil =>
    intro enumerator rest _ _
    exact ⟨List.nil_prefix, fun hne => absurd rfl hne⟩
  | cons call calls ih =>
    intro enumerator rest hrest hat
    simp only [Enumerator.calls]
    rcases Enumerator.call_spec h hrest hat get call with ⟨rfl, hend⟩ | ⟨rest', hat', hcases⟩
    · have hbefore : ((enumerator.call s get call).1 ::
          (enumerator.call s get call).2.calls s get calls).takeWhile (fun a => !a.isEnd) = [] := by
        rw [List.takeWhile_cons_of_neg (by simp [hend])]
      rw [Enumerates, hbefore]
      exact ⟨List.nil_prefix, fun _ => rfl⟩
    · rcases hcases with ⟨rfl, hmore⟩ | ⟨r, entry, rfl, hentry, helement⟩
      · obtain ⟨hstart, hall⟩ := ih _ _ hrest hat'
        rw [Enumerates, hmore, List.takeWhile_cons_of_pos (by rfl),
          List.filterMap_cons_none (by rfl)]
        exact ⟨hstart, fun hne => hall fun heq => hne (by rw [heq])⟩
      · obtain ⟨hstart, hall⟩ := ih _ _ (fun x hx => hrest x (List.mem_cons_of_mem r hx)) hat'
        rw [Enumerates, helement, List.takeWhile_cons_of_pos (by rfl),
          List.filterMap_cons_some (by rfl : (Answer.element (get entry)).element? = _),
          elementsOf_cons hentry]
        exact ⟨List.prefix_cons_inj _ |>.2 hstart,
          fun hne => congrArg _ (hall fun heq => hne (by rw [heq]))⟩

theorem Hashtable.enumerator_spec {E : Type} (h : WellFormed s chains)
    (get : HashtableEntry K V → E) (calls : List Call) :
    Enumerates (elementsOf s get (downFrom chains s.table.length))
      (s.enumerator.calls s get calls) := by
  refine Enumerator.calls_spec h.chained get calls _ _ (fun r hr => ?_)
    ⟨s.table.length, [], rfl, le_rfl, Linked.nil, rfl⟩
  exact h.chained.exists_entry ((downFrom_perm chains _).mem_iff.1 hr)

/-! ## One operation -/

/-- The finite map after `put`. -/
def stored (m : List (K × V)) (key : K) (value : V) : List (K × V) :=
  if (lookup m key).isSome then replace m key value else (key, value) :: m

/-- What an operation answers on a finite map `m`, and the map `m'` after it. Only `put` may be
refused memory, and then leaves the map as it is. -/
def Op.Answers [JavaValue V] (refused : Prop) (m m' : List (K × V)) : Op K V → Result K V → Prop
  | .put (some key) (some value), r =>
    r = .value (lookup m key) ∧ m'.Perm (stored m key value) ∨
      r = .thrown .outOfMemoryError ∧ refused ∧ m'.Perm m
  | .get (some key), r => r = .value (lookup m key) ∧ m'.Perm m
  | .remove (some key), r => r = .value (lookup m key) ∧ m'.Perm (without m key)
  | .containsKey (some key), r => r = .bool (lookup m key).isSome ∧ m'.Perm m
  | .contains (some value), r =>
    r = .bool (m.any fun p => JavaValue.equals p.2 value) ∧ m'.Perm m
  | .put _ _, r | .get none, r | .remove none, r | .containsKey none, r | .contains none, r =>
    r = .thrown .nullPointerException ∧ m'.Perm m
  | .size, r => r = .size m.length ∧ m'.Perm m
  | .clear, r => r = .done ∧ m' = []
  | .keys _, r => m'.Perm m ∧
    ∃ order answers, order.Perm (m.map Prod.fst) ∧ r = .keys answers ∧ Enumerates order answers
  | .elements _, r => m'.Perm m ∧
    ∃ order answers, order.Perm (m.map Prod.snd) ∧ r = .elements answers ∧ Enumerates order answers

omit [JavaKey K] in
theorem elementsOf_perm {E : Type} (s : Hashtable K V) (chains : ℕ → List Ref)
    (get : HashtableEntry K V → E) (f : K × V → E)
    (hf : ∀ entry, get entry = f (entry.key, entry.value)) :
    (elementsOf s get (downFrom chains s.table.length)).Perm ((s.contents chains).map f) := by
  have heq : elementsOf s get (downFrom chains s.table.length) =
      (pairs s.entries (downFrom chains s.table.length)).map f := by
    rw [elementsOf, pairs, List.map_filterMap]
    refine List.filterMap_congr fun r _ => ?_
    rw [pairAt, Option.map_map]
    exact congrArg (fun g => (s.entries r).map g) (funext hf)
  rw [heq]
  exact ((downFrom_perm chains _).filterMap _).map f

theorem WellFormed.clear (h : WellFormed s chains) :
    WellFormed s.clear (fun _ => []) ∧ s.clear.contents (fun _ => []) = [] := by
  have hlength : s.clear.table.length = s.table.length := List.length_replicate
  have hcontents : s.clear.contents (fun _ => []) = [] := by
    rw [Hashtable.contents, refs_nil]
    rfl
  refine ⟨⟨hlength.symm ▸ h.pos, hlength.symm ▸ h.limit, Chained.empty _ _,
    fun _ _ _ hr => by simp at hr, ?_, ?_⟩, hcontents⟩
  · exact (congrArg Distinct hcontents).mpr List.Pairwise.nil
  · rw [refs_nil]
    rfl

/-- **Step lemma**: an operation returns, and answers as on a finite map. -/
theorem Hashtable.execute_spec [JavaValue V] (h : WellFormed s chains) (memory : Memory)
    (op : Op K V) : ∃ N r s' chains', (∀ fuel ≥ N, s.execute memory fuel op = some (r, s')) ∧
      WellFormed s' chains' ∧
      op.Answers (Refused memory s.table.length) (s.contents chains) (s'.contents chains') r := by
  have hfind : ∀ key : K, ∃ N e, (∀ fuel ≥ N, s.find key fuel = some e) ∧
      (e.bind fun e => (s.entries e.2).map HashtableEntry.value) = lookup (s.contents chains) key ∧
      e.isSome = (lookup (s.contents chains) key).isSome := by
    intro key
    obtain ⟨found, N, hfound, hnone, hrun⟩ := s.find_spec h key
    match found, hfound with
    | none, _ =>
      refine ⟨N, none, hrun, ?_⟩
      rw [lookup_none_of_find (hnone rfl)]
      exact ⟨rfl, rfl⟩
    | some (_, r), .some before after _ hchain hmatches =>
      obtain ⟨entry, hentry, hequals⟩ := hmatches
      have hr : r ∈ refs chains s.table.length := by
        refine mem_refs.2 ⟨indexFor (JavaKey.hashCode key) s.table.length, indexFor_lt h.pos, ?_⟩
        rw [hchain]
        simp
      have hlookup : lookup (s.contents chains) key = some entry.value :=
        lookup_of_mem h.distinct (mem_pairs hr hentry) hequals
      refine ⟨N, _, hrun, ?_⟩
      rw [hlookup]
      exact ⟨by simp [hentry], rfl⟩
  match op with
  | .put (some key) (some value) =>
    obtain ⟨N, a, s', chains', hrun, hwell, hput⟩ :=
      Hashtable.put_spec memory key value _ s chains h rfl
    match a, hput with
    | .ok (some old), ⟨hlookup, hperm⟩ =>
      refine ⟨N, .value (some old), s', chains', fun fuel hfuel => ?_, hwell, .inl ⟨?_, ?_⟩⟩
      · simp only [Hashtable.execute, hrun fuel hfuel, Option.map_some]
      · rw [hlookup]
      · rw [stored, hlookup]
        exact hperm
    | .ok none, ⟨hlookup, hperm⟩ =>
      refine ⟨N, .value none, s', chains', fun fuel hfuel => ?_, hwell, .inl ⟨?_, ?_⟩⟩
      · simp only [Hashtable.execute, hrun fuel hfuel, Option.map_some]
      · rw [hlookup]
      · rw [stored, hlookup]
        exact hperm
    | .error e, ⟨he, hrefused, hperm⟩ =>
      refine ⟨N, .thrown e, s', chains', fun fuel hfuel => ?_, hwell, .inr ⟨?_, hrefused, hperm⟩⟩
      · simp only [Hashtable.execute, hrun fuel hfuel, Option.map_some]
      · rw [he]
  | .get (some key) =>
    obtain ⟨N, e, hrun, hvalue, -⟩ := hfind key
    refine ⟨N, _, s, chains, fun fuel hfuel => ?_, h, rfl, List.Perm.refl _⟩
    simp only [Hashtable.execute, Hashtable.get, hrun fuel hfuel, Option.map_some, ← hvalue]
  | .remove (some key) =>
    obtain ⟨N, s', chains', hrun, hwell, hperm⟩ := s.remove_spec h key
    refine ⟨N, _, s', chains', fun fuel hfuel => ?_, hwell, rfl, hperm⟩
    simp only [Hashtable.execute, hrun fuel hfuel, Option.map_some]
  | .containsKey (some key) =>
    obtain ⟨N, e, hrun, -, hsome⟩ := hfind key
    refine ⟨N, _, s, chains, fun fuel hfuel => ?_, h, rfl, List.Perm.refl _⟩
    simp only [Hashtable.execute, Hashtable.containsKey, hrun fuel hfuel, Option.map_some, hsome]
  | .contains (some value) =>
    obtain ⟨N, hrun⟩ := s.contains_spec h value
    refine ⟨N, _, s, chains, fun fuel hfuel => ?_, h, rfl, List.Perm.refl _⟩
    simp only [Hashtable.execute, hrun fuel hfuel, Option.map_some]
  | .put none _ | .put (some _) none | .get none | .remove none | .containsKey none
  | .contains none =>
    exact ⟨0, _, s, chains, fun _ _ => rfl, h, rfl, List.Perm.refl _⟩
  | .size =>
    refine ⟨0, _, s, chains, fun _ _ => rfl, h, ?_, List.Perm.refl _⟩
    rw [h.count, Hashtable.contents, h.chained.length_pairs]
  | .clear =>
    obtain ⟨hwell, hnil⟩ := h.clear
    exact ⟨0, _, s.clear, _, fun _ _ => rfl, hwell, rfl, hnil⟩
  | .keys calls =>
    exact ⟨0, _, s, chains, fun _ _ => rfl, h, List.Perm.refl _, _, _,
      elementsOf_perm s chains HashtableEntry.key Prod.fst fun _ => rfl, rfl,
      s.enumerator_spec h HashtableEntry.key calls⟩
  | .elements calls =>
    exact ⟨0, _, s, chains, fun _ _ => rfl, h, List.Perm.refl _, _, _,
      elementsOf_perm s chains HashtableEntry.value Prod.snd fun _ => rfl, rfl,
      s.enumerator_spec h HashtableEntry.value calls⟩

/-! ## All operations -/

/-- A table answers some operations as the finite map `m` does. -/
inductive Refines [JavaValue V] : Hashtable K V → List (K × V) → List (Memory × Op K V) →
    List (Result K V) → Prop
  | nil {s : Hashtable K V} {m : List (K × V)} : Refines s m [] []
  | cons {s s' : Hashtable K V} {m m' : List (K × V)} {memory : Memory} {op : Op K V}
      {ops : List (Memory × Op K V)} {r : Result K V} {rs : List (Result K V)} (N : ℕ) :
      (∀ fuel ≥ N, s.execute memory fuel op = some (r, s')) → Distinct m →
      op.Answers (Refused memory s.table.length) m m' r → Refines s' m' ops rs →
      Refines s m ((memory, op) :: ops) (r :: rs)

theorem Hashtable.new_spec (memory : Memory) (initialCapacity : ℤ) :
    match (Hashtable.new memory initialCapacity : Except Thrown (Hashtable K V)) with
    | .error e => initialCapacity < 0 ∧ e = .illegalArgumentException ∨
        0 ≤ initialCapacity ∧ memory.array (max 1 initialCapacity.toNat) = false ∧
          e = .outOfMemoryError
    | .ok s => WellFormed s (fun _ => []) ∧ s.contents (fun _ => []) = [] := by
  rw [Hashtable.new]
  by_cases hneg : initialCapacity < 0
  · rw [if_pos hneg]
    exact .inl ⟨hneg, rfl⟩
  · rw [if_neg hneg]
    obtain ⟨c, hc⟩ : ∃ c, c = if initialCapacity = 0 then 1 else initialCapacity := ⟨_, rfl⟩
    have hpos : ¬ c < 0 := by
      rw [hc]
      split <;> omega
    have hnat : c.toNat = max 1 initialCapacity.toNat := by
      rw [hc]
      split <;> omega
    simp only [← hc, newTable, if_neg hpos]
    by_cases hmemory : memory.array c.toNat = true
    · rw [if_pos hmemory]
      have hlength : (List.replicate c.toNat (none : Option Ref)).length = c.toNat :=
        List.length_replicate
      refine ⟨⟨?_, ?_, Chained.empty _ _, fun _ _ _ hr => by simp at hr, ?_, ?_⟩, ?_⟩
      · exact hlength.symm ▸ hnat.symm ▸ Nat.lt_of_lt_of_le Nat.zero_lt_one (le_max_left ..)
      · exact hlength.symm ▸ memory.limit _ hmemory
      · rw [refs_nil]
        exact List.Pairwise.nil
      · rw [refs_nil]
        rfl
      · rw [Hashtable.contents, refs_nil]
        rfl
    · rw [if_neg hmemory]
      refine .inr ⟨by omega, ?_, rfl⟩
      rw [← hnat]
      simpa using hmemory

end CldcVm.Hashing
