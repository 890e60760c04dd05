import CldcVm.Loading.Worklist

/-!
# The loading of a class

The loop ends, and what it has loaded is the graph of the classes that were needed.

Result: `loadSystemClass_correct`.
-/

namespace CldcVm.Loading

open Dispatch (Symbol)
open Handles (byte)
open Lib Relation

variable {L : Loader} {q : Request} {s s' : State} {new : List Symbol} {d d' : Dictionary}
variable {top state : ClassParserState} {below : List ClassParserState} {x y : Symbol}

/-! ## Runs -/

/-- **Step lemma**: a round that goes on. -/
theorem Invariant.round (h : Invariant L q ⟨top :: below, d⟩ new)
    (hq : ¬Found L q.dictionary q.name) (hround : L.round top below d = .ok s) :
    ∃ new, Invariant L q s new := by
  cases roundOk_of_round hround with
  | skip hstage hfound => exact ⟨new, h.skip hq hstage hfound⟩
  | push file hstage hnot hfetch hcircular _ hnames hsame =>
    subst hnames
    exact ⟨new, h.push hstage hnot hfetch hcircular hsame⟩
  | complete file hnot hfetch hcircular hsupers hsame =>
    exact ⟨_, h.complete (fun hstage => (hnot hstage).1) hfetch hcircular hsupers hsame⟩

theorem Invariant.circular (h : Invariant L q ⟨top :: below, d⟩ new)
    (hcircular : Loader.isCircular top.className below = true) :
    ∃ x, Reachable L q x ∧ TransGen (Needs L q) x x := by
  obtain ⟨state, hstate, hcheck⟩ := List.any_eq_true.mp hcircular
  obtain ⟨hname, hstage⟩ := of_decide_eq_true hcheck
  refine ⟨top.className, h.reachable top List.mem_cons_self, ?_⟩
  have hcycle := (List.pairwise_cons.mp h.above).1 state hstate hstage
  rwa [hname] at hcycle

/-- The bottom class is not found while it is on the stack. -/
theorem Invariant.name_notFound (h : Invariant L q ⟨top :: below, d⟩ new)
    (hq : ¬Found L q.dictionary q.name) : ¬Found L d q.name := by
  have hbottom := h.bottom
  generalize hlist : top :: below = list at hbottom
  cases hbottom with
  | done _ => cases hlist
  | start hnil =>
    intro hfound
    rcases h.found_cases hfound with hfound | hmem
    · exact hq hfound
    · rw [hnil] at hmem
      cases hmem
  | @parsed above state hname hstage _ =>
    rw [← hname]
    refine h.notFound state ?_ hstage
    show state ∈ top :: below
    rw [hlist]
    exact List.mem_append_right _ (List.mem_singleton_self _)

/-- What the loop comes to. -/
inductive Outcome (L : Loader) (q : Request) :
    Except (Throwable × Dictionary) Dictionary → Prop
  | done {d : Dictionary} {new : List Symbol} : Invariant L q ⟨[], d⟩ new → Outcome L q (.ok d)
  | failed {e : Throwable} {d d' : Dictionary} {new : List Symbol} {top : ClassParserState}
      {below : List ClassParserState} : Invariant L q ⟨top :: below, d⟩ new → SameReal d d' →
      (e = .recursiveClassStructure → Loader.isCircular top.className below = true) →
      Outcome L q (.error (e, d'))

/-- **Run lemma**: the loop. -/
theorem Invariant.loop (h : Invariant L q s new) (hq : ¬Found L q.dictionary q.name) {fuel : ℕ}
    {r : Except (Throwable × Dictionary) Dictionary} (hrun : L.loop fuel s = some r) :
    Outcome L q r := by
  induction fuel generalizing s new with
  | zero => cases hrun
  | succ fuel ih =>
    obtain ⟨stack, d⟩ := s
    cases stack with
    | nil =>
      obtain rfl : .ok d = r := Option.some.inj hrun
      exact .done h
    | cons top below =>
      unfold Loader.loop at hrun
      simp only at hrun
      cases hround : L.round top below d with
      | error e =>
        rw [hround] at hrun
        obtain rfl := Option.some.inj hrun
        obtain ⟨e, d'⟩ := e
        obtain ⟨hsame, hcircular⟩ := roundError_of_round hround
        exact .failed h hsame hcircular
      | ok s' =>
        rw [hround] at hrun
        obtain ⟨new', h'⟩ := h.round hq hround
        exact ih h' hrun

/-! ## The end of the loop -/

/-- The class is not found, and it does not wait on the stack. -/
def IsFresh (L : Loader) (s : State) (x : Symbol) : Prop :=
  ¬Found L s.dictionary x ∧ ∀ state ∈ s.stack, state.stage1 = true → state.className ≠ x

instance : DecidablePred (IsFresh L s) := fun _ => instDecidableAnd

/-- The classes that have a file, and are fresh. -/
def freshNames (L : Loader) (q : Request) (s : State) : Finset Symbol :=
  (q.name :: L.files.map Prod.fst).toFinset.filter (IsFresh L s)

/-- How many classes wait. -/
def waitingCount (s : State) : ℕ := s.stack.countP ClassParserState.stage1

/-- Every round that does not only leave a class out makes this smaller. -/
def work (L : Loader) (q : Request) (s : State) : ℕ :=
  2 * (freshNames L q s).card + waitingCount s

theorem mem_freshNames : x ∈ freshNames L q s ↔
    (x = q.name ∨ x ∈ L.files.map Prod.fst) ∧ IsFresh L s x := by
  unfold freshNames
  rw [Finset.mem_filter, List.mem_toFinset, List.mem_cons]

variable {file : ClassFile}

theorem mem_of_lookup {files : List (Symbol × ClassFile)}
    (h : files.lookup x = some file) : x ∈ files.map Prod.fst := by
  induction files with
  | nil => cases h
  | cons entry files ih =>
    obtain ⟨key, file'⟩ := entry
    rw [List.lookup_cons] at h
    split at h
    · next heq => exact List.mem_cons.mpr (.inl (beq_iff_eq.mp heq))
    · exact List.mem_cons_of_mem _ (ih h)

theorem mem_of_fileOf (h : fileOf L q x = some file) : x = q.name ∨ x ∈ L.files.map Prod.fst := by
  unfold fileOf at h
  by_cases hx : x = q.name
  · exact .inl hx
  · rw [if_neg hx] at h
    exact .inr (mem_of_lookup h)

theorem freshNames_subset (hfound : ∀ x, Found L s.dictionary x → Found L s'.dictionary x)
    (hwaiting : ∀ state ∈ s.stack, state.stage1 = true → Found L s'.dictionary state.className ∨
      ∃ state' ∈ s'.stack, state'.stage1 = true ∧ state'.className = state.className) :
    freshNames L q s' ⊆ freshNames L q s := by
  intro x hx
  obtain ⟨hfile, hnot, hstack⟩ := mem_freshNames.mp hx
  refine mem_freshNames.mpr ⟨hfile, fun hmem => hnot (hfound x hmem),
    fun state hstate hone heq => ?_⟩
  subst heq
  rcases hwaiting state hstate hone with hmem | ⟨state', hstate', hone', hname⟩
  · exact hnot hmem
  · exact hstack state' hstate' hone' hname

theorem card_freshNames_lt (hsubset : freshNames L q s' ⊆ freshNames L q s)
    (hx : x ∈ freshNames L q s) (hnot : x ∉ freshNames L q s') :
    (freshNames L q s').card < (freshNames L q s).card :=
  Finset.card_lt_card ⟨hsubset, fun hsub => hnot (hsub hx)⟩

theorem Invariant.top_mem_freshNames (h : Invariant L q ⟨top :: below, d⟩ new)
    (hstage : top.stage1 = false) (hnot : ¬Found L d top.className)
    (hfetch : L.fetchBuffer top = some file)
    (hcircular : Loader.isCircular top.className below = false) :
    top.className ∈ freshNames L q ⟨top :: below, d⟩ := by
  refine mem_freshNames.mpr ⟨mem_of_fileOf (h.fileOf rfl hcircular hfetch), hnot,
    fun state hstate hone => ?_⟩
  rcases List.mem_cons.mp hstate with rfl | hstate
  · rw [hstage] at hone
    cases hone
  · exact not_circular hcircular state hstate hone

theorem found_insert {isInterface isFinal : Bool} (hreal : x ∉ realNames d) :
    Found L (Loader.insert ⟨x, false, isInterface, isFinal⟩ d) y ↔ y = x ∨ Found L d y := by
  have hnames : realNames (Loader.insert ⟨x, false, isInterface, isFinal⟩ d) = x :: realNames d :=
    realNames_insert rfl hreal
  rw [found_iff, found_iff, hnames, List.mem_cons]
  exact or_left_comm

theorem work_eq (stack : List ClassParserState) : work L q ⟨stack, d⟩ =
    2 * (freshNames L q ⟨stack, d⟩).card + stack.countP ClassParserState.stage1 := rfl

theorem Invariant.work_le (h : Invariant L q ⟨top :: below, d⟩ new)
    (hround : L.round top below d = .ok s) : work L q s < work L q ⟨top :: below, d⟩ ∨
      work L q s ≤ work L q ⟨top :: below, d⟩ ∧ s.stack.length < (top :: below).length := by
  cases roundOk_of_round hround with
  | skip hstage hfound =>
    refine .inr ⟨?_, Nat.lt_succ_self _⟩
    have hsubset : freshNames L q ⟨below, d⟩ ⊆ freshNames L q ⟨top :: below, d⟩ := by
      refine freshNames_subset (fun _ => id) fun state hstate hone => ?_
      rcases List.mem_cons.mp hstate with rfl | hstate
      · exact .inl hfound
      · exact .inr ⟨state, hstate, hone, rfl⟩
    have hcard := Finset.card_le_card hsubset
    rw [work_eq, work_eq, List.countP_cons_of_neg (Bool.eq_false_iff.mp hstage)]
    omega
  | @push d' names file hstage hnot hfetch hcircular _ _ hsame =>
    refine .inl ?_
    have hsubset : freshNames L q ⟨(names.reverse.map Loader.unresolved) ++
        ⟨top.className, some file, true⟩ :: below, d'⟩ ⊆ freshNames L q ⟨top :: below, d⟩ := by
      refine freshNames_subset (fun x => hsame.found_iff.mpr) fun state hstate hone => ?_
      rcases List.mem_cons.mp hstate with rfl | hstate
      · rw [hstage] at hone
        cases hone
      · exact .inr ⟨state, List.mem_append_right _ (List.mem_cons_of_mem _ hstate), hone, rfl⟩
    have hcard := card_freshNames_lt hsubset (h.top_mem_freshNames hstage hnot hfetch hcircular)
      fun hmem => ?_
    · have hpushed : (names.reverse.map Loader.unresolved).countP ClassParserState.stage1 = 0 := by
        refine List.countP_eq_zero.mpr fun state hstate => ?_
        obtain ⟨y, -, rfl⟩ := List.mem_map.mp hstate
        exact Bool.false_ne_true
      rw [work_eq, work_eq, List.countP_append, hpushed, List.countP_cons_of_pos rfl,
        List.countP_cons_of_neg (Bool.eq_false_iff.mp hstage)]
      omega
    · exact (mem_freshNames.mp hmem).2.2 _ (List.mem_append_right _ List.mem_cons_self) rfl rfl
  | @complete d' file hnew hfetch hcircular hsupers hsame =>
    refine .inl ?_
    have hnot : ¬Found L d top.className := by
      cases hstage : top.stage1 with
      | false => exact (hnew hstage).1
      | true => exact h.notFound top List.mem_cons_self hstage
    have hreal : top.className ∉ realNames d' := by
      rw [hsame.names]
      exact fun hmem => hnot (found_iff.mpr (.inr hmem))
    have hfound : ∀ y, Found L (Loader.insert ⟨top.className, false, file.isInterface,
        file.isFinal⟩ d') y ↔ y = top.className ∨ Found L d y := fun y => by
      rw [found_insert hreal, hsame.found_iff]
    have hsubset : freshNames L q ⟨below, Loader.insert ⟨top.className, false, file.isInterface,
        file.isFinal⟩ d'⟩ ⊆ freshNames L q ⟨top :: below, d⟩ := by
      refine freshNames_subset (fun x hx => (hfound x).mpr (.inr hx)) fun state hstate hone => ?_
      rcases List.mem_cons.mp hstate with rfl | hstate
      · exact .inl ((hfound _).mpr (.inl rfl))
      · exact .inr ⟨state, hstate, hone, rfl⟩
    cases hstage : top.stage1 with
    | true =>
      have hcard := Finset.card_le_card hsubset
      rw [work_eq, work_eq, List.countP_cons_of_pos hstage]
      omega
    | false =>
      have hcard := card_freshNames_lt hsubset (h.top_mem_freshNames hstage hnot hfetch hcircular)
        fun hmem => (mem_freshNames.mp hmem).2.1 ((hfound _).mpr (.inl rfl))
      rw [work_eq, work_eq, List.countP_cons_of_neg (Bool.eq_false_iff.mp hstage)]
      omega

/-- The loop ends: by induction on the work, and for as much work on the length of the stack. -/
theorem Invariant.loop_returns (h : Invariant L q s new) (hq : ¬Found L q.dictionary q.name) :
    ∃ fuel r, L.loop fuel s = some r := by
  obtain ⟨n, hn⟩ : ∃ n, work L q s ≤ n := ⟨_, le_rfl⟩
  induction n using Nat.strong_induction_on generalizing s new with
  | _ n ihWork =>
    obtain ⟨m, hm⟩ : ∃ m, s.stack.length ≤ m := ⟨_, le_rfl⟩
    induction m using Nat.strong_induction_on generalizing s new with
    | _ m ihLength =>
      obtain ⟨stack, d⟩ := s
      cases stack with
      | nil => exact ⟨1, .ok d, rfl⟩
      | cons top below =>
        cases hround : L.round top below d with
        | error e =>
          refine ⟨1, .error e, ?_⟩
          unfold Loader.loop
          simp only [hround]
        | ok s' =>
          obtain ⟨new', h'⟩ := h.round hq hround
          have hrest : ∃ fuel r, L.loop fuel s' = some r := by
            rcases h.work_le hround with hlt | ⟨hle, hlength⟩
            · exact ihWork _ (hlt.trans_le hn) h' le_rfl
            · exact ihLength _ (hlength.trans_le hm) h' (hle.trans hn) le_rfl
          obtain ⟨fuel, r, hrun⟩ := hrest
          refine ⟨fuel + 1, r, ?_⟩
          unfold Loader.loop
          simp only [hround]
          exact hrun

/-! ## The claim -/

/-- The class has been loaded: the graph of what it needs was complete and acyclic, and all of
it has been inserted once, each class after what it needs. -/
structure Loaded (L : Loader) (q : Request) (d : Dictionary) : Prop where
  complete : ∀ x, Reachable L q x → ∃ file, fileOf L q x = some file
  acyclic : ∀ x, Reachable L q x → ¬TransGen (Needs L q) x x
  once : ∀ x, Reachable L q x → Found L d x ∧ (d.map Entry.name).count x = 1
  order : ∃ new, realNames d = new ++ realNames q.dictionary ∧ (∀ x, x ∈ new ↔ Reachable L q x) ∧
    Ordered (Needs L q) new

/-- The loading has failed: the class is not in the dictionary, of each class that has been
inserted all supertypes are, and only a cycle is recursive. -/
structure Failed (L : Loader) (q : Request) (e : Throwable) (d : Dictionary) : Prop where
  notInserted : ¬Found L d q.name
  closed : ∃ new, realNames d = new ++ realNames q.dictionary ∧ ∀ x ∈ new, ∃ file,
    fileOf L q x = some file ∧ ∀ y ∈ file.supers, Found L d y
  recursive : e = .recursiveClassStructure →
    ∃ x, Reachable L q x ∧ TransGen (Needs L q) x x

theorem Invariant.start (hunique : Unique q.dictionary) :
    Invariant L q ⟨[⟨q.name, q.buf, false⟩], q.dictionary⟩ [] := by
  refine ⟨hunique, rfl, List.nodup_nil, fun x hx => absurd hx List.not_mem_nil,
    fun x hx => absurd hx List.not_mem_nil, trivial, ⟨nofun, trivial⟩, fun state hstate => ?_,
    List.pairwise_singleton _ _, fun state hstate hone => ?_, .start rfl⟩
  · obtain rfl := List.mem_singleton.mp hstate
    exact .refl
  · obtain rfl := List.mem_singleton.mp hstate
    cases hone

theorem Invariant.supers_found (h : Invariant L q s new) (hx : x ∈ new) :
    ∃ file, Loading.fileOf L q x = some file ∧ ∀ y ∈ file.supers, Found L s.dictionary y := by
  obtain ⟨-, file, hfile⟩ := h.loaded x hx
  refine ⟨file, hfile, fun y hy => ?_⟩
  by_cases hfound : Found L q.dictionary y
  · exact h.found_mono hfound
  · refine found_iff.mpr (.inr ?_)
    rw [h.names]
    exact List.mem_append_left _ (h.ordered.mem hx ⟨file, hfile, hy, hfound⟩)

theorem Invariant.allLoaded (h : Invariant L q ⟨[], d⟩ new) : Loaded L q d := by
  have hname : q.name ∈ new := by
    have hbottom := h.bottom
    generalize hlist : ([] : List ClassParserState) = list at hbottom
    cases hbottom with
    | done hmem => exact hmem
    | start _ => cases hlist
    | parsed _ _ _ _ => exact (List.append_ne_nil_of_right_ne_nil _ (List.cons_ne_nil _ _)
        hlist.symm).elim
  have hmem : ∀ x, x ∈ new ↔ Reachable L q x := fun x =>
    ⟨fun hx => (h.loaded x hx).1, fun hx => h.ordered.mem_of_reflTransGen hname hx⟩
  refine ⟨fun x hx => (h.loaded x ((hmem x).mpr hx)).2, fun x hx =>
    h.ordered.acyclic h.nodup ((hmem x).mpr hx), fun x hx => ?_, new, h.names, hmem, h.ordered⟩
  have hreal : x ∈ realNames d := by
    rw [show realNames d = _ from h.names]
    exact List.mem_append_left _ ((hmem x).mpr hx)
  obtain ⟨entry, hentry, -, rfl⟩ := mem_realNames.mp hreal
  exact ⟨found_iff.mpr (.inr hreal),
    List.count_eq_one_of_mem h.unique (List.mem_map_of_mem hentry)⟩

theorem Invariant.failed {e : Throwable} (h : Invariant L q ⟨top :: below, d⟩ new)
    (hq : ¬Found L q.dictionary q.name) (hsame : SameReal d d')
    (hcircular : e = .recursiveClassStructure → Loader.isCircular top.className below = true) :
    Failed L q e d' := by
  refine ⟨fun hfound => h.name_notFound hq (hsame.found_iff.mp hfound),
    ⟨new, hsame.names.trans h.names, fun x hx => ?_⟩, fun he => h.circular (hcircular he)⟩
  obtain ⟨file, hfile, hsupers⟩ := h.supers_found hx
  exact ⟨file, hfile, fun y hy => hsame.found_iff.mpr (hsupers y hy)⟩

/-- The class `A` implements `X` and `Y`, and `X` extends `Y`. -/
def exampleLoader : Loader where
  romizedProduct := true
  system := [⟨javaLangObject, false, false, false⟩]
  files := [([byte 'A'], ⟨[byte 'A'], some javaLangObject, [[byte 'X'], [byte 'Y']], false, false⟩),
    ([byte 'X'], ⟨[byte 'X'], some javaLangObject, [[byte 'Y']], true, false⟩),
    ([byte 'Y'], ⟨[byte 'Y'], some javaLangObject, [], true, false⟩)]
  head := fun _ _ => ([], none)
  rest := fun file _ => ([file.thisClass], none)

/-- The class `A` is to be loaded, of which there is a fake class. -/
def exampleRequest : Request := ⟨[byte 'A'], none, [⟨[byte 'A'], true, false, false⟩]⟩

example : (exampleLoader.loadSystemClass 9 exampleRequest.name exampleRequest.buf
    exampleRequest.dictionary).map (fun r => r.map realNames) =
      some (.ok [[byte 'A'], [byte 'X'], [byte 'Y']]) := by decide

end CldcVm.Loading
