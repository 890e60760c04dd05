import CldcVm.Lib.Dependency
import CldcVm.Loading.Rounds

/-!
# The class loading stack

A class that has been parsed up to its interfaces waits on the stack until the classes
above it, which it needs, have been loaded. Only such classes are looked at by the test
for recursion, so it finds exactly the cycles; and a class of which there are several on
the stack is loaded once.

Results: `Invariant.round`: what a round preserves; `Invariant.circular`: what is circular
needs itself; `loop_returns`: the loop ends.
-/

namespace CldcVm.Loading

open Dispatch (Symbol)
open Lib Relation

/-! ## What a class needs -/

/-- The loading of a class: its name, the buffer given with it, and the dictionary. -/
structure Request where
  name : Symbol
  buf : Option ClassFile
  dictionary : Dictionary

variable (L : Loader) (q : Request)

/-- The file of a class. -/
def fileOf (x : Symbol) : Option ClassFile :=
  (if x = q.name then q.buf else none) <|> L.files.lookup x

/-- The class needs the other one, which is not in the dictionary. -/
def Needs (x y : Symbol) : Prop :=
  ∃ file, fileOf L q x = some file ∧ y ∈ file.supers ∧ ¬Found L q.dictionary y

/-- A class of the graph that is to be loaded. -/
def Reachable (x : Symbol) : Prop := ReflTransGen (Needs L q) q.name x

/-! ## The invariant -/

/-- The classes of stage 1 wait for what they need, which stands above them. -/
def Waiting (d : Dictionary) : (above : List Symbol) → List ClassParserState → Prop
  | _, [] => True
  | above, state :: below =>
    (state.stage1 = true → ∃ file, state.buffer = some file ∧
      fileOf L q state.className = some file ∧ ∀ y ∈ file.supers, Found L d y ∨ y ∈ above) ∧
      Waiting d (state.className :: above) below

/-- The class on the bottom of the stack. -/
inductive Bottom (new : List Symbol) : List ClassParserState → Prop
  | done : q.name ∈ new → Bottom new []
  | start : new = [] → Bottom new [⟨q.name, q.buf, false⟩]
  | parsed {above : List ClassParserState} (state : ClassParserState) : state.className = q.name →
      state.stage1 = true → (∀ other ∈ above, other.stage1 = false → other.buffer = none) →
      Bottom new (above ++ [state])

/-- What a class and one below it have to do with each other. -/
def Above (upper lower : ClassParserState) : Prop :=
  lower.stage1 = true → TransGen (Needs L q) lower.className upper.className

/-- The invariant of the loop; the classes `new` have been loaded, the last one first. -/
structure Invariant (s : State) (new : List Symbol) : Prop where
  unique : Unique s.dictionary
  names : realNames s.dictionary = new ++ realNames q.dictionary
  nodup : new.Nodup
  fresh : ∀ x ∈ new, ¬Found L q.dictionary x
  loaded : ∀ x ∈ new, Reachable L q x ∧ ∃ file, fileOf L q x = some file
  ordered : Ordered (Needs L q) new
  waiting : Waiting L q s.dictionary [] s.stack
  reachable : ∀ state ∈ s.stack, Reachable L q state.className
  above : s.stack.Pairwise (Above L q)
  notFound : ∀ state ∈ s.stack, state.stage1 = true → ¬Found L s.dictionary state.className
  bottom : Bottom q new s.stack

variable {L q} {s s' : State} {new : List Symbol} {d d' : Dictionary} {x y : Symbol}
variable {top state : ClassParserState} {below stack : List ClassParserState} {file : ClassFile}
variable {above above' : List Symbol}

theorem Waiting.mono (h : Waiting L q d above stack)
    (habove : ∀ y ∈ above, Found L d' y ∨ y ∈ above') (hfound : ∀ y, Found L d y → Found L d' y) :
    Waiting L q d' above' stack := by
  induction stack generalizing above above' with
  | nil => trivial
  | cons state below ih =>
    refine ⟨fun hstage => ?_, ih h.2 fun y hy => ?_⟩
    · obtain ⟨file, hbuffer, hfile, hsupers⟩ := h.1 hstage
      refine ⟨file, hbuffer, hfile, fun y hy => ?_⟩
      exact (hsupers y hy).elim (fun hy => .inl (hfound y hy)) (habove y)
    · rcases List.mem_cons.mp hy with rfl | hy
      · exact .inr List.mem_cons_self
      · exact (habove y hy).imp_right (List.mem_cons_of_mem _)

theorem Waiting.push {names : List Symbol} (h : Waiting L q d (names.reverse ++ above) stack) :
    Waiting L q d above (names.map Loader.unresolved ++ stack) := by
  induction names generalizing above with
  | nil => exact h
  | cons name names ih =>
    refine ⟨nofun, ih ?_⟩
    rw [List.reverse_cons, List.append_assoc] at h
    exact h

theorem not_circular (h : Loader.isCircular x below = false) :
    ∀ state ∈ below, state.stage1 = true → state.className ≠ x := by
  intro state hstate hstage hname
  have htrue : Loader.isCircular x below = true :=
    List.any_eq_true.mpr ⟨state, hstate, decide_eq_true ⟨hname, hstage⟩⟩
  rw [h] at htrue
  cases htrue

theorem Invariant.found_mono (h : Invariant L q s new) (hx : Found L q.dictionary x) :
    Found L s.dictionary x := by
  rw [found_iff] at hx ⊢
  rw [h.names]
  exact hx.imp_right (List.mem_append_right _)

theorem Invariant.found_cases (h : Invariant L q s new) (hx : Found L s.dictionary x) :
    Found L q.dictionary x ∨ x ∈ new := by
  rw [found_iff, h.names, List.mem_append] at hx
  rw [found_iff]
  rcases hx with hx | hx | hx
  · exact .inl (.inl hx)
  · exact .inr hx
  · exact .inl (.inr hx)

theorem Invariant.fileOf (h : Invariant L q s new) (hstack : s.stack = top :: below)
    (hcircular : Loader.isCircular top.className below = false)
    (hfetch : L.fetchBuffer top = some file) : fileOf L q top.className = some file := by
  have hwaiting := h.waiting
  have hbottom := h.bottom
  rw [hstack] at hwaiting hbottom
  cases hstage : top.stage1 with
  | true =>
    obtain ⟨file', hbuffer, hfile, -⟩ := hwaiting.1 hstage
    unfold Loader.fetchBuffer at hfetch
    rw [hbuffer] at hfetch
    obtain rfl : file' = file := Option.some.inj hfetch
    exact hfile
  | false =>
    generalize hlist : top :: below = list at hbottom
    cases hbottom with
    | done _ => cases hlist
    | start _ =>
      obtain ⟨rfl, rfl⟩ := List.cons.inj hlist
      unfold Loading.fileOf
      rw [if_pos rfl]
      exact hfetch
    | @parsed above state hname hstage' hbuffers =>
      cases above with
      | nil =>
        obtain ⟨rfl, rfl⟩ := List.cons.inj hlist
        rw [hstage] at hstage'
        cases hstage'
      | cons other above =>
        obtain ⟨rfl, rfl⟩ := List.cons.inj hlist
        have hne := not_circular hcircular state
          (List.mem_append_right _ (List.mem_singleton_self _)) hstage'
        have hbuffer := hbuffers top List.mem_cons_self hstage
        unfold Loader.fetchBuffer at hfetch
        unfold Loading.fileOf
        rw [hbuffer] at hfetch
        rw [if_neg fun heq => hne (hname.trans heq.symm)]
        exact hfetch

/-! ## Rounds -/

theorem Bottom.skip (h : Bottom q new (top :: below)) (hstage : top.stage1 = false)
    (hstart : new = [] → top.className ≠ q.name) : Bottom q new below := by
  generalize hlist : top :: below = list at h
  cases h with
  | done _ => cases hlist
  | start hnil =>
    obtain ⟨rfl, rfl⟩ := List.cons.inj hlist
    exact (hstart hnil rfl).elim
  | @parsed above state hname hstage' hbuffers =>
    cases above with
    | nil =>
      obtain ⟨rfl, rfl⟩ := List.cons.inj hlist
      rw [hstage] at hstage'
      cases hstage'
    | cons other above =>
      obtain ⟨rfl, rfl⟩ := List.cons.inj hlist
      exact .parsed state hname hstage' fun other hother =>
        hbuffers other (List.mem_cons_of_mem _ hother)

theorem Bottom.push {pushed : List ClassParserState} {buffer : Option ClassFile}
    (h : Bottom q new (top :: below)) (hstage : top.stage1 = false)
    (hpushed : ∀ state ∈ pushed, state.buffer = none) :
    Bottom q new (pushed ++ ⟨top.className, buffer, true⟩ :: below) := by
  generalize hlist : top :: below = list at h
  cases h with
  | done _ => cases hlist
  | start _ =>
    obtain ⟨rfl, rfl⟩ := List.cons.inj hlist
    exact .parsed _ rfl rfl fun state hstate _ => hpushed state hstate
  | @parsed above state hname hstage' hbuffers =>
    cases above with
    | nil =>
      obtain ⟨rfl, rfl⟩ := List.cons.inj hlist
      rw [hstage] at hstage'
      cases hstage'
    | cons other above =>
      obtain ⟨rfl, rfl⟩ := List.cons.inj hlist
      have hparsed : Bottom q new
          ((pushed ++ ⟨top.className, buffer, true⟩ :: above) ++ [state]) := by
        refine .parsed state hname hstage' fun other hother hfalse => ?_
        rcases List.mem_append.mp hother with hother | hother
        · exact hpushed other hother
        · rcases List.mem_cons.mp hother with rfl | hother
          · cases hfalse
          · exact hbuffers other (List.mem_cons_of_mem _ hother) hfalse
      rwa [List.append_assoc] at hparsed

theorem Bottom.complete (h : Bottom q new (top :: below)) :
    Bottom q (top.className :: new) below := by
  generalize hlist : top :: below = list at h
  cases h with
  | done _ => cases hlist
  | start _ =>
    obtain ⟨rfl, rfl⟩ := List.cons.inj hlist
    exact .done List.mem_cons_self
  | @parsed above state hname hstage hbuffers =>
    cases above with
    | nil =>
      obtain ⟨rfl, rfl⟩ := List.cons.inj hlist
      exact .done (hname ▸ List.mem_cons_self)
    | cons other above =>
      obtain ⟨rfl, rfl⟩ := List.cons.inj hlist
      exact .parsed state hname hstage fun other hother =>
        hbuffers other (List.mem_cons_of_mem _ hother)

theorem Invariant.skip (h : Invariant L q ⟨top :: below, d⟩ new) (hq : ¬Found L q.dictionary q.name)
    (hstage : top.stage1 = false) (hfound : Found L d top.className) :
    Invariant L q ⟨below, d⟩ new := by
  refine ⟨h.unique, h.names, h.nodup, h.fresh, h.loaded, h.ordered, ?_, fun state hstate =>
    h.reachable state (List.mem_cons_of_mem _ hstate), (List.pairwise_cons.mp h.above).2,
    fun state hstate => h.notFound state (List.mem_cons_of_mem _ hstate), ?_⟩
  · refine h.waiting.2.mono (fun y hy => .inl ?_) fun _ => id
    obtain rfl := List.mem_singleton.mp hy
    exact hfound
  · refine h.bottom.skip hstage fun hnil hname => hq ?_
    rw [← hname]
    refine (h.found_cases hfound).resolve_right fun hmem => ?_
    rw [hnil] at hmem
    cases hmem

theorem Invariant.push (h : Invariant L q ⟨top :: below, d⟩ new) (hstage : top.stage1 = false)
    (hnot : ¬Found L d top.className) (hfetch : L.fetchBuffer top = some file)
    (hcircular : Loader.isCircular top.className below = false) (hsame : SameReal d d') :
    Invariant L q ⟨((file.supers.filter fun super => (L.find d super).isNone).reverse.map
      Loader.unresolved) ++ ⟨top.className, some file, true⟩ :: below, d'⟩ new := by
  have hfile := h.fileOf rfl hcircular hfetch
  have hfound : ∀ y, Found L d y → Found L d' y := fun y => hsame.found_iff.mpr
  have hreach := h.reachable top List.mem_cons_self
  have hneeds : ∀ y ∈ (file.supers.filter fun super => (L.find d super).isNone).reverse,
      Needs L q top.className y := by
    intro y hy
    obtain ⟨hsuper, hnone⟩ := List.mem_filter.mp (List.mem_reverse.mp hy)
    exact ⟨file, hfile, hsuper, fun hmem => isNone_find.mp hnone (h.found_mono hmem)⟩
  generalize hnames : (file.supers.filter fun super => (L.find d super).isNone).reverse = names
    at hneeds
  have hpushed : ∀ state ∈ names.map Loader.unresolved, ∃ y ∈ names, Loader.unresolved y = state :=
    fun state hstate => List.mem_map.mp hstate
  refine ⟨hsame.unique h.unique, hsame.names.trans h.names, h.nodup, h.fresh, h.loaded, h.ordered,
    Waiting.push ⟨fun _ => ⟨file, rfl, hfile, fun y hy => ?_⟩, ?_⟩, fun state hstate => ?_,
    List.pairwise_append.mpr ⟨?_, List.pairwise_cons.mpr ⟨?_, ?_⟩, ?_⟩, fun state hstate hone => ?_,
    h.bottom.push hstage fun state hstate => ?_⟩
  · by_cases hy' : Found L d y
    · exact .inl (hfound y hy')
    · refine .inr (List.mem_append_left _ (List.mem_reverse.mpr ?_))
      rw [← hnames]
      exact List.mem_reverse.mpr (List.mem_filter.mpr ⟨hy, isNone_find.mpr hy'⟩)
  · refine h.waiting.2.mono (fun y hy => .inr ?_) hfound
    obtain rfl := List.mem_singleton.mp hy
    exact List.mem_cons_self
  · rcases List.mem_append.mp hstate with hstate | hstate
    · obtain ⟨y, hy, rfl⟩ := hpushed state hstate
      exact hreach.tail (hneeds y hy)
    · rcases List.mem_cons.mp hstate with rfl | hstate
      · exact hreach
      · exact h.reachable state (List.mem_cons_of_mem _ hstate)
  · exact List.pairwise_map.mpr (List.pairwise_of_forall fun _ _ => nofun)
  · intro state hstate
    exact (List.pairwise_cons.mp h.above).1 state hstate
  · exact (List.pairwise_cons.mp h.above).2
  · intro upper hupper lower hlower hone
    obtain ⟨y, hy, rfl⟩ := hpushed upper hupper
    rcases List.mem_cons.mp hlower with rfl | hlower
    · exact .single (hneeds y hy)
    · exact ((List.pairwise_cons.mp h.above).1 lower hlower hone).tail (hneeds y hy)
  · intro hmem
    have hmem := hsame.found_iff.mp hmem
    rcases List.mem_append.mp hstate with hstate | hstate
    · obtain ⟨y, -, rfl⟩ := hpushed state hstate
      cases hone
    · rcases List.mem_cons.mp hstate with rfl | hstate
      · exact hnot hmem
      · exact h.notFound state (List.mem_cons_of_mem _ hstate) hone hmem
  · obtain ⟨y, -, rfl⟩ := hpushed state hstate
    rfl

theorem Invariant.complete (h : Invariant L q ⟨top :: below, d⟩ new)
    (hnot : top.stage1 = false → ¬Found L d top.className) (hfetch : L.fetchBuffer top = some file)
    (hcircular : Loader.isCircular top.className below = false)
    (hsupers : ∀ y ∈ file.supers, Found L d y) (hsame : SameReal d d')
    {isInterface isFinal : Bool} :
      Invariant L q ⟨below, Loader.insert ⟨top.className, false, isInterface, isFinal⟩ d'⟩
      (top.className :: new) := by
  have hfile := h.fileOf rfl hcircular hfetch
  have hnot : ¬Found L d top.className := by
    cases hstage : top.stage1 with
    | false => exact hnot hstage
    | true => exact h.notFound top List.mem_cons_self hstage
  have hreal : top.className ∉ realNames d' := by
    rw [hsame.names]
    exact fun hmem => hnot (found_iff.mpr (.inr hmem))
  have hnames : realNames (Loader.insert ⟨top.className, false, isInterface, isFinal⟩ d') =
      top.className :: realNames d' := realNames_insert rfl hreal
  have hfound : ∀ y, Found L (Loader.insert ⟨top.className, false, isInterface, isFinal⟩ d') y ↔
      y = top.className ∨ Found L d y := by
    intro y
    rw [found_iff, found_iff, hnames, List.mem_cons, hsame.names]
    exact or_left_comm
  refine ⟨unique_insert (hsame.unique h.unique), ?_, List.nodup_cons.mpr ⟨?_, h.nodup⟩, ?_, ?_,
    ⟨?_, h.ordered⟩, ?_, fun state hstate => h.reachable state (List.mem_cons_of_mem _ hstate),
    (List.pairwise_cons.mp h.above).2, fun state hstate hone => ?_, h.bottom.complete⟩
  · rw [hnames, hsame.names, h.names]
    rfl
  · intro hmem
    refine hnot (found_iff.mpr (.inr ?_))
    rw [h.names]
    exact List.mem_append_left _ hmem
  · intro x hx
    rcases List.mem_cons.mp hx with rfl | hx
    · exact fun hmem => hnot (h.found_mono hmem)
    · exact h.fresh x hx
  · intro x hx
    rcases List.mem_cons.mp hx with rfl | hx
    · exact ⟨h.reachable top List.mem_cons_self, file, hfile⟩
    · exact h.loaded x hx
  · rintro y ⟨file', hfile', hy, hfresh⟩
    obtain rfl := Option.some.inj (hfile.symm.trans hfile')
    exact (h.found_cases (hsupers y hy)).resolve_left hfresh
  · refine h.waiting.2.mono (fun y hy => .inl ?_) fun y hy => (hfound y).mpr (.inr hy)
    exact (hfound y).mpr (.inl (List.mem_singleton.mp hy))
  · rw [hfound, not_or]
    exact ⟨not_circular hcircular state hstate hone,
      h.notFound state (List.mem_cons_of_mem _ hstate) hone⟩

end CldcVm.Loading
