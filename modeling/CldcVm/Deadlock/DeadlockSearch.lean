import CldcVm.Deadlock.DeadlockFinder
import CldcVm.Lib.CycleSearch

/-!
# The search of the deadlock finder

Results:

* `printLoop_spec`: the loop that is printed ends.
* `followBlockedThread_spec`: all nodes that are reached are marked, and a deadlock is found if and
  only if they lead to a cycle.
* `searchList_spec`: the search counts as `found` of the library does.
-/

namespace CldcVm.Deadlock

open Relation Lib.Cycles Lib.CycleSearch

variable {list : List BlockedThread} {marker : ℕ} {bt start : BlockedThread} {s : Search}

/-- The node waits for the other one. -/
def Next (list : List BlockedThread) (a b : BlockedThread) : Prop := waitsFor list a = some b

theorem next_rightUnique (list : List BlockedThread) : Relator.RightUnique (Next list) := by
  intro a b c hb hc
  exact Option.some.inj (hb.symm.trans hc)

variable {a b : BlockedThread}

theorem Next.mem (h : Next list a b) : b ∈ list := List.mem_of_find?_eq_some h

theorem Next.thread (h : Next list a b) : b.thread = a.sl.thread := by
  simpa using List.find?_some h

theorem next_iff (hlist : (list.map BlockedThread.thread).Nodup) :
    Next list a b ↔ b ∈ list ∧ b.thread = a.sl.thread := by
  constructor
  · exact fun h => ⟨h.mem, h.thread⟩
  · rintro ⟨hb, hthread⟩
    obtain ⟨c, hc⟩ : ∃ c, waitsFor list a = some c := by
      rw [← Option.isSome_iff_exists, waitsFor, List.find?_isSome]
      exact ⟨b, hb, by simpa using hthread⟩
    have hcb : c = b := List.inj_on_of_nodup_map hlist (Next.mem hc) hb
      ((Next.thread hc).trans hthread.symm)
    rw [Next, hc, hcb]

variable {full : List BlockedThread}

theorem next_within (hfull : (full.map BlockedThread.thread).Nodup)
    (hsub : list.Sublist full) : Next list = within (Next full) {x | x ∈ list} := by
  funext a b
  have hlist := hfull.sublist (hsub.map BlockedThread.thread)
  rw [within, next_iff hlist, next_iff hfull]
  refine propext ⟨fun h => ⟨⟨hsub.subset h.1, h.2⟩, h.1⟩, fun h => ⟨h.2, h.1.2⟩⟩

/-! ## One node -/

/-- The node leads to a cycle. -/
def LeadsToCycle (list : List BlockedThread) (bt : BlockedThread) : Prop :=
  ∃ c, ReflTransGen (Next list) bt c ∧ TransGen (Next list) c c

/-- **Run lemma**: the loop is printed up to its start. -/
theorem printLoop_spec {markedBy : BlockedThread → ℕ}
    (hmarks : ∀ x, ReflTransGen (Next list) start x → markedBy x = markedBy start)
    (hto : ReflTransGen (Next list) start bt) (hloop : TransGen (Next list) bt start) :
    ∃ loop N, ∀ fuel ≥ N, printLoop list markedBy start fuel bt = some loop := by
  induction hloop using TransGen.head_induction_on with
  | @single x hx =>
    refine ⟨[x], 1, fun fuel hfuel => ?_⟩
    obtain ⟨n, rfl⟩ : ∃ n, fuel = n + 1 := ⟨fuel - 1, by omega⟩
    have hx' : waitsFor list x = some start := hx
    simp [printLoop, hx']
  | @head x y hx _ ih =>
    have hmark := hmarks y (hto.tail hx)
    have hx' : waitsFor list x = some y := hx
    by_cases hy : y = start
    · refine ⟨[x], 1, fun fuel hfuel => ?_⟩
      obtain ⟨n, rfl⟩ : ∃ n, fuel = n + 1 := ⟨fuel - 1, by omega⟩
      simp [printLoop, hx', hy]
    · obtain ⟨loop, N, hrest⟩ := ih (hto.tail hx)
      refine ⟨x :: loop, N + 1, fun fuel hfuel => ?_⟩
      obtain ⟨n, rfl⟩ : ∃ n, fuel = n + 1 := ⟨fuel - 1, by omega⟩
      simp [printLoop, hx', hy, hmark, hrest n (by omega)]

/-- What the loop of `follow_blocked_thread` keeps, where the nodes with the marker are those before
`bt`. -/
structure Following (list : List BlockedThread) (marker : ℕ) (bt : BlockedThread) (s : Search) :
    Prop where
  leads : ∀ v, s.markedBy v = marker → TransGen (Next list) v bt
  closed : ∀ v, s.markedBy v = marker → ∀ w, Next list v w → s.markedBy w = marker ∨ w = bt

/-- The nodes of the list that do not have the marker yet. -/
def unmarked (list : List BlockedThread) (marker : ℕ) (s : Search) : List BlockedThread :=
  list.filter fun x => s.markedBy x ≠ marker

/-- A node is marked. -/
def Search.mark (s : Search) (bt : BlockedThread) (marker : ℕ) : Search :=
  { s with markedBy := Function.update s.markedBy bt marker }

@[simp] theorem Search.mark_iff {x : BlockedThread} :
    (s.mark bt marker).markedBy x = marker ↔ x = bt ∨ s.markedBy x = marker := by
  rw [mark]
  by_cases h : x = bt
  · simp [h]
  · simp [h]

theorem length_unmarked_mark (hbt : bt ∈ list) (hnot : s.markedBy bt ≠ marker) :
    (unmarked list marker (s.mark bt marker)).length < (unmarked list marker s).length := by
  have hsame : unmarked list marker (s.mark bt marker) =
      (unmarked list marker s).filter fun x => x ≠ bt := by
    rw [unmarked, unmarked, List.filter_filter]
    refine List.filter_congr fun x _ => ?_
    simp only [ne_eq, Search.mark_iff, not_or, Bool.decide_and]
  rw [hsame]
  refine List.length_filter_lt_length_iff_exists.2 ⟨bt, ?_, by simp⟩
  exact List.mem_filter.2 ⟨hbt, by simpa using hnot⟩

/-- **Step lemma**: the node is marked, and the next one is looked at. -/
theorem Following.step {next : BlockedThread} (h : Following list marker bt s)
    (hnext : Next list bt next) : Following list marker next (s.mark bt marker) where
  leads v hv := by
    obtain rfl | hv := Search.mark_iff.1 hv
    · exact TransGen.single hnext
    · exact (h.leads v hv).tail hnext
  closed v hv w hvw := by
    obtain rfl | hv := Search.mark_iff.1 hv
    · exact .inr (next_rightUnique list hvw hnext)
    · refine .inl (Search.mark_iff.2 ?_)
      exact (h.closed v hv w hvw).symm

theorem reaches_next_iff {next x : BlockedThread} (hnext : Next list bt next) :
    ReflTransGen (Next list) bt x ↔ x = bt ∨ ReflTransGen (Next list) next x := by
  constructor
  · intro h
    obtain rfl | ⟨y, hy, hyx⟩ := ReflTransGen.cases_head h
    · exact .inl rfl
    · rw [next_rightUnique list hnext hy]
      exact .inr hyx
  · rintro (rfl | h)
    · exact ReflTransGen.refl
    · exact ReflTransGen.head hnext h

theorem leadsToCycle_next_iff {next : BlockedThread} (hnext : Next list bt next) :
    LeadsToCycle list bt ↔ LeadsToCycle list next := by
  constructor
  · rintro ⟨c, hc, hloop⟩
    obtain rfl | hc := (reaches_next_iff hnext).1 hc
    · obtain ⟨y, hy, hyc⟩ := TransGen.head'_iff.1 hloop
      rw [next_rightUnique list hnext hy]
      exact ⟨c, hyc, hloop⟩
    · exact ⟨c, hc, hloop⟩
  · rintro ⟨c, hc, hloop⟩
    exact ⟨c, ReflTransGen.head hnext hc, hloop⟩

open Classical in
/-- **Run lemma**: the loop of `follow_blocked_thread`. -/
theorem followBlockedThread_spec (hbt : bt ∈ list) (h : Following list marker bt s) :
    ∃ s' N, (∀ fuel ≥ N, followBlockedThread list marker fuel (some bt) s =
        some (if LeadsToCycle list bt then 1 else 0, s')) ∧
      ∀ x, s'.markedBy x = if s.markedBy x = marker ∨ ReflTransGen (Next list) bt x then marker
        else s.markedBy x := by
  induction hk : (unmarked list marker s).length using Nat.strong_induction_on
    generalizing bt s with
  | _ k ih =>
    by_cases hmark : s.markedBy bt = marker
    · -- The node has been marked by this loop: a cycle is closed.
      have hloop : TransGen (Next list) bt bt := h.leads bt hmark
      have hall : ∀ x, ReflTransGen (Next list) bt x → s.markedBy x = marker := by
        intro x hx
        induction hx with
        | refl => exact hmark
        | tail _ hxy ih' =>
          obtain h' | rfl := h.closed _ ih' _ hxy
          · exact h'
          · exact hmark
      have hmarks : ∀ x, ReflTransGen (Next list) bt x → s.markedBy x = s.markedBy bt :=
        fun x hx => (hall x hx).trans hmark.symm
      obtain ⟨loop, N, hprint⟩ := printLoop_spec hmarks ReflTransGen.refl hloop
      refine ⟨{ s with out := s.out ++ [loop] }, N + 1, fun fuel hfuel => ?_, fun x => ?_⟩
      · obtain ⟨n, rfl⟩ : ∃ n, fuel = n + 1 := ⟨fuel - 1, by omega⟩
        rw [followBlockedThread, if_pos hmark, hprint n (by omega),
          if_pos ⟨bt, ReflTransGen.refl, hloop⟩]
        rfl
      · show s.markedBy x = _
        split
        · rename_i hx
          exact hx.elim id (hall x)
        · rfl
    · by_cases hnext : ∃ next, waitsFor list bt = some next
      · obtain ⟨next, hnext⟩ := hnext
        have hlt := length_unmarked_mark hbt hmark
        obtain ⟨s', N, hrun, hmarks⟩ := ih _ (hk ▸ hlt) (Next.mem hnext) (h.step hnext) rfl
        refine ⟨s', N + 1, fun fuel hfuel => ?_, fun x => ?_⟩
        · obtain ⟨n, rfl⟩ : ∃ n, fuel = n + 1 := ⟨fuel - 1, by omega⟩
          rw [followBlockedThread, if_neg hmark, hnext]
          simp only [leadsToCycle_next_iff hnext]
          exact hrun n (by omega)
        · rw [hmarks]
          simp only [reaches_next_iff hnext, Search.mark_iff]
          by_cases hx : x = bt
          · simp [hx]
          · simp [hx, Search.mark]
      · have hnone : waitsFor list bt = none := by
          simpa [Option.eq_none_iff_forall_ne_some] using hnext
        have hdead : ∀ x, ReflTransGen (Next list) bt x → x = bt := by
          intro x hx
          obtain rfl | ⟨y, hy, -⟩ := ReflTransGen.cases_head hx
          · rfl
          · exact (hnext ⟨y, hy⟩).elim
        refine ⟨s.mark bt marker, 1, fun fuel hfuel => ?_, fun x => ?_⟩
        · obtain ⟨n, rfl⟩ : ∃ n, fuel = n + 1 := ⟨fuel - 1, by omega⟩
          rw [followBlockedThread, if_neg hmark, hnone, if_neg]
          · cases n <;> rfl
          · rintro ⟨c, hc, hloop⟩
            obtain rfl := hdead c hc
            obtain ⟨y, hy, -⟩ := TransGen.head'_iff.1 hloop
            exact hnext ⟨y, hy⟩
        · by_cases hx : x = bt
          · subst hx
            simp [Search.mark, ReflTransGen.refl]
          · have hnot : ¬ReflTransGen (Next list) bt x := fun h' => hx (hdead x h')
            simp [Search.mark, hx, hnot]

/-! ## All nodes -/

theorem leadsToCycle_iff
    (hfull : (full.map BlockedThread.thread).Nodup) (hsub : list.Sublist full) :
    LeadsToCycle list bt ↔ ∃ C, Leads (Next full) list bt C := by
  rw [LeadsToCycle, next_within hfull hsub]
  constructor
  · rintro ⟨c, hc, hloop⟩
    have hcycle := (isCycle_within_iff (next_rightUnique full)).1 ⟨c, hloop, rfl⟩
    exact ⟨_, hcycle.1, hcycle.2, c, ReflTransGen.refl, hc⟩
  · rintro ⟨C, hcycle, hlist, c, hc, hreached⟩
    have hright := next_rightUnique list
    rw [next_within hfull hsub] at hright
    have hwithin := (isCycle_within_iff (next_rightUnique full)).2 ⟨hcycle, hlist⟩
    exact ⟨c, hreached, hwithin.again hright hc⟩

theorem following_of_lt (hlt : ∀ x, s.markedBy x < marker) : Following list marker bt s where
  leads v hv := absurd hv (hlt v).ne
  closed v hv := absurd hv (hlt v).ne

/-- **Run lemma**: the loop over the list. -/
theorem searchList_spec (hfull : (full.map BlockedThread.thread).Nodup) (hsub : list.Sublist full)
    (hlt : ∀ x, s.markedBy x < marker) : ∃ s' N, ∀ fuel ≥ N, searchList fuel list marker s =
      some (found (Next full) list {x | s.markedBy x ≠ 0}, s') := by
  induction list generalizing marker s with
  | nil => exact ⟨s, 0, fun fuel _ => rfl⟩
  | cons bt rest ih =>
    have hrest : rest.Sublist full := (List.sublist_cons_self bt rest).trans hsub
    by_cases hmark : s.markedBy bt = 0
    · classical
      have hfollowing : Following (bt :: rest) marker bt s := following_of_lt hlt
      obtain ⟨s₁, N₁, hrun, hmarks⟩ := followBlockedThread_spec List.mem_cons_self hfollowing
      have hlt₁ : ∀ x, s₁.markedBy x < marker + 1 := by
        intro x
        have hx := hlt x
        rw [hmarks]
        split <;> omega
      obtain ⟨s', N₂, hrun'⟩ := ih hrest hlt₁
      have hset : {x | s₁.markedBy x ≠ 0} =
          {x | s.markedBy x ≠ 0} ∪ reached (Next full) (bt :: rest) bt := by
        ext x
        have hx := hlt x
        have hreached : x ∈ reached (Next full) (bt :: rest) bt ↔
            ReflTransGen (Next (bt :: rest)) bt x := by
          rw [next_within hfull hsub]
          rfl
        rw [Set.mem_union, hreached, Set.mem_ofPred_eq, Set.mem_ofPred_eq, hmarks]
        by_cases h : ReflTransGen (Next (bt :: rest)) bt x
        · simp only [h, or_true, if_true, iff_true]
          omega
        · rw [if_neg (by simp [h, hx.ne]), or_iff_left h]
      refine ⟨s', max N₁ N₂, fun fuel hfuel => ?_⟩
      rw [searchList, if_pos hmark, hrun fuel (by omega)]
      simp only
      have hbt : bt ∉ {x | s.markedBy x ≠ 0} := fun h => h hmark
      rw [hrun' fuel (by omega), found, if_neg hbt, hset]
      simp only [Option.map_some, leadsToCycle_iff hfull hsub]
    · have hlt' : ∀ x, s.markedBy x < marker + 1 := fun x => (hlt x).trans (by omega)
      obtain ⟨s', N, hrun⟩ := ih hrest hlt'
      have hbt : bt ∈ {x | s.markedBy x ≠ 0} := hmark
      refine ⟨s', N, fun fuel hfuel => ?_⟩
      rw [searchList, if_neg hmark, hrun fuel hfuel, found, if_pos hbt]

end CldcVm.Deadlock
