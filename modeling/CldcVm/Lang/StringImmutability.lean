import CldcVm.Lang.StringBufferMethods

/-!
# Strings keep their characters

A buffer with the strings made from it is compared with a list of characters and the snapshots that
`toString` takes of it (`Plain`).

Results:

* `strings_keep`: in a run the buffer follows the list, and the strings keep their characters, as
  long as no shared buffer becomes shorter while the memory refuses its array.
* `refused_setLength_writes_string`: such a refusal lets a later `append` write into a string.
-/

namespace CldcVm.StringBuffers

/-- A list of characters, and the strings that have been made from it. -/
structure Plain where
  contents : List Jchar
  strings : List (List Jchar)

/-- A method of a list; `none` is an exception. -/
def Plain.step (p : Plain) : Op → Option Plain
  | .toString => some { p with strings := p.strings ++ [p.contents] }
  | op => (op.edit p.strings p.contents).map fun contents => { p with contents := contents }

/-- A buffer shows a list and its strings. -/
structure Shows (m : Machine) (p : Plain) : Prop where
  valid : Valid m
  contents : m.contents = p.contents
  strings : m.texts = p.strings

/-- The memory refuses a string, or an array that is no longer than a method may ask for. -/
def Refused (memory : Memory) (m : Machine) (op : Op) : Prop :=
  memory.string = false ∨ memory.Refuses (m.demand (op.room m.texts m.contents))

/-- A run of a buffer follows that of a list: what a method does to the list it does to the buffer,
an exception leaves both as they are, and no copy is outside of an array. -/
inductive Follows : Machine → Plain → List (Memory × Op) → Prop
  | nil {m p} (h : Shows m p) : Follows m p []
  | done {m p memory op m' p' run} (h : Shows m p) (hm : m.execute memory op = (.done, m'))
      (hp : p.step op = some p') (hrun : Follows m' p' run) : Follows m p ((memory, op) :: run)
  | thrown {m p memory op e m' run} (h : Shows m p) (hm : m.execute memory op = (.thrown e, m'))
      (hp : if e = .outOfMemoryError then Refused memory m op else p.step op = none)
      (hrun : Follows m' p run) : Follows m p ((memory, op) :: run)

/-- No shared buffer becomes shorter while the memory refuses an array for it. -/
def Granted : Machine → List (Memory × Op) → Prop
  | _, [] => True
  | m, (memory, op) :: run => op.Granted memory m ∧ Granted (m.execute memory op).2 run

variable {m m' : Machine} {p : Plain} {memory : Memory}

theorem Keeps.texts (h : Keeps m m') : m'.texts = m.texts := by
  rw [Machine.texts, Machine.texts, h.strings]
  exact List.map_congr_left h.chars

/-- **Step lemma**: `toString` takes a snapshot. -/
theorem Shows.makeString (h : Shows m p) : Shows { m with
      shared := true
      strings := m.strings ++ [⟨m.value, m.count⟩] }
      { p with strings := p.strings ++ [p.contents] } := by
  refine ⟨⟨h.valid.value, h.valid.count, h.valid.limit, fun s hs => ?_⟩, h.contents, ?_⟩
  · obtain hs | hs := List.mem_append.mp hs
    · obtain ⟨hvalue, hcount, hlimit, hown⟩ := h.valid.strings s hs
      exact ⟨hvalue, hcount, hlimit, fun heq => ⟨rfl, (hown heq).2⟩⟩
    · rw [List.mem_singleton.mp hs]
      exact ⟨h.valid.value, h.valid.count, h.valid.count.trans h.valid.limit,
        fun _ => ⟨rfl, le_rfl⟩⟩
  · rw [← h.strings, ← h.contents]
    exact List.map_append

theorem Plain.step_of_ne {op : Op} (hop : op ≠ .toString) : p.step op =
      (op.edit p.strings p.contents).map fun contents => { p with contents := contents } := by
  match op, hop with
  | .toString, hop => exact absurd rfl hop
  | .appendString _, _ | .appendChars _, _ | .appendRange _ _ _, _ | .appendChar _, _
  | .insertString _ _, _ | .insertChars _ _, _ | .insertChar _ _, _ | .delete _ _, _
  | .deleteCharAt _, _ | .setCharAt _ _, _ | .setLength _, _ | .reverse, _
  | .ensureCapacity _, _ => rfl

/-- What one call does, seen from the list. -/
inductive Call (m : Machine) (p : Plain) (memory : Memory) (op : Op) : Outcome × Machine → Prop
  | done {m' p'} (hp : p.step op = some p') (h : Shows m' p') : Call m p memory op (.done, m')
  | thrown {e m'}
      (hp : if e = .outOfMemoryError then Refused memory m op else p.step op = none)
      (h : Shows m' p) : Call m p memory op (.thrown e, m')

/-- A method that edits the list, and not `toString`. -/
theorem Shows.edit (h : Shows m p) {op : Op} {bound : ℤ}
    (hstep : p.step op = (op.edit p.strings p.contents).map fun contents => { p with
      contents := contents })
    (hbound : memory.Refuses bound → Refused memory m op) {r : Outcome × Machine}
    (hr : Ends m memory bound (op.edit m.texts m.contents) r) : Call m p memory op r := by
  match r, hr with
  | (.done, m'), ⟨hvalid, hkeeps, hedit⟩ =>
    rw [h.strings, h.contents] at hedit
    have hshows : Shows m' ⟨m'.contents, p.strings⟩ :=
      ⟨hvalid, rfl, hkeeps.texts.trans h.strings⟩
    refine .done ?_ hshows
    rw [hstep, hedit]
    rfl
  | (.thrown e, m'), ⟨hvalid, hkeeps, hcontents, he⟩ =>
    refine .thrown ?_ ⟨hvalid, hcontents.trans h.contents, hkeeps.texts.trans h.strings⟩
    by_cases hmemory : e = .outOfMemoryError
    · rw [if_pos hmemory] at he ⊢
      exact hbound he
    · rw [if_neg hmemory] at he ⊢
      rw [h.strings, h.contents] at he
      rw [hstep, he]
      rfl

/-- **Step lemma**: a method of the buffer follows the list. -/
theorem execute_shows (h : Shows m p) (op : Op) (hgranted : op.Granted memory m) :
    Call m p memory op (m.execute memory op) := by
  by_cases hop : op = .toString
  · subst hop
    rw [Machine.execute, Machine.makeString]
    by_cases hstring : memory.string = true
    · rw [if_pos hstring]
      exact .done rfl h.makeString
    · rw [if_neg hstring]
      refine .thrown ?_ h
      rw [if_pos rfl]
      exact .inl (by simpa using hstring)
  · exact h.edit (Plain.step_of_ne hop) .inr (execute_ends h.valid op hop hgranted)

/-- **Run lemma**: every call of a run follows the list. -/
theorem Shows.follows (h : Shows m p) (run : List (Memory × Op)) (hgranted : Granted m run) :
    Follows m p run := by
  induction run generalizing m p with
  | nil => exact .nil h
  | cons call run ih =>
    obtain ⟨memory, op⟩ := call
    obtain ⟨hop, hrest⟩ := hgranted
    have hcall := execute_shows h op hop
    generalize hr : m.execute memory op = r at hcall hrest
    match r, hcall with
    | _, .done hp h' => exact .done h hr hp (ih h' hrest)
    | _, .thrown hp h' => exact .thrown h hr hp (ih h' hrest)

/-- The state after a run. -/
def Machine.after (m : Machine) (run : List (Memory × Op)) : Machine :=
  run.foldl (fun m call => (m.execute call.1 call.2).2) m

theorem Plain.step_strings {p' : Plain} {op : Op} (h : p.step op = some p') :
    p.strings <+: p'.strings := by
  by_cases hop : op = .toString
  · subst hop
    cases h
    exact List.prefix_append ..
  · rw [Plain.step_of_ne hop] at h
    obtain ⟨contents, -, rfl⟩ := Option.map_eq_some_iff.mp h
    exact List.prefix_rfl

theorem Follows.shows {run : List (Memory × Op)} (h : Follows m p run) : Shows m p := by
  cases h <;> assumption

theorem Follows.snapshots_prefix {run : List (Memory × Op)} (h : Follows m p run) :
    p.strings <+: (m.after run).texts := by
  induction h with
  | nil h =>
    rw [← h.strings]
    exact List.prefix_rfl
  | done h hm hp hrun ih =>
    rw [Machine.after, List.foldl_cons, hm]
    exact (Plain.step_strings hp).trans ih
  | thrown h hm hp hrun ih =>
    rw [Machine.after, List.foldl_cons, hm]
    exact ih

theorem Follows.strings_prefix (run run' : List (Memory × Op)) (h : Follows m p (run ++ run')) :
    (m.after run).texts <+: (m.after (run ++ run')).texts := by
  induction run generalizing m p with
  | nil =>
    have hprefix := h.snapshots_prefix
    rw [← h.shows.strings] at hprefix
    exact hprefix
  | cons call run ih =>
    match h with
    | .done _ hm _ hrun | .thrown _ hm _ hrun =>
      rw [List.cons_append, Machine.after, Machine.after, List.foldl_cons, List.foldl_cons, hm]
      exact ih hrun

theorem Shows.new {length : ℤ} (h : Machine.new memory length = .ok m) : Shows m ⟨[], []⟩ := by
  rw [Machine.new] at h
  by_cases hlength : length < 0
  · rw [if_pos hlength] at h
    cases h
  · rw [if_neg hlength] at h
    by_cases harray : memory.array length.toNat = true
    · rw [if_pos harray] at h
      cases h
      have hlimit := memory.limit _ harray
      refine ⟨⟨Nat.zero_lt_one, Nat.zero_le _, ?_, fun s hs => nomatch hs⟩, rfl, rfl⟩
      change (List.replicate length.toNat (0 : Jchar)).length ≤ _
      rw [List.length_replicate]
      exact hlimit
    · rw [if_neg harray] at h
      cases h

/-- **Main theorem**: in every run of the methods of a new buffer, the buffer has the characters
that a list has after the same methods, and every string keeps the characters of its snapshot, as
long as no shared buffer becomes shorter while the memory refuses an array for it. -/
theorem strings_keep {length : ℤ} (h : Machine.new memory length = .ok m)
    (run : List (Memory × Op)) (hgranted : Granted m run) : Follows m ⟨[], []⟩ run :=
  (Shows.new h).follows run hgranted

/-- A memory that grants everything. -/
def Memory.free : Memory := ⟨fun n => decide (n ≤ 0x08000000), true, fun _ h => of_decide_eq_true h⟩

/-- A memory that refuses everything. -/
def Memory.full : Memory := ⟨fun _ => false, false, fun _ h => nomatch h⟩

/-- A shared buffer is shortened, and then grows again. -/
theorem strings_keep_reused : ∃ m, Machine.new .free 2 = .ok m ∧ Follows m ⟨[], []⟩
    [(.free, .appendChar 97), (.free, .appendChar 98), (.free, .toString), (.free, .setLength 0),
      (.free, .appendChar 120)] := by
  obtain ⟨m, hm⟩ : ∃ m, Machine.new Memory.free 2 = .ok m := ⟨_, rfl⟩
  refine ⟨m, hm, strings_keep hm _ ⟨trivial, trivial, trivial, fun _ _ _ => ?_, trivial, trivial⟩⟩
  rw [if_pos rfl]
  rfl

/-- The memory refuses the array of a shared buffer that has become shorter, and the next `append`
writes into the string that was made before. -/
theorem refused_setLength_writes_string : ∃ m, Machine.new .free 2 = .ok m ∧ ¬ Follows m ⟨[], []⟩
    [(.free, .appendChar 97), (.free, .appendChar 98), (.free, .toString), (.full, .setLength 1),
      (.free, .appendChar 120)] := by
  refine ⟨_, rfl, fun h => ?_⟩
  have hkeeps := Follows.strings_prefix
    [(.free, .appendChar 97), (.free, .appendChar 98), (.free, .toString)]
    [(.full, .setLength 1), (.free, .appendChar 120)] h
  revert hkeeps
  decide +kernel

end CldcVm.StringBuffers
