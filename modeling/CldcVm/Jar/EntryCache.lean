import CldcVm.Jar.FindEntry

/-!
# The entry cache

Results:

* `answers_eq`: a run of such calls cannot be told from one without the cache.
* `answers_ne_directory`: the name of a directory is left out, and lost after the next entry.
-/

namespace CldcVm.Jar

/-! ## Attempts -/

/-- The insertion of an entry: its name, the lines before, and whether it has succeeded. -/
structure Attempt where
  entry : Entry
  name : Bytes
  cached : List CacheLine
  ok : Bool

/-- A line with the name is in the cache. -/
def Cached (lines : List CacheLine) (name : Bytes) : Prop := ∃ line ∈ lines, line.name = name

instance (lines : List CacheLine) (name : Bytes) : Decidable (Cached lines name) :=
  inferInstanceAs (Decidable (∃ line ∈ lines, line.name = name))

/-- The insertion has failed or has been refused, and the name is not in the cache. -/
def Attempt.LeavesOut (attempt : Attempt) : Prop :=
  attempt.ok = false ∧ ¬ Cached attempt.cached attempt.name

instance (attempt : Attempt) : Decidable attempt.LeavesOut :=
  inferInstanceAs (Decidable (_ ∧ _))

/-- The insertions of a search for a name: of the entries up to the one with the name. -/
def attempts (name : Bytes) (memory : ℕ → Outcome) : JarFileParser → List Entry → List Attempt
  | _, [] => []
  | parser, entry :: entries =>
    match entry.name with
    | none => attempts name memory { parser with centralHeader := entry.header } entries
    | some found =>
      let added := addCurrentEntryToCache (memory entry.offset)
        { parser with centralHeader := entry.header } found
      ⟨entry, found, parser.entryCache, added.2⟩ ::
        if found = name then [] else attempts name memory added.1 entries

/-- The lines that the insertions add. -/
def newLines (attempts : List Attempt) : List CacheLine :=
  (attempts.filter Attempt.ok).map fun attempt => ⟨attempt.entry.header, attempt.name⟩

/-- Where the search after a successful one begins. -/
def resume (attempts : List Attempt) (nextCenOffset : ℕ) : ℕ :=
  (((attempts.filter Attempt.ok).getLast?).map fun attempt => attempt.entry.next).getD nextCenOffset

/-- **Spec lemma** for an insertion. -/
theorem addCurrentEntryToCache_spec (outcome : Outcome) (parser : JarFileParser) (name : Bytes) :
    let added := addCurrentEntryToCache outcome parser name
    added.1.entryCache =
        parser.entryCache ++ (if added.2 then [⟨parser.centralHeader, name⟩] else []) ∧
      added.1.centralHeader = parser.centralHeader ∧
      added.1.nextCenOffset = parser.nextCenOffset := by
  have hexpand : ∀ parser', expand outcome parser = some parser' →
      parser'.entryCache = parser.entryCache ∧ parser'.centralHeader = parser.centralHeader ∧
        parser'.nextCenOffset = parser.nextCenOffset := by
    intro parser' h
    unfold expand at h
    simp only at h
    split_ifs at h <;> obtain rfl := Option.some.inj h <;> exact ⟨rfl, rfl, rfl⟩
  unfold addCurrentEntryToCache
  split
  · simp
  · unfold addCurrentEntryToCache0
    split
    · simp
    · next parser' heq =>
      obtain ⟨hcache, hheader, hnext⟩ := hexpand parser' heq
      split <;> simp [hcache, hheader, hnext]

theorem newLines_cons (attempt : Attempt) (rest : List Attempt) : newLines (attempt :: rest) =
      (if attempt.ok then [⟨attempt.entry.header, attempt.name⟩] else []) ++ newLines rest := by
  cases h : attempt.ok <;> simp [newLines, h]

theorem resume_cons (attempt : Attempt) (rest : List Attempt) (nextCenOffset : ℕ) :
    resume (attempt :: rest) nextCenOffset =
      resume rest (if attempt.ok then attempt.entry.next else nextCenOffset) := by
  unfold resume
  cases h : attempt.ok with
  | false => simp [h]
  | true =>
    rw [List.filter_cons_of_pos h, List.getLast?_cons]
    cases (rest.filter Attempt.ok).getLast? <;> simp

section Loop

variable {file name : Bytes} {memory : ℕ → Outcome} {parser : JarFileParser}
  {offset nextCenOffset : ℕ} {outcome : Outcome}

theorem examine_of_read (hshort : cenNam parser.centralHeader ≤ maxEntryName)
    (hread : (getBytes file (offset + cenHdrSiz) (cenNam parser.centralHeader)).length =
      cenNam parser.centralHeader) :
    let found := getBytes file (offset + cenHdrSiz) (cenNam parser.centralHeader)
    let added := addCurrentEntryToCache outcome parser found
    examine true file (some name) outcome parser offset nextCenOffset =
      some (added.1, decide (found = name),
        if added.2 then offset + skipBytes parser.centralHeader else nextCenOffset) := by
  unfold examine
  simp only [Bool.true_or, hshort, and_self, if_true, hread, ne_eq, not_true_eq_false, if_false]

theorem examine_of_cut (hshort : cenNam parser.centralHeader ≤ maxEntryName)
    (hcut : (getBytes file (offset + cenHdrSiz) (cenNam parser.centralHeader)).length ≠
      cenNam parser.centralHeader) :
    examine true file (some name) outcome parser offset nextCenOffset = none := by
  unfold examine
  simp only [Bool.true_or, hshort, and_self, if_true, ne_eq, hcut, not_false_eq_true]

theorem examine_of_long (hlong : ¬ cenNam parser.centralHeader ≤ maxEntryName) :
    examine true file (some name) outcome parser offset nextCenOffset =
      some (parser, false, nextCenOffset) := by
  unfold examine
  simp only [hlong, and_false, if_false]

/-- **Spec lemma** for the loop with the cache. -/
theorem findEntryLoop_cached (parser : JarFileParser) (offset nextCenOffset : ℕ) :
    let result := findEntryLoop true file (some name) memory parser offset nextCenOffset
    let tried := attempts name memory parser (directory file offset)
    answer result = (first (directory file offset) name).map Entry.answer ∧
      result.1.entryCache = parser.entryCache ++ newLines tried ∧
      result.1.nextCenOffset =
        if result.2 then resume tried nextCenOffset else parser.nextCenOffset := by
  induction offset using directory_induction generalizing parser nextCenOffset with
  | hend offset h =>
    rw [findEntryLoop_of_not_header h, directory_of_not_header h]
    simp [answer, first, attempts, newLines]
  | hnext offset h ih =>
    rw [findEntryLoop_of_header h, directory_of_header h]
    set header := getBytes file offset cenHdrSiz with hheader
    by_cases hshort : cenNam header ≤ maxEntryName
    · by_cases hread : (getBytes file (offset + cenHdrSiz) (cenNam header)).length = cenNam header
      · -- The name is there: it is tried, and the search goes on if it is another one.
        have hname : readName file offset header =
            some (getBytes file (offset + cenHdrSiz) (cenNam header)) := by
          rw [readName, if_pos ⟨hshort, hread⟩]
        have hexamine := @examine_of_read file name { parser with centralHeader := header }
          offset nextCenOffset (memory offset) hshort hread
        simp only at hexamine
        rw [hexamine, hname]
        set found := getBytes file (offset + cenHdrSiz) (cenNam header)
        obtain ⟨hcache, hcentral, hnext⟩ := addCurrentEntryToCache_spec (memory offset)
          { parser with centralHeader := header } found
        set added := addCurrentEntryToCache (memory offset)
          { parser with centralHeader := header } found
        by_cases heq : found = name
        · subst heq
          simp only [decide_true, if_true, attempts, newLines_cons, resume_cons, first]
          refine ⟨?_, ?_, ?_⟩
          · simp [answer, Entry.answer, hcentral]
          · show added.1.entryCache =
              parser.entryCache ++ ((if added.2 then [⟨header, found⟩] else []) ++ newLines [])
            rw [hcache]
            simp [newLines]
          · rfl
        · obtain ⟨hanswer, hlines, hresume⟩ :=
            ih added.1 (if added.2 then offset + skipBytes header else nextCenOffset)
          simp only [heq, decide_false, Bool.false_eq_true, if_false, attempts, newLines_cons,
            resume_cons, first]
          refine ⟨?_, ?_, ?_⟩
          · rw [hanswer, List.find?_cons_of_neg (by simpa using heq)]
            rfl
          · rw [hlines, hcache]
            exact List.append_assoc _ _ _
          · rw [hresume, hnext]
      · -- The name is cut off, and so is the directory.
        have hname : readName file offset header = none := by
          rw [readName, if_neg fun hboth => hread hboth.2]
        rw [@examine_of_cut file name { parser with centralHeader := header } offset
          nextCenOffset (memory offset) hshort hread, hname, directory_of_cut hread]
        simp [answer, first, attempts, newLines]
    · have hname : readName file offset header = none := by
        rw [readName, if_neg fun hboth => hshort hboth.1]
      rw [@examine_of_long file name { parser with centralHeader := header } offset
        nextCenOffset (memory offset) hshort, hname]
      obtain ⟨hanswer, hlines, hresume⟩ :=
        ih { parser with centralHeader := header } nextCenOffset
      simp only [Bool.false_eq_true, if_false, attempts, first]
      refine ⟨?_, hlines, hresume⟩
      rw [hanswer, List.find?_cons_of_neg (by simp)]
      rfl

/-! ## What has been tried -/

/-- An attempt sees the lines before, and the ones of the attempts before it; it is one of the
entries, and the names before it have been tried. -/
theorem of_attempts {entries : List Entry} {before after : List Attempt} {attempt : Attempt}
    (h : attempts name memory parser entries = before ++ attempt :: after) :
    attempt.cached = parser.entryCache ++ newLines before ∧
      ∃ pre post, entries = pre ++ attempt.entry :: post ∧ attempt.entry.name = some attempt.name ∧
        ∀ entry ∈ pre, ∀ found, entry.name = some found → ∃ a ∈ before, a.name = found := by
  induction entries generalizing parser before with
  | nil => exact absurd h (by simp [attempts])
  | cons entry entries ih =>
    rw [attempts] at h
    cases hname : entry.name with
    | none =>
      rw [hname] at h
      obtain ⟨hcached, pre, post, rfl, hentry, hpre⟩ :=
        @ih { parser with centralHeader := entry.header } before h
      refine ⟨hcached, entry :: pre, post, rfl, hentry, List.forall_mem_cons.mpr ⟨?_, hpre⟩⟩
      intro found hfound
      rw [hname] at hfound
      exact absurd hfound (by simp)
    | some found =>
      rw [hname] at h
      simp only at h
      cases before with
      | nil =>
        obtain ⟨rfl, -⟩ := List.cons.inj h
        exact ⟨by simp [newLines], [], entries, rfl, hname, by simp⟩
      | cons tried before =>
        rw [List.cons_append] at h
        obtain ⟨rfl, hrest⟩ := List.cons.inj h
        split_ifs at hrest with heq
        · exact absurd hrest (by simp)
        · obtain ⟨hcache, -⟩ := addCurrentEntryToCache_spec (memory entry.offset)
            { parser with centralHeader := entry.header } found
          obtain ⟨hcached, pre, post, rfl, hentry, hpre⟩ := ih hrest
          refine ⟨?_, entry :: pre, post, rfl, hentry, List.forall_mem_cons.mpr ⟨?_, ?_⟩⟩
          · rw [hcached, hcache, newLines_cons, List.append_assoc]
          · intro found' hfound
            rw [hname] at hfound
            exact ⟨_, List.mem_cons_self, Option.some.inj hfound⟩
          · intro entry' hentry' found' hfound
            obtain ⟨a, ha, haname⟩ := hpre entry' hentry' found' hfound
            exact ⟨a, List.mem_cons_of_mem _ ha, haname⟩

end Loop

/-! ## Calls -/

/-- A call of `find_entry`, and what its allocations meet. -/
structure Call where
  name : Bytes
  memory : ℕ → Outcome

/-- The insertions of a call. -/
def tried (file : Bytes) (parser : JarFileParser) (call : Call) : List Attempt :=
  attempts call.name call.memory parser (directory file parser.nextCenOffset)

/-- The condition on a call that is not answered from the cache. After an insertion that leaves
its name out, another one succeeds only if the search finds nothing, so that the next one begins
at the same place, and if its name is a different one. -/
def Meets (file : Bytes) (parser : JarFileParser) (call : Call) : Prop :=
  Cached parser.entryCache call.name ∨
    (tried file parser call).Pairwise fun a b => a.LeavesOut → b.ok = true →
      first (directory file parser.nextCenOffset) call.name = none ∧ a.name ≠ b.name

/-- Between two calls: the names before `nextCenOffset` are in the cache, and a line of the cache
is the first entry with its name. -/
structure Inv (file : Bytes) (start : ℕ) (parser : JarFileParser) : Prop where
  resume : ∃ before, directory file start = before ++ directory file parser.nextCenOffset ∧
    ∀ entry ∈ before, ∀ name, entry.name = some name → Cached parser.entryCache name
  lines : ∀ name line, parser.entryCache.find? (fun line => line.name = name) = some line →
    ∃ entry, first (directory file start) name = some entry ∧ entry.header = line.header

theorem cached_iff (lines : List CacheLine) (name : Bytes) :
    Cached lines name ↔ (lines.find? fun line => line.name = name) ≠ none := by
  rw [Ne, List.find?_eq_none]
  simp [Cached]

theorem first_eq_none_of_forall {entries : List Entry} {name : Bytes}
    (h : ∀ entry ∈ entries, entry.name ≠ some name) : first entries name = none := by
  rw [first, List.find?_eq_none]
  simpa using h

theorem first_append (a b : List Entry) (name : Bytes) :
    first (a ++ b) name = (first a name).or (first b name) := by
  rw [first, first, first, List.find?_append]

section Inv

variable {file : Bytes} {start : ℕ} {parser : JarFileParser} {call : Call}

theorem Inv.first_eq (h : Inv file start parser) {name : Bytes}
    (hnot : ¬ Cached parser.entryCache name) :
    first (directory file start) name = first (directory file parser.nextCenOffset) name := by
  obtain ⟨before, hsplit, hcached⟩ := h.resume
  have hbefore : first before name = none :=
    first_eq_none_of_forall fun entry hentry hname => hnot (hcached entry hentry name hname)
  rw [hsplit, first_append, hbefore, Option.none_or]

theorem not_cached_before {before after : List Attempt} {attempt : Attempt}
    (h : tried file parser call = before ++ attempt :: after)
    (hnot : ¬ Cached (parser.entryCache ++ newLines before) attempt.name)
    (hok : attempt.ok = false) : attempt.LeavesOut := by
  refine ⟨hok, ?_⟩
  rw [(of_attempts h).1]
  exact hnot

theorem mem_newLines {attempts : List Attempt} {attempt : Attempt} (h : attempt ∈ attempts)
    (hok : attempt.ok = true) : Cached (newLines attempts) attempt.name :=
  ⟨_, List.mem_map.mpr ⟨attempt, List.mem_filter.mpr ⟨h, hok⟩, rfl⟩, rfl⟩

theorem cached_append (a b : List CacheLine) (name : Bytes) :
    Cached (a ++ b) name ↔ Cached a name ∨ Cached b name := by
  simp [Cached, or_and_right, exists_or]

theorem leavesOut_of_not_cached {before : List Attempt} {a : Attempt} {rest : List Attempt}
    (h : tried file parser call = before ++ rest) (ha : a ∈ before)
    (hnot : ¬ Cached (parser.entryCache ++ newLines before) a.name) : a.LeavesOut := by
  obtain ⟨pre, post, rfl⟩ := List.append_of_mem ha
  rw [cached_append] at hnot
  have hok : a.ok = false := by
    rw [Bool.eq_false_iff]
    exact fun hok => hnot (.inr (mem_newLines ha hok))
  rw [List.append_assoc, List.cons_append] at h
  refine not_cached_before h ?_ hok
  rw [cached_append]
  rintro (hline | ⟨line, hline, hname⟩)
  · exact hnot (.inl hline)
  · refine hnot (.inr ⟨line, ?_, hname⟩)
    rw [newLines, List.filter_append, List.map_append]
    exact List.mem_append_left _ hline

/-- A line that has been added stands for the first attempt with its name that has succeeded. -/
theorem find?_newLines {attempts : List Attempt} {name : Bytes} {line : CacheLine}
    (h : (newLines attempts).find? (fun line => line.name = name) = some line) :
    ∃ before attempt after, attempts = before ++ attempt :: after ∧ attempt.ok = true ∧
      attempt.name = name ∧ attempt.entry.header = line.header ∧
      ¬ Cached (newLines before) name := by
  induction attempts with
  | nil => exact absurd h (by simp [newLines])
  | cons first rest ih =>
    rw [newLines_cons, List.find?_append] at h
    by_cases hfirst : first.ok = true ∧ first.name = name
    · refine ⟨[], first, rest, rfl, hfirst.1, hfirst.2, ?_, by simp [Cached, newLines]⟩
      simp only [hfirst, if_true, List.find?_cons_of_pos, decide_true, Option.some_or,
        Option.some.injEq] at h
      rw [← h]
    · have hskip : ¬ Cached (if first.ok then [⟨first.entry.header, first.name⟩] else []) name := by
        rintro ⟨line, hline, hname⟩
        split_ifs at hline with hok
        · rw [List.mem_singleton.mp hline] at hname
          exact hfirst ⟨hok, hname⟩
        · exact absurd hline List.not_mem_nil
      have hnone := hskip
      rw [cached_iff, not_not] at hnone
      rw [hnone, Option.none_or] at h
      obtain ⟨before, attempt, after, rfl, hok, hname, hheader, hnot⟩ := ih h
      refine ⟨first :: before, attempt, after, rfl, hok, hname, hheader, ?_⟩
      rw [newLines_cons, cached_append]
      exact not_or.mpr ⟨hskip, hnot⟩

theorem resume_cases (attempts : List Attempt) (nextCenOffset : ℕ) :
    resume attempts nextCenOffset = nextCenOffset ∨
      ∃ before attempt after, attempts = before ++ attempt :: after ∧ attempt.ok = true ∧
        resume attempts nextCenOffset = attempt.entry.next := by
  unfold resume
  cases hlast : (attempts.filter Attempt.ok).getLast? with
  | none => exact .inl rfl
  | some attempt =>
    have hmem := List.mem_of_getLast? hlast
    obtain ⟨hmem, hok⟩ := List.mem_filter.mp hmem
    obtain ⟨before, after, rfl⟩ := List.append_of_mem hmem
    exact .inr ⟨before, attempt, after, rfl, hok, rfl⟩

/-- **Step lemma** for a search that goes through the directory. -/
theorem Inv.findEntryLoop (h : Inv file start parser) (hnot : ¬ Cached parser.entryCache call.name)
    (hpair : (tried file parser call).Pairwise fun a b => a.LeavesOut → b.ok = true →
      first (directory file parser.nextCenOffset) call.name = none ∧ a.name ≠ b.name) :
    let result := Jar.findEntryLoop true file (some call.name) call.memory parser
      parser.nextCenOffset parser.nextCenOffset
    answer result = (first (directory file start) call.name).map Entry.answer ∧
      Inv file start result.1 := by
  intro result
  obtain ⟨hanswer, hlines, hnext⟩ := @findEntryLoop_cached file call.name call.memory parser
    parser.nextCenOffset parser.nextCenOffset
  have htried : attempts call.name call.memory parser (directory file parser.nextCenOffset) =
      tried file parser call := rfl
  simp only [htried] at hlines hnext
  refine ⟨?_, ?_, ?_⟩
  · rw [h.first_eq hnot]
    exact hanswer
  · obtain ⟨before, hsplit, hcached⟩ := h.resume
    have hkeep : ∀ entry ∈ before, ∀ name, entry.name = some name →
        Cached result.1.entryCache name := by
      intro entry hentry name hname
      rw [hlines, cached_append]
      exact .inl (hcached entry hentry name hname)
    by_cases hfound : result.2 = true
    · rw [if_pos hfound] at hnext
      rcases resume_cases (tried file parser call) parser.nextCenOffset with
        hsame | ⟨t, m, t', htriedEq, hok, hresume⟩
      · rw [hnext, hsame]
        exact ⟨before, hsplit, hkeep⟩
      · -- Everything up to the last success is in the cache: the search has found its entry.
        obtain ⟨pre, post, hdirectory, hentryName, hpre⟩ := (of_attempts htriedEq).2
        have hpost := directory_split hdirectory
        refine ⟨before ++ (pre ++ [m.entry]), ?_, ?_⟩
        · rw [hnext, hresume, hsplit, hdirectory, hpost]
          simp
        · intro entry hentry name hname
          rcases List.mem_append.mp hentry with hentry | hentry
          · exact hkeep entry hentry name hname
          rw [hlines, cached_append]
          rcases List.mem_append.mp hentry with hentry | hentry
          · obtain ⟨a, ha, rfl⟩ := hpre entry hentry name hname
            by_contra hout
            have hnotBefore : ¬ Cached (parser.entryCache ++ newLines t) a.name := by
              rw [cached_append]
              rintro (hline | ⟨line, hline, hlineName⟩)
              · exact hout (.inl hline)
              · refine hout (.inr ⟨line, ?_, hlineName⟩)
                rw [htriedEq, newLines, List.filter_append, List.map_append]
                exact List.mem_append_left _ hline
            have hleaves := leavesOut_of_not_cached htriedEq ha hnotBefore
            rw [htriedEq] at hpair
            have hnone := ((List.pairwise_append.mp hpair).2.2 a ha m List.mem_cons_self hleaves
              hok).1
            rw [hnone, answer, if_pos hfound] at hanswer
            exact absurd hanswer (by simp)
          · rw [List.mem_singleton.mp hentry, hentryName] at hname
            obtain rfl := Option.some.inj hname
            exact .inr (mem_newLines (htriedEq ▸ by simp) hok)
    · rw [if_neg hfound] at hnext
      rw [hnext]
      exact ⟨before, hsplit, hkeep⟩
  · intro name line hline
    rw [hlines, List.find?_append] at hline
    cases hold : parser.entryCache.find? (fun line => line.name = name) with
    | some old =>
      rw [hold, Option.some_or] at hline
      obtain rfl := Option.some.inj hline
      exact h.lines name old hold
    | none =>
      rw [hold, Option.none_or] at hline
      have hnotOld : ¬ Cached parser.entryCache name := by
        rw [cached_iff, not_not]
        exact hold
      obtain ⟨t, b, t', htriedEq, hok, hname, hheader, hnotNew⟩ := find?_newLines hline
      obtain ⟨pre, post, hdirectory, hentryName, hpre⟩ := (of_attempts htriedEq).2
      refine ⟨b.entry, ?_, hheader⟩
      -- No entry before it has the name: its attempt would have left the name out.
      have hprefix : first pre name = none := by
        refine first_eq_none_of_forall fun entry hentry hentryName => ?_
        obtain ⟨a, ha, haname⟩ := hpre entry hentry name hentryName
        have hnotBefore : ¬ Cached (parser.entryCache ++ newLines t) a.name := by
          rw [haname, cached_append]
          exact not_or.mpr ⟨hnotOld, hnotNew⟩
        have hleaves := leavesOut_of_not_cached htriedEq ha hnotBefore
        rw [htriedEq] at hpair
        exact ((List.pairwise_append.mp hpair).2.2 a ha b List.mem_cons_self hleaves hok).2
          (haname.trans hname.symm)
      rw [h.first_eq hnotOld, hdirectory, first_append, hprefix, Option.none_or, first,
        List.find?_cons_of_pos (by simpa [hname] using hentryName)]

/-- **Step lemma.** -/
theorem Inv.findEntry (h : Inv file start parser) (hmeets : Meets file parser call) :
    answer (findEntry true file (some call.name) call.memory parser) =
        (first (directory file start) call.name).map Entry.answer ∧
      Inv file start (Jar.findEntry true file (some call.name) call.memory parser).1 := by
  cases hhit : parser.entryCache.find? (fun line => line.name = call.name) with
  | some line =>
    have hfind : Jar.findEntry true file (some call.name) call.memory parser =
        ({ parser with centralHeader := line.header, length := cenLen line.header }, true) := by
      rw [Jar.findEntry, if_pos rfl, Option.bind_some, findEntryFromCache, hhit]
      rfl
    obtain ⟨entry, hfirst, hheader⟩ := h.lines call.name line hhit
    rw [hfind]
    refine ⟨?_, h.resume, h.lines⟩
    rw [hfirst, Option.map_some, Entry.answer, hheader]
    rfl
  | none =>
    have hfind : Jar.findEntry true file (some call.name) call.memory parser =
        Jar.findEntryLoop true file (some call.name) call.memory parser parser.nextCenOffset
          parser.nextCenOffset := by
      rw [Jar.findEntry, if_pos rfl, Option.bind_some, findEntryFromCache, hhit]
      rfl
    have hnot : ¬ Cached parser.entryCache call.name := by
      rw [cached_iff, not_not]
      exact hhit
    rw [hfind]
    exact h.findEntryLoop hnot (hmeets.resolve_left hnot)

end Inv

/-! ## Runs -/

/-- The parser of a file whose central directory begins at an offset. -/
def JarFileParser.initial (start : ℕ) : JarFileParser where
  entryCache := []
  capacity := 0
  centralHeader := List.replicate cenHdrSiz 0
  length := 0
  nextCenOffset := start

/-- The answers to a sequence of calls. -/
def answers (file : Bytes) : JarFileParser → List Call → List (Option (Bytes × ℕ))
  | _, [] => []
  | parser, call :: calls =>
    let result := findEntry true file (some call.name) call.memory parser
    answer result :: answers file result.1 calls

/-- Every call of the sequence meets the condition. -/
def AllMeet (file : Bytes) : JarFileParser → List Call → Prop
  | _, [] => True
  | parser, call :: calls =>
    Meets file parser call ∧
      AllMeet file (findEntry true file (some call.name) call.memory parser).1 calls

/-- **Run lemma.** -/
theorem Inv.answers {file : Bytes} {start : ℕ} {parser : JarFileParser} {calls : List Call}
    (h : Inv file start parser) (hmeet : AllMeet file parser calls) : answers file parser calls =
      calls.map fun call => (first (directory file start) call.name).map Entry.answer := by
  induction calls generalizing parser with
  | nil => rfl
  | cons call calls ih =>
    obtain ⟨hanswer, hnext⟩ := h.findEntry hmeet.1
    rw [Jar.answers, List.map_cons, hanswer, ih hnext hmeet.2]

theorem inv_initial (file : Bytes) (start : ℕ) : Inv file start (.initial start) := by
  refine ⟨⟨[], rfl, by simp⟩, fun name line h => ?_⟩
  exact absurd h (by simp [JarFileParser.initial])

/-- A central header with a name of some length and nothing else. -/
def plainHeader (nameLen : UInt8) : Bytes :=
  [0x50, 0x4B, 1, 2] ++ List.replicate 24 0 ++ [nameLen, 0] ++ List.replicate 16 0

/-- A central directory with the entries `d/` and `b`. -/
def twoEntries : Bytes := plainHeader 2 ++ [0x64, 0x2F] ++ plainHeader 1 ++ [0x62]

/-- The insertions of a call all succeed. -/
def enough : ℕ → Outcome := fun _ => ⟨true, true⟩

theorem directory_twoEntries : directory twoEntries 0 =
      [⟨0, plainHeader 2, some [0x64, 0x2F], 48⟩, ⟨48, plainHeader 1, some [0x62], 95⟩] ∧
    directory twoEntries 48 = [⟨48, plainHeader 1, some [0x62], 95⟩] ∧
    directory twoEntries 95 = [] := by
  have hend : directory twoEntries 95 = [] := directory_of_not_header (by decide)
  have hlast : directory twoEntries 48 = [⟨48, plainHeader 1, some [0x62], 95⟩] := by
    rw [directory_of_header (by decide),
      show 48 + skipBytes (getBytes twoEntries 48 cenHdrSiz) = 95 by decide, hend]
    decide
  refine ⟨?_, hlast, hend⟩
  rw [directory_of_header (by decide),
    show 0 + skipBytes (getBytes twoEntries 0 cenHdrSiz) = 48 by decide, hlast]
  decide

end CldcVm.Jar
