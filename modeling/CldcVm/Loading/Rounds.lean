import CldcVm.Loading.SystemDictionary

/-!
# The rounds of the loading loop

What a round can do, apart from the fake classes that it leaves.

Results: `roundOk_of_round`, `roundError_of_round`.
-/

namespace CldcVm.Loading

open Dispatch (Symbol)

variable {L : Loader} {d d' : Dictionary} {x y name : Symbol} {entry : Entry} {file : ClassFile}
variable {top : ClassParserState} {below : List ClassParserState} {s : State}

/-! ## Dictionaries -/

/-- The names of the classes that are not fake. -/
def realNames (d : Dictionary) : List Symbol :=
  (d.filter fun entry => entry.isFake = false).map Entry.name

/-- `find` finds the class. -/
def Found (L : Loader) (d : Dictionary) (x : Symbol) : Prop := (L.find d x).isSome = true

instance : Decidable (Found L d x) := inferInstanceAs (Decidable (_ = _))

/-- No name has two classes. -/
def Unique (d : Dictionary) : Prop := (d.map Entry.name).Nodup

theorem mem_realNames : x ∈ realNames d ↔ ∃ entry ∈ d, entry.isFake = false ∧ entry.name = x := by
  unfold realNames
  simp only [List.mem_map, List.mem_filter, decide_eq_true_eq, and_assoc]

theorem found_iff : Found L d x ↔ x ∈ realNames L.system ∨ x ∈ realNames d := by
  unfold Found Loader.find
  rw [List.find?_isSome, mem_realNames, mem_realNames]
  simp only [List.mem_append, decide_eq_true_eq]
  constructor
  · rintro ⟨entry, hentry | hentry, hname, hfake⟩
    · exact .inl ⟨entry, hentry, hfake, hname⟩
    · exact .inr ⟨entry, hentry, hfake, hname⟩
  · rintro (⟨entry, hentry, hfake, hname⟩ | ⟨entry, hentry, hfake, hname⟩)
    · exact ⟨entry, .inl hentry, hname, hfake⟩
    · exact ⟨entry, .inr hentry, hname, hfake⟩

theorem isNone_find : (L.find d x).isNone = true ↔ ¬Found L d x := by
  unfold Found
  cases L.find d x <;> simp

/-- The dictionaries differ in fake classes only. -/
structure SameReal (d d' : Dictionary) : Prop where
  names : realNames d' = realNames d
  unique : Unique d → Unique d'

theorem SameReal.refl (d : Dictionary) : SameReal d d := ⟨rfl, id⟩

theorem SameReal.trans {d'' : Dictionary} (h : SameReal d d') (h' : SameReal d' d'') :
    SameReal d d'' := ⟨h'.names.trans h.names, fun hunique => h'.unique (h.unique hunique)⟩

theorem SameReal.found_iff (h : SameReal d d') : Found L d' x ↔ Found L d x := by
  rw [Loading.found_iff, Loading.found_iff, h.names]

theorem sameReal_semiResolve (L : Loader) (d : Dictionary) (name : Symbol) :
    SameReal d (L.semiResolve d name) := by
  unfold Loader.semiResolve
  split_ifs with hmem
  · exact .refl d
  · rw [List.map_append, List.mem_append, not_or] at hmem
    exact ⟨rfl, fun hunique => List.nodup_cons.mpr ⟨hmem.2, hunique⟩⟩

theorem sameReal_semiResolveAll (L : Loader) (d : Dictionary) (names : List Symbol) :
    SameReal d (L.semiResolveAll d names) := by
  unfold Loader.semiResolveAll
  induction names generalizing d with
  | nil => exact .refl d
  | cons name names ih =>
    exact (sameReal_semiResolve L d name).trans (ih (L.semiResolve d name))

theorem realNames_insert (hfake : entry.isFake = false) (hnot : entry.name ∉ realNames d) :
    realNames (Loader.insert entry d) = entry.name :: realNames d := by
  have herase : ((d.eraseP fun other => other.name = entry.name).filter
      fun other => other.isFake = false) = d.filter fun other => other.isFake = false := by
    induction d with
    | nil => rfl
    | cons other d ih =>
      have hrest : entry.name ∉ realNames d := by
        intro hmem
        obtain ⟨e, he, hfake', hname⟩ := mem_realNames.mp hmem
        exact hnot (mem_realNames.mpr ⟨e, List.mem_cons_of_mem _ he, hfake', hname⟩)
      by_cases hname : other.name = entry.name
      · have hother : ¬other.isFake = false := fun hother =>
          hnot (mem_realNames.mpr ⟨other, List.mem_cons_self, hother, hname⟩)
        simp only [List.eraseP_cons, List.filter_cons, hname, decide_true, cond_true, hother]
        rfl
      · simp only [List.eraseP_cons, hname, decide_false, cond_false, List.filter_cons, ih hrest]
  unfold Loader.insert realNames
  simp only [List.filter_cons, hfake, decide_true, if_true, List.map_cons, herase]

theorem unique_insert (h : Unique d) : Unique (Loader.insert entry d) := by
  refine List.nodup_cons.mpr ⟨?_, h.sublist (List.Sublist.map _ List.eraseP_sublist)⟩
  induction d with
  | nil => exact List.not_mem_nil
  | cons other d ih =>
    have hcons : other.name ∉ d.map Entry.name ∧ (d.map Entry.name).Nodup := List.nodup_cons.mp h
    by_cases hname : other.name = entry.name
    · simp only [List.eraseP_cons, hname, decide_true, cond_true]
      exact hname ▸ hcons.1
    · simp only [List.eraseP_cons, hname, decide_false, cond_false, List.map_cons, List.mem_cons,
        not_or]
      exact ⟨Ne.symm hname, ih hcons.2⟩

/-! ## Parsing -/

/-- **Spec lemma**: `parse_class_0`. -/
theorem parseClass0_spec (L : Loader) (d : Dictionary) (name : Symbol) (file : ClassFile) :
    SameReal d (L.parseClass0 d name file).1 ∧
      (∀ names, (L.parseClass0 d name file).2 = .ok names → file.thisClass = name ∧
        names = file.supers.filter fun super => (L.find d super).isNone) ∧
      (L.parseClass0 d name file).2 ≠ .error .recursiveClassStructure := by
  have hsame := sameReal_semiResolveAll L d (L.head file d).1
  unfold Loader.parseClass0
  split
  · exact ⟨hsame, nofun, nofun⟩
  · split_ifs with hname
    · exact ⟨hsame, nofun, nofun⟩
    · split
      · next e he =>
        refine ⟨hsame, nofun, fun heq => ?_⟩
        obtain rfl := Except.error.inj heq
        unfold Loader.checkSuper at he
        split at he
        · split_ifs at he
          cases he
        · split_ifs at he
          cases he
      · exact ⟨hsame, fun names hnames => ⟨not_not.mp hname, (Except.ok.inj hnames).symm⟩, nofun⟩

theorem parseInterfaces_spec {interfaces : List Symbol} :
    L.parseInterfaces d interfaces ≠ some .recursiveClassStructure ∧
      (L.parseInterfaces d interfaces = none → ∀ y ∈ interfaces, Found L d y) := by
  induction interfaces with
  | nil => exact ⟨nofun, fun _ y hy => absurd hy List.not_mem_nil⟩
  | cons interf interfaces ih =>
    unfold Loader.parseInterfaces
    cases hfind : L.find d interf with
    | none => exact ⟨nofun, nofun⟩
    | some entry =>
      simp only
      split_ifs with hinterface
      · refine ⟨ih.1, fun hnone y hy => ?_⟩
        rcases List.mem_cons.mp hy with rfl | hy
        · exact Option.isSome_of_eq_some hfind
        · exact ih.2 hnone y hy
      · exact ⟨nofun, nofun⟩

/-- **Spec lemma**: `parse_class_internal` from stage 1 on. -/
theorem parseClass1_spec (L : Loader) (d : Dictionary) (file : ClassFile) :
    SameReal d (L.parseClass1 d file).1 ∧
      ((L.parseClass1 d file).2 = none → ∀ y ∈ file.supers, Found L d y) ∧
      (L.parseClass1 d file).2 ≠ some .recursiveClassStructure := by
  have hsame := sameReal_semiResolveAll L d (L.rest file d).1
  have hinterfaces := @parseInterfaces_spec L d file.interfaces
  have hsuper : L.resolveSuper d file ≠ some .recursiveClassStructure ∧
      (L.resolveSuper d file = none → ∀ y ∈ file.superClass, Found L d y) := by
    unfold Loader.resolveSuper
    cases file.superClass with
    | none => exact ⟨nofun, fun _ y hy => by cases hy⟩
    | some super =>
      simp only
      cases hfind : L.find d super with
      | none => exact ⟨nofun, nofun⟩
      | some entry =>
        simp only
        split_ifs
        · exact ⟨nofun, nofun⟩
        · refine ⟨nofun, fun _ y hy => ?_⟩
          obtain rfl := Option.some.inj hy
          exact Option.isSome_of_eq_some hfind
  unfold Loader.parseClass1
  cases hresolve : L.resolveSuper d file with
  | some e => exact ⟨.refl d, nofun, fun heq => hsuper.1 (hresolve.trans heq)⟩
  | none =>
    cases hparse : L.parseInterfaces d file.interfaces with
    | some e => exact ⟨.refl d, nofun, fun heq => hinterfaces.1 (hparse.trans heq)⟩
    | none =>
      refine ⟨hsame, fun _ y hy => ?_, ?_⟩
      · rcases List.mem_append.mp hy with hy | hy
        · exact hsuper.2 hresolve y (Option.mem_toList.mp hy)
        · exact hinterfaces.2 hparse y hy
      · cases (L.rest file d).2 <;> exact nofun

/-! ## Rounds -/

/-- What a round does that goes on. -/
inductive RoundOk (L : Loader) (top : ClassParserState) (below : List ClassParserState)
    (d : Dictionary) : State → Prop
  | skip : top.stage1 = false → Found L d top.className → RoundOk L top below d ⟨below, d⟩
  | push {d' : Dictionary} {names : List Symbol} (file : ClassFile) : top.stage1 = false →
      ¬Found L d top.className → L.fetchBuffer top = some file →
      Loader.isCircular top.className below = false → file.thisClass = top.className →
      names = (file.supers.filter fun super => (L.find d super).isNone) → SameReal d d' →
      RoundOk L top below d
        ⟨(names.reverse.map Loader.unresolved) ++ ⟨top.className, some file, true⟩ :: below, d'⟩
  | complete {d' : Dictionary} (file : ClassFile) :
      (top.stage1 = false → ¬Found L d top.className ∧ file.thisClass = top.className) →
      L.fetchBuffer top = some file → Loader.isCircular top.className below = false →
      (∀ y ∈ file.supers, Found L d y) → SameReal d d' →
      RoundOk L top below d
        ⟨below, Loader.insert ⟨top.className, false, file.isInterface, file.isFinal⟩ d'⟩

theorem complete_eq_ok (h : L.complete name file below d = .ok s) :
    ∃ d', SameReal d d' ∧ (∀ y ∈ file.supers, Found L d y) ∧
      s = ⟨below, Loader.insert ⟨name, false, file.isInterface, file.isFinal⟩ d'⟩ := by
  obtain ⟨hsame, hfound, -⟩ := parseClass1_spec L d file
  unfold Loader.complete at h
  cases hparse : L.parseClass1 d file with
  | mk d' err =>
    rw [hparse] at h hsame hfound
    cases err with
    | some e => cases h
    | none => exact ⟨d', hsame, hfound rfl, (Except.ok.inj h).symm⟩

theorem complete_eq_error {e : Throwable} (h : L.complete name file below d = .error (e, d')) :
    SameReal d d' ∧ e ≠ .recursiveClassStructure := by
  obtain ⟨hsame, -, hrecursive⟩ := parseClass1_spec L d file
  unfold Loader.complete at h
  cases hparse : L.parseClass1 d file with
  | mk d'' err =>
    rw [hparse] at h hsame hrecursive
    cases err with
    | none => cases h
    | some e' =>
      obtain ⟨rfl, rfl⟩ := Prod.mk.inj (Except.error.inj h)
      exact ⟨hsame, fun heq => hrecursive (congrArg some heq)⟩

/-- **Spec lemma**: a round that goes on. -/
theorem roundOk_of_round (h : L.round top below d = .ok s) : RoundOk L top below d s := by
  unfold Loader.round at h
  split_ifs at h with hskip
  · obtain rfl := Except.ok.inj h
    exact .skip hskip.1 hskip.2
  · have hnew : top.stage1 = false → ¬Found L d top.className := fun hstage hfound =>
      hskip ⟨hstage, hfound⟩
    cases hfetch : L.fetchBuffer top with
    | none =>
      rw [hfetch] at h
      cases h
    | some file =>
      rw [hfetch] at h
      simp only [Loader.parseClass] at h
      split_ifs at h with hcircular hstage
      · obtain ⟨d', hsame, hfound, rfl⟩ := complete_eq_ok h
        refine .complete file (fun hfalse => ?_) hfetch (Bool.eq_false_iff.mpr hcircular) hfound
          hsame
        rw [hstage] at hfalse
        cases hfalse
      · have hstage := Bool.eq_false_iff.mpr hstage
        have hcircular := Bool.eq_false_iff.mpr hcircular
        obtain ⟨hsame, hnames, -⟩ := parseClass0_spec L d top.className file
        cases hparse : L.parseClass0 d top.className file with
        | mk d' result =>
          rw [hparse] at h hsame hnames
          cases result with
          | error e => cases h
          | ok names =>
            obtain ⟨hthis, hfilter⟩ := hnames names rfl
            cases names with
            | nil =>
              obtain ⟨d'', hsame', hfound, rfl⟩ := complete_eq_ok h
              have hfound' : ∀ y ∈ file.supers, Found L d y := fun y hy =>
                hsame.found_iff.mp (hfound y hy)
              exact .complete file (fun _ => ⟨hnew hstage, hthis⟩) hfetch hcircular hfound'
                (hsame.trans hsame')
            | cons name names =>
              obtain rfl := Except.ok.inj h
              exact .push file hstage (hnew hstage) hfetch hcircular hthis hfilter hsame

/-- **Spec lemma**: a round that throws. -/
theorem roundError_of_round {e : Throwable} (h : L.round top below d = .error (e, d')) :
    SameReal d d' ∧
      (e = .recursiveClassStructure → Loader.isCircular top.className below = true) := by
  unfold Loader.round at h
  split_ifs at h with hskip
  cases hfetch : L.fetchBuffer top with
  | none =>
    rw [hfetch] at h
    obtain ⟨rfl, rfl⟩ := Prod.mk.inj (Except.error.inj h)
    exact ⟨.refl d, nofun⟩
  | some file =>
    rw [hfetch] at h
    simp only [Loader.parseClass] at h
    split_ifs at h with hcircular hstage
    · obtain ⟨rfl, rfl⟩ := Prod.mk.inj (Except.error.inj h)
      exact ⟨.refl d, fun _ => hcircular⟩
    · obtain ⟨hsame, hne⟩ := complete_eq_error h
      exact ⟨hsame, fun heq => (hne heq).elim⟩
    · obtain ⟨hsame, -, hrecursive⟩ := parseClass0_spec L d top.className file
      cases hparse : L.parseClass0 d top.className file with
      | mk d'' result =>
        rw [hparse] at h hsame hrecursive
        cases result with
        | error e' =>
          obtain ⟨rfl, rfl⟩ := Prod.mk.inj (Except.error.inj h)
          exact ⟨hsame, fun heq => (hrecursive (congrArg Except.error heq)).elim⟩
        | ok names =>
          cases names with
          | nil =>
            obtain ⟨hsame', hne⟩ := complete_eq_error h
            exact ⟨hsame.trans hsame', fun heq => (hne heq).elim⟩
          | cons name names => cases h

end CldcVm.Loading
