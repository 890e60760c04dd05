import CldcVm.Layout.FieldLayout

/-!
# Where the fields lie

Results:

* `laidOut_iff`: the layout is right exactly when every offset fits in 16 bits.
-/

namespace CldcVm.Layout

open Verifier (BasicType)

/-! ## Right layouts -/

/-- The alignment of a field: a value of two words is read word by word
(`Oop::long_field`). -/
def FieldEntry.alignment (field : FieldEntry) : ℕ := min (byteSizeFor field.type) 4

/-- Two fields have no byte in common. -/
def Disjoint (f g : FieldEntry) : Prop :=
  f.offset + f.size ≤ g.offset ∨ g.offset + g.size ≤ f.offset

variable {f : FieldEntry}

theorem Disjoint.symm {g : FieldEntry} (h : Disjoint f g) : Disjoint g f := Or.symm h

/-- The fields of one kind have offsets, from `first` to `last`, that are aligned and do not
overlap. -/
structure LaidOut (isStatic : Bool) (first last : ℕ) (fields : List FieldEntry) : Prop where
  inArea : ∀ f ∈ fields, f.isStatic = isStatic → first ≤ f.offset ∧ f.offset + f.size ≤ last
  assigned : ∀ f ∈ fields, f.isStatic = isStatic → f.offset ≠ 0
  aligned : ∀ f ∈ fields, f.isStatic = isStatic → f.alignment ∣ f.offset
  disjoint : fields.Pairwise fun f g => f.isStatic = isStatic → g.isStatic = isStatic →
    Disjoint f g

/-! ## The order of the fields -/

/-- The size of the pass in which a field gets its offset. -/
def passOf (field : FieldEntry) : ℕ := if field.isStatic then 1 else min field.size 4

/-- The fields of one kind. -/
def ofKind (isStatic : Bool) (field : FieldEntry) : Bool := field.isStatic = isStatic

/-- The fields of one kind and one pass. -/
def inPass (isStatic : Bool) (currentMax : ℕ) (field : FieldEntry) : Bool :=
  field.isStatic = isStatic && passOf field = currentMax

/-- The fields of one kind, in the order in which they get their offsets. -/
def layoutOrder (isStatic : Bool) (fields : List FieldEntry) : List FieldEntry :=
  (passes isStatic).flatMap fun currentMax => fields.filter (inPass isStatic currentMax)

/-- Laid out one after the other from an offset on, every field has an offset of 16 bits. -/
def Fits : ℕ → List FieldEntry → Prop
  | _, [] => True
  | next, field :: fields => next < 2 ^ 16 ∧ Fits (next + field.size) fields

instance decidableFits : (next : ℕ) → (fields : List FieldEntry) → Decidable (Fits next fields)
  | _, [] => isTrue trivial
  | next, field :: fields =>
    haveI := decidableFits (next + field.size) fields
    inferInstanceAs (Decidable (_ ∧ _))

@[simp] theorem totalSize_nil : totalSize [] = 0 := rfl

@[simp] theorem totalSize_cons (field : FieldEntry) (fields : List FieldEntry) :
    totalSize (field :: fields) = field.size + totalSize fields := by
  simp [totalSize]

@[simp] theorem totalSize_append (a b : List FieldEntry) :
    totalSize (a ++ b) = totalSize a + totalSize b := by
  simp [totalSize]

theorem fits_append (next : ℕ) (a b : List FieldEntry) :
    Fits next (a ++ b) ↔ Fits next a ∧ Fits (next + totalSize a) b := by
  induction a generalizing next with
  | nil => simp [Fits]
  | cons field a ih => simp only [List.cons_append, Fits, ih, totalSize_cons, and_assoc, add_assoc]

theorem FieldEntry.size_cases (field : FieldEntry) :
    field.size = 1 ∧ field.isStatic = false ∨ field.size = 2 ∧ field.isStatic = false ∨
      field.size = 4 ∨ field.size = 8 := by
  have hvoid := field.type_ne
  unfold FieldEntry.size allocationByteSize
  cases hstatic : field.isStatic <;> cases htype : field.type <;>
    simp_all [byteSizeFor, alignUp]

theorem FieldEntry.size_pos (field : FieldEntry) : 0 < field.size := by
  have := field.size_cases
  omega

/-- What divides the offsets and the sizes of a pass. -/
def unit (isStatic : Bool) (currentMax : ℕ) : ℕ := if isStatic then 4 else currentMax

theorem alignment_dvd_unit {isStatic : Bool} {currentMax : ℕ} {field : FieldEntry}
    (h : inPass isStatic currentMax field = true) :
    field.alignment ∣ unit isStatic currentMax ∧ unit isStatic currentMax ∣ field.size := by
  have hvoid := field.type_ne
  simp only [inPass, Bool.and_eq_true, decide_eq_true_eq] at h
  obtain ⟨rfl, rfl⟩ := h
  unfold unit FieldEntry.alignment passOf FieldEntry.size allocationByteSize
  cases hstatic : field.isStatic <;> cases htype : field.type <;>
    simp_all [byteSizeFor, alignUp]

/-! ## Filled areas -/

section Fill

variable {isStatic : Bool} {first next : ℕ}

/-- The fields of one kind that have offsets fill the area from `first` to `next`. -/
structure Good (isStatic : Bool) (first next : ℕ) (fields : List FieldEntry) : Prop where
  le : first ≤ next
  inArea : ∀ f ∈ fields, f.isStatic = isStatic → f.offset ≠ 0 →
    first ≤ f.offset ∧ f.offset + f.size ≤ next
  aligned : ∀ f ∈ fields, f.isStatic = isStatic → f.alignment ∣ f.offset
  disjoint : fields.Pairwise fun f g => f.isStatic = isStatic → g.isStatic = isStatic →
    f.offset ≠ 0 → g.offset ≠ 0 → Disjoint f g
  covered : ∀ x, first ≤ x → x < next →
    ∃ g ∈ fields, g.isStatic = isStatic ∧ g.offset ≠ 0 ∧ g.offset ≤ x ∧ x < g.offset + g.size

variable {a b : List FieldEntry}

/-- **Step lemma.** The next field goes to the end of the area. -/
theorem Good.place (h : Good isStatic first next (a ++ f :: b)) (hkind : f.isStatic = isStatic)
    (hzero : f.offset = 0) (hpos : 0 < first) (hdvd : f.alignment ∣ next) :
    Good isStatic first (next + f.size) (a ++ { f with offset := next } :: b) := by
  have hfirst := h.le
  -- A field of the new list is an old one, or the one that has been placed.
  have hmem : ∀ g ∈ a ++ { f with offset := next } :: b,
      g ∈ a ++ f :: b ∨ g = { f with offset := next } := by
    intro g hg
    simp only [List.mem_append, List.mem_cons] at hg ⊢
    tauto
  have hold : ∀ g ∈ a ++ f :: b, g.isStatic = isStatic → g.offset ≠ 0 →
      g.offset + g.size ≤ next := fun g hg hk hne => (h.inArea g hg hk hne).2
  constructor
  case le => omega
  case inArea =>
    intro g hg hk hne
    rcases hmem g hg with hg | rfl
    · have := h.inArea g hg hk hne
      omega
    · exact ⟨hfirst, le_rfl⟩
  case aligned =>
    intro g hg hk
    rcases hmem g hg with hg | rfl
    · exact h.aligned g hg hk
    · exact hdvd
  case disjoint =>
    have hpair := h.disjoint
    rw [List.pairwise_append, List.pairwise_cons] at hpair ⊢
    obtain ⟨hleft, ⟨-, hright⟩, hcross⟩ := hpair
    refine ⟨hleft, ⟨?_, hright⟩, ?_⟩
    · intro g hg _ hk _ hne
      exact .inr (hold g (by simp [hg]) hk hne)
    · intro g hg g' hg'
      rcases List.mem_cons.mp hg' with rfl | hg'
      · intro hk _ hne _
        exact .inl (hold g (by simp [hg]) hk hne)
      · exact hcross g hg g' (List.mem_cons_of_mem _ hg')
  case covered =>
    intro x hx hlt
    by_cases hxn : x < next
    · obtain ⟨g, hg, hk, hne, hx⟩ := h.covered x hx hxn
      -- The old entry of `f` covers nothing.
      have hgf : g ≠ f := by
        rintro rfl
        exact hne hzero
      refine ⟨g, ?_, hk, hne, hx⟩
      simp only [List.mem_append, List.mem_cons] at hg ⊢
      tauto
    · refine ⟨{ f with offset := next }, by simp, hkind, by simp only; omega, ?_⟩
      exact ⟨by simp only; omega, hlt⟩

/-- A field of one kind has nowhere to go: the other ones fill the area up to the largest
offset. -/
def Crowded (isStatic : Bool) (first : ℕ) (fields : List FieldEntry) : Prop :=
  ∃ (i : ℕ) (f : FieldEntry), fields[i]? = some f ∧ f.isStatic = isStatic ∧
    ∀ x, first ≤ x → x < 2 ^ 16 → ∃ (j : ℕ) (g : FieldEntry), j ≠ i ∧ fields[j]? = some g ∧
      g.isStatic = isStatic ∧ g.offset ≠ 0 ∧ g.offset ≤ x ∧ x < g.offset + g.size

/-- The same fields, where the ones that had offsets keep them. -/
def Later (fields fields' : List FieldEntry) : Prop :=
  ∀ (i : ℕ) (f : FieldEntry), fields[i]? = some f → ∃ f' : FieldEntry, fields'[i]? = some f' ∧
    f'.toDeclaration = f.toDeclaration ∧ (f.offset ≠ 0 → f' = f)

theorem Later.refl (fields : List FieldEntry) : Later fields fields :=
  fun _ f h => ⟨f, h, rfl, fun _ => rfl⟩

theorem Later.trans {c : List FieldEntry} (hab : Later a b) (hbc : Later b c) : Later a c := by
  intro i f hf
  obtain ⟨f', hf', hdecl, hkeep⟩ := hab i f hf
  obtain ⟨f'', hf'', hdecl', hkeep'⟩ := hbc i f' hf'
  refine ⟨f'', hf'', hdecl'.trans hdecl, fun hne => ?_⟩
  have heq := hkeep hne
  rw [hkeep' (heq ▸ hne), heq]

theorem Later.append_left (h : Later a b) (l : List FieldEntry) : Later (l ++ a) (l ++ b) := by
  intro i f hf
  by_cases hi : i < l.length
  · rw [List.getElem?_append_left hi] at hf ⊢
    exact ⟨f, hf, rfl, fun _ => rfl⟩
  · rw [List.getElem?_append_right (by omega)] at hf ⊢
    exact h _ f hf

theorem Later.cons {a b : List FieldEntry} {f f' : FieldEntry} (h : Later a b)
    (hdecl : f'.toDeclaration = f.toDeclaration) (hkeep : f.offset ≠ 0 → f' = f) :
    Later (f :: a) (f' :: b) := by
  intro i g hg
  cases i with
  | zero =>
    obtain rfl : f = g := by simpa using hg
    exact ⟨f', by simp, hdecl, hkeep⟩
  | succ i => simpa using h i g (by simpa using hg)

theorem Crowded.later (h : Crowded isStatic first a) (hab : Later a b) :
    Crowded isStatic first b := by
  obtain ⟨i, f, hf, hkind, hcover⟩ := h
  obtain ⟨f', hf', hdecl, -⟩ := hab i f hf
  refine ⟨i, f', hf', by rw [hdecl, hkind], fun x hx hlt => ?_⟩
  obtain ⟨j, g, hne, hg, hk, hoff, hin⟩ := hcover x hx hlt
  obtain ⟨g', hg', -, hkeep⟩ := hab j g hg
  obtain rfl := hkeep hoff
  exact ⟨j, g', hne, hg', hk, hoff, hin⟩

theorem Crowded.not_laidOut {fields : List FieldEntry} {last : ℕ}
    (h : Crowded isStatic first fields) (hlt : ∀ f ∈ fields, f.offset < 2 ^ 16) :
    ¬ LaidOut isStatic first last fields := by
  intro hlaid
  obtain ⟨i, f, hf, hkind, hcover⟩ := h
  have hmem := List.mem_of_getElem? hf
  have hfirst := (hlaid.inArea f hmem hkind).1
  obtain ⟨j, g, hne, hg, hk, -, hle, hend⟩ := hcover f.offset hfirst (hlt f hmem)
  obtain ⟨hi, rfl⟩ := List.getElem?_eq_some_iff.mp hf
  obtain ⟨hj, rfl⟩ := List.getElem?_eq_some_iff.mp hg
  have hpair := List.pairwise_iff_getElem.mp hlaid.disjoint
  have hdisjoint : Disjoint fields[i] fields[j] := by
    rcases Nat.lt_or_gt_of_ne hne with hji | hij
    · exact (hpair j i hj hi hji hk hkind).symm
    · exact hpair i j hi hj hij hkind hk
  have := fields[i].size_pos
  rcases hdisjoint with h | h <;> omega

/-! ## One pass -/

variable {currentMax : ℕ}

theorem isDue_offset {field : FieldEntry} (h : isDue isStatic currentMax field = true) :
    field.offset = 0 ∧ field.isStatic = isStatic := by
  simp only [isDue, Bool.and_eq_true, decide_eq_true_eq] at h
  exact h.1

@[simp] theorem Progress.nextOffset_advance (progress : Progress) (field : FieldEntry) :
    (progress.advance field).nextOffset = progress.nextOffset + field.size := by
  unfold Progress.advance
  split <;> rfl

variable {progress : Progress}

theorem updatePass_of_due {fields : List FieldEntry} (h : isDue isStatic currentMax f = true) :
    updatePass isStatic currentMax progress (f :: fields) =
      ((updatePass isStatic currentMax (progress.advance f) fields).1,
        { f with offset := progress.nextOffset % 2 ^ 16 } ::
          (updatePass isStatic currentMax (progress.advance f) fields).2) := by
  rw [updatePass, if_pos h]

theorem updatePass_of_not_due {fields : List FieldEntry} (h : isDue isStatic currentMax f = false) :
    updatePass isStatic currentMax progress (f :: fields) =
      ((updatePass isStatic currentMax progress fields).1,
        f :: (updatePass isStatic currentMax progress fields).2) := by
  rw [updatePass, if_neg (by simp [h])]

theorem nextOffset_updatePass (progress : Progress) (fields : List FieldEntry) :
    (updatePass isStatic currentMax progress fields).1.nextOffset =
      progress.nextOffset + totalSize (fields.filter (isDue isStatic currentMax)) := by
  induction fields generalizing progress with
  | nil => rfl
  | cons f fields ih =>
    cases hdue : isDue isStatic currentMax f with
    | true =>
      rw [updatePass_of_due hdue, List.filter_cons_of_pos hdue, totalSize_cons]
      simp only [ih, Progress.nextOffset_advance]
      omega
    | false =>
      rw [updatePass_of_not_due hdue, List.filter_cons_of_neg (by simp [hdue])]
      exact ih progress

theorem later_updatePass (progress : Progress) (fields : List FieldEntry) :
    Later fields (updatePass isStatic currentMax progress fields).2 := by
  induction fields generalizing progress with
  | nil => exact Later.refl _
  | cons f fields ih =>
    cases hdue : isDue isStatic currentMax f with
    | true =>
      rw [updatePass_of_due hdue]
      exact (ih _).cons rfl fun hne => absurd (isDue_offset hdue).1 hne
    | false =>
      rw [updatePass_of_not_due hdue]
      exact (ih _).cons rfl fun _ => rfl

theorem mem_updatePass {fields : List FieldEntry} {g : FieldEntry}
    (hg : g ∈ (updatePass isStatic currentMax progress fields).2) :
    g ∈ fields ∧ isDue isStatic currentMax g = false ∨
      ∃ f ∈ fields, isDue isStatic currentMax f = true ∧ g = { f with offset := g.offset } ∧
        g.offset < 2 ^ 16 ∧
        (0 < progress.nextOffset →
          Fits progress.nextOffset (fields.filter (isDue isStatic currentMax)) → g.offset ≠ 0) := by
  induction fields generalizing progress with
  | nil => exact absurd hg (by simp [updatePass])
  | cons f fields ih =>
    cases hdue : isDue isStatic currentMax f with
    | true =>
      rw [updatePass_of_due hdue] at hg
      rw [List.filter_cons_of_pos hdue]
      rcases List.mem_cons.mp hg with rfl | hg
      · right
        refine ⟨f, List.mem_cons_self, hdue, rfl, Nat.mod_lt _ (by norm_num), ?_⟩
        intro hpos hfits
        have : progress.nextOffset < 2 ^ 16 := hfits.1
        simp only
        omega
      · rcases ih hg with ⟨hmem, hnot⟩ | ⟨f', hmem, hdue', heq, hlt, hne⟩
        · exact .inl ⟨List.mem_cons_of_mem _ hmem, hnot⟩
        · right
          refine ⟨f', List.mem_cons_of_mem _ hmem, hdue', heq, hlt, fun hpos hfits => ?_⟩
          rw [Progress.nextOffset_advance] at hne
          exact hne (by omega) hfits.2
    | false =>
      rw [updatePass_of_not_due hdue] at hg
      rw [List.filter_cons_of_neg (by simp [hdue])]
      rcases List.mem_cons.mp hg with rfl | hg
      · exact .inl ⟨List.mem_cons_self, hdue⟩
      · rcases ih hg with ⟨hmem, hnot⟩ | ⟨f', hmem, hrest⟩
        · exact .inl ⟨List.mem_cons_of_mem _ hmem, hnot⟩
        · exact .inr ⟨f', List.mem_cons_of_mem _ hmem, hrest⟩

/-- **Run lemma** for a pass: either all its fields fit, and the area is filled up to the new
offset, or one of them has nowhere to go. -/
theorem Good.updatePass {done rest : List FieldEntry} {d : ℕ}
    (hpos : 0 < first) (h : Good isStatic first progress.nextOffset (done ++ rest))
    (hd : ∀ f ∈ rest, isDue isStatic currentMax f = true → f.alignment ∣ d ∧ d ∣ f.size)
    (hdvd : d ∣ progress.nextOffset) :
    ¬ Fits progress.nextOffset (rest.filter (isDue isStatic currentMax)) ∧
        Crowded isStatic first (done ++ (updatePass isStatic currentMax progress rest).2) ∨
      Fits progress.nextOffset (rest.filter (isDue isStatic currentMax)) ∧
        Good isStatic first (updatePass isStatic currentMax progress rest).1.nextOffset
          (done ++ (updatePass isStatic currentMax progress rest).2) := by
  induction rest generalizing progress done with
  | nil => exact .inr ⟨trivial, h⟩
  | cons f rest ih =>
    have hd' : ∀ f ∈ rest, isDue isStatic currentMax f = true → f.alignment ∣ d ∧ d ∣ f.size :=
      fun g hg => hd g (List.mem_cons_of_mem _ hg)
    cases hdue : isDue isStatic currentMax f with
    | false =>
      rw [updatePass_of_not_due hdue, List.filter_cons_of_neg (by simp [hdue])]
      have := @ih progress (done ++ [f]) (by simpa using h) hd' hdvd
      simpa using this
    | true =>
      obtain ⟨hzero, hkind⟩ := isDue_offset hdue
      obtain ⟨halign, hsize⟩ := hd f List.mem_cons_self hdue
      by_cases hlt : progress.nextOffset < 2 ^ 16
      · -- The field gets its offset, and the area grows.
        have hgood := h.place hkind hzero hpos (halign.trans hdvd)
        have hrun := @ih (progress.advance f) (done ++ [{ f with offset := progress.nextOffset }])
          (by simpa using hgood) hd' (by simpa using dvd_add hdvd hsize)
        have hfits : ∀ fields, Fits progress.nextOffset (f :: fields) ↔
            Fits (progress.nextOffset + f.size) fields :=
          fun _ => ⟨And.right, fun h => ⟨hlt, h⟩⟩
        rw [updatePass_of_due hdue, List.filter_cons_of_pos hdue, Nat.mod_eq_of_lt hlt, hfits]
        simpa using hrun
      · -- The area is full, and the field still has no offset.
        left
        rw [List.filter_cons_of_pos hdue]
        refine ⟨fun hfits => hlt hfits.1, ?_⟩
        suffices hcrowded : Crowded isStatic first (done ++ f :: rest) from
          hcrowded.later ((later_updatePass _ _).append_left _)
        refine ⟨done.length, f, by simp, hkind, fun x hx hlt' => ?_⟩
        obtain ⟨g, hg, hk, hne, hin⟩ := h.covered x hx (by omega)
        obtain ⟨j, hj⟩ := List.getElem?_of_mem hg
        refine ⟨j, g, ?_, hj, hk, hne, hin⟩
        rintro rfl
        obtain rfl : f = g := by simpa using hj
        exact hne hzero

/-! ## All passes -/

/-- The passes of `update_fields`, one after the other. -/
def runPasses (isStatic : Bool) (sizes : List ℕ) (state : Progress × List FieldEntry) :
    Progress × List FieldEntry :=
  sizes.foldl
    (fun (progress, fields) currentMax => updatePass isStatic currentMax progress fields) state

theorem updateFields_eq (isStatic : Bool) (nextOffset prevOopOffset : ℕ)
    (fields : List FieldEntry) : updateFields isStatic nextOffset prevOopOffset fields =
      runPasses isStatic (passes isStatic) (⟨nextOffset, prevOopOffset, []⟩, fields) :=
  rfl

@[simp] theorem runPasses_cons (sizes : List ℕ) (state : Progress × List FieldEntry) :
    runPasses isStatic (currentMax :: sizes) state =
      runPasses isStatic sizes (updatePass isStatic currentMax state.1 state.2) := by
  rfl

theorem later_runPasses (sizes : List ℕ) (state : Progress × List FieldEntry) :
    Later state.2 (runPasses isStatic sizes state).2 := by
  induction sizes generalizing state with
  | nil => exact Later.refl _
  | cons currentMax sizes ih =>
    rw [runPasses_cons]
    exact (later_updatePass _ _).trans (ih _)

/-- The fields without an offset are the ones of the passes that are left. -/
def Pending (isStatic : Bool) (sizes : List ℕ) (fields : List FieldEntry) : Prop :=
  ∀ f ∈ fields, f.isStatic = isStatic → (f.offset = 0 ↔ passOf f ∈ sizes)

theorem passOf_mem (field : FieldEntry) : passOf field ∈ passes field.isStatic := by
  have := field.size_cases
  unfold passOf passes
  cases hstatic : field.isStatic <;> simp_all
  omega

theorem isDue_eq_inPass {sizes : List ℕ} {fields : List FieldEntry}
    (hsuffix : currentMax :: sizes <:+ passes isStatic)
    (hpending : Pending isStatic (currentMax :: sizes) fields) :
    ∀ f ∈ fields, isDue isStatic currentMax f = inPass isStatic currentMax f := by
  intro f hf
  by_cases hkind : f.isStatic = isStatic
  · have hzero := hpending f hf hkind
    have := f.size_cases
    unfold isDue inPass
    subst hkind
    unfold passOf at hzero ⊢
    cases hstatic : f.isStatic <;>
      simp only [hstatic, passes, if_true, Bool.false_eq_true, if_false,
        List.suffix_cons_iff, List.suffix_nil, List.cons.injEq, reduceCtorEq, or_false] at *
    · rcases hsuffix with ⟨rfl, rfl⟩ | ⟨rfl, rfl⟩ | ⟨rfl, rfl⟩ <;>
        simp only [List.mem_cons, List.not_mem_nil, or_false] at hzero <;>
        simp only [hzero, decide_true, Bool.and_true, Bool.true_and,
          ← Bool.decide_and, decide_eq_decide] <;> omega
    · obtain ⟨rfl, rfl⟩ := hsuffix
      simp only [List.mem_cons, List.not_mem_nil, or_false] at hzero
      simp only [hzero, decide_true, Bool.and_true, Bool.true_and, decide_eq_true_eq]
      omega
  · simp [isDue, inPass, hkind]

variable {sizes : List ℕ}

theorem pending_updatePass {fields : List FieldEntry}
    (hsuffix : currentMax :: sizes <:+ passes isStatic)
    (hpending : Pending isStatic (currentMax :: sizes) fields) (hpos : 0 < progress.nextOffset)
    (hfits : Fits progress.nextOffset (fields.filter (isDue isStatic currentMax))) :
    Pending isStatic sizes (updatePass isStatic currentMax progress fields).2 := by
  intro g hg hkind
  rcases mem_updatePass hg with ⟨hmem, hnot⟩ | ⟨f, hmem, hdue, heq, -, hne⟩
  · rw [isDue_eq_inPass hsuffix hpending g hmem] at hnot
    have hother : passOf g ≠ currentMax := by simpa [inPass, hkind] using hnot
    rw [hpending g hmem hkind, List.mem_cons]
    simp [hother]
  · rw [isDue_eq_inPass hsuffix hpending f hmem] at hdue
    have hpass : passOf g = currentMax := by
      rw [heq]
      exact (by simpa [inPass] using hdue : _ ∧ passOf f = currentMax).2
    have hnodup : (currentMax :: sizes).Nodup :=
      hsuffix.sublist.nodup (by cases isStatic <;> decide)
    rw [hpass]
    exact iff_of_false (hne hpos hfits) (List.nodup_cons.mp hnodup).1

theorem filter_updatePass {q : FieldEntry → Bool}
    {fields : List FieldEntry} (hq : ∀ (f : FieldEntry) offset, q { f with offset } = q f)
    (hnot : ∀ f ∈ fields, isDue isStatic currentMax f = true → q f = false) :
    (updatePass isStatic currentMax progress fields).2.filter q = fields.filter q := by
  induction fields generalizing progress with
  | nil => rfl
  | cons f fields ih =>
    have hrest := fun g hg => hnot g (List.mem_cons_of_mem _ hg)
    cases hdue : isDue isStatic currentMax f with
    | true =>
      have hf := hnot f List.mem_cons_self hdue
      rw [updatePass_of_due hdue, List.filter_cons_of_neg (by simp [hq, hf]),
        List.filter_cons_of_neg (by simp [hf])]
      exact ih hrest
    | false =>
      rw [updatePass_of_not_due hdue, List.filter_cons, List.filter_cons]
      simp only [ih hrest]

/-- The fields that the remaining passes place, in their order. -/
def remaining (isStatic : Bool) (sizes : List ℕ) (fields : List FieldEntry) : List FieldEntry :=
  sizes.flatMap fun currentMax => fields.filter (inPass isStatic currentMax)

theorem remaining_updatePass {fields : List FieldEntry}
    (hsuffix : currentMax :: sizes <:+ passes isStatic)
    (hpending : Pending isStatic (currentMax :: sizes) fields) :
    remaining isStatic sizes (updatePass isStatic currentMax progress fields).2 =
      remaining isStatic sizes fields := by
  have hnodup : (currentMax :: sizes).Nodup :=
    hsuffix.sublist.nodup (by cases isStatic <;> decide)
  unfold remaining
  rw [List.flatMap_def, List.flatMap_def]
  congr 1
  apply List.map_congr_left
  intro size hsize
  refine filter_updatePass (fun f offset => rfl) fun f hf hdue => ?_
  rw [isDue_eq_inPass hsuffix hpending f hf] at hdue
  have hne : currentMax ≠ size := by
    rintro rfl
    exact (List.nodup_cons.mp hnodup).1 hsize
  simp only [inPass, Bool.and_eq_true, decide_eq_true_eq] at hdue
  simp [inPass, hdue.2, hne]

theorem unit_dvd (hsuffix : currentMax :: sizes <:+ passes isStatic) :
    ∀ size ∈ sizes, unit isStatic size ∣ unit isStatic currentMax := by
  cases isStatic <;>
    simp only [passes, if_true, Bool.false_eq_true, if_false, List.suffix_cons_iff,
      List.suffix_nil, List.cons.injEq, reduceCtorEq, or_false] at hsuffix
  · rcases hsuffix with ⟨rfl, rfl⟩ | ⟨rfl, rfl⟩ | ⟨rfl, rfl⟩ <;> decide
  · obtain ⟨rfl, rfl⟩ := hsuffix
    decide

theorem dvd_totalSize {d : ℕ} {fields : List FieldEntry} (h : ∀ f ∈ fields, d ∣ f.size) :
    d ∣ totalSize fields := by
  unfold totalSize
  refine List.dvd_sum fun size hsize => ?_
  obtain ⟨f, hf, rfl⟩ := List.mem_map.mp hsize
  exact h f hf

/-- **Run lemma**: either all the fields fit, and the area is filled, or one of them has nowhere
to go. -/
theorem runPasses_good {sizes : List ℕ} {state : Progress × List FieldEntry} (hpos : 0 < first)
    (hsuffix : sizes <:+ passes isStatic) (hpending : Pending isStatic sizes state.2)
    (hgood : Good isStatic first state.1.nextOffset state.2)
    (hunit : ∀ size ∈ sizes, unit isStatic size ∣ state.1.nextOffset) :
    ¬ Fits state.1.nextOffset (remaining isStatic sizes state.2) ∧
        Crowded isStatic first (runPasses isStatic sizes state).2 ∨
      Fits state.1.nextOffset (remaining isStatic sizes state.2) ∧ Good isStatic first
          (state.1.nextOffset + totalSize (remaining isStatic sizes state.2))
          (runPasses isStatic sizes state).2 ∧
        Pending isStatic [] (runPasses isStatic sizes state).2 := by
  induction sizes generalizing state with
  | nil => exact .inr ⟨trivial, hgood, hpending⟩
  | cons currentMax sizes ih =>
    have hdueEq := isDue_eq_inPass hsuffix hpending
    have hdvd := hunit currentMax List.mem_cons_self
    have hd : ∀ f ∈ state.2, isDue isStatic currentMax f = true →
        f.alignment ∣ unit isStatic currentMax ∧ unit isStatic currentMax ∣ f.size :=
      fun f hf hdue => alignment_dvd_unit (hdueEq f hf ▸ hdue)
    have hfilter : state.2.filter (isDue isStatic currentMax) =
        state.2.filter (inPass isStatic currentMax) := List.filter_congr hdueEq
    have hremaining : remaining isStatic (currentMax :: sizes) state.2 =
        state.2.filter (inPass isStatic currentMax) ++ remaining isStatic sizes state.2 := rfl
    have hnext : (updatePass isStatic currentMax state.1 state.2).1.nextOffset =
        state.1.nextOffset + totalSize (state.2.filter (isDue isStatic currentMax)) :=
      nextOffset_updatePass _ _
    have hrest : remaining isStatic sizes (updatePass isStatic currentMax state.1 state.2).2 =
        remaining isStatic sizes state.2 := remaining_updatePass hsuffix hpending
    have hgood0 : Good isStatic first state.1.nextOffset ([] ++ state.2) := hgood
    rw [runPasses_cons, hremaining, fits_append, totalSize_append, ← hfilter, ← add_assoc, ← hnext,
      ← hrest]
    rcases hgood0.updatePass hpos hd hdvd with
      ⟨hnot, hcrowded⟩ | ⟨hfits, hgood'⟩
    · left
      exact ⟨fun h => hnot h.1, hcrowded.later (later_runPasses _ _)⟩
    · have hle := hgood.le
      have hunit' : ∀ size ∈ sizes, unit isStatic size ∣
          (updatePass isStatic currentMax state.1 state.2).1.nextOffset := by
        intro size hsize
        rw [hnext]
        refine (unit_dvd hsuffix size hsize).trans (dvd_add hdvd (dvd_totalSize fun f hf => ?_))
        exact (hd f (List.mem_of_mem_filter hf) (List.of_mem_filter hf)).2
      have hrun := ih ((List.suffix_cons _ _).trans hsuffix)
        (pending_updatePass hsuffix hpending (by omega) hfits) hgood' hunit'
      rcases hrun with ⟨hnot, hcrowded⟩ | ⟨hfits', hrest⟩
      · exact .inl ⟨fun h => hnot h.2, hcrowded⟩
      · exact .inr ⟨⟨hfits, hfits'⟩, hrest⟩

end Fill

/-! ## `update_fields` -/

section UpdateFields

variable {isStatic : Bool} {first last prevOopOffset : ℕ} {fields : List FieldEntry}

theorem offset_lt_runPasses (sizes : List ℕ) {state : Progress × List FieldEntry}
    (h : ∀ f ∈ state.2, f.offset < 2 ^ 16) :
    ∀ f ∈ (runPasses isStatic sizes state).2, f.offset < 2 ^ 16 := by
  induction sizes generalizing state with
  | nil => exact h
  | cons currentMax sizes ih =>
    rw [runPasses_cons]
    refine ih fun f hf => ?_
    rcases mem_updatePass hf with ⟨hmem, -⟩ | ⟨f', -, -, -, hlt, -⟩
    · exact h f hmem
    · exact hlt

theorem Good.laidOut {next : ℕ} (h : Good isStatic first next fields)
    (hpending : Pending isStatic [] fields) (hle : next ≤ last) :
    LaidOut isStatic first last fields := by
  have hne : ∀ f ∈ fields, f.isStatic = isStatic → f.offset ≠ 0 := fun f hf hkind hzero =>
    absurd ((hpending f hf hkind).mp hzero) List.not_mem_nil
  refine ⟨fun f hf hkind => ?_, hne, h.aligned, ?_⟩
  · have := h.inArea f hf hkind (hne f hf hkind)
    omega
  · refine h.disjoint.imp_of_mem fun {f g} hf hg hdisjoint hkf hkg => ?_
    exact hdisjoint hkf hkg (hne f hf hkf) (hne g hg hkg)

theorem layoutOrder_eq (isStatic : Bool) (fields : List FieldEntry) :
    layoutOrder isStatic fields = remaining isStatic (passes isStatic) fields :=
  rfl

theorem totalSize_layoutOrder (isStatic : Bool) (fields : List FieldEntry) :
    totalSize (layoutOrder isStatic fields) = totalSize (fields.filter (ofKind isStatic)) := by
  induction fields with
  | nil => cases isStatic <;> rfl
  | cons f fields ih =>
    have hpass := passOf_mem f
    by_cases hkind : ofKind isStatic f = true
    · rw [List.filter_cons_of_pos hkind, totalSize_cons, ← ih]
      obtain rfl : f.isStatic = isStatic := by simpa [ofKind] using hkind
      -- The field is in exactly one of the passes.
      cases hstatic : f.isStatic with
      | true =>
        simp only [hstatic, passes, if_true, List.mem_singleton] at hpass
        simp [layoutOrder, passes, inPass, hstatic, hpass]
      | false =>
        simp only [hstatic, passes, Bool.false_eq_true, if_false, List.mem_cons, List.not_mem_nil,
          or_false] at hpass
        rcases hpass with h | h | h <;>
          simp [layoutOrder, passes, List.filter_cons, inPass, hstatic, h] <;> omega
    · rw [List.filter_cons_of_neg hkind, ← ih]
      have hnot : ∀ currentMax, inPass isStatic currentMax f = false := by
        intro currentMax
        simp only [ofKind, decide_eq_true_eq] at hkind
        simp [inPass, hkind]
      simp [layoutOrder, hnot]

/-- **Spec lemma** for `update_fields`: the layout is right exactly when the offsets fit. -/
theorem laidOut_updateFields_iff (hzero : ∀ f ∈ fields, f.isStatic = isStatic → f.offset = 0)
    (hlt : ∀ f ∈ fields, f.offset < 2 ^ 16) (hpos : 0 < first) (hdvd : 4 ∣ first)
    (hlast : first + totalSize (fields.filter (ofKind isStatic)) ≤ last) :
    LaidOut isStatic first last (updateFields isStatic first prevOopOffset fields).2 ↔
      Fits first (layoutOrder isStatic fields) := by
  have hpending : Pending isStatic (passes isStatic) fields := by
    rintro f hf rfl
    exact iff_of_true (hzero f hf rfl) (passOf_mem f)
  have hgood : Good isStatic first first fields := by
    refine ⟨le_rfl, ?_, ?_, ?_, ?_⟩
    · intro f hf hkind hne
      exact absurd (hzero f hf hkind) hne
    · intro f hf hkind
      rw [hzero f hf hkind]
      exact dvd_zero _
    · refine List.pairwise_of_forall_mem_list fun f hf g _ hkind _ hne => ?_
      exact absurd (hzero f hf hkind) hne
    · intro x hx hlt
      omega
  have hunit : ∀ size ∈ passes isStatic, unit isStatic size ∣ first := by
    intro size hsize
    have h4 : unit isStatic size ∣ 4 := by
      cases isStatic <;> simp [passes] at hsize
      · rcases hsize with rfl | rfl | rfl <;> decide
      · subst hsize
        decide
    exact h4.trans hdvd
  rw [updateFields_eq, layoutOrder_eq]
  have htotal := totalSize_layoutOrder isStatic fields
  rw [layoutOrder_eq] at htotal
  rcases @runPasses_good isStatic first _ (⟨first, prevOopOffset, []⟩, fields) hpos
    List.suffix_rfl hpending hgood hunit with ⟨hnot, hcrowded⟩ | ⟨hfits, hgood', hpending'⟩
  · exact iff_of_false (hcrowded.not_laidOut (offset_lt_runPasses _ hlt)) hnot
  · exact iff_of_true (hgood'.laidOut hpending' (by simp only; omega)) hfits

theorem filter_runPasses (sizes : List ℕ) (state : Progress × List FieldEntry) :
    (runPasses isStatic sizes state).2.filter (ofKind !isStatic) =
      state.2.filter (ofKind !isStatic) := by
  induction sizes generalizing state with
  | nil => rfl
  | cons currentMax sizes ih =>
    rw [runPasses_cons, ih]
    refine filter_updatePass (fun f offset => rfl) fun f _ hdue => ?_
    simp [ofKind, (isDue_offset hdue).2]

theorem map_updatePass (currentMax : ℕ) (progress : Progress) (fields : List FieldEntry) :
    (updatePass isStatic currentMax progress fields).2.map FieldEntry.toDeclaration =
      fields.map FieldEntry.toDeclaration := by
  induction fields generalizing progress with
  | nil => rfl
  | cons f fields ih =>
    cases hdue : isDue isStatic currentMax f with
    | true => rw [updatePass_of_due hdue, List.map_cons, List.map_cons, ih]
    | false => rw [updatePass_of_not_due hdue, List.map_cons, List.map_cons, ih]

theorem map_runPasses (sizes : List ℕ) (state : Progress × List FieldEntry) :
    (runPasses isStatic sizes state).2.map FieldEntry.toDeclaration =
      state.2.map FieldEntry.toDeclaration := by
  induction sizes generalizing state with
  | nil => rfl
  | cons currentMax sizes ih => rw [runPasses_cons, ih, map_updatePass]

theorem laidOut_congr {fields' : List FieldEntry}
    (h : fields.filter (ofKind isStatic) = fields'.filter (ofKind isStatic)) :
    LaidOut isStatic first last fields ↔ LaidOut isStatic first last fields' := by
  suffices key : ∀ fields : List FieldEntry, LaidOut isStatic first last fields ↔
      LaidOut isStatic first last (fields.filter (ofKind isStatic)) by
    rw [key fields, key fields', h]
  intro fields
  constructor
  · intro hlaid
    exact ⟨fun f hf => hlaid.inArea f (List.mem_of_mem_filter hf),
      fun f hf => hlaid.assigned f (List.mem_of_mem_filter hf),
      fun f hf => hlaid.aligned f (List.mem_of_mem_filter hf),
      hlaid.disjoint.filter _⟩
  · intro hlaid
    have hmem : ∀ f ∈ fields, f.isStatic = isStatic → f ∈ fields.filter (ofKind isStatic) :=
      fun f hf hkind => List.mem_filter.mpr ⟨hf, decide_eq_true hkind⟩
    refine ⟨fun f hf hkind => hlaid.inArea f (hmem f hf hkind) hkind,
      fun f hf hkind => hlaid.assigned f (hmem f hf hkind) hkind,
      fun f hf hkind => hlaid.aligned f (hmem f hf hkind) hkind, ?_⟩
    refine (List.pairwise_filter.mp hlaid.disjoint).imp fun {f g} hdisjoint hkf hkg => ?_
    exact hdisjoint (decide_eq_true hkf) (decide_eq_true hkg) hkf hkg

theorem layoutOrder_congr {fields' : List FieldEntry}
    (h : fields.filter (ofKind isStatic) = fields'.filter (ofKind isStatic)) :
    layoutOrder isStatic fields = layoutOrder isStatic fields' := by
  have key : ∀ (fields : List FieldEntry) (currentMax : ℕ),
      fields.filter (inPass isStatic currentMax) =
        (fields.filter (ofKind isStatic)).filter (inPass isStatic currentMax) := by
    intro fields currentMax
    rw [List.filter_filter]
    refine List.filter_congr fun f _ => ?_
    simp only [inPass, ofKind]
    cases decide (f.isStatic = isStatic) <;> simp
  unfold layoutOrder
  simp only [key fields, key fields', h]

end UpdateFields

/-! ## The fields of a class -/

section Class

variable (super : Option SuperClass) (declarations : List Declaration)

theorem firstNonstaticOffset_pos : 0 < firstNonstaticOffset super := by
  cases super with
  | none => decide
  | some super => exact super.size_pos

theorem four_dvd_firstNonstaticOffset : 4 ∣ firstNonstaticOffset super := by
  cases super with
  | none => decide
  | some super => exact super.size_aligned

theorem offset_of_mem_parseFields (h : f ∈ parseFields declarations) : f.offset = 0 := by
  obtain ⟨declaration, -, rfl⟩ := List.mem_map.mp h
  rfl

theorem filter_updateNonstatic : (updateNonstatic super declarations).2.filter (ofKind true) =
      (parseFields declarations).filter (ofKind true) :=
  @filter_runPasses false _ _

theorem filter_updateStatic : (updateStatic super declarations).2.filter (ofKind false) =
      (updateNonstatic super declarations).2.filter (ofKind false) :=
  @filter_runPasses true _ _

theorem le_alignUp (size : ℕ) : size ≤ alignUp size := by
  unfold alignUp
  omega

theorem instanceSize_parseClass : (parseClass super declarations).instanceSize =
    alignUp (firstNonstaticOffset super + nonstaticFieldSize declarations) :=
  rfl

theorem staticFieldSize_parseClass :
    (parseClass super declarations).staticFieldSize = staticFieldSize declarations :=
  rfl

theorem laidOut_nonstatic_iff :
    LaidOut false (firstNonstaticOffset super) (parseClass super declarations).instanceSize
        (parseClass super declarations).fields ↔
      Fits (firstNonstaticOffset super) (layoutOrder false (parseFields declarations)) := by
  rw [show (parseClass super declarations).fields = (updateStatic super declarations).2 from rfl,
    laidOut_congr (filter_updateStatic super declarations)]
  refine laidOut_updateFields_iff ?_ ?_ (firstNonstaticOffset_pos super)
    (four_dvd_firstNonstaticOffset super) ?_
  · exact fun f hf _ => offset_of_mem_parseFields declarations hf
  · intro f hf
    rw [offset_of_mem_parseFields declarations hf]
    norm_num
  · have hkind : (ofKind false : FieldEntry → Bool) = fun field => !field.isStatic := by
      funext field
      cases h : field.isStatic <;> simp [ofKind, h]
    rw [instanceSize_parseClass, nonstaticFieldSize, hkind]
    have := le_alignUp (totalSize ((parseFields declarations).filter fun field => !field.isStatic))
    exact (Nat.add_le_add_left this _).trans (le_alignUp _)

theorem laidOut_static_iff : LaidOut true staticFieldStart
        (staticFieldStart + (parseClass super declarations).staticFieldSize)
        (parseClass super declarations).fields ↔
      Fits staticFieldStart (layoutOrder true (parseFields declarations)) := by
  have hfilter := filter_updateNonstatic super declarations
  rw [← layoutOrder_congr hfilter]
  refine laidOut_updateFields_iff ?_ ?_ (by decide) (by decide) ?_
  · intro f hf hkind
    have hmem : f ∈ (updateNonstatic super declarations).2.filter (ofKind true) :=
      List.mem_filter.mpr ⟨hf, decide_eq_true hkind⟩
    rw [hfilter] at hmem
    exact offset_of_mem_parseFields declarations (List.mem_of_mem_filter hmem)
  · refine offset_lt_runPasses _ fun f hf => ?_
    rw [offset_of_mem_parseFields declarations hf]
    norm_num
  · have hkind : (ofKind true : FieldEntry → Bool) = fun field => field.isStatic := by
      funext field
      simp [ofKind]
    rw [hfilter, hkind, staticFieldSize_parseClass, staticFieldSize]

end Class

theorem fits_replicate (next n : ℕ) (field : FieldEntry) :
    Fits next (List.replicate n field) ↔ n = 0 ∨ next + (n - 1) * field.size < 2 ^ 16 := by
  induction n generalizing next with
  | zero => simp [Fits]
  | succ n ih =>
    rw [List.replicate_succ, Fits, ih]
    cases n with
    | zero => simp
    | succ n =>
      simp only [Nat.add_sub_cancel]
      have : (n + 1) * field.size = n * field.size + field.size := Nat.succ_mul _ _
      omega

/-- A static field of type `int`. -/
def staticInt : Declaration := ⟨true, .int, by decide⟩

end CldcVm.Layout
