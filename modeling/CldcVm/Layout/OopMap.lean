import CldcVm.Layout.Placement

/-!
# Oop maps and their walkers

Results:

* `oopMap_roundTrips_iff`: the map of a class lists the offsets of its references, each once, exactly
  when the class declares none, or the inherited map has no escape byte and the references of the
  first pass start in the first 64K bytes.
* `not_roundTrips_extended`: below a superclass with an escape byte, the reference of the
  subclass is not in the map.
-/

namespace CldcVm.Layout

/-! ## Walking over bytes -/

theorem toInt8_pos_iff (entry : UInt8) :
    entry.toInt8 > 0 ↔ 0 < entry.toNat ∧ entry.toNat < 0x80 := by
  have hlt := entry.toNat_lt
  have hvalue : entry.toInt8.toInt =
      if 2 * entry.toNat < 256 then (entry.toNat : ℤ) else entry.toNat - 256 :=
    BitVec.toInt_eq_toNat_cond entry.toBitVec
  rw [gt_iff_lt, Int8.lt_iff_toInt_lt, hvalue, Int8.toInt_zero]
  split_ifs <;> omega

variable {base : ℕ}

theorem walk_entry {entry : UInt8} {map : List UInt8} (hpos : 0 < entry.toNat)
    (hlt : entry.toNat < 0x80) :
    walk base (entry :: map) = (walk (base + 4 * entry.toNat) map).map fun (offsets, rest) =>
      ((base + 4 * entry.toNat) :: offsets, rest) := by
  rw [walk, if_pos ((toInt8_pos_iff entry).mpr ⟨hpos, hlt⟩)]

@[simp] theorem walk_escape (base : ℕ) (map : List UInt8) :
    walk base (0x80 :: map) = walk (base + 508) map := by
  rw [walk, if_neg (by decide), if_neg (by decide)]
  rfl

@[simp] theorem walk_zero (base : ℕ) (map : List UInt8) : walk base (0 :: map) = some ([], map) := by
  rw [walk, if_neg (by decide), if_pos rfl]

/-- The byte offsets that the bytes of a map stand for. -/
def mapOffsets (base : ℕ) : List UInt8 → List ℕ
  | [] => []
  | entry :: map =>
    if entry = 0x80 then mapOffsets (base + 508) map
    else (base + 4 * entry.toNat) :: mapOffsets (base + 4 * entry.toNat) map

theorem mapWords_cons (entry : UInt8) (map : List UInt8) :
    mapWords (entry :: map) = (if entry = 0x80 then 127 else entry.toNat) + mapWords map := by
  simp [mapWords]

theorem entry_lt {entry : UInt8} (hle : entry.toNat ≤ 0x80) (hne : entry ≠ 0x80) :
    entry.toNat < 0x80 := by
  have : entry.toNat ≠ 0x80 := fun h => hne (UInt8.toNat_inj.mp h)
  omega

/-- The walkers read the inherited part as the superclass has it. -/
theorem walk_map {map rest : List UInt8} (hpos : ∀ entry ∈ map, 0 < entry.toNat)
    (hle : ∀ entry ∈ map, entry.toNat ≤ 0x80) :
    walk base (map ++ rest) = (walk (base + 4 * mapWords map) rest).map fun (offsets, rest) =>
      (mapOffsets base map ++ offsets, rest) := by
  induction map generalizing base with
  | nil => cases h : walk base rest <;> simp [mapWords, mapOffsets, h]
  | cons entry map ih =>
    have ih := fun base => @ih base (fun e he => hpos e (List.mem_cons_of_mem _ he))
      fun e he => hle e (List.mem_cons_of_mem _ he)
    rw [List.cons_append, mapWords_cons, mapOffsets]
    by_cases hescape : entry = 0x80
    · subst hescape
      rw [walk_escape, ih, if_pos rfl, if_pos rfl, mul_add, add_assoc]
    · rw [walk_entry (hpos entry List.mem_cons_self)
        (entry_lt (hle entry List.mem_cons_self) hescape), ih, if_neg hescape, if_neg hescape,
        mul_add, add_assoc, Option.map_map]
      rfl

/-- The bytes for one distance lead over that distance. -/
theorem walk_encodeDelta {wordDelta : ℕ} {rest : List UInt8} (hpos : 0 < wordDelta) :
    walk base (encodeDelta wordDelta ++ rest) =
      (walk (base + 4 * wordDelta) rest).map fun (offsets, rest) =>
        ((base + 4 * wordDelta) :: offsets, rest) := by
  induction wordDelta using encodeDelta.induct generalizing base with
  | case1 wordDelta hge ih =>
    have hescape : oopMapEscape = 128 := rfl
    rw [encodeDelta, if_pos hge, List.cons_append, walk_escape, ih (by omega),
      show base + 508 + 4 * (wordDelta - (oopMapEscape - 1)) = base + 4 * wordDelta by omega]
  | case2 wordDelta hlt =>
    simp only [oopMapEscape, ge_iff_le, not_le] at hlt
    have hvalue : (UInt8.ofNat wordDelta).toNat = wordDelta := by
      rw [UInt8.toNat_ofNat']
      omega
    rw [encodeDelta, if_neg (by simp only [oopMapEscape]; omega), List.singleton_append,
      walk_entry (by omega) (by omega), hvalue]

theorem encodeDelta_zero : encodeDelta 0 = [0] := by
  rw [encodeDelta, if_neg (by decide)]
  rfl

/-- The sums of a list of distances in words, in bytes. -/
def partialSums (base : ℕ) : List ℕ → List ℕ
  | [] => []
  | delta :: deltas => (base + 4 * delta) :: partialSums (base + 4 * delta) deltas

theorem length_partialSums (base : ℕ) (deltas : List ℕ) :
    (partialSums base deltas).length = deltas.length := by
  induction deltas generalizing base with
  | nil => rfl
  | cons delta deltas ih => simp [partialSums, ih]

theorem walk_deltas {deltas : List ℕ} {rest : List UInt8} (hpos : ∀ delta ∈ deltas, 0 < delta) :
    walk base (deltas.flatMap encodeDelta ++ 0 :: rest) = some (partialSums base deltas, rest) := by
  induction deltas generalizing base with
  | nil => simp [partialSums]
  | cons delta deltas ih =>
    rw [List.flatMap_cons, List.append_assoc, walk_encodeDelta (hpos delta List.mem_cons_self),
      ih fun d hd => hpos d (List.mem_cons_of_mem _ hd)]
    rfl

/-! ## What the passes write -/

/-- The distances in words between the offsets of a list. -/
def deltas (prevOopOffset : ℕ) : List ℕ → List ℕ
  | [] => []
  | offset :: offsets => wordDelta offset prevOopOffset :: deltas offset offsets

theorem deltas_append (prevOopOffset : ℕ) (a b : List ℕ) : deltas prevOopOffset (a ++ b) =
      deltas prevOopOffset a ++ deltas (a.getLast?.getD prevOopOffset) b := by
  induction a generalizing prevOopOffset with
  | nil => rfl
  | cons offset a ih =>
    rw [List.cons_append, deltas, ih, deltas, List.cons_append]
    cases a <;> simp [List.getLast?_cons]

variable {f : FieldEntry} {offset : ℕ}

section Emitted

variable {isStatic : Bool} {currentMax : ℕ}

/-- The offsets, before they are cut to 16 bits, that a pass gives to references. -/
def emitted (isStatic : Bool) (currentMax : ℕ) : ℕ → List FieldEntry → List ℕ
  | _, [] => []
  | next, field :: fields =>
    if isDue isStatic currentMax field then
      if field.isReference then next :: emitted isStatic currentMax (next + field.size) fields
      else emitted isStatic currentMax (next + field.size) fields
    else emitted isStatic currentMax next fields

/-- The same over all passes. -/
def emittedAll (isStatic : Bool) : List ℕ → Progress × List FieldEntry → List ℕ
  | [], _ => []
  | currentMax :: sizes, state =>
    emitted isStatic currentMax state.1.nextOffset state.2 ++
      emittedAll isStatic sizes (updatePass isStatic currentMax state.1 state.2)

variable {fields : List FieldEntry}

theorem emitted_of_reference {next : ℕ}
    (hdue : isDue isStatic currentMax f = true) (href : f.isReference = true) :
    emitted isStatic currentMax next (f :: fields) =
      next :: emitted isStatic currentMax (next + f.size) fields := by
  rw [emitted, if_pos hdue, if_pos href]

theorem emitted_of_not_reference {next : ℕ}
    (hdue : isDue isStatic currentMax f = true) (href : f.isReference = false) :
    emitted isStatic currentMax next (f :: fields) =
      emitted isStatic currentMax (next + f.size) fields := by
  rw [emitted, if_pos hdue, if_neg (by simp [href])]

theorem emitted_of_not_due {next : ℕ} (hdue : isDue isStatic currentMax f = false) :
    emitted isStatic currentMax next (f :: fields) = emitted isStatic currentMax next fields := by
  rw [emitted, if_neg (by simp [hdue])]

/-- **Step lemma**: what a pass does to the map and to `prev_oop_offset`. -/
theorem oopMap_updatePass (progress : Progress) (fields : List FieldEntry) :
    (updatePass isStatic currentMax progress fields).1.map =
        progress.map ++ (deltas progress.prevOopOffset
          (emitted isStatic currentMax progress.nextOffset fields)).flatMap encodeDelta ∧
      (updatePass isStatic currentMax progress fields).1.prevOopOffset =
        (emitted isStatic currentMax progress.nextOffset fields).getLast?.getD
          progress.prevOopOffset := by
  induction fields generalizing progress with
  | nil => simp [updatePass, emitted, deltas]
  | cons f fields ih =>
    cases hdue : isDue isStatic currentMax f with
    | false =>
      rw [updatePass_of_not_due hdue, emitted_of_not_due hdue]
      exact ih progress
    | true =>
      rw [updatePass_of_due hdue]
      obtain ⟨hmap, hprev⟩ := ih (progress.advance f)
      simp only [hmap, hprev, Progress.nextOffset_advance]
      cases href : f.isReference with
      | true =>
        rw [emitted_of_reference hdue href]
        simp only [Progress.advance, href, if_true, deltas, List.flatMap_cons, List.append_assoc,
          List.getLast?_cons, Option.getD_some, and_self]
      | false =>
        rw [emitted_of_not_reference hdue href]
        simp [Progress.advance, href]

/-- **Run lemma**: what the passes do to the map. -/
theorem oopMap_runPasses (sizes : List ℕ) (state : Progress × List FieldEntry) :
    (runPasses isStatic sizes state).1.map = state.1.map ++
      (deltas state.1.prevOopOffset (emittedAll isStatic sizes state)).flatMap encodeDelta := by
  induction sizes generalizing state with
  | nil => simp [runPasses, emittedAll, deltas]
  | cons currentMax sizes ih =>
    obtain ⟨hmap, hprev⟩ := @oopMap_updatePass isStatic currentMax state.1 state.2
    rw [runPasses_cons, ih, emittedAll, deltas_append, List.flatMap_append, hmap, hprev,
      List.append_assoc]

/-! ## The distances -/

/-- Offsets that go up by a word at least, below a limit. -/
def Spaced (limit : ℕ) : ℕ → List ℕ → Prop
  | _, [] => True
  | prev, offset :: offsets => prev + 4 ≤ offset ∧ offset < limit ∧ Spaced limit offset offsets

theorem spaced_append (limit prev : ℕ) (a b : List ℕ) : Spaced limit prev (a ++ b) ↔
      Spaced limit prev a ∧ Spaced limit (a.getLast?.getD prev) b := by
  induction a generalizing prev with
  | nil => simp [Spaced]
  | cons offset a ih =>
    rw [List.cons_append, Spaced, ih, Spaced, List.getLast?_cons, Option.getD_some]
    tauto

variable {prev : ℕ} {offsets : List ℕ}

theorem Spaced.lower {limit : ℕ} (h : Spaced limit prev offsets) :
    ∀ offset ∈ offsets, prev < offset := by
  induction offsets generalizing prev with
  | nil => simp
  | cons first offsets ih =>
    obtain ⟨hle, -, hrest⟩ := h
    intro offset hmem
    rcases List.mem_cons.mp hmem with rfl | hmem
    · omega
    · have := ih hrest offset hmem
      omega

theorem Spaced.pairwise {limit : ℕ} (h : Spaced limit prev offsets) : offsets.Pairwise (· < ·) := by
  induction offsets generalizing prev with
  | nil => exact List.Pairwise.nil
  | cons first offsets ih => exact List.pairwise_cons.mpr ⟨h.2.2.lower, ih h.2.2⟩

theorem wordDelta_of_lt (hle : prev ≤ offset) (hlt : offset < 2 ^ 32) :
    wordDelta offset prev = (offset - prev) / 4 := by
  unfold wordDelta
  rw [Int.tdiv_eq_ediv_of_nonneg (by omega)]
  omega

theorem Spaced.deltas_pos (h : Spaced (2 ^ 32) prev offsets) :
    ∀ delta ∈ deltas prev offsets, 0 < delta := by
  induction offsets generalizing prev with
  | nil => simp [deltas]
  | cons first offsets ih =>
    obtain ⟨hle, hlt, hrest⟩ := h
    intro delta hmem
    rcases List.mem_cons.mp hmem with rfl | hmem
    · rw [wordDelta_of_lt (by omega) hlt]
      omega
    · exact ih hrest delta hmem

/-- The walkers add the distances to where they are, not to where the encoder started. -/
theorem partialSums_deltas
    (h : Spaced (2 ^ 32) prev offsets) (hprev : 4 ∣ prev) (hdvd : ∀ offset ∈ offsets, 4 ∣ offset) :
    partialSums base (deltas prev offsets) = offsets.map fun offset => base + (offset - prev) := by
  induction offsets generalizing base prev with
  | nil => rfl
  | cons first offsets ih =>
    obtain ⟨hle, hlt, hrest⟩ := h
    have hfirst := hdvd first List.mem_cons_self
    have hword : 4 * ((first - prev) / 4) = first - prev :=
      Nat.mul_div_cancel' (Nat.dvd_sub hfirst hprev)
    rw [deltas, partialSums, wordDelta_of_lt (by omega) hlt, hword,
      ih hrest hfirst fun offset hmem => hdvd offset (List.mem_cons_of_mem _ hmem), List.map_cons]
    congr 1
    refine List.map_congr_left fun offset hmem => ?_
    have := hrest.lower offset hmem
    omega

theorem size_of_isReference (h : f.isReference = true) : f.size = 4 := by
  unfold FieldEntry.isReference at h
  unfold FieldEntry.size allocationByteSize
  cases hstatic : f.isStatic <;> cases htype : f.type <;>
    simp_all [byteSizeFor, alignUp]

theorem totalSize_filter_le (q : FieldEntry → Bool) (fields : List FieldEntry) :
    totalSize (fields.filter q) ≤ totalSize fields := by
  induction fields with
  | nil => exact le_rfl
  | cons f fields ih =>
    cases hq : q f <;> simp [hq] <;> omega

theorem totalSize_updatePass (progress : Progress) (fields : List FieldEntry) :
    totalSize (updatePass isStatic currentMax progress fields).2 = totalSize fields := by
  have key : ∀ fields : List FieldEntry, totalSize fields =
      ((fields.map FieldEntry.toDeclaration).map fun declaration =>
        allocationByteSize declaration.type declaration.isStatic).sum := by
    intro fields
    rw [List.map_map]
    rfl
  rw [key, map_updatePass, ← key]

/-- The offsets of a pass go up, and end below the next one. -/
theorem spaced_emitted {limit prev next : ℕ} {fields : List FieldEntry} (hle : prev + 4 ≤ next)
    (hlt : next + totalSize fields < limit) :
    Spaced limit prev (emitted isStatic currentMax next fields) ∧
      (emitted isStatic currentMax next fields).getLast?.getD prev + 4 ≤
        next + totalSize (fields.filter (isDue isStatic currentMax)) := by
  induction fields generalizing prev next with
  | nil => simpa [emitted, Spaced] using hle
  | cons f fields ih =>
    rw [totalSize_cons] at hlt
    cases hdue : isDue isStatic currentMax f with
    | false =>
      rw [emitted_of_not_due hdue, List.filter_cons_of_neg (by simp [hdue])]
      exact ih hle (by omega)
    | true =>
      rw [List.filter_cons_of_pos hdue, totalSize_cons, ← add_assoc]
      cases href : f.isReference with
      | false =>
        rw [emitted_of_not_reference hdue href]
        exact ih (by omega) (by omega)
      | true =>
        have hsize := size_of_isReference href
        rw [emitted_of_reference hdue href, Spaced, List.getLast?_cons, Option.getD_some]
        obtain ⟨hspaced, hlast⟩ := @ih next (next + f.size) (by omega) (by omega)
        exact ⟨⟨hle, by omega, hspaced⟩, hlast⟩

theorem spaced_emittedAll {limit : ℕ} {sizes : List ℕ} {state : Progress × List FieldEntry}
    (hle : prev + 4 ≤ state.1.nextOffset)
    (hlt : state.1.nextOffset + sizes.length * totalSize state.2 < limit) :
    Spaced limit prev (emittedAll isStatic sizes state) := by
  induction sizes generalizing prev state with
  | nil => trivial
  | cons currentMax sizes ih =>
    rw [List.length_cons, add_mul, one_mul] at hlt
    obtain ⟨hspaced, hlast⟩ := @spaced_emitted isStatic currentMax limit prev
      state.1.nextOffset state.2 hle (by omega)
    rw [emittedAll, spaced_append]
    have hnext := @nextOffset_updatePass isStatic currentMax state.1 state.2
    have hfilter := totalSize_filter_le (isDue isStatic currentMax) state.2
    refine ⟨hspaced, ih (by omega) ?_⟩
    rw [totalSize_updatePass]
    omega

/-! ## The references -/

/-- The offsets of the references of one kind, as the entries have them. -/
def storedReferences (isStatic : Bool) (fields : List FieldEntry) : List ℕ :=
  (fields.filter fun f => ofKind isStatic f && f.isReference).map FieldEntry.offset

theorem length_storedReferences (isStatic : Bool) (fields : List FieldEntry) :
    (storedReferences isStatic fields).length =
      (fields.map FieldEntry.toDeclaration).countP fun declaration =>
        decide (declaration.isStatic = isStatic) &&
          (decide (declaration.type = .object) || decide (declaration.type = .array)) := by
  rw [storedReferences, List.length_map, ← List.countP_eq_length_filter, List.countP_map]
  rfl

theorem storedReferences_updatePass {progress : Progress}
    (h : ∀ f ∈ fields, f.isStatic = isStatic → f.isReference = true →
      isDue isStatic currentMax f = true) :
    storedReferences isStatic (updatePass isStatic currentMax progress fields).2 =
      (emitted isStatic currentMax progress.nextOffset fields).map (· % 2 ^ 16) := by
  induction fields generalizing progress with
  | nil => rfl
  | cons f fields ih =>
    have hrest := fun g hg => h g (List.mem_cons_of_mem _ hg)
    unfold storedReferences at ih ⊢
    cases hdue : isDue isStatic currentMax f with
    | false =>
      have hnot : (ofKind isStatic f && f.isReference) = false := by
        rw [Bool.eq_false_iff]
        intro hboth
        simp only [ofKind, Bool.and_eq_true, decide_eq_true_eq] at hboth
        exact absurd (h f List.mem_cons_self hboth.1 hboth.2) (by simp [hdue])
      rw [updatePass_of_not_due hdue, emitted_of_not_due hdue,
        List.filter_cons_of_neg (by simp [hnot])]
      exact ih hrest
    | true =>
      have hkind : ofKind isStatic f = true := decide_eq_true (isDue_offset hdue).2
      rw [updatePass_of_due hdue]
      have hih := @ih (progress.advance f) hrest
      rw [Progress.nextOffset_advance] at hih
      cases href : f.isReference with
      | false =>
        rw [emitted_of_not_reference hdue href, List.filter_cons_of_neg, hih]
        show ¬ (ofKind isStatic f && f.isReference) = true
        simp [href]
      | true =>
        rw [emitted_of_reference hdue href, List.filter_cons_of_pos, List.map_cons, List.map_cons,
          hih]
        show (ofKind isStatic f && f.isReference) = true
        simp [href, hkind]

theorem emitted_eq_nil {next : ℕ}
    (h : ∀ f ∈ fields, isDue isStatic currentMax f = true → f.isReference = false) :
    emitted isStatic currentMax next fields = [] := by
  induction fields generalizing next with
  | nil => rfl
  | cons f fields ih =>
    have hrest := fun g hg => h g (List.mem_cons_of_mem _ hg)
    cases hdue : isDue isStatic currentMax f with
    | false => rw [emitted_of_not_due hdue, ih hrest]
    | true => rw [emitted_of_not_reference hdue (h f List.mem_cons_self hdue), ih hrest]

theorem emitted_ne_nil {next : ℕ} (hf : f ∈ fields)
    (hdue : isDue isStatic currentMax f = true) (href : f.isReference = true) :
    emitted isStatic currentMax next fields ≠ [] := by
  induction fields generalizing next with
  | nil => exact absurd hf List.not_mem_nil
  | cons g fields ih =>
    rw [emitted]
    rcases List.mem_cons.mp hf with rfl | hf
    · simp [hdue, href]
    · split_ifs
      · exact List.cons_ne_nil _ _
      · exact ih hf
      · exact ih hf

theorem emittedAll_ne_nil {sizes : List ℕ} {state : Progress × List FieldEntry} {f : FieldEntry}
    (hf : f ∈ state.2) (hdue : isDue isStatic currentMax f = true) (href : f.isReference = true) :
    emittedAll isStatic (currentMax :: sizes) state ≠ [] := by
  rw [emittedAll]
  exact List.append_ne_nil_of_left_ne_nil (emitted_ne_nil hf hdue href) _

theorem runPasses_of_assigned (sizes : List ℕ) {state : Progress × List FieldEntry}
    (h : ∀ f ∈ state.2, f.isStatic = isStatic → f.isReference = true → f.offset ≠ 0) :
    emittedAll isStatic sizes state = [] ∧
      storedReferences isStatic (runPasses isStatic sizes state).2 =
        storedReferences isStatic state.2 := by
  induction sizes generalizing state with
  | nil => exact ⟨rfl, rfl⟩
  | cons currentMax sizes ih =>
    have hnot : ∀ f ∈ state.2, isDue isStatic currentMax f = true → f.isReference = false := by
      intro f hf hdue
      obtain ⟨hzero, hkind⟩ := isDue_offset hdue
      rw [Bool.eq_false_iff]
      exact fun href => h f hf hkind href hzero
    have hassigned : ∀ g ∈ (updatePass isStatic currentMax state.1 state.2).2,
        g.isStatic = isStatic → g.isReference = true → g.offset ≠ 0 := by
      intro g hg hkind href
      rcases mem_updatePass hg with ⟨hmem, -⟩ | ⟨f, hmem, hdue, heq, -, -⟩
      · exact h g hmem hkind href
      · rw [heq] at href
        exact absurd (show f.isReference = true from href) (by simp [hnot f hmem hdue])
    obtain ⟨hnil, hstored⟩ := ih hassigned
    refine ⟨?_, ?_⟩
    · rw [emittedAll, emitted_eq_nil hnot, hnil, List.append_nil]
    · rw [runPasses_cons, hstored, storedReferences,
        filter_updatePass (fun f offset => rfl) fun f hf hdue => by simp [hnot f hf hdue]]
      rfl

/-- The offsets of the pass of the words are multiples of four. -/
theorem dvd_emitted {next : ℕ} (hnext : 4 ∣ next)
    (h : ∀ f ∈ fields, isDue isStatic currentMax f = true → 4 ∣ f.size) :
    ∀ offset ∈ emitted isStatic currentMax next fields, 4 ∣ offset := by
  induction fields generalizing next with
  | nil => simp [emitted]
  | cons f fields ih =>
    have hrest := fun g hg => h g (List.mem_cons_of_mem _ hg)
    cases hdue : isDue isStatic currentMax f with
    | false =>
      rw [emitted_of_not_due hdue]
      exact ih hnext hrest
    | true =>
      have ih := ih (dvd_add hnext (h f List.mem_cons_self hdue)) hrest
      cases href : f.isReference with
      | false =>
        rw [emitted_of_not_reference hdue href]
        exact ih
      | true =>
        rw [emitted_of_reference hdue href]
        exact List.forall_mem_cons.mpr ⟨hnext, ih⟩

end Emitted

/-! ## The map of a class -/

/-- The offsets of the references among the fields of a word or two, laid out one after the
other. -/
def referenceOffsets : ℕ → List FieldEntry → List ℕ
  | _, [] => []
  | next, field :: fields =>
    if inPass false 4 field then
      if field.isReference then next :: referenceOffsets (next + field.size) fields
      else referenceOffsets (next + field.size) fields
    else referenceOffsets next fields

section Class

variable (super : Option SuperClass) (declarations : List Declaration)

/-- The walkers find the references of the superclasses and of the class, each once, and stop at
the terminator. -/
def RoundTrips : Prop :=
  ∃ offsets, walk 0 ((parseClass super declarations).nonstaticOopMap ++
        (parseClass super declarations).staticOopMap) =
      some (offsets, (parseClass super declarations).staticOopMap) ∧
    offsets.Perm (mapOffsets 0 (inheritedMap super) ++
      storedReferences false (parseClass super declarations).fields) ∧
    offsets.Nodup

/-- The state before the passes. -/
def initialState : Progress × List FieldEntry :=
  (⟨firstNonstaticOffset super, prevNonstaticOopOffset super, []⟩, parseFields declarations)

theorem lastNonstaticOopOffset_eq (map : List UInt8) (oopOffset : ℕ) :
    map.foldl (fun oopOffset value => oopOffset + value.toNat * 4) oopOffset =
      oopOffset + 4 * mapWords map + 4 * map.count 0x80 := by
  induction map generalizing oopOffset with
  | nil => rfl
  | cons entry map ih =>
    rw [List.foldl_cons, ih, mapWords_cons, List.count_cons]
    by_cases hescape : entry = 0x80
    · subst hescape
      simp only [if_true, beq_self_eq_true, show (0x80 : UInt8).toNat = 128 from rfl]
      omega
    · simp only [hescape, if_false, beq_iff_eq]
      omega

/-- `last_nonstatic_oop_offset` counts one word too many for each escape byte. -/
theorem prevNonstaticOopOffset_eq : prevNonstaticOopOffset super =
    4 * mapWords (inheritedMap super) + 4 * (inheritedMap super).count 0x80 := by
  cases super with
  | none => rfl
  | some super =>
    have := lastNonstaticOopOffset_eq super.oopMap 0
    rw [zero_add] at this
    exact this

theorem inheritedMap_lt : 4 * mapWords (inheritedMap super) < firstNonstaticOffset super := by
  cases super with
  | none => decide
  | some super => exact super.inInstance

theorem firstNonstaticOffset_le : firstNonstaticOffset super ≤ 0x7FFF := by
  cases super with
  | none => decide
  | some super => exact super.size_le

theorem count_escape_le (map : List UInt8) : 127 * map.count 0x80 ≤ mapWords map := by
  induction map with
  | nil => exact le_rfl
  | cons entry map ih =>
    rw [mapWords_cons, List.count_cons]
    by_cases hescape : entry = 0x80
    · simp only [hescape, if_true, beq_self_eq_true]
      omega
    · simp only [hescape, if_false, beq_iff_eq]
      omega

theorem nonstaticOopMap_parseClass : (parseClass super declarations).nonstaticOopMap =
    inheritedMap super ++ (updateNonstatic super declarations).1.map ++ [0] := by
  have hsize : inheritedMapSize super = (inheritedMap super).length + 1 := by
    cases super <;> rfl
  show List.take _ _ = _
  refine List.take_of_length_le ?_
  rw [hsize]
  simp only [List.length_append, List.length_singleton]
  omega

theorem walk_parseClass (rest : List UInt8) :
    walk 0 ((parseClass super declarations).nonstaticOopMap ++ rest) =
      (walk (4 * mapWords (inheritedMap super))
        ((deltas (prevNonstaticOopOffset super) (emittedAll false (passes false)
          (initialState super declarations))).flatMap encodeDelta ++ 0 :: rest)).map
        fun (offsets, rest) => (mapOffsets 0 (inheritedMap super) ++ offsets, rest) := by
  have hpos : ∀ entry ∈ inheritedMap super, 0 < entry.toNat := by
    cases super with
    | none => simp [inheritedMap]
    | some super => exact super.entry_pos
  have hle : ∀ entry ∈ inheritedMap super, entry.toNat ≤ 0x80 := by
    cases super with
    | none => simp [inheritedMap]
    | some super => exact super.entry_le
  have hmap : (updateNonstatic super declarations).1.map = _ :=
    oopMap_runPasses (passes false) (initialState super declarations)
  rw [nonstaticOopMap_parseClass, List.append_assoc, List.append_assoc, walk_map hpos hle, hmap,
    zero_add]
  rfl

/-- The state after the pass of the words. -/
def wordState : Progress × List FieldEntry :=
  updatePass false 4 (initialState super declarations).1 (initialState super declarations).2

theorem isDue_parseFields (hf : f ∈ parseFields declarations) :
    isDue false 4 f = inPass false 4 f := by
  refine @isDue_eq_inPass false 4 [2, 1] _ List.suffix_rfl ?_ f hf
  intro g hg hkind
  have := passOf_mem g
  rw [hkind] at this
  exact iff_of_true (offset_of_mem_parseFields declarations hg) this

theorem emitted_parseFields (next : ℕ) : emitted false 4 next (parseFields declarations) =
      referenceOffsets next (parseFields declarations) := by
  have key : ∀ fields : List FieldEntry, (∀ f ∈ fields, isDue false 4 f = inPass false 4 f) →
      ∀ next, emitted false 4 next fields = referenceOffsets next fields := by
    intro fields h
    induction fields with
    | nil => exact fun _ => rfl
    | cons f fields ih =>
      intro next
      have hrest := ih fun g hg => h g (List.mem_cons_of_mem _ hg)
      rw [emitted, referenceOffsets, h f List.mem_cons_self, hrest, hrest]
  exact key _ (fun f hf => isDue_parseFields declarations hf) next

theorem emittedAll_initialState :
    emittedAll false (passes false) (initialState super declarations) =
      referenceOffsets (firstNonstaticOffset super) (parseFields declarations) ++
        emittedAll false [2, 1] (wordState super declarations) := by
  rw [← emitted_parseFields]
  rfl

theorem storedReferences_parseClass :
    storedReferences false (parseClass super declarations).fields =
      storedReferences false (runPasses false [2, 1] (wordState super declarations)).2 := by
  have hfilter := filter_updateStatic super declarations
  have key : ∀ fields : List FieldEntry, storedReferences false fields =
      ((fields.filter (ofKind false)).filter FieldEntry.isReference).map FieldEntry.offset := by
    intro fields
    rw [storedReferences, List.filter_filter]
    simp only [Bool.and_comm]
  have hsame : (updateNonstatic super declarations).2 =
      (runPasses false [2, 1] (wordState super declarations)).2 := rfl
  rw [key, ← hsame, key, ← hfilter]
  rfl

theorem storedReferences_wordState : storedReferences false (wordState super declarations).2 =
    (referenceOffsets (firstNonstaticOffset super) (parseFields declarations)).map
      (· % 2 ^ 16) := by
  rw [← emitted_parseFields]
  refine storedReferences_updatePass fun f hf hkind href => ?_
  rw [isDue_parseFields declarations hf]
  simp [inPass, passOf, hkind, size_of_isReference href]

theorem length_storedReferences_parseClass :
    (storedReferences false (parseClass super declarations).fields).length =
      (referenceOffsets (firstNonstaticOffset super) (parseFields declarations)).length := by
  have h := congrArg List.length (storedReferences_wordState super declarations)
  rw [List.length_map] at h
  rw [storedReferences_parseClass, ← h, length_storedReferences, length_storedReferences,
    map_runPasses]

theorem lt_of_mem_storedReferences
    (h : offset ∈ storedReferences false (parseClass super declarations).fields) :
    offset < 2 ^ 16 := by
  rw [storedReferences_parseClass] at h
  obtain ⟨f, hf, rfl⟩ := List.mem_map.mp h
  have hword : ∀ g ∈ (wordState super declarations).2, g.offset < 2 ^ 16 :=
    offset_lt_runPasses [4] fun g hg => by
      rw [offset_of_mem_parseFields declarations hg]
      norm_num
  exact offset_lt_runPasses [2, 1] hword f (List.mem_of_mem_filter hf)

variable {declarations}

theorem totalSize_parseFields_lt (hlength : declarations.length < 2 ^ 16) :
    totalSize (parseFields declarations) < 2 ^ 19 := by
  have key : ∀ fields : List FieldEntry, totalSize fields ≤ 8 * fields.length := by
    intro fields
    induction fields with
    | nil => exact le_rfl
    | cons f fields ih =>
      have := f.size_cases
      rw [totalSize_cons, List.length_cons]
      omega
  have := key (parseFields declarations)
  rw [parseFields, List.length_map] at this
  rw [parseFields]
  omega

theorem spaced_initialState (hlength : declarations.length < 2 ^ 16) :
    Spaced (2 ^ 32) (firstNonstaticOffset super - 4)
      (referenceOffsets (firstNonstaticOffset super) (parseFields declarations) ++
        emittedAll false [2, 1] (wordState super declarations)) := by
  have hpos := firstNonstaticOffset_pos super
  have hdvd := four_dvd_firstNonstaticOffset super
  have hle := firstNonstaticOffset_le super
  have htotal := totalSize_parseFields_lt hlength
  rw [← emittedAll_initialState]
  refine spaced_emittedAll ?_ ?_
  · show firstNonstaticOffset super - 4 + 4 ≤ firstNonstaticOffset super
    omega
  · show firstNonstaticOffset super + 3 * totalSize (parseFields declarations) < 2 ^ 32
    omega

theorem dvd_referenceOffsets :
    ∀ offset ∈ referenceOffsets (firstNonstaticOffset super) (parseFields declarations),
      4 ∣ offset := by
  rw [← emitted_parseFields]
  refine dvd_emitted (four_dvd_firstNonstaticOffset super) fun f hf hdue => ?_
  rw [isDue_parseFields declarations hf] at hdue
  exact (alignment_dvd_unit hdue).2

theorem le_of_mem_referenceOffsets (hlength : declarations.length < 2 ^ 16)
    (h : offset ∈ referenceOffsets (firstNonstaticOffset super) (parseFields declarations)) :
    firstNonstaticOffset super ≤ offset := by
  have hspaced := ((spaced_append _ _ _ _).mp (spaced_initialState super hlength)).1
  have := hspaced.lower offset h
  have hdvd := dvd_referenceOffsets super offset h
  have hfirst := four_dvd_firstNonstaticOffset super
  omega

theorem mapOffsets_pairwise (base : ℕ) (map : List UInt8) (hpos : ∀ entry ∈ map, 0 < entry.toNat) :
    (mapOffsets base map).Pairwise (· < ·) ∧
      ∀ offset ∈ mapOffsets base map, base < offset ∧ offset ≤ base + 4 * mapWords map := by
  induction map generalizing base with
  | nil => simp [mapOffsets]
  | cons entry map ih =>
    have ih := fun base => ih base fun e he => hpos e (List.mem_cons_of_mem _ he)
    have hentry := hpos entry List.mem_cons_self
    rw [mapOffsets, mapWords_cons]
    by_cases hescape : entry = 0x80
    · rw [if_pos hescape, if_pos hescape]
      obtain ⟨hpair, hbound⟩ := ih (base + 508)
      refine ⟨hpair, fun offset hmem => ?_⟩
      have := hbound offset hmem
      omega
    · rw [if_neg hescape, if_neg hescape]
      obtain ⟨hpair, hbound⟩ := ih (base + 4 * entry.toNat)
      refine ⟨List.pairwise_cons.mpr ⟨fun offset hmem => (hbound offset hmem).1, hpair⟩, ?_⟩
      intro offset hmem
      rcases List.mem_cons.mp hmem with rfl | hmem
      · omega
      · have := hbound offset hmem
        omega

/-- Without an escape byte in the inherited map, and with all the offsets below the limit, the
map is right. -/
theorem roundTrips_of_lt (hlength : declarations.length < 2 ^ 16)
    (hescape : referenceOffsets (firstNonstaticOffset super) (parseFields declarations) = [] ∨
      0x80 ∉ inheritedMap super)
    (hlt : ∀ offset ∈ referenceOffsets (firstNonstaticOffset super) (parseFields declarations),
      offset < 2 ^ 16) : RoundTrips super declarations := by
  set references := referenceOffsets (firstNonstaticOffset super) (parseFields declarations)
    with hreferences
  have hpos := firstNonstaticOffset_pos super
  have hinherited := inheritedMap_lt super
  have hfirst := four_dvd_firstNonstaticOffset super
  have hle : ∀ offset ∈ references, firstNonstaticOffset super ≤ offset := fun offset =>
    le_of_mem_referenceOffsets super hlength
  have hspaced := ((spaced_append _ _ _ _).mp (spaced_initialState super hlength)).1
  rw [← hreferences] at hspaced
  -- The references keep the offsets of the first pass.
  have hword : storedReferences false (wordState super declarations).2 = references := by
    rw [storedReferences_wordState, ← hreferences]
    conv_rhs => rw [← List.map_id references]
    exact List.map_congr_left fun offset hmem => Nat.mod_eq_of_lt (hlt offset hmem)
  have hassigned : ∀ f ∈ (wordState super declarations).2, f.isStatic = false →
      f.isReference = true → f.offset ≠ 0 := by
    intro f hf hkind href
    have hmem : f.offset ∈ storedReferences false (wordState super declarations).2 :=
      List.mem_map_of_mem (List.mem_filter.mpr ⟨hf, by simp [ofKind, hkind, href]⟩)
    rw [hword] at hmem
    have := hle _ hmem
    omega
  obtain ⟨hnil, hstored⟩ := runPasses_of_assigned [2, 1] hassigned
  rw [hword, ← storedReferences_parseClass] at hstored
  -- The bytes lead from each reference to the next one.
  have hwalk : walk (4 * mapWords (inheritedMap super))
      ((deltas (prevNonstaticOopOffset super) references).flatMap encodeDelta ++
        0 :: (parseClass super declarations).staticOopMap) =
      some (references, (parseClass super declarations).staticOopMap) := by
    rcases hescape with hempty | hescape
    · rw [hempty]
      exact walk_zero _ _
    · have hprev := prevNonstaticOopOffset_eq super
      rw [List.count_eq_zero_of_not_mem hescape, mul_zero, add_zero] at hprev
      rw [hprev]
      have hfrom : Spaced (2 ^ 32) (4 * mapWords (inheritedMap super)) references := by
        cases hcases : references with
        | nil => trivial
        | cons offset offsets =>
          rw [hcases] at hspaced hle
          have := hle offset List.mem_cons_self
          exact ⟨by omega, hspaced.2⟩
      rw [walk_deltas hfrom.deltas_pos, partialSums_deltas hfrom (dvd_mul_right _ _)
        (dvd_referenceOffsets super)]
      congr 2
      conv_rhs => rw [← List.map_id references]
      refine List.map_congr_left fun offset hmem => ?_
      have := hfrom.lower offset hmem
      simp only [id]
      omega
  refine ⟨mapOffsets 0 (inheritedMap super) ++ references, ?_, ?_, ?_⟩
  · rw [walk_parseClass, emittedAll_initialState, hnil, List.append_nil, hwalk]
    rfl
  · rw [hstored]
  · have hentry : ∀ entry ∈ inheritedMap super, 0 < entry.toNat := by
      cases super with
      | none => simp [inheritedMap]
      | some super => exact super.entry_pos
    obtain ⟨hpair, hbound⟩ := mapOffsets_pairwise 0 (inheritedMap super) hentry
    have hall : (mapOffsets 0 (inheritedMap super) ++ references).Pairwise (· < ·) := by
      refine List.pairwise_append.mpr ⟨hpair, hspaced.pairwise, fun x hx y hy => ?_⟩
      have := hbound x hx
      have := hle y hy
      omega
    exact hall.imp fun h => ne_of_lt h

/-- With a reference in the class, a right map needs both conditions. -/
theorem lt_of_roundTrips (hlength : declarations.length < 2 ^ 16)
    (h : RoundTrips super declarations)
    (hne : referenceOffsets (firstNonstaticOffset super) (parseFields declarations) ≠ []) :
    0x80 ∉ inheritedMap super ∧
      ∀ offset ∈ referenceOffsets (firstNonstaticOffset super) (parseFields declarations),
        offset < 2 ^ 16 := by
  set references := referenceOffsets (firstNonstaticOffset super) (parseFields declarations)
    with hreferences
  set others := emittedAll false [2, 1] (wordState super declarations) with hothers
  set prev := prevNonstaticOopOffset super with hprevDef
  have hprev : prev = _ := prevNonstaticOopOffset_eq super
  have hcount := count_escape_le (inheritedMap super)
  have hinherited := inheritedMap_lt super
  have hfirst := four_dvd_firstNonstaticOffset super
  have hfirstLe := firstNonstaticOffset_le super
  have hle : ∀ offset ∈ references, firstNonstaticOffset super ≤ offset := fun offset =>
    le_of_mem_referenceOffsets super hlength
  have hdvd : ∀ offset ∈ references, 4 ∣ offset := dvd_referenceOffsets super
  have hspaced := spaced_initialState super hlength
  rw [← hreferences, ← hothers] at hspaced
  have hlengthStored := length_storedReferences_parseClass super declarations
  rw [← hreferences] at hlengthStored
  obtain ⟨found, hwalk, hperm, -⟩ := h
  rw [walk_parseClass, emittedAll_initialState, ← hreferences, ← hothers, ← hprevDef] at hwalk
  obtain ⟨first, offsets, hcons⟩ := List.exists_cons_of_ne_nil hne
  rw [hcons, List.cons_append] at hspaced
  obtain ⟨-, hfirstLt, htail⟩ := hspaced
  have hfirstMem : first ∈ references := by simp [hcons]
  have hfirstDvd := hdvd first hfirstMem
  have hfirstGe := hle first hfirstMem
  -- A first distance of zero is a terminator.
  by_cases heq : prev = first
  · exfalso
    have hzero : wordDelta first prev = 0 := by
      rw [wordDelta_of_lt (by omega) hfirstLt]
      omega
    rw [hcons, List.cons_append, deltas, hzero, List.flatMap_cons, encodeDelta_zero,
      List.singleton_append, List.cons_append, walk_zero] at hwalk
    obtain ⟨rfl, -⟩ := Prod.mk.inj (Option.some.inj hwalk)
    have hlen := hperm.length_eq
    rw [List.length_append, List.length_append, hlengthStored, hcons] at hlen
    simp at hlen
  -- The other distances are positive, so the walkers read them all.
  have hfirstDelta : 0 < wordDelta first prev ∧
      (first < prev → 2 ^ 16 ≤ 4 * wordDelta first prev) := by
    unfold wordDelta
    rcases Nat.lt_or_gt_of_ne heq with hlt | hgt
    · rw [Int.tdiv_eq_ediv_of_nonneg (by omega)]
      omega
    · rw [Int.tdiv_eq_ediv_of_dvd (by omega)]
      omega
  have hpos : ∀ delta ∈ deltas prev (references ++ others), 0 < delta := by
    rw [hcons, List.cons_append, deltas]
    exact List.forall_mem_cons.mpr ⟨hfirstDelta.1, htail.deltas_pos⟩
  rw [walk_deltas hpos, Option.map_some] at hwalk
  obtain ⟨rfl, -⟩ := Prod.mk.inj (Option.some.inj hwalk)
  have hperm := (List.perm_append_left_iff _).mp hperm
  -- As many references as there are distances: none has been placed twice.
  have hothersNil : others = [] := by
    have hlen := hperm.length_eq
    have hdeltas : ∀ (l : List ℕ) (prev : ℕ), (deltas prev l).length = l.length := by
      intro l
      induction l with
      | nil => exact fun _ => rfl
      | cons offset l ih => exact fun prev => congrArg (· + 1) (ih offset)
    rw [length_partialSums, hdeltas, hlengthStored, List.length_append] at hlen
    exact List.eq_nil_of_length_eq_zero (by omega)
  have hassigned : ∀ f ∈ (wordState super declarations).2, f.isStatic = false →
      f.isReference = true → f.offset ≠ 0 := by
    intro f hf hkind href hzero
    refine @emittedAll_ne_nil false 2 [1] _ f hf ?_ href hothersNil
    simp [isDue, hzero, hkind, size_of_isReference href]
  have hstored := (runPasses_of_assigned [2, 1] hassigned).2
  rw [storedReferences_wordState, ← storedReferences_parseClass, ← hreferences] at hstored
  rw [hothersNil, List.append_nil] at hperm htail
  have hlt : ∀ offset ∈ partialSums (4 * mapWords (inheritedMap super)) (deltas prev references),
      offset < 2 ^ 16 := fun offset hmem =>
    lt_of_mem_storedReferences super declarations (hperm.subset hmem)
  have hge : prev < first := by
    by_contra hnot
    have := hlt _ (by rw [hcons, deltas, partialSums]; exact List.mem_cons_self)
    have := hfirstDelta.2 (by omega)
    omega
  have hprevDvd : 4 ∣ prev := by omega
  have hfrom : Spaced (2 ^ 32) prev references := by
    rw [hcons]
    exact ⟨by omega, hfirstLt, htail⟩
  rw [partialSums_deltas hfrom hprevDvd hdvd] at hlt hperm
  have hlt : ∀ offset ∈ references,
      4 * mapWords (inheritedMap super) + (offset - prev) < 2 ^ 16 := fun offset hmem =>
    hlt _ (List.mem_map_of_mem hmem)
  have hescape : (inheritedMap super).count 0x80 = 0 := by
    by_contra hpositive
    -- The walkers find the first reference below its place, where no reference is.
    have hmem := hperm.subset (List.mem_map_of_mem hfirstMem)
    rw [hstored] at hmem
    obtain ⟨offset, hoffset, hvalue⟩ := List.mem_map.mp hmem
    have := hlt offset hoffset
    have hup : first ≤ offset := by
      rw [hcons] at hoffset
      rcases List.mem_cons.mp hoffset with rfl | hoffset
      · exact le_rfl
      · exact (htail.lower offset hoffset).le
    have hvalue : offset % 2 ^ 16 = 4 * mapWords (inheritedMap super) + (first - prev) := hvalue
    rcases Nat.lt_or_ge offset (2 ^ 16) with hsmall | hlarge
    · rw [Nat.mod_eq_of_lt hsmall] at hvalue
      omega
    · have hmod : offset % 2 ^ 16 = offset - 2 ^ 16 := by omega
      omega
  refine ⟨List.count_eq_zero.mp hescape, fun offset hmem => ?_⟩
  have := hlt offset hmem
  have := hfrom.lower offset hmem
  omega

/-- **Main theorem**: when the walkers find every reference of the class and of its superclasses
once, and nothing else. -/
theorem oopMap_roundTrips_iff (hlength : declarations.length < 2 ^ 16) :
    RoundTrips super declarations ↔
      referenceOffsets (firstNonstaticOffset super) (parseFields declarations) = [] ∨
        0x80 ∉ inheritedMap super ∧
          ∀ offset ∈ referenceOffsets (firstNonstaticOffset super) (parseFields declarations),
            offset < 2 ^ 16 := by
  constructor
  · intro h
    rw [or_iff_not_imp_left]
    exact lt_of_roundTrips super hlength h
  · rintro (hempty | ⟨hescape, hlt⟩)
    · refine roundTrips_of_lt super hlength (.inl hempty) fun offset hmem => ?_
      rw [hempty] at hmem
      exact absurd hmem List.not_mem_nil
    · exact roundTrips_of_lt super hlength (.inr hescape) hlt

end Class

/-! ## Below an escape byte -/

def anInt : Declaration := ⟨false, .int, staticInt.type_ne⟩

def anObject : Declaration := ⟨false, .object, by decide⟩

/-- What a class inherits from one that declares 128 fields of type `int` and then a reference. -/
def farReference : SuperClass where
  instanceSize := 520
  oopMap := [0x80, 2]
  size_pos := by decide
  size_le := by decide
  size_aligned := by decide
  entry_pos := by simp
  entry_le := by simp
  last_ne := by decide
  inInstance := by decide

/-- A class with one reference and no superclass is right. -/
theorem roundTrips_anObject : RoundTrips none [anObject] :=
  (oopMap_roundTrips_iff none (by decide)).mpr (.inr (by decide))

set_option maxRecDepth 4000 in
/-- The class with 128 integers and a reference has the size and the map of `farReference`, and
a class that extends it with a reference has a map that ends before that reference. -/
theorem not_roundTrips_extended :
    (parseClass none (List.replicate 128 anInt ++ [anObject])).instanceSize =
        farReference.instanceSize ∧
      (parseClass none (List.replicate 128 anInt ++ [anObject])).nonstaticOopMap =
        farReference.oopMap ++ [0] ∧
      ¬ RoundTrips (some farReference) [anObject] := by
  refine ⟨by decide, ?_, fun h => ?_⟩
  · have hmap : (updateNonstatic none (List.replicate 128 anInt ++ [anObject])).1.map =
        [129].flatMap encodeDelta :=
      oopMap_runPasses [4, 2, 1] (initialState none (List.replicate 128 anInt ++ [anObject]))
    have hfar : encodeDelta 129 = [0x80, 2] := by
      rw [encodeDelta, if_pos (by decide), encodeDelta, if_neg (by decide)]
      rfl
    rw [nonstaticOopMap_parseClass, hmap, List.flatMap_singleton, hfar]
    rfl
  · have hescape := (lt_of_roundTrips (some farReference) (by decide) h (by decide)).1
    exact hescape (by decide)

end CldcVm.Layout
