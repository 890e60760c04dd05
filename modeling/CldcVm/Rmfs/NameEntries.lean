import CldcVm.Lib.Tiling
import CldcVm.Rmfs.NameTable

/-!
# The entities of the name table

The entities tile the name table, live ones and holes, and every name is there once.

Results: `searchNameTabByString_eq`, `searchNameTabByID_eq`: the lookups find the first
entity; `TableAt.setIdentifier`, `TableAt.cons`: an identifier is changed, an entity is
added.
-/

namespace CldcVm.Rmfs

open Lib

/-- An entity; a hole has the identifier 0. -/
structure Entity where
  name : FileName
  identifier : ℕ
deriving DecidableEq

/-- The length of an entity with its header. -/
def Entity.length (e : Entity) : ℕ := nameHdrSize + paddedLength e.name.bytes

/-- There is an entity at `p`. -/
structure EntityAt (m : Memory) (p : ℕ) (e : Entity) : Prop where
  nameLen : nameLenAt m p = paddedLength e.name.bytes
  identifier : identifierAt m p = e.identifier
  name : Holds m (p + nameHdrSize) (e.name.bytes ++ [0])

/-- The entities tile the name table. -/
abbrev TableAt (s : Storage) (es : List Entity) : Prop :=
  Tiles Entity.length (EntityAt s.mem) s.nameTableEnd es s.memoryEnd

variable {s : Storage} {m m' : Memory} {p q n e fuel curLength : ℕ} {es l r : List Entity}
variable {f : FileName} {a b : List Byte} {x : Entity}

/-! ## Strings -/

theorem FileName.ext_bytes {f g : FileName} (h : f.bytes = g.bytes) : f = g := by
  cases f
  cases g
  cases h
  rfl

theorem length_lt_paddedLength (a : List Byte) : a.length < paddedLength a := by
  unfold paddedLength
  omega

theorem paddedLength_le (a : List Byte) : paddedLength a ≤ a.length + 4 := by
  unfold paddedLength
  omega

theorem lastNameLen_eq (x : Entity) : lastNameLen x.name.bytes = x.length := by
  unfold lastNameLen Entity.length paddedLength nameHdrSize
  simp only
  split_ifs <;> omega

theorem Entity.length_gt (x : Entity) : nameHdrSize < x.length := by
  have h := length_lt_paddedLength x.name.bytes
  unfold Entity.length
  omega

theorem Entity.length_pos (x : Entity) : 0 < x.length := (Nat.zero_le _).trans_lt x.length_gt

theorem sameString_iff : sameString m p a = true ↔ Holds m p (a ++ [0]) := by
  induction a generalizing p with
  | nil =>
    rw [sameString, List.nil_append, holds_cons, beq_iff_eq]
    exact (and_iff_left holds_nil).symm
  | cons c a ih => rw [sameString, Bool.and_eq_true, beq_iff_eq, ih, List.cons_append, holds_cons]

theorem Holds.string_unique (ha : ∀ c ∈ a, c ≠ 0) (hb : ∀ c ∈ b, c ≠ 0)
    (h : Holds m p (a ++ [0])) (h' : Holds m p (b ++ [0])) : a = b := by
  induction a generalizing p b with
  | nil =>
    cases b with
    | nil => rfl
    | cons d b =>
      have hzero := (holds_cons.mp h).1
      have hd := (holds_cons.mp h').1
      exact (hb d List.mem_cons_self (hd.symm.trans hzero)).elim
  | cons c a ih =>
    obtain ⟨hc, hrest⟩ := holds_cons.mp h
    cases b with
    | nil =>
      have hzero := (holds_cons.mp h').1
      exact (ha c List.mem_cons_self (hc.symm.trans hzero)).elim
    | cons d b =>
      obtain ⟨hd, hrest'⟩ := holds_cons.mp h'
      rw [ih (fun x hx => ha x (List.mem_cons_of_mem _ hx))
        (fun x hx => hb x (List.mem_cons_of_mem _ hx)) hrest hrest', hc.symm.trans hd]

theorem stringAt_eq (ha : ∀ c ∈ a, c ≠ 0) (h : Holds m p (a ++ [0])) (hfuel : a.length < fuel) :
    stringAt m p fuel = a := by
  induction a generalizing p fuel with
  | nil =>
    obtain ⟨fuel, rfl⟩ := Nat.exists_eq_succ_of_ne_zero (Nat.ne_of_gt hfuel)
    exact if_pos (holds_cons.mp h).1
  | cons c a ih =>
    obtain ⟨hc, hrest⟩ := holds_cons.mp h
    obtain ⟨fuel, rfl⟩ :=
      Nat.exists_eq_succ_of_ne_zero (Nat.ne_of_gt ((Nat.zero_le _).trans_lt hfuel))
    rw [stringAt, hc, if_neg (ha c List.mem_cons_self),
      ih (fun x hx => ha x (List.mem_cons_of_mem _ hx)) hrest (Nat.lt_of_succ_lt_succ hfuel)]

theorem EntityAt.sameString_iff (h : EntityAt m p x) :
    sameString m (p + nameHdrSize) f.bytes = true ↔ x.name = f := by
  rw [Rmfs.sameString_iff]
  refine ⟨fun hf => FileName.ext_bytes ?_, fun hf => hf ▸ h.name⟩
  exact Holds.string_unique x.name.nonzero f.nonzero h.name hf

/-! ## Lookup -/

/-- The first entity with a property, and where it is. -/
def firstEntity (p : ℕ) (es : List Entity) (P : Entity → Bool) : Option (ℕ × Entity) :=
  (placed Entity.length p es).find? fun y => P y.2

theorem firstEntity_cons (P : Entity → Bool) : firstEntity p (x :: es) P =
    if P x = true then some (p, x) else firstEntity (p + x.length) es P := by
  rw [firstEntity, placed, List.find?_cons]
  cases P x <;> rfl

/-- What a round of a lookup sees. -/
structure Round (s : Storage) (curLength : ℕ) (x : Entity) (es : List Entity) : Prop where
  entity : EntityAt s.mem (s.nameTableEnd + curLength) x
  next : curLength + nameHdrSize + nameLenAt s.mem (s.nameTableEnd + curLength) =
    curLength + x.length
  inside : curLength + x.length ≤ s.tabLength
  last : es = [] → s.tabLength = curLength + x.length
  rest : ∀ y es', es = y :: es' → curLength + x.length + nameHdrSize < s.tabLength ∧
    Tiles Entity.length (EntityAt s.mem) (s.nameTableEnd + (curLength + x.length)) (y :: es')
      s.memoryEnd

theorem round_of_tiles
    (h : Tiles Entity.length (EntityAt s.mem) (s.nameTableEnd + curLength) (x :: es) s.memoryEnd) :
    Round s curLength x es := by
  obtain ⟨hat, hrest⟩ := h
  have hend := Tiles.end_eq hrest
  refine ⟨hat, ?_, ?_, ?_, ?_⟩
  · rw [hat.nameLen]
    exact add_assoc _ _ _
  · unfold Storage.tabLength
    omega
  · rintro rfl
    rw [totalLength_nil] at hend
    unfold Storage.tabLength
    omega
  · rintro y es' rfl
    have hlength := y.length_gt
    rw [totalLength_cons] at hend
    rw [add_assoc] at hrest
    refine ⟨?_, hrest⟩
    unfold Storage.tabLength
    omega

theorem searchStringFrom_eq (hfuel : es.length < fuel)
    (h : Tiles Entity.length (EntityAt s.mem) (s.nameTableEnd + curLength) (x :: es) s.memoryEnd) :
    s.searchStringFrom f fuel curLength =
      (firstEntity (s.nameTableEnd + curLength) (x :: es) fun y => y.name = f).map
        fun y => (y.1, y.2.identifier) := by
  induction fuel generalizing curLength x es with
  | zero => exact absurd hfuel (Nat.not_lt_zero _)
  | succ fuel ih =>
    obtain ⟨hat, hnext, hinside, hlast, hrest⟩ := round_of_tiles h
    rw [Storage.searchStringFrom, firstEntity_cons]
    simp only [hnext, decide_eq_true_eq]
    rw [if_neg (Nat.not_lt.mpr hinside)]
    by_cases hname : x.name = f
    · rw [if_pos (hat.sameString_iff.mpr hname), if_pos hname, hat.identifier]
      rfl
    · rw [if_neg (fun h => hname (hat.sameString_iff.mp h)), if_neg hname]
      cases es with
      | nil =>
        rw [if_pos (hlast rfl ▸ Nat.lt_add_of_pos_right (Nat.succ_pos 7))]
        rfl
      | cons y es =>
        obtain ⟨hlt, htiles⟩ := hrest y es rfl
        rw [if_neg (Nat.not_lt.mpr hlt.le), add_assoc]
        exact ih (Nat.lt_of_succ_lt_succ hfuel) htiles

variable {identifier : ℕ}

theorem searchIDFrom_eq (hfuel : es.length < fuel)
    (h : Tiles Entity.length (EntityAt s.mem) (s.nameTableEnd + curLength) (x :: es) s.memoryEnd) :
    s.searchIDFrom identifier fuel curLength =
      (firstEntity (s.nameTableEnd + curLength) (x :: es) fun y => y.identifier = identifier).map
        fun y => (y.1, y.2.name.bytes) := by
  induction fuel generalizing curLength x es with
  | zero => exact absurd hfuel (Nat.not_lt_zero _)
  | succ fuel ih =>
    obtain ⟨hat, hnext, hinside, hlast, hrest⟩ := round_of_tiles h
    rw [Storage.searchIDFrom, firstEntity_cons]
    simp only [hnext, decide_eq_true_eq]
    rw [if_neg (Nat.not_lt.mpr hinside), hat.identifier]
    by_cases hidentifier : x.identifier = identifier
    · have hlength : x.name.bytes.length < s.memoryEnd - (s.nameTableEnd + curLength) := by
        have hpadded := length_lt_paddedLength x.name.bytes
        have hx : x.length = nameHdrSize + paddedLength x.name.bytes := rfl
        unfold Storage.tabLength at hinside
        omega
      rw [if_pos hidentifier, if_pos hidentifier, stringAt_eq x.name.nonzero hat.name hlength]
      rfl
    · rw [if_neg hidentifier, if_neg hidentifier]
      cases es with
      | nil =>
        rw [if_pos (hlast rfl ▸ Nat.le_add_right _ _)]
        rfl
      | cons y es =>
        obtain ⟨hlt, htiles⟩ := hrest y es rfl
        rw [if_neg (Nat.not_le.mpr hlt), add_assoc]
        exact ih (Nat.lt_of_succ_lt_succ hfuel) htiles

theorem TableAt.memoryEnd_eq (h : TableAt s es) :
    s.memoryEnd = s.nameTableEnd + totalLength Entity.length es := Tiles.end_eq h

theorem TableAt.tabLength_eq (h : TableAt s es) : s.tabLength = totalLength Entity.length es := by
  rw [Storage.tabLength, h.memoryEnd_eq, Nat.add_sub_cancel_left]

theorem TableAt.cons_bounds (h : TableAt s (x :: es)) :
    ¬s.tabLength < nameHdrSize ∧ es.length < s.tabLength := by
  have hlength := x.length_gt
  have hle := length_le_totalLength Entity.length_pos es
  rw [h.tabLength_eq, totalLength_cons]
  omega

/-- **Spec lemma**: the lookup by name. -/
theorem searchNameTabByString_eq (h : TableAt s es) : s.searchNameTabByString f =
    (firstEntity s.nameTableEnd es fun y => y.name = f).map fun y => (y.1, y.2.identifier) := by
  unfold Storage.searchNameTabByString
  cases es with
  | nil =>
    rw [if_pos (h.tabLength_eq ▸ Nat.succ_pos 7)]
    rfl
  | cons x es =>
    obtain ⟨hnonempty, hfuel⟩ := h.cons_bounds
    rw [if_neg hnonempty]
    exact searchStringFrom_eq hfuel h

/-- **Spec lemma**: the lookup by identifier. -/
theorem searchNameTabByID_eq (h : TableAt s es) : s.searchNameTabByID identifier =
      (firstEntity s.nameTableEnd es fun y => y.identifier = identifier).map
        fun y => (y.1, y.2.name.bytes) := by
  unfold Storage.searchNameTabByID
  cases es with
  | nil =>
    rw [if_pos (h.tabLength_eq ▸ Nat.succ_pos 7)]
    rfl
  | cons x es =>
    obtain ⟨hnonempty, hfuel⟩ := h.cons_bounds
    rw [if_neg hnonempty]
    exact searchIDFrom_eq hfuel h

/-! ## Changes -/

theorem firstEntity_eq_some {P : Entity → Bool} (h : firstEntity p es P = some (q, x)) :
    P x = true ∧ ∃ l r, es = l ++ x :: r ∧ q = p + totalLength Entity.length l := by
  refine ⟨@List.find?_some _ (fun y : ℕ × Entity => P y.2) _ _ h, ?_⟩
  exact mem_placed_iff.mp (List.mem_of_find?_eq_some h)

theorem firstEntity_eq_none {P : Entity → Bool} (h : firstEntity p es P = none) :
    ∀ x ∈ es, ¬P x = true := by
  induction es generalizing p with
  | nil => exact fun x hx => absurd hx List.not_mem_nil
  | cons y es ih =>
    rw [firstEntity_cons] at h
    split_ifs at h with hy
    intro x hx
    rcases List.mem_cons.mp hx with rfl | hx
    · exact hy
    · exact ih h x hx

theorem EntityAt.congr (h : EntityAt m q x) (heq : ∀ a, q ≤ a → a < q + x.length → m' a = m a) :
    EntityAt m' q x := by
  have hheader : nameHdrSize = 8 := rfl
  have hlength := length_lt_paddedLength x.name.bytes
  have hx : x.length = nameHdrSize + paddedLength x.name.bytes := rfl
  refine ⟨?_, ?_, h.name.congr fun i hi => heq _ (by omega) ?_⟩
  · rw [← h.nameLen]
    exact readWord_congr fun i hi => heq _ (by omega) (by omega)
  · rw [← h.identifier]
    exact readWord_congr fun i hi => heq _ (by omega) (by omega)
  · rw [List.length_append, List.length_singleton] at hi
    omega

theorem tiles_congr (h : Tiles Entity.length (EntityAt m) p es e)
    (heq : ∀ a, p ≤ a → a < e → m' a = m a) : Tiles Entity.length (EntityAt m') p es e := by
  have hend := Tiles.end_eq h
  refine h.congr fun q x hmem hat => hat.congr fun a ha ha' => heq a ?_ ?_
  · exact (le_of_mem_placed hmem).trans ha
  · exact hend ▸ ha'.trans_le (add_length_le_of_mem_placed hmem)

theorem setIdentifier_of_not_mem {a : ℕ} (h : a < p + 2 ∨ p + 4 ≤ a) :
    setIdentifier m p identifier a = m a :=
  h.elim writeWord_of_lt fun h => writeWord_of_ge (by omega)

theorem TableAt.setIdentifier (h : TableAt s (l ++ x :: r))
    (hlt : identifier < 2 ^ 16) (hp : p = s.nameTableEnd + totalLength Entity.length l) :
    TableAt { s with mem := setIdentifier s.mem p identifier }
      (l ++ { x with identifier := identifier } :: r) := by
  have hheader : nameHdrSize = 8 := rfl
  have hlength := x.length_gt
  obtain ⟨hl, hat, hr⟩ := tiles_append.mp h
  rw [← hp] at hl hat hr
  refine tiles_append.mpr ⟨?_, ?_, ?_⟩
  · rw [← hp]
    exact tiles_congr hl fun a _ ha => setIdentifier_of_not_mem (.inl (by omega))
  · rw [← hp]
    refine ⟨?_, readWord_writeWord hlt, ?_⟩
    · rw [← hat.nameLen]
      exact readWord_congr fun i hi => setIdentifier_of_not_mem (.inl (by omega))
    · exact hat.name.congr fun i _ => setIdentifier_of_not_mem (.inr (by omega))
  · rw [← hp]
    refine tiles_congr hr fun a ha _ => setIdentifier_of_not_mem (.inr ?_)
    change p + x.length ≤ a at ha
    omega

theorem entityBytes_length (f : FileName) (identifier : ℕ) :
    (entityBytes f identifier).length = paddedLength f.bytes + nameHdrSize := by
  have hlength := length_lt_paddedLength f.bytes
  unfold entityBytes
  rw [List.length_append, List.length_append, List.length_append, List.length_append,
    toBytes_length, toBytes_length, toBytes_length, List.length_replicate]
  unfold nameHdrSize
  omega

theorem entityAt_write (m : Memory) (p identifier : ℕ) (f : FileName) :
    EntityAt (write m p (entityBytes f identifier)) p ⟨f, identifier % 2 ^ 16⟩ := by
  have hfits := f.fits
  have hpadded := paddedLength_le f.bytes
  have hlength := length_lt_paddedLength f.bytes
  have hwritten : Holds (write m p (entityBytes f identifier)) p (entityBytes f identifier) :=
    Holds.write_self
  obtain ⟨hheader, hpadding⟩ := holds_append.mp hwritten
  obtain ⟨hheader, hname⟩ := holds_append.mp hheader
  obtain ⟨hheader, -⟩ := holds_append.mp hheader
  obtain ⟨hnameLen, hidentifier⟩ := holds_append.mp hheader
  rw [toBytes_length] at hidentifier
  refine ⟨?_, ?_, ?_⟩
  · refine (readWord_of_holds hnameLen).trans (Nat.mod_eq_of_lt ?_)
    norm_num
    omega
  · exact readWord_of_holds hidentifier
  · have hzero : paddedLength f.bytes - f.bytes.length =
        paddedLength f.bytes - f.bytes.length - 1 + 1 := by omega
    refine holds_append.mpr ⟨hname, ?_⟩
    rw [hzero, List.replicate_succ] at hpadding
    refine holds_cons.mpr ⟨?_, holds_nil⟩
    have hbyte := (holds_cons.mp hpadding).1
    rw [List.length_append, ← add_assoc] at hbyte
    exact hbyte

theorem TableAt.cons (h : TableAt s es) {identifier globalNameID : ℕ}
    (hspace : paddedLength f.bytes + nameHdrSize ≤ s.nameTableEnd) :
    TableAt ⟨write s.mem (s.nameTableEnd - (paddedLength f.bytes + nameHdrSize))
        (entityBytes f identifier), s.memoryEnd,
        s.nameTableEnd - (paddedLength f.bytes + nameHdrSize), s.dataBufferEnd, globalNameID⟩
      (⟨f, identifier % 2 ^ 16⟩ :: es) := by
  refine ⟨entityAt_write _ _ _ _, ?_⟩
  have hplace : s.nameTableEnd - (paddedLength f.bytes + nameHdrSize) +
      Entity.length ⟨f, identifier % 2 ^ 16⟩ = s.nameTableEnd := by
    rw [Entity.length, add_comm nameHdrSize]
    exact Nat.sub_add_cancel hspace
  show Tiles Entity.length _ (s.nameTableEnd - (paddedLength f.bytes + nameHdrSize) +
      Entity.length ⟨f, identifier % 2 ^ 16⟩) es s.memoryEnd
  rw [hplace]
  refine tiles_congr h fun a ha _ => write_of_ge ?_
  rw [entityBytes_length, Nat.sub_add_cancel hspace]
  exact ha

end CldcVm.Rmfs
