import CldcVm.Rmfs.NameEntries

/-!
# The name table is a map

The calls on the name table, in any order, refine a finite map from file names to
identifiers, if no identifier is given twice and `rmfsTruncateNameTable` never reads a
zero where it looks for an identifier.

Results: `nameTable_of_run`: what holds after such a run; `not_nameTable_truncate`: a
truncation after two files with names of four characters.
-/

namespace CldcVm.Rmfs

open Lib
open Function (update update_apply update_eq_self)

/-! ## The map -/

/-- The identifiers of the live file names, and 0 for the others. -/
abbrev NameMap := FileName → ℕ

/-- The map of the entities. -/
def nameMap (es : List Entity) : NameMap := fun f =>
  ((es.find? fun x => x.name = f).map Entity.identifier).getD 0

/-- The invariant of the name table. -/
structure TableInv (s : Storage) (es : List Entity) : Prop where
  table : TableAt s es
  names : (es.map Entity.name).Nodup
  identifiers : ∀ x ∈ es, ∀ y ∈ es, x.identifier = y.identifier → x.identifier ≠ 0 → x = y
  space : s.dataBufferEnd ≤ s.nameTableEnd
  bound : s.memoryEnd < 2 ^ 31

variable {s s' : Storage} {es es' l r : List Entity} {x y : Entity} {f g : FileName} {p i : ℕ}

theorem eq_of_name_eq (hnames : (es.map Entity.name).Nodup) (hx : x ∈ es) (hy : y ∈ es)
    (hname : x.name = y.name) : x = y :=
  List.inj_on_of_nodup_map hnames hx hy hname

theorem nameMap_of_mem (hnames : (es.map Entity.name).Nodup) (hx : x ∈ es) :
    nameMap es x.name = x.identifier := by
  unfold nameMap
  cases hfind : es.find? fun y => y.name = x.name with
  | none =>
    have hnot := List.find?_eq_none.mp hfind x hx
    exact (hnot (decide_eq_true rfl)).elim
  | some y =>
    have hy := of_decide_eq_true
      (@List.find?_some _ (fun y : Entity => decide (y.name = x.name)) _ _ hfind)
    rw [eq_of_name_eq hnames (List.mem_of_find?_eq_some hfind) hx hy]
    rfl

theorem nameMap_of_not_mem (h : ∀ x ∈ es, x.name ≠ f) : nameMap es f = 0 := by
  unfold nameMap
  rw [List.find?_eq_none.mpr fun x hx hname => h x hx (of_decide_eq_true hname)]
  rfl

theorem exists_of_nameMap_ne (h : nameMap es f ≠ 0) :
    ∃ x ∈ es, x.name = f ∧ x.identifier = nameMap es f := by
  unfold nameMap at h ⊢
  cases hfind : es.find? fun x => x.name = f with
  | none =>
    rw [hfind] at h
    exact (h rfl).elim
  | some x =>
    have hx := of_decide_eq_true
      (@List.find?_some _ (fun x : Entity => decide (x.name = f)) _ _ hfind)
    exact ⟨x, List.mem_of_find?_eq_some hfind, hx, rfl⟩

theorem nameMap_congr (hnames : (es.map Entity.name).Nodup) (hnames' : (es'.map Entity.name).Nodup)
    (h : ∀ x : Entity, x.name = f → (x ∈ es' ↔ x ∈ es)) : nameMap es' f = nameMap es f := by
  by_cases hmem : ∃ x ∈ es, x.name = f
  · obtain ⟨x, hx, rfl⟩ := hmem
    rw [nameMap_of_mem hnames hx, nameMap_of_mem hnames' ((h x rfl).mpr hx)]
  · have hnot : ∀ x ∈ es, x.name ≠ f := fun x hx hname => hmem ⟨x, hx, hname⟩
    rw [nameMap_of_not_mem hnot, nameMap_of_not_mem fun x hx hname =>
      hnot x ((h x hname).mp hx) hname]

/-! ## Lookup -/

theorem TableInv.searchNameTabByString (h : TableInv s es) (f : FileName) :
    ((s.searchNameTabByString f).map Prod.snd).getD 0 = nameMap es f := by
  rw [searchNameTabByString_eq h.table]
  cases hfirst : firstEntity s.nameTableEnd es fun x => x.name = f with
  | none =>
    refine (nameMap_of_not_mem fun x hx hname => ?_).symm
    exact firstEntity_eq_none hfirst x hx (decide_eq_true hname)
  | some found =>
    obtain ⟨q, x⟩ := found
    obtain ⟨hname, l, r, rfl, -⟩ := firstEntity_eq_some hfirst
    obtain rfl := of_decide_eq_true hname
    exact (nameMap_of_mem h.names (List.mem_append_right _ List.mem_cons_self)).symm

theorem TableInv.searchNameTabByID_some (h : TableInv s es) (hi : i ≠ 0) (hf : nameMap es f = i) :
    ∃ q, s.searchNameTabByID i = some (q, f.bytes) := by
  subst hf
  obtain ⟨x, hx, hname, hidentifier⟩ := exists_of_nameMap_ne hi
  rw [searchNameTabByID_eq h.table]
  cases hfirst : firstEntity s.nameTableEnd es fun y => y.identifier = nameMap es f with
  | none => exact (firstEntity_eq_none hfirst x hx (decide_eq_true hidentifier)).elim
  | some found =>
    obtain ⟨q, y⟩ := found
    obtain ⟨hy, l, r, rfl, -⟩ := firstEntity_eq_some hfirst
    have hyx := h.identifiers x hx y (List.mem_append_right _ List.mem_cons_self)
      (hidentifier.trans (of_decide_eq_true hy).symm) (hidentifier ▸ hi)
    exact ⟨q, by rw [← hname, hyx]; rfl⟩

theorem TableInv.searchNameTabByID_none (h : TableInv s es) :
    s.searchNameTabByID i = none ↔ ∀ x ∈ es, x.identifier ≠ i := by
  rw [searchNameTabByID_eq h.table, Option.map_eq_none_iff]
  refine ⟨fun hnone x hx hidentifier => firstEntity_eq_none hnone x hx (decide_eq_true hidentifier),
    fun hnot => ?_⟩
  cases hfirst : firstEntity s.nameTableEnd es fun x => x.identifier = i with
  | none => rfl
  | some found =>
    obtain ⟨hx, l, r, rfl, -⟩ := firstEntity_eq_some hfirst
    exact (hnot _ (List.mem_append_right _ List.mem_cons_self) (of_decide_eq_true hx)).elim

/-! ## Creation -/

/-- The next identifier is not that of a live entity, unless the file name is live. -/
def NewOk (s : Storage) (f : FileName) : Prop :=
  (∃ q fileID, s.searchNameTabByString f = some (q, fileID) ∧ fileID ≠ 0) ∨
    s.nextNameID % 2 ^ 16 = 0 ∨ s.searchNameTabByID (s.nextNameID % 2 ^ 16) = none

theorem TableInv.setIdentifier (h : TableInv s (l ++ x :: r)) (hi : i < 2 ^ 16)
    (hp : p = s.nameTableEnd + totalLength Entity.length l)
    (hfresh : i = 0 ∨ ∀ y ∈ l ++ x :: r, y.identifier ≠ i) :
    TableInv { s with mem := Rmfs.setIdentifier s.mem p i } (l ++ { x with identifier := i } :: r) ∧
      nameMap (l ++ { x with identifier := i } :: r) =
        update (nameMap (l ++ x :: r)) x.name i := by
  have hmap : (l ++ { x with identifier := i } :: r).map Entity.name =
      (l ++ x :: r).map Entity.name := by
    rw [List.map_append, List.map_append]
    rfl
  have hnames : ((l ++ { x with identifier := i } :: r).map Entity.name).Nodup := hmap ▸ h.names
  have hold : ∀ y ∈ l ++ { x with identifier := i } :: r,
      y = { x with identifier := i } ∨ y ∈ l ++ x :: r := by
    intro y hy
    rcases List.mem_append.mp hy with hy | hy
    · exact .inr (List.mem_append_left _ hy)
    · exact (List.mem_cons.mp hy).imp_right fun hy =>
        List.mem_append_right _ (List.mem_cons_of_mem _ hy)
  refine ⟨⟨h.table.setIdentifier hi hp, hnames, fun y hy z hz hyz hne => ?_, h.space, h.bound⟩, ?_⟩
  · rcases hold y hy with rfl | hy
    · rcases hold z hz with rfl | hz
      · rfl
      · rcases hfresh with hzero | hfresh
        · exact (hne hzero).elim
        · exact (hfresh z hz hyz.symm).elim
    · rcases hold z hz with rfl | hz
      · rcases hfresh with hzero | hfresh
        · exact (hne (hyz.trans hzero)).elim
        · exact (hfresh y hy hyz).elim
      · exact h.identifiers y hy z hz hyz hne
  · funext g
    rw [update_apply]
    split_ifs with hg
    · subst hg
      exact nameMap_of_mem (x := { x with identifier := i }) hnames
        (List.mem_append_right _ List.mem_cons_self)
    · refine nameMap_congr h.names hnames fun y hy => ?_
      rw [List.mem_append, List.mem_append, List.mem_cons, List.mem_cons]
      refine or_congr_right (or_congr_left (iff_of_false ?_ ?_))
      · rintro rfl
        exact hg hy.symm
      · rintro rfl
        exact hg hy.symm

/-- What `rmfsNewNameTable` does to the map. -/
def afterNew (T : NameMap) (f : FileName) (fileID : ℕ) : NameMap :=
  if fileID = 0 then T else Function.update T f fileID

theorem TableInv.cons (h : TableInv s es) (hnew : ∀ x ∈ es, x.name ≠ f) {identifier nextID : ℕ}
    (hspace : s.dataBufferEnd ≤ s.nameTableEnd - (paddedLength f.bytes + nameHdrSize))
    (hfits : paddedLength f.bytes + nameHdrSize ≤ s.nameTableEnd)
    (hfresh : identifier % 2 ^ 16 = 0 ∨ ∀ x ∈ es, x.identifier ≠ identifier % 2 ^ 16) :
    TableInv ⟨write s.mem (s.nameTableEnd - (paddedLength f.bytes + nameHdrSize))
        (entityBytes f identifier), s.memoryEnd,
        s.nameTableEnd - (paddedLength f.bytes + nameHdrSize), s.dataBufferEnd, nextID⟩
        (⟨f, identifier % 2 ^ 16⟩ :: es) ∧ nameMap (⟨f, identifier % 2 ^ 16⟩ :: es) =
        update (nameMap es) f (identifier % 2 ^ 16) := by
  have hnames : ((⟨f, identifier % 2 ^ 16⟩ :: es : List Entity).map Entity.name).Nodup := by
    refine List.nodup_cons.mpr ⟨fun hmem => ?_, h.names⟩
    obtain ⟨x, hx, hname⟩ := List.mem_map.mp hmem
    exact hnew x hx hname
  refine ⟨⟨h.table.cons hfits, hnames, fun y hy z hz hyz hne => ?_, hspace, h.bound⟩, ?_⟩
  · rcases List.mem_cons.mp hy with rfl | hy
    · rcases List.mem_cons.mp hz with rfl | hz
      · rfl
      · rcases hfresh with hzero | hfresh
        · exact (hne hzero).elim
        · exact (hfresh z hz hyz.symm).elim
    · rcases List.mem_cons.mp hz with rfl | hz
      · rcases hfresh with hzero | hfresh
        · exact (hne (hyz.trans hzero)).elim
        · exact (hfresh y hy hyz).elim
      · exact h.identifiers y hy z hz hyz hne
  · funext g
    rw [update_apply]
    split_ifs with hg
    · subst hg
      exact nameMap_of_mem (x := ⟨g, identifier % 2 ^ 16⟩) hnames List.mem_cons_self
    · refine nameMap_congr h.names hnames fun y hy => ?_
      rw [List.mem_cons]
      refine or_iff_right ?_
      rintro rfl
      exact hg hy.symm

theorem afterNew_of_eq {T : NameMap} (h : T f = 0) (fileID : ℕ) :
    update T f fileID = afterNew T f fileID := by
  unfold afterNew
  split_ifs with hzero
  · rw [hzero, ← h, update_eq_self]
  · rfl

/-- **Step lemma**: `rmfsNewNameTable`. -/
theorem TableInv.rmfsNewNameTable (h : TableInv s es) (hok : NewOk s f) :
    (∃ es', TableInv (s.rmfsNewNameTable f).2 es' ∧
      nameMap es' = afterNew (nameMap es) f (s.rmfsNewNameTable f).1) ∧
      (nameMap es f ≠ 0 → (s.rmfsNewNameTable f).1 = nameMap es f) := by
  have hlt : s.nextNameID % 2 ^ 16 < 2 ^ 16 := Nat.mod_lt _ (by norm_num)
  have hsearch := h.searchNameTabByString f
  have hfresh : nameMap es f = 0 →
      s.nextNameID % 2 ^ 16 = 0 ∨ ∀ x ∈ es, x.identifier ≠ s.nextNameID % 2 ^ 16 := by
    intro hzero
    rcases hok with ⟨q, fileID, hfound, hne⟩ | hok
    · rw [hfound] at hsearch
      exact (hne (hsearch.trans hzero)).elim
    · exact hok.imp_right fun hnone => h.searchNameTabByID_none.mp hnone
  unfold Storage.rmfsNewNameTable
  rw [searchNameTabByString_eq h.table] at hsearch ⊢
  cases hfirst : firstEntity s.nameTableEnd es fun x => x.name = f with
  | none =>
    rw [hfirst] at hsearch
    have hzero : nameMap es f = 0 := hsearch.symm
    have hnew : ∀ x ∈ es, x.name ≠ f := fun x hx hname =>
      firstEntity_eq_none hfirst x hx (decide_eq_true hname)
    refine ⟨?_, fun hne => (hne hzero).elim⟩
    show ∃ es', TableInv (s.addNameTable f).2 es' ∧
      nameMap es' = afterNew (nameMap es) f (s.addNameTable f).1
    unfold Storage.addNameTable
    by_cases hspace : s.nameTableEnd - s.dataBufferEnd ≤ paddedLength f.bytes + nameHdrSize
    · simp only [if_pos hspace]
      exact ⟨es, ⟨h.table, h.names, h.identifiers, h.space, h.bound⟩, rfl⟩
    · simp only [if_neg hspace]
      have hspace' := h.space
      obtain ⟨hinv, hmap⟩ := h.cons hnew (by omega) (by omega) (hfresh hzero)
      exact ⟨_, hinv, hmap.trans (afterNew_of_eq hzero _)⟩
  | some found =>
    obtain ⟨q, x⟩ := found
    obtain ⟨hname, l, r, rfl, rfl⟩ := firstEntity_eq_some hfirst
    obtain rfl := of_decide_eq_true hname
    rw [hfirst] at hsearch
    have hidentifier : nameMap (l ++ x :: r) x.name = x.identifier := hsearch.symm
    cases hx : x.identifier with
    | zero =>
      have hzero := hidentifier.trans hx
      obtain ⟨hinv, hmap⟩ := h.setIdentifier hlt rfl (hfresh hzero)
      simp only [Option.map_some, hx]
      refine ⟨⟨_, ⟨hinv.table, hinv.names, hinv.identifiers, hinv.space, hinv.bound⟩, ?_⟩,
        fun hne => (hne hzero).elim⟩
      exact hmap.trans (afterNew_of_eq hzero _)
    | succ k =>
      simp only [Option.map_some, hx]
      refine ⟨⟨_, ⟨h.table, h.names, h.identifiers, h.space, h.bound⟩, ?_⟩,
        fun _ => (hidentifier.trans hx).symm⟩
      rw [afterNew, if_neg k.succ_ne_zero, ← hx, ← hidentifier, update_eq_self]

/-! ## Deletion -/

theorem TableInv.delete (h : TableInv s (l ++ x :: r))
    (hp : p = s.nameTableEnd + totalLength Entity.length l) :
    ∃ es', TableInv ({ s with mem := Rmfs.setIdentifier s.mem p 0 }.removeLast x.name.bytes p)
        es' ∧ nameMap es' = update (nameMap (l ++ x :: r)) x.name 0 := by
  obtain ⟨hinv, hmap⟩ := h.setIdentifier (by norm_num) hp (.inl rfl)
  unfold Storage.removeLast
  by_cases hlast : p = s.nameTableEnd
  · -- the first entity of the table is the last one that was created
    have hnil : l = [] := by
      cases l with
      | nil => rfl
      | cons y l =>
        have hy := y.length_pos
        rw [totalLength_cons] at hp
        omega
    subst hnil
    obtain ⟨htable, hnames, hidentifiers, hspace, hbound⟩ := hinv
    have hnames' : x.name ∉ r.map Entity.name ∧ (r.map Entity.name).Nodup :=
      List.nodup_cons.mp hnames
    rw [if_pos hlast, lastNameLen_eq]
    refine ⟨r, ⟨htable.2, hnames'.2, fun y hy z hz => ?_, hspace.trans (Nat.le_add_right _ _),
      hbound⟩, ?_⟩
    · exact hidentifiers y (List.mem_cons_of_mem _ hy) z (List.mem_cons_of_mem _ hz)
    · rw [← hmap]
      funext g
      by_cases hg : g = x.name
      · subst hg
        have hzero := nameMap_of_mem (x := { x with identifier := 0 }) hnames List.mem_cons_self
        refine (nameMap_of_not_mem fun y hy hname => ?_).trans hzero.symm
        exact hnames'.1 (List.mem_map.mpr ⟨y, hy, hname⟩)
      · refine nameMap_congr hnames hnames'.2 fun y hy => ?_
        rw [List.nil_append, List.mem_cons]
        refine (or_iff_right ?_).symm
        rintro rfl
        exact hg hy.symm
  · rw [if_neg hlast]
    exact ⟨_, hinv, hmap⟩

/-- **Step lemma**: `delNameTabByString`. -/
theorem TableInv.delNameTabByString (h : TableInv s es) (f : FileName) :
    ∃ es', TableInv (s.delNameTabByString f).2 es' ∧ nameMap es' = update (nameMap es) f 0 := by
  unfold Storage.delNameTabByString
  rw [searchNameTabByString_eq h.table]
  cases hfirst : firstEntity s.nameTableEnd es fun x => x.name = f with
  | none =>
    refine ⟨es, h, ?_⟩
    have hzero : nameMap es f = 0 := nameMap_of_not_mem fun x hx hname =>
      firstEntity_eq_none hfirst x hx (decide_eq_true hname)
    rw [← hzero, update_eq_self]
  | some found =>
    obtain ⟨q, x⟩ := found
    obtain ⟨hname, l, r, rfl, rfl⟩ := firstEntity_eq_some hfirst
    obtain rfl := of_decide_eq_true hname
    exact h.delete rfl

/-- **Step lemma**: `delNameTabByID`. -/
theorem TableInv.delNameTabByID (h : TableInv s es) (i : ℕ) :
    ∃ es', TableInv (s.delNameTabByID i).2 es' ∧
      nameMap es' = fun g => if nameMap es g = i then 0 else nameMap es g := by
  unfold Storage.delNameTabByID
  rw [searchNameTabByID_eq h.table]
  cases hfirst : firstEntity s.nameTableEnd es fun x => x.identifier = i with
  | none =>
    refine ⟨es, h, ?_⟩
    funext g
    split_ifs with hg
    · by_contra hne
      obtain ⟨x, hx, -, hidentifier⟩ := exists_of_nameMap_ne hne
      exact firstEntity_eq_none hfirst x hx (decide_eq_true (hidentifier.trans hg))
    · rfl
  | some found =>
    obtain ⟨q, x⟩ := found
    obtain ⟨hx, l, r, rfl, rfl⟩ := firstEntity_eq_some hfirst
    obtain rfl := of_decide_eq_true hx
    obtain ⟨es', hinv, hmap⟩ := h.delete rfl
    have hmem : x ∈ l ++ x :: r := List.mem_append_right _ List.mem_cons_self
    refine ⟨es', hinv, hmap.trans ?_⟩
    funext g
    rw [update_apply]
    by_cases hg : g = x.name
    · subst hg
      rw [if_pos rfl, if_pos (nameMap_of_mem h.names hmem)]
    · rw [if_neg hg]
      split_ifs with hidentifier
      · by_contra hne
        obtain ⟨y, hy, rfl, hy'⟩ := exists_of_nameMap_ne (fun hzero => hne hzero)
        rw [hidentifier] at hy' hne
        exact hg (h.identifiers y hy x hmem hy' (hy'.trans_ne hne) ▸ rfl)
      · rfl

/-! ## Truncation -/

/-- From an offset on, `rmfsTruncateNameTable` reads no zero where it looks for an
identifier. -/
inductive MeetsNoZero (signedChar : Bool) (s : Storage) : (curLength : ℕ) → Prop
  | done {curLength : ℕ} : s.tabLength < curLength + nameHdrSize →
      MeetsNoZero signedChar s curLength
  | stop {curLength : ℕ} : s.mem (s.nameTableEnd + curLength + 2) ≠ 0 →
      s.tabLength <
        curLength + 4 + charToShort signedChar (s.mem (s.nameTableEnd + curLength)) →
      MeetsNoZero signedChar s curLength
  | next {curLength : ℕ} : s.mem (s.nameTableEnd + curLength + 2) ≠ 0 →
      MeetsNoZero signedChar s
        (curLength + 4 + charToShort signedChar (s.mem (s.nameTableEnd + curLength))) →
      MeetsNoZero signedChar s curLength

theorem asUnsigned_natCast {n : ℕ} (h : n < 2 ^ 32) : asUnsigned n = n := by
  unfold asUnsigned
  omega

theorem charToShort_ne_zero {b : Byte} (signedChar : Bool) (h : b ≠ 0) :
    charToShort signedChar b ≠ 0 := by
  intro hzero
  refine h (BitVec.eq_of_toNat_eq ?_)
  unfold charToShort at hzero
  split_ifs at hzero
  · have hlt := b.isLt
    rw [BitVec.toNat_signExtend, BitVec.toNat_setWidth] at hzero
    have hbyte : b.toNat % 2 ^ 16 = 0 := (Nat.add_eq_zero_iff.mp hzero).1
    rwa [Nat.mod_eq_of_lt (hlt.trans (by norm_num))] at hbyte
  · exact hzero

variable {signedChar : Bool}

/-- **Run lemma**: the truncation changes nothing if it takes no entity for a hole. -/
theorem truncateFrom_eq {curLength : ℕ} (hbound : s.memoryEnd < 2 ^ 31)
    (hend : s.nameTableEnd ≤ s.memoryEnd) (hle : curLength ≤ s.tabLength)
    (h : MeetsNoZero signedChar s curLength) (fuel : ℕ) : (s.tabLength - curLength < fuel →
      (truncateFrom signedChar s.nameTableEnd fuel s.mem s.tabLength curLength).isSome) ∧
    ∀ found, truncateFrom signedChar s.nameTableEnd fuel s.mem s.tabLength curLength = some found →
      found = (s.mem, (s.tabLength : ℤ)) := by
  induction fuel generalizing curLength with
  | zero => exact ⟨fun hfuel => absurd hfuel (Nat.not_lt_zero _), fun found hrun => by cases hrun⟩
  | succ fuel ih =>
    have hheader : nameHdrSize = 8 := rfl
    have htab : s.tabLength = s.memoryEnd - s.nameTableEnd := rfl
    have hplace : asUnsigned ((s.nameTableEnd : ℤ) + curLength) = s.nameTableEnd + curLength :=
      asUnsigned_natCast (by omega)
    have hplace' : asUnsigned ((s.nameTableEnd : ℤ) + curLength + 2) =
        s.nameTableEnd + curLength + 2 := asUnsigned_natCast (n := s.nameTableEnd + curLength + 2)
      (by omega)
    have hnext : asUnsigned ((curLength : ℤ) + (nameHdrSize : ℕ)) = curLength + nameHdrSize :=
      asUnsigned_natCast (n := curLength + nameHdrSize) (by omega)
    have htab' : asUnsigned (s.tabLength : ℤ) = s.tabLength := asUnsigned_natCast (by omega)
    rw [truncateFrom]
    simp only [hplace, hplace', hnext, htab']
    cases h with
    | done hlt =>
      rw [if_neg (Nat.not_le.mpr hlt)]
      exact ⟨fun _ => rfl, fun found hrun => (Option.some.inj hrun).symm⟩
    | stop hne hlt =>
      rw [if_neg (charToShort_ne_zero signedChar hne)]
      split_ifs with hheader' hstop
      · exact ⟨fun _ => rfl, fun found hrun => (Option.some.inj hrun).symm⟩
      · exact (hstop (by exact_mod_cast hlt)).elim
      · exact ⟨fun _ => rfl, fun found hrun => (Option.some.inj hrun).symm⟩
    | next hne hrest =>
      rw [if_neg (charToShort_ne_zero signedChar hne)]
      split_ifs with hheader' hstop
      · exact ⟨fun _ => rfl, fun found hrun => (Option.some.inj hrun).symm⟩
      · set next := curLength + 4 + charToShort signedChar (s.mem (s.nameTableEnd + curLength))
          with hnext'
        have hle' : next ≤ s.tabLength := by
          by_contra hgt
          exact hstop (by rw [hnext'] at hgt; omega)
        have hcast : (curLength : ℤ) + 4 +
            (charToShort signedChar (s.mem (s.nameTableEnd + curLength)) : ℕ) = (next : ℕ) := by
          rw [hnext']
          push_cast
          rfl
        rw [hcast]
        obtain ⟨htotal, heq⟩ := ih hle' hrest
        exact ⟨fun hfuel => htotal (by omega), heq⟩
      · exact ⟨fun _ => rfl, fun found hrun => (Option.some.inj hrun).symm⟩

/-- The table is empty, or no entity is taken for a hole. -/
def TruncateOk (signedChar : Bool) (s : Storage) : Prop :=
  s.tabLength < nameHdrSize ∨ MeetsNoZero signedChar s 0

/-- **Step lemma**: `rmfsTruncateNameTable`. -/
theorem TableInv.rmfsTruncateNameTable (h : TableInv s es) (hok : TruncateOk signedChar s) :
    (∃ fuel, (s.rmfsTruncateNameTable signedChar fuel).isSome) ∧
      ∀ fuel s', s.rmfsTruncateNameTable signedChar fuel = some s' → s' = s := by
  have hend : s.nameTableEnd ≤ s.memoryEnd := h.table.memoryEnd_eq ▸ Nat.le_add_right _ _
  have hbound := h.bound
  unfold Storage.rmfsTruncateNameTable
  rcases hok with hempty | hok
  · simp only [if_pos hempty]
    exact ⟨⟨0, rfl⟩, fun _ s' hs' => (Option.some.inj hs').symm⟩
  · by_cases hempty : s.tabLength < nameHdrSize
    · simp only [if_pos hempty]
      exact ⟨⟨0, rfl⟩, fun _ s' hs' => (Option.some.inj hs').symm⟩
    · simp only [if_neg hempty]
      have hrun := truncateFrom_eq hbound hend (Nat.zero_le _) hok
      constructor
      · obtain ⟨found, hfound⟩ := Option.isSome_iff_exists.mp
          ((hrun (s.tabLength + 1)).1 (by omega))
        refine ⟨s.tabLength + 1, ?_⟩
        have hfound' : truncateFrom signedChar s.nameTableEnd (s.tabLength + 1) s.mem
            s.tabLength 0 = some found := hfound
        rw [hfound']
        rfl
      · intro fuel s' hs'
        cases hfound : truncateFrom signedChar s.nameTableEnd fuel s.mem s.tabLength 0 with
        | none =>
          rw [hfound] at hs'
          cases hs'
        | some found =>
          rw [(hrun fuel).2 found hfound] at hfound
          rw [hfound] at hs'
          have htab : s.tabLength = s.memoryEnd - s.nameTableEnd := rfl
          have hplace : asUnsigned ((s.memoryEnd : ℤ) - (s.tabLength : ℕ)) = s.nameTableEnd := by
            have hcast : (s.memoryEnd : ℤ) - (s.tabLength : ℕ) = (s.nameTableEnd : ℕ) := by omega
            rw [hcast]
            exact asUnsigned_natCast (by omega)
          have hs := Option.some.inj hs'
          rw [hplace, memcpy_self] at hs
          exact hs.symm

/-! ## Runs -/

/-- The calls that change the name table. -/
inductive Call
  | newNameTable (filename : FileName)
  | delByString (filename : FileName)
  | delByID (identifier : ℕ)
  | truncate

/-- A call returns an identifier, or nothing that matters here. -/
inductive Exec (signedChar : Bool) (s : Storage) : Call → (fileID : ℕ) → Storage → Prop
  | newNameTable (f : FileName) :
      Exec signedChar s (.newNameTable f) (s.rmfsNewNameTable f).1 (s.rmfsNewNameTable f).2
  | delByString (f : FileName) : Exec signedChar s (.delByString f) 0 (s.delNameTabByString f).2
  | delByID (i : ℕ) : Exec signedChar s (.delByID i) 0 (s.delNameTabByID i).2
  | truncate {fuel : ℕ} {s' : Storage} : s.rmfsTruncateNameTable signedChar fuel = some s' →
      Exec signedChar s .truncate 0 s'

/-- What a call does to the map. -/
def NameMap.after (T : NameMap) (fileID : ℕ) : Call → NameMap
  | .newNameTable f => afterNew T f fileID
  | .delByString f => Function.update T f 0
  | .delByID i => fun g => if T g = i then 0 else T g
  | .truncate => T

/-- The call does not meet a defect. -/
def Call.Ok (signedChar : Bool) (s : Storage) : Call → Prop
  | newNameTable f => NewOk s f
  | delByString _ => True
  | delByID _ => True
  | truncate => TruncateOk signedChar s

/-- A run from an initialized storage, with the map that the calls make. -/
inductive Run (signedChar : Bool) (Ok : Storage → Call → Prop) : Storage → NameMap → Prop
  | init (m : Memory) (start size : ℕ) : 28 ≤ size → start + size < 2 ^ 31 →
      Run signedChar Ok (.rmfsInitialize m start size) fun _ => 0
  | step {s s' : Storage} {T : NameMap} {call : Call} {fileID : ℕ} : Run signedChar Ok s T →
      Ok s call → Exec signedChar s call fileID s' → Run signedChar Ok s' (T.after fileID call)

/-- **Run lemma**: the entities stand for the map. -/
theorem Run.tableInv {T : NameMap} (h : Run signedChar (fun s call => call.Ok signedChar s) s T) :
    ∃ es, TableInv s es ∧ nameMap es = T := by
  induction h with
  | init m start size hsize hbound =>
    refine ⟨[], ⟨rfl, List.nodup_nil, fun _ hx => absurd hx List.not_mem_nil, ?_, hbound⟩, rfl⟩
    exact Nat.add_le_add_left (by omega) start
  | step _ hok hexec ih =>
    obtain ⟨es, hinv, rfl⟩ := ih
    cases hexec with
    | newNameTable f =>
      obtain ⟨⟨es', hinv', hmap⟩, -⟩ := hinv.rmfsNewNameTable hok
      exact ⟨es', hinv', hmap⟩
    | delByString f => exact hinv.delNameTabByString f
    | delByID i => exact hinv.delNameTabByID i
    | truncate htruncate =>
      obtain rfl := (hinv.rmfsTruncateNameTable hok).2 _ _ htruncate
      exact ⟨es, hinv, rfl⟩

/-- The storage stands for the map: the entities tile the name table, the map is finite and
one-to-one, and the lookups and `rmfsNewNameTable` find what is live. -/
structure Represents (s : Storage) (T : NameMap) : Prop where
  tiled : ∃ es, TableAt s es
  finite : {f | T f ≠ 0}.Finite
  injective : ∀ f g, T f = T g → T f ≠ 0 → f = g
  byString : ∀ f, ((s.searchNameTabByString f).map Prod.snd).getD 0 = T f
  byID_some : ∀ f, T f ≠ 0 → ∃ p, s.searchNameTabByID (T f) = some (p, f.bytes)
  byID_none : ∀ i ≠ 0, (∀ f, T f ≠ i) → s.searchNameTabByID i = none
  live : ∀ f, T f ≠ 0 → (s.rmfsNewNameTable f).1 = T f

/-- A live file name passes the condition of `rmfsNewNameTable`. -/
theorem TableInv.newOk (h : TableInv s es) (hf : nameMap es f ≠ 0) : NewOk s f := by
  have hsearch := h.searchNameTabByString f
  cases hfound : s.searchNameTabByString f with
  | none =>
    rw [hfound] at hsearch
    exact (hf hsearch.symm).elim
  | some found =>
    obtain ⟨q, fileID⟩ := found
    rw [hfound] at hsearch
    have hfileID : fileID = nameMap es f := hsearch
    exact .inl ⟨q, fileID, hfound, hfileID ▸ hf⟩

theorem TableInv.nameMap_injective (h : TableInv s es) (hfg : nameMap es f = nameMap es g)
    (hf : nameMap es f ≠ 0) : f = g := by
  obtain ⟨x, hx, rfl, hidentifier⟩ := exists_of_nameMap_ne hf
  obtain ⟨y, hy, rfl, hidentifier'⟩ := exists_of_nameMap_ne (hfg ▸ hf)
  have hxy := h.identifiers x hx y hy (hidentifier.trans (hfg.trans hidentifier'.symm))
    (hidentifier ▸ hf)
  rw [hxy]

theorem finite_nameMap (es : List Entity) : {f | nameMap es f ≠ 0}.Finite := by
  refine Set.Finite.subset (List.finite_toSet (es.map Entity.name)) fun f hf => ?_
  obtain ⟨x, hx, hname, -⟩ := exists_of_nameMap_ne hf
  exact List.mem_map.mpr ⟨x, hx, hname⟩

theorem TableInv.represents (h : TableInv s es) : Represents s (nameMap es) := by
  refine ⟨⟨es, h.table⟩, finite_nameMap es, fun f g => h.nameMap_injective,
    h.searchNameTabByString, fun f hf => h.searchNameTabByID_some hf rfl, fun i hi hnot => ?_,
    fun f hf => (h.rmfsNewNameTable (h.newOk hf)).2 hf⟩
  refine h.searchNameTabByID_none.mpr fun x hx hidentifier => ?_
  exact hnot x.name ((nameMap_of_mem h.names hx).trans hidentifier)

/-- **Main theorem**: after every run whose calls do not meet a defect, the name table is a
finite one-to-one map from the live file names to their identifiers, and a truncation
that may be made returns. -/
theorem nameTable_of_run {signedChar : Bool} {T : NameMap}
    (h : Run signedChar (fun s call => call.Ok signedChar s) s T) :
    Represents s T ∧
      (TruncateOk signedChar s →
        ∃ fuel, (s.rmfsTruncateNameTable signedChar fuel).isSome) := by
  obtain ⟨es, hinv, rfl⟩ := h.tableInv
  exact ⟨hinv.represents, fun hok => (hinv.rmfsTruncateNameTable hok).1⟩

/-- `a.db`. -/
def aDb : FileName := ⟨[0x61, 0x2e, 0x64, 0x62], by decide, by decide⟩

/-- `b.db`. -/
def bDb : FileName := ⟨[0x62, 0x2e, 0x64, 0x62], by decide, by decide⟩

/-- An empty storage of 64 bytes. -/
def emptyStorage : Storage := .rmfsInitialize (fun _ => 0) 16 64

/-- A run with one file. -/
theorem nameTable_aDb : Represents (emptyStorage.rmfsNewNameTable aDb).2
    (afterNew (fun _ => 0) aDb (emptyStorage.rmfsNewNameTable aDb).1) ∧
      (TruncateOk true (emptyStorage.rmfsNewNameTable aDb).2 →
        ∃ fuel, ((emptyStorage.rmfsNewNameTable aDb).2.rmfsTruncateNameTable true fuel).isSome) :=
  nameTable_of_run <|
    Run.step (.init (fun _ => 0) 16 64 (by decide) (by decide))
      (show NewOk emptyStorage aDb from Or.inr (Or.inr (by decide)))
      (Exec.newNameTable aDb)

/-- The storage with the two files. -/
def twoFiles : Storage := ((emptyStorage.rmfsNewNameTable aDb).2.rmfsNewNameTable bDb).2

/-- The storage after the truncation. -/
def truncated : Storage := (twoFiles.rmfsTruncateNameTable false 20).getD twoFiles

/-- A truncation after two files with names of four characters: none is found any more. -/
theorem not_nameTable_truncate : ∃ s T, Run false (fun _ _ => True) s T ∧ T aDb ≠ 0 ∧
    T bDb ≠ 0 ∧ s.searchNameTabByString aDb = none ∧ s.searchNameTabByString bDb = none := by
  have hinit : Run false (fun _ _ => True) emptyStorage fun _ => 0 :=
    .init _ 16 64 (by decide) (by decide)
  have hrun := (hinit.step trivial (.newNameTable aDb)).step trivial (.newNameTable bDb)
  have hreturns : (twoFiles.rmfsTruncateNameTable false 20).isSome := by decide
  have htruncate : twoFiles.rmfsTruncateNameTable false 20 = some truncated := by
    rw [truncated, ← Option.get_eq_getD (h := hreturns), Option.some_get]
  refine ⟨_, _, hrun.step trivial (.truncate htruncate), ?_, ?_, ?_, ?_⟩
  · decide
  · decide
  · decide
  · decide

end CldcVm.Rmfs
