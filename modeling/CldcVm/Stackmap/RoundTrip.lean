import CldcVm.Stackmap.Bitmaps
import Mathlib.Data.List.Forall2

/-!
# Compressed stackmaps round-trip

`compress_verifier_stackmap`, the edits that the image generator makes to a compressed list, and
the search for the entry of a bci (StackmapGenerator.cpp:265-490).

Results:

* `compress_readsAs`: the list is read as the stackmaps it was made of, before and after any
  edits, and an edit leaves the entries that it does not concern as they are.
* `findCompressedStackmap_edited`: the search for the entry that covers a bci, after any edits.
-/

namespace CldcVm.Stackmap

open Lib MapEntry

/-! ## Compressing -/

/-- The body of the loop of `compress_verifier_stackmap`, for one entry
(StackmapGenerator.cpp:276-306). -/
def compressEntry (allocates : Bool) (verifierStackmap : List ℕ) (e : MapEntry) : Option MapEntry :=
  let locals := verifierStackmap.getD 1 0
  let stackHeight := locals + verifierStackmap.getD (locals + 2) 0
  let bci := verifierStackmap.getD 0 0
  let written :=
    if isShortmapType locals (stackHeight - locals) bci then
      some (e.setShortMap (writeShortMap verifierStackmap))
    else (writeLongMap allocates verifierStackmap).map e.setLongMap
  written.map fun e =>
    e.update (locals % 2 ^ 16) ((stackHeight - locals) % 2 ^ 16) (bci % 2 ^ 16)

/-- The loop of `compress_verifier_stackmap`. The classes of a stackmap, at the odd indices of
`method_stackmaps`, are not read. Allocation `j + 1` is the one for entry `j`. -/
def compressLoop (allocates : ℕ → Bool) :
    (methodStackmaps : List (List ℕ)) → (j : ℕ) → StackmapList → Option StackmapList
  | [], _, list => some list
  | verifierStackmap :: methodStackmaps, j, list =>
    match compressEntry (allocates (j + 1)) verifierStackmap (list.getD j fresh) with
    | none => none
    | some e => compressLoop allocates methodStackmaps (j + 1) (list.set j e)

/-- `StackmapGenerator::compress_verifier_stackmap`
(StackmapGenerator.cpp:265-318). -/
def compressVerifierStackmap (allocates : ℕ → Bool) (methodStackmaps : List (List ℕ)) :
    Option StackmapList :=
  if allocates 0 then
    compressLoop allocates methodStackmaps 0 (List.replicate methodStackmaps.length fresh)
  else none

/-- The entries stand for the stackmaps, one each, in order. -/
def Represents (list : StackmapList) (stackmaps : List VerifierStackmap) : Prop :=
  List.Forall₂ Encodes list stackmaps

section Compress

variable {allocates : ℕ → Bool} {stackmap : VerifierStackmap} {e : MapEntry} {list : StackmapList}

/-- **Spec lemma** of one iteration. -/
theorem encodes_compressEntry {allocates : Bool}
    (h : compressEntry allocates stackmap.toArray fresh = some e) : Encodes e stackmap := by
  rw [compressEntry, stackmap.toArray_getD_zero, stackmap.toArray_getD_one] at h
  simp only [stackmap.toArray_getD_stackHeight, Nat.add_sub_cancel_left,
    Nat.mod_eq_of_lt stackmap.bci_lt, Nat.mod_eq_of_lt stackmap.locals_lt,
    Nat.mod_eq_of_lt stackmap.stack_lt, Option.map_eq_some_iff] at h
  obtain ⟨written, hwritten, rfl⟩ := h
  by_cases hshort : isShortmapType stackmap.locals.length stackmap.stack.length stackmap.bci = true
  · obtain ⟨hlocals, hheight, hbci, hslots⟩ := isShortmapType_bounds hshort
    have hbits := writeShortMap_spec hslots
    have hlt : writeShortMap stackmap.toArray < 2 ^ 16 :=
      lt_of_lt_of_le hbits.lt_two_pow (Nat.pow_le_pow_right (by decide) hslots)
    rw [if_pos hshort] at hwritten
    rw [← Option.some.inj hwritten]
    exact encodes_update_setShortMap hlt hbci hlocals hheight fun p hp => hbits.testBit_of_lt hp
  · rw [if_neg hshort, Option.map_eq_some_iff] at hwritten
    obtain ⟨bitmap, hbitmap, rfl⟩ := hwritten
    obtain ⟨hlength, hbits⟩ := writeLongMap_spec hbitmap
    exact encodes_update_setLongMap hlength hbits

theorem compressEntry_isSome (verifierStackmap : List ℕ) (e : MapEntry) :
    ∃ e', compressEntry true verifierStackmap e = some e' := by
  obtain ⟨bitmap, hbitmap⟩ := writeLongMap_isSome verifierStackmap
  simp only [compressEntry, hbitmap]
  split_ifs <;> exact ⟨_, rfl⟩

theorem compressLoop_isSome (hallocates : ∀ k, allocates k = true) (methodStackmaps : List (List ℕ))
    (j : ℕ) (list : StackmapList) :
    ∃ list', compressLoop allocates methodStackmaps j list = some list' := by
  induction methodStackmaps generalizing j list with
  | nil => exact ⟨list, rfl⟩
  | cons verifierStackmap methodStackmaps ih =>
    obtain ⟨e, he⟩ := compressEntry_isSome verifierStackmap (list.getD j fresh)
    rw [compressLoop, hallocates, he]
    exact ih _ _

/-- **Run lemma** of the compression: the entries before `j` are done, the others fresh. -/
theorem represents_compressLoop {done : StackmapList} {doneMaps todo : List VerifierStackmap}
    (hdone : Represents done doneMaps)
    (h : compressLoop allocates (todo.map VerifierStackmap.toArray) done.length
      (done ++ List.replicate todo.length fresh) = some list) :
    Represents list (doneMaps ++ todo) := by
  induction todo generalizing done doneMaps with
  | nil =>
    rw [List.length_nil, List.replicate_zero, List.append_nil] at h
    rw [List.append_nil, ← Option.some.inj h]
    exact hdone
  | cons stackmap todo ih =>
    rw [List.map_cons, compressLoop, List.length_cons, List.replicate_succ] at h
    have hfresh :
        (done ++ fresh :: List.replicate todo.length fresh).getD done.length fresh = fresh := by
      rw [List.getD_append_right _ _ _ _ le_rfl, Nat.sub_self, List.getD_cons_zero]
    rw [hfresh] at h
    cases hentry : compressEntry (allocates (done.length + 1)) stackmap.toArray fresh with
    | none =>
      rw [hentry] at h
      cases h
    | some e =>
      rw [hentry] at h
      have hset : (done ++ fresh :: List.replicate todo.length fresh).set done.length e =
          (done ++ [e]) ++ List.replicate todo.length fresh := by
        rw [List.set_append_right _ _ le_rfl, Nat.sub_self, List.set_cons_zero, List.append_assoc,
          List.singleton_append]
      have hlength : done.length + 1 = (done ++ [e]).length := by
        rw [List.length_append, List.length_singleton]
      simp only [hset, hlength] at h
      have hmore : Represents (done ++ [e]) (doneMaps ++ [stackmap]) :=
        List.rel_append hdone (.cons (encodes_compressEntry hentry) .nil)
      have hrest := ih hmore h
      rwa [List.append_assoc, List.singleton_append] at hrest

/-- The list that `compress_verifier_stackmap` returns stands for the stackmaps. -/
theorem represents_compress {stackmaps : List VerifierStackmap}
    (h : compressVerifierStackmap allocates (stackmaps.map VerifierStackmap.toArray) = some list) :
    Represents list stackmaps := by
  rw [compressVerifierStackmap, List.length_map] at h
  split_ifs at h
  have hempty : Represents [] [] := .nil
  exact represents_compressLoop hempty h

end Compress

/-! ## Edits -/

/-- The conversion of an integer to `juint` and to `unsigned short`. -/
def juint (x : ℤ) : ℕ := (x % 2 ^ 32).toNat
def jushort (x : ℤ) : ℕ := (x % 2 ^ 16).toNat

/-- `StackmapGenerator::convert_short_to_long_map`, for the entry itself
(StackmapGenerator.cpp:388-408). -/
def convertEntry (allocates : Bool) (e : MapEntry) : Option MapEntry :=
  let locals := e.getLocals
  let stack := e.getStackHeight
  let bci := e.getBci
  (newShortArray allocates (arrayMax locals stack)).map fun bitmap =>
    let bitmap := if arrayMax locals stack > 3 then bitmap.set 3 e.getShortMap else bitmap
    (e.setLongMap bitmap).update (locals % 2 ^ 16) (stack % 2 ^ 16) (bci % 2 ^ 16)

/-- `StackmapGenerator::convert_short_to_long_map`. -/
def convertShortToLongMap (allocates : Bool) (list : StackmapList) (index : ℕ) :
    Option StackmapList :=
  (convertEntry allocates (list.getD index fresh)).map (list.set index)

/-- The body of the loop of `rewrite_stackmap_bcis`, for one entry
(StackmapGenerator.cpp:434-463). -/
def rewriteEntry (allocates : Bool) (shiftedBci : ℕ) (bciShift : ℤ) (e : MapEntry) :
    Option MapEntry :=
  let mapBci := e.getBci
  if mapBci ≥ shiftedBci then
    let isShort := isShortmapType e.getLocals e.getStackHeight (juint (mapBci + bciShift))
    let converted := if !isShort && e.isShortMap then convertEntry allocates e else some e
    converted.map fun e => e.setBci (jushort (mapBci + bciShift))
  else some e

/-- The loop of `rewrite_stackmap_bcis`. -/
def rewriteLoop (allocates : ℕ → Bool) (shiftedBci : ℕ) (bciShift : ℤ) :
    (count i : ℕ) → StackmapList → Option StackmapList
  | 0, _, list => some list
  | count + 1, i, list =>
    match rewriteEntry (allocates i) shiftedBci bciShift (list.getD i fresh) with
    | none => none
    | some e => rewriteLoop allocates shiftedBci bciShift count (i + 1) (list.set i e)

/-- `StackmapGenerator::rewrite_stackmap_bcis` (StackmapGenerator.cpp:412-467). -/
def rewriteStackmapBcis (allocates : ℕ → Bool) (list : StackmapList) (shiftedBci : ℕ)
    (bciShift : ℤ) : Option StackmapList :=
  rewriteLoop allocates shiftedBci bciShift list.length 0 list

/-- The bci of a stackmap after the bytecodes from `shiftedBci` on have moved. -/
def VerifierStackmap.shift (shiftedBci : ℕ) (bciShift : ℤ) (stackmap : VerifierStackmap) :
    VerifierStackmap :=
  if stackmap.bci ≥ shiftedBci then stackmap.withBci (jushort (stackmap.bci + bciShift))
  else stackmap

variable {shiftedBci : ℕ} {bciShift : ℤ}

section Entries

variable {allocates : Bool} {stackmap : VerifierStackmap} {e e' : MapEntry}

theorem jushort_lt (x : ℤ) : jushort x < 2 ^ 16 := by
  unfold jushort
  omega

theorem jushort_of_juint_lt {x : ℤ} (h : juint x < 2 ^ 9) : jushort x < 2 ^ 9 := by
  unfold juint at h
  unfold jushort
  omega

/-- The bits of a short map, and no others, are in the array of its long map. -/
theorem streamBit_converted {bits locals stack p : ℕ} (hbits : bits < 2 ^ 16)
    (hp : p < locals + stack) :
    streamBit 16 ((List.replicate (arrayMax locals stack) 0).set 3 bits) (3 * 16 + p) =
      bits.testBit p := by
  have hroom : 3 < arrayMax locals stack := by
    unfold arrayMax bitsPerLongmapEntry
    omega
  by_cases hfirst : p < 16
  · have hposition : 3 * 16 + p = 16 * 3 + p := by omega
    rw [hposition, streamBit_set_self (by simpa using hroom) hfirst]
  · have hzero : streamBit 16 (List.replicate (arrayMax locals stack) 0) (3 * 16 + p) = false := by
      rw [streamBit, List.getD_eq_getElem?_getD, List.getElem?_replicate]
      split_ifs <;> simp
    have hlarge : 2 ^ 16 ≤ 2 ^ p := Nat.pow_le_pow_right (by decide) (by omega)
    rw [streamBit_set_of_ne (by omega), hzero, Nat.testBit_lt_two_pow (lt_of_lt_of_le hbits hlarge)]

/-- **Spec lemma** of the conversion: the long map stands for the same stackmap. -/
theorem encodes_convertEntry (h : Encodes e stackmap) (hshort : e.isShortMap = true)
    (hconvert : convertEntry allocates e = some e') :
    Encodes e' stackmap ∧ e'.isShortMap = false := by
  have hbitmap : e.getShortMap < 2 ^ 16 := Nat.mod_lt _ (by decide)
  simp only [convertEntry, h.locals, h.stackHeight, h.bci, Nat.mod_eq_of_lt stackmap.bci_lt,
    Nat.mod_eq_of_lt stackmap.locals_lt, Nat.mod_eq_of_lt stackmap.stack_lt,
    Option.map_eq_some_iff] at hconvert
  obtain ⟨zeros, hzeros, rfl⟩ := hconvert
  rw [newShortArray] at hzeros
  split_ifs at hzeros
  rw [← Option.some.inj hzeros]
  refine ⟨encodes_update_setLongMap ?_ ?_, ?_⟩
  · have hmax : 3 ≤ arrayMax stackmap.locals.length stackmap.stack.length := Nat.le_add_left 3 _
    split_ifs <;> simpa using hmax
  · intro p hp
    have hroom : arrayMax stackmap.locals.length stackmap.stack.length > 3 := by
      unfold VerifierStackmap.slots at hp
      unfold arrayMax bitsPerLongmapEntry
      omega
    have hbit := h.bit p hp
    rw [bit, if_pos hshort] at hbit
    rw [if_pos hroom, streamBit_converted hbitmap hp, hbit]
  · rw [update_setLongMap, isShortMap_pointer]

/-- **Spec lemma** of one iteration of `rewrite_stackmap_bcis`. -/
theorem encodes_rewriteEntry (h : Encodes e stackmap)
    (hrewrite : rewriteEntry allocates shiftedBci bciShift e = some e') :
    Encodes e' (stackmap.shift shiftedBci bciShift) := by
  simp only [rewriteEntry, h.bci, h.locals, h.stackHeight] at hrewrite
  rw [VerifierStackmap.shift]
  by_cases hmoved : stackmap.bci ≥ shiftedBci
  · rw [if_pos hmoved, Option.map_eq_some_iff] at hrewrite
    rw [if_pos hmoved]
    obtain ⟨converted, hconverted, rfl⟩ := hrewrite
    by_cases hconvert : (!isShortmapType stackmap.locals.length stackmap.stack.length
        (juint (stackmap.bci + bciShift)) && e.isShortMap) = true
    · rw [if_pos hconvert] at hconverted
      have hshort : e.isShortMap = true := (Bool.and_eq_true_iff.mp hconvert).2
      obtain ⟨hencodes, hlong⟩ := encodes_convertEntry h hshort hconverted
      refine encodes_setBci hencodes (jushort_lt _) fun hshort' => ?_
      rw [hlong] at hshort'
      cases hshort'
    · rw [if_neg hconvert] at hconverted
      rw [← Option.some.inj hconverted]
      refine encodes_setBci h (jushort_lt _) fun hshort => ?_
      have hfits : isShortmapType stackmap.locals.length stackmap.stack.length
          (juint (stackmap.bci + bciShift)) = true := by
        by_contra hnot
        exact hconvert (by rw [Bool.eq_false_iff.mpr hnot, hshort]; rfl)
      exact jushort_of_juint_lt (isShortmapType_bounds hfits).2.2.1
  · rw [if_neg hmoved] at hrewrite ⊢
    rw [← Option.some.inj hrewrite]
    exact h

theorem convertEntry_isSome (e : MapEntry) : ∃ e', convertEntry true e = some e' := ⟨_, rfl⟩

theorem rewriteEntry_isSome (shiftedBci : ℕ) (bciShift : ℤ) (e : MapEntry) :
    ∃ e', rewriteEntry true shiftedBci bciShift e = some e' := by
  obtain ⟨converted, hconverted⟩ := convertEntry_isSome e
  simp only [rewriteEntry, hconverted]
  split_ifs <;> exact ⟨_, rfl⟩

end Entries

/-! ### Sequences of edits -/

/-- A conversion of an entry, or a call of `rewrite_stackmap_bcis`; `allocates` says which of the
allocations succeed. -/
inductive Edit
  | toLong (index : ℕ) (allocates : Bool)
  | rewriteBcis (shiftedBci : ℕ) (bciShift : ℤ) (allocates : ℕ → Bool)

/-- An edit of a list. Like its caller, a conversion first asks whether the entry is short. -/
def applyEdit : Edit → StackmapList → Option StackmapList
  | .toLong index allocates, list =>
    if (list.getD index fresh).isShortMap then convertShortToLongMap allocates list index
    else some list
  | .rewriteBcis shiftedBci bciShift allocates, list =>
    rewriteStackmapBcis allocates list shiftedBci bciShift

/-- The edits one after the other, until an allocation fails. -/
def runEdits : List Edit → StackmapList → Option StackmapList
  | [], list => some list
  | edit :: edits, list =>
    match applyEdit edit list with
    | none => none
    | some list' => runEdits edits list'

/-- The allocations of an edit succeed. -/
def Edit.Allocates : Edit → Prop
  | .toLong _ allocates => allocates = true
  | .rewriteBcis _ _ allocates => ∀ i, allocates i = true

/-- The entry is one that the edit is about. -/
def Edit.Concerns (list : StackmapList) (i : ℕ) : Edit → Prop
  | .toLong index _ => i = index
  | .rewriteBcis shiftedBci _ _ => (list.getD i fresh).getBci ≥ shiftedBci

/-- What an edit makes of a stackmap. -/
def Edit.apply (stackmap : VerifierStackmap) : Edit → VerifierStackmap
  | .toLong _ _ => stackmap
  | .rewriteBcis shiftedBci bciShift _ => stackmap.shift shiftedBci bciShift

/-- The stackmap after all edits. -/
def VerifierStackmap.edited (edits : List Edit) (stackmap : VerifierStackmap) : VerifierStackmap :=
  edits.foldl Edit.apply stackmap

variable {i : ℕ}

section Lists

variable {list list' : StackmapList} {stackmaps : List VerifierStackmap}

theorem Represents.getD (h : Represents list stackmaps) (hi : i < stackmaps.length) :
    Encodes (list.getD i fresh) stackmaps[i] := by
  have hlength := h.length_eq
  have hentry := List.Forall₂.get h (by omega : i < list.length) hi
  rwa [List.getD_eq_getElem _ _ (by omega : i < list.length)]

theorem Represents.set (h : Represents list stackmaps) {e : MapEntry}
    {stackmap : VerifierStackmap} (he : Encodes e stackmap) :
    Represents (list.set i e) (stackmaps.set i stackmap) := by
  induction h generalizing i with
  | nil => exact .nil
  | cons hhead htail ih =>
    cases i with
    | zero => exact .cons he htail
    | succ i => exact .cons hhead ih

/-- **Run lemma** of `rewrite_stackmap_bcis`: the entries before `i` are done. -/
theorem represents_rewriteLoop {allocates : ℕ → Bool} {count : ℕ}
    {done todo : List VerifierStackmap} (hdone : done.length = i) (hcount : todo.length = count)
    (h : Represents list (done ++ todo))
    (hloop : rewriteLoop allocates shiftedBci bciShift count i list = some list') :
    Represents list' (done ++ todo.map (VerifierStackmap.shift shiftedBci bciShift)) := by
  induction todo generalizing count i done list with
  | nil =>
    subst hcount
    rw [← Option.some.inj hloop]
    exact h
  | cons stackmap todo ih =>
    subst hcount hdone
    rw [List.length_cons, rewriteLoop] at hloop
    cases hentry : rewriteEntry (allocates done.length) shiftedBci bciShift
        (list.getD done.length fresh) with
    | none =>
      rw [hentry] at hloop
      cases hloop
    | some e =>
      rw [hentry] at hloop
      have hold := h.getD (by rw [List.length_append, List.length_cons]; omega :
        done.length < (done ++ stackmap :: todo).length)
      rw [List.getElem_append_right le_rfl] at hold
      simp only [Nat.sub_self, List.getElem_cons_zero] at hold
      have hset := h.set (encodes_rewriteEntry hold hentry) (i := done.length)
      rw [List.set_append_right _ _ le_rfl, Nat.sub_self, List.set_cons_zero,
        List.append_cons] at hset
      have hrest := ih (by simp) rfl hset hloop
      rwa [List.append_assoc, List.singleton_append] at hrest

/-- **Step lemma**: what the list stands for after an edit. -/
theorem represents_applyEdit (h : Represents list stackmaps) {edit : Edit}
    (hedit : applyEdit edit list = some list') :
    Represents list' (stackmaps.map fun stackmap => edit.apply stackmap) := by
  cases edit with
  | toLong index allocates =>
    have hsame : (stackmaps.map fun stackmap => (Edit.toLong index allocates).apply stackmap) =
        stackmaps := List.map_id stackmaps
    rw [hsame]
    simp only [applyEdit] at hedit
    split_ifs at hedit with hshort
    · simp only [convertShortToLongMap, Option.map_eq_some_iff] at hedit
      obtain ⟨e, he, rfl⟩ := hedit
      by_cases hindex : index < stackmaps.length
      · have hset := h.set (encodes_convertEntry (h.getD hindex) hshort he).1 (i := index)
        rwa [List.set_getElem_self] at hset
      · have hlength := h.length_eq
        rwa [List.set_eq_of_length_le (by omega)]
    · rwa [← Option.some.inj hedit]
  | rewriteBcis shiftedBci bciShift allocates =>
    simp only [applyEdit, rewriteStackmapBcis] at hedit
    have hempty : ([] : List VerifierStackmap).length = 0 := rfl
    have hrun := represents_rewriteLoop hempty h.length_eq.symm (by rwa [List.nil_append]) hedit
    rwa [List.nil_append] at hrun

/-- **Run lemma**: what the list stands for after any sequence of edits. -/
theorem represents_runEdits (h : Represents list stackmaps) {edits : List Edit}
    (hedits : runEdits edits list = some list') :
    Represents list' (stackmaps.map (VerifierStackmap.edited edits)) := by
  induction edits generalizing list stackmaps with
  | nil =>
    have hsame : stackmaps.map (VerifierStackmap.edited []) = stackmaps := List.map_id stackmaps
    rw [hsame, ← Option.some.inj hedits]
    exact h
  | cons edit edits ih =>
    rw [runEdits] at hedits
    cases hedit : applyEdit edit list with
    | none =>
      rw [hedit] at hedits
      cases hedits
    | some next =>
      rw [hedit] at hedits
      have hrest := ih (represents_applyEdit h hedit) hedits
      rwa [List.map_map] at hrest

/-! ### What an edit leaves alone -/

theorem rewriteEntry_unmoved {allocates : Bool} {e e' : MapEntry}
    (hunmoved : ¬ e.getBci ≥ shiftedBci)
    (h : rewriteEntry allocates shiftedBci bciShift e = some e') : e' = e := by
  rw [rewriteEntry, if_neg hunmoved] at h
  exact (Option.some.inj h).symm

/-- The loop leaves the entries before `i` and those that do not move as they are. -/
theorem rewriteLoop_unmoved {allocates : ℕ → Bool} {count j : ℕ}
    (hunmoved : ¬ (list.getD j fresh).getBci ≥ shiftedBci)
    (h : rewriteLoop allocates shiftedBci bciShift count i list = some list') :
    list'[j]? = list[j]? := by
  induction count generalizing i list with
  | zero => rw [← Option.some.inj h]
  | succ count ih =>
    rw [rewriteLoop] at h
    cases hentry : rewriteEntry (allocates i) shiftedBci bciShift (list.getD i fresh) with
    | none =>
      rw [hentry] at h
      cases h
    | some e =>
      rw [hentry] at h
      have hset : (list.set i e)[j]? = list[j]? := by
        by_cases hij : i = j
        · subst hij
          rw [rewriteEntry_unmoved hunmoved hentry, List.getElem?_set_self']
          cases hold : list[i]? <;> simp [List.getD_eq_getElem?_getD, hold]
        · exact List.getElem?_set_ne hij
      have hstill : ¬ ((list.set i e).getD j fresh).getBci ≥ shiftedBci := by
        rwa [List.getD_eq_getElem?_getD, hset, ← List.getD_eq_getElem?_getD]
      exact (ih hstill h).trans hset

/-- An edit leaves the entries that it is not about as they are. -/
theorem applyEdit_unconcerned {edit : Edit} {j : ℕ} (hj : ¬ edit.Concerns list j)
    (h : applyEdit edit list = some list') : list'[j]? = list[j]? := by
  cases edit with
  | toLong index allocates =>
    have hne : index ≠ j := fun heq => hj heq.symm
    simp only [applyEdit] at h
    split_ifs at h
    · simp only [convertShortToLongMap, Option.map_eq_some_iff] at h
      obtain ⟨e, -, rfl⟩ := h
      exact List.getElem?_set_ne hne
    · rw [← Option.some.inj h]
  | rewriteBcis shiftedBci bciShift allocates => exact rewriteLoop_unmoved hj h

theorem rewriteLoop_isSome {allocates : ℕ → Bool} (hallocates : ∀ i, allocates i = true)
    (shiftedBci : ℕ) (bciShift : ℤ) (count i : ℕ) (list : StackmapList) :
    ∃ list', rewriteLoop allocates shiftedBci bciShift count i list = some list' := by
  induction count generalizing i list with
  | zero => exact ⟨list, rfl⟩
  | succ count ih =>
    obtain ⟨e, he⟩ := rewriteEntry_isSome shiftedBci bciShift (list.getD i fresh)
    rw [rewriteLoop, hallocates, he]
    exact ih _ _

theorem applyEdit_isSome {edit : Edit} (h : edit.Allocates) (list : StackmapList) :
    ∃ list', applyEdit edit list = some list' := by
  cases edit with
  | toLong index allocates =>
    have hallocates : allocates = true := h
    obtain ⟨e, he⟩ := convertEntry_isSome (list.getD index fresh)
    simp only [applyEdit, convertShortToLongMap, hallocates, he]
    split_ifs <;> exact ⟨_, rfl⟩
  | rewriteBcis shiftedBci bciShift allocates =>
    exact rewriteLoop_isSome h shiftedBci bciShift list.length 0 list

end Lists

/-! ## The round trip -/

/-- Entry `e` is read as the stackmap, into whatever the gc stackmap held before: its bci, its
numbers of slots, the tag of each of its slots, and no reference in the other locals. -/
structure ReadsAs (e : MapEntry) (stackmap : VerifierStackmap) : Prop where
  bci : e.getBci = stackmap.bci
  locals : e.getLocals = stackmap.locals.length
  stackHeight : e.getStackHeight = stackmap.stack.length
  local_slot : ∀ maxLocals, stackmap.locals.length ≤ maxLocals → ∀ gcStackmap p
    (hp : p < stackmap.locals.length),
    convertToStackmaptag (readMap e maxLocals gcStackmap p) = .obj ↔
      stackmap.locals[p].isReference = true
  unmentioned : ∀ maxLocals, stackmap.locals.length ≤ maxLocals → ∀ gcStackmap p,
    stackmap.locals.length ≤ p → p < maxLocals →
    convertToStackmaptag (readMap e maxLocals gcStackmap p) = .int
  stack_slot : ∀ maxLocals, stackmap.locals.length ≤ maxLocals → ∀ gcStackmap q
    (hq : q < stackmap.stack.length),
    convertToStackmaptag (readMap e maxLocals gcStackmap (maxLocals + q)) = .obj ↔
      stackmap.stack[q].isReference = true

theorem readsAs_of_encodes {e : MapEntry} {stackmap : VerifierStackmap} (h : Encodes e stackmap) :
    ReadsAs e stackmap where
  bci := h.bci
  locals := h.locals
  stackHeight := h.stackHeight
  local_slot := by
    intro maxLocals hmax gcStackmap p hp
    have hslot : stackmap.isReference p = stackmap.locals[p].isReference := by
      simp [VerifierStackmap.isReference, List.getElem?_append, hp]
    rw [readMap_of_encodes h hmax, expansion_local hp hmax, convertToStackmaptag_itemOf, hslot]
  unmentioned := by
    intro maxLocals hmax gcStackmap p hlocals hp
    rw [readMap_of_encodes h hmax, expansion_unmentioned hlocals hp]
    rfl
  stack_slot := by
    intro maxLocals hmax gcStackmap q hq
    have hslot : stackmap.isReference (stackmap.locals.length + q) =
        stackmap.stack[q].isReference := by
      simp [VerifierStackmap.isReference, hq]
    rw [readMap_of_encodes h hmax, expansion_stack hq, convertToStackmaptag_itemOf, hslot]

/-- **Main theorem**: if its allocations succeed, `compress_verifier_stackmap` returns a list, and
each entry of a list it returns is read as its stackmap. After any edits each entry is read as
its stackmap with the bcis moved, and one more edit changes no entry that it is not about. -/
theorem compress_readsAs (allocates : ℕ → Bool) (stackmaps : List VerifierStackmap) :
    ((∀ k, allocates k = true) → ∃ list,
      compressVerifierStackmap allocates (stackmaps.map VerifierStackmap.toArray) = some list) ∧
    ∀ list,
      compressVerifierStackmap allocates (stackmaps.map VerifierStackmap.toArray) = some list →
      List.Forall₂ ReadsAs list stackmaps ∧
      ∀ edits edited, runEdits edits list = some edited →
        List.Forall₂ ReadsAs edited (stackmaps.map (VerifierStackmap.edited edits)) ∧
        ∀ edit : Edit, (edit.Allocates → ∃ next, applyEdit edit edited = some next) ∧
          ∀ next, applyEdit edit edited = some next →
            ∀ j, ¬ edit.Concerns edited j → next[j]? = edited[j]? := by
  refine ⟨fun hallocates => ?_, fun list hlist => ?_⟩
  · rw [compressVerifierStackmap, if_pos (hallocates 0)]
    exact compressLoop_isSome hallocates _ _ _
  · have hrepresents := represents_compress hlist
    refine ⟨hrepresents.imp fun _ _ => readsAs_of_encodes, fun edits edited hedits => ?_⟩
    have hedited := represents_runEdits hrepresents hedits
    refine ⟨hedited.imp fun _ _ => readsAs_of_encodes, fun edit => ⟨fun hallocates => ?_, ?_⟩⟩
    · exact applyEdit_isSome hallocates edited
    · intro next hnext j hj
      exact applyEdit_unconcerned hj hnext

/-! ## Finding the entry of a bci -/

/-- The loop of `find_compressed_stackmap`, from entry `i` on. -/
def findLoop (list : StackmapList) (gcBci : ℕ) : (count i : ℕ) → ℤ
  | 0, _ => -1
  | count + 1, i =>
    if gcBci < (list.getD i fresh).getBci then i - 1 else findLoop list gcBci count (i + 1)

/-- `StackmapGenerator::find_compressed_stackmap`
(StackmapGenerator.cpp:472-495). -/
def findCompressedStackmap (list : StackmapList) (gcBci : ℕ) : ℤ :=
  if list.length = 0 then -1
  else if gcBci ≥ (list.getD (list.length - 1) fresh).getBci then list.length - 1
  else findLoop list gcBci list.length 0

section Find

variable {list : StackmapList} {gcBci : ℕ}

/-- The first `n` entries are those whose bci is not after the one looked for. -/
def Reaches (list : StackmapList) (gcBci n : ℕ) : Prop :=
  n ≤ list.length ∧ ∀ j < list.length, j < n ↔ (list.getD j fresh).getBci ≤ gcBci

/-- **Run lemma**: the loop stops at the first entry above the bci. -/
theorem findLoop_spec (hsorted : ∀ i j, i ≤ j → j < list.length →
      (list.getD i fresh).getBci ≤ (list.getD j fresh).getBci) {count : ℕ}
    (hcount : i + count = list.length) (hbefore : ∀ j < i, (list.getD j fresh).getBci ≤ gcBci)
    (hlast : gcBci < (list.getD (list.length - 1) fresh).getBci) (hpos : 0 < list.length) :
    ∃ n : ℕ, findLoop list gcBci count i = (n : ℤ) - 1 ∧ Reaches list gcBci n := by
  induction count generalizing i with
  | zero =>
    have habsurd := hbefore (list.length - 1) (by omega)
    omega
  | succ count ih =>
    rw [findLoop]
    split_ifs with hstop
    · refine ⟨i, rfl, by omega, fun j hj => ?_⟩
      by_cases hji : j < i
      · exact iff_of_true hji (hbefore j hji)
      · have hle := hsorted i j (by omega) hj
        exact iff_of_false hji (by omega)
    · refine ih (by omega) fun j hj => ?_
      rcases Nat.lt_succ_iff_lt_or_eq.mp hj with hlt | rfl
      · exact hbefore j hlt
      · exact Nat.le_of_not_lt hstop

/-- **Spec lemma** of the search: the last entry whose bci is not after the one looked for. -/
theorem findCompressedStackmap_spec (hsorted : ∀ i j, i ≤ j → j < list.length →
      (list.getD i fresh).getBci ≤ (list.getD j fresh).getBci) :
    ∃ n : ℕ, findCompressedStackmap list gcBci = (n : ℤ) - 1 ∧ Reaches list gcBci n := by
  rw [findCompressedStackmap]
  split_ifs with hempty hlast
  · exact ⟨0, rfl, Nat.zero_le _, fun j hj => absurd hj (by omega)⟩
  · refine ⟨list.length, rfl, le_rfl, fun j hj => iff_of_true hj ?_⟩
    have hle := hsorted j (list.length - 1) (by omega) (by omega)
    omega
  · exact findLoop_spec hsorted (by omega) (fun k hk => absurd hk (Nat.not_lt_zero k))
      (Nat.lt_of_not_le hlast) (by omega)

/-- **Main theorem** on the search: after any edits that leave the bcis in order, it finds the
entry of the last stackmap whose bci is not after the one looked for. -/
theorem findCompressedStackmap_edited {allocates : ℕ → Bool} {stackmaps : List VerifierStackmap}
    {edits : List Edit} {edited : StackmapList}
    (hlist : compressVerifierStackmap allocates (stackmaps.map VerifierStackmap.toArray) = some list)
    (hedits : runEdits edits list = some edited)
    (hsorted : (stackmaps.map (VerifierStackmap.edited edits)).Pairwise fun s t => s.bci ≤ t.bci) :
    ∃ n : ℕ, findCompressedStackmap edited gcBci = (n : ℤ) - 1 ∧ n ≤ stackmaps.length ∧
      ∀ i (hi : i < stackmaps.length),
        ReadsAs (edited.getD i fresh) (stackmaps[i].edited edits) ∧
          (i < n ↔ (stackmaps[i].edited edits).bci ≤ gcBci) := by
  have hedited := represents_runEdits (represents_compress hlist) hedits
  have hlength : edited.length = stackmaps.length := hedited.length_eq.trans (List.length_map _)
  have hentry : ∀ i (hi : i < stackmaps.length),
      Encodes (edited.getD i fresh) (stackmaps[i].edited edits) := by
    intro i hi
    have hencodes := hedited.getD (by rwa [List.length_map] : i < _)
    rwa [List.getElem_map] at hencodes
  obtain ⟨n, hfind, hle, hreaches⟩ := @findCompressedStackmap_spec edited gcBci <| by
    intro i j hij hj
    rw [(hentry i (by omega)).bci, (hentry j (by omega)).bci]
    rcases hij.eq_or_lt with rfl | hlt
    · exact le_rfl
    · exact List.pairwise_iff_getElem.mp (List.pairwise_map.mp hsorted) i j _ _ hlt
  refine ⟨n, hfind, by omega, fun i hi => ⟨readsAs_of_encodes (hentry i hi), ?_⟩⟩
  rw [hreaches i (by omega), (hentry i hi).bci]

/-- Two stackmaps, the second of which is moved by two. -/
def twoStackmaps : List VerifierStackmap :=
  [⟨3, [], [], [], by decide, by decide, by decide⟩,
    ⟨9, [], [], [], by decide, by decide, by decide⟩]

theorem findCompressedStackmap_twoStackmaps :
    ∃ edited, ∃ n : ℕ, findCompressedStackmap edited 10 = (n : ℤ) - 1 ∧ n ≤ 2 ∧
      ∀ i (hi : i < twoStackmaps.length),
        ReadsAs (edited.getD i fresh) (twoStackmaps[i].edited [.rewriteBcis 5 2 fun _ => true]) ∧
          (i < n ↔ (twoStackmaps[i].edited [.rewriteBcis 5 2 fun _ => true]).bci ≤ 10) :=
  ⟨_, @findCompressedStackmap_edited _ 10 (fun _ => true) twoStackmaps _ _ rfl rfl (by decide)⟩

end Find

end CldcVm.Stackmap
