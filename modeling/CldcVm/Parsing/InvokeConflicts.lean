import CldcVm.Handles.Walk
import CldcVm.Lib.Bitmap

/-!
# Splitting the method references that `invokespecial` and `invokevirtual` share

`ClassFileParser::resolve_invoke_special_virtual_conflicts` (`runtime/ClassFileParser.cpp`,
lines 1625–1760). Two bitmaps mark the constant pool indices of the `invokespecial` and the
`invokevirtual` instructions of the class. For every index marked in both the constant pool gets
a copy of the entry at its end, and the `invokespecial` instructions are rewritten to the copy.

The operands have not been verified at this point: they are any `u2`. The bitmaps have
`cp_length / 32 + 1` words; an access outside an array has no result here.

Results:

* `resolveConflicts_iff`: the conflicts are resolved iff the operands lie in the bitmaps, the
  shared ones in the constant pool, and no `invokevirtual` names an index past the end of the
  constant pool that a copy is going to have.
-/

namespace CldcVm.Parsing

open Bytecodes Handles Lib

/-! ## Model of the C++ code -/

/-- An entry of the constant pool: `tag_value_at` and `value32_at`. -/
structure Entry where
  tag : UInt8
  value32 : BitVec 32
deriving DecidableEq, Repr

/-- A method in the table of the class. A miranda method has the constants of an interface:
`old_cp->equals(method().constants())` is false of it. -/
structure Method where
  sharesConstants : Bool
  code : Code
deriving DecidableEq, Repr

/-- The parts of `this_klass` that are read and rewritten. -/
structure InstanceClass where
  constants : List Entry
  methods : List Method
deriving DecidableEq, Repr

/-- What the function throws. -/
inductive ResolveError
  | outOfMemoryError
deriving DecidableEq, Repr

/-- The body of the loop of `fill_in_invoke_indexes`, lines 1684–1699. The bitmaps are
`invoke_sp_ids` and `invoke_vi_ids`. -/
def markInvoke (code : Code) (ids : Bitmap × Bitmap) (bci : ℕ) : Option (Bitmap × Bitmap) :=
  if code.getUbyte bci = invokespecial then
    (ids.1.setBit (code.getJavaUshort (bci + 1))).map fun spIds => (spIds, ids.2)
  else if code.getUbyte bci = invokevirtual then
    (ids.2.setBit (code.getJavaUshort (bci + 1))).map fun viIds => (ids.1, viIds)
  else some ids

/-- The loop over one method, lines 1682–1700: `bci < code_size - 2`, at most `fuel`
iterations. -/
def fillLoop (code : Code) : (fuel : ℕ) → (bci : ℕ) → Bitmap × Bitmap → Option (Bitmap × Bitmap)
  | 0, _, ids => some ids
  | fuel + 1, bci, ids =>
    if bci + 2 < code.length then
      (markInvoke code ids bci).bind (fillLoop code fuel (nextBci code bci))
    else some ids

/-- `fill_in_invoke_indexes`, lines 1674–1702. -/
def fillInInvokeIndexes (methods : List Method) (ids : Bitmap × Bitmap) :
    Option (Bitmap × Bitmap) :=
  methods.foldlM (fun ids method => fillLoop method.code method.code.length 0 ids) ids

/-- The pairs of `relocation_map`: a shared index and the index of its copy, lines 1735–1750. -/
def relocationMap (cpLength : ℕ) (collisions : List ℕ) : List (ℕ × ℕ) := collisions.zipIdx cpLength

/-- The loop over the relocation map, lines 1639–1644. -/
def copyEntries (oldCp newCp : List Entry) (map : List (ℕ × ℕ)) : Option (List Entry) :=
  map.foldlM (fun newCp pair => (oldCp[pair.1]?).map fun entry => newCp.set pair.2 entry) newCp

/-- The body of the loop over one method, lines 1663–1671. -/
def relocateInvoke (map : List (ℕ × ℕ)) (code : Code) (bci : ℕ) : Code :=
  if code.getUbyte bci = invokespecial then
    map.foldl (fun code' pair =>
      if pair.1 = code.getJavaUshort (bci + 1) then code'.putJavaUshort (bci + 1) pair.2
      else code') code
  else code

/-- The loop over one method, lines 1661–1673, at most `fuel` iterations. -/
def relocateLoop (map : List (ℕ × ℕ)) : (fuel : ℕ) → (bci : ℕ) → Code → Code
  | 0, _, code => code
  | fuel + 1, bci, code =>
    if bci < code.length then
      relocateLoop map fuel (nextBci (relocateInvoke map code bci) bci) (relocateInvoke map code bci)
    else code

/-- A method of the class after its instructions were rewritten. -/
def relocateMethod (map : List (ℕ × ℕ)) (method : Method) : Method :=
  if method.sharesConstants then
    { method with code := relocateLoop map method.code.length 0 method.code }
  else method

/-- `clone_invoke_special_virtual_conflicts`, lines 1625–1672. The new constant pool has
room for the copies; the old entries have been copied to its front. -/
def cloneConflicts (klass : InstanceClass) (map : List (ℕ × ℕ)) : Option InstanceClass :=
  (copyEntries klass.constants (klass.constants ++ List.replicate map.length ⟨0, 0⟩) map).map
    fun newCp => ⟨newCp, klass.methods.map (relocateMethod map)⟩

/-- `bitmap_length`. -/
def bitmapLength (klass : InstanceClass) : ℕ := klass.constants.length / 32 + 1

/-- What is done about the collisions, lines 1732–1759. -/
def resolveCollisions (klass : InstanceClass) (collisions : List ℕ) :
    Option (Except ResolveError InstanceClass) :=
  if collisions.length = 0 then some (.ok klass)
  else if collisions.length + klass.constants.length > 65535 then some (.error .outOfMemoryError)
  else (cloneConflicts klass (relocationMap klass.constants.length collisions)).map .ok

/-- `resolve_invoke_special_virtual_conflicts`, lines 1709–1760: no result where an array is
accessed outside its bounds. -/
def resolveConflicts (klass : InstanceClass) : Option (Except ResolveError InstanceClass) :=
  (fillInInvokeIndexes klass.methods
      (Bitmap.empty (bitmapLength klass), Bitmap.empty (bitmapLength klass))).bind
    fun ids => resolveCollisions klass (Bitmap.commonBits ids.1 ids.2)

/-! ## Specification -/

/-- The code array of a method that was parsed: a Java method passed `check_bytecodes`; a native,
abstract or miranda method is a `fast_invokenative` with the address of its function. -/
inductive Method.Parsed (method : Method) : Prop
  | java {original : Code} {s : CheckState} (hsize : original.length < 2 ^ 16)
      (hscan : scanBytecodes original = .ok s) (hcode : method.code = s.code) : Parsed method
  | native (hlen : method.code.length = 8) (hcode : method.code.getUbyte 0 = fastInvokenative) :
      Parsed method

/-- A class whose parts have been parsed: the length of the constant pool is a `u2`, and miranda
methods have no code of their own. -/
structure ParsedClass extends InstanceClass where
  length_lt : constants.length < 2 ^ 16
  parsed : ∀ method ∈ methods, method.Parsed
  miranda : ∀ method ∈ methods, method.sharesConstants = false →
    method.code.length = 8 ∧ method.code.getUbyte 0 = fastInvokenative

/-- The constant pool indices that the instructions `op` of the methods use, with repetitions. -/
def indexes (op : ℕ) (methods : List Method) : List ℕ :=
  methods.flatMap fun method => operands op method.code

/-- The constant pool indices that the instructions `op` of the class use. -/
def uses (op : ℕ) (klass : InstanceClass) : Finset ℕ := (indexes op klass.methods).toFinset

/-- The indices that both instructions use. -/
def shared (klass : InstanceClass) : Finset ℕ :=
  uses invokespecial klass ∩ uses invokevirtual klass

/-- What the split leaves of a method: an `invokespecial` that was rewritten refers to an equal
entry, and only the operands of an `invokespecial` with a shared index are rewritten. -/
structure MethodSplit (klass klass' : InstanceClass) (method method' : Method) : Prop where
  length_eq : method'.code.length = method.code.length
  bcis_eq : bcis method'.code = bcis method.code
  entry_eq : ∀ bci ∈ bcis method.code, method.code.getUbyte bci = invokespecial →
    method'.code.getJavaUshort (bci + 1) ≠ method.code.getJavaUshort (bci + 1) →
    ∃ entry, klass.constants[method.code.getJavaUshort (bci + 1)]? = some entry ∧
      klass'.constants[method'.code.getJavaUshort (bci + 1)]? = some entry
  getUbyte_eq : ∀ i, (∀ bci ∈ bcis method.code, method.code.getUbyte bci = invokespecial →
      method.code.getJavaUshort (bci + 1) ∈ uses invokevirtual klass → i ≠ bci + 1 ∧ i ≠ bci + 2) →
    method'.code.getUbyte i = method.code.getUbyte i

/-- The split of the shared method references: no index is shared any more, the entries there
were stay where they are, and the methods change as they may. -/
structure Split (klass klass' : InstanceClass) : Prop where
  disjoint : Disjoint (uses invokespecial klass') (uses invokevirtual klass')
  constants : klass.constants <+: klass'.constants
  methods : List.Forall₂ (MethodSplit klass klass') klass.methods klass'.methods

/-- The conflicts of a class are resolved, or an `OutOfMemoryError` is thrown and there is no
class. Without a result an array was accessed outside its bounds. -/
def Resolved (klass : InstanceClass) : Option (Except ResolveError InstanceClass) → Prop
  | none => False
  | some (.error .outOfMemoryError) => True
  | some (.ok klass') => Split klass klass'

/-- When the conflicts can be resolved: the operands lie in the bitmaps, and if the copies are
made, those that are shared lie in the constant pool and no `invokevirtual` uses the index
of a copy already. -/
def Resolvable (klass : InstanceClass) : Prop :=
  (∀ index ∈ uses invokespecial klass ∪ uses invokevirtual klass,
    index < 32 * bitmapLength klass) ∧
  (klass.constants.length + (shared klass).card ≤ 65535 →
    (∀ index ∈ shared klass, index < klass.constants.length) ∧
    ∀ index ∈ uses invokevirtual klass,
      index < klass.constants.length ∨ klass.constants.length + (shared klass).card ≤ index)

instance (klass : InstanceClass) : Decidable (Resolvable klass) :=
  inferInstanceAs (Decidable (_ ∧ _))

/-! ## Filling in the bitmaps -/

/-- The operands of the instructions `op` among those at the given offsets. -/
def operandsAt (op : ℕ) (code : Code) (l : List ℕ) : List ℕ :=
  (l.filter fun bci => code.getUbyte bci = op).map fun bci => code.getJavaUshort (bci + 1)

variable {bci op : ℕ}

theorem operandsAt_cons_of_eq {code : Code} (h : code.getUbyte bci = op) (l : List ℕ) :
    operandsAt op code (bci :: l) = code.getJavaUshort (bci + 1) :: operandsAt op code l := by
  unfold operandsAt
  rw [List.filter_cons_of_pos (by simpa using h), List.map_cons]

theorem operandsAt_cons_of_ne {code : Code} (h : code.getUbyte bci ≠ op)
    (l : List ℕ) : operandsAt op code (bci :: l) = operandsAt op code l := by
  unfold operandsAt
  rw [List.filter_cons_of_neg (by simpa using h)]

/-- Setting bits in both bitmaps. -/
def setBoth (ids : Bitmap × Bitmap) (sp vi : List ℕ) : Option (Bitmap × Bitmap) :=
  (ids.1.setBits sp).bind fun spIds => (ids.2.setBits vi).map fun viIds => (spIds, viIds)

theorem setBoth_append (ids : Bitmap × Bitmap) (sp sp' vi vi' : List ℕ) :
    setBoth ids (sp ++ sp') (vi ++ vi') =
      (setBoth ids sp vi).bind fun ids' => setBoth ids' sp' vi' := by
  unfold setBoth
  rw [Bitmap.setBits_append, Bitmap.setBits_append]
  cases hsp : ids.1.setBits sp with
  | none => rfl
  | some spIds =>
    cases hvi : ids.2.setBits vi with
    | none => simp
    | some viIds => simp

theorem foldlM_markInvoke (code : Code) (l : List ℕ) (ids : Bitmap × Bitmap) :
    l.foldlM (markInvoke code) ids =
      setBoth ids (operandsAt invokespecial code l) (operandsAt invokevirtual code l) := by
  have hne : invokevirtual ≠ invokespecial := by decide
  induction l generalizing ids with
  | nil => rfl
  | cons bci l ih =>
    have hstep : (bci :: l).foldlM (markInvoke code) ids =
        (markInvoke code ids bci).bind fun ids' => l.foldlM (markInvoke code) ids' := rfl
    have hcons : ∀ (map : Bitmap) (i : ℕ) (rest : List ℕ),
        map.setBits (i :: rest) = (map.setBit i).bind fun map' => map'.setBits rest :=
      fun _ _ _ => rfl
    rw [hstep]
    simp only [ih]
    unfold markInvoke
    by_cases hsp : code.getUbyte bci = invokespecial
    · rw [if_pos hsp, operandsAt_cons_of_eq hsp, operandsAt_cons_of_ne (hsp.symm ▸ hne.symm)]
      simp only [setBoth, hcons, Option.bind_map, Option.bind_assoc, Function.comp_def]
    · rw [if_neg hsp, operandsAt_cons_of_ne hsp]
      by_cases hvi : code.getUbyte bci = invokevirtual
      · rw [if_pos hvi, operandsAt_cons_of_eq hvi]
        simp only [setBoth, hcons, Option.bind_map, Function.comp_def]
        -- the two bitmaps do not depend on each other
        cases ids.2.setBit (code.getJavaUshort (bci + 1)) with
        | none => simp
        | some viIds => simp
      · rw [if_neg hvi, operandsAt_cons_of_ne hvi, Option.bind_some]

theorem fillLoop_eq {code : Code} (hwalk : Walks code bci) (fuel : ℕ) (ids : Bitmap × Bitmap) :
    fillLoop code fuel bci ids = (bcisFrom code fuel bci).foldlM (markInvoke code) ids := by
  induction fuel generalizing bci ids with
  | zero => rfl
  | succ fuel ih =>
    by_cases hlt : bci + 2 < code.length
    · cases hwalk with
      | done hge => omega
      | step _ _ _ _ rest =>
        rw [fillLoop, if_pos hlt, bcisFrom, if_pos (by omega), List.foldlM_cons]
        congr 1
        funext ids'
        exact ih rest ids'
    · -- a complete invocation would reach past the end
      have hnone : ∀ op, op = invokespecial ∨ op = invokevirtual →
          operandsAt op code (bcisFrom code (fuel + 1) bci) = [] := by
        intro op hop
        unfold operandsAt
        rw [List.map_eq_nil_iff, List.filter_eq_nil_iff]
        intro b hb heq
        have hmem := hwalk.of_mem hb
        have hinvoke : IsInvoke code b := by
          rw [decide_eq_true_eq] at heq
          rcases hop with rfl | rfl
          · exact .inl heq
          · exact .inr heq
        have := hmem.2.2 hinvoke
        omega
      rw [fillLoop, if_neg hlt, foldlM_markInvoke, hnone _ (.inl rfl), hnone _ (.inr rfl)]
      rfl

variable {method : Method}

theorem Method.Parsed.walks (h : method.Parsed) : Walks method.code 0 := by
  cases h with
  | java hsize hscan hcode => exact hcode ▸ walks_of_scanBytecodes hsize hscan
  | native hlen hcode =>
    have hpos : lengthFor (method.code.getUbyte 0) = 8 := by
      rw [hcode]
      decide +kernel
    have hnext : (nextBci method.code 0 : ℤ) = (0 : ℕ) + lengthFor (method.code.getUbyte 0) :=
      nextBci_of_pos (by omega)
    refine .step (by omega) (by omega) (selfContained_of_pos (by omega)) (fun _ => by omega)
      (.done (by omega))

/-- **Run lemma**: the fold over the methods sets the bits of their operands. -/
theorem fillInInvokeIndexes_eq {methods : List Method}
    (hparsed : ∀ method ∈ methods, method.Parsed) (ids : Bitmap × Bitmap) :
    fillInInvokeIndexes methods ids =
      setBoth ids (indexes invokespecial methods) (indexes invokevirtual methods) := by
  induction methods generalizing ids with
  | nil => rfl
  | cons method methods ih =>
    have hstep : fillInInvokeIndexes (method :: methods) ids =
        (fillLoop method.code method.code.length 0 ids).bind
          fun ids' => fillInInvokeIndexes methods ids' := rfl
    have hwalk := (hparsed method List.mem_cons_self).walks
    have happend : ∀ op, indexes op (method :: methods) =
        operandsAt op method.code (bcis method.code) ++ indexes op methods := fun _ => rfl
    rw [hstep, happend, happend, setBoth_append, fillLoop_eq hwalk, foldlM_markInvoke]
    congr 1
    funext ids'
    exact ih (fun m hm => hparsed m (List.mem_cons_of_mem _ hm)) ids'

/-- **Spec lemma** of `fill_in_invoke_indexes`: the bitmaps stand for the indices that the two
instructions use; one index beyond the bitmaps and an access is outside the array. -/
theorem fillInInvokeIndexes_spec (klass : ParsedClass) (words : ℕ) :
    if ∀ index ∈ uses invokespecial klass.toInstanceClass ∪ uses invokevirtual klass.toInstanceClass,
        index < 32 * words then
      ∃ spIds viIds, fillInInvokeIndexes klass.methods (Bitmap.empty words, Bitmap.empty words) =
          some (spIds, viIds) ∧ spIds.length = words ∧ viIds.length = words ∧
        spIds.Represents (uses invokespecial klass.toInstanceClass) ∧
        viIds.Represents (uses invokevirtual klass.toInstanceClass)
    else fillInInvokeIndexes klass.methods (Bitmap.empty words, Bitmap.empty words) = none := by
  have hsp := Bitmap.setBits_spec (Bitmap.represents_empty words) (indexes invokespecial klass.methods)
  have hvi := Bitmap.setBits_spec (Bitmap.represents_empty words) (indexes invokevirtual klass.methods)
  have hlen : (Bitmap.empty words).length = words := List.length_replicate
  have huses : ∀ index, index ∈ uses invokespecial klass.toInstanceClass ∪
      uses invokevirtual klass.toInstanceClass ↔
      index ∈ indexes invokespecial klass.methods ∨ index ∈ indexes invokevirtual klass.methods := by
    intro index
    rw [Finset.mem_union, uses, uses, List.mem_toFinset, List.mem_toFinset]
  rw [fillInInvokeIndexes_eq klass.parsed, setBoth]
  rw [hlen] at hsp hvi
  by_cases hall : ∀ index ∈ indexes invokespecial klass.methods, index < 32 * words
  · rw [if_pos hall] at hsp
    obtain ⟨spIds, hset, hlen', hrep⟩ := hsp
    rw [hset]
    by_cases hall' : ∀ index ∈ indexes invokevirtual klass.methods, index < 32 * words
    · rw [if_pos hall'] at hvi
      obtain ⟨viIds, hset', hlen'', hrep'⟩ := hvi
      rw [if_pos (fun index h => ((huses index).mp h).elim (hall index) (hall' index)), hset']
      rw [Finset.empty_union] at hrep hrep'
      exact ⟨spIds, viIds, rfl, hlen', hlen'', hrep, hrep'⟩
    · rw [if_neg hall'] at hvi
      rw [if_neg (fun h => hall' fun index hi => h index ((huses index).mpr (.inr hi))), hvi]
      rfl
  · rw [if_neg hall] at hsp
    rw [if_neg (fun h => hall fun index hi => h index ((huses index).mpr (.inl hi))), hsp]
    rfl

/-! ## Rewriting the instructions -/

/-- The index that the relocation map gives. -/
def relocated (map : List (ℕ × ℕ)) (index : ℕ) : ℕ := (map.lookup index).getD index

/-- An index has one copy, and copies have 16-bit indices. -/
structure IsRelocation (map : List (ℕ × ℕ)) : Prop where
  nodup : (map.map Prod.fst).Nodup
  lt : ∀ pair ∈ map, pair.2 < 2 ^ 16

theorem mem_of_lookup {map : List (ℕ × ℕ)} {index index' : ℕ}
    (h : map.lookup index = some index') : (index, index') ∈ map := by
  induction map with
  | nil => cases h
  | cons pair map ih =>
    rw [List.lookup_cons] at h
    by_cases heq : index = pair.1
    · rw [beq_iff_eq.mpr heq] at h
      rw [heq, ← Option.some.inj h]
      exact List.mem_cons_self
    · rw [beq_eq_false_iff_ne.mpr heq] at h
      exact List.mem_cons_of_mem _ (ih h)

theorem foldl_putJavaUshort {map : List (ℕ × ℕ)} (hnodup : (map.map Prod.fst).Nodup) (index bci : ℕ)
    (code : Code) :
    map.foldl (fun code' pair => if pair.1 = index then code'.putJavaUshort bci pair.2 else code')
        code =
      match map.lookup index with
      | some index' => code.putJavaUshort bci index'
      | none => code := by
  induction map generalizing code with
  | nil => rfl
  | cons pair map ih =>
    rw [List.map_cons, List.nodup_cons] at hnodup
    rw [List.foldl_cons, ih hnodup.2, List.lookup_cons]
    by_cases heq : pair.1 = index
    · have hnone : map.lookup index = none := by
        rw [Option.eq_none_iff_forall_ne_some]
        intro index' h
        exact hnodup.1 (heq ▸ List.mem_map_of_mem (f := Prod.fst) (mem_of_lookup h))
      rw [if_pos heq, hnone, beq_iff_eq.mpr heq.symm]
    · rw [if_neg heq, beq_eq_false_iff_ne.mpr (Ne.symm heq)]

/-- The code array with the operands of the `invokespecial` instructions at the given offsets
relocated. -/
structure Relocated (map : List (ℕ × ℕ)) (code code' : Code) (l : List ℕ) : Prop where
  length_eq : code'.length = code.length
  getUbyte_eq : ∀ i, (∀ bci ∈ l, code.getUbyte bci = invokespecial → i ≠ bci + 1 ∧ i ≠ bci + 2) →
    code'.getUbyte i = code.getUbyte i
  operand_eq : ∀ bci ∈ l, code.getUbyte bci = invokespecial →
    code'.getJavaUshort (bci + 1) = relocated map (code.getJavaUshort (bci + 1))

/-- **Step lemma**: one iteration relocates one instruction. -/
theorem relocateInvoke_spec {map : List (ℕ × ℕ)} (hmap : IsRelocation map) {code : Code}
    (hinvoke : IsInvoke code bci → bci + 3 ≤ code.length) :
    Relocated map code (relocateInvoke map code bci) [bci] := by
  unfold relocateInvoke
  by_cases hop : code.getUbyte bci = invokespecial
  · have hend := hinvoke (.inl hop)
    rw [if_pos hop, foldl_putJavaUshort hmap.nodup]
    rcases hlook : map.lookup (code.getJavaUshort (bci + 1)) with _ | index'
    · refine ⟨rfl, fun _ _ => rfl, fun b hb _ => ?_⟩
      rw [List.mem_singleton.mp hb, relocated, hlook, Option.getD_none]
    · refine ⟨Code.length_putJavaUshort _ _ _, fun i hi => ?_, fun b hb _ => ?_⟩
      · exact Code.getUbyte_putJavaUshort_of_ne _ _ (hi bci List.mem_cons_self hop)
      · rw [List.mem_singleton.mp hb, relocated, hlook, Option.getD_some]
        exact Code.getJavaUshort_putJavaUshort _ (by omega) (hmap.lt _ (mem_of_lookup hlook))
  · rw [if_neg hop]
    refine ⟨rfl, fun _ _ => rfl, fun b hb hb' => ?_⟩
    rw [List.mem_singleton.mp hb] at hb'
    exact absurd hb' hop

theorem getJavaUshort_congr {code code' : Code} {i : ℕ}
    (h0 : code'.getUbyte i = code.getUbyte i)
    (h1 : code'.getUbyte (i + 1) = code.getUbyte (i + 1)) :
    code'.getJavaUshort i = code.getJavaUshort i := by
  unfold Code.getJavaUshort
  rw [h0, h1]

/-- Relocating the first instruction and then the others, which start at `next` or later. -/
theorem Relocated.cons {map : List (ℕ × ℕ)} {code code₁ code' : Code} {bci next : ℕ} {l : List ℕ}
    (hfirst : Relocated map code code₁ [bci]) (hrest : Relocated map code₁ code' l)
    (hnext : code.getUbyte bci = invokespecial → next = bci + 3)
    (hlater : ∀ b ∈ l, next ≤ b) (hagree : AgreeFrom code code₁ next) :
    Relocated map code code' (bci :: l) := by
  have hcode : ∀ b ∈ l, code₁.getUbyte b = code.getUbyte b := fun b hb =>
    hagree.getUbyte_eq b (hlater b hb)
  refine ⟨hrest.length_eq.trans hfirst.length_eq, fun i hi => ?_, fun b hb hop => ?_⟩
  · have hrest' := hrest.getUbyte_eq i fun b hb hop =>
      hi b (List.mem_cons_of_mem _ hb) (hcode b hb ▸ hop)
    refine hrest'.trans (hfirst.getUbyte_eq i fun b hb hop => ?_)
    exact hi b (List.mem_singleton.mp hb ▸ List.mem_cons_self) hop
  · rcases List.mem_cons.mp hb with rfl | hb
    · -- the later instructions leave the operand as it is
      have h3 := hnext hop
      have hkeep : ∀ i, i < next → code'.getUbyte i = code₁.getUbyte i := fun i hi =>
        hrest.getUbyte_eq i fun b' hb' _ => by
          have := hlater b' hb'
          omega
      rw [getJavaUshort_congr (hkeep (b + 1) (by omega)) (hkeep (b + 1 + 1) (by omega))]
      exact hfirst.operand_eq b List.mem_cons_self hop
    · rw [hrest.operand_eq b hb ((hcode b hb).trans hop),
        getJavaUshort_congr (hagree.getUbyte_eq (b + 1) (by have := hlater b hb; omega))
          (hagree.getUbyte_eq (b + 1 + 1) (by have := hlater b hb; omega))]

/-- An `invokespecial` keeps its length while its operand changes. -/
theorem nextBci_of_operand {code code' : Code} (hself : SelfContained code bci)
    (hadv : bci < nextBci code bci) (hcode : code'.getUbyte bci = code.getUbyte bci)
    (hother : code.getUbyte bci ≠ invokespecial →
      ∀ i, bci ≤ i → i < nextBci code bci → code'.getUbyte i = code.getUbyte i) :
    nextBci code' bci = nextBci code bci := by
  by_cases hop : code.getUbyte bci = invokespecial
  · have h : IsInvoke code bci := .inl hop
    rw [((IsInvoke.congr hcode).mpr h).nextBci_eq, h.nextBci_eq]
  · exact nextBci_congr hself hadv (hother hop)

/-- **Run lemma**: the loop relocates the instructions it visits, and they are the ones of the
original code. -/
theorem relocateLoop_spec {map : List (ℕ × ℕ)} (hmap : IsRelocation map) {fuel : ℕ} {code : Code}
    {bci : ℕ} (hwalk : Walks code bci) :
    Relocated map code (relocateLoop map fuel bci code) (bcisFrom code fuel bci) ∧
      bcisFrom (relocateLoop map fuel bci code) fuel bci = bcisFrom code fuel bci := by
  induction fuel generalizing code bci with
  | zero => exact ⟨⟨rfl, fun _ _ => rfl, fun _ hb => by cases hb⟩, rfl⟩
  | succ fuel ih =>
    cases hwalk with
    | done hge =>
      rw [relocateLoop, if_neg (by omega), bcisFrom, if_neg (by omega)]
      exact ⟨⟨rfl, fun _ _ => rfl, fun _ hb => by cases hb⟩, rfl⟩
    | step hlt hadv hself hinvoke rest =>
      have hfirst := relocateInvoke_spec hmap hinvoke
      set code₁ := relocateInvoke map code bci with hcode₁
      have h3 : code.getUbyte bci = invokespecial → nextBci code bci = bci + 3 := fun hop =>
        IsInvoke.nextBci_eq (.inl hop)
      have hbytes : ∀ i, i = bci ∨ nextBci code bci ≤ i → code₁.getUbyte i = code.getUbyte i := by
        intro i hi
        refine hfirst.getUbyte_eq i fun b hb hop => ?_
        rw [List.mem_singleton.mp hb] at hop ⊢
        have := h3 hop
        omega
      have hagree : AgreeFrom code code₁ (nextBci code bci) :=
        ⟨hfirst.length_eq, fun i hi => hbytes i (.inr hi)⟩
      have hwalk₁ := rest.congr hagree
      obtain ⟨hrest, hbcis⟩ := ih hwalk₁
      have hsame := rest.bcisFrom_eq hagree fuel
      have hother : code.getUbyte bci ≠ invokespecial → ∀ i, code₁.getUbyte i = code.getUbyte i :=
        fun hop i => hfirst.getUbyte_eq i fun b hb hop' =>
          absurd (List.mem_singleton.mp hb ▸ hop') hop
      have hnext₁ := nextBci_of_operand hself hadv (hbytes bci (.inl rfl))
        fun hop i _ _ => hother hop i
      have hlater : ∀ b ∈ bcisFrom code₁ fuel (nextBci code bci), nextBci code bci ≤ b := fun b hb =>
        (hwalk₁.of_mem hb).1
      rw [relocateLoop, if_pos hlt, ← hcode₁, hnext₁]
      set code' := relocateLoop map fuel (nextBci code bci) code₁
      have hkeep : ∀ i, i < nextBci code bci → code'.getUbyte i = code₁.getUbyte i := fun i hi =>
        hrest.getUbyte_eq i fun b hb _ => by
          have := hlater b hb
          omega
      have hnext' := nextBci_of_operand hself hadv ((hkeep bci hadv).trans (hbytes bci (.inl rfl)))
        fun hop i _ hi => (hkeep i hi).trans (hother hop i)
      constructor
      · rw [bcisFrom, if_pos hlt]
        exact hfirst.cons (hsame ▸ hrest) h3 (fun b hb => hlater b (hsame.symm ▸ hb)) hagree
      · rw [bcisFrom, bcisFrom, if_pos (by rw [hrest.length_eq, hfirst.length_eq]; exact hlt),
          if_pos hlt, hnext', hbcis, hsame]

/-! ## The relocation map -/

theorem lookup_of_mem {map : List (ℕ × ℕ)} (hnodup : (map.map Prod.fst).Nodup) {index index' : ℕ}
    (h : (index, index') ∈ map) : map.lookup index = some index' := by
  induction map with
  | nil => cases h
  | cons pair map ih =>
    rw [List.map_cons, List.nodup_cons] at hnodup
    rw [List.lookup_cons]
    rcases List.mem_cons.mp h with rfl | hmem
    · rw [beq_self_eq_true]
    · have hne : index ≠ pair.1 := by
        intro heq
        exact hnodup.1 (List.mem_map.mpr ⟨(index, index'), hmem, heq⟩)
      rw [beq_eq_false_iff_ne.mpr hne]
      exact ih hnodup.2 hmem

section RelocationMap

variable {cpLength : ℕ} {collisions : List ℕ}

theorem isRelocation_relocationMap (hnodup : collisions.Nodup)
    (hfit : cpLength + collisions.length ≤ 65535) :
    IsRelocation (relocationMap cpLength collisions) := by
  refine ⟨?_, fun pair hpair => ?_⟩
  · rw [relocationMap, List.zipIdx_map_fst]
    exact hnodup
  · have hlt := List.snd_lt_of_mem_zipIdx hpair
    omega

theorem relocated_of_notMem {index : ℕ} (h : index ∉ collisions) :
    relocated (relocationMap cpLength collisions) index = index := by
  unfold relocated
  rcases hlook : (relocationMap cpLength collisions).lookup index with _ | index'
  · rfl
  · exact absurd (List.fst_mem_of_mem_zipIdx (mem_of_lookup hlook)) h

/-- The collisions are numbered from the end of the constant pool on. -/
theorem relocated_of_getElem? (hnodup : collisions.Nodup) {k index : ℕ}
    (h : collisions[k]? = some index) :
    relocated (relocationMap cpLength collisions) index = cpLength + k := by
  have hmem : (index, cpLength + k) ∈ relocationMap cpLength collisions := by
    unfold relocationMap
    rw [List.mem_zipIdx_iff_le_and_getElem?_sub]
    exact ⟨by omega, by rw [show cpLength + k - cpLength = k by omega]; exact h⟩
  have hnodup' : ((relocationMap cpLength collisions).map Prod.fst).Nodup := by
    rw [relocationMap, List.zipIdx_map_fst]
    exact hnodup
  rw [relocated, lookup_of_mem hnodup' hmem, Option.getD_some]

/-- The copies come to stand behind the entries of the old constant pool. -/
theorem copyEntries_eq {oldCp : List Entry} (hin : ∀ index ∈ collisions, index < oldCp.length)
    (front : List Entry) : copyEntries oldCp (front ++ List.replicate collisions.length ⟨0, 0⟩)
        (collisions.zipIdx front.length) =
      some (front ++ collisions.map fun index => oldCp.getD index ⟨0, 0⟩) := by
  induction collisions generalizing front with
  | nil => simp [copyEntries]
  | cons index rest ih =>
    have hlt := hin index List.mem_cons_self
    have hget : oldCp[index]? = some (oldCp.getD index ⟨0, 0⟩) := by
      rw [List.getD_eq_getElem?_getD, List.getElem?_eq_getElem hlt, Option.getD_some]
    have hset : (front ++ List.replicate (rest.length + 1) (⟨0, 0⟩ : Entry)).set front.length
          (oldCp.getD index ⟨0, 0⟩) =
        front ++ [oldCp.getD index ⟨0, 0⟩] ++ List.replicate rest.length ⟨0, 0⟩ := by
      rw [List.replicate_succ, List.set_append_right _ _ le_rfl, Nat.sub_self, List.set_cons_zero,
        List.append_assoc, List.singleton_append]
    have hstep : copyEntries oldCp (front ++ List.replicate (index :: rest).length ⟨0, 0⟩)
          ((index :: rest).zipIdx front.length) =
        copyEntries oldCp (front ++ [oldCp.getD index ⟨0, 0⟩] ++ List.replicate rest.length ⟨0, 0⟩)
          (rest.zipIdx (front.length + 1)) := by
      unfold copyEntries
      rw [List.zipIdx_cons, List.foldlM_cons, hget, Option.map_some, List.length_cons, hset]
      rfl
    have hrest := ih (fun i hi => hin i (List.mem_cons_of_mem _ hi))
      (front ++ [oldCp.getD index ⟨0, 0⟩])
    rw [List.length_append, List.length_singleton] at hrest
    rw [hstep, hrest, List.append_assoc, List.singleton_append, List.map_cons]

/-- An entry outside the constant pool cannot be copied. -/
theorem copyEntries_eq_none {oldCp newCp : List Entry} {index : ℕ} (hindex : index ∈ collisions)
    (hout : oldCp.length ≤ index) (n : ℕ) :
    copyEntries oldCp newCp (collisions.zipIdx n) = none := by
  induction collisions generalizing newCp n with
  | nil => cases hindex
  | cons i rest ih =>
    have hstep : copyEntries oldCp newCp ((i :: rest).zipIdx n) =
        ((oldCp[i]?).map fun entry => newCp.set n entry).bind
          fun newCp' => copyEntries oldCp newCp' (rest.zipIdx (n + 1)) := rfl
    rw [hstep]
    rcases List.mem_cons.mp hindex with rfl | hmem
    · rw [List.getElem?_eq_none hout, Option.map_none, Option.bind_none]
    · cases (oldCp[i]?).map fun entry => newCp.set n entry with
      | none => rfl
      | some newCp' => exact ih hmem (n + 1)

end RelocationMap

/-! ## The methods after the split -/

section Methods

variable {map : List (ℕ × ℕ)} {code code' : Code}

theorem Relocated.getUbyte_start (h : Relocated map code code' (bcis code)) (hwalk : Walks code 0)
    {b : ℕ} (hb : b ∈ bcis code) : code'.getUbyte b = code.getUbyte b := by
  refine h.getUbyte_eq b fun b' hb' hop => ?_
  have h3 : nextBci code b' = b' + 3 := IsInvoke.nextBci_eq (.inl hop)
  rcases Nat.lt_or_ge b' b with hlt | hge
  · have := hwalk.next_le hb' hb hlt
    omega
  · omega

/-- The operands of `invokevirtual` are not rewritten. -/
theorem Relocated.operand_virtual (h : Relocated map code code' (bcis code)) (hwalk : Walks code 0)
    {b : ℕ} (hb : b ∈ bcis code) (hop : code.getUbyte b = invokevirtual) :
    code'.getJavaUshort (b + 1) = code.getJavaUshort (b + 1) := by
  have hne : invokevirtual ≠ invokespecial := by decide
  have hnext : nextBci code b = b + 3 := IsInvoke.nextBci_eq (.inr hop)
  have hkeep : ∀ i, b < i → i < b + 3 → code'.getUbyte i = code.getUbyte i := by
    intro i h0 h1
    refine h.getUbyte_eq i fun b' hb' hop' => ?_
    have h3 : nextBci code b' = b' + 3 := IsInvoke.nextBci_eq (.inl hop')
    have hdiff : b ≠ b' := by
      rintro rfl
      exact hne (hop.symm.trans hop')
    rcases Nat.lt_or_ge b' b with hlt | hge
    · have := hwalk.next_le hb' hb hlt
      omega
    · have := hwalk.next_le hb hb' (by omega)
      omega
  exact getJavaUshort_congr (hkeep _ (by omega) (by omega)) (hkeep _ (by omega) (by omega))

theorem Relocated.operands_special (h : Relocated map code code' (bcis code)) (hwalk : Walks code 0)
    (hbcis : bcis code' = bcis code) :
    operands invokespecial code' = (operands invokespecial code).map (relocated map) := by
  unfold operands
  rw [hbcis, List.map_map, List.filter_congr fun b hb => by rw [h.getUbyte_start hwalk hb]]
  refine List.map_congr_left fun b hb => ?_
  obtain ⟨hb, hop⟩ := List.mem_filter.mp hb
  exact h.operand_eq b hb (of_decide_eq_true hop)

theorem Relocated.operands_virtual (h : Relocated map code code' (bcis code)) (hwalk : Walks code 0)
    (hbcis : bcis code' = bcis code) :
    operands invokevirtual code' = operands invokevirtual code := by
  unfold operands
  rw [hbcis, List.filter_congr fun b hb => by rw [h.getUbyte_start hwalk hb]]
  refine List.map_congr_left fun b hb => ?_
  obtain ⟨hb, hop⟩ := List.mem_filter.mp hb
  exact h.operand_virtual hwalk hb (of_decide_eq_true hop)

end Methods

theorem bcis_native {code : Code} (hlen : code.length = 8)
    (hcode : code.getUbyte 0 = fastInvokenative) :
    bcis code = [0] := by
  have hpos : lengthFor (code.getUbyte 0) = 8 := by
    rw [hcode]
    decide +kernel
  have hnext : (nextBci code 0 : ℤ) = (0 : ℕ) + lengthFor (code.getUbyte 0) :=
    nextBci_of_pos (by omega)
  unfold bcis
  rw [hlen, bcisFrom, if_pos (by omega), bcisFrom, if_neg (by omega)]

/-- **Spec lemma** of the rewriting of one method. -/
theorem relocateMethod_spec {map : List (ℕ × ℕ)} (hmap : IsRelocation map) (klass : ParsedClass)
    (hmethod : method ∈ klass.methods) :
    Relocated map method.code (relocateMethod map method).code (bcis method.code) ∧
      bcis (relocateMethod map method).code = bcis method.code := by
  have hwalk := (klass.parsed method hmethod).walks
  unfold relocateMethod
  by_cases hshares : method.sharesConstants = true
  · rw [if_pos hshares]
    have hspec := @relocateLoop_spec map hmap method.code.length method.code 0 hwalk
    refine ⟨hspec.1, ?_⟩
    show bcisFrom _ _ 0 = _
    rw [hspec.1.length_eq]
    exact hspec.2
  · rw [if_neg hshares]
    obtain ⟨hlen, hcode⟩ := klass.miranda method hmethod ((Bool.not_eq_true _).mp hshares)
    have hne : fastInvokenative ≠ invokespecial := by decide
    refine ⟨⟨rfl, fun _ _ => rfl, fun b hb hop => ?_⟩, rfl⟩
    rw [bcis_native hlen hcode, List.mem_singleton] at hb
    rw [hb, hcode] at hop
    exact absurd hop hne

/-! ## The class after the split -/

section Klass

variable (klass : ParsedClass) {collisions : List ℕ}

/-- The class that `clone_invoke_special_virtual_conflicts` leaves. -/
def cloned (klass : InstanceClass) (collisions : List ℕ) : InstanceClass :=
  ⟨klass.constants ++ collisions.map fun index => klass.constants.getD index ⟨0, 0⟩,
    klass.methods.map (relocateMethod (relocationMap klass.constants.length collisions))⟩

theorem cloneConflicts_eq (klass : InstanceClass)
    (hin : ∀ index ∈ collisions, index < klass.constants.length) :
    cloneConflicts klass (relocationMap klass.constants.length collisions) =
      some (cloned klass collisions) := by
  have hlen : (relocationMap klass.constants.length collisions).length = collisions.length :=
    List.length_zipIdx
  unfold cloneConflicts
  rw [hlen, relocationMap, copyEntries_eq hin]
  rfl

theorem cloneConflicts_eq_none (klass : InstanceClass) {index : ℕ} (hindex : index ∈ collisions)
    (hout : klass.constants.length ≤ index) :
    cloneConflicts klass (relocationMap klass.constants.length collisions) = none := by
  unfold cloneConflicts
  rw [relocationMap, copyEntries_eq_none hindex hout]
  rfl

/-- The copy of the `k`-th collision. -/
theorem constants_cloned (klass : InstanceClass) {k index : ℕ} (h : collisions[k]? = some index)
    (hin : index < klass.constants.length) :
    (cloned klass collisions).constants[klass.constants.length + k]? = klass.constants[index]? := by
  unfold cloned
  simp only
  rw [List.getElem?_append_right (by omega), Nat.add_sub_cancel_left, List.getElem?_map, h,
    Option.map_some, List.getD_eq_getElem?_getD, List.getElem?_eq_getElem hin, Option.getD_some]

theorem mem_uses {index : ℕ} {klass : InstanceClass} :
    index ∈ uses op klass ↔ ∃ method ∈ klass.methods, index ∈ operands op method.code := by
  unfold uses indexes
  rw [List.mem_toFinset, List.mem_flatMap]

theorem uses_cloned (hnodup : collisions.Nodup)
    (hfit : klass.constants.length + collisions.length ≤ 65535) :
    (uses invokespecial (cloned klass.toInstanceClass collisions) =
      (uses invokespecial klass.toInstanceClass).image
        (relocated (relocationMap klass.constants.length collisions))) ∧
    uses invokevirtual (cloned klass.toInstanceClass collisions) =
      uses invokevirtual klass.toInstanceClass := by
  have hmap := isRelocation_relocationMap hnodup hfit
  have hspec := fun m (hm : m ∈ klass.methods) => relocateMethod_spec hmap klass hm
  have hwalk := fun m hm => (klass.parsed m hm).walks
  constructor
  · ext index
    simp only [mem_uses, cloned, Finset.mem_image, List.mem_map]
    constructor
    · rintro ⟨-, ⟨method, hmethod, rfl⟩, hindex⟩
      rw [(hspec method hmethod).1.operands_special (hwalk method hmethod) (hspec method hmethod).2,
        List.mem_map] at hindex
      obtain ⟨old, hold, rfl⟩ := hindex
      exact ⟨old, ⟨method, hmethod, hold⟩, rfl⟩
    · rintro ⟨old, ⟨method, hmethod, hold⟩, rfl⟩
      refine ⟨_, ⟨method, hmethod, rfl⟩, ?_⟩
      rw [(hspec method hmethod).1.operands_special (hwalk method hmethod) (hspec method hmethod).2]
      exact List.mem_map_of_mem hold
  · ext index
    simp only [mem_uses, cloned, List.mem_map]
    constructor
    · rintro ⟨-, ⟨method, hmethod, rfl⟩, hindex⟩
      rw [(hspec method hmethod).1.operands_virtual (hwalk method hmethod) (hspec method hmethod).2]
        at hindex
      exact ⟨method, hmethod, hindex⟩
    · rintro ⟨method, hmethod, hindex⟩
      refine ⟨_, ⟨method, hmethod, rfl⟩, ?_⟩
      rw [(hspec method hmethod).1.operands_virtual (hwalk method hmethod) (hspec method hmethod).2]
      exact hindex

theorem methodSplit_cloned (hnodup : collisions.Nodup)
    (hfit : klass.constants.length + collisions.length ≤ 65535)
    (hshared : ∀ index ∈ collisions, index ∈ uses invokevirtual klass.toInstanceClass)
    (hin : ∀ index ∈ collisions, index < klass.constants.length)
    (hmethod : method ∈ klass.methods) :
    MethodSplit klass.toInstanceClass (cloned klass.toInstanceClass collisions) method
      (relocateMethod (relocationMap klass.constants.length collisions) method) := by
  have hmap := isRelocation_relocationMap hnodup hfit
  obtain ⟨hrel, hbcis⟩ := relocateMethod_spec hmap klass hmethod
  refine ⟨hrel.length_eq, hbcis, fun bci hbci hop hne => ?_, fun i hi => ?_⟩
  · rw [hrel.operand_eq bci hbci hop] at hne ⊢
    -- only a collision is relocated, and its copy is equal to it
    by_cases hmem : method.code.getJavaUshort (bci + 1) ∈ collisions
    · obtain ⟨k, hk⟩ := List.mem_iff_getElem?.mp hmem
      have hlt := hin _ hmem
      refine ⟨_, List.getElem?_eq_getElem hlt, ?_⟩
      rw [relocated_of_getElem? hnodup hk, constants_cloned _ hk hlt, List.getElem?_eq_getElem hlt]
    · exact absurd (relocated_of_notMem hmem) hne
  · by_cases hoperand : ∃ bci ∈ bcis method.code, method.code.getUbyte bci = invokespecial ∧
        (i = bci + 1 ∨ i = bci + 2)
    · obtain ⟨bci, hbci, hop, hpos⟩ := hoperand
      have hmem : method.code.getJavaUshort (bci + 1) ∉ collisions := by
        intro hmem
        have := hi bci hbci hop (hshared _ hmem)
        omega
      have hsame := (hrel.operand_eq bci hbci hop).trans (relocated_of_notMem hmem)
      have hbytes := Code.getUbyte_eq_of_getJavaUshort_eq hsame
      rcases hpos with rfl | rfl
      · exact hbytes.1
      · exact hbytes.2
    · refine hrel.getUbyte_eq i fun bci hbci hop => ?_
      constructor
      · exact fun h => hoperand ⟨bci, hbci, hop, .inl h⟩
      · exact fun h => hoperand ⟨bci, hbci, hop, .inr h⟩

/-- The indices in use are disjoint iff no `invokevirtual` names a copy. -/
theorem disjoint_cloned_iff (hnodup : collisions.Nodup)
    (hfit : klass.constants.length + collisions.length ≤ 65535)
    (hmem : ∀ index, index ∈ collisions ↔ index ∈ shared klass.toInstanceClass) :
    Disjoint (uses invokespecial (cloned klass.toInstanceClass collisions))
        (uses invokevirtual (cloned klass.toInstanceClass collisions)) ↔
      ∀ index ∈ uses invokevirtual klass.toInstanceClass, index < klass.constants.length ∨
        klass.constants.length + collisions.length ≤ index := by
  obtain ⟨hspecial, hvirtual⟩ := uses_cloned klass hnodup hfit
  rw [hspecial, hvirtual, Finset.disjoint_left]
  constructor
  · intro hdisj index hindex
    by_contra hout
    -- the index is the one of a copy, and the copied index is used by an `invokespecial`
    have hlt : index - klass.constants.length < collisions.length := by omega
    have hget : collisions[index - klass.constants.length]? =
        some collisions[index - klass.constants.length] := List.getElem?_eq_getElem hlt
    have hold := (hmem _).mp (List.getElem_mem hlt)
    refine hdisj (Finset.mem_image.mpr ⟨_, (Finset.mem_inter.mp hold).1, ?_⟩) hindex
    rw [relocated_of_getElem? hnodup hget]
    omega
  · intro hfree index hindex hvi
    obtain ⟨old, hold, rfl⟩ := Finset.mem_image.mp hindex
    by_cases hcoll : old ∈ collisions
    · obtain ⟨k, hk⟩ := List.mem_iff_getElem?.mp hcoll
      obtain ⟨hlt, -⟩ := List.getElem?_eq_some_iff.mp hk
      rw [relocated_of_getElem? hnodup hk] at hvi
      have := hfree _ hvi
      omega
    · rw [relocated_of_notMem hcoll] at hvi
      exact hcoll ((hmem old).mpr (Finset.mem_inter.mpr ⟨hold, hvi⟩))

theorem methodSplit_refl (klass : InstanceClass) (method : Method) :
    MethodSplit klass klass method method :=
  ⟨rfl, rfl, fun _ _ _ hne => absurd rfl hne, fun _ _ => rfl⟩

/-- **Spec lemma** of what is done about the collisions. -/
theorem resolveCollisions_iff (hnodup : collisions.Nodup)
    (hmem : ∀ index, index ∈ collisions ↔ index ∈ shared klass.toInstanceClass) :
    Resolved klass.toInstanceClass (resolveCollisions klass.toInstanceClass collisions) ↔
      (klass.constants.length + collisions.length ≤ 65535 →
        (∀ index ∈ collisions, index < klass.constants.length) ∧
        ∀ index ∈ uses invokevirtual klass.toInstanceClass, index < klass.constants.length ∨
          klass.constants.length + collisions.length ≤ index) := by
  unfold resolveCollisions
  by_cases hzero : collisions.length = 0
  · have hnil := List.length_eq_zero_iff.mp hzero
    subst hnil
    rw [if_pos hzero]
    constructor
    · intro _ _
      refine ⟨fun index h => absurd h List.not_mem_nil, fun index _ => ?_⟩
      rw [List.length_nil]
      omega
    · intro _
      refine ⟨?_, List.prefix_refl _, List.forall₂_same.mpr fun m _ => methodSplit_refl _ m⟩
      rw [Finset.disjoint_iff_inter_eq_empty, Finset.eq_empty_iff_forall_notMem]
      exact fun index h => List.not_mem_nil ((hmem index).mpr h)
  rw [if_neg hzero]
  by_cases hover : collisions.length + klass.constants.length > 65535
  · rw [if_pos hover]
    exact ⟨fun _ h => by omega, fun _ => trivial⟩
  rw [if_neg hover]
  have hfit : klass.constants.length + collisions.length ≤ 65535 := by omega
  by_cases hin : ∀ index ∈ collisions, index < klass.constants.length
  · rw [cloneConflicts_eq _ hin, Option.map_some]
    have hdisj := disjoint_cloned_iff klass hnodup hfit hmem
    constructor
    · intro hsplit _
      exact ⟨hin, hdisj.mp hsplit.disjoint⟩
    · intro hcond
      refine ⟨hdisj.mpr (hcond hfit).2, List.prefix_append _ _, ?_⟩
      show List.Forall₂ _ klass.methods (klass.methods.map _)
      rw [List.forall₂_map_right_iff, List.forall₂_same]
      intro method hmethod
      exact methodSplit_cloned klass hnodup hfit
        (fun index h => (Finset.mem_inter.mp ((hmem index).mp h)).2) hin hmethod
  · have hex := hin
    push Not at hex
    obtain ⟨index, hindex, hout⟩ := hex
    rw [cloneConflicts_eq_none _ hindex hout, Option.map_none]
    exact ⟨fun h => h.elim, fun h => absurd (h hfit).1 hin⟩

/-- **Main theorem**: for every class the conflicts are resolved iff its operands permit it. -/
theorem resolveConflicts_iff (klass : ParsedClass) :
    Resolved klass.toInstanceClass (resolveConflicts klass.toInstanceClass) ↔
      Resolvable klass.toInstanceClass := by
  have hfill := fillInInvokeIndexes_spec klass (bitmapLength klass.toInstanceClass)
  unfold resolveConflicts Resolvable
  by_cases hall : ∀ index ∈ uses invokespecial klass.toInstanceClass ∪
      uses invokevirtual klass.toInstanceClass, index < 32 * bitmapLength klass.toInstanceClass
  · rw [if_pos hall] at hfill
    obtain ⟨spIds, viIds, hset, hsp, hvi, hrepSp, hrepVi⟩ := hfill
    rw [hset, Option.bind_some]
    have hnodup := Bitmap.nodup_commonBits spIds viIds
    have hmem : ∀ index, index ∈ Bitmap.commonBits spIds viIds ↔
        index ∈ shared klass.toInstanceClass := by
      intro index
      rw [Bitmap.mem_commonBits hrepSp hrepVi (hvi.trans hsp.symm), hsp, shared]
      constructor
      · exact fun h => h.2
      · exact fun h => ⟨hall index (Finset.mem_union_left _ (Finset.mem_inter.mp h).1), h⟩
    have hcard : (shared klass.toInstanceClass).card = (Bitmap.commonBits spIds viIds).length := by
      rw [← List.toFinset_card_of_nodup hnodup]
      congr 1
      ext index
      rw [List.mem_toFinset, hmem]
    rw [resolveCollisions_iff klass hnodup hmem, hcard]
    simp only [hmem]
    exact ⟨fun h => ⟨hall, h⟩, fun h => h.2⟩
  · rw [if_neg hall] at hfill
    rw [hfill, Option.bind_none]
    exact ⟨fun h => h.elim, fun h => hall h.1⟩

end Klass

/-- A constant pool of ten entries; the code has an `invokespecial #3`, an `invokevirtual #3` and
an `invokevirtual #10`. -/
def pastTheEnd : ParsedClass where
  constants := (List.range 10).map fun i => ⟨10, BitVec.ofNat 32 i⟩
  methods := [⟨true, [0xb7, 0, 3, 0xb6, 0, 3, 0xb6, 0, 10, 0xb1]⟩]
  length_lt := by decide
  parsed := by
    intro method hmethod
    rw [List.mem_singleton.mp hmethod]
    have hscan : scanBytecodes [0xb7, 0, 3, 0xb6, 0, 3, 0xb6, 0, 10, 0xb1] =
        .ok ⟨[0xb7, 0, 3, 0xb6, 0, 3, 0xb6, 0, 10, 0xb1], 10, 10, false, true, 0⟩ := by
      decide +kernel
    exact .java (by decide) hscan rfl
  miranda := by
    intro method hmethod hshares
    rw [List.mem_singleton.mp hmethod] at hshares
    cases hshares

/-- The copy of entry 3 gets the index 10 that the second `invokevirtual` names. -/
theorem not_resolved_pastTheEnd :
    ¬ Resolved pastTheEnd.toInstanceClass (resolveConflicts pastTheEnd.toInstanceClass) := by
  have hrun : resolveConflicts pastTheEnd.toInstanceClass =
      some (.ok (cloned pastTheEnd.toInstanceClass [3])) := by decide +kernel
  rw [hrun]
  intro h
  have hshare : 10 ∈ uses invokespecial (cloned pastTheEnd.toInstanceClass [3]) ∧
      10 ∈ uses invokevirtual (cloned pastTheEnd.toInstanceClass [3]) := by decide +kernel
  exact Finset.disjoint_left.mp h.disjoint hshare.1 hshare.2

end CldcVm.Parsing
