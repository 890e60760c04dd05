import CldcVm.Romizer.InlinerRules

/-!
# Static getters and the pool of the caller

Results:

* `findOrAddResolvedFieldRef_spec`: the entry that is found or added is the field, and no slot that
  is in use is changed.
* `staticGetter_runs`: the code in the place of a call of a static getter does what the call does,
  the initialization of the class included.
-/

namespace CldcVm.RomInliner

open Romizer (Tag FieldType ConstantPool lowHalf highHalf)

/-! ## Slots in use -/

/-- A long or a double, which has two slots. -/
def IsWide (tag : Tag) : Prop := tag = .long ∨ tag = .double

/-- Where the entries of a pool start: the first one at 1, and each one after the slots of the one
before. -/
inductive EntryStart (cp : ConstantPool) : ℕ → Prop
  | first : EntryStart cp 1
  | narrow {i : ℕ} : EntryStart cp i → ¬ IsWide (cp.tagAt i) → EntryStart cp (i + 1)
  | wide {i : ℕ} : EntryStart cp i → IsWide (cp.tagAt i) → EntryStart cp (i + 2)

/-- A slot is in use: it holds an entry, which is not left over from a reference that has been
resolved, or the second half of a long or a double. -/
inductive InUse (cp : ConstantPool) : ℕ → Prop
  | entry {i : ℕ} : EntryStart cp i → cp.tagAt i ≠ .invalid →
      (cp.tagAt i = .nameAndType → needsNameAndTypeEntries cp = true) → InUse cp i
  | second {i : ℕ} : EntryStart cp i → IsWide (cp.tagAt i) → InUse cp (i + 1)

variable {cp cp' : ConstantPool}

theorem EntryStart.pos {i : ℕ} (h : EntryStart cp i) : 0 < i := by
  induction h with
  | first => omega
  | narrow _ _ ih => omega
  | wide _ _ ih => omega

theorem EntryStart.ne_second (i : ℕ) : EntryStart cp i → ∀ j, EntryStart cp j →
    IsWide (cp.tagAt j) → i ≠ j + 1 := by
  induction i using Nat.strong_induction_on with
  | _ i ih =>
    intro hi j hj hwide heq
    match hi with
    | .first =>
      have := hj.pos
      omega
    | .narrow (i := k) hk hnarrow =>
      obtain rfl : k = j := by omega
      exact hnarrow hwide
    | .wide (i := k) hk hkwide => exact ih j (by omega) hj k hk hkwide (by omega)

/-! ## Finding or adding a field -/

/-- The entry is the field, and no slot in use has changed. -/
structure HasField (cp cp' : ConstantPool) (index : ℕ) (classId offset : BitVec 16)
    (type : FieldType) : Prop where
  inside : index < cp.length
  tag : cp'.tagAt index = .resolvedFieldref true type
  value : cp'.value32At index = offset ++ classId
  length : cp'.length = cp.length
  kept : ∀ i, InUse cp i → cp'.tagAt i = cp.tagAt i ∧ cp'.value32At i = cp.value32At i

theorem append_halves (value : BitVec 32) : highHalf value ++ lowHalf value = value := by
  rw [highHalf, lowHalf]
  refine BitVec.eq_of_getLsbD_eq fun i hi => ?_
  rw [BitVec.getLsbD_append]
  by_cases h : i < 16
  · simp [h]
  · have hsum : 16 + (i - 16) = i := by omega
    have hlt : i - 16 < 16 := by omega
    simp [h, hsum, hlt]

theorem HasField.put {i : ℕ} {classId offset : BitVec 16} {type : FieldType}
    (hstart : EntryStart cp i) (hinside : i < cp.length)
    (hneeds : needsNameAndTypeEntries cp = false)
    (hfree : cp.tagAt i = .nameAndType ∨ cp.tagAt i = .invalid) :
    HasField cp (resolvedFieldAtPut cp i classId offset type true) i classId offset type where
  inside := hinside
  tag := Function.update_self ..
  value := Function.update_self ..
  length := rfl
  kept j hj := by
    have hne : j ≠ i := by
      rintro rfl
      match hj with
      | .entry _ hvalid hname =>
        rcases hfree with hfree | hfree
        · rw [hname hfree] at hneeds
          simp at hneeds
        · exact hvalid hfree
      | .second hk hwide => exact EntryStart.ne_second _ hstart _ hk hwide rfl
    exact ⟨Function.update_of_ne hne .., Function.update_of_ne hne ..⟩

variable {type : FieldType}

theorem findOrAddLoop_spec {classId offset : BitVec 16} {index : ℕ}
    (hneeds : needsNameAndTypeEntries cp = false) : ∀ fuel i, EntryStart cp i →
      findOrAddLoop cp classId offset type true fuel i = some (index, cp') →
      HasField cp cp' index classId offset type := by
  intro fuel
  induction fuel with
  | zero =>
    intro i _ h
    simp [findOrAddLoop] at h
  | succ fuel ih =>
    intro i hstart h
    rw [findOrAddLoop] at h
    by_cases hinside : i < cp.length
    · rw [if_pos hinside] at h
      by_cases hfound : cp.tagAt i = .resolvedFieldref true type ∧
          highHalf (cp.value32At i) = offset ∧ lowHalf (cp.value32At i) = classId
      · rw [if_pos hfound] at h
        obtain ⟨rfl, rfl⟩ := Prod.mk.injEq .. ▸ Option.some.inj h
        obtain ⟨htag, rfl, rfl⟩ := hfound
        exact ⟨hinside, htag, (append_halves _).symm, rfl, fun _ _ => ⟨rfl, rfl⟩⟩
      · rw [if_neg hfound] at h
        by_cases hwide : cp.tagAt i = .long ∨ cp.tagAt i = .double
        · rw [if_pos hwide] at h
          exact ih (i + 2) (hstart.wide hwide) h
        · rw [if_neg hwide] at h
          by_cases hfree : cp.tagAt i = .nameAndType ∨ cp.tagAt i = .invalid
          · rw [if_pos hfree] at h
            obtain ⟨rfl, rfl⟩ := Prod.mk.injEq .. ▸ Option.some.inj h
            exact HasField.put hstart hinside hneeds hfree
          · rw [if_neg hfree] at h
            exact ih (i + 1) (hstart.narrow hwide) h
    · rw [if_neg hinside] at h
      simp at h

/-- **Spec lemma** for `find_or_add_resolved_field_ref`. -/
theorem findOrAddResolvedFieldRef_spec {classId offset : BitVec 16} {index : ℕ}
    (hneeds : needsNameAndTypeEntries cp = false)
    (h : findOrAddResolvedFieldRef cp classId offset type true = some (index, cp')) :
    HasField cp cp' index classId offset type :=
  findOrAddLoop_spec hneeds cp.length 1 EntryStart.first h

/-! ## Static getters -/

variable {w : World} {caller caller' callee : Method} {site fuel : ℕ}
  {locals stack rest : List Word} {heap : Heap}

/-- What a static getter leaves, once its class has been initialized. -/
def gotStatic (w : World) (value32 : BitVec 32) (access : Access) (rest : List Word) (heap : Heap) :
    Outcome :=
  .normal (load heap.memory (w.mirror (lowHalf value32).toNat +
    (highHalf value32).zeroExtend 32) access ++ rest) heap

/-- The width of a field. -/
def widthOf (type : FieldType) : Access := if isTwoWord type then .long else .int

theorem staticGetterField_spec {value32 : BitVec 32}
    (h : staticGetterField callee = some (type, value32)) :
    callee.numArgs = 0 ∧ (getstaticOf (callee.code.getUbyte 0)).isSome = true ∧
      (∃ words, returnOf (callee.code.getUbyte 3) = some words) ∧
      callee.constants.tagAt (callee.code.getJavaUshort 1) = .resolvedFieldref true type ∧
      callee.constants.value32At (callee.code.getJavaUshort 1) = value32 ∧
      (lowHalf value32).toNat = callee.holder.classId := by
  rw [staticGetterField] at h
  by_cases hcode : callee.code.length = 4 ∧ callee.numArgs = 0 ∧
      (getstaticOf (callee.code.getUbyte 0)).isSome ∧
      (Op.ireturn ≤ callee.code.getUbyte 3 ∧ callee.code.getUbyte 3 ≤ Op.areturn)
  · rw [if_pos hcode] at h
    obtain ⟨-, hnum, hget, hreturn⟩ := hcode
    simp only at h
    split at h
    · rename_i type' htag
      by_cases hclass : (lowHalf (callee.constants.value32At
          (callee.code.getJavaUshort 1))).toNat = callee.holder.classId
      · rw [if_pos hclass] at h
        obtain ⟨rfl, rfl⟩ := Prod.mk.injEq .. ▸ Option.some.inj h
        exact ⟨hnum, hget, returnOf_isSome hreturn, htag, rfl, hclass⟩
      · rw [if_neg hclass] at h
        simp at h
    · simp at h
  · rw [if_neg hcode] at h
    simp at h

theorem runCallee_staticGetter {value32 : BitVec 32} {access : Access}
    (h : staticGetterField callee = some (type, value32))
    (haccess : getstaticOf (callee.code.getUbyte 0) = some access)
    (hverified : NeverStops w callee (callee.enter stack heap))
    (hinitialized : heap.isInitialized callee.holder.classId = true) (hfuel : 8 ≤ fuel) :
    runCallee w callee rest fuel (callee.enter stack heap) =
      some (gotStatic w value32 access rest heap) := by
  obtain ⟨n, rfl⟩ : ∃ n, fuel = n + 1 + 1 := ⟨fuel - 2, by omega⟩
  obtain ⟨hnum, -, ⟨words, hwords⟩, -, hvalue, hclass⟩ := staticGetterField_spec h
  have hget := step_getstatic (w := w) (a := callee.enter stack heap) haccess
  have hbci : (callee.enter stack heap).bci + 1 = 1 := rfl
  simp only [getstatic, hbci, hvalue, hclass] at hget
  have hheap : (callee.enter stack heap).heap = heap := rfl
  rw [hheap, if_pos hinitialized] at hget
  rw [runCallee_next hget, (runCallee_return hwords (hverified.next hget)).2, gotStatic, hclass]
  simp [Method.enter]

theorem getstaticOf_getstaticCode (callCode : ℕ) (type : FieldType) :
    getstaticOf (getstaticCode callCode type) = some (widthOf type) := by
  unfold getstaticCode widthOf
  split <;> split <;> rfl

theorem getstaticCode_lt (callCode : ℕ) (type : FieldType) : getstaticCode callCode type < 256 := by
  unfold getstaticCode
  split <;> split <;> decide

/-- The caller after `try_inline_static_getter`. -/
structure StaticGetterAt (caller caller' : Method) (site : ℕ) (type : FieldType)
    (value32 : BitVec 32) : Prop where
  access : getstaticOf (caller'.code.getUbyte site) = some (widthOf type)
  value : caller'.constants.value32At (caller'.code.getJavaUshort (site + 1)) = value32
  length : caller'.code.length = caller.code.length
  others : ∀ i, i < site ∨ site + 3 ≤ i → caller'.code.getUbyte i = caller.code.getUbyte i
  slots : ∀ i, InUse caller.constants i → caller'.constants.tagAt i = caller.constants.tagAt i ∧
    caller'.constants.value32At i = caller.constants.value32At i

/-- **Spec lemma** for `try_inline_static_getter`. -/
theorem tryInlineStaticGetter_spec (h : tryInlineStaticGetter caller callee site = some caller')
    (hsite : site + 3 ≤ caller.code.length) (hpool : caller.constants.length ≤ 2 ^ 16) :
    ∃ type value32, staticGetterField callee = some (type, value32) ∧
      StaticGetterAt caller caller' site type value32 := by
  rw [tryInlineStaticGetter] at h
  match hfield : staticGetterField callee with
  | none => simp [hfield] at h
  | some (type, value32) =>
    simp only [hfield] at h
    by_cases hneeds : needsNameAndTypeEntries caller.constants = true
    · rw [if_pos hneeds] at h
      simp at h
    · rw [if_neg hneeds] at h
      match hfound : findOrAddResolvedFieldRef caller.constants (lowHalf value32)
          (highHalf value32) type true with
      | none => simp [hfound] at h
      | some (index, constants) =>
        simp only [hfound] at h
        have hhas := findOrAddResolvedFieldRef_spec (by simpa using hneeds) hfound
        have hindex : index < 2 ^ 16 := lt_of_lt_of_le hhas.inside hpool
        have hlength : (putRaw caller.code site
            (getstaticCode (caller.code.getUbyte site) type)).length = caller.code.length := by simp
        refine ⟨type, value32, rfl, ?_⟩
        rw [← Option.some.inj h]
        refine ⟨?_, ?_, by simp, fun i hi => ?_, hhas.kept⟩
        · show getstaticOf (((putRaw caller.code site _).putJavaUshort (site + 1) index).getUbyte
            site) = _
          rw [Code.getUbyte_putJavaUshort_of_ne _ _ (by omega),
            getUbyte_putRaw_self _ (by omega) (getstaticCode_lt ..), getstaticOf_getstaticCode]
        · show constants.value32At (((putRaw caller.code site _).putJavaUshort (site + 1)
            index).getJavaUshort (site + 1)) = _
          rw [Code.getJavaUshort_putJavaUshort _ (by omega) hindex, hhas.value, append_halves]
        · show ((putRaw caller.code site _).putJavaUshort (site + 1) index).getUbyte i = _
          rw [Code.getUbyte_putJavaUshort_of_ne _ _ (by omega),
            getUbyte_putRaw_of_ne _ _ (by omega)]

/-- **Run lemma**: the call of a static getter and the code in its place, which initialize the
class, or find it initialized. -/
theorem staticGetter_runs {type : FieldType} {value32 : BitVec 32}
    (h : staticGetterField callee = some (type, value32))
    (hcaller : StaticGetterAt caller caller' site type value32) (hstatic : callee.isStatic = true)
    (haccess : getstaticOf (callee.code.getUbyte 0) = some (widthOf type))
    (hverified : ∀ heap, NeverStops w callee (callee.enter stack heap)) :
    ∃ o, ∀ fuel ≥ 8, invoke w callee fuel stack heap = some o ∧
      runSite w caller' site fuel ⟨site, locals, stack, heap⟩ = some o := by
  obtain ⟨hnum, -, -, -, -, hclass⟩ := staticGetterField_spec h
  have hget := step_getstatic (w := w) (a := ⟨site, locals, stack, heap⟩) hcaller.access
  have hdrop : stack.drop callee.numArgs = stack := by rw [hnum, List.drop_zero]
  have hbci : site ≠ site + 3 := by omega
  simp only [getstatic, hcaller.value, hclass] at hget
  by_cases hinitialized : heap.isInitialized callee.holder.classId = true
  · rw [if_pos hinitialized] at hget
    refine ⟨gotStatic w value32 (widthOf type) stack heap, fun fuel hfuel => ⟨?_, ?_⟩⟩
    · rw [invoke, if_pos hstatic, if_pos hinitialized, hdrop]
      exact runCallee_staticGetter h haccess (hverified heap) hinitialized hfuel
    · obtain ⟨n, rfl⟩ : ∃ n, fuel = n + 1 + 1 := ⟨fuel - 2, by omega⟩
      rw [runSite_next hbci hget, gotStatic, hclass]
      exact runSite_end
  · rw [if_neg hinitialized] at hget
    match hrun : w.initializeClass callee.holder.classId heap with
    | (true, heap') =>
      simp only [hrun] at hget
      refine ⟨.thrown .initializerError heap', fun fuel hfuel => ⟨?_, ?_⟩⟩
      · rw [invoke, if_pos hstatic, if_neg hinitialized]
        simp only [hrun]
      · obtain ⟨n, rfl⟩ : ∃ n, fuel = n + 1 := ⟨fuel - 1, by omega⟩
        exact runSite_thrown hbci hget
    | (false, heap') =>
      simp only [hrun] at hget
      have hafter : heap'.isInitialized callee.holder.classId = true := by
        have := w.initialized callee.holder.classId heap
        rw [hrun] at this
        exact this rfl
      refine ⟨gotStatic w value32 (widthOf type) stack heap', fun fuel hfuel => ⟨?_, ?_⟩⟩
      · rw [invoke, if_pos hstatic, if_neg hinitialized, hdrop]
        simp only [hrun]
        exact runCallee_staticGetter h haccess (hverified heap') hafter hfuel
      · obtain ⟨n, rfl⟩ : ∃ n, fuel = n + 1 + 1 := ⟨fuel - 2, by omega⟩
        rw [runSite_next hbci hget, gotStatic, hclass]
        exact runSite_end

end CldcVm.RomInliner
