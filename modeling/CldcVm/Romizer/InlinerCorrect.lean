import CldcVm.Romizer.InlinerPool

/-!
# Inlining and the calls it takes the place of

Results:

* `tryInline_sameEffect_iff`: the code in the place of a call does what the call does, unless a null
  check or the initialization of a class has been dropped that the call needs. Nothing else of the
  caller changes.
* `backBranch_nullCheck_dropped`: a branch back to the call itself, where the null check has been
  dropped.
-/

namespace CldcVm.RomInliner

open Romizer (Tag FieldType ConstantPool lowHalf highHalf)

variable {w : World} {caller caller' callee : Method} {site : ℕ} {locals stack : List Word}
  {heap : Heap}

/-- A call of a verified callee. The arguments are on the stack; the receiver of a constructor is
new; and the pools have been made by the class loader. -/
structure CallSite (w : World) (caller callee : Method) (site : ℕ) (stack : List Word)
    (heap : Heap) : Prop where
  fits : site + 3 ≤ caller.code.length
  pool : caller.constants.length ≤ 2 ^ 16
  invokestatic : caller.code.getUbyte site = Op.fast_invokestatic ∨
    caller.code.getUbyte site = Op.fast_init_invokestatic → callee.isStatic = true
  invokespecial : caller.code.getUbyte site = Op.fast_invokespecial ∨
    caller.code.getUbyte site = Op.fast_invokevirtual_final → callee.isStatic = false
  arguments : callee.numArgs ≤ stack.length
  verified : ∀ heap, callee.isStatic = true ∨ receiver callee stack ≠ some 0 →
    NeverStops w callee (callee.enter stack heap)
  defaultConstructor : callee.isDefaultConstructor = true → callee.isStatic = false
  new : ∀ obj stores, callee.isDefaultConstructor = true → receiver callee stack = some obj →
    callee.holder.vanillaStores = some stores → IsNew obj stores heap.memory
  width : ∀ type value32, staticGetterField callee = some (type, value32) →
    getstaticOf (callee.code.getUbyte 0) = some (widthOf type)

/-- The call and the code in its place have the same effect on the stack, the fields and the
classes, and throw the same. -/
def SameEffect (w : World) (caller' callee : Method) (site : ℕ) (locals stack : List Word)
    (heap : Heap) : Prop :=
  ∃ o N, ∀ fuel ≥ N, invoke w callee fuel stack heap = some o ∧
    runSite w caller' site fuel ⟨site, locals, stack, heap⟩ = some o

/-- The bytes outside the call and the slots of the pool that are in use stay as they are. -/
structure KeepsRest (caller caller' : Method) (site : ℕ) : Prop where
  length : caller'.code.length = caller.code.length
  others : ∀ i, i < site ∨ site + 3 ≤ i → caller'.code.getUbyte i = caller.code.getUbyte i
  slots : ∀ i, InUse caller.constants i → caller'.constants.tagAt i = caller.constants.tagAt i ∧
    caller'.constants.value32At i = caller.constants.value32At i

/-- No null check takes the place of the call of an empty method or constructor. -/
def DropsNullCheck (caller callee : Method) (site : ℕ) : Prop :=
  callee.isStatic = false ∧ needNullcheck caller site = false ∧
    (isEmptyMethod callee = true ∨ isEmptyConstructor callee = true)

/-- No check of the class takes the place of the call of a static method. -/
def DropsInitialization (callee : Method) : Prop :=
  callee.isStatic = true ∧ staticGetterField callee = none

/-! ## What is put -/

theorem keepsRest_putThree (b0 b1 b2 : ℕ) :
    KeepsRest caller (caller.putThree site b0 b1 b2) site where
  length := by simp [Method.putThree]
  others _ hi := getUbyte_putThree_of_ne caller hi
  slots _ _ := ⟨rfl, rfl⟩

theorem popAsNeeded_keepsRest (h : popAsNeeded caller callee site = some caller') :
    KeepsRest caller caller' site := by
  simp only [popAsNeeded] at h
  split at h
  · simp at h
  · rw [← Option.some.inj h]
    exact keepsRest_putThree _ _ _

theorem orElse_cases {α : Type} {o : Option α} {f : Unit → Option α} {x : α}
    (h : o.orElse f = some x) : o = some x ∨ f () = some x := by
  match o with
  | some _ => exact .inl h
  | none => exact .inr h

theorem tryInlineOthers_cases (h : tryInlineOthers caller callee site = some caller') :
    tryInlineEmptyMethod caller callee site = some caller' ∨
      tryInlineGetter caller callee site = some caller' ∨
      tryInlineSetter caller callee site = some caller' ∨
      tryInlineEmptyConstructor caller callee site = some caller' := by
  rcases orElse_cases h with h | h
  · exact .inl h
  · rcases orElse_cases h with h | h
    · exact .inr (.inl h)
    · rcases orElse_cases h with h | h
      · exact .inr (.inr (.inl h))
      · exact .inr (.inr (.inr h))

theorem length_of_empty (h : isEmptyMethod callee = true ∨ isEmptyConstructor callee = true) :
    callee.code.length = 1 ∨
      callee.code.length = 5 ∧ getfieldOf (callee.code.getUbyte 1) = none := by
  simp only [isEmptyMethod, isEmptyConstructor, Bool.decide_and, Bool.decide_or, Bool.and_eq_true,
    Bool.or_eq_true, decide_eq_true_eq] at h
  rcases h with h | ⟨hlength, -, h | h⟩
  · exact .inl h.1
  · exact .inr ⟨hlength, by rw [h.2.1]; rfl⟩
  · exact .inr ⟨hlength, by rw [h.2.1]; rfl⟩

/-- **Spec lemma** for the rules other than that for static getters. -/
theorem tryInlineOthers_emulates (h : tryInlineOthers caller callee site = some caller')
    (hsite : CallSite w caller callee site stack heap) : KeepsRest caller caller' site ∧
      (callee.code.length = 1 ∨ callee.code.length = 5 ∨ callee.code.length = 6) ∧
      ∃ check : Prop, (callee.isStatic = false → (¬ check ↔ DropsNullCheck caller callee site)) ∧
        ∀ heap', callee.isStatic = true ∨ heap' = heap →
          ∃ body, Emulates w caller' callee site locals stack heap' check body := by
  have hpop : ∀ hempty : isEmptyMethod callee = true ∨ isEmptyConstructor callee = true,
      callee.isStatic = false → (¬ (callee.isStatic = false ∧ needNullcheck caller site = true) ↔
          DropsNullCheck caller callee site) := by
    intro hempty hstatic
    simp [DropsNullCheck, hempty, hstatic]
  have hkeep : ∀ {length : ℕ}, callee.code.length = length → length ≠ 1 →
      (length = 5 → (getfieldOf (callee.code.getUbyte 1)).isSome = true) →
      ¬ (isEmptyMethod callee = true ∨ isEmptyConstructor callee = true) := by
    intro length hlength hone hfive hempty
    rcases length_of_empty hempty with h | ⟨h, hnone⟩
    · omega
    · have := hfive (by omega)
      rw [hnone] at this
      simp at this
  rcases tryInlineOthers_cases h with h | h | h | h
  · have hrule : isEmptyMethod callee = true ∧ popAsNeeded caller callee site = some caller' := by
      simpa [tryInlineEmptyMethod] using h
    refine ⟨popAsNeeded_keepsRest hrule.2, .inl ?_, _, hpop (.inl hrule.1), fun heap' _ =>
      Emulates.emptyMethod h hsite.fits hsite.arguments⟩
    have := hrule.1
    simp only [isEmptyMethod, Bool.decide_and, Bool.and_eq_true, decide_eq_true_eq] at this
    exact this.1
  · have hrule : isGetter callee = true ∧ caller.putThree site (callee.code.getUbyte 1)
        (callee.code.getUbyte 2) (callee.code.getUbyte 3) = caller' := by
      simpa [tryInlineGetter] using h
    have hparts := hrule.1
    simp only [isGetter, Bool.decide_and, Bool.and_eq_true, decide_eq_true_eq] at hparts
    refine ⟨hrule.2 ▸ keepsRest_putThree _ _ _, .inr (.inl hparts.2.1), True, fun _ => ?_,
      fun heap' _ => Emulates.getter h hsite.fits hsite.arguments (hsite.verified heap')⟩
    have hnot := hkeep hparts.2.1 (by decide) fun _ => hparts.2.2.2.2.1
    exact ⟨fun hfalse => absurd trivial hfalse, fun hdrops => absurd hdrops.2.2 hnot⟩
  · have hrule : isSetter callee = true ∧ caller.putThree site (callee.code.getUbyte 2)
        (callee.code.getUbyte 3) (callee.code.getUbyte 4) = caller' := by
      simpa [tryInlineSetter] using h
    have hparts := hrule.1
    simp only [isSetter, Bool.decide_and, Bool.and_eq_true, decide_eq_true_eq] at hparts
    refine ⟨hrule.2 ▸ keepsRest_putThree _ _ _, .inr (.inr hparts.1), True, fun _ => ?_,
      fun heap' _ => Emulates.setter h hsite.fits hsite.arguments (hsite.verified heap')⟩
    have hnot := hkeep hparts.1 (by decide) fun hfive => absurd hfive (by decide)
    exact ⟨fun hfalse => absurd trivial hfalse, fun hdrops => absurd hdrops.2.2 hnot⟩
  · have hrule : isEmptyConstructor callee = true ∧
        popAsNeeded caller callee site = some caller' := by
      simpa [tryInlineEmptyConstructor] using h
    have hparts := hrule.1
    simp only [isEmptyConstructor, Bool.decide_and, Bool.and_eq_true, decide_eq_true_eq] at hparts
    refine ⟨popAsNeeded_keepsRest hrule.2, .inr (.inl hparts.1), _, hpop (.inr hrule.1),
      fun heap' hheap => Emulates.emptyConstructor h hsite.fits hsite.arguments
        hsite.defaultConstructor fun obj stores hdefault hobj hstores => ?_⟩
    rcases hheap with hstatic | rfl
    · rw [hsite.defaultConstructor hdefault] at hstatic
      simp at hstatic
    · exact hsite.new obj stores hdefault hobj hstores

/-! ## Calls and what takes their place -/

theorem sameEffect_iff_eq {o o' : Outcome}
    (hinvoke : ∀ fuel ≥ 8, invoke w callee fuel stack heap = some o)
    (hsite : ∀ fuel ≥ 8, runSite w caller' site fuel ⟨site, locals, stack, heap⟩ = some o') :
    SameEffect w caller' callee site locals stack heap ↔ o = o' := by
  refine ⟨fun ⟨x, N, hx⟩ => ?_, fun heq => ⟨o, 8, fun fuel hfuel => ⟨hinvoke fuel hfuel, ?_⟩⟩⟩
  · obtain ⟨hcall, hrun⟩ := hx (max N 8) (le_max_left ..)
    rw [hinvoke _ (le_max_right ..)] at hcall
    rw [hsite _ (le_max_right ..)] at hrun
    exact (Option.some.inj hcall).trans (Option.some.inj hrun).symm
  · rw [heq]
    exact hsite fuel hfuel

theorem sameEffect_of_receiver {check : Prop} {body : Outcome} (hstatic : callee.isStatic = false)
    (hemulates : Emulates w caller' callee site locals stack heap check body) :
    SameEffect w caller' callee site locals stack heap ↔
      ¬ (¬ check ∧ receiver callee stack = some 0) := by
  have hnot : ¬ callee.isStatic = true := by simp [hstatic]
  by_cases hnull : receiver callee stack = some 0
  · have hinvoke : ∀ fuel ≥ 8, invoke w callee fuel stack heap =
        some (.thrown .nullPointerException heap) := by
      intro fuel _
      rw [invoke, if_neg hnot]
      exact if_pos hnull
    by_cases hcheck : check
    · rw [sameEffect_iff_eq hinvoke (hemulates.checked ⟨hcheck, hnull⟩)]
      simp [hcheck]
    · rw [sameEffect_iff_eq hinvoke (hemulates.unchecked fun h => hcheck h.1)]
      obtain ⟨stack', hbody⟩ := hemulates.normal hcheck
      simp [hcheck, hnull, hbody]
  · have hinvoke : ∀ fuel ≥ 8, invoke w callee fuel stack heap = some body := by
      intro fuel hfuel
      rw [invoke, if_neg hnot]
      exact (if_neg hnull).trans (hemulates.called (.inr hnull) fuel hfuel)
    rw [sameEffect_iff_eq hinvoke (hemulates.unchecked fun h => hnull h.2)]
    exact iff_of_true rfl fun h => hnull h.2

/-- The code in the place of the call of a static method, in an initialized class or not. -/
theorem Emulates.exists_outcome {check : Prop} {body : Outcome}
    (h : Emulates w caller' callee site locals stack heap check body) :
    ∃ o, (∀ fuel ≥ 8, runSite w caller' site fuel ⟨site, locals, stack, heap⟩ = some o) ∧
      (callee.isStatic = true → o = body) ∧ o.heapAfter.isInitialized = heap.isInitialized ∧
      ∀ heap', o ≠ .thrown .initializerError heap' := by
  by_cases hcheck : check ∧ receiver callee stack = some 0
  · exact ⟨_, h.checked hcheck, fun hstatic => (h.null hstatic hcheck.1 hcheck.2).symm, rfl,
      fun heap' => by simp⟩
  · exact ⟨_, h.unchecked hcheck, fun _ => rfl, h.initialized, h.noError⟩

theorem sameEffect_of_static {check : Prop} (hstatic : callee.isStatic = true)
    (hemulates : ∀ heap', ∃ body, Emulates w caller' callee site locals stack heap' check body) :
    SameEffect w caller' callee site locals stack heap ↔
      heap.isInitialized callee.holder.classId = true := by
  obtain ⟨body, hbody⟩ := hemulates heap
  obtain ⟨o, hrun, ho, hkept, herror⟩ := hbody.exists_outcome
  by_cases hinitialized : heap.isInitialized callee.holder.classId = true
  · have hinvoke : ∀ fuel ≥ 8, invoke w callee fuel stack heap = some body := by
      intro fuel hfuel
      rw [invoke, if_pos hstatic, if_pos hinitialized]
      exact hbody.called (.inl hstatic) fuel hfuel
    rw [sameEffect_iff_eq hinvoke hrun]
    simp [hinitialized, ho hstatic]
  · rcases hclass : w.initializeClass callee.holder.classId heap with ⟨succeeded, heap'⟩
    cases succeeded with
    | true =>
      have hinvoke : ∀ fuel ≥ 8, invoke w callee fuel stack heap =
          some (.thrown .initializerError heap') := by
        intro fuel _
        rw [invoke, if_pos hstatic, if_neg hinitialized]
        simp only [hclass]
      rw [sameEffect_iff_eq hinvoke hrun]
      exact iff_of_false (herror heap').symm hinitialized
    | false =>
      obtain ⟨body', hbody'⟩ := hemulates heap'
      have hinvoke : ∀ fuel ≥ 8, invoke w callee fuel stack heap = some body' := by
        intro fuel hfuel
        rw [invoke, if_pos hstatic, if_neg hinitialized]
        simp only [hclass]
        exact hbody'.called (.inl hstatic) fuel hfuel
      rw [sameEffect_iff_eq hinvoke hrun]
      refine iff_of_false ?_ hinitialized
      -- the call leaves an initialized class, and the code in its place does not
      rintro rfl
      have hafter := w.initialized callee.holder.classId heap
      rw [hclass] at hafter
      rw [← hkept, hbody'.initialized] at hinitialized
      exact hinitialized (hafter rfl)

/-- **Main theorem**: the code that `try_inline` puts in the place of a call has the same effect as
the call, for every state of the caller, if and only if the receiver is not null where the null
check is dropped, and the class is initialized where no check of it is left. The rest of the code
and the slots of the pool that are in use stay in every case. -/
theorem tryInline_sameEffect_iff (maxLen : ℕ)
    (h : tryInline maxLen caller callee site = some caller')
    (hsite : CallSite w caller callee site stack heap) :
    KeepsRest caller caller' site ∧
      (SameEffect w caller' callee site locals stack heap ↔
        ¬ (DropsNullCheck caller callee site ∧ receiver callee stack = some 0) ∧
          ¬ (DropsInitialization callee ∧
            heap.isInitialized callee.holder.classId = false)) := by
  have hothers : tryInlineOthers caller callee site = some caller' →
      KeepsRest caller caller' site ∧
      (SameEffect w caller' callee site locals stack heap ↔
        ¬ (DropsNullCheck caller callee site ∧ receiver callee stack = some 0) ∧
          ¬ (DropsInitialization callee ∧
            heap.isInitialized callee.holder.classId = false)) := by
    intro hrule
    obtain ⟨hkeeps, hlength, check, hcheck, hemulates⟩ := tryInlineOthers_emulates hrule hsite
    refine ⟨hkeeps, ?_⟩
    by_cases hstatic : callee.isStatic = true
    · have hnone : staticGetterField callee = none := by
        rw [staticGetterField, if_neg fun hcode => ?_]
        omega
      rw [sameEffect_of_static hstatic fun heap' => hemulates heap' (.inl hstatic)]
      simp [DropsNullCheck, DropsInitialization, hstatic, hnone]
    · rw [Bool.not_eq_true] at hstatic
      obtain ⟨body, hbody⟩ := hemulates heap (.inr rfl)
      rw [sameEffect_of_receiver hstatic hbody, hcheck hstatic]
      simp [DropsInitialization, hstatic]
  simp only [tryInline] at h
  split at h
  · simp at h
  · split at h
    · rename_i hcode
      cases hget : tryInlineStaticGetter caller callee site with
      | some getter =>
        simp only [hget, Option.some.injEq] at h
        subst h
        obtain ⟨type, value32, hfield, hat⟩ :=
          tryInlineStaticGetter_spec hget hsite.fits hsite.pool
        have hstatic := hsite.invokestatic hcode
        obtain ⟨o, ho⟩ := @staticGetter_runs w caller getter callee site locals stack heap type
          value32 hfield hat hstatic (hsite.width type value32 hfield)
          fun heap' => hsite.verified heap' (.inl hstatic)
        refine ⟨⟨hat.length, hat.others, hat.slots⟩, ?_⟩
        simp only [DropsNullCheck, DropsInitialization, hstatic, hfield]
        exact iff_of_true ⟨o, 8, ho⟩ (by simp)
      | none =>
        simp only [hget] at h
        split at h
        · exact hothers h
        · simp at h
    · split at h
      · exact hothers h
      · simp at h

/-! ## A branch back to the call -/

/-- Classes whose initialization does nothing. -/
def quietWorld : World where
  mirror _ := 0
  initializeClass classId heap :=
    (false, { heap with isInitialized := Function.update heap.isInitialized classId true })
  initialized classId heap _ := Function.update_self ..

def plainClass : InstanceClass := ⟨1, [], [1], none⟩

def emptyPool : ConstantPool := ⟨1, fun _ => .invalid, fun _ => 0⟩

/-- A final method with an empty body. -/
def emptyCallee : Method :=
  ⟨[177], false, false, false, false, false, [], plainClass, [], emptyPool⟩

/-- `aload_0; fast_invokevirtual_final; iload_1; ifeq 12; aconst_null; goto 1; return`. -/
def backBranchCaller : Method :=
  ⟨[42, 230, 0, 5, 27, 153, 0, 7, 1, 167, 255, 248, 177], false, false, false, false, false, [],
    plainClass, [.int], emptyPool⟩

def quietHeap : Heap := ⟨fun _ => 0, fun _ => true⟩

theorem backBranch_inlined : tryInline 10 backBranchCaller emptyCallee 1 =
    some (backBranchCaller.putThree 1 Op.pop Op.nop Op.nop) := by
  with_unfolding_all rfl

theorem emptyCallee_step (heap : Heap) (stack : List Word) :
    step quietWorld emptyCallee (emptyCallee.enter stack heap) = .returned [] heap := by
  have hcode : returnOf (emptyCallee.code.getUbyte (emptyCallee.enter stack heap).bci) =
      some 0 := by
    with_unfolding_all rfl
  exact step_return hcode

theorem backBranch_callSite : CallSite quietWorld backBranchCaller emptyCallee 1 [0] quietHeap where
  fits := by decide
  pool := by decide
  invokestatic h := absurd h (by decide +kernel)
  invokespecial _ := rfl
  arguments := by decide
  verified heap _ a ha := by
    rcases Relation.ReflTransGen.cases_head ha with rfl | ⟨b, hb, -⟩
    · rw [emptyCallee_step]
      simp
    · rw [emptyCallee_step] at hb
      simp at hb
  defaultConstructor h := absurd h (by decide)
  new _ _ h := absurd h (by decide)
  width type value32 h := by
    have hnone : staticGetterField emptyCallee = none := by with_unfolding_all rfl
    rw [hnone] at h
    simp at h

/-- The branch at 9 leads to the call at 1, with null on the stack. -/
theorem backBranch_nullCheck_dropped :
    ¬ (∀ maxLen caller callee caller' site locals stack heap w,
      CallSite w caller callee site stack heap →
      tryInline maxLen caller callee site = some caller' →
        SameEffect w caller' callee site locals stack heap) := by
  intro hall
  have hsame := hall 10 backBranchCaller emptyCallee _ 1 [] [0] quietHeap quietWorld
    backBranch_callSite backBranch_inlined
  have hrule : tryInlineEmptyMethod backBranchCaller emptyCallee 1 =
      some (backBranchCaller.putThree 1 Op.pop Op.nop Op.nop) := by
    with_unfolding_all rfl
  obtain ⟨_, hemulates⟩ := @Emulates.emptyMethod quietWorld _ _ _ 1 [] [0] quietHeap hrule
    (by decide) (by decide)
  have hdropped : ¬ (emptyCallee.isStatic = false ∧ needNullcheck backBranchCaller 1 = true) := by
    decide +kernel
  exact (sameEffect_of_receiver rfl hemulates).1 hsame ⟨hdropped, rfl⟩

/-- `tryInline_sameEffect_iff` at the branch back. -/
theorem tryInline_sameEffect_backBranch :
    tryInline 10 backBranchCaller emptyCallee 1 =
        some (backBranchCaller.putThree 1 Op.pop Op.nop Op.nop) ∧
      KeepsRest backBranchCaller (backBranchCaller.putThree 1 Op.pop Op.nop Op.nop) 1 :=
  ⟨backBranch_inlined,
    (@tryInline_sameEffect_iff quietWorld backBranchCaller _ emptyCallee 1 [] [0] quietHeap 10
      backBranch_inlined backBranch_callSite).1⟩

end CldcVm.RomInliner
