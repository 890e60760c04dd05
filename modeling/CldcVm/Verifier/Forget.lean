import CldcVm.Verifier.FrameLemmas

/-!
# What the verifier keeps of an old frame

After an instruction that cannot fall through, `bytecode_prolog` takes the next
frame from the recorded stack map. Two frames are `Same` when they agree on all
that is alive: the stack below the stack pointer, the locals and the flags. The
members of the closure cannot tell such frames apart, so two runs that are
`Same` after the prolog go on alike to the end of the method.

The one thing that survives is the flag `_need_initialization`:
`check_stackmap_match` tests the old flag against the new map even when it does
not check the old frame.

Results:
* `continueAlike_iff`: two leftover frames continue alike iff the flag they left
  behind is not looked at, or is the same.
-/

namespace CldcVm.Verifier

open Lib Comp
open Function (update_of_ne update_self)

variable {env : ClassEnv} {m : Method} {f g : VerifierFrame}

/-- Two frames agree on everything that is alive. -/
structure Same (m : Method) (f g : VerifierFrame) : Prop where
  vstackpointer : f.vstackpointer = g.vstackpointer
  vstack : ∀ i < f.vstackpointer, f.vstack i = g.vstack i
  vlocals : ∀ i < m.maxLocals, f.vlocals i = g.vlocals i
  needInitialization : f.needInitialization = g.needInitialization
  noControlFlow : f.noControlFlow = g.noControlFlow
  currentStackmapIndex : f.currentStackmapIndex = g.currentStackmapIndex

namespace Same

theorem symm (h : Same m f g) : Same m g f :=
  ⟨h.vstackpointer.symm, fun i hi => (h.vstack i (h.vstackpointer ▸ hi)).symm,
    fun i hi => (h.vlocals i hi).symm, h.needInitialization.symm, h.noControlFlow.symm,
    h.currentStackmapIndex.symm⟩

/-- Popping `n` words. -/
theorem popped (h : Same m f g) (n : ℕ) : Same m { f with vstackpointer := f.vstackpointer - n }
      { g with vstackpointer := g.vstackpointer - n } :=
  { h with
    vstackpointer := by simp only [h.vstackpointer]
    vstack := fun i hi => h.vstack i (by simp only at hi; omega) }

theorem top (h : Same m f g) {k : ℕ} (hk : 0 < k) (hle : k ≤ f.vstackpointer) :
    f.vstack (f.vstackpointer - k) = g.vstack (g.vstackpointer - k) := by
  rw [h.vstack _ (by omega), h.vstackpointer]

end Same

/-- For `Same` it is enough to follow a run that returns. -/
theorem agrees_of_ok {α : Type} {x : Vfy α}
    (h : ∀ f g, Same m f g → ∀ a f', x f = .ok (a, f') → ∃ g', x g = .ok (a, g') ∧ Same m f' g') :
    Agrees (Same m) x :=
  .of_symm (fun _ _ hs => hs.symm) h

/-! ## The primitives -/

theorem agrees_pushCategory1 (slot : Slot) : Agrees (Same m) (pushCategory1 m slot) := by
  refine agrees_of_ok fun f g h u f' hf => ?_
  obtain ⟨hroom, rfl⟩ := pushCategory1_ok_iff.mp hf
  refine ⟨_, pushCategory1_ok_iff.mpr ⟨h.vstackpointer ▸ hroom, rfl⟩, ?_⟩
  refine { h with vstackpointer := by simp only [h.vstackpointer], vstack := fun i hi => ?_ }
  simp only at hi ⊢
  rw [h.vstackpointer] at hi ⊢
  rcases Nat.lt_succ_iff_lt_or_eq.mp hi with hlt | rfl
  · rw [update_of_ne hlt.ne, update_of_ne hlt.ne,
      h.vstack i (h.vstackpointer ▸ hlt)]
  · rw [update_self, update_self]

theorem agrees_popCategory1 : Agrees (Same m) popCategory1 := by
  refine agrees_of_ok fun f g h slot f' hf => ?_
  obtain ⟨hpos, hslot, hd, hl, rfl⟩ := popCategory1_ok_iff.mp hf
  exact ⟨_, popCategory1_ok_iff.mpr ⟨h.vstackpointer ▸ hpos,
    hslot.trans (h.top Nat.one_pos hpos), hd, hl, rfl⟩, h.popped 1⟩

theorem agrees_pushCategory2 (slots : Slot × Slot) : Agrees (Same m) (pushCategory2 m slots) := by
  refine agrees_of_ok fun f g h u f' hf => ?_
  obtain ⟨hroom, rfl⟩ := pushCategory2_ok_iff.mp hf
  refine ⟨_, pushCategory2_ok_iff.mpr ⟨h.vstackpointer ▸ hroom, rfl⟩, ?_⟩
  refine { h with vstackpointer := by simp only [h.vstackpointer], vstack := fun i hi => ?_ }
  simp only at hi ⊢
  rw [h.vstackpointer] at hi ⊢
  by_cases h1 : i = g.vstackpointer + 1
  · rw [h1, update_self, update_self]
  · rw [update_of_ne h1, update_of_ne h1]
    by_cases h0 : i = g.vstackpointer
    · rw [h0, update_self, update_self]
    · rw [update_of_ne h0, update_of_ne h0,
        h.vstack i (by rw [h.vstackpointer]; omega)]

theorem agrees_popCategory2 : Agrees (Same m) popCategory2 := by
  refine agrees_of_ok fun f g h slots f' hf => ?_
  obtain ⟨hpos, h1, h2, hd, hl, rfl⟩ := popCategory2_ok_iff.mp hf
  exact ⟨_, popCategory2_ok_iff.mpr ⟨h.vstackpointer ▸ hpos,
    h1.trans (h.top Nat.two_pos hpos), h2.trans (h.top Nat.one_pos (by omega)), hd, hl, rfl⟩,
    h.popped 2⟩

theorem agrees_pop (kind : StackMapKind) : Agrees (Same m) (pop kind) := by
  refine agrees_of_ok fun f g h u f' hf => ?_
  obtain ⟨hpos, hk, rfl⟩ := pop_ok_iff.mp hf
  exact ⟨_, pop_ok_iff.mpr ⟨h.vstackpointer ▸ hpos, h.top Nat.one_pos hpos ▸ hk, rfl⟩, h.popped 1⟩

variable {v w : ℕ → Slot}

/-- `bogify_surrounding_doublewords` looks at one local. -/
theorem bogify_congr {index : ℕ} (h : ∀ i < m.maxLocals, v i = w i)
    (hle : index ≤ m.maxLocals) (i : ℕ) (hi : i < m.maxLocals) :
    bogifySurroundingDoublewords v index i = bogifySurroundingDoublewords w index i := by
  unfold bogifySurroundingDoublewords
  by_cases h1 : 1 ≤ index
  · have heq := h (index - 1) (by omega)
    rw [heq]
    split_ifs
    · by_cases hi' : i = index - 1
      · rw [hi', update_self, update_self]
      · rw [update_of_ne hi', update_of_ne hi', h i hi]
    · exact h i hi
  · rw [if_neg fun hc => h1 hc.1, if_neg fun hc => h1 hc.1]
    exact h i hi

theorem agrees_setLocalRef (index : ℕ) (slot : Slot) :
    Agrees (Same m) (setLocalRef m index slot) := by
  refine agrees_of_ok fun f g h u f' hf => ?_
  obtain ⟨hlt, rfl⟩ := setLocalRef_ok_iff.mp hf
  refine ⟨_, setLocalRef_ok_iff.mpr ⟨hlt, rfl⟩, { h with vlocals := fun i hi => ?_ }⟩
  exact bogify_congr (fun i hi => by
    by_cases hi' : i = index
    · rw [hi', update_self, update_self]
    · rw [update_of_ne hi', update_of_ne hi', h.vlocals i hi]) hlt.le i hi

theorem agrees_setLocal (index : ℕ) (kind : StackMapKind) :
    Agrees (Same m) (setLocal m index kind) :=
  .ite (fun _ => .throw _ _) fun _ => agrees_setLocalRef _ _

theorem agrees_setLocal2 (index : ℕ) (kind : StackMapKind) :
    Agrees (Same m) (setLocal2 m index kind) := by
  refine agrees_of_ok fun f g h u f' hf => ?_
  obtain ⟨hk, hlt, rfl⟩ := setLocal2_ok_iff.mp hf
  refine ⟨_, setLocal2_ok_iff.mpr ⟨hk, hlt, rfl⟩, { h with vlocals := fun i hi => ?_ }⟩
  refine bogify_congr (fun i hi => ?_) (by omega) i hi
  by_cases h1 : i = index + 1
  · rw [h1, update_self, update_self]
  · rw [update_of_ne h1, update_of_ne h1]
    by_cases h0 : i = index
    · rw [h0, update_self, update_self]
    · rw [update_of_ne h0, update_of_ne h0, h.vlocals i hi]

theorem agrees_checkLocal (index : ℕ) (kind : StackMapKind) :
    Agrees (Same m) (checkLocal m index kind) := by
  refine agrees_of_ok fun f g h u f' hf => ?_
  obtain ⟨hk, hlt, htag, rfl⟩ := checkLocal_ok_iff.mp hf
  exact ⟨g, checkLocal_ok_iff.mpr ⟨hk, hlt, h.vlocals index hlt ▸ htag, rfl⟩, h⟩

theorem agrees_checkLocal2 (index : ℕ) (kind : StackMapKind) :
    Agrees (Same m) (checkLocal2 m index kind) := by
  refine agrees_of_ok fun f g h u f' hf => ?_
  obtain ⟨hk, hlt, h1, h2, rfl⟩ := checkLocal2_ok_iff.mp hf
  exact ⟨g, checkLocal2_ok_iff.mpr ⟨hk, hlt, h.vlocals index (by omega) ▸ h1,
    h.vlocals (index + 1) hlt ▸ h2, rfl⟩, h⟩

theorem agrees_checkLocalRef (index : ℕ) : Agrees (Same m) (checkLocalRef m index) := by
  refine agrees_of_ok fun f g h slot f' hf => ?_
  obtain ⟨hlt, href, hslot, rfl⟩ := checkLocalRef_ok_iff.mp hf
  have heq := h.vlocals index hlt
  exact ⟨g, checkLocalRef_ok_iff.mpr ⟨hlt, heq ▸ href, heq ▸ hslot, rfl⟩, h⟩

theorem agrees_replace (source target : StackMapKind) (name : Symbol) :
    Agrees (Same m) (replaceStackTypeWithRealType m source target name) := by
  intro f g h
  refine ⟨rfl, { h with vstack := fun i hi => ?_, vlocals := fun i hi => ?_ }⟩
  · simp only [h.vstack i hi]
  · simp only [h.vlocals i hi]

theorem agrees_setNoControlFlow (value : Bool) : Agrees (Same m) (setNoControlFlow value) :=
  .modify fun _ _ h => { h with noControlFlow := rfl }

theorem agrees_setNeedInitialization (value : Bool) :
    Agrees (Same m) (setNeedInitialization value) :=
  .modify fun _ _ h => { h with needInitialization := rfl }

/-- The arguments are read below the old stack pointer. -/
theorem checkArguments_congr {params : List JavaType} {n : ℕ}
    (h : ∀ i, i < n + parameterWordSize params → v i = w i) :
    checkArguments env v n params = checkArguments env w n params := by
  induction params generalizing n with
  | nil => rfl
  | cons type params ih =>
    have hsize : parameterWordSize (type :: params) = type.wordSize + parameterWordSize params := by
      simp [parameterWordSize]
    have harg : checkArgument env v n type = checkArgument env w n type := by
      cases type <;> simp only [checkArgument] <;>
        simp only [JavaType.wordSize] at hsize <;>
        first
        | rw [h n (by omega), h (n + 1) (by omega)]
        | rw [h n (by omega)]
    rw [checkArguments, checkArguments, harg, ih (fun i hi => h i (by rw [hsize]; omega))]

theorem agrees_popInvokeArguments (params : List JavaType) :
    Agrees (Same m) (popInvokeArguments env params) := by
  refine agrees_of_ok fun f g h n f' hf => ?_
  obtain ⟨hn, hle, hargs, rfl⟩ := popInvokeArguments_ok_iff.mp hf
  refine ⟨_, popInvokeArguments_ok_iff.mpr ⟨hn, h.vstackpointer ▸ hle, ?_, rfl⟩, h.popped n⟩
  rw [← h.vstackpointer, ← checkArguments_congr (v := f.vstack) fun i hi => h.vstack i (by omega)]
  exact hargs

theorem agrees_checkBranchTarget (dest : ℤ) : Agrees (Same m) (checkBranchTarget env m dest) := by
  refine agrees_of_ok fun f g h u f' hf => ?_
  obtain ⟨rfl, map, hmap, hlocals, hsize, hstack, hneed⟩ := checkBranchTarget_ok_iff.mp hf
  have hfit := (Method.stackmapAt_fits hmap).1
  refine ⟨g, checkBranchTarget_ok_iff.mpr ⟨rfl, map, hmap, ?_, h.vstackpointer ▸ hsize, ?_, ?_⟩, h⟩
  · exact hlocals.congr fun j _ hj => (h.vlocals j (by simp at hj; omega)).symm
  · exact hstack.congr fun j _ hj => (h.vstack j (by simp at hj; omega)).symm
  · exact fun h1 h2 => hneed h1 (h.needInitialization.trans h2)

theorem overlay_congr {slots : List Slot} {i : ℕ} (hi : i < slots.length) :
    overlay v 0 slots i = overlay w 0 slots i := by
  rw [overlay_of_lt v (Nat.zero_le _) (by omega), overlay_of_lt w (Nat.zero_le _) (by omega)]

theorem mergedLocals_congr (map : StackMap) (v w : ℕ → Slot) {i : ℕ} (hi : i < m.maxLocals) :
    mergedLocals m map v i = mergedLocals m map w i := by
  unfold mergedLocals bogifyRest
  split_ifs with hrest
  · rfl
  · exact overlay_congr (by simp; omega)

/-- A stack map that is merged into frames that are `Same`, or only taken from
the class file, leaves frames that are `Same`. -/
theorem agrees_matchStackmap (map : StackMap) (hfit : map.localSlots.length ≤ m.maxLocals)
    (check exist : Bool) : Agrees (Same m) (matchStackmap env m map ⟨check, true, exist⟩) := by
  refine agrees_of_ok fun f g h u f' hf => ?_
  obtain ⟨hcheck, hneed, rfl⟩ := matchStackmap_ok_iff.mp hf
  refine ⟨_, matchStackmap_ok_iff.mpr ⟨fun hc => ?_, fun h1 h2 => ?_, rfl⟩, ?_⟩
  · obtain ⟨hlocals, hsize, hstack⟩ := hcheck hc
    refine ⟨?_, h.vstackpointer ▸ hsize, ?_⟩
    · exact hlocals.congr fun j _ hj => (h.vlocals j (by simp at hj; omega)).symm
    · exact hstack.congr fun j _ hj => (h.vstack j (by simp at hj; omega)).symm
  · exact hneed h1 (h.needInitialization.trans h2)
  · exact {
      vstackpointer := rfl
      vstack := fun i hi => overlay_congr (by simpa using hi)
      vlocals := fun i hi => mergedLocals_congr map _ _ hi
      needInitialization := by simp only [h.needInitialization]
      noControlFlow := h.noControlFlow
      currentStackmapIndex := h.currentStackmapIndex }

/-! ## The members of the closure -/

theorem agrees_popRef : Agrees (Same m) popRef :=
  agrees_popCategory1.bind fun _ => .ite (fun _ => .pure _ _) fun _ => .throw _ _

theorem agrees_popAnyRef : Agrees (Same m) popAnyRef := agrees_popRef.bind fun _ => .pure _ _

theorem agrees_popObject (name : Symbol) : Agrees (Same m) (popObject env name) :=
  agrees_popCategory1.bind fun _ => .ofExcept _ _

theorem agrees_pushType (kind : BasicType) : Agrees (Same m) (pushType m kind) := by
  have hpush : ∀ k, Agrees (Same m) (push m k) := fun _ => agrees_pushCategory1 _
  cases kind
  case long => exact (hpush _).bind fun _ => hpush _
  case double => exact (hpush _).bind fun _ => hpush _
  case void => exact .pure _ _
  case object => exact .throw _ _
  case array => exact .throw _ _
  all_goals exact hpush _

theorem agrees_popType (kind : BasicType) : Agrees (Same m) (popType kind) := by
  cases kind
  case long => exact (agrees_pop _).bind fun _ => agrees_pop _
  case double => exact (agrees_pop _).bind fun _ => agrees_pop _
  case void => exact .pure _ _
  case object => exact .throw _ _
  case array => exact .throw _ _
  all_goals exact agrees_pop _

theorem agrees_checkLocalType (index : ℕ) (kind : BasicType) :
    Agrees (Same m) (checkLocalType m index kind) := by
  cases kind
  case long => exact agrees_checkLocal2 _ _
  case double => exact agrees_checkLocal2 _ _
  case void => exact .throw _ _
  case object => exact .throw _ _
  case array => exact .throw _ _
  all_goals exact agrees_checkLocal _ _

theorem agrees_setLocalType (index : ℕ) (kind : BasicType) :
    Agrees (Same m) (setLocalType m index kind) := by
  cases kind
  case long => exact agrees_setLocal2 _ _
  case double => exact agrees_setLocal2 _ _
  case void => exact .throw _ _
  case object => exact .throw _ _
  case array => exact .throw _ _
  all_goals exact agrees_setLocal _ _

theorem agrees_pushJavaType (type : JavaType) : Agrees (Same m) (pushJavaType m type) := by
  unfold pushJavaType
  split
  · exact agrees_pushCategory1 _
  · exact agrees_pushCategory1 _
  · exact agrees_pushType _

theorem agrees_popJavaType (type : JavaType) : Agrees (Same m) (popJavaType env type) := by
  unfold popJavaType
  split
  · exact agrees_popObject _
  · exact agrees_popObject _
  · exact agrees_popType _

theorem agrees_popArrayOf (kind : BasicType) : Agrees (Same m) (popArrayOf env kind) :=
  agrees_popRef.bind fun _ => .ofExcept _ _

theorem agrees_loadLocal (kind : BasicType) (index : ℕ) :
    Agrees (Same m) (loadLocal m kind index) :=
  .ite (fun _ => (agrees_checkLocalRef _).bind fun _ => agrees_pushCategory1 _)
    fun _ => (agrees_checkLocalType _ _).bind fun _ => agrees_pushType _

theorem agrees_storeLocal (kind : BasicType) (index : ℕ) :
    Agrees (Same m) (storeLocal m kind index) :=
  .ite (fun _ => agrees_popRef.bind fun _ => agrees_setLocalRef _ _)
    fun _ => (agrees_popType _).bind fun _ => agrees_setLocalType _ _

theorem agrees_loadArray (kind : BasicType) : Agrees (Same m) (loadArray env m kind) :=
  (agrees_pop _).bind fun _ => .ite
    (fun _ => agrees_popRef.bind fun _ => (Agrees.ofExcept _ _).bind fun _ => agrees_pushCategory1 _)
    fun _ => (agrees_popArrayOf _).bind fun _ => agrees_pushType _

theorem agrees_storeArray (kind : BasicType) : Agrees (Same m) (storeArray env kind) :=
  .ite
    (fun _ => agrees_popRef.bind fun _ => (agrees_pop _).bind fun _ => agrees_popRef.bind fun _ =>
      .ofExcept _ _)
    fun _ => (agrees_popType _).bind fun _ => (agrees_pop _).bind fun _ => agrees_popArrayOf _

theorem agrees_branchIf (isRef : Bool) (dest : ℤ) : Agrees (Same m) (branchIf env m isRef dest) :=
  .bind (.ite (fun _ => agrees_popAnyRef) fun _ => agrees_pop _)
    fun _ => agrees_checkBranchTarget dest

theorem agrees_popReturnValue : Agrees (Same m) (popReturnValue env m) := by
  unfold popReturnValue
  split
  · exact agrees_popObject _
  · exact agrees_popObject _
  · exact agrees_popType _

theorem agrees_returnOp (kind : BasicType) : Agrees (Same m) (returnOp env m kind) := by
  refine Agrees.get_bind fun f g h => ?_
  rw [h.needInitialization]
  exact Agrees.ite (fun _ => .throw _ _) (fun _ => .ite (fun _ => .throw _ _) fun _ =>
    agrees_popReturnValue.bind fun _ => agrees_setNoControlFlow true) f g h

theorem agrees_checkBranchTargets (dests : List ℤ) :
    Agrees (Same m) (checkBranchTargets env m dests) := by
  induction dests with
  | nil => exact .pure _ _
  | cons dest dests ih => exact (agrees_checkBranchTarget dest).bind fun _ => ih

theorem agrees_checkLookupPairs (lastKey : Option ℤ) (pairs : List (ℤ × ℤ)) :
    Agrees (Same m) (checkLookupPairs env m lastKey pairs) := by
  induction pairs generalizing lastKey with
  | nil => exact .pure _ _
  | cons pair pairs ih =>
    exact .ite (fun _ => .throw _ _) fun _ => (agrees_checkBranchTarget _).bind fun _ => ih _

theorem agrees_handleFieldReference (index : ℕ) (isStatic isPut : Bool) :
    Agrees (Same m) (handleFieldReference env m index isStatic isPut) := by
  unfold handleFieldReference
  split
  · exact .throw _ _
  · split
    · exact .throw _ _
    · refine .ite (fun _ => (agrees_popJavaType _).bind fun _ => .ite (fun _ => .pure _ _) fun _ => ?_)
        fun _ => .bind (.ite (fun _ => .pure _ _) fun _ => agrees_popObject _)
          fun _ => agrees_pushJavaType _
      exact agrees_popRef.bind fun _ => (agrees_pushCategory1 _).bind fun _ => agrees_popObject _
  · exact .throw _ _

theorem agrees_initThis (bci : ℕ) (name : Symbol) : Agrees (Same m) (initThis env m bci name) := by
  refine Agrees.get_bind fun f g h => ?_
  rw [h.needInitialization]
  exact Agrees.ite (fun _ => .throw _ _) (fun _ => .ite (fun _ => .throw _ _) fun _ =>
    .ite (fun _ => .throw _ _) fun _ => (agrees_setNeedInitialization false).bind fun _ =>
      .pure _ _) f g h

theorem agrees_initReceiver (bci : ℕ) (name : Symbol) :
    Agrees (Same m) (initReceiver env m bci name) := by
  refine agrees_popCategory1.bind fun slot => .bind ?_ fun _ => agrees_replace _ _ _
  unfold initName
  split
  · exact .ofExcept _ _
  · exact agrees_initThis _ _
  · exact .throw _ _

theorem agrees_invokeReceiver (bci index : ℕ) (opcode : InvokeCode) (klass name : Symbol) :
    Agrees (Same m) (invokeReceiver env m bci index opcode klass name) := by
  refine .ite (fun _ => .pure _ _) fun _ => .ite (fun _ => agrees_initReceiver _ _) fun _ =>
    .ite (fun _ => .ite (fun _ => agrees_popObject _) fun _ => .throw _ _) fun _ =>
      .ite (fun _ => ?_) fun _ => agrees_popObject _
  split
  · exact .throw _ _
  · exact agrees_popObject _

theorem agrees_handleInvoker (bci index : ℕ) (opcode : InvokeCode) :
    Agrees (Same m) (handleInvoker env m bci index opcode) := by
  unfold handleInvoker
  split
  · exact .throw _ _
  · rename_i params ret _
    refine (agrees_popInvokeArguments params).bind fun _ => .ite (fun _ => .throw _ _) fun _ =>
      (agrees_invokeReceiver _ _ _ _ _).bind fun _ => .bind ?_ fun _ => .ofExcept _ _
    cases ret with
    | none => exact .pure _ _
    | some type => exact agrees_pushJavaType type
  · exact .throw _ _

theorem agrees_popIntegers (n : ℕ) : Agrees (Same m) (popIntegers n) := by
  induction n with
  | zero => exact .pure _ _
  | succ n ih => exact (agrees_pop _).bind fun _ => ih

theorem agrees_klassNameAt (index : ℕ) : Agrees (Same m) (klassNameAt m index) := .ofExcept _ _

/-- No member of the closure can tell frames apart that are `Same`. -/
theorem agrees_exec (bci : ℕ) (op : Op) : Agrees (Same m) (exec env m bci op) := by
  have push1 := agrees_pushCategory1 (m := m)
  have push2 := agrees_pushCategory2 (m := m)
  have pop1 := agrees_popCategory1 (m := m)
  have pop2 := agrees_popCategory2 (m := m)
  have popInt := agrees_pop (m := m) .integer
  have target : ∀ dest, Agrees (Same m) (checkBranchTarget env m dest) := agrees_checkBranchTarget
  have ends := agrees_setNoControlFlow (m := m) true
  have klass := agrees_klassNameAt (m := m)
  cases op with
  | pushInt => exact push1 _
  | pushLong => exact (push1 _).bind fun _ => push1 _
  | pushFloat => exact push1 _
  | pushDouble => exact (push1 _).bind fun _ => push1 _
  | pushObj isNull => exact .ite (fun _ => push1 _) fun _ => push1 _
  | loadLocal kind index => exact agrees_loadLocal kind index
  | storeLocal kind index => exact agrees_storeLocal kind index
  | incrementLocalInt index => exact agrees_checkLocalType index .int
  | arrayLength => exact agrees_popRef.bind fun _ => (Agrees.ofExcept _ _).bind fun _ => push1 _
  | loadArray kind => exact agrees_loadArray kind
  | storeArray kind => exact agrees_storeArray kind
  | nop => exact .pure _ _
  | pop => exact pop1.bind fun _ => .pure _ _
  | pop2 => exact pop2.bind fun _ => .pure _ _
  | dup => exact pop1.bind fun _ => (push1 _).bind fun _ => push1 _
  | dup2 => exact pop2.bind fun _ => (push2 _).bind fun _ => push2 _
  | dupX1 =>
    exact pop1.bind fun _ => pop1.bind fun _ => (push1 _).bind fun _ => (push1 _).bind fun _ => push1 _
  | dup2X1 =>
    exact pop2.bind fun _ => pop1.bind fun _ => (push2 _).bind fun _ => (push1 _).bind fun _ => push2 _
  | dupX2 =>
    exact pop1.bind fun _ => pop2.bind fun _ => (push1 _).bind fun _ => (push2 _).bind fun _ => push1 _
  | dup2X2 =>
    exact pop2.bind fun _ => pop2.bind fun _ => (push2 _).bind fun _ => (push2 _).bind fun _ => push2 _
  | swap => exact pop1.bind fun _ => pop1.bind fun _ => (push1 _).bind fun _ => push1 _
  | neg kind => exact (agrees_popType kind).bind fun _ => agrees_pushType kind
  | binary kind isShift =>
    exact .bind (.ite (fun _ => agrees_popType _) fun _ => agrees_popType _) fun _ =>
      (agrees_popType kind).bind fun _ => agrees_pushType kind
  | convert source target => exact (agrees_popType source).bind fun _ => agrees_pushType target
  | compare kind =>
    exact (agrees_popType kind).bind fun _ => (agrees_popType kind).bind fun _ => agrees_pushType _
  | branchIf isRef dest => exact agrees_branchIf isRef dest
  | branchIfIcmp dest => exact popInt.bind fun _ => popInt.bind fun _ => target dest
  | branchIfAcmp dest =>
    exact agrees_popAnyRef.bind fun _ => agrees_popAnyRef.bind fun _ => target dest
  | branch dest => exact (target dest).bind fun _ => ends
  | returnOp kind => exact agrees_returnOp kind
  | tableSwitch defaultDest dests =>
    exact popInt.bind fun _ => (target _).bind fun _ =>
      (agrees_checkBranchTargets dests).bind fun _ => ends
  | lookupSwitch defaultDest pairs =>
    exact popInt.bind fun _ => (target _).bind fun _ =>
      (agrees_checkLookupPairs none pairs).bind fun _ => ends
  | getField index => exact agrees_handleFieldReference index false false
  | putField index => exact agrees_handleFieldReference index false true
  | getStatic index => exact agrees_handleFieldReference index true false
  | putStatic index => exact agrees_handleFieldReference index true true
  | invokeInterface index => exact agrees_handleInvoker bci index _
  | invokeSpecial index => exact agrees_handleInvoker bci index _
  | invokeStatic index => exact agrees_handleInvoker bci index _
  | invokeVirtual index => exact agrees_handleInvoker bci index _
  | throwException => exact (agrees_popObject _).bind fun _ => ends
  | newObject index => exact (klass index).bind fun _ => .ite (fun _ => .throw _ _) fun _ => push1 _
  | newBasicArray type => exact popInt.bind fun _ => .ite (fun _ => push1 _) fun _ => .throw _ _
  | newObjectArray index => exact (klass index).bind fun _ => popInt.bind fun _ => push1 _
  | newMultiArray index dims =>
    exact (klass index).bind fun _ => .ite (fun _ => (agrees_popIntegers _).bind fun _ =>
      .ite (fun _ => push1 _) fun _ => .throw _ _) fun _ => .throw _ _
  | checkCast index => exact (klass index).bind fun _ => (agrees_popObject _).bind fun _ => push1 _
  | instanceOf index => exact (klass index).bind fun _ => (agrees_popObject _).bind fun _ => push1 _
  | monitorEnter => exact agrees_popAnyRef
  | monitorExit => exact agrees_popAnyRef
  | illegalCode => exact .throw _ _

/-! ## The pass -/

theorem agrees_checkExceptionHandler (h : Handler) :
    Agrees (Same m) (checkExceptionHandler env m h) := by
  refine agrees_of_ok fun f g hs u f' hf => ?_
  obtain ⟨name, hcatch, hroom, hcheck, rfl⟩ := checkExceptionHandler_ok_iff.mp hf
  have hsame : Same m (handlerFrame f name) (handlerFrame g name) := {
    vstackpointer := rfl
    vstack := fun i hi => by
      have : i = 0 := by simpa [handlerFrame] using hi
      simp [handlerFrame, this]
    vlocals := hs.vlocals
    needInitialization := hs.needInitialization
    noControlFlow := hs.noControlFlow
    currentStackmapIndex := hs.currentStackmapIndex }
  have htarget : OutcomesAgree (Same m) (checkBranchTarget env m h.handler (handlerFrame f name))
      (checkBranchTarget env m h.handler (handlerFrame g name)) :=
    agrees_checkBranchTarget _ _ _ hsame
  rw [hcheck] at htarget
  rcases hg : checkBranchTarget env m h.handler (handlerFrame g name) with e | ⟨u', g'⟩
  · rw [hg] at htarget; exact htarget.elim
  · obtain ⟨rfl, -⟩ := checkBranchTarget_ok_iff.mp hg
    exact ⟨_, checkExceptionHandler_ok_iff.mpr ⟨name, hcatch, hroom, hg, rfl⟩, { hs with }⟩

theorem agrees_checkExceptionHandlersForBci (bci : ℕ) (handlers : List Handler) :
    Agrees (Same m) (checkExceptionHandlersForBci env m bci handlers) := by
  induction handlers with
  | nil => exact .pure _ _
  | cons h handlers ih =>
    exact .bind (.ite (fun _ => agrees_checkExceptionHandler h) fun _ => .pure _ _) fun _ => ih

theorem agrees_checkStackmapOrder (bci : ℕ) : Agrees (Same m) (checkStackmapOrder m bci) := by
  intro f g h
  unfold checkStackmapOrder
  rw [h.currentStackmapIndex]
  rcases m.stackmaps[g.currentStackmapIndex]? with _ | map
  · exact ⟨rfl, h⟩
  · simp only
    split_ifs
    · exact ⟨rfl, { h with currentStackmapIndex := rfl }⟩
    · exact trivial
    · exact ⟨rfl, h⟩

theorem agrees_checkCurrentTarget (bci : ℕ) (noControlFlow : Bool) :
    Agrees (Same m) (checkCurrentTarget env m bci noControlFlow) := by
  unfold checkCurrentTarget checkStackmapMatch
  rcases hmap : m.stackmapAt bci with _ | map
  · exact .ite (fun _ => .throw _ _) fun _ => .pure _ _
  · exact agrees_matchStackmap map (Method.stackmapAt_fits hmap).1 _ _

theorem agrees_bytecodeProlog (bci : ℕ) : Agrees (Same m) (bytecodeProlog env m bci) := by
  refine (agrees_checkStackmapOrder bci).bind fun _ => Agrees.get_bind fun f g h => ?_
  rw [h.noControlFlow]
  exact (agrees_checkCurrentTarget bci g.noControlFlow).bind (fun _ =>
    (agrees_checkExceptionHandlersForBci bci _).bind fun _ => agrees_setNoControlFlow false) f g h

/-- **Run lemma**: two runs from frames that are `Same` go on alike to the end
of the method. -/
theorem agrees_iterateFrom (fuel bci : ℕ) : Agrees (Same m) (iterateFrom env m fuel bci) := by
  induction fuel generalizing bci with
  | zero => exact .ite (fun _ => .pure _ _) fun _ => .throw _ _
  | succ fuel ih =>
    refine .ite (fun _ => ?_) fun _ => .ite (fun _ => .throw _ _) fun _ => .pure _ _
    exact Agrees.bind ((agrees_bytecodeProlog bci).bind fun _ => agrees_exec bci _) fun _ => ih _

theorem agrees_checkEnd : Agrees (Same m) (checkEnd m) := by
  refine Agrees.get_bind fun f g h => ?_
  rw [h.currentStackmapIndex, h.noControlFlow]
  exact Agrees.ite (fun _ => .throw _ _) (fun _ => .ite (fun _ => .throw _ _) fun _ => .pure _ _)
    f g h

/-! ## After an instruction that cannot fall through -/

/-- Two frames that instructions without a successor left behind at `bci`. The
flag is never set in a method that is no initializer, and the index counts
the stack maps before `bci`. -/
structure Leftovers (m : Method) where
  bci : ℕ
  bci_lt : bci < m.code.length
  first : VerifierFrame
  second : VerifierFrame
  first_ends : first.noControlFlow = true
  second_ends : second.noControlFlow = true
  first_flag : first.needInitialization = true → m.isObjectInitializer = true
  second_flag : second.needInitialization = true → m.isObjectInitializer = true
  index_eq : first.currentStackmapIndex = second.currentStackmapIndex

/-- The rest of the pass from `bci` on, at most `fuel` instructions. -/
def passFrom (env : ClassEnv) (m : Method) (fuel bci : ℕ) : Vfy Unit := do
  iterateFrom env m fuel bci
  checkEnd m

/-- The two frames go on alike: the match with the stack map, the whole prolog
and the rest of the pass reject both, or accept both with frames that are
`Same`. -/
structure ContinueAlike (env : ClassEnv) (m : Method) (l : Leftovers m) : Prop where
  stackmapMatch : OutcomesAgree (Same m) (checkCurrentTarget env m l.bci true l.first)
    (checkCurrentTarget env m l.bci true l.second)
  prolog : OutcomesAgree (Same m) (bytecodeProlog env m l.bci l.first)
    (bytecodeProlog env m l.bci l.second)
  rest : ∀ fuel, OutcomesAgree (Same m) (passFrom env m fuel l.bci l.first)
    (passFrom env m fuel l.bci l.second)

/-- A leftover flag matters only in an initializer and where the map has no
`InitObject`. -/
def FlagForgotten (l : Leftovers m) : Prop :=
  m.isObjectInitializer = true → ∀ map, m.stackmapAt l.bci = some map →
    map.needsInitialization = true ∨ l.first.needInitialization = l.second.needInitialization

theorem mergeStackmap_ok_iff {map : StackMap} {u : Unit} {f' : VerifierFrame} :
    matchStackmap env m map ⟨false, true, true⟩ f = .ok (u, f') ↔
      (m.isObjectInitializer = true → f.needInitialization = true →
        map.needsInitialization = true) ∧ f' = { f with
        vlocals := mergedLocals m map f.vlocals
        vstack := overlay f.vstack 0 (carriedSlots map.stackSlots none)
        vstackpointer := map.stackSlots.length
        needInitialization := if m.isObjectInitializer then map.needsInitialization
          else f.needInitialization } := by
  rw [matchStackmap_ok_iff]
  simp

theorem same_of_merge {map : StackMap} {u u' : Unit} {f' g' : VerifierFrame}
    (hflag : m.isObjectInitializer = false → f.needInitialization = g.needInitialization)
    (hends : f.noControlFlow = g.noControlFlow)
    (hindex : f.currentStackmapIndex = g.currentStackmapIndex)
    (hf : matchStackmap env m map ⟨false, true, true⟩ f = .ok (u, f'))
    (hg : matchStackmap env m map ⟨false, true, true⟩ g = .ok (u', g')) : Same m f' g' := by
  obtain ⟨-, rfl⟩ := mergeStackmap_ok_iff.mp hf
  obtain ⟨-, rfl⟩ := mergeStackmap_ok_iff.mp hg
  exact {
    vstackpointer := rfl
    vstack := fun i hi => overlay_congr (by simpa using hi)
    vlocals := fun i hi => mergedLocals_congr map _ _ hi
    needInitialization := by
      cases hi : m.isObjectInitializer with
      | true => simp
      | false => simpa using hflag hi
    noControlFlow := hends
    currentStackmapIndex := hindex }

namespace Leftovers

theorem flags_eq (l : Leftovers m) (h : m.isObjectInitializer = false) :
    l.first.needInitialization = l.second.needInitialization := by
  have h1 : l.first.needInitialization = false := by
    by_contra hne
    rw [l.first_flag ((Bool.not_eq_false _).mp hne)] at h
    cases h
  have h2 : l.second.needInitialization = false := by
    by_contra hne
    rw [l.second_flag ((Bool.not_eq_false _).mp hne)] at h
    cases h
  rw [h1, h2]

/-- The frames after the stack maps have been counted are leftovers again. -/
def counted (l : Leftovers m) (index : ℕ) : Leftovers m :=
  { l with
    first := { l.first with currentStackmapIndex := index }
    second := { l.second with currentStackmapIndex := index }
    index_eq := rfl }

theorem counted_flagForgotten {l : Leftovers m} (h : FlagForgotten l) (index : ℕ) :
    FlagForgotten (l.counted index) := h

end Leftovers

/-- Where the flag does not matter, the match with the recorded map forgets the
frame. -/
theorem checkCurrentTarget_forgets (l : Leftovers m) (hflag : FlagForgotten l) :
    OutcomesAgree (Same m) (checkCurrentTarget env m l.bci true l.first)
      (checkCurrentTarget env m l.bci true l.second) := by
  unfold checkCurrentTarget checkStackmapMatch
  rcases hmap : m.stackmapAt l.bci with _ | map
  · exact trivial
  simp only [Bool.not_true]
  have hiff : (m.isObjectInitializer = true → l.first.needInitialization = true →
      map.needsInitialization = true) ↔ (m.isObjectInitializer = true →
      l.second.needInitialization = true → map.needsInitialization = true) := by
    constructor
    · intro h hi hsecond
      rcases hflag hi map hmap with hn | heq
      · exact hn
      · exact h hi (heq.trans hsecond)
    · intro h hi hfirst
      rcases hflag hi map hmap with hn | heq
      · exact hn
      · exact h hi (heq.symm.trans hfirst)
  rcases h1 : matchStackmap env m map ⟨false, true, true⟩ l.first with e | ⟨u, f'⟩ <;>
    rcases h2 : matchStackmap env m map ⟨false, true, true⟩ l.second with e' | ⟨u', g'⟩
  · exact trivial
  · have hpass : matchStackmap env m map ⟨false, true, true⟩ l.first = .ok ((), _) :=
      mergeStackmap_ok_iff.mpr ⟨hiff.mpr (mergeStackmap_ok_iff.mp h2).1, rfl⟩
    rw [h1] at hpass
    cases hpass
  · have hpass : matchStackmap env m map ⟨false, true, true⟩ l.second = .ok ((), _) :=
      mergeStackmap_ok_iff.mpr ⟨hiff.mp (mergeStackmap_ok_iff.mp h1).1, rfl⟩
    rw [h2] at hpass
    cases hpass
  · exact ⟨rfl, same_of_merge l.flags_eq (l.first_ends.trans l.second_ends.symm) l.index_eq h1 h2⟩

theorem bytecodeProlog_forgets (l : Leftovers m) (hflag : FlagForgotten l) :
    OutcomesAgree (Same m) (bytecodeProlog env m l.bci l.first)
      (bytecodeProlog env m l.bci l.second) := by
  have horder : (∃ e, checkStackmapOrder m l.bci l.first = .error e ∧
        checkStackmapOrder m l.bci l.second = .error e) ∨
      ∃ index, checkStackmapOrder m l.bci l.first = .ok ((), (l.counted index).first) ∧
        checkStackmapOrder m l.bci l.second = .ok ((), (l.counted index).second) := by
    unfold checkStackmapOrder
    rw [l.index_eq]
    have hkept : .ok ((), l.first) = (.ok ((), (l.counted l.second.currentStackmapIndex).first) :
        Except VerifyError (Unit × VerifierFrame)) := by
      rw [← l.index_eq]
      rfl
    rcases m.stackmaps[l.second.currentStackmapIndex]? with _ | map
    · exact .inr ⟨_, hkept, rfl⟩
    · simp only
      split_ifs
      · exact .inr ⟨_, rfl, rfl⟩
      · exact .inl ⟨_, rfl, rfl⟩
      · exact .inr ⟨_, hkept, rfl⟩
  unfold bytecodeProlog
  rw [bind_apply, bind_apply]
  rcases horder with ⟨e, h1, h2⟩ | ⟨index, h1, h2⟩
  · rw [h1, h2]
    exact trivial
  rw [h1, h2]
  simp only [get_bind_apply]
  rw [(l.counted index).first_ends, (l.counted index).second_ends]
  exact OutcomesAgree.bind
    (checkCurrentTarget_forgets (l.counted index) (Leftovers.counted_flagForgotten hflag index))
    fun _ => (agrees_checkExceptionHandlersForBci _ _).bind fun _ => agrees_setNoControlFlow false

theorem passFrom_forgets (l : Leftovers m) (hflag : FlagForgotten l) (fuel : ℕ) :
    OutcomesAgree (Same m) (passFrom env m fuel l.bci l.first)
      (passFrom env m fuel l.bci l.second) := by
  refine OutcomesAgree.bind ?_ fun _ => agrees_checkEnd
  cases fuel with
  | zero =>
    unfold iterateFrom
    rw [if_neg l.bci_lt.ne]
    exact trivial
  | succ fuel =>
    unfold iterateFrom
    rw [if_pos l.bci_lt]
    refine OutcomesAgree.bind ?_ fun _ => agrees_iterateFrom fuel _
    exact OutcomesAgree.bind (bytecodeProlog_forgets l hflag) fun _ => agrees_exec _ _

/-- The match itself tells two flags apart where the map has no `InitObject`. -/
theorem flagForgotten_of_match (l : Leftovers m)
    (h : OutcomesAgree (Same m) (checkCurrentTarget env m l.bci true l.first)
      (checkCurrentTarget env m l.bci true l.second)) : FlagForgotten l := by
  intro hi map hmap
  by_contra hne
  obtain ⟨hmapFlag, hflags⟩ := not_or.mp hne
  unfold checkCurrentTarget checkStackmapMatch at h
  simp only [hmap, Bool.not_true] at h
  -- one of the flags is set and that run fails; the other run goes on
  have hfails : ∀ f : VerifierFrame, f.needInitialization = true →
      ∃ e, matchStackmap env m map ⟨false, true, true⟩ f = .error e := by
    intro f hf
    rcases hx : matchStackmap env m map ⟨false, true, true⟩ f with e | ⟨u, f'⟩
    · exact ⟨e, rfl⟩
    · exact absurd ((mergeStackmap_ok_iff.mp hx).1 hi hf) hmapFlag
  have hpasses : ∀ f : VerifierFrame, f.needInitialization = false →
      ∃ f', matchStackmap env m map ⟨false, true, true⟩ f = .ok ((), f') := by
    intro f hf
    refine ⟨_, mergeStackmap_ok_iff.mpr ⟨fun _ hset => ?_, rfl⟩⟩
    rw [hf] at hset
    cases hset
  cases h1 : l.first.needInitialization with
  | true =>
    have h2 : l.second.needInitialization = false := by
      by_contra h2
      exact hflags (h1.trans ((Bool.not_eq_false _).mp h2).symm)
    obtain ⟨e, hfirst⟩ := hfails _ h1
    obtain ⟨g', hsecond⟩ := hpasses _ h2
    rw [hfirst, hsecond] at h
    exact h
  | false =>
    have h2 : l.second.needInitialization = true := by
      by_contra h2
      exact hflags (h1.trans ((Bool.not_eq_true _).mp h2).symm)
    obtain ⟨f', hfirst⟩ := hpasses _ h1
    obtain ⟨e, hsecond⟩ := hfails _ h2
    rw [hfirst, hsecond] at h
    exact h

/-- **Main theorem.** Two leftover frames continue alike if and only if the flag
is forgotten: the method is no initializer, or there is no stack map, or it
has an `InitObject`, or both frames carry the same flag. -/
theorem continueAlike_iff (l : Leftovers m) :
    ContinueAlike env m l ↔
      (m.isObjectInitializer = true → ∀ map, m.stackmapAt l.bci = some map →
        map.needsInitialization = true ∨
          l.first.needInitialization = l.second.needInitialization) :=
  ⟨fun h => flagForgotten_of_match l h.stackmapMatch,
    fun h => ⟨checkCurrentTarget_forgets l h, bytecodeProlog_forgets l h, passFrom_forgets l h⟩⟩

/-- `aconst_null; athrow; return` in an initializer, with a stack map at the
`return` that says that `this` is an object of class `C`. -/
def leakyInitializer : Method where
  code := [0x01, 0xbf, 0xb1]
  maxStack := 1
  maxLocals := 1
  name := "<init>"
  isStatic := false
  params := []
  ret := none
  holder := "C"
  constants := []
  exceptionTable := []
  stackmaps := [⟨2, [.object "C"], []⟩]
  codeSize_lt := by decide
  stackmaps_fit := by decide

/-- The frame the `athrow` leaves in `leakyInitializer`: before the super
initializer has run the flag is set, after it the flag is clear. -/
def athrowFrame (needInitialization : Bool) : VerifierFrame where
  vstackpointer := 0
  vstack := fun _ => ⟨.bogus, none⟩
  vlocals := fun _ => if needInitialization then ⟨.initObject, none⟩ else ⟨.object, some "C"⟩
  needInitialization := needInitialization
  savedStackPointer := 0
  saved0 := ⟨.bogus, none⟩
  noControlFlow := true
  currentStackmapIndex := 0

/-- The two leftovers of `leakyInitializer`. -/
def leakyLeftovers : Leftovers leakyInitializer where
  bci := 2
  bci_lt := by decide
  first := athrowFrame true
  second := athrowFrame false
  first_ends := rfl
  second_ends := rfl
  first_flag := fun _ => by decide
  second_flag := fun h => by cases h
  index_eq := rfl

/-- The leftover flag decides whether the `return` is accepted. -/
theorem leakyLeftovers_differ :
    ¬ ContinueAlike .bare leakyInitializer leakyLeftovers := by
  intro h
  have hflag := flagForgotten_of_match leakyLeftovers h.stackmapMatch
  rcases hflag (by decide) ⟨2, [.object "C"], []⟩ (by decide) with hneeds | heq
  · exact absurd hneeds (by decide)
  · exact absurd heq (by decide)

end CldcVm.Verifier
