import CldcVm.Verifier.Invariant

/-!
# Every frame the verifier reaches is consistent

Results:
* `runOps_twoWord`: every sequence of frame operations keeps the frame
  consistent.
-/

namespace CldcVm.Verifier

open Lib Comp

variable {env : ClassEnv} {m : Method} {k : ℕ}

/-! ## The members of the closure -/

/-- A type that is neither a reference nor `void`. -/
def BasicType.isPrimitive : BasicType → Bool
  | object | array | void => false
  | _ => true

/-- The kinds the iterator passes on. -/
def Op.KindsFit : Op → Prop
  | loadLocal kind _ | storeLocal kind _ | loadArray kind | storeArray kind =>
    kind = .object ∨ kind.isPrimitive = true
  | neg kind | binary kind _ | compare kind => kind.isPrimitive = true
  | convert source target => source.isPrimitive = true ∧ target.isPrimitive = true
  | _ => True

variable {kind : BasicType}

theorem safe_pushType (hk : kind.isPrimitive = true) : Safe m k (pushType m kind) := by
  cases kind
  case long => exact safe_pushDoubleword rfl
  case double => exact safe_pushDoubleword rfl
  case object => cases hk
  case array => cases hk
  case void => cases hk
  all_goals exact safe_push rfl

theorem safe_popType (hk : kind.isPrimitive = true) : Safe m k (popType kind) := by
  cases kind
  case long => exact safe_popDoubleword (by rfl : StackMapKind.long.isHead = true)
  case double => exact safe_popDoubleword (by rfl : StackMapKind.double.isHead = true)
  case object => cases hk
  case array => cases hk
  case void => cases hk
  all_goals exact safe_pop rfl

theorem safe_checkLocalType (hk : kind.isPrimitive = true) (index : ℕ) :
    Safe m k (checkLocalType m index kind) := by
  cases kind
  case long => exact safe_checkLocal2 rfl
  case double => exact safe_checkLocal2 rfl
  case float => exact safe_checkLocal (.inr rfl)
  case object => cases hk
  case array => cases hk
  case void => cases hk
  all_goals exact safe_checkLocal (.inl rfl)

theorem safe_setLocalType (hk : kind.isPrimitive = true) (index : ℕ) :
    Safe m k (setLocalType m index kind) := by
  cases kind
  case long => exact safe_setLocal2 rfl
  case double => exact safe_setLocal2 rfl
  case object => cases hk
  case array => cases hk
  case void => cases hk
  all_goals exact safe_setLocal rfl

theorem JavaType.isPrimitive_basicType {type : JavaType} (hobject : ∀ name, type ≠ .object name)
    (harray : ∀ name, type ≠ .array name) : type.basicType.isPrimitive = true := by
  cases type
  case object name => exact absurd rfl (hobject name)
  case array name => exact absurd rfl (harray name)
  all_goals rfl

theorem safe_pushJavaType (type : JavaType) : Safe m k (pushJavaType m type) := by
  unfold pushJavaType
  split
  · exact safe_pushObject _
  · exact safe_pushObject _
  · rename_i hobject harray
    exact safe_pushType (JavaType.isPrimitive_basicType hobject harray)

theorem safe_popJavaType (type : JavaType) : Safe m k (popJavaType env type) := by
  unfold popJavaType
  split
  · exact safe_popObject _
  · exact safe_popObject _
  · rename_i hobject harray
    exact safe_popType (JavaType.isPrimitive_basicType hobject harray)

theorem safe_ofExcept {α : Type} {x : Except VerifyError α}
    (h : ∀ e, x = .error e → e ≠ .guarantee) : Safe m k (Comp.ofExcept x) :=
  .ofExcept (fun _ _ => trivial) h

theorem safe_popArrayOf (kind : BasicType) : Safe m k (popArrayOf env kind) := by
  refine kept_popRef.bind fun slot _ => safe_ofExcept fun e he => ?_
  unfold checkArrayOf at he
  split at he
  · cases he
  · split at he
    · cases he
      exact VerifyError.noConfusion
    · split at he
      · cases he
        exact VerifyError.noConfusion
      · split_ifs at he
        cases he
        exact VerifyError.noConfusion
  · cases he
    exact VerifyError.noConfusion

variable {e : VerifyError}

theorem elementName_error {name : Option Symbol}
    (h : elementName env name = .error e) : e ≠ .guarantee := by
  unfold elementName at h
  split at h
  · cases h
    exact VerifyError.noConfusion
  · split at h <;> cases h
    exact VerifyError.noConfusion

theorem safe_setNoControlFlow (value : Bool) : Safe m k (setNoControlFlow value) :=
  fun _ h => ⟨trivial, { h with }⟩

theorem safe_popAnyRef : Safe m k popAnyRef := kept_popRef.bind fun _ _ => .pure trivial

theorem safe_loadLocal (hk : kind = .object ∨ kind.isPrimitive = true)
    (index : ℕ) : Safe m k (loadLocal m kind index) :=
  .ite (fun _ => (kept_checkLocalRef index).bind fun _ hs => safe_pushCategory1 hs) fun hne =>
    (safe_checkLocalType (hk.resolve_left hne) index).bind fun _ _ =>
      safe_pushType (hk.resolve_left hne)

theorem safe_storeLocal (hk : kind = .object ∨ kind.isPrimitive = true)
    (index : ℕ) : Safe m k (storeLocal m kind index) :=
  .ite (fun _ => kept_popRef.bind fun _ hs => safe_setLocalRef hs) fun hne =>
    (safe_popType (hk.resolve_left hne)).bind fun _ _ =>
      safe_setLocalType (hk.resolve_left hne) index

theorem kept_elementSlot (slot : Slot) :
    Kept m k (fun slot => slot.tag.isSingle = true) (Comp.ofExcept (elementSlot env slot)) := by
  refine .ofExcept (fun element h => ?_) fun e he => ?_
  · unfold elementSlot at h
    split_ifs at h
    · cases h
      rfl
    · split at h <;> cases h
      rfl
  · unfold elementSlot at he
    split_ifs at he
    split at he
    · cases he
    · rename_i hname
      cases he
      exact elementName_error hname

theorem safe_loadArray (hk : kind = .object ∨ kind.isPrimitive = true) :
    Safe m k (loadArray env m kind) :=
  (safe_pop rfl).bind fun _ _ => .ite
    (fun _ => kept_popRef.bind fun slot _ => (kept_elementSlot slot).bind fun _ hs =>
      safe_pushCategory1 hs)
    fun hne => (safe_popArrayOf kind).bind fun _ _ => safe_pushType (hk.resolve_left hne)

theorem checkArrayStore_error {element array : Slot}
    (h : checkArrayStore env element array = .error e) : e ≠ .guarantee := by
  unfold checkArrayStore at h
  split_ifs at h
  · cases h
    exact VerifyError.noConfusion
  · split at h <;> cases h <;> exact VerifyError.noConfusion

theorem safe_storeArray (hk : kind = .object ∨ kind.isPrimitive = true) :
    Safe m k (storeArray env kind) :=
  .ite
    (fun _ => kept_popRef.bind fun _ _ => (safe_pop rfl).bind fun _ _ => kept_popRef.bind fun _ _ =>
      safe_ofExcept fun _ => checkArrayStore_error)
    fun hne => (safe_popType (hk.resolve_left hne)).bind fun _ _ => (safe_pop rfl).bind fun _ _ =>
      safe_popArrayOf kind

theorem safe_arrayLength : Safe m k (arrayLength env m) := by
  refine kept_popRef.bind fun slot _ =>
    (safe_ofExcept fun e he => ?_).bind fun _ _ => safe_push rfl
  unfold checkArray isArrayName at he
  split at he
  · cases he
  · split at he
    · cases he
    · cases he
      exact VerifyError.noConfusion
    · rename_i hname
      cases he
      split at hname <;> cases hname
      exact VerifyError.noConfusion
  · cases he
    exact VerifyError.noConfusion

theorem safe_popReturnValue : Safe m k (popReturnValue env m) := by
  unfold popReturnValue
  split
  · exact safe_popObject _
  · exact safe_popObject _
  · rename_i hobj harr
    unfold Method.expectedReturnKind
    rcases hret : m.ret with _ | type
    · exact Keeps.pure trivial
    · cases type
      case object name => exact absurd hret (hobj name)
      case array name => exact absurd hret (harr name)
      all_goals exact safe_popType (by rfl)

theorem safe_returnOp (kind : BasicType) : Safe m k (returnOp env m kind) :=
  Triple.get_bind fun f h => Keeps.ite (fun _ => .throw VerifyError.noConfusion)
    (fun _ => .ite (fun _ => .throw VerifyError.noConfusion) fun _ =>
      safe_popReturnValue.bind fun _ _ => safe_setNoControlFlow true) f h

theorem safe_checkBranchTargets (dests : List ℤ) : Safe m k (checkBranchTargets env m dests) := by
  induction dests with
  | nil => exact .pure trivial
  | cons dest dests ih => exact (safe_checkBranchTarget dest).bind fun _ _ => ih

theorem safe_checkLookupPairs (lastKey : Option ℤ) (pairs : List (ℤ × ℤ)) :
    Safe m k (checkLookupPairs env m lastKey pairs) := by
  induction pairs generalizing lastKey with
  | nil => exact .pure trivial
  | cons pair pairs ih =>
    exact .ite (fun _ => .throw VerifyError.noConfusion) fun _ =>
      (safe_checkBranchTarget _).bind fun _ _ => ih _

theorem safe_handleFieldReference (index : ℕ) (isStatic isPut : Bool) :
    Safe m k (handleFieldReference env m index isStatic isPut) := by
  unfold handleFieldReference
  split
  · exact .throw VerifyError.noConfusion
  · split
    · exact .throw VerifyError.noConfusion
    · refine .ite (fun _ => (safe_popJavaType _).bind fun _ _ =>
        .ite (fun _ => .pure trivial) fun _ => ?_) fun _ => Keeps.bind (V := fun _ => True)
          (.ite (fun _ => .pure trivial) fun _ => safe_popObject _) fun _ _ => safe_pushJavaType _
      refine kept_popRef.bind fun slot hs => (safe_pushCategory1 ?_).bind fun _ _ => safe_popObject _
      split_ifs
      · rfl
      · exact hs
  · exact .throw VerifyError.noConfusion

theorem newObjectName_error {newBci : ℕ} {name : Symbol}
    (h : newObjectName m newBci name = .error e) : e ≠ .guarantee := by
  unfold newObjectName at h
  split_ifs at h
  · cases h
    exact VerifyError.noConfusion
  · split at h
    · cases h
      exact VerifyError.noConfusion
    · split_ifs at h
      cases h
      exact VerifyError.noConfusion
    · cases h
      exact VerifyError.noConfusion

theorem safe_clearNeedInitialization : Safe m k (setNeedInitialization false) :=
  fun _ h => ⟨trivial, { h with flag := fun hset => by cases hset }⟩

theorem safe_initThis (bci : ℕ) (name : Symbol) : Safe m k (initThis env m bci name) :=
  Triple.get_bind fun f h => Keeps.ite (V := fun _ => True) (fun _ => .throw VerifyError.noConfusion)
    (fun _ => .ite (fun _ => .throw VerifyError.noConfusion) fun _ =>
      .ite (fun _ => .throw VerifyError.noConfusion) fun _ =>
        safe_clearNeedInitialization.bind fun _ _ => .pure trivial) f h

theorem safe_initReceiver (bci : ℕ) (name : Symbol) : Safe m k (initReceiver env m bci name) := by
  refine kept_popCategory1.bind fun slot hs => Keeps.bind (V := fun _ => True) ?_
    fun _ _ => safe_replace hs _
  unfold initName
  split
  · exact safe_ofExcept fun _ => newObjectName_error
  · exact safe_initThis _ _
  · exact .throw VerifyError.noConfusion

theorem safe_invokeReceiver (bci index : ℕ) (opcode : InvokeCode) (klass name : Symbol) :
    Safe m k (invokeReceiver env m bci index opcode klass name) := by
  refine .ite (fun _ => .pure trivial) fun _ => .ite (fun _ => safe_initReceiver _ _) fun _ =>
    .ite (fun _ => .ite (fun _ => safe_popObject _) fun _ => .throw VerifyError.noConfusion)
      fun _ => .ite (fun _ => ?_) fun _ => safe_popObject _
  split
  · exact .throw VerifyError.noConfusion
  · exact safe_popObject _

theorem safe_handleInvoker (bci index : ℕ) (opcode : InvokeCode) :
    Safe m k (handleInvoker env m bci index opcode) := by
  unfold handleInvoker
  split
  · exact .throw VerifyError.noConfusion
  · rename_i params ret _
    refine (safe_popInvokeArguments params).bind fun nwords _ =>
      .ite (fun _ => .throw VerifyError.noConfusion) fun _ =>
        (safe_invokeReceiver _ _ _ _ _).bind fun _ _ => Keeps.bind (V := fun _ => True) ?_
          fun _ _ => safe_ofExcept fun e he => ?_
    · cases ret with
      | none => exact Keeps.pure trivial
      | some type => exact safe_pushJavaType type
    · unfold checkInterfaceOperands at he
      split_ifs at he <;> cases he <;> exact VerifyError.noConfusion
  · exact .throw VerifyError.noConfusion

theorem safe_popIntegers (n : ℕ) : Safe m k (popIntegers n) := by
  induction n with
  | zero => exact Keeps.pure trivial
  | succ n ih => exact (safe_pop rfl).bind fun _ _ => ih

/-- **Step lemma**: every member of the closure keeps the invariant and fails no
`GUARANTEE`. -/
theorem safe_exec (bci : ℕ) {op : Op} (hop : op.KindsFit) : Safe m k (exec env m bci op) := by
  have push1 : ∀ {slot : Slot}, slot.tag.isSingle = true → Safe m k (pushCategory1 m slot) :=
    safe_pushCategory1
  have push2 : ∀ {slots : Slot × Slot}, IsBlock slots → Safe m k (pushCategory2 m slots) :=
    safe_pushCategory2
  have pop1 := kept_popCategory1 (m := m) (k := k)
  have pop2 := kept_popCategory2 (m := m) (k := k)
  have popInt : Safe m k popInteger := safe_pop rfl
  have popAny := safe_popAnyRef (m := m) (k := k)
  have target : ∀ dest, Safe m k (checkBranchTarget env m dest) := safe_checkBranchTarget
  have ends := safe_setNoControlFlow (m := m) (k := k) true
  have klass := safe_klassNameAt (m := m) (k := k)
  cases op with
  | pushInt => exact push1 rfl
  | pushLong => exact safe_pushDoubleword rfl
  | pushFloat => exact push1 rfl
  | pushDouble => exact safe_pushDoubleword rfl
  | pushObj isNull => exact .ite (fun _ => push1 rfl) fun _ => push1 rfl
  | loadLocal kind index => exact safe_loadLocal hop index
  | storeLocal kind index => exact safe_storeLocal hop index
  | incrementLocalInt index => exact safe_checkLocal (.inl rfl)
  | arrayLength => exact safe_arrayLength
  | loadArray kind => exact safe_loadArray hop
  | storeArray kind => exact safe_storeArray hop
  | nop => exact .pure trivial
  | pop => exact pop1.bind fun _ _ => .pure trivial
  | pop2 => exact pop2.bind fun _ _ => .pure trivial
  | dup => exact pop1.bind fun _ h1 => (push1 h1).bind fun _ _ => push1 h1
  | dup2 => exact pop2.bind fun _ h12 => (push2 h12).bind fun _ _ => push2 h12
  | dupX1 =>
    exact pop1.bind fun _ h1 => pop1.bind fun _ h2 =>
      (push1 h1).bind fun _ _ => (push1 h2).bind fun _ _ => push1 h1
  | dup2X1 =>
    exact pop2.bind fun _ h12 => pop1.bind fun _ h3 =>
      (push2 h12).bind fun _ _ => (push1 h3).bind fun _ _ => push2 h12
  | dupX2 =>
    exact pop1.bind fun _ h1 => pop2.bind fun _ h23 =>
      (push1 h1).bind fun _ _ => (push2 h23).bind fun _ _ => push1 h1
  | dup2X2 =>
    exact pop2.bind fun _ h12 => pop2.bind fun _ h34 =>
      (push2 h12).bind fun _ _ => (push2 h34).bind fun _ _ => push2 h12
  | swap => exact pop1.bind fun _ h1 => pop1.bind fun _ h2 => (push1 h1).bind fun _ _ => push1 h2
  | neg kind => exact (safe_popType hop).bind fun _ _ => safe_pushType hop
  | binary kind isShift =>
    exact Keeps.bind (V := fun _ => True)
      (.ite (fun _ => safe_popType rfl) fun _ => safe_popType hop) fun _ _ =>
        (safe_popType hop).bind fun _ _ => safe_pushType hop
  | convert source target => exact (safe_popType hop.1).bind fun _ _ => safe_pushType hop.2
  | compare kind =>
    exact (safe_popType hop).bind fun _ _ => (safe_popType hop).bind fun _ _ => safe_pushType rfl
  | branchIf isRef dest =>
    exact Keeps.bind (V := fun _ => True) (.ite (fun _ => popAny) fun _ => popInt) fun _ _ =>
      target dest
  | branchIfIcmp dest => exact popInt.bind fun _ _ => popInt.bind fun _ _ => target dest
  | branchIfAcmp dest => exact popAny.bind fun _ _ => popAny.bind fun _ _ => target dest
  | branch dest => exact (target dest).bind fun _ _ => ends
  | returnOp kind => exact safe_returnOp kind
  | tableSwitch defaultDest dests =>
    exact popInt.bind fun _ _ => (target _).bind fun _ _ =>
      (safe_checkBranchTargets dests).bind fun _ _ => ends
  | lookupSwitch defaultDest pairs =>
    exact popInt.bind fun _ _ => (target _).bind fun _ _ =>
      (safe_checkLookupPairs none pairs).bind fun _ _ => ends
  | getField index => exact safe_handleFieldReference index false false
  | putField index => exact safe_handleFieldReference index false true
  | getStatic index => exact safe_handleFieldReference index true false
  | putStatic index => exact safe_handleFieldReference index true true
  | invokeInterface index => exact safe_handleInvoker bci index _
  | invokeSpecial index => exact safe_handleInvoker bci index _
  | invokeStatic index => exact safe_handleInvoker bci index _
  | invokeVirtual index => exact safe_handleInvoker bci index _
  | throwException => exact (safe_popObject _).bind fun _ _ => ends
  | newObject index =>
    exact (klass index).bind fun _ _ => .ite (fun _ => .throw VerifyError.noConfusion) fun _ =>
      push1 rfl
  | newBasicArray type =>
    exact popInt.bind fun _ _ => .ite (fun _ => push1 rfl) fun _ => .throw VerifyError.noConfusion
  | newObjectArray index =>
    exact (klass index).bind fun _ _ => popInt.bind fun _ _ => push1 rfl
  | newMultiArray index dims =>
    exact (klass index).bind fun _ _ => .ite (fun _ => (safe_popIntegers _).bind fun _ _ =>
      .ite (fun _ => push1 rfl) fun _ => .throw VerifyError.noConfusion)
        fun _ => .throw VerifyError.noConfusion
  | checkCast index =>
    exact (klass index).bind fun _ _ => (safe_popObject _).bind fun _ _ => push1 rfl
  | instanceOf index =>
    exact (klass index).bind fun _ _ => (safe_popObject _).bind fun _ _ => push1 rfl
  | monitorEnter => exact popAny
  | monitorExit => exact popAny
  | illegalCode => exact .throw VerifyError.noConfusion

/-! ## The iterator -/

variable {i : ℕ}

theorem localOpTypes_fit (hi : i < 5) :
    localOpTypes.getD i .void = .object ∨ (localOpTypes.getD i .void).isPrimitive = true := by
  interval_cases i <;> decide

theorem arrayOpTypes_fit (hi : i < 8) :
    arrayOpTypes.getD i .void = .object ∨ (arrayOpTypes.getD i .void).isPrimitive = true := by
  interval_cases i <;> decide

theorem kindsFit_loadLocal {index : ℕ} (hi : i < 5) :
    (Op.loadLocal (localOpTypes.getD i .void) index).KindsFit := localOpTypes_fit hi

theorem kindsFit_storeLocal {index : ℕ} (hi : i < 5) :
    (Op.storeLocal (localOpTypes.getD i .void) index).KindsFit := localOpTypes_fit hi

theorem kindsFit_loadArray (hi : i < 8) :
    (Op.loadArray (arrayOpTypes.getD i .void)).KindsFit := arrayOpTypes_fit hi

theorem kindsFit_storeArray (hi : i < 8) :
    (Op.storeArray (arrayOpTypes.getD i .void)).KindsFit := arrayOpTypes_fit hi

theorem kindsFit_neg (hi : i < 4) : (Op.neg (localOpTypes.getD i .void)).KindsFit := by
  interval_cases i <;> rfl

theorem kindsFit_binary {isShift : Bool} (hi : i < 4) :
    (Op.binary (localOpTypes.getD i .void) isShift).KindsFit := by
  interval_cases i <;> rfl

theorem kindsFit_convert (hi : i < 15) : (Op.convert (convertOpTypes.getD i (.void, .void)).1
      (convertOpTypes.getD i (.void, .void)).2).KindsFit := by
  interval_cases i <;> exact ⟨rfl, rfl⟩

theorem kindsFit_compare (hi : i < 5) : (Op.compare (compareOpTypes.getD i .void)).KindsFit := by
  interval_cases i <;> rfl

theorem kindsFit_ite {p : Prop} [Decidable p] {op op' : Op} (h : p → op.KindsFit)
    (h' : ¬ p → op'.KindsFit) : (if p then op else op').KindsFit := by
  split_ifs with hp
  · exact h hp
  · exact h' hp

theorem kindsFit_iteratePushConstant1 (m : Method) (i : ℕ) :
    (m.iteratePushConstant1 i).KindsFit := by
  unfold Method.iteratePushConstant1
  split <;> trivial

theorem kindsFit_iteratePushConstant2 (m : Method) (i : ℕ) :
    (m.iteratePushConstant2 i).KindsFit := by
  unfold Method.iteratePushConstant2
  refine kindsFit_ite (fun _ => trivial) fun _ => ?_
  split <;> trivial

theorem kindsFit_iterateWide (m : Method) (bci : ℕ) : (m.iterateWide bci).KindsFit :=
  kindsFit_ite (fun _ => trivial) fun _ => kindsFit_ite
    (fun _ => kindsFit_loadLocal (by omega)) fun _ =>
      kindsFit_ite (fun _ => kindsFit_storeLocal (by omega)) fun _ => trivial

/-- The iterator calls the members of the closure with kinds they are made
for. -/
theorem kindsFit_iterateBytecode (m : Method) (bci : ℕ) : (m.iterateBytecode bci).KindsFit := by
  have hconstant1 := kindsFit_iteratePushConstant1 m
  have hconstant2 := kindsFit_iteratePushConstant2 m
  have hwide := kindsFit_iterateWide m bci
  unfold Method.iterateBytecode
  generalize m.iteratePushConstant1 = constant1 at hconstant1 ⊢
  generalize m.iteratePushConstant2 = constant2 at hconstant2 ⊢
  generalize m.iterateWide bci = wide at hwide ⊢
  generalize m.code.getUbyte bci = code
  simp only
  repeat' refine kindsFit_ite (fun _ => ?_) fun _ => ?_
  all_goals first
    | with_reducible exact hconstant1 _
    | with_reducible exact hconstant2 _
    | with_reducible exact hwide
    | (with_reducible refine kindsFit_loadLocal ?_); omega
    | (with_reducible refine kindsFit_storeLocal ?_); omega
    | (with_reducible refine kindsFit_loadArray ?_); omega
    | (with_reducible refine kindsFit_storeArray ?_); omega
    | (with_reducible refine kindsFit_neg ?_); omega
    | (with_reducible refine kindsFit_binary ?_); omega
    | (with_reducible refine kindsFit_convert ?_); omega
    | (with_reducible refine kindsFit_compare ?_); omega
    | exact True.intro

/-! ## The first frame -/

/-- The frame while `initialize_locals` has written the locals below `n`. The
locals from `n` on hold what the last method left there. -/
structure Initializing (m : Method) (n : ℕ) (f : VerifierFrame) : Prop where
  localHeads : HeadsFollowed f.vlocals n
  le_maxLocals : n ≤ m.maxLocals
  vstackpointer_eq : f.vstackpointer = 0
  index_eq : f.currentStackmapIndex = 0
  flag : f.needInitialization = true → m.isObjectInitializer = true

/-- What `initialize_locals` keeps; it fails no `GUARANTEE`. -/
abbrev Initializes (m : Method) (n : ℕ) {α : Type} (Q : α → ℕ) (x : Vfy α) : Prop :=
  Triple (Initializing m n) (· ≠ .guarantee) (fun a => Initializing m (Q a)) x

variable {n : ℕ}

theorem initializes_setLocalRef {slot : Slot} (hs : slot.tag.isSingle = true) :
    Initializes m n (fun _ => n + 1) (setLocalRef m n slot) := by
  intro f h
  unfold setLocalRef
  split_ifs with hroom
  · exact VerifyError.noConfusion
  · show Initializing m (n + 1) _
    exact { h with
      localHeads := h.localHeads.setSingle hs n.le_succ fun j hj hne => by omega
      le_maxLocals := by omega }

theorem initializes_setLocal {kind : StackMapKind} (hs : kind.isSingle = true) :
    Initializes m n (fun _ => n + 1) (setLocal m n kind) := by
  refine .ite (fun hhead => ?_) fun _ => initializes_setLocalRef hs
  rw [StackMapKind.isSingle_iff, StackMapKind.isHead_iff.mpr hhead] at hs
  cases hs.1

theorem initializes_setLocal2 {kind : StackMapKind} (hhead : kind.isHead = true) :
    Initializes m n (fun _ => n + 2) (setLocal2 m n kind) := by
  refine Triple.intro (fun f u f' h hx => ?_) fun f e h hx => ?_
  · obtain ⟨-, hroom, rfl⟩ := setLocal2_ok_iff.mp hx
    show Initializing m (n + 2) _
    exact { h with
      localHeads := h.localHeads.setPair (⟨_, none⟩, ⟨_, none⟩) rfl (by omega) (by omega)
        fun j hj h1 h2 => by omega
      le_maxLocals := hroom }
  · unfold setLocal2 at hx
    split_ifs at hx with hkind
    · exact absurd (StackMapKind.isHead_iff.mp hhead) (not_or.mpr hkind)
    · cases hx
      exact VerifyError.noConfusion

theorem initializes_param (type : JavaType) :
    Initializes m n (fun _ => n + type.wordSize) (initializeParam m n type) := by
  cases type
  case object name => exact initializes_setLocalRef rfl
  case array name => exact initializes_setLocalRef rfl
  case long =>
    show Initializes m n (fun _ => n + 2) (setLocal2 m n .long)
    exact initializes_setLocal2 rfl
  case double =>
    show Initializes m n (fun _ => n + 2) (setLocal2 m n .double)
    exact initializes_setLocal2 rfl
  case float =>
    show Initializes m n (fun _ => n + 1) (setLocal m n .float)
    exact initializes_setLocal rfl
  all_goals
    show Initializes m n (fun _ => n + 1) (setLocal m n .integer)
    exact initializes_setLocal rfl

theorem initializes_params (params : List JavaType) :
    Initializes m n id (initializeParams m n params) := by
  induction params generalizing n with
  | nil => exact Triple.pure fun _ h => h
  | cons type params ih => exact (initializes_param type).bind fun _ => ih

theorem initializes_rest (count : ℕ) :
    Initializes m n (fun _ => n + count) (initializeRest m n count) := by
  induction count generalizing n with
  | zero => exact Triple.pure fun _ h => h
  | succ count ih =>
    rw [show n + (count + 1) = n + 1 + count by omega]
    exact (initializes_setLocal rfl).bind fun _ => ih

theorem initializes_this : Initializes m 0 id (initializeThis m) := by
  refine .ite (fun _ => .pure fun _ h => h) fun _ => .ite (fun hinit => ?_) fun _ =>
    (initializes_setLocalRef rfl).bind fun _ => .pure fun _ h => h
  have hset : Initializes m 0 (fun _ => 0) (setNeedInitialization true) :=
    fun _ h => { h with flag := fun _ => hinit.2 }
  exact hset.bind fun _ => (initializes_setLocal rfl).bind fun _ => .pure fun _ h => h

/-- `initialize_locals` leaves a consistent frame. -/
theorem initializeLocals_triple :
    Triple (fun f : VerifierFrame => f.vstackpointer = 0 ∧ f.currentStackmapIndex = 0)
      (· ≠ .guarantee) (fun _ => FrameInvariant m 0) (initializeLocals m) := by
  have hclear : Triple (fun f : VerifierFrame => f.vstackpointer = 0 ∧ f.currentStackmapIndex = 0)
      (· ≠ VerifyError.guarantee) (fun _ => Initializing m 0) (setNeedInitialization false) :=
    fun f h => {
      localHeads := fun _ hi => absurd hi (Nat.not_lt_zero _)
      le_maxLocals := Nat.zero_le _
      vstackpointer_eq := h.1
      index_eq := h.2
      flag := fun hset => by cases hset }
  refine hclear.bind fun _ => initializes_this.bind fun n => (initializes_params _).bind fun n' => ?_
  refine Triple.intro (fun f u f' h hx => ?_) fun f e h hx => (initializes_rest _).error h hx
  have hdone := (initializes_rest _).ok h hx
  have hn : n' + (m.maxLocals - n') = m.maxLocals := Nat.add_sub_cancel' h.le_maxLocals
  simp only [id_eq] at hdone
  rw [hn] at hdone
  refine {
    height := ?_
    stackHeads := ?_
    stackHalves := ?_
    localHeads := hdone.localHeads
    index_eq := hdone.index_eq
    flag := hdone.flag }
  all_goals rw [hdone.vstackpointer_eq]
  · exact Nat.zero_le _
  · exact fun _ hi => absurd hi (Nat.not_lt_zero _)
  · exact fun _ hi => absurd hi (Nat.not_lt_zero _)

/-! ## Whole runs -/

/-- The frame is consistent, whatever the number of stack maps seen. -/
def Consistent (m : Method) (f : VerifierFrame) : Prop := ∃ k, FrameInvariant m k f

/-- `x` keeps frames consistent and fails no `GUARANTEE`. -/
abbrev KeepsConsistent (m : Method) {α : Type} (x : Vfy α) : Prop :=
  Keeps (Consistent m) (· ≠ .guarantee) (fun _ => True) x

theorem keepsConsistent_of_safe {α : Type} {x : Vfy α} (h : ∀ k, Safe m k x) :
    KeepsConsistent m x :=
  Triple.intro (fun _ _ _ hf hx => ⟨trivial, hf.imp fun k hk => ((h k).ok hk hx).2⟩)
    fun _ _ hf hx => hf.elim fun k hk => (h k).error hk hx

theorem keepsConsistent_checkStackmapOrder (bci : ℕ) :
    KeepsConsistent m (checkStackmapOrder m bci) := by
  rintro f ⟨k, h⟩
  unfold checkStackmapOrder
  rcases m.stackmaps[f.currentStackmapIndex]? with _ | map
  · exact ⟨trivial, k, h⟩
  · simp only
    split_ifs
    · exact ⟨trivial, k + 1, { h with index_eq := by rw [h.index_eq] }⟩
    · exact VerifyError.noConfusion
    · exact ⟨trivial, k, h⟩

theorem keepsConsistent_bytecodeProlog (bci : ℕ) : KeepsConsistent m (bytecodeProlog env m bci) :=
  (keepsConsistent_checkStackmapOrder bci).bind fun _ _ => Triple.get_bind fun f h =>
    (keepsConsistent_of_safe fun _ => (safe_checkStackmapMatch _ _).bind fun _ _ =>
      (safe_checkExceptionHandlersForBci bci _).bind fun _ _ => safe_setNoControlFlow false) f h

/-- The operations on a frame: those of `VerifierFrame`, with the arguments its
callers can pass, and the members of the closure, the prolog and the checks
built from them. -/
inductive FrameOp
  | push (slot : Slot) (hslot : slot.tag.isSingle = true)
  | pushDoubleword (kind : StackMapKind) (hkind : kind.isHead = true)
  | pushCategory2 (slots : Slot × Slot) (hslots : IsBlock slots)
  | pop (kind : StackMapKind) (hkind : kind.isSingle = true)
  | popDoubleword (kind : StackMapKind) (hkind : kind.isHead = true)
  | popCategory1
  | popCategory2
  | popRef
  | popObject (name : Symbol)
  | setLocal (index : ℕ) (slot : Slot) (hslot : slot.tag.isSingle = true)
  | setLocal2 (index : ℕ) (kind : StackMapKind) (hkind : kind.isHead = true)
  | replaceStackType (source : StackMapKind) (hsource : source.isSingle = true) (name : Symbol)
  | popInvokeArguments (params : List JavaType)
  | checkStackmapMatch (bci : ℤ) (flags : MatchFlags)
  | enterHandler (name : Symbol)
  | checkExceptionHandler (h : Handler)
  | exec (bci : ℕ) (op : Op) (hop : op.KindsFit)
  | prolog (bci : ℕ)

/-- What an operation does; a value it returns is dropped. -/
def FrameOp.run (env : ClassEnv) (m : Method) : FrameOp → Vfy Unit
  | push slot _ => Verifier.pushCategory1 m slot
  | pushDoubleword kind _ => Verifier.pushDoubleword m kind
  | pushCategory2 slots _ => Verifier.pushCategory2 m slots
  | pop kind _ => Verifier.pop kind
  | popDoubleword kind _ => do
    Verifier.pop kind.secondHalf
    Verifier.pop kind
  | popCategory1 => do
    let _ ← Verifier.popCategory1
    pure ()
  | popCategory2 => do
    let _ ← Verifier.popCategory2
    pure ()
  | popRef => popAnyRef
  | popObject name => Verifier.popObject env name
  | setLocal index slot _ => setLocalRef m index slot
  | setLocal2 index kind _ => Verifier.setLocal2 m index kind
  | replaceStackType source _ name => replaceStackTypeWithRealType m source .object name
  | popInvokeArguments params => do
    let _ ← Verifier.popInvokeArguments env params
    pure ()
  | checkStackmapMatch bci flags => Verifier.checkStackmapMatch env m bci flags
  | enterHandler name => Verifier.enterHandler m name
  | checkExceptionHandler h => Verifier.checkExceptionHandler env m h
  | exec bci op _ => Verifier.exec env m bci op
  | prolog bci => bytecodeProlog env m bci

/-- Operations one after the other. -/
def runOps (env : ClassEnv) (m : Method) : List FrameOp → Vfy Unit
  | [] => pure ()
  | op :: ops => do
    op.run env m
    runOps env m ops

/-- A new frame, its first locals, and then any operations. -/
def frameRun (env : ClassEnv) (m : Method) (ops : List FrameOp) : Vfy Unit := do
  initializeLocals m
  runOps env m ops

/-- **Step lemma**: an operation keeps frames consistent. -/
theorem keepsConsistent_run (op : FrameOp) : KeepsConsistent m (op.run env m) := by
  cases op with
  | prolog bci => exact keepsConsistent_bytecodeProlog bci
  | push slot hslot => exact keepsConsistent_of_safe fun _ => safe_pushCategory1 hslot
  | pushDoubleword kind hkind => exact keepsConsistent_of_safe fun _ => safe_pushDoubleword hkind
  | pushCategory2 slots hslots => exact keepsConsistent_of_safe fun _ => safe_pushCategory2 hslots
  | pop kind hkind => exact keepsConsistent_of_safe fun _ => safe_pop hkind
  | popDoubleword kind hkind => exact keepsConsistent_of_safe fun _ => safe_popDoubleword hkind
  | popCategory1 =>
    exact keepsConsistent_of_safe fun _ => kept_popCategory1.bind fun _ _ => .pure trivial
  | popCategory2 =>
    exact keepsConsistent_of_safe fun _ => kept_popCategory2.bind fun _ _ => .pure trivial
  | popRef => exact keepsConsistent_of_safe fun _ => safe_popAnyRef
  | popObject name => exact keepsConsistent_of_safe fun _ => safe_popObject name
  | setLocal index slot hslot => exact keepsConsistent_of_safe fun _ => safe_setLocalRef hslot
  | setLocal2 index kind hkind => exact keepsConsistent_of_safe fun _ => safe_setLocal2 hkind
  | replaceStackType source hsource name =>
    exact keepsConsistent_of_safe fun _ => safe_replace hsource name
  | popInvokeArguments params =>
    exact keepsConsistent_of_safe fun _ =>
      (safe_popInvokeArguments params).bind fun _ _ => .pure trivial
  | checkStackmapMatch bci flags =>
    exact keepsConsistent_of_safe fun _ => safe_checkStackmapMatch bci flags
  | enterHandler name => exact keepsConsistent_of_safe fun _ => safe_enterHandler name
  | checkExceptionHandler h => exact keepsConsistent_of_safe fun _ => safe_checkExceptionHandler h
  | exec bci op hop => exact keepsConsistent_of_safe fun _ => safe_exec bci hop

/-- **Run lemma**: so do any operations in any order. -/
theorem keepsConsistent_runOps (ops : List FrameOp) : KeepsConsistent m (runOps env m ops) := by
  induction ops with
  | nil => exact Keeps.pure trivial
  | cons op ops ih => exact (keepsConsistent_run op).bind fun _ _ => ih

/-- **Main theorem.** Any operations in any order end in a consistent frame or
in an error of the verifier that is no failed `GUARANTEE`. -/
theorem runOps_twoWord (env : ClassEnv) (m : Method) (cache : FrameCache) (ops : List FrameOp) :
    match frameRun env m ops (initialFrame cache) with
    | .ok (_, f) => TwoWord m f
    | .error e => e ≠ .guarantee := by
  have hrun : Triple (fun f : VerifierFrame => f.vstackpointer = 0 ∧ f.currentStackmapIndex = 0)
      (· ≠ .guarantee) (fun _ => TwoWord m) (frameRun env m ops) :=
    initializeLocals_triple.bind fun _ => Triple.intro
      (fun f u f' hf hx =>
        ((keepsConsistent_runOps ops).ok ⟨0, hf⟩ hx).2.elim fun _ h => h.toTwoWord)
      fun f e hf hx => (keepsConsistent_runOps ops).error ⟨0, hf⟩ hx
  rcases hx : frameRun env m ops (initialFrame cache) with e | ⟨u, f⟩
  · exact hrun.error ⟨rfl, rfl⟩ hx
  · exact hrun.ok ⟨rfl, rfl⟩ hx

/-- `lconst_0; lstore_0; iconst_0; istore_0; return`. -/
def overwritingMethod : Method where
  code := [0x09, 0x3f, 0x03, 0x3b, 0xb1]
  maxStack := 2
  maxLocals := 2
  name := "f"
  isStatic := true
  params := []
  ret := none
  holder := "C"
  constants := []
  exceptionTable := []
  stackmaps := []
  codeSize_lt := by decide
  stackmaps_fit := by decide

/-- The members of the closure for the first four instructions. -/
def overwritingOps : List FrameOp :=
  [.exec 0 .pushLong trivial, .exec 1 (.storeLocal .long 0) (Or.inr rfl),
    .exec 2 .pushInt trivial, .exec 3 (.storeLocal .int 0) (Or.inr rfl)]

/-- A frame cache that holds nothing. -/
def emptyCache : FrameCache := ⟨fun _ => ⟨.bogus, none⟩, fun _ => ⟨.bogus, none⟩, ⟨.bogus, none⟩⟩

theorem overwritingOps_tags :
    (frameRun .bare overwritingMethod overwritingOps (initialFrame emptyCache)).toOption.map
      (fun r => ((r.2.vlocals 0).tag, (r.2.vlocals 1).tag)) = some (.integer, .long2) := by
  decide +kernel

/-- The second half of the `long` stays alone in local 1. -/
theorem overwritten_leaves_half :
    ∃ f, frameRun .bare overwritingMethod overwritingOps (initialFrame emptyCache) = .ok ((), f) ∧
      ¬ HalvesPreceded f.vlocals overwritingMethod.maxLocals := by
  have htags := overwritingOps_tags
  rcases hx : frameRun .bare overwritingMethod overwritingOps (initialFrame emptyCache) with
    e | ⟨u, f⟩
  · rw [hx] at htags
    cases htags
  · rw [hx] at htags
    obtain ⟨h0, h1⟩ := Prod.mk.inj (Option.some.inj htags)
    refine ⟨f, rfl, fun h => ?_⟩
    obtain ⟨j, hj, hhead, -⟩ := h 1 (by decide) (by rw [h1]; rfl)
    obtain rfl : j = 0 := by omega
    rw [h0] at hhead
    cases hhead

end CldcVm.Verifier
