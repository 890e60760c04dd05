import CldcVm.Dispatch.VirtualDispatch

/-!
# Tracking overridden methods

The compiler calls a virtual method directly, or inlines it, where no loaded class overrides it.
Models of `InstanceClass::update_vtable_bitmaps` (`handles/InstanceClass.cpp`, lines 1051–1113), the
bits it sets (`handles/InstanceClass.hpp`, lines 258–296), the table of direct callers
(`handles/Method.cpp`, lines 610–785) and the part of `fast_invoke_virtual` that enters a caller
(`compiler/BytecodeCompileClosure.cpp`, lines 1931–1950).

The vtables are those that `load` builds. A class is the list of its class file and those of its
superclasses; the superclass of an interface is the root class, but it is not a subclass.
-/

namespace CldcVm.Dispatch

/-! ## The bitmap of a class -/

/-- The bytes of the bitmap. -/
abbrev VtableBitmap := ℕ → BitVec 8

/-- `vtable_bitmap_bit`: the byte is extended to an `int` before the test. -/
def vtableBitmapBit (bitmap : VtableBitmap) (vtableIndex : ℕ) : Bool :=
  (bitmap (vtableIndex / 8)).signExtend 32 &&& 1#32 <<< (vtableIndex % 8) != 0

/-- `set_vtable_bitmap_bit`. -/
def setVtableBitmapBit (bitmap : VtableBitmap) (vtableIndex : ℕ) : VtableBitmap :=
  Function.update bitmap (vtableIndex / 8)
    (((bitmap (vtableIndex / 8)).signExtend 32 ||| 1#32 <<< (vtableIndex % 8)).setWidth 8)

theorem signExtend_and_shiftLeft (x : BitVec 8) {k : ℕ} (hk : k < 8) :
    (x.signExtend 32 &&& 1#32 <<< k != 0) = x.getLsbD k := by
  have hbit : (x.signExtend 32).getLsbD k = x.getLsbD k := by
    rw [BitVec.getLsbD_signExtend, if_pos hk, decide_eq_true (by omega), Bool.true_and]
  rw [← BitVec.twoPow_eq, BitVec.and_twoPow, hbit]
  cases x.getLsbD k with
  | false => rfl
  | true =>
    have hne : BitVec.twoPow 32 k ≠ 0 := by
      intro heq
      have := congrArg (fun y => y.getLsbD k) heq
      simp only [BitVec.getLsbD_twoPow, BitVec.ofNat_eq_ofNat, BitVec.getLsbD_zero,
        decide_true, Bool.and_true, decide_eq_false_iff_not] at this
      omega
    exact bne_iff_ne.mpr hne

/-- **Spec lemma** for the bitmap: one bit is set, the other ones are kept. -/
theorem vtableBitmapBit_set (bitmap : VtableBitmap) (i j : ℕ) :
    vtableBitmapBit (setVtableBitmapBit bitmap i) j =
      (decide (j = i) || vtableBitmapBit bitmap j) := by
  have hi : i % 8 < 8 := Nat.mod_lt _ (by omega)
  have hj : j % 8 < 8 := Nat.mod_lt _ (by omega)
  unfold vtableBitmapBit setVtableBitmapBit
  rw [signExtend_and_shiftLeft _ hj, signExtend_and_shiftLeft _ hj]
  by_cases hbyte : j / 8 = i / 8
  · rw [hbyte, Function.update_self, BitVec.getLsbD_setWidth, BitVec.getLsbD_or,
      BitVec.getLsbD_signExtend, if_pos hj, ← BitVec.twoPow_eq, BitVec.getLsbD_twoPow]
    have heq : (i % 8 = j % 8) ↔ j = i := by omega
    simp only [hj, decide_true, Bool.true_and, show j % 8 < 32 by omega, show i % 8 < 32 by omega,
      heq, Bool.or_comm]
  · rw [Function.update_of_ne hbyte, decide_eq_false (by rintro rfl; exact hbyte rfl),
      Bool.false_or]

/-! ## States -/

/-- An entry of the class list. -/
structure ListedClass where
  klass : InstanceClass
  isInterface : Bool
deriving DecidableEq

/-- A compiled method, with the callees that are called directly or inlined, and the slots they have
been called by. -/
structure CompiledMethod where
  id : ℕ
  inlined : List (HeldMethod × ℕ)
deriving DecidableEq

/-- A Java frame: the method, and which compiled method it runs, if it is not interpreted. -/
structure JavaFrame where
  method : HeldMethod
  compiledMethod : Option ℕ
deriving DecidableEq

/-- A record of `direct_callers`: the callee and its callers. -/
abbrev Record := HeldMethod × List HeldMethod

structure State where
  loaded : List ListedClass
  bitmaps : InstanceClass → VtableBitmap
  directCallers : List Record
  compiledCode : HeldMethod → Option CompiledMethod
  compiling : Option (HeldMethod × List (HeldMethod × ℕ))
  frames : List JavaFrame
  compilations : ℕ

/-- `vtable_method_at`; none is null. -/
def vtableMethodAt (useReflection : Bool) (c : InstanceClass) (index : ℕ) : Option HeldMethod :=
  ((vtableOf useReflection c).bind fun vtable => vtable[index]?).join

def vtableLength (useReflection : Bool) (c : InstanceClass) : ℕ :=
  ((vtableOf useReflection c).map List.length).getD 0

namespace State

/-- `is_method_overridden`. -/
def isMethodOverridden (st : State) (holder : InstanceClass) (vtableIndex : ℕ) : Bool :=
  vtableBitmapBit (st.bitmaps holder) vtableIndex

/-- `set_is_method_overridden`. -/
def setIsMethodOverridden (st : State) (holder : InstanceClass) (vtableIndex : ℕ) : State :=
  { st with
    bitmaps := Function.update st.bitmaps holder
      (setVtableBitmapBit (st.bitmaps holder) vtableIndex) }

end State

/-! ## Direct callers -/

/-- `find_callee_record`. -/
def findCalleeRecord (callee : HeldMethod) (table : List Record) : Option (List HeldMethod) :=
  (table.find? fun record => record.1 = callee).map Prod.snd

/-- `record().set_next(&head)`. -/
def setNext (callee : HeldMethod) (head : List HeldMethod) : List Record → List Record
  | [] => []
  | record :: table =>
    if record.1 = callee then (callee, head) :: table else record :: setNext callee head table

/-- `add_direct_caller`, with room for `memory` cells; no result where an allocation fails. -/
def addDirectCaller (callee caller : HeldMethod) (memory : ℕ) (table : List Record) :
    Option (List Record) :=
  match findCalleeRecord callee table with
  | some head =>
    if caller ∈ head then some table
    else if memory < 1 then none
    else some (setNext callee (caller :: head) table)
  | none => if memory < 3 then none else some ((callee, [caller]) :: table)

namespace State

/-- `DirectCallerStream`. -/
def directCallersOf (st : State) (callee : HeldMethod) : List HeldMethod :=
  (findCalleeRecord callee st.directCallers).getD []

/-- The frame runs the compiled method of one of the callers. -/
def runsDirectCaller (st : State) (callers : List HeldMethod) (frame : JavaFrame) : Bool :=
  callers.any fun caller =>
    match st.compiledCode caller with
    | none => false
    | some compiled => frame.compiledMethod = some compiled.id

/-- The first loop of `unlink_direct_callers`, which deoptimizes frames. -/
def deoptimizeFrames (st : State) (callers : List HeldMethod) : State :=
  { st with
    frames := st.frames.map fun frame =>
      if st.runsDirectCaller callers frame then { frame with compiledMethod := none } else frame }

/-- The body of the second loop, where `currentCompiling` is the root method of the suspended
compilation. -/
def unlinkCaller (currentCompiling : Option HeldMethod) (st : State) (caller : HeldMethod) :
    State :=
  if (st.compiledCode caller).isSome then
    { st with compiledCode := Function.update st.compiledCode caller none }
  else if currentCompiling = some caller then { st with compiling := none }
  else st

/-- `unlink_direct_callers`. -/
def unlinkDirectCallers (st : State) (callee : HeldMethod) : State :=
  let callers := st.directCallersOf callee
  if callers = [] then st
  else
    let unlinked := callers.foldl (unlinkCaller (st.compiling.map Prod.fst))
      (st.deoptimizeFrames callers)
    { unlinked with
      directCallers := unlinked.directCallers.eraseP fun record => record.1 = callee }

end State

/-! ## Loading -/

/-- The body of the loop of `update_vtable_bitmaps`. -/
def updateVtableBitmap (useReflection : Bool) (this super : InstanceClass) (st : State) (i : ℕ) :
    State :=
  match vtableMethodAt useReflection super i, vtableMethodAt useReflection this i with
  | some superMethod, some thisMethod =>
    if superMethod = thisMethod then st
    else if thisMethod.holder ≠ this then st
    else if st.isMethodOverridden superMethod.holder i then st
    else (st.unlinkDirectCallers superMethod).setIsMethodOverridden superMethod.holder i
  | _, _ => st

/-- `update_vtable_bitmaps`. -/
def updateVtableBitmaps (useReflection : Bool) (c : ListedClass) (st : State) : State :=
  if c.isInterface then st
  else
    match c.klass.tail with
    | [] => st
    | super => (List.range (vtableLength useReflection super)).foldl
        (updateVtableBitmap useReflection c.klass super) st

/-- A class can be loaded once, after its superclass, which is not an interface. -/
def CanLoad (st : State) (file : ClassFile) (supers : InstanceClass) : Prop :=
  (supers = [] ∨ ⟨supers, false⟩ ∈ st.loaded) ∧ ∀ c ∈ st.loaded, c.klass ≠ file :: supers

instance (st : State) (file : ClassFile) (supers : InstanceClass) :
    Decidable (CanLoad st file supers) :=
  inferInstanceAs (Decidable ((_ ∨ _) ∧ _))

/-- The loading of a class, whose bitmap is cleared, and the update after it. -/
def loadAndUpdate (useReflection : Bool) (file : ClassFile) (supers : InstanceClass)
    (isInterface : Bool) (st : State) : State :=
  let c : ListedClass := ⟨file :: supers, isInterface⟩
  updateVtableBitmaps useReflection c
    { st with
      loaded := st.loaded ++ [c]
      bitmaps := Function.update st.bitmaps c.klass fun _ => 0 }

/-! ## Compilation -/

/-- `fast_invoke_virtual` in a compilation: a callee that is not overridden is called directly, and
the root method is one of its callers. -/
def fastInvokeVirtual (useReflection : Bool) (klass : InstanceClass) (vtableIndex memory : ℕ)
    (st : State) : State :=
  match st.compiling, vtableMethodAt useReflection klass vtableIndex with
  | some (root, inlined), some callee =>
    if st.isMethodOverridden callee.holder vtableIndex then st
    else
      match addDirectCaller callee root memory st.directCallers with
      | none => { st with compiling := none }
      | some table =>
        { st with
          directCallers := table
          compiling := some (root, (callee, vtableIndex) :: inlined) }
  | _, _ => st

/-- The end of a compilation that succeeds. -/
def installCompiledCode (st : State) : State :=
  match st.compiling with
  | none => st
  | some (root, inlined) =>
    { st with
      compiledCode := Function.update st.compiledCode root (some ⟨st.compilations, inlined⟩)
      compiling := none
      compilations := st.compilations + 1 }

/-! ## Runs -/

/-- What happens in a task: classes are loaded; compilations begin, go on, are suspended in between,
end, or are given up; methods are entered and left. -/
inductive Event
  | load (file : ClassFile) (supers : InstanceClass) (isInterface : Bool)
  | compile (method : HeldMethod)
  | invokeVirtual (klass : InstanceClass) (vtableIndex memory : ℕ)
  | install
  | giveUp
  | enter (method : HeldMethod)
  | leave
deriving DecidableEq

/-- One event. What cannot happen in the state does nothing. -/
def step (useReflection : Bool) (st : State) : Event → State
  | .load file supers isInterface =>
    if CanLoad st file supers then loadAndUpdate useReflection file supers isInterface st else st
  | .compile method =>
    if (st.compiledCode method).isNone then { st with compiling := some (method, []) } else st
  | .invokeVirtual klass vtableIndex memory =>
    if ⟨klass, false⟩ ∈ st.loaded then fastInvokeVirtual useReflection klass vtableIndex memory st
    else st
  | .install => installCompiledCode st
  | .giveUp => { st with compiling := none }
  | .enter method =>
    { st with frames := ⟨method, (st.compiledCode method).map CompiledMethod.id⟩ :: st.frames }
  | .leave => { st with frames := st.frames.tail }

def State.init : State where
  loaded := []
  bitmaps := fun _ _ => 0
  directCallers := []
  compiledCode := fun _ => none
  compiling := none
  frames := []
  compilations := 0

def runEvents (useReflection : Bool) (events : List Event) : State :=
  events.foldl (step useReflection) .init

end CldcVm.Dispatch
