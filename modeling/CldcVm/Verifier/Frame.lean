import CldcVm.Lib.Comp
import CldcVm.Verifier.Iterate

/-!
# The verifier frame

`VerifierFrame` (`verifier/VerifierFrame.{hpp,cpp}`): the tag and class arrays
of the operand stack and the locals, the stack pointer, the flag that `this`
still needs its initializer, and the stack slot `save_stack_state` keeps. The
arrays keep what popped values left behind; nothing clears them.

A failed `GUARANTEE` is an error of its own here (`VerifyError.guarantee`), so
that a theorem can say that none ever fails.
-/

namespace CldcVm.Verifier

open Lib

/-- The errors of the verifier. The product build reports all of them as
`verification_error`. -/
inductive VerifyError
  | stackOverflow | stackUnderflow | stackBadType
  | localsOverflow | localsBadType
  | argsNotEnough | seqBadType | targetBadType
  | badInstr | badStackmap | fallThrough | finalMethodOverride
  | corruptedExceptionHandler | cpIndexOutOfBounds
  | expectClass | expectThrowable | expectArray | aastoreBadType
  | returnUninitThis | retvalBadType | badLookupswitch
  | expectFieldref | expectMethodref | expectInvokespecial
  | expectNew | badInitCall | expectUninit | invokespecial
  | nargsMismatch | expectZero | multianewarray
  /-- An exception of the class hierarchy, thrown on. -/
  | pendingException
  /-- A null symbol is looked into. -/
  | nullSymbol
  /-- A `GUARANTEE` fails, or a `SHOULD_NOT_REACH_HERE` is reached. -/
  | guarantee
deriving DecidableEq, Repr

/-- The members of `VerifierFrame`, and of `VerifyMethodCodes` the flag
`_no_control_flow` and the index `_current_stackmap_index` (counted in
maps). -/
structure VerifierFrame where
  vstackpointer : ℕ
  vstack : ℕ → Slot
  vlocals : ℕ → Slot
  needInitialization : Bool
  savedStackPointer : ℕ
  saved0 : Slot
  noControlFlow : Bool
  currentStackmapIndex : ℕ

/-- A member function of the verifier. -/
abbrev Vfy (α : Type) := Comp VerifierFrame VerifyError α

variable (env : ClassEnv) (m : Method)

/-! ## Subtyping -/

/-- `compute_is_subtype_of` (lines 606–629). -/
def computeIsSubtypeOf (source : Option Symbol) (target : Symbol) : Except VerifyError Bool :=
  match source with
  | none => .error .nullSymbol
  | some source =>
    .ok (source == target || target == javaLangObject || env.isSubtype source target)

/-- `is_assignable_to` (lines 585–604) from a slot of the frame to one of a stack
map. -/
def isAssignableTo (source target : Slot) : Except VerifyError Bool :=
  if source.tag = target.tag then
    if source.tag = .object then
      match target.klass with
      | none => .error .nullSymbol
      | some klass => computeIsSubtypeOf env source.klass klass
    else .ok true
  else .ok (target.tag == .bogus || (target.tag == .object && source.tag == .null))

/-! ## The operand stack -/

/-- `push_category1` (lines 71–94). -/
def pushCategory1 (slot : Slot) : Vfy Unit := fun f =>
  if f.vstackpointer < m.maxStack then
    .ok ((), { f with
      vstack := Function.update f.vstack f.vstackpointer slot
      vstackpointer := f.vstackpointer + 1 })
  else .error .stackOverflow

/-- `push(kind)`: the class is cleared. -/
def push (kind : StackMapKind) : Vfy Unit := pushCategory1 m ⟨kind, none⟩

/-- `push_object(name)`. -/
def pushObject (name : Symbol) : Vfy Unit := pushCategory1 m ⟨.object, some name⟩

/-- `pop_category1` (lines 96–111). -/
def popCategory1 : Vfy Slot := fun f =>
  if 0 < f.vstackpointer then
    let slot := f.vstack (f.vstackpointer - 1)
    if slot.tag = .double2 ∨ slot.tag = .long2 then .error .stackBadType
    else .ok (slot, { f with vstackpointer := f.vstackpointer - 1 })
  else .error .stackUnderflow

/-- `push_category2` (lines 113–125). -/
def pushCategory2 (slots : Slot × Slot) : Vfy Unit := fun f =>
  if f.vstackpointer + 1 < m.maxStack then
    .ok ((), { f with
      vstack := Function.update (Function.update f.vstack f.vstackpointer slots.1)
        (f.vstackpointer + 1) slots.2
      vstackpointer := f.vstackpointer + 2 })
  else .error .stackOverflow

/-- `pop_category2` (lines 127–142). -/
def popCategory2 : Vfy (Slot × Slot) := fun f =>
  if f.vstackpointer ≤ 1 then .error .stackUnderflow
  else
    let slot1 := f.vstack (f.vstackpointer - 2)
    let slot2 := f.vstack (f.vstackpointer - 1)
    if slot1.tag = .double2 ∨ slot1.tag = .long2 then .error .stackBadType
    else .ok ((slot1, slot2), { f with vstackpointer := f.vstackpointer - 2 })

/-- The kinds `pop_ref` lets pass. -/
def StackMapKind.isReference (kind : StackMapKind) : Bool :=
  kind == .object || kind == .null || kind == .initObject || kind.isNewObject

/-- `pop_ref` (lines 144–152). -/
def popRef : Vfy Slot := do
  let slot ← popCategory1
  if slot.tag.isReference then pure slot else throw .stackBadType

/-- The `switch (kind)` of `pop_object`. -/
def checkObjectSlot (slot : Slot) (name : Symbol) : Except VerifyError Unit :=
  match slot.tag with
  | .object =>
    match computeIsSubtypeOf env slot.klass name with
    | .ok true => .ok ()
    | .ok false => .error .stackBadType
    | .error e => .error e
  | .null => .ok ()
  | _ => .error .stackBadType

/-- `pop_object(name)` (lines 161–180). -/
def popObject (name : Symbol) : Vfy Unit := do
  let slot ← popCategory1
  Comp.ofExcept (checkObjectSlot env slot name)

/-- `pop(kind)` (lines 182–194). -/
def pop (kind : StackMapKind) : Vfy Unit := fun f =>
  if 0 < f.vstackpointer then
    if kind ≠ (f.vstack (f.vstackpointer - 1)).tag then .error .stackBadType
    else .ok ((), { f with vstackpointer := f.vstackpointer - 1 })
  else .error .stackUnderflow

/-! ## The locals -/

/-- `bogify_surrounding_doublewords` (lines 231–242). The class of the slot
stays. -/
def bogifySurroundingDoublewords (vlocals : ℕ → Slot) (index : ℕ) : ℕ → Slot :=
  if 1 ≤ index ∧ ((vlocals (index - 1)).tag = .double ∨ (vlocals (index - 1)).tag = .long) then
    Function.update vlocals (index - 1) { vlocals (index - 1) with tag := .bogus }
  else vlocals

/-- `set_local_ref` (lines 221–229). -/
def setLocalRef (index : ℕ) (slot : Slot) : Vfy Unit := fun f =>
  if index ≥ m.maxLocals then .error .localsOverflow
  else
    .ok ((), { f with
      vlocals := bogifySurroundingDoublewords (Function.update f.vlocals index slot) index })

/-- `set_local` (lines 196–205): the class is cleared. -/
def setLocal (index : ℕ) (kind : StackMapKind) : Vfy Unit :=
  if kind = .double ∨ kind = .long then throw .guarantee else setLocalRef m index ⟨kind, none⟩

/-- The tag of the second word of a `Long` or `Double`. -/
def StackMapKind.secondHalf : StackMapKind → StackMapKind
  | .long => .long2
  | _ => .double2

/-- `set_local2` (lines 207–219). -/
def setLocal2 (index : ℕ) (kind : StackMapKind) : Vfy Unit := fun f =>
  if kind ≠ .double ∧ kind ≠ .long then .error .guarantee
  else if index + 1 ≥ m.maxLocals then .error .localsOverflow
  else
    .ok ((), { f with
      vlocals := bogifySurroundingDoublewords
        (Function.update (Function.update f.vlocals index ⟨kind, none⟩)
          (index + 1) ⟨kind.secondHalf, none⟩) index })

/-- `check_local` (lines 244–252). -/
def checkLocal (index : ℕ) (kind : StackMapKind) : Vfy Unit := fun f =>
  if kind ≠ .integer ∧ kind ≠ .float then .error .guarantee
  else if index ≥ m.maxLocals then .error .localsOverflow
  else if (f.vlocals index).tag ≠ kind then .error .localsBadType
  else .ok ((), f)

/-- `check_local2` (lines 254–267). -/
def checkLocal2 (index : ℕ) (kind : StackMapKind) : Vfy Unit := fun f =>
  if kind ≠ .double ∧ kind ≠ .long then .error .guarantee
  else if index + 1 ≥ m.maxLocals then .error .localsOverflow
  else if (f.vlocals index).tag ≠ kind then .error .localsBadType
  else if (f.vlocals (index + 1)).tag ≠ kind.secondHalf then .error .guarantee
  else .ok ((), f)

/-- `check_local_ref` (lines 269–284): only an `Object` keeps its class. -/
def checkLocalRef (index : ℕ) : Vfy Slot := fun f =>
  if index ≥ m.maxLocals then .error .localsOverflow
  else
    let slot := f.vlocals index
    if slot.tag = .object then .ok (slot, f)
    else if slot.tag.isReference then .ok (⟨slot.tag, none⟩, f)
    else .error .localsBadType

/-- `replace_stack_type_with_real_type` (lines 286–302). -/
def replaceStackTypeWithRealType (source target : StackMapKind) (name : Symbol) : Vfy Unit :=
  fun f =>
    .ok ((), { f with
      vstack := fun i =>
        if i < m.maxStack ∧ (f.vstack i).tag = source then ⟨target, some name⟩ else f.vstack i
      vlocals := fun i =>
        if i < m.maxLocals ∧ (f.vlocals i).tag = source then ⟨target, some name⟩
        else f.vlocals i })

/-! ## Arguments -/

/-- One iteration of the loop of `pop_invoke_arguments` (lines 341–396) on the
slots from `n` on. -/
def checkArgument (vstack : ℕ → Slot) (n : ℕ) : JavaType → Except VerifyError Unit
  | .boolean | .char | .byte | .short | .int =>
    if (vstack n).tag ≠ .integer then .error .stackBadType else .ok ()
  | .float => if (vstack n).tag ≠ .float then .error .stackBadType else .ok ()
  | .long =>
    if (vstack n).tag ≠ .long then .error .stackBadType
    else if (vstack (n + 1)).tag ≠ .long2 then .error .guarantee
    else .ok ()
  | .double =>
    if (vstack n).tag ≠ .double then .error .stackBadType
    else if (vstack (n + 1)).tag ≠ .double2 then .error .guarantee
    else .ok ()
  | .object expectedName | .array expectedName =>
    if (vstack n).tag = .null then .ok ()
    else if (vstack n).tag = .object then
      match computeIsSubtypeOf env (vstack n).klass expectedName with
      | .ok true => .ok ()
      | .ok false => .error .stackBadType
      | .error e => .error e
    else .error .stackBadType

/-- The loop of `pop_invoke_arguments`. -/
def checkArguments (vstack : ℕ → Slot) : (n : ℕ) → List JavaType → Except VerifyError Unit
  | _, [] => .ok ()
  | n, type :: params =>
    match checkArgument env vstack n type with
    | .error e => .error e
    | .ok () => checkArguments vstack (n + type.wordSize) params

/-- `pop_invoke_arguments` (lines 326–398): the number of words popped. -/
def popInvokeArguments (params : List JavaType) : Vfy ℕ := fun f =>
  let paramSize := parameterWordSize params
  if f.vstackpointer < paramSize then .error .argsNotEnough
  else
    match checkArguments env f.vstack (f.vstackpointer - paramSize) params with
    | .error e => .error e
    | .ok () => .ok (paramSize, { f with vstackpointer := f.vstackpointer - paramSize })

/-! ## Stack maps -/

/-- `save_stack_state` (lines 440–445). -/
def saveStackState : Vfy Unit := fun f =>
  .ok ((), { f with
    savedStackPointer := f.vstackpointer, saved0 := f.vstack 0, vstackpointer := 0 })

/-- `restore_stack_state` (lines 447–451). -/
def restoreStackState : Vfy Unit := fun f =>
  .ok ((), { f with
    vstackpointer := f.savedStackPointer, vstack := Function.update f.vstack 0 f.saved0 })

/-- `SM_CHECK`, `SM_MERGE` and `SM_EXIST`. -/
structure MatchFlags where
  check : Bool
  merge : Bool
  exist : Bool
deriving DecidableEq, Repr

/-- The loop over the locals of a stack map, and the same loop over its stack
(lines 500–522, 538–559): `klass` is `slocal_class`, which keeps the class
of the last `Object`, and `needs` is `target_needs_initialization`. -/
def matchSlots (flags : MatchFlags) : (slots : List Slot) → (i : ℕ) → (klass : Option Symbol) →
    (needs : Bool) → (frame : ℕ → Slot) → Except VerifyError ((ℕ → Slot) × Bool)
  | [], _, _, needs, frame => .ok (frame, needs)
  | slot :: slots, i, klass, needs, frame =>
    let klass := if slot.tag = .object then slot.klass else klass
    let needs := needs || slot.tag == .initObject
    match if flags.check then isAssignableTo env (frame i) ⟨slot.tag, klass⟩ else .ok true with
    | .error e => .error e
    | .ok false => .error .seqBadType
    | .ok true =>
      matchSlots flags slots (i + 1) klass needs
        (if flags.merge then Function.update frame i ⟨slot.tag, klass⟩ else frame)

/-- The loop of lines 523–528: locals beyond the map are not usable. -/
def bogifyRest (nlocals : ℕ) (vlocals : ℕ → Slot) : ℕ → Slot := fun i =>
  if nlocals ≤ i ∧ i < m.maxLocals then ⟨.bogus, none⟩ else vlocals i

/-- `check_stackmap_match` once the map is found (lines 489–572). -/
def matchStackmap (map : StackMap) (flags : MatchFlags) : Vfy Unit := fun f =>
  match matchSlots env flags map.localSlots 0 none false f.vlocals with
  | .error e => .error e
  | .ok (vlocals, needs) =>
    let vlocals := if flags.merge then bogifyRest m map.localSlots.length vlocals else vlocals
    if flags.check ∧ map.stackSlots.length ≠ f.vstackpointer then .error .seqBadType
    else
      let vstackpointer := if flags.merge then map.stackSlots.length else f.vstackpointer
      match matchSlots env flags map.stackSlots 0 none needs f.vstack with
      | .error e => .error e
      | .ok (vstack, needs) =>
        if m.isObjectInitializer ∧ f.needInitialization ∧ needs = false then .error .seqBadType
        else
          .ok ((), { f with
            vlocals := vlocals, vstack := vstack, vstackpointer := vstackpointer
            needInitialization :=
              if m.isObjectInitializer ∧ flags.merge then needs else f.needInitialization })

/-- `check_stackmap_match` (lines 453–581). -/
def checkStackmapMatch (targetBci : ℤ) (flags : MatchFlags) : Vfy Unit :=
  match m.stackmapAt targetBci with
  | none => if flags.exist then throw .targetBadType else pure ()
  | some map => matchStackmap env m map flags

/-- `check_current_target` (`VerifierFrame.hpp`, lines 108–113). -/
def checkCurrentTarget (bci : ℕ) (noControlFlow : Bool) : Vfy Unit :=
  checkStackmapMatch env m bci ⟨!noControlFlow, true, noControlFlow⟩

/-- `check_branch_target` and `check_handler_target`. -/
def checkBranchTarget (targetBci : ℤ) : Vfy Unit :=
  checkStackmapMatch env m targetBci ⟨true, false, true⟩

end CldcVm.Verifier
