import CldcVm.Verifier.Frame

/-!
# The verifier

`VerifyMethodCodes` (`verifier/VerifyMethodCodes.{hpp,cpp}`): the members of the
closure that the bytecode iterator calls, the checks before the iteration, and
`verify`, the linear pass over the code.
-/

namespace CldcVm.Verifier

open Lib

variable (env : ClassEnv) (m : Method)

/-! ## Helpers (lines 1243–1438) -/

/-- `set_no_control_flow(value)`. -/
def setNoControlFlow (value : Bool) : Vfy Unit := modify fun f => { f with noControlFlow := value }

/-- `set_need_initialization(value)`. -/
def setNeedInitialization (value : Bool) : Vfy Unit :=
  modify fun f => { f with needInitialization := value }

def pushInteger : Vfy Unit := push m .integer

/-- `push_long` and `push_double`, two pushes. -/
def pushDoubleword (kind : StackMapKind) : Vfy Unit := do
  push m kind
  push m kind.secondHalf

/-- `push(type)`. `SHOULD_NOT_REACH_HERE` is a failed `GUARANTEE`. -/
def pushType : BasicType → Vfy Unit
  | .int | .boolean | .byte | .char | .short => pushInteger m
  | .long => pushDoubleword m .long
  | .float => push m .float
  | .double => pushDoubleword m .double
  | .void => pure ()
  | .object | .array => throw .guarantee

def popInteger : Vfy Unit := pop .integer

/-- `pop(type)`. -/
def popType : BasicType → Vfy Unit
  | .int | .boolean | .byte | .char | .short => popInteger
  | .float => pop .float
  | .long => do
    pop .long2
    pop .long
  | .double => do
    pop .double2
    pop .double
  | .void => pure ()
  | .object | .array => throw .guarantee

/-- `is_array_name(&name)`. -/
def isArrayName (name : Option Symbol) : Except VerifyError Bool :=
  match name with
  | none => .error .nullSymbol
  | some name => .ok (env.isArrayName name)

/-- The `switch (type)` of `pop_array_of`: `baload` and `bastore` serve both
byte arrays and boolean arrays. -/
def elementFits (type elementType : BasicType) : Bool :=
  if type = .boolean ∨ type = .byte then elementType == .boolean || elementType == .byte
  else type == elementType

/-- The array check of `pop_array_of`. -/
def checkArrayOf (type : BasicType) (slot : Slot) : Except VerifyError Unit :=
  match slot.tag with
  | .null => .ok ()
  | .object =>
    match slot.klass with
    | none => .error .nullSymbol
    | some name =>
      match env.typeArrayElement name with
      | none => .error .stackBadType
      | some elementType => if elementFits type elementType then .ok () else .error .stackBadType
  | _ => .error .stackBadType

/-- `pop_array_of(type)` (lines 1311–1343). -/
def popArrayOf (type : BasicType) : Vfy Unit := do
  let slot ← popRef
  Comp.ofExcept (checkArrayOf env type slot)

/-- `check_local(index, type)` (lines 1345–1357). -/
def checkLocalType (index : ℕ) : BasicType → Vfy Unit
  | .int | .boolean | .byte | .char | .short => checkLocal m index .integer
  | .float => checkLocal m index .float
  | .long => checkLocal2 m index .long
  | .double => checkLocal2 m index .double
  | _ => throw .guarantee

/-- `set_local(index, type)` (lines 1359–1371). -/
def setLocalType (index : ℕ) : BasicType → Vfy Unit
  | .int | .boolean | .byte | .char | .short => setLocal m index .integer
  | .float => setLocal m index .float
  | .long => setLocal2 m index .long
  | .double => setLocal2 m index .double
  | _ => throw .guarantee

/-- The push of a value of a declared type, as in `get_field` and
`push_invoke_result`. -/
def pushJavaType : JavaType → Vfy Unit
  | .object name | .array name => pushObject m name
  | type => pushType m type.basicType

/-- The pop of a value of a declared type, as in `put_field`. -/
def popJavaType : JavaType → Vfy Unit
  | .object name | .array name => popObject env name
  | type => popType type.basicType

/-- `push_invoke_result` (lines 1409–1421). -/
def pushInvokeResult : Option JavaType → Vfy Unit
  | some type => pushJavaType m type
  | none => pure ()

/-! ## The members of the closure -/

/-- `load_local` (lines 412–423). -/
def loadLocal (kind : BasicType) (index : ℕ) : Vfy Unit :=
  if kind = .object then do
    let slot ← checkLocalRef m index
    pushCategory1 m slot
  else do
    checkLocalType m index kind
    pushType m kind

/-- `store_local` (lines 425–436). -/
def storeLocal (kind : BasicType) (index : ℕ) : Vfy Unit :=
  if kind = .object then do
    let slot ← popRef
    setLocalRef m index slot
  else do
    popType kind
    setLocalType m index kind

/-- The check of `array_length`. -/
def checkArray (slot : Slot) : Except VerifyError Unit :=
  match slot.tag with
  | .null => .ok ()
  | .object =>
    match isArrayName env slot.klass with
    | .ok true => .ok ()
    | .ok false => .error .expectArray
    | .error e => .error e
  | _ => .error .expectArray

/-- `array_length` (lines 443–455). -/
def arrayLength : Vfy Unit := do
  let slot ← popRef
  Comp.ofExcept (checkArray env slot)
  pushInteger m

/-- `reference_array_element_name(&name)`, where it is not null. -/
def elementName (name : Option Symbol) : Except VerifyError Symbol :=
  match name with
  | none => .error .nullSymbol
  | some name =>
    match env.referenceArrayElementName name with
    | some elementName => .ok elementName
    | none => .error .stackBadType

/-- What `aaload` pushes. The class of the slot is looked at whatever its tag
is. -/
def elementSlot (slot : Slot) : Except VerifyError Slot :=
  if slot.tag = .null then .ok ⟨.null, none⟩
  else
    match elementName env slot.klass with
    | .ok name => .ok ⟨.object, some name⟩
    | .error e => .error e

/-- `load_array` (lines 457–479). -/
def loadArray (kind : BasicType) : Vfy Unit := do
  popInteger
  if kind = .object then do
    let slot ← popRef
    let element ← Comp.ofExcept (elementSlot env slot)
    pushCategory1 m element
  else do
    popArrayOf env kind
    pushType m kind

/-- The check of `aastore`. -/
def checkArrayStore (element array : Slot) : Except VerifyError Unit :=
  if (element.tag ≠ .null ∧ element.tag ≠ .object) ∨ (array.tag ≠ .null ∧ array.tag ≠ .object) then
    .error .aastoreBadType
  else if array.tag ≠ .null then
    match elementName env array.klass with
    | .ok _ => .ok ()
    | .error .nullSymbol => .error .nullSymbol
    | .error _ => .error .aastoreBadType
  else .ok ()

/-- `store_array` (lines 481–517). -/
def storeArray (kind : BasicType) : Vfy Unit :=
  if kind = .object then do
    let element ← popRef
    popInteger
    let array ← popRef
    Comp.ofExcept (checkArrayStore env element array)
  else do
    popType kind
    popInteger
    popArrayOf env kind

def dup : Vfy Unit := do
  let slot1 ← popCategory1
  pushCategory1 m slot1
  pushCategory1 m slot1

def dup2 : Vfy Unit := do
  let slots12 ← popCategory2
  pushCategory2 m slots12
  pushCategory2 m slots12

def dupX1 : Vfy Unit := do
  let slot1 ← popCategory1
  let slot2 ← popCategory1
  pushCategory1 m slot1
  pushCategory1 m slot2
  pushCategory1 m slot1

def dup2X1 : Vfy Unit := do
  let slots12 ← popCategory2
  let slot3 ← popCategory1
  pushCategory2 m slots12
  pushCategory1 m slot3
  pushCategory2 m slots12

def dupX2 : Vfy Unit := do
  let slot1 ← popCategory1
  let slots23 ← popCategory2
  pushCategory1 m slot1
  pushCategory2 m slots23
  pushCategory1 m slot1

def dup2X2 : Vfy Unit := do
  let slots12 ← popCategory2
  let slots34 ← popCategory2
  pushCategory2 m slots12
  pushCategory2 m slots34
  pushCategory2 m slots12

def swap : Vfy Unit := do
  let slot1 ← popCategory1
  let slot2 ← popCategory1
  pushCategory1 m slot1
  pushCategory1 m slot2

/-- The second operand of `binary`: that of a shift is an `int`. -/
def popOperand (kind : BasicType) (isShift : Bool) : Vfy Unit :=
  if isShift then popType .int else popType kind

/-- `binary` (lines 598–611). -/
def binary (kind : BasicType) (isShift : Bool) : Vfy Unit := do
  popOperand kind isShift
  popType kind
  pushType m kind

/-- `pop_ref` where the slot is not looked at. -/
def popAnyRef : Vfy Unit := do
  let _ ← popRef
  pure ()

/-- `branch_if` (lines 618–630). -/
def branchIf (isRef : Bool) (dest : ℤ) : Vfy Unit := do
  (if isRef then popAnyRef else popInteger)
  checkBranchTarget env m dest

/-- `branch` (lines 650–653). -/
def branch (dest : ℤ) : Vfy Unit := do
  checkBranchTarget env m dest
  setNoControlFlow true

/-- The return kind of the method as `return_op` compares it (lines 660–671). -/
def Method.expectedReturnKind (m : Method) : BasicType :=
  match returnBasicType m.ret with
  | .byte | .boolean | .char | .short => .int
  | .array => .object
  | kind => kind

/-- The pop of the returned value (lines 680–684). -/
def popReturnValue : Vfy Unit :=
  match m.ret with
  | some (.object name) | some (.array name) => popObject env name
  | _ => popType m.expectedReturnKind

/-- `return_op` (lines 655–687). -/
def returnOp (returnKind : BasicType) : Vfy Unit := do
  let f ← get
  if f.needInitialization then throw .returnUninitThis
  else if m.expectedReturnKind ≠ returnKind then throw .retvalBadType
  else do
    popReturnValue env m
    setNoControlFlow true

/-- The loop of `table_switch`. -/
def checkBranchTargets : List ℤ → Vfy Unit
  | [] => pure ()
  | dest :: dests => do
    checkBranchTarget env m dest
    checkBranchTargets dests

/-- `table_switch` (lines 689–700). -/
def tableSwitch (defaultDest : ℤ) (dests : List ℤ) : Vfy Unit := do
  popInteger
  checkBranchTarget env m defaultDest
  checkBranchTargets env m dests
  setNoControlFlow true

/-- The loop of `lookup_switch`; there is no last key before the first pair. -/
def checkLookupPairs : (lastKey : Option ℤ) → List (ℤ × ℤ) → Vfy Unit
  | _, [] => pure ()
  | lastKey, (thisKey, dest) :: pairs => do
    if ∃ k ∈ lastKey, thisKey ≤ k then throw .badLookupswitch
    else do
      checkBranchTarget env m dest
      checkLookupPairs (some thisKey) pairs

/-- `lookup_switch` (lines 702–718). -/
def lookupSwitch (defaultDest : ℤ) (pairs : List (ℤ × ℤ)) : Vfy Unit := do
  popInteger
  checkBranchTarget env m defaultDest
  checkLookupPairs env m none pairs
  setNoControlFlow true

/-- The receiver of a `putfield` (lines 782–832). The 1.4.1 verifier let a
constructor assign the fields of its own class before it calls `<init>`. -/
def popPutReceiver (fieldKlassName fieldName targetName : Symbol) (fieldType : JavaType) :
    Vfy Unit := do
  let slot ← popRef
  let inDeclaringClass := slot.tag == .initObject && m.holder == fieldKlassName &&
    env.declaresField fieldName fieldType
  pushCategory1 m (if inDeclaringClass then ⟨.object, some m.holder⟩ else slot)
  popObject env targetName

/-- `handle_field_reference` (lines 738–844). -/
def handleFieldReference (index : ℕ) (isStatic isPut : Bool) : Vfy Unit :=
  match m.constants[index]? with
  | none => throw .cpIndexOutOfBounds
  | some (.field fieldKlassName fieldName fieldType) =>
    match env.isProtectedAccess index false with
    | none => throw .pendingException
    | some isProtected =>
      let targetName := if isProtected then m.holder else fieldKlassName
      if isPut then do
        popJavaType env fieldType
        (if isStatic then pure ()
          else popPutReceiver env m fieldKlassName fieldName targetName fieldType)
      else do
        (if isStatic then pure () else popObject env targetName)
        pushJavaType m fieldType
  | some _ => throw .expectFieldref

/-- The opcodes of `handle_invoker`. -/
inductive InvokeCode
  | interface | special | static | virtual
deriving DecidableEq, Repr

/-- The class of a new object that an `<init>` of `methodKlassName` is called on
(lines 900–930). -/
def newObjectName (newBci : ℕ) (methodKlassName : Symbol) : Except VerifyError Symbol :=
  if newBci + 3 > m.code.length ∨ m.code.getUbyte newBci ≠ 0xbb then .error .expectNew
  else
    match m.constants[m.code.getJavaUshort (newBci + 1)]? with
    | none => .error .cpIndexOutOfBounds
    | some (.klass newobjectName) =>
      if newobjectName = methodKlassName then .ok newobjectName else .error .badInitCall
    | some _ => .error .expectClass

/-- An `<init>` call on `this` (lines 931–960). -/
def initThis (bci : ℕ) (methodKlassName : Symbol) : Vfy Symbol := do
  let f ← get
  if methodKlassName ≠ m.holder ∧ methodKlassName ≠ env.superName then throw .badInitCall
  else if f.needInitialization = false then throw .badInitCall
  else if m.exceptionTable.any fun h => h.start ≤ bci && bci < h.finish then throw .badInitCall
  else do
    setNeedInitialization false
    pure m.holder

/-- The name `<init>` gives to its receiver. -/
def initName (bci : ℕ) (methodKlassName : Symbol) (receiverKind : StackMapKind) : Vfy Symbol :=
  match receiverKind with
  | .newObject newBci => Comp.ofExcept (newObjectName m newBci methodKlassName)
  | .initObject => initThis env m bci methodKlassName
  | _ => throw .expectUninit

/-- The receiver of an `<init>` call (lines 891–969). -/
def initReceiver (bci : ℕ) (methodKlassName : Symbol) : Vfy Unit := do
  let receiver ← popCategory1
  let newobjectName ← initName env m bci methodKlassName receiver.tag
  replaceStackTypeWithRealType m receiver.tag .object newobjectName

/-- The receiver processing of `handle_invoker` (lines 888–993). -/
def invokeReceiver (bci index : ℕ) (opcode : InvokeCode) (methodKlassName methodName : Symbol) :
    Vfy Unit :=
  if opcode = .static then pure ()
  else if methodName = objectInitializerName then initReceiver env m bci methodKlassName
  else if opcode = .special then
    if env.holderIsSubclassOf methodKlassName then popObject env m.holder
    else throw .invokespecial
  else if opcode = .virtual then
    match env.isProtectedAccess index true with
    | none => throw .pendingException
    | some isProtected => popObject env (if isProtected then m.holder else methodKlassName)
  else popObject env methodKlassName

/-- The operand bytes of an `invokeinterface` (lines 998–1005). -/
def checkInterfaceOperands (bci : ℕ) (opcode : InvokeCode) (nwords : ℕ) : Except VerifyError Unit :=
  if opcode ≠ .interface then .ok ()
  else if m.code.getUbyte (bci + 3) ≠ nwords + 1 then .error .nargsMismatch
  else if m.code.getUbyte (bci + 4) ≠ 0 then .error .expectZero
  else .ok ()

/-- `handle_invoker` (lines 846–1006). -/
def handleInvoker (bci index : ℕ) (opcode : InvokeCode) : Vfy Unit :=
  match m.constants[index]? with
  | none => throw .cpIndexOutOfBounds
  | some (.method methodKlassName methodName params ret) => do
    let nwords ← popInvokeArguments env params
    if methodName.startsWith "<" ∧ (opcode ≠ .special ∨ methodName ≠ objectInitializerName) then
      throw .expectInvokespecial
    else do
      invokeReceiver env m bci index opcode methodKlassName methodName
      pushInvokeResult m ret
      Comp.ofExcept (checkInterfaceOperands m bci opcode nwords)
  | some _ => throw .expectMethodref

/-- `throw_exception` (lines 1014–1017). -/
def throwException : Vfy Unit := do
  popObject env javaLangThrowable
  setNoControlFlow true

/-- The checks of a class index, and the name of the class. -/
def klassNameAt (index : ℕ) : Vfy Symbol := Comp.ofExcept <|
  match m.constants[index]? with
  | none => .error .cpIndexOutOfBounds
  | some (.klass name) => .ok name
  | some _ => .error .expectClass

/-- `new_object` (lines 1020–1039). -/
def newObject (bci index : ℕ) : Vfy Unit := do
  let newName ← klassNameAt m index
  if env.isArrayName newName then throw .expectClass
  else push m (.newObject bci)

/-- `new_basic_array` (lines 1041–1053): `T_BOOLEAN` is 4 and `T_LONG` is 11. -/
def newBasicArray (type : ℕ) : Vfy Unit := do
  popInteger
  if 4 ≤ type ∧ type ≤ 11 then pushObject m (env.typeArrayClassName type)
  else throw .badInstr

/-- `new_object_array` (lines 1055–1072). -/
def newObjectArray (index : ℕ) : Vfy Unit := do
  let name ← klassNameAt m index
  popInteger
  pushObject m (env.objArrayClassName name)

/-- The loop of `new_multi_array`. -/
def popIntegers : ℕ → Vfy Unit
  | 0 => pure ()
  | n + 1 => do
    popInteger
    popIntegers n

/-- `new_multi_array` (lines 1074–1122): the loop ends with the dimensions of the
array type, if not before. -/
def newMultiArray (index dim : ℕ) : Vfy Unit := do
  let name ← klassNameAt m index
  if 0 < dim ∧ env.isArrayName name then do
    popIntegers (min dim (env.arrayDimensions name))
    if dim ≤ env.arrayDimensions name then pushObject m name else throw .multianewarray
  else throw .multianewarray

/-- `check_cast` (lines 1124–1138). -/
def checkCast (index : ℕ) : Vfy Unit := do
  let name ← klassNameAt m index
  popObject env javaLangObject
  pushObject m name

/-- `instance_of` (lines 1140–1154). -/
def instanceOf (index : ℕ) : Vfy Unit := do
  let _ ← klassNameAt m index
  popObject env javaLangObject
  pushInteger m

/-- The member of the closure that the iterator calls at `bci`. -/
def exec (bci : ℕ) : Op → Vfy Unit
  | .pushInt => pushInteger m
  | .pushLong => pushDoubleword m .long
  | .pushFloat => push m .float
  | .pushDouble => pushDoubleword m .double
  | .pushObj isNull => if isNull then push m .null else pushObject m javaLangString
  | .loadLocal kind index => loadLocal m kind index
  | .storeLocal kind index => storeLocal m kind index
  | .incrementLocalInt index => checkLocalType m index .int
  | .arrayLength => arrayLength env m
  | .loadArray kind => loadArray env m kind
  | .storeArray kind => storeArray env kind
  | .nop => pure ()
  | .pop => do
    let _ ← popCategory1
    pure ()
  | .pop2 => do
    let _ ← popCategory2
    pure ()
  | .dup => dup m
  | .dup2 => dup2 m
  | .dupX1 => dupX1 m
  | .dup2X1 => dup2X1 m
  | .dupX2 => dupX2 m
  | .dup2X2 => dup2X2 m
  | .swap => swap m
  | .neg kind => do
    popType kind
    pushType m kind
  | .binary kind isShift => binary m kind isShift
  | .convert source target => do
    popType source
    pushType m target
  | .compare kind => do
    popType kind
    popType kind
    pushType m .int
  | .branchIf isRef dest => branchIf env m isRef dest
  | .branchIfIcmp dest => do
    popInteger
    popInteger
    checkBranchTarget env m dest
  | .branchIfAcmp dest => do
    popAnyRef
    popAnyRef
    checkBranchTarget env m dest
  | .branch dest => branch env m dest
  | .returnOp kind => returnOp env m kind
  | .tableSwitch defaultDest dests => tableSwitch env m defaultDest dests
  | .lookupSwitch defaultDest pairs => lookupSwitch env m defaultDest pairs
  | .getField index => handleFieldReference env m index false false
  | .putField index => handleFieldReference env m index false true
  | .getStatic index => handleFieldReference env m index true false
  | .putStatic index => handleFieldReference env m index true true
  | .invokeInterface index => handleInvoker env m bci index .interface
  | .invokeSpecial index => handleInvoker env m bci index .special
  | .invokeStatic index => handleInvoker env m bci index .static
  | .invokeVirtual index => handleInvoker env m bci index .virtual
  | .throwException => throwException env
  | .newObject index => newObject env m bci index
  | .newBasicArray type => newBasicArray env m type
  | .newObjectArray index => newObjectArray env m index
  | .newMultiArray index dims => newMultiArray env m index dims
  | .checkCast index => checkCast env m index
  | .instanceOf index => instanceOf env m index
  | .monitorEnter => popAnyRef
  | .monitorExit => popAnyRef
  | .illegalCode => throw .badInstr

/-! ## The prolog -/

/-- The class a handler catches (lines 368–372). -/
def exceptionClass (h : Handler) : Vfy Symbol :=
  if h.catchType ≠ 0 then klassNameAt m h.catchType else pure javaLangThrowable

/-- One handler of `check_exception_handlers_for_bci` (lines 361–386). -/
def checkExceptionHandler (h : Handler) : Vfy Unit := do
  let exceptionClass ← exceptionClass m h
  saveStackState
  pushObject m exceptionClass
  checkBranchTarget env m h.handler
  restoreStackState

/-- The loop of `check_exception_handlers_for_bci`. -/
def checkExceptionHandlersForBci (bci : ℕ) : List Handler → Vfy Unit
  | [] => pure ()
  | h :: handlers => do
    (if h.start ≤ bci ∧ bci < h.finish then checkExceptionHandler env m h else pure ())
    checkExceptionHandlersForBci bci handlers

/-- The test that the stack maps come in order and at instruction starts
(lines 308–317). -/
def checkStackmapOrder (bci : ℕ) : Vfy Unit := fun f =>
  match m.stackmaps[f.currentStackmapIndex]? with
  | none => .ok ((), f)
  | some map =>
    if map.offset = bci then
      .ok ((), { f with currentStackmapIndex := f.currentStackmapIndex + 1 })
    else if map.offset < bci then .error .badStackmap
    else .ok ((), f)

/-- `bytecode_prolog` (lines 305–337). The window of all handlers, which the
source tests first, contains every handler range. -/
def bytecodeProlog (bci : ℕ) : Vfy Unit := do
  checkStackmapOrder m bci
  let f ← get
  checkCurrentTarget env m bci f.noControlFlow
  checkExceptionHandlersForBci env m bci m.exceptionTable
  setNoControlFlow false

/-- `iterate_bytecode` with the verifier as the closure. -/
def verifyBytecode (bci : ℕ) : Vfy Unit := do
  bytecodeProlog env m bci
  exec env m bci (m.iterateBytecode bci)

/-! ## The whole method -/

/-- `GetInstructionStarts::run` (lines 44–105): the starts of the instructions
from `bci` on. `code_size` iterations are enough, as no instruction has
length `0`. -/
def instructionStarts : (fuel bci : ℕ) → Except VerifyError (List ℕ)
  | 0, bci => if bci = m.code.length then .ok [] else .error .badInstr
  | fuel + 1, bci =>
    if bci < m.code.length then
      if m.bytecodeLengthFor bci ≤ 0 then .error .badInstr
      else
        match instructionStarts fuel (bci + (m.bytecodeLengthFor bci).toNat) with
        | .error e => .error e
        | .ok starts => .ok (bci :: starts)
    else if bci = m.code.length then .ok [] else .error .badInstr

/-- The test of one handler in `check_handlers` (lines 246–279). -/
def checkHandler (starts : List ℕ) (h : Handler) : Except VerifyError Unit :=
  if h.start > h.finish ∨ h.start ≥ m.code.length ∨ h.handler ≥ m.code.length ∨
      h.finish = 0 ∨ h.finish > m.code.length ∨ h.start ∉ starts ∨ h.handler ∉ starts ∨
      (h.finish < m.code.length ∧ h.finish ∉ starts) then
    .error .corruptedExceptionHandler
  else if h.catchType = 0 then .ok ()
  else
    match m.constants[h.catchType]? with
    | none => .error .cpIndexOutOfBounds
    | some (.klass _) =>
      if env.isThrowableAt h.catchType then .ok () else .error .expectThrowable
    | some _ => .error .expectClass

/-- `check_handlers` (lines 224–285). -/
def checkHandlers (starts : List ℕ) : List Handler → Except VerifyError Unit
  | [] => .ok ()
  | h :: handlers =>
    match checkHandler env m starts h with
    | .error e => .error e
    | .ok () => checkHandlers starts handlers

/-- `check_news` (lines 287–303): every `NewObject` of a stack map names a `new`
instruction. -/
def checkNews (starts : List ℕ) : Except VerifyError Unit :=
  if m.stackmaps.all fun map =>
      (map.localSlots ++ map.stackSlots).all fun slot =>
        match slot.tag with
        | .newObject newBci => newBci ∈ starts && m.code.getUbyte newBci == 0xbb
        | _ => true then
    .ok ()
  else .error .badStackmap

/-- The local of one parameter. -/
def initializeParam (n : ℕ) : JavaType → Vfy Unit
  | .object name | .array name => setLocalRef m n ⟨.object, some name⟩
  | type => setLocalType m n type.basicType

/-- The loop of `initialize_locals` over the parameters (lines 1389–1403). -/
def initializeParams : (n : ℕ) → List JavaType → Vfy ℕ
  | n, [] => pure n
  | n, type :: params => do
    initializeParam m n type
    initializeParams (n + type.wordSize) params

/-- The last loop of `initialize_locals`: `count` further locals are unused. -/
def initializeRest : (n count : ℕ) → Vfy Unit
  | _, 0 => pure ()
  | n, count + 1 => do
    setLocal m n .bogus
    initializeRest (n + 1) count

/-- The local of `this` (lines 1380–1388): the number of locals it takes. -/
def initializeThis : Vfy ℕ :=
  if m.isStatic then pure 0
  else if m.holder ≠ javaLangObject ∧ m.isObjectInitializer then do
    setNeedInitialization true
    setLocal m 0 .initObject
    pure 1
  else do
    setLocalRef m 0 ⟨.object, some m.holder⟩
    pure 1

/-- `initialize_locals` (lines 1373–1407). -/
def initializeLocals : Vfy Unit := do
  setNeedInitialization false
  let n ← initializeThis m
  let n ← initializeParams m n m.params
  initializeRest m n (m.maxLocals - n)

/-- `method->iterate(bci, code_size, this)`, at most `fuel` instructions. -/
def iterateFrom : (fuel bci : ℕ) → Vfy Unit
  | 0, bci => if bci = m.code.length then pure () else throw .badInstr
  | fuel + 1, bci =>
    if bci < m.code.length then do
      verifyBytecode env m bci
      iterateFrom fuel (bci + (m.bytecodeLengthFor bci).toNat)
    else if bci > m.code.length then throw .badInstr
    else pure ()

/-- The tests after the iteration (lines 188–196). -/
def checkEnd : Vfy Unit := do
  let f ← get
  if f.currentStackmapIndex ≠ m.stackmaps.length then throw .badStackmap
  else if f.noControlFlow = false then throw .fallThrough
  else pure ()

/-- The arrays of a new frame: the stack and local arrays come from a cache and
hold what the last method left there. -/
structure FrameCache where
  vstack : ℕ → Slot
  vlocals : ℕ → Slot
  saved0 : Slot

/-- `VerifierFrame::initialize` and lines 179–183 of `verify`. -/
def initialFrame (cache : FrameCache) : VerifierFrame :=
  { vstackpointer := 0, vstack := cache.vstack, vlocals := cache.vlocals
    needInitialization := false, savedStackPointer := 0, saved0 := cache.saved0
    noControlFlow := false, currentStackmapIndex := 0 }

/-- The checks of `verify` before the frame is set up (lines 154–178). -/
def checkMethod : Except VerifyError Unit :=
  if env.overridesFinal then .error .finalMethodOverride
  else
    match instructionStarts m m.code.length 0 with
    | .error e => .error e
    | .ok starts =>
      match checkHandlers env m starts m.exceptionTable with
      | .error e => .error e
      | .ok () => checkNews m starts

/-- The pass over the code. -/
def verifyCode : Vfy Unit := do
  initializeLocals m
  iterateFrom env m m.code.length 0
  checkEnd m

/-- `verify` (lines 149–197). -/
def verify (cache : FrameCache) : Except VerifyError Unit :=
  match checkMethod env m with
  | .error e => .error e
  | .ok () =>
    match verifyCode env m (initialFrame cache) with
    | .error e => .error e
    | .ok _ => .ok ()

/-- The verifier accepts the method. -/
def Accepted (cache : FrameCache) : Prop := verify env m cache = .ok ()

end CldcVm.Verifier
