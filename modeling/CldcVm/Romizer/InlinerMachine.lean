import CldcVm.Romizer.Inliner

/-!
# Running the code that is inlined

The bytecodes of short methods and of the code that takes the place of their calls, as
`cpu/c/Interpreter_c.cpp` runs them: words on the stack, fields as bytes of the memory, the null
checks, and the initialization of classes. A reference is the word of its address, and null is 0.

The machine stops where a verified method does not go: at an operand or a local that is not there,
at another bytecode, and at a return that leaves operands behind.
-/

namespace CldcVm.RomInliner

open Romizer (Tag FieldType ConstantPool lowHalf highHalf)

abbrev Word := BitVec 32

/-- The memory, and the classes that need no initialization: it is complete, or under way in the
thread that runs. -/
structure Heap where
  memory : BitVec 32 → BitVec 8
  isInitialized : ℕ → Bool

/-- Where the static fields of a class are, and how a class is initialized: whether this has thrown,
and the heap after it. Without an error, the class needs no initialization any more. -/
structure World where
  mirror : ℕ → BitVec 32
  initializeClass : ℕ → Heap → Bool × Heap
  initialized : ∀ classId heap, (initializeClass classId heap).1 = false →
    (initializeClass classId heap).2.isInitialized classId = true

/-- What is thrown. -/
inductive Thrown
  | nullPointerException
  | initializerError
deriving DecidableEq

/-- What is left of a call or of the code in its place: the stack of the caller, or an exception. -/
inductive Outcome
  | normal (stack : List Word) (heap : Heap)
  | thrown (exception : Thrown) (heap : Heap)

/-! ## Memory -/

variable (memory : BitVec 32 → BitVec 8)

def loadShort (addr : BitVec 32) : BitVec 16 := memory (addr + 1) ++ memory addr

def loadInt (addr : BitVec 32) : Word := loadShort memory (addr + 2) ++ loadShort memory addr

/-- The words that are pushed, the top one first. -/
def load (addr : BitVec 32) : Access → List Word
  | .byte => [(memory addr).signExtend 32]
  | .short => [(loadShort memory addr).signExtend 32]
  | .char => [(loadShort memory addr).zeroExtend 32]
  | .int => [loadInt memory addr]
  | .long => [loadInt memory addr, loadInt memory (addr + 4)]

def storeByte (addr : BitVec 32) (value : BitVec 8) : BitVec 32 → BitVec 8 :=
  Function.update memory addr value

def storeShort (addr : BitVec 32) (value : BitVec 16) : BitVec 32 → BitVec 8 :=
  storeByte (storeByte memory addr (value.truncate 8)) (addr + 1) ((value >>> 8).truncate 8)

def storeInt (addr : BitVec 32) (value : Word) : BitVec 32 → BitVec 8 :=
  storeShort (storeShort memory addr (value.truncate 16)) (addr + 2) ((value >>> 16).truncate 16)

/-- The words are popped, the top one first. -/
def store (addr : BitVec 32) : Access → List Word → Option (BitVec 32 → BitVec 8)
  | .byte, [value] => some (storeByte memory addr (value.truncate 8))
  | .short, [value] | .char, [value] => some (storeShort memory addr (value.truncate 16))
  | .int, [value] => some (storeInt memory addr value)
  | .long, [low, high] => some (storeInt (storeInt memory addr low) (addr + 4) high)
  | _, _ => none

/-- The address of a field: the offset is in bytes for bytes and shorts, else in words. -/
def fieldAddress (obj : Word) (offset : ℕ) : Access → BitVec 32
  | .int | .long => obj + BitVec.ofNat 32 (offset * 4)
  | _ => obj + BitVec.ofNat 32 offset

/-- `GET_SHORT_NATIVE(0)`. -/
def getShortNative (code : Code) (bci : ℕ) : ℕ :=
  code.getUbyte (bci + 1) + 2 ^ 8 * code.getUbyte (bci + 2)

/-! ## Steps -/

/-- An activation of a method. -/
structure Activation where
  bci : ℕ
  locals : List Word
  stack : List Word
  heap : Heap

/-- What a bytecode does. -/
inductive Step
  | next (a : Activation)
  | returned (result : List Word) (heap : Heap)
  | thrown (exception : Thrown) (heap : Heap)
  | stopped

/-- The next bytecode, with another stack. -/
def Activation.advance (a : Activation) (length : ℕ) (stack : List Word) : Step :=
  .next { a with
    bci := a.bci + length
    stack := stack }

/-- The bytes of a field that a vanilla constructor sets to zero. -/
def zeroStore (obj : Word) (memory : BitVec 32 → BitVec 8) (s : Access × ℕ) :
    Option (BitVec 32 → BitVec 8) :=
  store memory (fieldAddress obj s.2 s.1) s.1 (List.replicate s.1.words 0)

/-- The stores of the vanilla constructors of the classes above. -/
def zeroStores (obj : Word) : List (Access × ℕ) → (BitVec 32 → BitVec 8) →
    Option (BitVec 32 → BitVec 8)
  | [], memory => some memory
  | s :: stores, memory => (zeroStore obj memory s).bind (zeroStores obj stores)

/-- `fast_invokevirtual_final` in a default constructor: the constructor of the class above. -/
def superConstructor (m : Method) (a : Activation) : Step :=
  match a.stack, m.holder.vanillaStores with
  | obj :: stack, some stores =>
    if obj = 0 then .thrown .nullPointerException a.heap
    else
      match zeroStores obj stores a.heap.memory with
      | none => .stopped
      | some memory => .next { a with
          bci := a.bci + 3
          stack := stack
          heap := { a.heap with memory := memory } }
  | _, _ => .stopped

/-- A static field is read; its class is initialized before that. -/
def getstatic (w : World) (m : Method) (a : Activation) (access : Access) : Step :=
  let value32 := m.constants.value32At (m.code.getJavaUshort (a.bci + 1))
  let classId := (lowHalf value32).toNat
  let addr := w.mirror classId + (highHalf value32).zeroExtend 32
  if a.heap.isInitialized classId then
    a.advance 3 (load a.heap.memory addr access ++ a.stack)
  else
    match w.initializeClass classId a.heap with
    | (true, heap) => .thrown .initializerError heap
    | (false, heap) => .next { a with
        bci := a.bci + 3
        stack := load heap.memory addr access ++ a.stack
        heap := heap }

/-- A field is read. -/
def getfield (m : Method) (a : Activation) (access : Access) : Step :=
  match a.stack with
  | [] => .stopped
  | obj :: stack =>
    if obj = 0 then .thrown .nullPointerException a.heap
    else
      let addr := fieldAddress obj (getShortNative m.code a.bci) access
      a.advance 3 (load a.heap.memory addr access ++ stack)

/-- A field is written. -/
def putfield (m : Method) (a : Activation) (access : Access) : Step :=
  match a.stack.drop access.words with
  | [] => .stopped
  | obj :: stack =>
    if obj = 0 then .thrown .nullPointerException a.heap
    else
      let addr := fieldAddress obj (getShortNative m.code a.bci) access
      match store a.heap.memory addr access (a.stack.take access.words) with
      | none => .stopped
      | some memory => .next { a with
          bci := a.bci + 3
          stack := stack
          heap := { a.heap with memory := memory } }

/-- The loads, the fields and the returns. -/
def stepFamily (w : World) (m : Method) (a : Activation) (code : ℕ) : Step :=
  match loadOf code, getfieldOf code, putfieldOf code, getstaticOf code, returnOf code with
  | some (index, words), _, _, _, _ =>
    if index + words ≤ a.locals.length then
      a.advance 1 (((a.locals.drop index).take words).reverse ++ a.stack)
    else .stopped
  | none, some access, _, _, _ => getfield m a access
  | none, none, some access, _, _ => putfield m a access
  | none, none, none, some access, _ => getstatic w m a access
  | none, none, none, none, some words =>
    if a.stack.length = words then .returned a.stack a.heap else .stopped
  | none, none, none, none, none => .stopped

/-- One bytecode. -/
def step (w : World) (m : Method) (a : Activation) : Step :=
  let code := m.code.getUbyte a.bci
  if code = Op.nop then a.advance 1 a.stack
  else if code = Op.pop then
    match a.stack with
    | [] => .stopped
    | _ :: stack => a.advance 1 stack
  else if code = Op.pop_and_npe_if_null then
    match a.stack with
    | [] => .stopped
    | obj :: stack =>
      if obj = 0 then .thrown .nullPointerException a.heap else a.advance 1 stack
  else if code = Op.fast_invokevirtual_final then
    if m.isDefaultConstructor then superConstructor m a else .stopped
  else stepFamily w m a code

/-! ## Calls -/

/-- The callee runs until it returns or throws; `stack` is what the call leaves of the stack of the
caller. -/
def runCallee (w : World) (callee : Method) (stack : List Word) :
    (fuel : ℕ) → Activation → Option Outcome
  | 0, _ => none
  | fuel + 1, a =>
    match step w callee a with
    | .next a => runCallee w callee stack fuel a
    | .returned result heap => some (.normal (result ++ stack) heap)
    | .thrown exception heap => some (.thrown exception heap)
    | .stopped => none

/-- The activation of the callee. -/
def Method.enter (callee : Method) (stack : List Word) (heap : Heap) : Activation :=
  ⟨0, (stack.take callee.numArgs).reverse, [], heap⟩

/-- `fast_invoke_internal` and `fast_invokespecial`: the class of a static method is initialized,
and the receiver of another one is checked. -/
def invoke (w : World) (callee : Method) (fuel : ℕ) (stack : List Word) (heap : Heap) :
    Option Outcome :=
  let rest := stack.drop callee.numArgs
  if callee.isStatic then
    if heap.isInitialized callee.holder.classId then
      runCallee w callee rest fuel (callee.enter stack heap)
    else
      match w.initializeClass callee.holder.classId heap with
      | (true, heap) => some (.thrown .initializerError heap)
      | (false, heap) => runCallee w callee rest fuel (callee.enter stack heap)
  else if stack[callee.numArgs - 1]? = some 0 then some (.thrown .nullPointerException heap)
  else runCallee w callee rest fuel (callee.enter stack heap)

/-- The code of the caller runs up to the end of the three bytes of the call. -/
def runSite (w : World) (caller : Method) (site : ℕ) : (fuel : ℕ) → Activation → Option Outcome
  | 0, _ => none
  | fuel + 1, a =>
    if a.bci = site + 3 then some (.normal a.stack a.heap)
    else
      match step w caller a with
      | .next a => runSite w caller site fuel a
      | .thrown exception heap => some (.thrown exception heap)
      | .returned _ _ | .stopped => none

end CldcVm.RomInliner
