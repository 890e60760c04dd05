import CldcVm.Lib.Comp
import CldcVm.Verifier.Iterate

/-!
# Executions of a method

The interpreter of one activation (`cpu/c/Interpreter_c.cpp`), as far as words,
locals and the program counter go. What an instruction computes (the result of
an addition, of a field access, of a call; whether a condition holds; which case
of a switch is taken) comes from a `Choice`, and any instruction may raise an
exception, so that a step stands for every step the interpreter can take.

The interpreter checks nothing. The machine here does: it stops with a `Fault`
where the interpreter would leave its stack or locals, or read a word as what it
is not. A word says what was stored in it; the two words of a `long` or `double`
both carry its value, so that halves of two values are no value.
-/

namespace CldcVm.Interpreter

open Lib Verifier

/-- A word of the stack or of the locals. `ref none` is null. -/
inductive Word
  | int (v : BitVec 32)
  | float (v : BitVec 32)
  | long1 (v : BitVec 64)
  | long2 (v : BitVec 64)
  | double1 (v : BitVec 64)
  | double2 (v : BitVec 64)
  | ref (object : Option ℕ)
  | undefined
deriving DecidableEq, Repr

/-- The ways to break the discipline. -/
inductive Fault
  | stackUnderflow | stackOverflow | localOutOfRange | wrongKind | illegalCode | badConstant
deriving DecidableEq, Repr

/-- Where an object without its initializer comes from: it is the receiver of the
activation, or the `new` at `bci` has created it. -/
inductive Origin
  | receiver
  | created (bci : ℕ)
deriving DecidableEq, Repr

/-- An activation. Objects are numbers; `newest` has the last object of each
origin. -/
structure MState where
  pc : ℕ
  sp : ℕ
  stack : ℕ → Word
  locals : ℕ → Word
  nextObject : ℕ
  newest : Origin → Option ℕ

/-- What an instruction finds: the value it computes, in each kind, whether it
branches, and which case of a switch it takes. -/
structure Choice where
  int : BitVec 32
  float : BitVec 32
  long : BitVec 64
  double : BitVec 64
  object : Option ℕ
  taken : Bool
  case : ℕ

/-- Where execution goes after an instruction. -/
inductive Next
  | fallThrough
  | jump (dest : ℤ)
  | finish
  | raise
deriving DecidableEq, Repr

/-- A part of an instruction. -/
abbrev Mch (α : Type) := Comp MState Fault α

namespace Word

/-- The word is a value of a one-word kind. -/
def hasKind (kind : BasicType) : Word → Bool
  | int _ => kind == .int || kind == .boolean || kind == .byte || kind == .char || kind == .short
  | float _ => kind == .float
  | ref _ => kind == .object || kind == .array
  | _ => false

/-- The words are the two words of one value of a two-word kind. -/
def arePair (kind : BasicType) : Word × Word → Bool
  | (long1 v, long2 v') => kind == .long && v == v'
  | (double1 v, double2 v') => kind == .double && v == v'
  | _ => false

end Word

variable (m : Method) (c : Choice)

/-! ## Words -/

/-- `PUSH`. -/
def pushWord (w : Word) : Mch Unit := fun s =>
  if s.sp < m.maxStack then
    .ok ((), { s with stack := Function.update s.stack s.sp w, sp := s.sp + 1 })
  else .error .stackOverflow

/-- `POP`. -/
def popWord : Mch Word := fun s =>
  if 0 < s.sp then .ok (s.stack (s.sp - 1), { s with sp := s.sp - 1 })
  else .error .stackUnderflow

/-- Two words, the lower one first. -/
def pushPair (words : Word × Word) : Mch Unit := do
  pushWord m words.1
  pushWord m words.2

def popPair : Mch (Word × Word) := do
  let word2 ← popWord
  let word1 ← popWord
  pure (word1, word2)

/-- `GET_LOCAL`. -/
def getLocal (index : ℕ) : Mch Word := fun s =>
  if index < m.maxLocals then .ok (s.locals index, s) else .error .localOutOfRange

/-- `SET_LOCAL`. -/
def setLocalWord (index : ℕ) (w : Word) : Mch Unit := fun s =>
  if index < m.maxLocals then .ok ((), { s with locals := Function.update s.locals index w })
  else .error .localOutOfRange

def getLocalPair (index : ℕ) : Mch (Word × Word) := do
  let word1 ← getLocal m index
  let word2 ← getLocal m (index + 1)
  pure (word1, word2)

def setLocalPair (index : ℕ) (words : Word × Word) : Mch Unit := do
  setLocalWord m index words.1
  setLocalWord m (index + 1) words.2

/-- The use of a word as a value of a kind. -/
def use (fits : Bool) : Mch Unit := if fits then pure () else throw .wrongKind

/-! ## Values -/

/-- `POP`, `OBJ_POP`, `FLOAT_POP`, `LONG_POP` and `DOUBLE_POP`. -/
def popValue (kind : BasicType) : Mch Unit :=
  match kind with
  | .void => pure ()
  | .long | .double => do
    let words ← popPair
    use (Word.arePair kind words)
  | _ => do
    let word ← popWord
    use (word.hasKind kind)

/-- The push of the computed value. -/
def pushValue (kind : BasicType) : Mch Unit :=
  match kind with
  | .void => pure ()
  | .long => pushPair m (.long1 c.long, .long2 c.long)
  | .double => pushPair m (.double1 c.double, .double2 c.double)
  | .float => pushWord m (.float c.float)
  | .object | .array => pushWord m (.ref c.object)
  | _ => pushWord m (.int c.int)

/-- `iload`, `lload`, `fload`, `dload`, `aload` (lines 2072–2094). -/
def load (kind : BasicType) (index : ℕ) : Mch Unit :=
  match kind with
  | .void => throw .wrongKind
  | .long | .double => do
    let words ← getLocalPair m index
    use (Word.arePair kind words)
    pushPair m words
  | _ => do
    let word ← getLocal m index
    use (word.hasKind kind)
    pushWord m word

/-- `istore`, `lstore`, `fstore`, `dstore`, `astore` (lines 2096–2122). -/
def store (kind : BasicType) (index : ℕ) : Mch Unit :=
  match kind with
  | .void => throw .wrongKind
  | .long | .double => do
    let words ← popPair
    use (Word.arePair kind words)
    setLocalPair m index words
  | _ => do
    let word ← popWord
    use (word.hasKind kind)
    setLocalWord m index word

/-- The words from `n` on are values of the parameter types. -/
def argumentsFit (words : ℕ → Word) : (n : ℕ) → List JavaType → Bool
  | _, [] => true
  | n, type :: params =>
    (if type.wordSize = 2 then Word.arePair type.basicType (words n, words (n + 1))
      else (words n).hasKind type.basicType) && argumentsFit words (n + type.wordSize) params

/-- A call takes its arguments from the stack as its first locals. -/
def popArguments (params : List JavaType) : Mch Unit := fun s =>
  if s.sp < parameterWordSize params then .error .stackUnderflow
  else if argumentsFit s.stack (s.sp - parameterWordSize params) params then
    .ok ((), { s with sp := s.sp - parameterWordSize params })
  else .error .wrongKind

/-- The object a `new` at `bci` creates. -/
def allocate (bci : ℕ) : Mch Word := fun s =>
  .ok (.ref (some s.nextObject), { s with
    nextObject := s.nextObject + 1
    newest := Function.update s.newest (.created bci) (some s.nextObject) })

/-! ## Instructions -/

/-- An instruction that is followed by the next one. -/
def falls (x : Mch Unit) : Mch Next := do
  x
  pure .fallThrough

/-- An instruction that may branch. -/
def branches (x : Mch Unit) (dest : ℤ) : Mch Next := do
  x
  pure (if c.taken then .jump dest else .fallThrough)

def dup : Mch Unit := do
  let word1 ← popWord
  pushWord m word1
  pushWord m word1

def dup2 : Mch Unit := do
  let words12 ← popPair
  pushPair m words12
  pushPair m words12

def dupX1 : Mch Unit := do
  let word1 ← popWord
  let word2 ← popWord
  pushWord m word1
  pushWord m word2
  pushWord m word1

def dup2X1 : Mch Unit := do
  let words12 ← popPair
  let word3 ← popWord
  pushPair m words12
  pushWord m word3
  pushPair m words12

def dupX2 : Mch Unit := do
  let word1 ← popWord
  let words23 ← popPair
  pushWord m word1
  pushPair m words23
  pushWord m word1

def dup2X2 : Mch Unit := do
  let words12 ← popPair
  let words34 ← popPair
  pushPair m words12
  pushPair m words34
  pushPair m words12

def swap : Mch Unit := do
  let word1 ← popWord
  let word2 ← popWord
  pushWord m word1
  pushWord m word2

/-- Arithmetic: a shift takes an `int` second operand. -/
def binary (kind : BasicType) (isShift : Bool) : Mch Unit := do
  popValue (if isShift then .int else kind)
  popValue kind
  pushValue m c kind

/-- `array_load` (lines 1927–1986): there is no element of null. -/
def loadArray (kind : BasicType) : Mch Next := do
  popValue .int
  let array ← popWord
  use (array.hasKind .object)
  if array = .ref none then pure .raise
  else falls (pushValue m c kind)

def storeArray (kind : BasicType) : Mch Unit := do
  popValue kind
  popValue .int
  popValue .object

/-- The receiver of an instance member. -/
def popReceiver (isStatic : Bool) : Mch Unit := if isStatic then pure () else popValue .object

/-- `getfield`, `putfield`, `getstatic`, `putstatic`. -/
def accessField (index : ℕ) (isStatic isPut : Bool) : Mch Unit :=
  match m.constants[index]? with
  | some (.field _ _ type) =>
    if isPut then do
      popValue type.basicType
      popReceiver isStatic
    else do
      popReceiver isStatic
      pushValue m c type.basicType
  | _ => throw .badConstant

/-- A call that returns. -/
def invoke (index : ℕ) (isStatic : Bool) : Mch Unit :=
  match m.constants[index]? with
  | some (.method _ _ params ret) => do
    popArguments params
    popReceiver isStatic
    pushValue m c (returnBasicType ret)
  | _ => throw .badConstant

/-- `new`. -/
def newObject (bci index : ℕ) : Mch Unit :=
  match m.constants[index]? with
  | some (.klass _) => do
    let word ← allocate bci
    pushWord m word
  | _ => throw .badConstant

/-- `n` dimensions of `multianewarray`. -/
def popDimensions : ℕ → Mch Unit
  | 0 => pure ()
  | n + 1 => do
    popValue .int
    popDimensions n

/-- The return of a value of a kind that the method does not have breaks the
caller's stack. -/
def returnValue (kind returnKind : BasicType) : Mch Next :=
  if returnKind ≠ kind then throw .wrongKind
  else do
    popValue kind
    pure .finish

/-- The return kind of a method as the return codes have it. -/
def returnKind (m : Method) : BasicType :=
  match m.ret with
  | none => .void
  | some .long => .long
  | some .float => .float
  | some .double => .double
  | some (.object _) => .object
  | some (.array _) => .object
  | some _ => .int

/-- The instruction at `bci`. -/
def exec (bci : ℕ) : Op → Mch Next
  | .pushInt => falls (pushValue m c .int)
  | .pushLong => falls (pushValue m c .long)
  | .pushFloat => falls (pushValue m c .float)
  | .pushDouble => falls (pushValue m c .double)
  | .pushObj isNull => falls (pushWord m (.ref (if isNull then none else c.object)))
  | .loadLocal kind index => falls (load m kind index)
  | .storeLocal kind index => falls (store m kind index)
  | .incrementLocalInt index => falls do
    let word ← getLocal m index
    use (word.hasKind .int)
    setLocalWord m index (.int c.int)
  | .arrayLength => falls do
    popValue .object
    pushValue m c .int
  | .loadArray kind => loadArray m c kind
  | .storeArray kind => falls (storeArray kind)
  | .nop => falls (pure ())
  | .pop => falls do
    let _ ← popWord
    pure ()
  | .pop2 => falls do
    let _ ← popPair
    pure ()
  | .dup => falls (dup m)
  | .dup2 => falls (dup2 m)
  | .dupX1 => falls (dupX1 m)
  | .dup2X1 => falls (dup2X1 m)
  | .dupX2 => falls (dupX2 m)
  | .dup2X2 => falls (dup2X2 m)
  | .swap => falls (swap m)
  | .neg kind => falls do
    popValue kind
    pushValue m c kind
  | .binary kind isShift => falls (binary m c kind isShift)
  | .convert source target => falls do
    popValue source
    pushValue m c target
  | .compare kind => falls do
    popValue kind
    popValue kind
    pushValue m c .int
  | .branchIf isRef dest => branches c (popValue (if isRef then .object else .int)) dest
  | .branchIfIcmp dest => branches c (do popValue .int; popValue .int) dest
  | .branchIfAcmp dest => branches c (do popValue .object; popValue .object) dest
  | .branch dest => pure (.jump dest)
  | .returnOp kind => returnValue kind (returnKind m)
  | .tableSwitch defaultDest dests => do
    popValue .int
    pure (.jump (dests.getD c.case defaultDest))
  | .lookupSwitch defaultDest pairs => do
    popValue .int
    pure (.jump ((pairs.map Prod.snd).getD c.case defaultDest))
  | .getField index => falls (accessField m c index false false)
  | .putField index => falls (accessField m c index false true)
  | .getStatic index => falls (accessField m c index true false)
  | .putStatic index => falls (accessField m c index true true)
  | .invokeInterface index => falls (invoke m c index false)
  | .invokeSpecial index => falls (invoke m c index false)
  | .invokeStatic index => falls (invoke m c index true)
  | .invokeVirtual index => falls (invoke m c index false)
  | .throwException => do
    popValue .object
    pure .raise
  | .newObject index => falls (newObject m bci index)
  | .newBasicArray _ => falls do
    popValue .int
    pushValue m c .object
  | .newObjectArray _ => falls do
    popValue .int
    pushValue m c .object
  | .newMultiArray _ dims => falls do
    popDimensions dims
    pushValue m c .object
  | .checkCast _ => falls do
    let word ← popWord
    use (word.hasKind .object)
    pushWord m word
  | .instanceOf _ => falls do
    popValue .object
    pushValue m c .int
  | .monitorEnter => falls (popValue .object)
  | .monitorExit => falls (popValue .object)
  | .illegalCode => throw .illegalCode

/-! ## Runs -/

/-- The activation enters a handler: the stack holds the exception. -/
def enterHandler (h : Handler) (exception : ℕ) (s : MState) : MState :=
  { s with
    pc := h.handler, sp := 1, stack := Function.update s.stack 0 (.ref (some exception)) }

/-- One step of an activation. An exception may come from any instruction, with
any object, and be caught by any handler that covers it. -/
inductive Step : MState → MState → Prop
  | next {s s' : MState} (c : Choice) :
      s.pc < m.code.length → exec m c s.pc (m.iterateBytecode s.pc) s = .ok (.fallThrough, s') →
      Step s { s' with pc := s.pc + (m.bytecodeLengthFor s.pc).toNat }
  | jump {s s' : MState} (c : Choice) (dest : ℕ) :
      s.pc < m.code.length → exec m c s.pc (m.iterateBytecode s.pc) s = .ok (.jump dest, s') →
      Step s { s' with pc := dest }
  | exception {s : MState} (h : Handler) (exception : ℕ) :
      s.pc < m.code.length → h ∈ m.exceptionTable → h.start ≤ s.pc → s.pc < h.finish →
      Step s (enterHandler h exception s)

/-- An activation begins with its receiver and its arguments in the first locals;
the other locals hold anything. -/
structure Entry (s : MState) : Prop where
  pc_eq : s.pc = 0
  sp_eq : s.sp = 0
  newest_eq : ∀ bci, s.newest (.created bci) = none
  receiver : m.isStatic = false →
    ∃ object, s.newest .receiver = some object ∧ s.locals 0 = .ref (some object)
  arguments : argumentsFit s.locals (if m.isStatic then 0 else 1) m.params = true

end CldcVm.Interpreter
