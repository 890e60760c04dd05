import CldcVm.Verifier.Method

/-!
# The bytecode iterator

`Method::iterate_bytecode` (`handles/Method.cpp`, lines 1358–2183) decodes the
instruction at a `bci` and calls one member of a `BytecodeClosure`
(`compiler/BytecodeClosure.hpp`). An `Op` is such a call with its arguments;
the verifier, the stack map generator and the machine below are three readings
of the same `Op`.
-/

namespace CldcVm.Verifier

/-- The calls of `BytecodeClosure` that Java codes lead to. Values that no
reading looks at (constants, offsets of `iinc`, the condition of a branch
beyond the kind of its operand, the operator of `binary` beyond being a
shift) are left out. -/
inductive Op
  | pushInt | pushLong | pushFloat | pushDouble
  | pushObj (isNull : Bool)
  | loadLocal (kind : BasicType) (index : ℕ)
  | storeLocal (kind : BasicType) (index : ℕ)
  | incrementLocalInt (index : ℕ)
  | arrayLength
  | loadArray (kind : BasicType)
  | storeArray (kind : BasicType)
  | nop | pop | pop2 | dup | dup2 | dupX1 | dup2X1 | dupX2 | dup2X2 | swap
  | neg (kind : BasicType)
  | binary (kind : BasicType) (isShift : Bool)
  | convert (source target : BasicType)
  | compare (kind : BasicType)
  | branchIf (isRef : Bool) (dest : ℤ)
  | branchIfIcmp (dest : ℤ)
  | branchIfAcmp (dest : ℤ)
  | branch (dest : ℤ)
  | returnOp (kind : BasicType)
  | tableSwitch (defaultDest : ℤ) (dests : List ℤ)
  | lookupSwitch (defaultDest : ℤ) (pairs : List (ℤ × ℤ))
  | getField (index : ℕ)
  | putField (index : ℕ)
  | getStatic (index : ℕ)
  | putStatic (index : ℕ)
  | invokeInterface (index : ℕ)
  | invokeSpecial (index : ℕ)
  | invokeStatic (index : ℕ)
  | invokeVirtual (index : ℕ)
  | throwException
  | newObject (index : ℕ)
  | newBasicArray (type : ℕ)
  | newObjectArray (index : ℕ)
  | newMultiArray (index dims : ℕ)
  | checkCast (index : ℕ)
  | instanceOf (index : ℕ)
  | monitorEnter | monitorExit
  | illegalCode
deriving DecidableEq, Repr

/-- `array_op_types`. -/
def arrayOpTypes : List BasicType :=
  [.int, .long, .float, .double, .object, .byte, .char, .short]

/-- `local_op_types`; `return_op` and the arithmetic codes follow the same
order. -/
def localOpTypes : List BasicType := [.int, .long, .float, .double, .object]

/-- `convert_op_types`. -/
def convertOpTypes : List (BasicType × BasicType) :=
  [(.int, .long), (.int, .float), (.int, .double), (.long, .int), (.long, .float),
    (.long, .double), (.float, .int), (.float, .long), (.float, .double), (.double, .int),
    (.double, .long), (.double, .float), (.int, .byte), (.int, .char), (.int, .short)]

/-- The types of `lcmp`, `fcmpl`, `fcmpg`, `dcmpl`, `dcmpg`. -/
def compareOpTypes : List BasicType := [.long, .float, .float, .double, .double]

namespace Method

/-- `iterate_push_constant_1` (lines 1319–1340). -/
def iteratePushConstant1 (m : Method) (i : ℕ) : Op :=
  match m.constants[i]? with
  | some .integer => .pushInt
  | some .float => .pushFloat
  | some .string => .pushObj false
  | _ => .illegalCode

/-- `iterate_push_constant_2` (lines 1342–1357). -/
def iteratePushConstant2 (m : Method) (i : ℕ) : Op :=
  if i + 1 ≥ m.constants.length then .illegalCode
  else
    match m.constants[i]? with
    | some .long => .pushLong
    | some .double => .pushDouble
    | _ => .illegalCode

/-- `branch_destination(bci)`. -/
def branchDestination (m : Method) (bci : ℕ) : ℤ := bci + m.code.getJavaShort (bci + 1)

/-- The destinations of a `tableswitch`, in the order `table_switch` reads
them. -/
def tableDests (m : Method) (bci tableIndex : ℕ) (low high : ℤ) : List ℤ :=
  (List.range (jint (high - low) + 1).toNat).map fun i =>
    jint (bci + m.code.getJavaSwitchInt (tableIndex + 12 + 4 * i))

/-- The keys and destinations of a `lookupswitch`. -/
def lookupPairs (m : Method) (bci tableIndex : ℕ) (numOfPairs : ℤ) : List (ℤ × ℤ) :=
  (List.range numOfPairs.toNat).map fun i =>
    (m.code.getJavaSwitchInt (tableIndex + 8 + 8 * i),
      jint (bci + m.code.getJavaSwitchInt (tableIndex + 12 + 8 * i)))

/-- The case `_wide`, lines 2118–2166. -/
def iterateWide (m : Method) (bci : ℕ) : Op :=
  let code := m.code.getUbyte (bci + 1)
  let index := m.code.getJavaUshort (bci + 2)
  if code = 0x84 then .incrementLocalInt index
  else if 0x15 ≤ code ∧ code ≤ 0x19 then .loadLocal (localOpTypes.getD (code - 0x15) .void) index
  else if 0x36 ≤ code ∧ code ≤ 0x3a then .storeLocal (localOpTypes.getD (code - 0x36) .void) index
  else .illegalCode

/-- `iterate_bytecode(bci)`: the call for the instruction at `bci`. A code from
`breakpoint` on is not a Java code: `check_bytecodes` refuses it. -/
def iterateBytecode (m : Method) (bci : ℕ) : Op :=
  let code := m.code.getUbyte bci
  let ubyte := m.code.getUbyte (bci + 1)
  let ushort := m.code.getJavaUshort (bci + 1)
  let dest := m.branchDestination bci
  let table := alignSizeUp (bci + 1)
  if code = 0x00 then .nop
  else if code = 0x01 then .pushObj true
  else if code ≤ 0x08 then .pushInt                     -- iconst_m1 … iconst_5
  else if code ≤ 0x0a then .pushLong                    -- lconst_0, lconst_1
  else if code ≤ 0x0d then .pushFloat                   -- fconst_0 … fconst_2
  else if code ≤ 0x0f then .pushDouble                  -- dconst_0, dconst_1
  else if code ≤ 0x11 then .pushInt                     -- bipush, sipush
  else if code = 0x12 then m.iteratePushConstant1 ubyte -- ldc
  else if code = 0x13 then m.iteratePushConstant1 ushort -- ldc_w
  else if code = 0x14 then m.iteratePushConstant2 ushort -- ldc2_w
  else if code ≤ 0x19 then .loadLocal (localOpTypes.getD (code - 0x15) .void) ubyte
  else if code ≤ 0x2d then
    .loadLocal (localOpTypes.getD ((code - 0x1a) / 4) .void) ((code - 0x1a) % 4)
  else if code ≤ 0x35 then .loadArray (arrayOpTypes.getD (code - 0x2e) .void)
  else if code ≤ 0x3a then .storeLocal (localOpTypes.getD (code - 0x36) .void) ubyte
  else if code ≤ 0x4e then
    .storeLocal (localOpTypes.getD ((code - 0x3b) / 4) .void) ((code - 0x3b) % 4)
  else if code ≤ 0x56 then .storeArray (arrayOpTypes.getD (code - 0x4f) .void)
  else if code = 0x57 then .pop
  else if code = 0x58 then .pop2
  else if code = 0x59 then .dup
  else if code = 0x5a then .dupX1
  else if code = 0x5b then .dupX2
  else if code = 0x5c then .dup2
  else if code = 0x5d then .dup2X1
  else if code = 0x5e then .dup2X2
  else if code = 0x5f then .swap
  else if code ≤ 0x73 then .binary (localOpTypes.getD ((code - 0x60) % 4) .void) false
  else if code ≤ 0x77 then .neg (localOpTypes.getD (code - 0x74) .void)
  else if code ≤ 0x7d then .binary (localOpTypes.getD (code % 2) .void) true
  else if code ≤ 0x83 then .binary (localOpTypes.getD (code % 2) .void) false
  else if code = 0x84 then .incrementLocalInt ubyte
  else if code ≤ 0x93 then
    let types := convertOpTypes.getD (code - 0x85) (.void, .void)
    .convert types.1 types.2
  else if code ≤ 0x98 then .compare (compareOpTypes.getD (code - 0x94) .void)
  else if code ≤ 0x9e then .branchIf false dest
  else if code ≤ 0xa4 then .branchIfIcmp dest
  else if code ≤ 0xa6 then .branchIfAcmp dest
  else if code = 0xa7 then .branch dest
  else if code ≤ 0xa9 then .illegalCode                 -- jsr, ret
  else if code = 0xaa then
    .tableSwitch (jint (bci + m.code.getJavaSwitchInt table))
      (m.tableDests bci table (m.code.getJavaSwitchInt (table + 4))
        (m.code.getJavaSwitchInt (table + 8)))
  else if code = 0xab then
    .lookupSwitch (jint (bci + m.code.getJavaSwitchInt table))
      (m.lookupPairs bci table (m.code.getJavaSwitchInt (table + 4)))
  else if code ≤ 0xb0 then .returnOp (localOpTypes.getD (code - 0xac) .void)
  else if code = 0xb1 then .returnOp .void
  else if code = 0xb2 then .getStatic ushort
  else if code = 0xb3 then .putStatic ushort
  else if code = 0xb4 then .getField ushort
  else if code = 0xb5 then .putField ushort
  else if code = 0xb6 then .invokeVirtual ushort
  else if code = 0xb7 then .invokeSpecial ushort
  else if code = 0xb8 then .invokeStatic ushort
  else if code = 0xb9 then .invokeInterface ushort
  else if code = 0xba then .illegalCode                 -- xxxunusedxxx
  else if code = 0xbb then .newObject ushort
  else if code = 0xbc then .newBasicArray ubyte
  else if code = 0xbd then .newObjectArray ushort
  else if code = 0xbe then .arrayLength
  else if code = 0xbf then .throwException
  else if code = 0xc0 then .checkCast ushort
  else if code = 0xc1 then .instanceOf ushort
  else if code = 0xc2 then .monitorEnter
  else if code = 0xc3 then .monitorExit
  else if code = 0xc4 then m.iterateWide bci
  else if code = 0xc5 then .newMultiArray ushort (m.code.getUbyte (bci + 3))
  else if code ≤ 0xc7 then .branchIf true dest          -- ifnull, ifnonnull
  else if code = 0xc8 then .branch (jint (bci + m.code.getJavaInt (bci + 1)))
  else .illegalCode

end Method

end CldcVm.Verifier
