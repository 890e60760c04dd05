import CldcVm.Arm.Machine
import CldcVm.Lib.Rotation

/-!
# Operations with a constant

`Macros::arith_imm` (`cpu/arm/Assembler_arm.cpp`, lines 164–254) and what it calls: the search for a
rotated constant (lines 68–78, and `Assembler_arm.hpp`, lines 117–150), the table of the opcodes,
and the splitting of a constant (lines 256–336). The literals are those of
`CompilerLiteralAccessor` (`cpu/arm/CodeGenerator_arm.cpp`, lines 228–269), in a build without
vector registers.
-/

namespace CldcVm.Arm

open Rotation (byte)

/-- `imm_rotate`. -/
def immRotate (imm8 : BitVec 32) (rotate : ℕ) : Address1 := .imm imm8 rotate

/-- `reg`. -/
def reg (rm : Register) : Address1 := .shifted rm .lsl 0

/-! ## Rotated constants -/

/-- The rotations that are tried. -/
def evenRotations : List ℕ := (List.range 16).map (2 * ·)

/-- The loop of `is_rotated_imm_slow`. -/
def rotatedImmLoop (x : BitVec 32) : List ℕ → Option Address1
  | [] => none
  | r :: rs =>
    let y := x.rotateLeft r
    if y &&& 0xFFFFFF00#32 = 0 then some (immRotate y r) else rotatedImmLoop x rs

/-- `is_rotated_imm_slow`. -/
def isRotatedImmSlow (x : BitVec 32) : Option Address1 := rotatedImmLoop x evenRotations

/-- `is_rotated_imm`. -/
def isRotatedImm (x : BitVec 32) : Option Address1 :=
  if x.toNat < 0xFF then some (.imm x 0)
  else if (-x).toNat < 0xFF then none
  else isRotatedImmSlow x

/-! ## The table of the opcodes -/

inductive AltOpcodeType
  | altNone | altNeg | altNot
deriving DecidableEq

structure OpcodeInfo where
  altOpcodeType : AltOpcodeType
  altOpcode : Opcode
  twowordAllowed : Bool
  twowordOpcode : Opcode

/-- `OpcodeInfo::table`; opcode 0 is `andr`. -/
def OpcodeInfo.table : Opcode → OpcodeInfo
  | .andr => ⟨.altNot, .bic, false, .andr⟩
  | .eor => ⟨.altNone, .andr, true, .eor⟩
  | .sub => ⟨.altNeg, .add, true, .sub⟩
  | .rsb => ⟨.altNone, .andr, true, .add⟩
  | .add => ⟨.altNeg, .sub, true, .add⟩
  | .adc => ⟨.altNone, .andr, true, .add⟩
  | .sbc => ⟨.altNone, .andr, true, .sub⟩
  | .rsc => ⟨.altNone, .andr, true, .add⟩
  | .tst => ⟨.altNone, .andr, false, .andr⟩
  | .teq => ⟨.altNone, .andr, false, .andr⟩
  | .cmp => ⟨.altNeg, .cmn, false, .andr⟩
  | .cmn => ⟨.altNeg, .cmp, false, .andr⟩
  | .orr => ⟨.altNone, .andr, true, .orr⟩
  | .mov => ⟨.altNot, .mvn, true, .add⟩
  | .bic => ⟨.altNot, .andr, true, .bic⟩
  | .mvn => ⟨.altNot, .mov, true, .bic⟩

/-- The opcode with the negated or complemented constant, where there is one. -/
def alternative (opcode : Opcode) (imm32 : BitVec 32) : Option (Opcode × BitVec 32) :=
  match (OpcodeInfo.table opcode).altOpcodeType with
  | .altNone => none
  | .altNeg => some ((OpcodeInfo.table opcode).altOpcode, -imm32)
  | .altNot => some ((OpcodeInfo.table opcode).altOpcode, ~~~imm32)

/-! ## Literals -/

/-- `CompilerLiteralAccessor`: the literals that registers are known to hold, zero for none, and the
register that the allocator has for a new one. -/
structure LiteralAccessor where
  literalsMap : Register → BitVec 32
  allocated : Register

/-- The registers that `LiteralElementStream` goes through. -/
def LiteralAccessor.registers (la : LiteralAccessor) : List Register :=
  (List.finRange 16).filter fun r => la.literalsMap r ≠ 0

/-- The shifts of a value by `i` that `has_literal` compares with the constant. -/
def shiftTo (imm32 value : BitVec 32) (rd : Register) (i : ℕ) : Option Address1 :=
  if value.sshiftRight i = imm32 then some (.shifted rd .asr i)
  else if value <<< i = imm32 then some (.shifted rd .lsl i)
  else if value >>> i = imm32 then some (.shifted rd .lsr i)
  else if value.rotateRight i = imm32 then some (.shifted rd .ror i)
  else none

/-- `has_literal`. -/
def LiteralAccessor.hasLiteral (la : LiteralAccessor) (imm32 : BitVec 32) : Option Address1 :=
  match la.registers.find? fun r => la.literalsMap r = imm32 with
  | some r => some (reg r)
  | none => la.registers.findSome? fun r =>
      (List.range' 1 30).findSome? (shiftTo imm32 (la.literalsMap r) r)

/-! ## Splitting -/

/-- Why there is no code: the end of the function has been reached, an assertion fails, or a loop
has not ended. -/
inductive Failure
  | shouldNotReachHere | guarantee | outOfFuel
deriving DecidableEq

/-- The inner loop of `is_twoword_immediate`: the other piece with its rotation, or none. -/
def otherPiece : (fuel : ℕ) → (x s : BitVec 32) → Except Failure (Option (BitVec 32 × BitVec 32))
  | 0, _, _ => .error .outOfFuel
  | fuel + 1, x, s =>
    if x.toNat ≤ 0xFF then .ok (some (x, s))
    else if x &&& 3 ≠ 0 then .ok none
    else otherPiece fuel (x >>> 2) (s - 2)

/-- The outer loop. -/
def twowordLoop (imm32 : BitVec 32) : List ℕ → Except Failure (Option (Address1 × Address1))
  | [] => .ok none
  | r :: rs =>
    let y := imm32.rotateLeft r
    if y &&& 3 ≠ 0 ∧ y &&& 0xFF000000#32 = 0 then
      match otherPiece 16 (y >>> 8) (BitVec.ofNat 32 r - 8) with
      | .error e => .error e
      | .ok none => .ok none
      | .ok (some (x, s)) => .ok (some (immRotate (byte y) r, immRotate x (s &&& 30#32).toNat))
    else twowordLoop imm32 rs

/-- `is_twoword_immediate`. -/
def isTwowordImmediate (imm32 : BitVec 32) : Except Failure (Option (Address1 × Address1)) :=
  if imm32.toNat < 0x10000 then
    .ok (some (immRotate (byte imm32) 0, immRotate (imm32 >>> 8) 24))
  else twowordLoop imm32 evenRotations

/-- `arith2_imm`. -/
def arith2Imm (opcode : Opcode) (rd rn : Register) (imm32 : BitVec 32) (s : CCMode)
    (cond : Condition) : Except Failure (Option (List Instr)) :=
  match isTwowordImmediate imm32 with
  | .error e => .error e
  | .ok none => .ok none
  | .ok (some (result1, result2)) =>
    .ok (some [.arith opcode rd rn result1 .noCC cond,
      .arith (OpcodeInfo.table opcode).twowordOpcode rd rd result2 s cond])

/-- The inner loop of `arith4_imm`, which drops pairs of zeros. -/
def dropZeros : (fuel : ℕ) → (y : BitVec 32) → (rotate : ℕ) → Except Failure (BitVec 32 × ℕ)
  | 0, _, _ => .error .outOfFuel
  | fuel + 1, y, rotate =>
    if y &&& 3 = 0 then dropZeros fuel (y >>> 2) (rotate - 2) else .ok (y, rotate)

/-- The loop of `arith4_imm`. -/
def arith4Loop (opcode2 : Opcode) (rd : Register) (s : CCMode) (cond : Condition) :
    (fuel : ℕ) → (opcode : Opcode) → (rn : Register) → (y : BitVec 32) → (rotate : ℕ) →
      Except Failure (List Instr)
  | 0, _, _, _, _ => .error .outOfFuel
  | fuel + 1, opcode, rn, y, rotate =>
    if y = 0 then .error .guarantee
    else
      match dropZeros 17 y rotate with
      | .error e => .error e
      | .ok (y, rotate) =>
        if byte y = y then .ok [.arith opcode rd rn (immRotate y (rotate &&& 30)) s cond]
        else
          match arith4Loop opcode2 rd s cond fuel opcode2 rd (y >>> 8) (rotate - 8) with
          | .error e => .error e
          | .ok code =>
            .ok (.arith opcode rd rn (immRotate (byte y) (rotate &&& 30)) .noCC cond :: code)

/-- `arith4_imm`. -/
def arith4Imm (opcode : Opcode) (rd rn : Register) (imm32 : BitVec 32) (s : CCMode)
    (cond : Condition) : Except Failure (List Instr) :=
  arith4Loop (OpcodeInfo.table opcode).twowordOpcode rd s cond 4 opcode rn imm32 32

/-! ## `arith_imm` -/

/-- The part with one instruction (lines 167–195): the constant or its alternative is rotated, or
a literal. -/
def singleImm (opcode : Opcode) (rd rn : Register) (imm32 : BitVec 32) (la : Option LiteralAccessor)
    (s : CCMode) (cond : Condition) : Option Instr :=
  match isRotatedImm imm32 with
  | some result => some (.arith opcode rd rn result s cond)
  | none =>
    match (alternative opcode imm32).bind fun alt => (isRotatedImm alt.2).map (alt.1, ·) with
    | some (altOpcode, result) => some (.arith altOpcode rd rn result s cond)
    | none =>
      match la.bind fun la => la.hasLiteral imm32 with
      | some result => some (.arith opcode rd rn result s cond)
      | none =>
        match (alternative opcode imm32).bind fun alt =>
            (la.bind fun la => la.hasLiteral alt.2).map (alt.1, ·) with
        | some (altOpcode, result) => some (.arith altOpcode rd rn result s cond)
        | none => none

/-- The constant may be split: not for the program counter, and not where the carry and overflow
flags of an arithmetic operation would be others. -/
def maySplit (opcode : Opcode) (rd : Register) (s : CCMode) : Bool :=
  rd ≠ pc ∧ (s = .noCC ∨ opcode.code ≤ Opcode.eor.code ∨ Opcode.orr.code ≤ opcode.code)

/-- `arith2_imm`, where the table allows two instructions. -/
def allowedTwoword (opcode : Opcode) (rd rn : Register) (imm32 : BitVec 32) (s : CCMode)
    (cond : Condition) : Except Failure (Option (List Instr)) :=
  if (OpcodeInfo.table opcode).twowordAllowed then arith2Imm opcode rd rn imm32 s cond
  else .ok none

/-- The part with two instructions (lines 199–217). -/
def splitImm (opcode : Opcode) (rd rn : Register) (imm32 : BitVec 32) (s : CCMode)
    (cond : Condition) : Except Failure (Option (List Instr)) :=
  if maySplit opcode rd s then
    match allowedTwoword opcode rd rn imm32 s cond with
    | .error e => .error e
    | .ok (some code) => .ok (some code)
    | .ok none =>
      match alternative opcode imm32 with
      | some (altOpcode, altImm32) => allowedTwoword altOpcode rd rn altImm32 s cond
      | none => .ok none
  else .ok none

/-- The last part (lines 238–251). -/
def desperateImm (opcode : Opcode) (rd rn : Register) (imm32 : BitVec 32) (s : CCMode)
    (cond : Condition) : Except Failure (List Instr) :=
  if maySplit opcode rd s then
    if (OpcodeInfo.table opcode).twowordAllowed then arith4Imm opcode rd rn imm32 s cond
    else
      match alternative opcode imm32 with
      | some (altOpcode, altImm32) =>
        if (OpcodeInfo.table altOpcode).twowordAllowed then
          arith4Imm altOpcode rd rn altImm32 s cond
        else .error .shouldNotReachHere
      | none => .error .shouldNotReachHere
  else .error .shouldNotReachHere

/-- `arith_imm`, where `getLiteral` is that of the accessor: the code it emits, and the register
that holds the constant then. -/
def arithImmWith (getLiteral : LiteralAccessor → Except Failure (List Instr × Register))
    (opcode : Opcode) (rd rn : Register) (imm32 : BitVec 32) (la : Option LiteralAccessor)
    (s : CCMode) (cond : Condition) : Except Failure (List Instr) :=
  match singleImm opcode rd rn imm32 la s cond with
  | some instr => .ok [instr]
  | none =>
    match splitImm opcode rd rn imm32 s cond with
    | .error e => .error e
    | .ok (some code) => .ok code
    | .ok none =>
      if opcode = .eor ∧ imm32 = -1 then .ok [.arith .mvn rd sbz (reg rn) s cond]
      else if opcode = .mov then .ok [.ldrLiteral rd imm32 cond]
      else
        match la with
        | some la =>
          match getLiteral la with
          | .error e => .error e
          | .ok (code, tmp) =>
            if rn = tmp then .error .guarantee
            else .ok (code ++ [.arith opcode rd rn (reg tmp) s cond])
        | none => desperateImm opcode rd rn imm32 s cond

/-- `mov_imm`, which does not come to get a literal. -/
def movImm (rd : Register) (imm32 : BitVec 32) (la : Option LiteralAccessor) (s : CCMode)
    (cond : Condition) : Except Failure (List Instr) :=
  arithImmWith (fun _ => .error .shouldNotReachHere) .mov rd sbz imm32 la s cond

/-- `get_literal` (`share/compiler/VirtualStackFrame.cpp`, lines 2211–2234). -/
def getLiteral (imm32 : BitVec 32) (la : LiteralAccessor) :
    Except Failure (List Instr × Register) :=
  match la.registers.find? fun r => la.literalsMap r = imm32 with
  | some r => .ok ([], r)
  | none =>
    match movImm la.allocated imm32 (some la) .noCC .al with
    | .error e => .error e
    | .ok code => .ok (code, la.allocated)

/-- `arith_imm`. -/
def arithImm (opcode : Opcode) (rd rn : Register) (imm32 : BitVec 32) (la : Option LiteralAccessor)
    (s : CCMode) (cond : Condition) : Except Failure (List Instr) :=
  arithImmWith (getLiteral imm32) opcode rd rn imm32 la s cond

end CldcVm.Arm
