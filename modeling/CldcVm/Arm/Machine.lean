import Mathlib.Data.BitVec

/-!
# Data-processing instructions

The data-processing instructions of the ARM: sixteen opcodes, a shifter operand, a condition, and
whether the flags are set; and the load of a literal. The word of an instruction has the fields that
`Assembler::arith` (`cpu/arm/Assembler_arm.hpp`, lines 298–305) puts together. A comparison is one
of these instructions where it sets the flags. The processor has no saved status: an instruction that
writes `pc` and sets the flags sets them as every other one does.
-/

namespace CldcVm.Arm

/-- `Assembler::Opcode`. -/
inductive Opcode
  | andr | eor | sub | rsb | add | adc | sbc | rsc | tst | teq | cmp | cmn | orr | mov | bic | mvn
deriving DecidableEq

/-- The number of an opcode. -/
def Opcode.code : Opcode → ℕ
  | andr => 0
  | eor => 1
  | sub => 2
  | rsb => 3
  | add => 4
  | adc => 5
  | sbc => 6
  | rsc => 7
  | tst => 8
  | teq => 9
  | cmp => 10
  | cmn => 11
  | orr => 12
  | mov => 13
  | bic => 14
  | mvn => 15

/-- The comparisons and tests, which have no destination. -/
def Opcode.isCompare : Opcode → Bool
  | tst | teq | cmp | cmn => true
  | _ => false

/-- `Assembler::Condition`, without `nv`, which later processors do not have. -/
inductive Condition
  | eq | ne | cs | cc | mi | pl | vs | vc | hi | ls | ge | lt | gt | le | al
deriving DecidableEq

/-- `Assembler::CCMode`. -/
inductive CCMode
  | noCC | setCC
deriving DecidableEq

abbrev Register := Fin 16

/-- The program counter. -/
def pc : Register := 15

/-- `sbz`: the field is zero. -/
def sbz : Register := 0

inductive Shift
  | lsl | lsr | asr | ror
deriving DecidableEq

/-- `Assembler::Address1`: a constant of eight bits, rotated to the right, or a register, shifted
by a constant. -/
inductive Address1
  | imm (imm8 : BitVec 32) (rotate : ℕ)
  | shifted (rm : Register) (shift : Shift) (amount : ℕ)
deriving DecidableEq

/-- The constant fits its eight bits, and the rotation is even and fits five. -/
def Address1.Legal : Address1 → Prop
  | imm imm8 rotate => imm8.toNat < 256 ∧ rotate < 32 ∧ rotate % 2 = 0
  | shifted _ _ amount => amount < 32

inductive Instr
  | arith (opcode : Opcode) (rd rn : Register) (operand : Address1) (s : CCMode) (cond : Condition)
  | ldrLiteral (rd : Register) (imm32 : BitVec 32) (cond : Condition)
deriving DecidableEq

/-- The operand of the instruction can be encoded. -/
def Instr.Legal : Instr → Prop
  | arith _ _ _ operand _ _ => operand.Legal
  | ldrLiteral _ _ _ => True

/-! ## Execution -/

/-- The registers and the flags. A jump is a value that has been put in `pc`. -/
structure Machine where
  regs : Register → BitVec 32
  n : Bool
  z : Bool
  c : Bool
  v : Bool

/-- The condition holds. -/
def Condition.holds (st : Machine) : Condition → Bool
  | eq => st.z
  | ne => !st.z
  | cs => st.c
  | cc => !st.c
  | mi => st.n
  | pl => !st.n
  | vs => st.v
  | vc => !st.v
  | hi => st.c && !st.z
  | ls => !st.c || st.z
  | ge => st.n == st.v
  | lt => st.n != st.v
  | gt => !st.z && st.n == st.v
  | le => st.z || st.n != st.v
  | al => true

/-- A register shifted; a right shift by zero stands for one by 32, a rotation by zero for the
rotation of one bit through the carry. -/
def Shift.apply (x : BitVec 32) (amount : ℕ) (carry : Bool) : Shift → BitVec 32
  | lsl => x <<< amount
  | lsr => if amount = 0 then 0 else x >>> amount
  | asr => x.sshiftRight (if amount = 0 then 32 else amount)
  | ror =>
    if amount = 0 then (x >>> 1) ||| (if carry then 0x80000000#32 else 0) else x.rotateRight amount

/-- The bit that a shift moves out last. -/
def Shift.carryOut (x : BitVec 32) (amount : ℕ) (carry : Bool) : Shift → Bool
  | lsl => if amount = 0 then carry else x.getLsbD (32 - amount)
  | lsr | asr => if amount = 0 then x.msb else x.getLsbD (amount - 1)
  | ror => if amount = 0 then x.getLsbD 0 else x.getLsbD (amount - 1)

def Address1.value (st : Machine) : Address1 → BitVec 32
  | imm imm8 rotate => imm8.rotateRight rotate
  | shifted rm shift amount => shift.apply (st.regs rm) amount st.c

def Address1.carryOut (st : Machine) : Address1 → Bool
  | imm imm8 rotate => if rotate = 0 then st.c else (imm8.rotateRight rotate).msb
  | shifted rm shift amount => shift.carryOut (st.regs rm) amount st.c

/-- The carry as a number. -/
def carryIn (c : Bool) : BitVec 32 := if c then 1 else 0

/-- What the opcode computes. -/
def Opcode.result (rn operand : BitVec 32) (c : Bool) : Opcode → BitVec 32
  | andr | tst => rn &&& operand
  | eor | teq => rn ^^^ operand
  | sub | cmp => rn - operand
  | rsb => operand - rn
  | add | cmn => rn + operand
  | adc => rn + operand + carryIn c
  | sbc => rn - operand - carryIn (!c)
  | rsc => operand - rn - carryIn (!c)
  | orr => rn ||| operand
  | mov => operand
  | bic => rn &&& ~~~operand
  | mvn => ~~~operand

/-- The sum that an arithmetic opcode forms, with the carry into it. -/
def Opcode.sum (rn operand : BitVec 32) (c : Bool) : Opcode → Option (BitVec 32 × BitVec 32 × Bool)
  | sub | cmp => some (rn, ~~~operand, true)
  | rsb => some (operand, ~~~rn, true)
  | add | cmn => some (rn, operand, false)
  | adc => some (rn, operand, c)
  | sbc => some (rn, ~~~operand, c)
  | rsc => some (operand, ~~~rn, c)
  | _ => none

/-- The carry and overflow flags: those of the sum, or the carry out of the shifter. -/
def Opcode.carryOverflow (rn operand : BitVec 32) (shifter : Bool) (st : Machine) (op : Opcode) :
    Bool × Bool :=
  match op.sum rn operand st.c with
  | none => (shifter, st.v)
  | some (x, y, c) =>
    (decide (2 ^ 32 ≤ x.toNat + y.toNat + c.toNat),
      decide ((x + y + carryIn c).toInt ≠ x.toInt + y.toInt + c.toNat))

def Instr.exec (st : Machine) : Instr → Machine
  | arith opcode rd rn operand s cond =>
    if cond.holds st then
      let value := operand.value st
      let result := opcode.result (st.regs rn) value st.c
      let regs := if opcode.isCompare then st.regs else Function.update st.regs rd result
      let flags := opcode.carryOverflow (st.regs rn) value (operand.carryOut st) st
      match s with
      | .noCC => { st with regs := regs }
      | .setCC => ⟨regs, result.msb, result == 0, flags.1, flags.2⟩
    else st
  | ldrLiteral rd imm32 cond =>
    if cond.holds st then { st with regs := Function.update st.regs rd imm32 } else st

/-- The instructions one after the other. -/
def run (code : List Instr) (st : Machine) : Machine := code.foldl Instr.exec st

end CldcVm.Arm
