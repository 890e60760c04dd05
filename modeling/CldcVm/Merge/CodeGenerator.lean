import CldcVm.Merge.VirtualFrame

/-!
# Emitting code

Models of the register allocator (`compiler/RegisterAllocator.cpp`, lines 226–340), of
the literals of a frame (`get_literal`, `compiler/VirtualStackFrame.cpp`, lines
2211–2236, and `has_literal`, `cpu/arm/CodeGenerator_arm.cpp`, lines 234–269), of
`mov_imm`, `store_to_location`, `load_from_location` and `move` for ARM, and of the
instructions that these emit.

No value refers to a register when the merge allocates one, so the model has no
reference counts. A slot is in reach of the addressing mode. The target frame has no
annotations: `conformance_entry` has cleared them.
-/

namespace CldcVm.Merge

/-! ## Instructions -/

/-- The shifts of a register operand. -/
inductive Shift
  | asr | lsl | lsr | ror
deriving DecidableEq, Repr

def Shift.apply : Shift → Word → ℕ → Word
  | asr, w, n => w.sshiftRight n
  | lsl, w, n => w <<< n
  | lsr, w, n => w >>> n
  | ror, w, n => w.rotateRight n

/-- `Address1`: a register, shifted. -/
structure Operand where
  register : ℕ
  shift : Shift
  amount : ℕ
deriving DecidableEq, Repr

/-- The instructions of a merge. A constant takes one instruction, two, or a load from
the literal pool. -/
inductive Instr
  | ldr (rd slot : ℕ)
  | str (rs slot : ℕ)
  | mov (rd : ℕ) (operand : Operand)
  | mvn (rd : ℕ) (operand : Operand)
  | constant (rd : ℕ) (imm32 : Word)
deriving DecidableEq, Repr

/-- The registers, and the slots of the frame in memory. -/
structure Machine where
  regs : ℕ → Word
  mem : ℕ → Word

namespace Machine

def setReg (m : Machine) (rd : ℕ) (w : Word) : Machine :=
  { m with regs := Function.update m.regs rd w }

def setMem (m : Machine) (slot : ℕ) (w : Word) : Machine :=
  { m with mem := Function.update m.mem slot w }

def operand (m : Machine) (op : Operand) : Word := op.shift.apply (m.regs op.register) op.amount

/-- What an instruction does. -/
def step (m : Machine) : Instr → Machine
  | .ldr rd slot => m.setReg rd (m.mem slot)
  | .str rs slot => m.setMem slot (m.regs rs)
  | .mov rd op => m.setReg rd (m.operand op)
  | .mvn rd op => m.setReg rd (~~~m.operand op)
  | .constant rd imm32 => m.setReg rd imm32

/-- The execution of a sequence of instructions. -/
def run (m : Machine) (code : List Instr) : Machine := code.foldl step m

end Machine

/-! ## The state of the compiler -/

/-- What a merge does not change: the number of registers, the round robin through the
register table, and the frame to conform to. -/
structure Context where
  numberOfRegisters : ℕ
  order : List ℕ
  other : List RawLocation

/-- The frame, its literals (0 is none), the registers where the allocator goes on, and
the code. -/
structure Gen where
  frame : List RawLocation
  literals : ℕ → Word
  nextAllocate : ℕ
  nextSpill : ℕ
  code : List Instr

/-- The step of a loop over the locations. -/
def forEach (isTwoWord : List RawLocation → ℕ → Bool) (body : ℕ → Gen → Gen) :
    (fuel index : ℕ) → Gen → Gen
  | 0, _, g => g
  | fuel + 1, index, g =>
    if index < g.frame.length then
      forEach isTwoWord body fuel
        (index + if isTwoWord (body index g).frame index then 2 else 1) (body index g)
    else g

namespace Gen

def emit (g : Gen) (instr : Instr) : Gen := { g with code := g.code ++ [instr] }

def setStatus (g : Gen) (index : ℕ) (status : Status) : Gen :=
  { g with frame := Merge.setStatus g.frame index status }

/-- `set_has_literal_value` and `clear_literal`. -/
def setLiteral (g : Gen) (reg : ℕ) (imm32 : Word) : Gen :=
  { g with literals := Function.update g.literals reg imm32 }

/-! ## Flushing -/

/-- `store_to_location` of a value in registers. -/
def storeRegisters (g : Gen) (index : ℕ) : Gen :=
  let lo := g.emit (.str (locationAt g.frame index).getRegister index)
  if isTwoWordAt g.frame index then
    lo.emit (.str (locationAt g.frame (index + 1)).getRegister (index + 1))
  else lo

/-- `flush` of a location in registers. -/
def flushRegisters (g : Gen) (index : ℕ) : Gen :=
  let g' :=
    if (locationAt g.frame index).status = .changed then
      (g.setStatus index .cached).storeRegisters index
    else g
  g'.setStatus index .flushed

/-- `spill_register`. -/
def spillRegister (g : Gen) (reg : ℕ) : Gen :=
  (forEach isTwoWordAt
    (fun index g => if usesRegister g.frame index reg then g.flushRegisters index else g)
    g.frame.length 0 g).setLiteral reg 0

/-! ## The register allocator -/

variable (c : Context)

/-- The registers that a round robin visits from the one after `current` on. -/
def roundRobin (current : ℕ) : List ℕ := c.order.rotate (c.order.idxOf current + 1)

/-- `is_mapping_location`, for the frame and the conforming frame. -/
def isMappingLocation (g : Gen) (reg : ℕ) : Bool :=
  Merge.isMappingLocation g.frame reg || Merge.isMappingLocation c.other reg

/-- `is_annotated`. -/
def isAnnotated (g : Gen) (reg : ℕ) : Bool := g.literals reg != 0

/-- `spill` of a register. -/
def spill (g : Gen) (reg : ℕ) : Gen :=
  if g.isMappingLocation c reg || g.isAnnotated reg then g.spillRegister reg else g

/-- The registers that map no location, in the order of `allocate_or_fail`. -/
def unmapped (g : Gen) : List ℕ :=
  (roundRobin c g.nextAllocate).filter fun reg => !g.isMappingLocation c reg

/-- `allocate_or_fail`: registers with annotations are taken last. -/
def allocateOrFail (g : Gen) : Option (ℕ × Gen) :=
  match (g.unmapped c).find? fun reg => !g.isAnnotated reg with
  | some reg => some (reg, { g with nextAllocate := reg })
  | none =>
    match (g.unmapped c).head? with
    | some reg => some (reg, { g.spill c reg with nextAllocate := reg })
    | none => none

/-- `allocate`: without a free register, the next one is spilled. -/
def allocate (g : Gen) : ℕ × Gen :=
  match g.allocateOrFail c with
  | some found => found
  | none =>
    let reg := (roundRobin c g.nextSpill).headD g.nextSpill
    (reg, { g.spill c reg with nextSpill := reg })

/-! ## Literals -/

/-- The registers that a `LiteralElementStream` visits. -/
def literalRegisters (g : Gen) : List ℕ :=
  (List.range c.numberOfRegisters).filter g.isAnnotated

/-- The inner loop of `has_literal`. -/
def shiftTo (reg : ℕ) (value imm32 : Word) : Option Operand :=
  (List.range' 1 30).findSome? fun i =>
    if value.sshiftRight i = imm32 then some ⟨reg, .asr, i⟩
    else if value <<< i = imm32 then some ⟨reg, .lsl, i⟩
    else if value >>> i = imm32 then some ⟨reg, .lsr, i⟩
    else if value.rotateRight i = imm32 then some ⟨reg, .ror, i⟩
    else none

/-- `has_literal`. -/
def hasLiteral (g : Gen) (imm32 : Word) : Option Operand :=
  match (g.literalRegisters c).find? fun reg => g.literals reg == imm32 with
  | some reg => some ⟨reg, .lsl, 0⟩
  | none => (g.literalRegisters c).findSome? fun reg => shiftTo reg (g.literals reg) imm32

/-- `is_rotated_imm`. -/
def isRotatedImm (x : Word) : Bool :=
  (List.range 16).any fun r => x.rotateLeft (2 * r) &&& 0xffffff00#32 == 0#32

/-- `mov_imm`. -/
def movImm (g : Gen) (rd : ℕ) (imm32 : Word) : Gen :=
  if isRotatedImm imm32 || isRotatedImm (~~~imm32) then g.emit (.constant rd imm32)
  else
    match g.hasLiteral c imm32 with
    | some op => g.emit (.mov rd op)
    | none =>
      match g.hasLiteral c (~~~imm32) with
      | some op => g.emit (.mvn rd op)
      | none => g.emit (.constant rd imm32)

/-- `get_literal`. -/
def getLiteral (g : Gen) (imm32 : Word) : ℕ × Gen :=
  match (g.literalRegisters c).find? fun reg => g.literals reg == imm32 with
  | some reg => (reg, g)
  | none =>
    let found := g.allocate c
    (found.1, (found.2.movImm c found.1 imm32).setLiteral found.1 imm32)

/-! ## Locations -/

/-- The store of a word of an immediate. -/
def storeLiteral (g : Gen) (slot : ℕ) (imm32 : Word) : Gen :=
  let found := g.getLiteral c imm32
  found.2.emit (.str found.1 slot)

/-- `store_to_location` of an immediate. -/
def storeImmediate (g : Gen) (index : ℕ) : Gen :=
  let lo := g.storeLiteral c index (locationAt g.frame index).value
  if isTwoWordAt g.frame index then
    lo.storeLiteral c (index + 1) (locationAt g.frame (index + 1)).value
  else lo

/-- `write_changes`. -/
def writeChanges (g : Gen) (index : ℕ) : Gen :=
  if (locationAt g.frame index).status = .changed then
    match (locationAt g.frame index).place with
    | .nowhere => g.setStatus index .cached
    | .register => (g.setStatus index .cached).storeRegisters index
    | .immediate => (g.setStatus index .cached).storeImmediate c index
  else g

/-- `update_cache` of the location of the other frame. -/
def updateCache (g : Gen) (index : ℕ) : Gen :=
  if (locationAt c.other index).status ≠ .flushed ∧
      (locationAt c.other index).place = .register then
    let lo := g.emit (.ldr (locationAt c.other index).getRegister index)
    if isTwoWordAt c.other index then
      lo.emit (.ldr (locationAt c.other (index + 1)).getRegister (index + 1))
    else lo
  else g

/-- `move` of a register. -/
def moveRegister (g : Gen) (dst src : ℕ) : Gen :=
  if dst = src then g else g.emit (.mov dst ⟨src, .lsl, 0⟩)

/-- `move` of a value in registers to the registers of the other frame. -/
def moveRegisters (g : Gen) (index : ℕ) : Gen :=
  let lo := g.moveRegister (locationAt c.other index).getRegister
    (locationAt g.frame index).getRegister
  if isTwoWordAt c.other index then
    lo.moveRegister (locationAt c.other (index + 1)).getRegister
      (locationAt g.frame (index + 1)).getRegister
  else lo

/-- `move` of an immediate to the registers of the other frame. -/
def moveImmediate (g : Gen) (index : ℕ) : Gen :=
  let reg := (locationAt c.other index).getRegister
  let regHi := (locationAt c.other (index + 1)).getRegister
  let imm32 := (locationAt g.frame index).value
  let imm32Hi := (locationAt g.frame (index + 1)).value
  if isTwoWordAt c.other index then
    (((g.movImm c reg imm32).movImm c regHi imm32Hi).setLiteral reg imm32).setLiteral regHi imm32Hi
  else (g.movImm c reg imm32).setLiteral reg imm32

/-- `move` of the value of the location to that of the other frame. -/
def move (g : Gen) (index : ℕ) : Gen :=
  match (locationAt g.frame index).place with
  | .nowhere => g
  | .immediate => g.moveImmediate c index
  | .register => g.moveRegisters c index

end Gen

end CldcVm.Merge
