import CldcVm.Bytecodes.Data
import CldcVm.Romizer.MergedPool

/-!
# Inlining of short methods

`ROMInliner` (`share/ROM/ROMInliner.cpp`, lines 306–870), in the build of the source image
generator, which has its guarantees and looks for branches to the start of the caller. A call that is
not to be inlined gives no caller; of the caller's own class, the pool and the code of the caller
are changed.

The hash table of the methods that may be inlined (lines 150–257) is given by what `initialize` puts
in; the signatures are lists of types.
-/

namespace CldcVm.RomInliner

open Romizer (Tag FieldType ConstantPool lowHalf highHalf)

/-! ## Bytecodes -/

namespace Op

def nop : ℕ := 0
def pop : ℕ := 87
def ireturn : ℕ := 172
def areturn : ℕ := 176
def return_ : ℕ := 177
def goto_w : ℕ := 200
def fast_1_getstatic : ℕ := 209
def fast_2_getstatic : ℕ := 210
def fast_invokestatic : ℕ := 227
def fast_invokevirtual_final : ℕ := 230
def fast_invokespecial : ℕ := 231
def pop_and_npe_if_null : ℕ := 240
def fast_init_1_getstatic : ℕ := 249
def fast_init_2_getstatic : ℕ := 250
def fast_init_invokestatic : ℕ := 251
def aload_0 : ℕ := 42

end Op

/-- `iload_0` to `aload_3`: the first local and the number of words that are loaded. -/
def loadOf (code : ℕ) : Option (ℕ × ℕ) :=
  if 26 ≤ code ∧ code ≤ 45 then
    some ((code - 26) % 4, if (code - 26) / 4 = 1 ∨ (code - 26) / 4 = 3 then 2 else 1)
  else none

/-- `is_load`. -/
def isLoad (code position : ℕ) : Bool := (loadOf code).map Prod.fst = some position

/-- How a field is read or written: a byte, a signed or an unsigned short, a word or two words. -/
inductive Access
  | byte | short | char | int | long
deriving DecidableEq

/-- The words of a value on the stack. -/
def Access.words : Access → ℕ
  | .long => 2
  | _ => 1

/-- `fast_bgetfield` to `fast_cgetfield`. -/
def getfieldOf (code : ℕ) : Option Access :=
  match code with
  | 218 => some .byte
  | 219 => some .short
  | 220 | 222 | 224 => some .int
  | 221 | 223 => some .long
  | 225 => some .char
  | _ => none

/-- `fast_bputfield` to `fast_aputfield`. -/
def putfieldOf (code : ℕ) : Option Access :=
  match code with
  | 211 => some .byte
  | 212 => some .short
  | 213 | 215 | 217 => some .int
  | 214 | 216 => some .long
  | _ => none

/-- The words that `ireturn` to `return` hand over. -/
def returnOf (code : ℕ) : Option ℕ :=
  match code with
  | 172 | 174 | 176 => some 1
  | 173 | 175 => some 2
  | 177 => some 0
  | _ => none

/-- `fast_1_getstatic` and `fast_2_getstatic`, with or without the check of the class. -/
def getstaticOf (code : ℕ) : Option Access :=
  match code with
  | 209 | 249 => some .int
  | 210 | 250 => some .long
  | _ => none

/-! ## Methods -/

/-- `InstanceClass`. `superclasses` are the ids of the class and of those above it. For a class with
a vanilla constructor, `vanillaStores` are the stores of zero to fields that the constructors of the
classes above it make (`Method::is_vanilla_constructor`): how, and at which offset. -/
structure InstanceClass where
  classId : ℕ
  name : List UInt8
  superclasses : List ℕ
  vanillaStores : Option (List (Access × ℕ))

/-- `has_vanilla_constructor`. -/
def InstanceClass.hasVanillaConstructor (c : InstanceClass) : Bool := c.vanillaStores.isSome

/-- `is_subclass_of`. -/
def InstanceClass.isSubclassOf (c other : InstanceClass) : Bool := other.classId ∈ c.superclasses

/-- `Method`. -/
structure Method where
  code : Code
  isStatic : Bool
  isNativeOrAbstract : Bool
  usesMonitors : Bool
  isDefaultConstructor : Bool
  isFastGetAccessor : Bool
  originalName : List UInt8
  holder : InstanceClass
  parameters : List FieldType
  constants : ConstantPool

/-- `is_two_word`. -/
def isTwoWord (type : FieldType) : Bool := type = .long ∨ type = .double

/-- The types that `SignatureStream` goes through: the receiver comes first. -/
def Method.signatureTypes (m : Method) : List FieldType :=
  if m.isStatic then m.parameters else .object :: m.parameters

/-- `size_of_parameters` and `num_args`, in words. -/
def Method.numArgs (m : Method) : ℕ :=
  (m.signatureTypes.map fun type => if isTwoWord type then 2 else 1).sum

/-- `contains`: the methods that `initialize` has added. -/
def contains (maxLen : ℕ) (m : Method) : Bool :=
  !m.isNativeOrAbstract && !m.usesMonitors && m.code.length < maxLen

/-- `bytecode_at_put_raw`. -/
def putRaw (code : Code) (bci value : ℕ) : Code := code.set bci (UInt8.ofNat value)

/-- Three bytes are put. -/
def Method.putThree (m : Method) (bci b0 b1 b2 : ℕ) : Method :=
  { m with code := putRaw (putRaw (putRaw m.code bci b0) (bci + 1) b1) (bci + 2) b2 }

/-! ## The start of the caller -/

/-- `ifeq` to `goto`, `ifnull` and `ifnonnull`: a branch with an offset of 16 bits. -/
def isShortBranch (code : ℕ) : Bool := (153 ≤ code ∧ code ≤ 167) ∨ code = 198 ∨ code = 199

/-- A case of the switch leads to the start, of `count` offsets that are `stride` apart. -/
def switchReachesZero (code : Code) (bci : ℕ) (start stride : ℕ) (count : ℤ) : Bool :=
  (List.range count.toNat).any fun i =>
    bci + code.getJavaSwitchInt (stride * i + start) = 0

/-- The bytecode is a branch to the start. -/
def branchesToZero (code : Code) (bci : ℕ) : Bool :=
  let op := code.getUbyte bci
  if isShortBranch op then bci + code.getJavaShort (bci + 1) = 0
  else if op = Op.goto_w then bci + code.getJavaInt (bci + 1) = 0
  else if op = Bytecodes.lookupswitch then
    let table := alignSizeUp (bci + 1)
    bci + code.getJavaSwitchInt table = 0 ||
      switchReachesZero code bci (table + 12) 8 (code.getJavaSwitchInt (table + 4))
  else if op = Bytecodes.tableswitch then
    let table := alignSizeUp (bci + 1)
    bci + code.getJavaSwitchInt table = 0 ||
      switchReachesZero code bci (table + 12) 4
        (code.getJavaSwitchInt (table + 8) - code.getJavaSwitchInt (table + 4) + 1)
  else false

/-- The loop of `zero_bci_is_branch_target`; a bytecode without a length ends it. -/
def zeroBciLoop (code : Code) : (fuel : ℕ) → (bci : ℕ) → Bool
  | 0, _ => false
  | fuel + 1, bci =>
    if bci < code.length then
      if branchesToZero code bci then true
      else zeroBciLoop code fuel (Bytecodes.nextBci code bci)
    else false

/-- `zero_bci_is_branch_target`. -/
def zeroBciIsBranchTarget (m : Method) : Bool := zeroBciLoop m.code m.code.length 0

/-! ## Calls without effect -/

/-- The null check is needed. -/
def needNullcheck (caller : Method) (bci : ℕ) : Bool :=
  if !caller.isStatic ∧ bci = 1 ∧ caller.code.getUbyte 0 = Op.aload_0 then
    zeroBciIsBranchTarget caller
  else true

/-- The code that takes the place of byte `i` of the call. -/
def popCode (needNullcheck isStatic : Bool) (numParams i : ℕ) : ℕ :=
  if !isStatic ∧ i + 1 = numParams then
    if needNullcheck then Op.pop_and_npe_if_null else Op.pop
  else if i < numParams then Op.pop
  else Op.nop

/-- `pop_as_needed`. -/
def popAsNeeded (caller callee : Method) (bci : ℕ) : Option Method :=
  let types := callee.signatureTypes
  if 3 < types.length ∨ types.any isTwoWord then none
  else
    let code := popCode (needNullcheck caller bci) callee.isStatic types.length
    some (caller.putThree bci (code 0) (code 1) (code 2))

/-- The callee is empty. -/
def isEmptyMethod (callee : Method) : Bool :=
  callee.code.length = 1 ∧ callee.code.getUbyte 0 = Op.return_

/-- `try_inline_empty_method`. -/
def tryInlineEmptyMethod (caller callee : Method) (bci : ℕ) : Option Method :=
  if isEmptyMethod callee then popAsNeeded caller callee bci else none

/-- The callee is an empty constructor. -/
def isEmptyConstructor (callee : Method) : Bool :=
  let at_ := callee.code.getUbyte
  callee.code.length = 5 ∧ callee.isDefaultConstructor ∧
    ((at_ 0 = Op.aload_0 ∧ at_ 1 = Op.fast_invokevirtual_final ∧ at_ 4 = Op.return_ ∧
        callee.holder.hasVanillaConstructor) ∨
      (at_ 0 = Op.aload_0 ∧ at_ 1 = Op.pop ∧ at_ 2 = Op.nop ∧ at_ 3 = Op.nop ∧
        at_ 4 = Op.return_))

/-- `try_inline_empty_constructor`. -/
def tryInlineEmptyConstructor (caller callee : Method) (bci : ℕ) : Option Method :=
  if isEmptyConstructor callee then popAsNeeded caller callee bci else none

/-! ## Getters and setters -/

/-- The callee is a getter. -/
def isGetter (callee : Method) : Bool :=
  callee.isFastGetAccessor ∧ callee.code.length = 5 ∧ callee.code.getUbyte 0 = Op.aload_0 ∧
    callee.numArgs = 1 ∧ (getfieldOf (callee.code.getUbyte 1)).isSome ∧
    (Op.ireturn ≤ callee.code.getUbyte 4 ∧ callee.code.getUbyte 4 ≤ Op.areturn)

/-- `try_inline_getter`. -/
def tryInlineGetter (caller callee : Method) (bci : ℕ) : Option Method :=
  let at_ := callee.code.getUbyte
  if isGetter callee then some (caller.putThree bci (at_ 1) (at_ 2) (at_ 3)) else none

/-- The callee is a setter. -/
def isSetter (callee : Method) : Bool :=
  let at_ := callee.code.getUbyte
  callee.code.length = 6 ∧ at_ 0 = Op.aload_0 ∧ at_ 5 = Op.return_ ∧ isLoad (at_ 1) 1 ∧
    ∃ access ∈ putfieldOf (at_ 2), callee.numArgs = 1 + access.words

/-- `try_inline_setter`. -/
def tryInlineSetter (caller callee : Method) (bci : ℕ) : Option Method :=
  let at_ := callee.code.getUbyte
  if isSetter callee then some (caller.putThree bci (at_ 2) (at_ 3) (at_ 4)) else none

/-! ## Static getters -/

/-- `needs_name_and_type_entries`. -/
def needsNameAndTypeEntries (cp : ConstantPool) : Bool :=
  (List.range cp.length).any fun i =>
    cp.tagAt i = .fieldref ∨ cp.tagAt i = .methodref ∨ cp.tagAt i = .interfaceMethodref

/-- `resolved_field_at_put`. -/
def resolvedFieldAtPut (cp : ConstantPool) (i : ℕ) (classId offset : BitVec 16) (type : FieldType)
    (isStatic : Bool) : ConstantPool :=
  { cp with
    tagAt := Function.update cp.tagAt i (.resolvedFieldref isStatic type)
    value32At := Function.update cp.value32At i (offset ++ classId) }

/-- The loop of `find_or_add_resolved_field_ref`, from index `i` on. -/
def findOrAddLoop (cp : ConstantPool) (classId offset : BitVec 16) (type : FieldType)
    (isStatic : Bool) : (fuel : ℕ) → (i : ℕ) → Option (ℕ × ConstantPool)
  | 0, _ => none
  | fuel + 1, i =>
    if i < cp.length then
      if cp.tagAt i = .resolvedFieldref isStatic type ∧ highHalf (cp.value32At i) = offset ∧
          lowHalf (cp.value32At i) = classId then some (i, cp)
      else if cp.tagAt i = .long ∨ cp.tagAt i = .double then
        findOrAddLoop cp classId offset type isStatic fuel (i + 2)
      else if cp.tagAt i = .nameAndType ∨ cp.tagAt i = .invalid then
        some (i, resolvedFieldAtPut cp i classId offset type isStatic)
      else findOrAddLoop cp classId offset type isStatic fuel (i + 1)
    else none

/-- `find_or_add_resolved_field_ref`: the index and the pool. -/
def findOrAddResolvedFieldRef (cp : ConstantPool) (classId offset : BitVec 16) (type : FieldType)
    (isStatic : Bool) : Option (ℕ × ConstantPool) :=
  findOrAddLoop cp classId offset type isStatic cp.length 1

/-- The field that a static getter returns, in the pool of the callee: its type and its word. -/
def staticGetterField (callee : Method) : Option (FieldType × BitVec 32) :=
  if callee.code.length = 4 ∧ callee.numArgs = 0 ∧
      (getstaticOf (callee.code.getUbyte 0)).isSome ∧
      (Op.ireturn ≤ callee.code.getUbyte 3 ∧ callee.code.getUbyte 3 ≤ Op.areturn) then
    let index := callee.code.getJavaUshort 1
    match callee.constants.tagAt index with
    | .resolvedFieldref true type =>
      if (lowHalf (callee.constants.value32At index)).toNat = callee.holder.classId then
        some (type, callee.constants.value32At index)
      else none
    | _ => none
  else none

/-- The code that takes the place of the call. -/
def getstaticCode (callCode : ℕ) (type : FieldType) : ℕ :=
  if callCode = Op.fast_invokestatic then
    if isTwoWord type then Op.fast_2_getstatic else Op.fast_1_getstatic
  else
    if isTwoWord type then Op.fast_init_2_getstatic else Op.fast_init_1_getstatic

/-- `try_inline_static_getter`. The guarantee that no reference is left to resolve stops the
generator; then there is no caller either. -/
def tryInlineStaticGetter (caller callee : Method) (bci : ℕ) : Option Method :=
  match staticGetterField callee with
  | none => none
  | some (type, value32) =>
    if needsNameAndTypeEntries caller.constants then none
    else
      match findOrAddResolvedFieldRef caller.constants (lowHalf value32) (highHalf value32) type
          true with
      | none => none
      | some (index, constants) =>
        let code := putRaw caller.code bci (getstaticCode (caller.code.getUbyte bci) type)
        some { caller with
          code := code.putJavaUshort (bci + 1) index
          constants := constants }

/-! ## All calls -/

/-- `is_inner_class_of`. -/
def isInnerClassOf (inner outer : InstanceClass) : Bool :=
  outer.name.length < inner.name.length ∧ inner.name[outer.name.length]? = some 36 ∧
    inner.name.take outer.name.length = outer.name

/-- The bytes of `access$`. -/
def accessPrefix : List UInt8 := [97, 99, 99, 101, 115, 115, 36]

/-- `may_inline_invokestatic`. -/
def mayInlineInvokestatic (caller callee : Method) : Bool :=
  if caller.holder.isSubclassOf callee.holder then true
  else if callee.originalName.length < 8 ∨ callee.originalName.take 7 ≠ accessPrefix then false
  else !caller.isStatic && isInnerClassOf caller.holder callee.holder

/-- The rules that come after that for static getters. -/
def tryInlineOthers (caller callee : Method) (bci : ℕ) : Option Method :=
  (tryInlineEmptyMethod caller callee bci).orElse fun _ =>
    (tryInlineGetter caller callee bci).orElse fun _ =>
      (tryInlineSetter caller callee bci).orElse fun _ =>
        tryInlineEmptyConstructor caller callee bci

/-- `try_inline`. -/
def tryInline (maxLen : ℕ) (caller callee : Method) (bci : ℕ) : Option Method :=
  let callCode := caller.code.getUbyte bci
  if !contains maxLen callee then none
  else if callCode = Op.fast_invokestatic ∨ callCode = Op.fast_init_invokestatic then
    match tryInlineStaticGetter caller callee bci with
    | some caller => some caller
    | none =>
      if mayInlineInvokestatic caller callee then tryInlineOthers caller callee bci else none
  else if callCode = Op.fast_invokespecial ∨ callCode = Op.fast_invokevirtual_final then
    tryInlineOthers caller callee bci
  else none

end CldcVm.RomInliner
