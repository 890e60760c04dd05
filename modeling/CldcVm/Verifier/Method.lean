import CldcVm.Bytecodes.Data

/-!
# The method the verifier sees

The stack map tags (`runtime/StackMapDefinitions.hpp`), the recorded stack maps
as `ClassFileParser::parse_stackmaps` leaves them, the constant pool entries,
the exception table and the signature of a method.

What the verifier asks of other classes (subtyping, protected access, the
element types of arrays) are questions to the class environment `ClassEnv`; the
results of this directory hold for every environment.
-/

namespace CldcVm.Verifier

/-- The name of a class or member. -/
abbrev Symbol := String

/-- `BasicType` (`utilities/GlobalDefinitions.hpp`, lines 954–969), without the
values no bytecode has. -/
inductive BasicType
  | boolean | char | float | double | byte | short | int | long | object | array | void
deriving DecidableEq, Repr

/-- The type of a field, a parameter or a result, as `FieldType` and
`SignatureStream` deliver it. The name of an array class is its signature. -/
inductive JavaType
  | boolean | char | float | double | byte | short | int | long
  | object (klass : Symbol)
  | array (name : Symbol)
deriving DecidableEq, Repr

namespace JavaType

def basicType : JavaType → BasicType
  | boolean => .boolean
  | char => .char
  | float => .float
  | double => .double
  | byte => .byte
  | short => .short
  | int => .int
  | long => .long
  | object _ => .object
  | array _ => .array

/-- `word_size_for(type)`. -/
def wordSize : JavaType → ℕ
  | long => 2
  | double => 2
  | _ => 1

end JavaType

/-- `Signature::return_type`: a method may return nothing. -/
def returnBasicType : Option JavaType → BasicType
  | some t => t.basicType
  | none => .void

/-- `Signature::parameter_word_size(true)`. -/
def parameterWordSize (params : List JavaType) : ℕ := (params.map JavaType.wordSize).sum

/-! ## Stack maps -/

/-- `StackMapKind`; `newObject b` is `ENCODE_NEWOBJECT(b)`. -/
inductive StackMapKind
  | bogus | integer | float | double | long | null | initObject | object
  | newObject (bci : ℕ)
  | long2 | double2
deriving DecidableEq, Repr

/-- `IS_TAG_TYPE_FOR_NEW_OBJECT`. -/
def StackMapKind.isNewObject : StackMapKind → Bool
  | newObject _ => true
  | _ => false

/-- A slot of the verifier's stack or locals: its tag and its class. -/
structure Slot where
  tag : StackMapKind
  klass : Option Symbol
deriving DecidableEq, Repr

/-- A verification type of the `StackMap` attribute. -/
inductive VerificationType
  | bogus | integer | float | double | long | null | initObject
  | object (klass : Symbol)
  | newObject (bci : ℕ)
deriving DecidableEq, Repr

/-- The slots `parse_stackmaps` writes for one verification type
(`runtime/ClassFileParser.cpp`, lines 782–817): a `Long` or `Double` takes
a second slot. -/
def VerificationType.slots : VerificationType → List Slot
  | bogus => [⟨.bogus, none⟩]
  | integer => [⟨.integer, none⟩]
  | float => [⟨.float, none⟩]
  | double => [⟨.double, none⟩, ⟨.double2, none⟩]
  | long => [⟨.long, none⟩, ⟨.long2, none⟩]
  | null => [⟨.null, none⟩]
  | initObject => [⟨.initObject, none⟩]
  | object klass => [⟨.object, some klass⟩]
  | newObject bci => [⟨.newObject bci, none⟩]

/-- The slots of a list of verification types. -/
def slotsOf (types : List VerificationType) : List Slot := types.flatMap VerificationType.slots

/-- A recorded stack map. -/
structure StackMap where
  offset : ℕ
  locals : List VerificationType
  stack : List VerificationType
deriving DecidableEq, Repr

namespace StackMap

/-- The words from `stackmap_scalars[2]` on. -/
def localSlots (map : StackMap) : List Slot := slotsOf map.locals

/-- The words from `stackmap_scalars[nlocals + 3]` on. -/
def stackSlots (map : StackMap) : List Slot := slotsOf map.stack

end StackMap

/-! ## The method -/

/-- A constant pool entry, as far as the verifier looks into it. -/
inductive CpEntry
  | integer | float | long | double | string
  | klass (name : Symbol)
  | field (klass name : Symbol) (type : JavaType)
  | method (klass name : Symbol) (params : List JavaType) (ret : Option JavaType)
  | other
deriving DecidableEq, Repr

/-- A 4-tuple of the exception table. -/
structure Handler where
  start : ℕ
  finish : ℕ
  handler : ℕ
  catchType : ℕ
deriving DecidableEq, Repr

/-- The answers of the class hierarchy. An answer that ends in an exception is
a rejection in every caller, so `false` or `none` stands for it. -/
structure ClassEnv where
  /-- `compute_is_subtype_of` after its two shortcuts. -/
  isSubtype : Symbol → Symbol → Bool
  /-- `is_array_name`. -/
  isArrayName : Symbol → Bool
  /-- The element type where the name is that of a type array. -/
  typeArrayElement : Symbol → Option BasicType
  /-- `reference_array_element_name`. -/
  referenceArrayElementName : Symbol → Option Symbol
  /-- The number of dimensions of an array type name. -/
  arrayDimensions : Symbol → ℕ
  /-- `TypeSymbol::obj_array_class_name`. -/
  objArrayClassName : Symbol → Symbol
  /-- The class name of the type array with the element type. -/
  typeArrayClassName : ℕ → Symbol
  /-- `is_subclass_of(method()->holder(), name)`. -/
  holderIsSubclassOf : Symbol → Bool
  /-- `is_protected_access(index, is_method)`. -/
  isProtectedAccess : ℕ → Bool → Option Bool
  /-- The catch type at an index loads and is a `Throwable`. -/
  isThrowableAt : ℕ → Bool
  /-- The name of the super class of the holder. -/
  superName : Symbol
  /-- The holder declares a field of the name and type. -/
  declaresField : Symbol → JavaType → Bool
  /-- `check_not_final_override` throws. -/
  overridesFinal : Bool

/-- A class hierarchy that knows no class. -/
def ClassEnv.bare : ClassEnv where
  isSubtype := fun _ _ => false
  isArrayName := fun name => name.startsWith "["
  typeArrayElement := fun _ => none
  referenceArrayElementName := fun _ => none
  arrayDimensions := fun _ => 0
  objArrayClassName := fun name => "[L" ++ name ++ ";"
  typeArrayClassName := fun _ => "[I"
  holderIsSubclassOf := fun _ => false
  isProtectedAccess := fun _ _ => none
  isThrowableAt := fun _ => false
  superName := "java/lang/Object"
  declaresField := fun _ _ => false
  overridesFinal := false

/-- `java/lang/Object`, `java/lang/String`, `java/lang/Throwable` and `<init>`. -/
def javaLangObject : Symbol := "java/lang/Object"
def javaLangString : Symbol := "java/lang/String"
def javaLangThrowable : Symbol := "java/lang/Throwable"
def objectInitializerName : Symbol := "<init>"

/-- A method with code, as the class file parser leaves it. -/
structure Method where
  code : Code
  /-- `max_stack()`, with the words for the locks. -/
  maxStack : ℕ
  maxLocals : ℕ
  name : Symbol
  isStatic : Bool
  params : List JavaType
  ret : Option JavaType
  /-- The name of the class that declares the method. -/
  holder : Symbol
  constants : List CpEntry
  exceptionTable : List Handler
  stackmaps : List StackMap
  /-- `code_length` is a `u2`. -/
  codeSize_lt : code.length < 2 ^ 16
  /-- `parse_stackmaps` refuses a map that is larger than the frame. -/
  stackmaps_fit : ∀ map ∈ stackmaps,
    map.localSlots.length ≤ maxLocals ∧ map.stackSlots.length ≤ maxStack

namespace Method

/-- `is_object_initializer()`. -/
def isObjectInitializer (m : Method) : Bool := m.name == objectInitializerName

/-- The stack map at an offset: the first one that
`VerifierFrame::get_stackmap_index_for_offset` finds
(`runtime/HotRoutines.incl.hpp`, lines 216–239). The cache in front of it
holds the same indices. -/
def stackmapAt (m : Method) (targetBci : ℤ) : Option StackMap :=
  m.stackmaps.find? fun map => (map.offset : ℤ) == targetBci

/-- `bytecode_length_for(bci)`. -/
def bytecodeLengthFor (m : Method) (bci : ℕ) : ℤ := Bytecodes.bytecodeLengthFor m.code bci

theorem stackmapAt_fits {m : Method} {bci : ℤ} {map : StackMap} (h : m.stackmapAt bci = some map) :
    map.localSlots.length ≤ m.maxLocals ∧ map.stackSlots.length ≤ m.maxStack :=
  m.stackmaps_fit map (List.mem_of_find?_eq_some h)

end Method

end CldcVm.Verifier
