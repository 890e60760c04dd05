import CldcVm.Handles.ClassIdentifier

/-!
# Parsing of type symbols

Models of `TypeSymbol::internal_parse` and `TypeSymbol::ParseStream`
(`handles/TypeSymbol.{hpp,cpp}`, lines 125–292 and 318–433), which turn the
descriptor of a field or a method into its encoded form, and of
`Symbol::is_valid_class_name` (`handles/Symbol.cpp`, lines 150–228).

The input is the list of its bytes, and a stream is what is left of it. A read
past the end of the input ends the model with `Failure.outside`: what the code
does then depends on the memory behind the string.
-/

namespace CldcVm.Handles

/-! ## Encoded class ids -/

/-- `encode_ushort` (`TypeSymbol.hpp`, lines 83–88). -/
def encodeUshort (value : ℕ) : ℕ := ((value &&& 0xff80) <<< 1) ||| (value &&& 0x7f) ||| 0x8080

/-- The bytes that `put_encoded_ushort` stores. -/
def putEncodedUshort (value : ℕ) : List UInt8 :=
  [(value >>> 8).toUInt8, (value &&& 0xff).toUInt8]

/-- `decode_ushort_at_raw`. -/
def decodeUshort (hibyte lobyte : UInt8) : ℕ :=
  ((hibyte.toNat &&& 0x7f) <<< 7) ||| (lobyte.toNat &&& 0x7f)

/-! ## The classes of the VM -/

/-- What the parser sees of the classes: the class ids that names and array types
get, or `none` where an exception is thrown; the classes that are instance
classes; and the class ids whose encoding is a field type in the symbol table.
A name is that of an instance class, unless its symbol is such a field type. -/
structure ClassTable where
  semiResolve : (name : List UInt8) → Option ℕ
  instanceArray : (classId dimension : ℕ) → Option ℕ
  typeArray : (index dimension : ℕ) → Option ℕ
  isInstanceClass : (classId : ℕ) → Bool
  isFieldType : (classId : ℕ) → Bool
  semiResolve_instance : ∀ {name id}, semiResolve name = some id →
    isInstanceClass id = true ∨
      ∃ hibyte lobyte, name = [hibyte, lobyte] ∧ isFieldType (decodeUshort hibyte lobyte) = true
  semiResolve_lt : ∀ {name id}, semiResolve name = some id → id < 2 ^ 14
  instanceArray_lt : ∀ {classId dimension id}, instanceArray classId dimension = some id → id < 2 ^ 14
  typeArray_lt : ∀ {index dimension id}, typeArray index dimension = some id → id < 2 ^ 14
  instanceArray_array : ∀ {classId dimension id}, instanceArray classId dimension = some id →
    isInstanceClass id = false
  typeArray_array : ∀ {index dimension id}, typeArray index dimension = some id →
    isInstanceClass id = false

/-- `simple_type_symbol_table`: the place of the array class among those of the
basic types. -/
def simpleTypeSymbolTable (c : UInt8) : ℕ :=
  if c = byte 'Z' then 1
  else if c = byte 'C' then 2
  else if c = byte 'F' then 3
  else if c = byte 'D' then 4
  else if c = byte 'B' then 5
  else if c = byte 'S' then 6
  else if c = byte 'I' then 7
  else if c = byte 'J' then 8
  else 0

/-- `is_simple_type_symbol`. -/
def isSimpleTypeSymbol (c : UInt8) : Bool := simpleTypeSymbolTable c != 0

variable (table : ClassTable)

/-- `is_valid_field_type`: a symbol of two bytes is one where it has been interned
as the encoding of a class id. -/
def isValidFieldType : (symbol : List UInt8) → Bool
  | [c] => isSimpleTypeSymbol c
  | [hibyte, lobyte] =>
    hibyte.toNat ≥ 128 && lobyte.toNat ≥ 128 && table.isFieldType (decodeUshort hibyte lobyte)
  | _ => false

/-- `basic_type() == T_ARRAY` of a field type that is not a basic type. -/
def isArrayType : (symbol : List UInt8) → Bool
  | [hibyte, lobyte] => !table.isInstanceClass (decodeUshort hibyte lobyte)
  | _ => false

/-- `is_valid_class_name`. -/
def isValidClassName (symbol : List UInt8) : Bool :=
  if isClassIdentifierQuick symbol then true
  else if isValidFieldType table symbol then
    if symbol.length = 1 then true else isArrayType table symbol
  else skipClassIdentifier symbol (symbol.length + 1) 0 == some symbol.length

/-! ## The stream -/

/-- How a parse fails: by a `ClassFormatError`, by an exception of the class
resolution, or by a read past the end. -/
inductive Failure
  | classFormatError | pending | outside
deriving DecidableEq, Repr

/-- `TypeSymbol::ParseStream`; `rest` is what lies between the current pointer and
the end. -/
structure ParseStream where
  rest : List UInt8
  isMethodSignature : Bool
  tokenCount : ℕ
  tokenWordCount : ℕ
  parameterWordCount : ℕ
  closeParenPosition : ℤ

namespace ParseStream

/-- `initialize` (lines 125–154). -/
def init (input : List UInt8) : Except Failure ParseStream :=
  let ps : ParseStream := ⟨input, false, 0, 0, 0, -1⟩
  if input.head? = some (byte '(') then
    if input.length ≥ 3 then .ok { ps with rest := input.tail, isMethodSignature := true }
    else .error .classFormatError
  else .ok ps

/-- The loop of `get_class`: the bytes before the next semicolon, and those after
it. -/
def scanClassName : List UInt8 → Option (List UInt8 × List UInt8)
  | [] => none
  | c :: rest =>
    if c = byte ';' then some ([], rest)
    else (scanClassName rest).map fun found => (c :: found.1, found.2)

/-- `get_class` (lines 156–186): the class id, and what is left. -/
def getClass (bytes : List UInt8) : Except Failure (ℕ × List UInt8) :=
  match scanClassName bytes with
  | none => .error .classFormatError
  | some (name, rest) =>
    if isValidClassName table name then
      match table.semiResolve name with
      | none => .error .pending
      | some id => .ok (id, rest)
    else .error .classFormatError

/-- `'0' <= c && c <= '9'`. -/
def isDigit (c : UInt8) : Bool := byte '0' ≤ c && c ≤ byte '9'

/-- `skip_optional_size` (lines 188–198). -/
def skipOptionalSize (bytes : List UInt8) : List UInt8 := bytes.dropWhile isDigit

/-- The loop of `get_array_class` (lines 200–246): `count` dimensions of the 255
are left. While the VM is bootstrapping, the array classes of `Object` come
from its one-dimensional array class. -/
def getArrayClass : (count : ℕ) → List UInt8 → Except Failure (ℕ × List UInt8)
  | 0, _ => .error .classFormatError
  | count + 1, bytes =>
    let dimension := 255 - count
    match skipOptionalSize bytes with
    | [] => .error .classFormatError
    | c :: rest =>
      if c = byte 'L' then
        match getClass table rest with
        | .error e => .error e
        | .ok (id, rest) =>
          match table.instanceArray id dimension with
          | none => .error .pending
          | some id => .ok (id, rest)
      else if c = byte '[' then getArrayClass count rest
      else if simpleTypeSymbolTable c ≠ 0 then
        match table.typeArray (simpleTypeSymbolTable c) dimension with
        | none => .error .pending
        | some id => .ok (id, rest)
      else .error .classFormatError

/-- The part of `next` from the token on (lines 266–291). -/
def nextToken (c : UInt8) (ps : ParseStream) : Except Failure (ℕ × ParseStream) :=
  let ps := { ps with tokenCount := ps.tokenCount + 1, tokenWordCount := ps.tokenWordCount + 1 }
  if c = byte 'V' ∨ isSimpleTypeSymbol c then
    if c = byte 'J' ∨ c = byte 'D' then
      .ok (c.toNat, { ps with tokenWordCount := ps.tokenWordCount + 1 })
    else .ok (c.toNat, ps)
  else if c = byte 'L' then
    match getClass table ps.rest with
    | .error e => .error e
    | .ok (id, rest) => .ok (encodeUshort id, { ps with rest := rest })
  else if c = byte '[' then
    match getArrayClass table 255 ps.rest with
    | .error e => .error e
    | .ok (id, rest) => .ok (encodeUshort id, { ps with rest := rest })
  else .error .classFormatError

/-- `next` (lines 248–292): the type of the next token, or `none` at the end. -/
def next (ps : ParseStream) : Except Failure (Option ℕ × ParseStream) :=
  match ps.rest with
  | [] => .ok (none, ps)
  | c :: rest =>
    if c = byte ')' then
      if ps.closeParenPosition = -1 then
        match rest with
        | [] => .error .outside
        | c :: rest =>
          (nextToken table c { ps with
            rest := rest
            closeParenPosition := ps.tokenCount
            parameterWordCount := ps.tokenWordCount }).map fun found => (some found.1, found.2)
      else .error .classFormatError
    else (nextToken table c { ps with rest := rest }).map fun found => (some found.1, found.2)

/-- `is_valid_method_signature`. -/
def isValidMethodSignature (ps : ParseStream) : Bool :=
  (ps.tokenCount : ℤ) == ps.closeParenPosition + 1

end ParseStream

/-! ## The parser -/

/-- The bytes of a type in the buffer. -/
def putType (type : ℕ) : List UInt8 := if type < 128 then [type.toUInt8] else putEncodedUshort type

/-- A parsed symbol, and whether it is the signature of a method. -/
structure Parsed where
  symbol : List UInt8
  isMethodSignature : Bool
deriving DecidableEq, Repr

/-- The loop of `internal_parse` (lines 377–396). `out` is the buffer from position
4 on. Its limit ends the loop after 512 tokens. -/
def parseLoop : (fuel : ℕ) → ParseStream → (out : List UInt8) → (lastType : ℕ) →
    Except Failure (ParseStream × List UInt8 × ℕ)
  | 0, _, _, _ => .error .classFormatError
  | fuel + 1, ps, out, lastType =>
    match ps.next table with
    | .error e => .error e
    | .ok (none, ps) => .ok (ps, out, lastType)
    | .ok (some type, ps) =>
      let out := out ++ putType type
      if 4 + out.length < 4 + 256 * 2 then parseLoop fuel ps out type
      else .error .classFormatError

/-- `internal_parse` (lines 336–433). -/
def internalParse (input : List UInt8) : Except Failure Parsed :=
  match input with
  | [] => .error .classFormatError
  | [c] => if isSimpleTypeSymbol c then .ok ⟨[c], false⟩ else .error .classFormatError
  | _ =>
    match ParseStream.init input with
    | .error e => .error e
    | .ok ps =>
      match parseLoop table 513 ps [] 0 with
      | .error e => .error e
      | .ok (ps, out, lastType) =>
        if ps.isMethodSignature then
          if ps.isValidMethodSignature ∧ ps.parameterWordCount ≤ 255 then
            .ok ⟨putEncodedUshort (encodeUshort ps.parameterWordCount) ++ putType lastType ++
              out.take (out.length - (putType lastType).length), true⟩
          else .error .classFormatError
        else if ps.tokenCount = 1 ∧ lastType ≠ (byte 'V').toNat then .ok ⟨out, false⟩
        else .error .classFormatError

end CldcVm.Handles
