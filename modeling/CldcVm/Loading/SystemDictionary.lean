import CldcVm.Dispatch.ClassFile

/-!
# Loading classes

Models of `SystemDictionary::find`, `fetch_buffer`, `load_system_class`, `insert` and
`create_fake_class` (`runtime/SystemDictionary.cpp`, lines 52–440), and of
`check_for_circular_class_parsing`, `parse_class_0`, `parse_interface_indices`,
`parse_interfaces` and `parse_class_internal` (`runtime/ClassFileParser.cpp`, lines
426–493, 1468–1491, 1528–1623 and 1762–2042), in a build with isolates.

A class file is given by what it names and by its flags. What else the parser does with
it is a parameter: the errors that it finds, and the classes of the types that it meets,
for which it makes fake classes. These `find` does not see, and `insert` replaces them.
The allocation of memory does not fail, and no parser is under way when the loading
begins.
-/

namespace CldcVm.Loading

open Dispatch (Symbol)
open Handles (byte)

/-- What is thrown; `thrown` for the other errors of the parser. -/
inductive Throwable
  | recursiveClassStructure
  | classNotFound (name : Symbol)
  | invalidSuperclass
  | interfacesMustExtendJLO
  | invalidClassFile
  | incompatibleClassChange
  | thrown (err : ℕ)
deriving DecidableEq, Repr

/-- A class of a dictionary. -/
structure Entry where
  name : Symbol
  isFake : Bool
  isInterface : Bool
  isFinal : Bool
deriving DecidableEq, Repr

/-- The classes of a task, the newest first. -/
abbrev Dictionary := List Entry

/-- A class file. -/
structure ClassFile where
  thisClass : Symbol
  superClass : Option Symbol
  interfaces : List Symbol
  isInterface : Bool
  isFinal : Bool
deriving DecidableEq, Repr

/-- The superclass and the superinterfaces. -/
def ClassFile.supers (file : ClassFile) : List Symbol := file.superClass.toList ++ file.interfaces

/-- `java/lang/Object`. -/
def javaLangObject : Symbol := ("java/lang/Object".toList.map byte)

/-- The classes of the system dictionary, the files of the class path, and what the parsing
of the two stages does: the types that it meets, and an error. -/
structure Loader where
  romizedProduct : Bool
  system : List Entry
  files : List (Symbol × ClassFile)
  head : ClassFile → Dictionary → List Symbol × Option ℕ
  rest : ClassFile → Dictionary → List Symbol × Option ℕ

namespace Loader

variable (L : Loader) (d : Dictionary)

/-- `find`, which does not see fake classes. -/
def find (name : Symbol) : Option Entry :=
  (L.system ++ d).find? fun entry => entry.name = name ∧ entry.isFake = false

/-- `semi_resolve`: a fake class is made for a name that has no class. -/
def semiResolve (name : Symbol) : Dictionary :=
  if name ∈ (L.system ++ d).map Entry.name then d else ⟨name, true, false, false⟩ :: d

/-- The classes of types are resolved. -/
def semiResolveAll (names : List Symbol) : Dictionary := names.foldl L.semiResolve d

/-- `insert`: a fake class of the same name is replaced. -/
def insert (entry : Entry) (d : Dictionary) : Dictionary :=
  entry :: d.eraseP fun other => other.name = entry.name

/-- The checks of `parse_class_0` on the superclass. -/
def checkSuper (file : ClassFile) : Option Throwable :=
  match file.superClass with
  | none =>
    if L.romizedProduct ∨ file.thisClass ≠ javaLangObject then some .invalidSuperclass else none
  | some super =>
    if file.isInterface ∧ super ≠ javaLangObject then some .interfacesMustExtendJLO else none

/-- `parse_class_0`: the superclass and the interfaces that are not resolved, in the order
in which they are pushed. -/
def parseClass0 (name : Symbol) (file : ClassFile) : Dictionary × Except Throwable (List Symbol) :=
  match (L.head file d).2 with
  | some err => (L.semiResolveAll d (L.head file d).1, .error (.thrown err))
  | none =>
    if file.thisClass ≠ name then
      (L.semiResolveAll d (L.head file d).1, .error (.classNotFound name))
    else
      match L.checkSuper file with
      | some e => (L.semiResolveAll d (L.head file d).1, .error e)
      | none => (L.semiResolveAll d (L.head file d).1,
          .ok (file.supers.filter fun super => (L.find d super).isNone))

/-- The check of `parse_class_internal` on the superclass. -/
def resolveSuper (file : ClassFile) : Option Throwable :=
  match file.superClass with
  | none => none
  | some super =>
    match L.find d super with
    | none => some (.classNotFound super)
    | some entry => if entry.isFinal ∨ entry.isInterface then some .invalidClassFile else none

/-- `parse_interfaces`. -/
def parseInterfaces : List Symbol → Option Throwable
  | [] => none
  | interf :: interfaces =>
    match L.find d interf with
    | none => some (.classNotFound interf)
    | some entry =>
      if entry.isInterface then parseInterfaces interfaces else some .incompatibleClassChange

/-- `parse_class_internal` from stage 1 on. -/
def parseClass1 (file : ClassFile) : Dictionary × Option Throwable :=
  match L.resolveSuper d file with
  | some e => (d, some e)
  | none =>
    match L.parseInterfaces d file.interfaces with
    | some e => (d, some e)
    | none => (L.semiResolveAll d (L.rest file d).1, (L.rest file d).2.map .thrown)

end Loader

/-! ## The class loading stack -/

/-- `ClassParserState`; a class of stage 1 has been parsed up to its interfaces. -/
structure ClassParserState where
  className : Symbol
  buffer : Option ClassFile
  stage1 : Bool
deriving DecidableEq, Repr

/-- The stack, with its top first, and the dictionary. -/
structure State where
  stack : List ClassParserState
  dictionary : Dictionary
deriving DecidableEq, Repr

/-- A step goes on, or it throws. -/
abbrev Step := Except (Throwable × Dictionary) State

namespace Loader

variable (L : Loader)

/-- `fetch_buffer`, if there is no buffer yet. -/
def fetchBuffer (state : ClassParserState) : Option ClassFile :=
  state.buffer <|> L.files.lookup state.className

/-- `check_for_circular_class_parsing`. -/
def isCircular (name : Symbol) (below : List ClassParserState) : Bool :=
  below.any fun check => check.className = name ∧ check.stage1 = true

/-- The class on the top of the stack is completed. -/
def complete (name : Symbol) (file : ClassFile) (below : List ClassParserState) (d : Dictionary) :
    Step :=
  match L.parseClass1 d file with
  | (d, some e) => .error (e, d)
  | (d, none) => .ok ⟨below, insert ⟨name, false, file.isInterface, file.isFinal⟩ d⟩

/-- An unresolved class on the stack. -/
def unresolved (name : Symbol) : ClassParserState := ⟨name, none, false⟩

/-- `parse_class`, and the insertion of its result. -/
def parseClass (top : ClassParserState) (below : List ClassParserState) (d : Dictionary)
    (file : ClassFile) : Step :=
  if isCircular top.className below then .error (.recursiveClassStructure, d)
  else if top.stage1 then L.complete top.className file below d
  else
    match L.parseClass0 d top.className file with
    | (d, .error e) => .error (e, d)
    | (d, .ok []) => L.complete top.className file below d
    | (d, .ok (name :: names)) =>
      .ok ⟨((name :: names).reverse.map unresolved) ++ ⟨top.className, some file, true⟩ :: below, d⟩

/-- A round of the loop of `load_system_class`, with a stack that is not empty. -/
def round (top : ClassParserState) (below : List ClassParserState) (d : Dictionary) : Step :=
  if top.stage1 = false ∧ (L.find d top.className).isSome then .ok ⟨below, d⟩
  else
    match L.fetchBuffer top with
    | none => .error (.classNotFound top.className, d)
    | some file => L.parseClass top below d file

/-- The loop of `load_system_class`. -/
def loop : (fuel : ℕ) → State → Option (Except (Throwable × Dictionary) Dictionary)
  | 0, _ => none
  | fuel + 1, s =>
    match s.stack with
    | [] => some (.ok s.dictionary)
    | top :: below =>
      match L.round top below s.dictionary with
      | .error e => some (.error e)
      | .ok s => loop fuel s

/-- `load_system_class`, with the buffer that may have been loaded already. -/
def loadSystemClass (fuel : ℕ) (name : Symbol) (buf : Option ClassFile) (d : Dictionary) :
    Option (Except (Throwable × Dictionary) Dictionary) :=
  L.loop fuel ⟨[⟨name, buf, false⟩], d⟩

end Loader

end CldcVm.Loading
