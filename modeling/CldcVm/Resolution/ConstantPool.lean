import CldcVm.Dispatch.InterfaceTable

/-!
# Resolution of methods

Models of `lookup_method_at`, `resolve_method_ref`, `resolve_invoke_special_at`,
`resolve_invoke_static_at` and `resolve_invoke_virtual_at` (`handles/ConstantPool.cpp`,
lines 371–556) with `resolve_helper_0` (`runtime/HotRoutines.incl.hpp`, lines 565–637) and
the access checks (`handles/InstanceClass.cpp`, lines 708–738; `handles/Method.cpp`, lines
826–863); and of the instructions that are put in the place of the resolved one
(`interpreter/InterpreterRuntime.cpp`, lines 721–854, and `fast_invoke_internal` of
`cpu/c/Interpreter_c.cpp`).

The classes are those that are loaded by the end of a run. Which of them a name stands
for, and whether a class can be initialized, is the environment of an attempt.
-/

namespace CldcVm.Resolution

open Dispatch
open Handles (byte)

/-! ## Classes -/

/-- What the checks need of a class besides its methods. -/
structure ClassFlags where
  name : Symbol
  isPublic : Bool
  isFinal : Bool
  isInterface : Bool
  isSuper : Bool
  isPreloaded : Bool
  isHidden : Bool

/-- The classes, and the methods that the profile hides. -/
structure World where
  classes : List LoadedClass
  flags : ℕ → ClassFlags
  isHiddenInProfile : MethodAt → Bool

/-- `ErrorMsgTag`, as far as it is used here. -/
inductive ErrorMsgTag
  | emptyMessage | methodChanged | classChanged
deriving DecidableEq, Repr

/-- What is thrown; `thrown` by the loading or the initialization of a class. -/
inductive Throwable
  | invalidConstant
  | incompatibleClassChangeError (err : ErrorMsgTag)
  | noSuchMethodError
  | illegalAccessError
  | noClassDefFoundError (name : Symbol)
  | thrown (reference : ℕ)
deriving DecidableEq, Repr

/-- `Throw::incompatible_class_change_error` (`runtime/Throw.cpp`, lines 308–315). -/
def incompatibleClassChange (err : ErrorMsgTag) : Throwable :=
  .incompatibleClassChangeError (if err = .emptyMessage then .classChanged else err)

/-- `SystemDictionary::resolve`, and the initialization of a class (`task_barrier` or
`initialize`). -/
structure Environment where
  resolve : Symbol → Except Throwable ℕ
  initializeClass : ℕ → Except Throwable Unit

namespace World

variable (w : World)

def superOf (id : ℕ) : Option ℕ := w.classes[id]?.bind LoadedClass.super

def vtableOf (id : ℕ) : List (Option MethodAt) := (w.classes[id]?.map LoadedClass.vtable).getD []

/-- `is_subclass_of`. -/
def isSubclass (id other : ℕ) : Bool := isSubclassOf w.classes other (id + 1) (some id)

/-- `is_hidden` of a method that is not null. -/
def isHiddenMethod (m : MethodAt) : Bool := (w.flags m.holder).isHidden || w.isHiddenInProfile m

/-- `Method::vtable_index` as a `jushort`: a place in the vtable of the holder, or -1. -/
def vtableIndex (m : MethodAt) : ℕ :=
  let index := (w.vtableOf m.holder).findIdx fun entry => entry == some m
  if index < (w.vtableOf m.holder).length then index % 2 ^ 16 else 2 ^ 16 - 1

/-- `InstanceClass::check_access_by`. -/
def checkClassAccess (this senderClass : ℕ) : Except Throwable Unit :=
  if (w.flags senderClass).isPreloaded then .ok ()
  else if (w.flags this).isHidden then .error (.noClassDefFoundError (w.flags this).name)
  else if (w.flags this).isPublic ||
      isSameClassPackage (w.flags this).name (w.flags senderClass).name then .ok ()
  else .error .illegalAccessError

/-- `can_access_by`. -/
def canAccess (m : MethodAt) (senderClass staticReceiverClass : ℕ) : Bool :=
  m.method.isPublic ||
    m.holder == senderClass ||
    (!m.method.isPrivate &&
      (isSameClassPackage (w.flags m.holder).name (w.flags senderClass).name ||
        (m.method.isProtected && w.isSubclass senderClass m.holder &&
          (staticReceiverClass == senderClass || w.isSubclass staticReceiverClass senderClass ||
            w.isSubclass senderClass staticReceiverClass))))

end World

/-! ## Constant pools -/

/-- An entry of a constant pool. The return type in the tag of a virtual method is left
out. -/
inductive Entry
  | utf8 (symbol : Symbol)
  | nameAndType (nameIndex signatureIndex : ℕ)
  | unresolvedClass (name : Symbol)
  | resolvedClass (classId : ℕ)
  | methodref (classIndex nameAndTypeIndex : ℕ)
  | resolvedStaticMethod (m : MethodAt)
  | resolvedVirtualMethod (classId vtableIndex : ℕ)
  | other
deriving DecidableEq, Repr

abbrev ConstantPool := List Entry

/-- A function returns or throws, and leaves a constant pool. -/
abbrev Resolved (α : Type) := Except Throwable α × ConstantPool

/-- `klass_at`: an unresolved class is resolved. -/
def klassAt (env : Environment) (cp : ConstantPool) (index : ℕ) : Resolved ℕ :=
  match cp[index]? with
  | some (.unresolvedClass name) =>
    match env.resolve name with
    | .error e => (.error e, cp)
    | .ok id => (.ok id, cp.set index (.resolvedClass id))
  | some (.resolvedClass id) => (.ok id, cp)
  | _ => (.error .invalidConstant, cp)

def utf8At (cp : ConstantPool) (index : ℕ) : Option Symbol :=
  match cp[index]? with
  | some (.utf8 symbol) => some symbol
  | _ => none

def nameAndTypeAt (cp : ConstantPool) (index : ℕ) : Option (ℕ × ℕ) :=
  match cp[index]? with
  | some (.nameAndType nameIndex signatureIndex) => some (nameIndex, signatureIndex)
  | _ => none

def methodrefAt (cp : ConstantPool) (index : ℕ) : Option (ℕ × ℕ) :=
  match cp[index]? with
  | some (.methodref classIndex nameAndTypeIndex) => some (classIndex, nameAndTypeIndex)
  | _ => none

/-- The name and the signature of a method entry, and the index of its class, in
`resolve_helper_0`. -/
def methodSymbols (cp : ConstantPool) (index : ℕ) : Option (Symbol × Symbol × ℕ) :=
  match methodrefAt cp index with
  | none => none
  | some (classIndex, nameAndTypeIndex) =>
    match nameAndTypeAt cp nameAndTypeIndex with
    | none => none
    | some (nameIndex, signatureIndex) =>
      match utf8At cp nameIndex, utf8At cp signatureIndex with
      | some name, some signature => some (name, signature, classIndex)
      | _, _ => none

/-- What `lookup_method_at` returns. -/
structure Found where
  name : Symbol
  signature : Symbol
  receiver : ℕ
  m : MethodAt
deriving DecidableEq

/-- The part of `lookup_method_at` after `resolve_helper`. -/
def lookupIn (w : World) (senderClass : ℕ) (name signature : Symbol) (receiver : ℕ) :
    Except Throwable Found :=
  match lookupMethod w.classes receiver name signature false with
  | none => .error .noSuchMethodError
  | some m =>
    if w.isHiddenMethod m then .error .noSuchMethodError
    else
      match w.checkClassAccess receiver senderClass with
      | .error e => .error e
      | .ok _ =>
        if w.canAccess m senderClass receiver then .ok ⟨name, signature, receiver, m⟩
        else .error .illegalAccessError

/-- `lookup_method_at`. -/
def lookupMethodAt (w : World) (env : Environment) (senderClass : ℕ) (cp : ConstantPool)
    (index : ℕ) : Resolved Found :=
  match cp[index]? with
  | some (.resolvedVirtualMethod _ _) => (.error (incompatibleClassChange .methodChanged), cp)
  | _ =>
    match methodSymbols cp index with
    | none => (.error .invalidConstant, cp)
    | some (name, signature, classIndex) =>
      match klassAt env cp classIndex with
      | (.error e, cp) => (.error e, cp)
      | (.ok receiver, cp) => (lookupIn w senderClass name signature receiver, cp)

/-- The entry that `resolve_method_ref` writes. -/
def resolvedEntry (w : World) (receiver : ℕ) (m : MethodAt) : Entry :=
  if (w.flags receiver).isFinal || m.method.isFinal || m.method.isStatic ||
      m.method.isObjectInitializer then .resolvedStaticMethod m
  else .resolvedVirtualMethod (receiver % 2 ^ 16) (w.vtableIndex m)

/-- `resolve_method_ref`: the entry is fixed. -/
def resolveMethodRef (w : World) (cp : ConstantPool) (index receiver : ℕ) (m : MethodAt) :
    Resolved Bool :=
  match resolvedEntry w receiver m with
  | .resolvedStaticMethod m => (.ok true, cp.set index (.resolvedStaticMethod m))
  | entry => (.ok false, cp.set index entry)

/-- The method of `invokespecial` and the class it is in: that of a superclass is looked
up from the superclass of the sender on. -/
def specialTarget (w : World) (senderClass : ℕ) (found : Found) :
    Except Throwable (ℕ × MethodAt) :=
  if found.name = [byte '<', byte 'i', byte 'n', byte 'i', byte 't', byte '>'] then
    if found.receiver = found.m.holder then .ok (found.receiver, found.m)
    else .error .noSuchMethodError
  else if (w.flags senderClass).isSuper && senderClass != found.receiver &&
      w.isSubclass senderClass found.receiver then
    match (w.superOf senderClass).bind fun superClass =>
        lookupMethod w.classes superClass found.name found.signature false with
    | none => .error .noSuchMethodError
    | some m => .ok (m.holder, m)
  else .ok (found.receiver, found.m)

/-- `resolve_invoke_special_at`: the entry is fixed. -/
def resolveInvokeSpecialAt (w : World) (env : Environment) (senderClass : ℕ) (cp : ConstantPool)
    (index : ℕ) : Resolved Bool :=
  match cp[index]? with
  | some (.resolvedStaticMethod m) =>
    if m.method.isStatic then (.error (incompatibleClassChange .emptyMessage), cp)
    else (.ok true, cp)
  | some (.resolvedVirtualMethod _ _) => (.ok false, cp)
  | _ =>
    match lookupMethodAt w env senderClass cp index with
    | (.error e, cp) => (.error e, cp)
    | (.ok found, cp) =>
      if found.m.method.isStatic then (.error (incompatibleClassChange .methodChanged), cp)
      else
        match specialTarget w senderClass found with
        | .error e => (.error e, cp)
        | .ok (receiver, m) => resolveMethodRef w cp index receiver m

/-- The part of `resolve_invoke_static_at` after the entry has been written. -/
def checkStatic (w : World) (env : Environment) (senderClass : ℕ) (m : MethodAt) :
    Except Throwable Unit :=
  if !m.method.isStatic then .error (incompatibleClassChange .methodChanged)
  else if !(w.flags senderClass).isPreloaded && (w.flags m.holder).isHidden then
    .error .noSuchMethodError
  else env.initializeClass m.holder

/-- `resolve_invoke_static_at`. -/
def resolveInvokeStaticAt (w : World) (env : Environment) (senderClass : ℕ) (cp : ConstantPool)
    (index : ℕ) : Resolved Unit :=
  match cp[index]? with
  | some (.resolvedStaticMethod m) => (checkStatic w env senderClass m, cp)
  | _ =>
    match lookupMethodAt w env senderClass cp index with
    | (.error e, cp) => (.error e, cp)
    | (.ok found, cp) =>
      (checkStatic w env senderClass found.m, cp.set index (.resolvedStaticMethod found.m))

/-- `resolve_invoke_virtual_at`: the entry is fixed. -/
def resolveInvokeVirtualAt (w : World) (env : Environment) (senderClass : ℕ) (cp : ConstantPool)
    (index : ℕ) : Resolved Bool :=
  match cp[index]? with
  | some (.resolvedVirtualMethod _ _) => (.ok false, cp)
  | some (.resolvedStaticMethod m) =>
    if m.method.isStatic then (.error (incompatibleClassChange .emptyMessage), cp)
    else (.ok true, cp)
  | _ =>
    match lookupMethodAt w env senderClass cp index with
    | (.error e, cp) => (.error e, cp)
    | (.ok found, cp) =>
      if (w.flags found.receiver).isInterface then
        (.error (incompatibleClassChange .classChanged), cp)
      else if found.m.method.isStatic then (.error (incompatibleClassChange .emptyMessage), cp)
      else resolveMethodRef w cp index found.receiver found.m

/-! ## Instructions -/

/-- The instructions that share method entries. -/
inductive Bytecode
  | invokevirtual | invokespecial | invokestatic
deriving DecidableEq, Repr

/-- What is put in the place of an instruction. -/
inductive FastBytecode
  | fastInvokevirtual | fastInvokevirtualFinal | fastInvokespecial | fastInvokestatic
deriving DecidableEq, Repr

/-- `_quicken` and `_quicken_invokestatic`. -/
def quicken (w : World) (env : Environment) (senderClass : ℕ) (cp : ConstantPool) (index : ℕ) :
    Bytecode → Resolved FastBytecode
  | .invokevirtual =>
    match resolveInvokeVirtualAt w env senderClass cp index with
    | (.error e, cp) => (.error e, cp)
    | (.ok isFinal, cp) =>
      (.ok (if isFinal then .fastInvokevirtualFinal else .fastInvokevirtual), cp)
  | .invokespecial =>
    match resolveInvokeSpecialAt w env senderClass cp index with
    | (.error e, cp) => (.error e, cp)
    | (.ok isInit, cp) =>
      (.ok (if isInit then .fastInvokevirtualFinal else .fastInvokespecial), cp)
  | .invokestatic =>
    match resolveInvokeStaticAt w env senderClass cp index with
    | (.error e, cp) => (.error e, cp)
    | (.ok _, cp) => (.ok .fastInvokestatic, cp)

/-- The method that an instruction selects with an entry, for a receiver of a class. -/
def selectMethod (w : World) (entry : Option Entry) (receiver : ℕ) :
    FastBytecode → Option MethodAt
  | .fastInvokestatic | .fastInvokevirtualFinal =>
    match entry with
    | some (.resolvedStaticMethod m) => some m
    | _ => none
  | .fastInvokevirtual =>
    match entry with
    | some (.resolvedVirtualMethod _ vtableIndex) => ((w.vtableOf receiver)[vtableIndex]?).join
    | _ => none
  | .fastInvokespecial =>
    match entry with
    | some (.resolvedVirtualMethod classId vtableIndex) =>
      ((w.vtableOf classId)[vtableIndex]?).join
    | _ => none

/-- An attempt to resolve an entry: an error, or the methods that are selected. -/
def attempt (w : World) (env : Environment) (senderClass : ℕ) (cp : ConstantPool) (index : ℕ)
    (code : Bytecode) : Resolved (ℕ → Option MethodAt) :=
  match quicken w env senderClass cp index code with
  | (.error e, cp) => (.error e, cp)
  | (.ok fast, cp) => (.ok fun receiver => selectMethod w cp[index]? receiver fast, cp)

/-! ## Sharing of entries -/

/-- An instruction with the index of its entry. -/
abbrev Invoke := Bytecode × ℕ

/-- A class with the instructions of its methods. The indices are those of entries. -/
structure ClassCode where
  cp : ConstantPool
  methods : List (List Invoke)
  inBounds : ∀ code ∈ methods, ∀ invoke ∈ code, invoke.2 < cp.length

/-- Some instruction of the class. -/
def ClassCode.Has (c : ClassCode) (code : Bytecode) (index : ℕ) : Prop :=
  ∃ method ∈ c.methods, (code, index) ∈ method

instance (c : ClassCode) (code : Bytecode) (index : ℕ) : Decidable (c.Has code index) := by
  unfold ClassCode.Has
  exact inferInstance

/-- The indices that `invokespecial` and `invokevirtual` share: the common bits of the maps
of `fill_in_invoke_indexes` (`runtime/ClassFileParser.cpp`, lines 1681–1707). -/
def collisions (c : ClassCode) : List ℕ :=
  (List.range c.cp.length).filter fun index =>
    c.Has .invokespecial index ∧ c.Has .invokevirtual index

/-- `relocation_map`. -/
def relocate (map : List ℕ) (cpLength index : ℕ) : ℕ :=
  if index ∈ map then cpLength + map.idxOf index else index

/-- `clone_invoke_special_virtual_conflicts` for an instruction. -/
def cloneInvoke (map : List ℕ) (cpLength : ℕ) : Invoke → Invoke
  | (.invokespecial, index) => (.invokespecial, relocate map cpLength index)
  | invoke => invoke

theorem relocate_lt {map : List ℕ} {cpLength index : ℕ} (h : index < cpLength) :
    relocate map cpLength index < cpLength + map.length := by
  unfold relocate
  split_ifs with hmem
  · exact Nat.add_lt_add_left (List.idxOf_lt_length_of_mem hmem) _
  · exact h.trans_le (Nat.le_add_right _ _)

theorem cloneInvoke_lt {map : List ℕ} {cpLength : ℕ} {invoke : Invoke} (h : invoke.2 < cpLength) :
    (cloneInvoke map cpLength invoke).2 < cpLength + map.length := by
  obtain ⟨code, index⟩ := invoke
  cases code with
  | invokespecial => exact relocate_lt h
  | invokevirtual => exact h.trans_le (Nat.le_add_right _ _)
  | invokestatic => exact h.trans_le (Nat.le_add_right _ _)

/-- `resolve_invoke_special_virtual_conflicts` (lines 1709–1760), after the loading of a
class; `none` is an `OutOfMemoryError`. -/
def resolveConflicts (isSuper : Bool) (c : ClassCode) : Option ClassCode :=
  if !isSuper then some c
  else if (collisions c).length + c.cp.length > 65535 then none
  else some {
    cp := c.cp ++ (collisions c).map fun index => c.cp.getD index .other
    methods := c.methods.map fun code => code.map (cloneInvoke (collisions c) c.cp.length)
    inBounds := by
      intro code hcode invoke hinvoke
      obtain ⟨code, hmem, rfl⟩ := List.mem_map.mp hcode
      obtain ⟨invoke, hmem', rfl⟩ := List.mem_map.mp hinvoke
      rw [List.length_append, List.length_map]
      exact cloneInvoke_lt (c.inBounds code hmem invoke hmem') }

end CldcVm.Resolution
