import CldcVm.Dispatch.ClassFile

/-!
# Building itables

Models of `JavaITable::compute_itable_size` (`runtime/JavaVTable.cpp`, lines 75–132),
of `InstanceClass::itable_copy_down`, `update_local_itables`,
`check_and_initialize_itable`, `remove_clinit` and `itable_contains`
(`handles/InstanceClass.cpp`, lines 659–694 and 869–980), of `lookup_method` (lines
316–378), and of `Method::itable_index` (`handles/Method.cpp`, lines 867–877).

A class is known by its id, the place in the list of the loaded classes. Its
superclass and its interfaces have been loaded before it, so their ids are smaller.
The model ends with `none` where the code would write outside an itable.
-/

namespace CldcVm.Dispatch

open Handles (byte)

/-! ## Classes -/

/-- A method, with the id of its holder. -/
structure MethodAt where
  holder : ℕ
  method : Method
deriving DecidableEq, Repr

/-- What a slot of an itable holds: a method, or a method that throws an error, made for
a method of an interface. -/
inductive Slot
  | null
  | method (m : MethodAt)
  | incompatible (m : MethodAt)
  | illegal (m : MethodAt)
deriving DecidableEq, Repr

/-- An itable: the ids of the interfaces with the offsets of their methods, and the slots
of the methods. Offsets count slots from the first one on. -/
structure Itable where
  interfaces : List (Option (ℕ × ℕ))
  slots : List Slot
deriving DecidableEq, Repr

/-- What the itables need of a loaded class. -/
structure LoadedClass where
  super : Option ℕ
  isAbstract : Bool
  localInterfaces : List ℕ
  methods : List (Option Method)
  vtable : List (Option MethodAt)
  itable : Itable
deriving DecidableEq, Repr

/-- The methods of a class. -/
def methodsOf (classes : List LoadedClass) (id : ℕ) : List (Option Method) :=
  match classes[id]? with
  | none => []
  | some c => c.methods

/-- The interfaces that a class names. -/
def localInterfacesOf (classes : List LoadedClass) (id : ℕ) : List ℕ :=
  match classes[id]? with
  | none => []
  | some c => c.localInterfaces

/-- The ids of the interfaces in an itable. -/
def Itable.ids (itable : Itable) : List ℕ :=
  itable.interfaces.filterMap fun entry => entry.map Prod.fst

/-- The interfaces in the itable of a class; a class that is null has none. -/
def itableIds (classes : List LoadedClass) : Option ℕ → List ℕ
  | none => []
  | some id =>
    match classes[id]? with
    | none => []
    | some c => c.itable.ids

/-! ## Looking up methods -/

/-- `find_method`. -/
def findMethod (methods : List (Option Method)) (name signature : Symbol)
    (nonStaticOnly : Bool) : Option Method :=
  methods.findSome? fun entry =>
    entry.filter fun m =>
      m.name = name ∧ m.signature = signature ∧ (nonStaticOnly = true → m.isStatic = false)

/-- The first loop of `lookup_method`: the class and its superclasses. -/
def lookupDeclared (classes : List LoadedClass) (name signature : Symbol) (nonStaticOnly : Bool) :
    (fuel : ℕ) → Option ℕ → Option MethodAt
  | 0, _ => none
  | _ + 1, none => none
  | fuel + 1, some id =>
    match classes[id]? with
    | none => none
    | some c =>
      match findMethod c.methods name signature nonStaticOnly with
      | some m => some ⟨id, m⟩
      | none => lookupDeclared classes name signature nonStaticOnly fuel c.super

/-- The inner loop of `lookup_method`: the class is the holder or a subclass of it. -/
def isSubclassOf (classes : List LoadedClass) (holder : ℕ) : (fuel : ℕ) → Option ℕ → Bool
  | 0, _ => false
  | _ + 1, none => false
  | fuel + 1, some id =>
    if id = holder then true
    else
      match classes[id]? with
      | none => false
      | some c => isSubclassOf classes holder fuel c.super

/-- The second loop of `lookup_method`: the vtable. -/
def lookupVtable (classes : List LoadedClass) (name signature : Symbol) :
    List (Option MethodAt) → Option MethodAt → Option MethodAt
  | [], m => m
  | none :: vtable, m => lookupVtable classes name signature vtable m
  | some m2 :: vtable, m =>
    if some m2 ≠ m ∧ m2.method.name = name ∧ m2.method.signature = signature then
      match m with
      | none => lookupVtable classes name signature vtable (some m2)
      | some m1 =>
        lookupVtable classes name signature vtable
          (if isSubclassOf classes m1.holder (m2.holder + 1) (some m2.holder) then some m2 else m)
    else lookupVtable classes name signature vtable m

/-- `lookup_method`. -/
def lookupMethod (classes : List LoadedClass) (id : ℕ) (name signature : Symbol)
    (nonStaticOnly : Bool) : Option MethodAt :=
  match classes[id]? with
  | none => none
  | some c =>
    match lookupDeclared classes name signature nonStaticOnly (id + 1) (some id) with
    | none => lookupVtable classes name signature c.vtable none
    | some m =>
      if m.holder = id then some m else lookupVtable classes name signature c.vtable (some m)

/-- `itable_index`: the place of the method in the array of its interface. -/
def itableIndex (classes : List LoadedClass) (m : MethodAt) : ℕ :=
  (methodsOf classes m.holder).findIdx fun entry => entry == some m.method

/-! ## The size -/

/-- `compute_interface_size`, with the fuel of the recursion over the superinterfaces. -/
def computeInterfaceSize (classes : List LoadedClass) (base : Option ℕ) :
    (fuel : ℕ) → (intf : ℕ) → ℕ × ℕ → Option (ℕ × ℕ)
  | 0, _, _ => none
  | fuel + 1, intf, (nofInterfaces, nofMethods) =>
    if intf ∈ itableIds classes base then some (nofInterfaces, nofMethods)
    else
      (localInterfacesOf classes intf).foldlM
        (fun size superIntf => computeInterfaceSize classes base fuel superIntf size)
        (nofInterfaces + 1, nofMethods + (methodsOf classes intf).length)

/-- The numbers of interfaces and of methods in the itable of a class
(`ClassInfo::itable_size`). -/
def itableSize (classes : List LoadedClass) (base : Option ℕ) : ℕ × ℕ :=
  ((itableIds classes base).length,
    ((itableIds classes base).map fun ic => (methodsOf classes ic).length).sum)

/-- `compute_itable_size`: the numbers of interfaces and of methods. -/
def computeItableSize (classes : List LoadedClass) (localInterfaces : List ℕ)
    (base : Option ℕ) : Option (ℕ × ℕ) :=
  (localInterfaces.foldlM
    (fun size intf => computeInterfaceSize classes base classes.length intf size) (0, 0)).map
    fun size => ((itableSize classes base).1 + size.1, (itableSize classes base).2 + size.2)

/-! ## Filling the table -/

/-- The state of the loops: the next entry, the next slot, and the table. -/
structure FillState where
  index : ℕ
  methodOffset : ℕ
  itable : Itable

/-- What goes into a slot for a method of an interface. -/
def slotFor (isAbstract : Bool) (interfaceMethod : MethodAt) (found : Option MethodAt) : Slot :=
  if isAbstract then
    match found with
    | none => .null
    | some m => .method m
  else
    match found with
    | none => .incompatible interfaceMethod
    | some m =>
      if m.method.isStatic then .incompatible interfaceMethod
      else if m.method.isPublic then .method m
      else .illegal interfaceMethod

/-- `obj_field_put` of the next slot. -/
def FillState.putSlot (st : FillState) (slot : Slot) : Option FillState :=
  if st.methodOffset < st.itable.slots.length then
    some { st with
      methodOffset := st.methodOffset + 1
      itable := { st.itable with slots := st.itable.slots.set st.methodOffset slot } }
  else none

/-- `itable_interface_at_put` and `itable_offset_at_put` of the next entry. -/
def FillState.putInterface (st : FillState) (ic : ℕ) : Option FillState :=
  if st.index < st.itable.interfaces.length then
    some { st with
      index := st.index + 1
      itable := { st.itable with
        interfaces := st.itable.interfaces.set st.index (some (ic, st.methodOffset)) } }
  else none

/-- The loop of `itable_copy_down` over the methods of the interface. A null method has
no slot. -/
def copyMethods (classes : List LoadedClass) (this : ℕ) (isAbstract : Bool) (ic : ℕ) :
    List (Option Method) → FillState → Option FillState
  | [], st => some st
  | none :: methods, st => copyMethods classes this isAbstract ic methods st
  | some m :: methods, st =>
    match st.putSlot
        (slotFor isAbstract ⟨ic, m⟩ (lookupMethod classes this m.name m.signature true)) with
    | none => none
    | some st => copyMethods classes this isAbstract ic methods st

/-- `itable_copy_down`. -/
def itableCopyDown (classes : List LoadedClass) (this : ℕ) (isAbstract : Bool) (st : FillState)
    (ic : ℕ) : Option FillState :=
  match st.putInterface ic with
  | none => none
  | some st => copyMethods classes this isAbstract ic (methodsOf classes ic) st

/-- `update_local_itables`. -/
def updateLocalItables (classes : List LoadedClass) (this : ℕ) (isAbstract : Bool)
    (super : Option ℕ) : (fuel : ℕ) → (intf : ℕ) → FillState → Option FillState
  | 0, _, _ => none
  | fuel + 1, intf, st =>
    (localInterfacesOf classes intf).foldlM
      (fun st superIntf =>
        match
          if superIntf ∈ itableIds classes super then some st
          else itableCopyDown classes this isAbstract st superIntf with
        | none => none
        | some st => updateLocalItables classes this isAbstract super fuel superIntf st)
      st

/-- `check_and_initialize_itable`, for the class with the id `this`. -/
def initializeItable (classes : List LoadedClass) (this : ℕ) (c : LoadedClass) (itable : Itable) :
    Option FillState :=
  match (itableIds classes c.super).foldlM (itableCopyDown classes this c.isAbstract)
      ⟨0, 0, itable⟩ with
  | none => none
  | some st => updateLocalItables classes this c.isAbstract c.super (this + 1) this st

/-! ## Events -/

/-- `<clinit>`, the name of a class initializer. -/
def clinitName : Symbol :=
  [byte '<', byte 'c', byte 'l', byte 'i', byte 'n', byte 'i', byte 't', byte '>']

/-- `is_class_initializer`. -/
def Method.isClassInitializer (m : Method) : Bool :=
  m.name == clinitName && m.signature == [byte '(', byte ')', byte 'V']

/-- The loop of `remove_clinit`: the first class initializer is cleared. -/
def removeClinit : List (Option Method) → List (Option Method)
  | [] => []
  | none :: methods => none :: removeClinit methods
  | some m :: methods =>
    if m.isClassInitializer then none :: methods else some m :: removeClinit methods

/-- The empty itable for the computed size. -/
def Itable.blank (size : ℕ × ℕ) : Itable :=
  ⟨List.replicate size.1 none, List.replicate size.2 .null⟩

/-- The loading of a class on top of the loaded ones. -/
def loadClass (classes : List LoadedClass) (c : LoadedClass) : Option (List LoadedClass) :=
  match computeItableSize classes c.localInterfaces c.super with
  | none => none
  | some size =>
    let blank := { c with itable := .blank size }
    (initializeItable (classes ++ [blank]) classes.length c (.blank size)).map
      fun st => classes ++ [{ c with itable := st.itable }]

end CldcVm.Dispatch
