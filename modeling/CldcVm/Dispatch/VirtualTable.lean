import CldcVm.Dispatch.Overriding

/-!
# Building vtables

Models of `JavaVTable::compute_vtable_size` (`runtime/JavaVTable.cpp`, lines 33–69),
`JavaClass::copy_super_vtable`, `initialize_vtable` and `vtable_accessibility_at`
(`handles/JavaClass.cpp`, lines 393–446), and `InstanceClass::update_vtable` and
`needs_new_vtable_entry` (`handles/InstanceClass.cpp`, lines 739–867).

The model ends with `none` where the code would write outside a table or use a null
method.
-/

namespace CldcVm.Dispatch

/-! ## Tables -/

/-- The methods of a class, in the order of its slots. -/
abbrev Vtable := List (Option HeldMethod)

/-- A loaded class. -/
structure ClassInfo where
  file : ClassFile
  vtable : Vtable

/-- `vtable_at_put` and `vtable_at_clear`. -/
def vtableAtPut (vtable : Vtable) (index : ℕ) (m : Option HeldMethod) : Option Vtable :=
  if index < vtable.length then some (vtable.set index m) else none

/-- The vtable of the first of the classes; there is none where the class is null. -/
def vtableOfSuper : List ClassInfo → Vtable
  | [] => []
  | info :: _ => info.vtable

/-- `AccessType`. -/
inductive AccessType
  | accPrivate | accPackagePrivate | accPublicProtected
deriving DecidableEq, Repr

/-- The numbers of the access types. -/
def AccessType.toNat : AccessType → ℕ
  | accPrivate => 0
  | accPackagePrivate => 1
  | accPublicProtected => 2

/-- `vtable_accessibility_at`: the most general access in the classes. -/
def vtableAccessibilityAt : List ClassInfo → (index : ℕ) → Option AccessType
  | [], _ => some .accPrivate
  | info :: supers, index =>
    match info.vtable[index]? with
    | none => some .accPrivate
    | some none => none
    | some (some m) =>
      if m.method.isProtected ∨ m.method.isPublic then some .accPublicProtected
      else
        let acc := if m.method.isPackagePrivate then .accPackagePrivate else .accPrivate
        match vtableAccessibilityAt supers index with
        | none => none
        | some superAcc => some (if acc.toNat < superAcc.toNat then superAcc else acc)

/-! ## Entries for methods -/

/-- The body of the loop of `needs_new_vtable_entry` (lines 810–863): the method shares
the entry of the superclass. -/
def sharesEntry (method : HeldMethod) (super : List ClassInfo) (classname : Symbol)
    (index : ℕ) : Option Bool :=
  match (vtableOfSuper super)[index]? with
  | none => some false
  | some none => some false
  | some (some found) =>
    if method.method.name = found.method.name ∧ method.method.signature = found.method.signature then
      match found.holder with
      | [] => none
      | holder :: _ =>
        let simple := found.method.isPublic || found.method.isProtected
        let samePackageInit := !simple
        let samePackageFlag := samePackageInit && isSameClassPackage holder.name classname
        let simpleMatch := simple || (found.method.isPackagePrivate && samePackageFlag)
        if simpleMatch then
          match vtableAccessibilityAt super index with
          | none => none
          | some access => some (
              (access == .accPublicProtected &&
                (method.method.isPublic || method.method.isProtected)) ||
              (access == .accPackagePrivate && (!method.method.isPrivate &&
                ((samePackageInit && samePackageFlag) ||
                  (!samePackageInit && isSameClassPackage holder.name classname)))))
        else some false
    else some false

/-- The loop over the entries of the superclass. -/
def searchVtable (method : HeldMethod) (super : List ClassInfo) (classname : Symbol)
    (updateEntries : Bool) : List ℕ → (allocateNew : Bool) → Vtable → Option (Bool × Vtable)
  | [], allocateNew, info => some (allocateNew, info)
  | index :: rest, allocateNew, info =>
    match sharesEntry method super classname index with
    | none => none
    | some false => searchVtable method super classname updateEntries rest allocateNew info
    | some true =>
      if updateEntries then
        match vtableAtPut info index (some method) with
        | none => none
        | some info => searchVtable method super classname updateEntries rest false info
      else searchVtable method super classname updateEntries rest false info

/-- `needs_new_vtable_entry`. -/
def needsNewVtableEntry (method : Option HeldMethod) (super : List ClassInfo) (classname : Symbol)
    (isFinalClass : Bool) (info : Vtable) (updateEntries : Bool) : Option (Bool × Vtable) :=
  match method with
  | none => some (false, info)
  | some method =>
    if method.method.isStatic || method.method.isObjectInitializer then some (false, info)
    else
      let allocateNew := !(isFinalClass || method.method.isFinal)
      match super with
      | [] => some (allocateNew, info)
      | superInfo :: _ =>
        if method.method.isPrivate then some (allocateNew, info)
        else
          searchVtable method super classname updateEntries
            (List.range superInfo.vtable.length) allocateNew info

/-! ## Vtables of classes -/

/-- `base_vtable_size`, that of `java.lang.Object`. -/
def baseVtableSize (useReflection : Bool) : ℕ := if useReflection then 4 else 3

/-- The loop of `compute_vtable_size`. -/
def countEntries (super : List ClassInfo) (classname : Symbol) (isFinalClass : Bool) :
    List (Option HeldMethod) → (vtableLength : ℕ) → Option ℕ
  | [], vtableLength => some vtableLength
  | m :: methods, vtableLength =>
    match needsNewVtableEntry m super classname isFinalClass [] false with
    | none => none
    | some (needsNew, _) =>
      countEntries super classname isFinalClass methods
        (if needsNew then vtableLength + 1 else vtableLength)

/-- `compute_vtable_size`. -/
def computeVtableSize (useReflection : Bool) (super : List ClassInfo)
    (methods : List (Option HeldMethod)) (isFinalClass : Bool) (classname : Symbol) : Option ℕ :=
  (countEntries super classname isFinalClass methods (vtableOfSuper super).length).map
    fun vtableLength => if vtableLength = 0 then baseVtableSize useReflection else vtableLength

/-- The loop of `copy_super_vtable`, from an index on. -/
def copyEntries : (source : Vtable) → (index : ℕ) → Vtable → Option Vtable
  | [], _, vtable => some vtable
  | m :: source, index, vtable =>
    match vtableAtPut vtable index m with
    | none => none
    | some vtable => copyEntries source (index + 1) vtable

/-- The first loop of `update_vtable`. -/
def updateEntries (super : List ClassInfo) (classname : Symbol) (isFinalClass : Bool) :
    List (Option HeldMethod) → (firstFree : ℕ) → Vtable → Option (ℕ × Vtable)
  | [], firstFree, info => some (firstFree, info)
  | m :: methods, firstFree, info =>
    match needsNewVtableEntry m super classname isFinalClass info true with
    | none => none
    | some (false, info) => updateEntries super classname isFinalClass methods firstFree info
    | some (true, info) =>
      match vtableAtPut info firstFree m with
      | none => none
      | some info => updateEntries super classname isFinalClass methods (firstFree + 1) info

/-- The second loop of `update_vtable`. -/
def clearEntries : (count firstFree : ℕ) → Vtable → Option Vtable
  | 0, _, info => some info
  | count + 1, firstFree, info =>
    match vtableAtPut info firstFree none with
    | none => none
    | some info => clearEntries count (firstFree + 1) info

/-- `initialize_vtable`, for a table of the length. -/
def initializeVtable (super : List ClassInfo) (methods : List (Option HeldMethod))
    (isFinalClass : Bool) (classname : Symbol) (vtableLength : ℕ) : Option Vtable :=
  let superVtable := vtableOfSuper super
  match copyEntries superVtable 0 (List.replicate vtableLength none) with
  | none => none
  | some info =>
    match updateEntries super classname isFinalClass methods superVtable.length info with
    | none => none
    | some (firstFree, info) => clearEntries (info.length - firstFree) firstFree info

/-- The methods of a class with their holder. -/
def heldMethods (file : ClassFile) (supers : InstanceClass) : List (Option HeldMethod) :=
  file.methods.map fun o => o.map fun m => ⟨file :: supers, m⟩

/-- The loading of a class (`runtime/ClassFileParser.cpp`, lines 1834–1840, 1930 and
2010), after that of its superclasses. -/
def load (useReflection : Bool) : InstanceClass → Option (List ClassInfo)
  | [] => some []
  | file :: supers =>
    match load useReflection supers with
    | none => none
    | some super =>
      let methods := heldMethods file supers
      match computeVtableSize useReflection super methods file.isFinal file.name with
      | none => none
      | some vtableLength =>
        (initializeVtable super methods file.isFinal file.name vtableLength).map
          fun vtable => ⟨file, vtable⟩ :: super

/-- The vtable of a class. -/
def vtableOf (useReflection : Bool) (c : InstanceClass) : Option Vtable :=
  (load useReflection c).map vtableOfSuper

end CldcVm.Dispatch
