import Mathlib.Tactic

/-!
# Permissions and their collections

`java/security/BasicPermission.java` and `java/util/PropertyPermission.java`: names that may end in
a wildcard, sets of actions, and collections that look names up in a table.

A table is a map from names to permissions (`Hashtable` refines one). All permissions of a
collection are of its class. A method gives `none` when it throws an exception.
-/

namespace CldcVm.Security

/-- `char`. -/
abbrev Jchar := BitVec 16

/-- `'.'`. -/
def dot : Jchar := 46

/-- `'*'`. -/
def star : Jchar := 42

/-! ## Names -/

/-- `BasicPermission.init`: `wildcard` and `path`. -/
def init (name : List Jchar) : Option (Bool × List Jchar) :=
  let len := name.length
  if len = 0 then none
  else if name[len - 1]? = some star ∧ (len = 1 ∨ name[len - 2]? = some dot) then
    some (true, if len = 1 then [] else name.take (len - 1))
  else some (false, name)

/-- `BasicPermission`. -/
structure BasicPermission where
  name : List Jchar
  wildcard : Bool
  path : List Jchar
  made : init name = some (wildcard, path)

/-- The constructor. -/
def BasicPermission.new (name : List Jchar) : Option BasicPermission :=
  match h : init name with
  | none => none
  | some (wildcard, path) => some ⟨name, wildcard, path, h⟩

/-- `BasicPermission.implies`, for permissions of one class. -/
def BasicPermission.implies (self that : BasicPermission) : Bool :=
  if self.wildcard then
    if that.wildcard then self.path.isPrefixOf that.path
    else decide (that.path.length > self.path.length) && self.path.isPrefixOf that.path
  else if that.wildcard then false
  else self.path == that.path

/-- `String.lastIndexOf`, at the positions below `limit`. -/
def lastIndexOf (s : List Jchar) (c : Jchar) : (limit : ℕ) → Option ℕ
  | 0 => none
  | limit + 1 => if s[limit]? = some c then some limit else lastIndexOf s c limit

/-! ## Collections of basic permissions -/

/-- `BasicPermissionCollection`. -/
structure BasicPermissionCollection where
  perms : List Jchar → Option BasicPermission
  allAllowed : Bool
  readOnly : Bool

/-- An empty collection. -/
def BasicPermissionCollection.new : BasicPermissionCollection := ⟨fun _ => none, false, false⟩

/-- `add`. -/
def BasicPermissionCollection.add (c : BasicPermissionCollection) (bp : BasicPermission) :
    Option BasicPermissionCollection :=
  if c.readOnly then none
  else some { c with
    perms := Function.update c.perms bp.name (some bp)
    allAllowed := if ¬ c.allAllowed ∧ bp.name = [star] then true else c.allAllowed }

/-- The loop of `implies`: the positions of `path` below `limit` are left. -/
def BasicPermissionCollection.climb (c : BasicPermissionCollection) (bp : BasicPermission) :
    (fuel : ℕ) → (path : List Jchar) → (limit : ℕ) → Bool
  | 0, _, _ => false
  | fuel + 1, path, limit =>
    match lastIndexOf path dot limit with
    | none => false
    | some last =>
      match c.perms (path.take (last + 1) ++ [star]) with
      | some x => x.implies bp
      | none => c.climb bp fuel (path.take (last + 1) ++ [star]) last

/-- `implies`. -/
def BasicPermissionCollection.implies (c : BasicPermissionCollection) (bp : BasicPermission) :
    Bool :=
  if c.allAllowed then true
  else
    match c.perms bp.name with
    | some x => x.implies bp
    | none => c.climb bp (bp.name.length + 1) bp.name bp.name.length

/-! ## Actions -/

/-- `READ`. -/
def READ : ℕ := 1

/-- `WRITE`. -/
def WRITE : ℕ := 2

/-- `"read"` and `"READ"`. -/
def readLetters : List (Jchar × Jchar) := [(114, 82), (101, 69), (97, 65), (100, 68)]

/-- `"write"` and `"WRITE"`. -/
def writeLetters : List (Jchar × Jchar) := [(119, 87), (114, 82), (105, 73), (116, 84), (101, 69)]

/-- A word ends before position `n`. -/
def wordBefore (a : List Jchar) (n : ℕ) (letters : List (Jchar × Jchar)) : Bool :=
  decide (letters.length ≤ n) &&
    (letters.zipIdx (n - letters.length)).all fun l =>
      decide (a[l.2]? = some l.1.1) || decide (a[l.2]? = some l.1.2)

/-- The loop of `getMask`, with `i + 1` characters left. -/
def getMaskLoop (a : List Jchar) : (fuel : ℕ) → (n : ℕ) → (mask : ℕ) → Option ℕ
  | _, 0, mask => some mask
  | 0, _ + 1, _ => none
  | fuel + 1, n, mask => do
    let (matchlen, mask) ←
      if wordBefore a n readLetters then some (4, mask ||| READ)
      else if wordBefore a n writeLetters then some (5, mask ||| WRITE)
      else none
    if n > matchlen then
      if n > matchlen + 1 ∧ a[n - 1 - matchlen]? = some 44 then
        getMaskLoop a fuel (n - 1 - matchlen) mask
      else none
    else getMaskLoop a fuel (n - matchlen) mask

/-- `PropertyPermission.getMask`. -/
def getMask (actions : List Jchar) : Option ℕ :=
  getMaskLoop actions actions.length actions.length 0

/-- `PropertyPermission.getActions`. -/
def getActions (mask : ℕ) : List Jchar :=
  let read := mask &&& READ = READ
  (if read then [114, 101, 97, 100] else []) ++
    if mask &&& WRITE = WRITE then
      (if read then [44] else []) ++ [119, 114, 105, 116, 101]
    else []

/-- `PropertyPermission`. -/
structure PropertyPermission extends BasicPermission where
  mask : ℕ
  valid : mask &&& (READ ||| WRITE) = mask ∧ mask ≠ 0

/-- The constructor. -/
def PropertyPermission.new (name actions : List Jchar) : Option PropertyPermission := do
  let bp ← BasicPermission.new name
  let mask ← getMask actions
  if h : mask &&& (READ ||| WRITE) = mask ∧ mask ≠ 0 then some ⟨bp, mask, h⟩ else none

/-! ## Collections of property permissions -/

/-- `PropertyPermissionCollection`. -/
structure PropertyPermissionCollection where
  perms : List Jchar → Option PropertyPermission
  allAllowed : Bool
  readOnly : Bool

/-- An empty collection. -/
def PropertyPermissionCollection.new : PropertyPermissionCollection :=
  ⟨fun _ => none, false, false⟩

/-- What `add` puts into the table. -/
def PropertyPermissionCollection.merge (c : PropertyPermissionCollection)
    (pp : PropertyPermission) : Option PropertyPermission :=
  match c.perms pp.name with
  | some existing =>
    if existing.mask ≠ pp.mask then
      PropertyPermission.new pp.name (getActions (existing.mask ||| pp.mask))
    else some existing
  | none => some pp

/-- `add`. -/
def PropertyPermissionCollection.add (c : PropertyPermissionCollection) (pp : PropertyPermission) :
    Option PropertyPermissionCollection :=
  if c.readOnly then none
  else do
    let entry ← c.merge pp
    some { c with
      perms := Function.update c.perms pp.name (some entry)
      allAllowed := if ¬ c.allAllowed ∧ pp.name = [star] then true else c.allAllowed }

/-- `effective |= x.getMask()`, where there is an entry. -/
def accumulate (effective : ℕ) (x : Option PropertyPermission) : ℕ :=
  match x with
  | some x => effective ||| x.mask
  | none => effective

/-- The loop of `implies`: the positions of `name` below `limit` are left. -/
def PropertyPermissionCollection.climb (c : PropertyPermissionCollection) (desired : ℕ) :
    (fuel : ℕ) → (name : List Jchar) → (limit : ℕ) → (effective : ℕ) → Bool
  | 0, _, _, _ => false
  | fuel + 1, name, limit, effective =>
    match lastIndexOf name dot limit with
    | none => false
    | some last =>
      let name := name.take (last + 1) ++ [star]
      let effective := accumulate effective (c.perms name)
      if (c.perms name).isSome ∧ effective &&& desired = desired then true
      else c.climb desired fuel name last effective

/-- `implies`. -/
def PropertyPermissionCollection.implies (c : PropertyPermissionCollection)
    (pp : PropertyPermission) : Bool :=
  let desired := pp.mask
  let effective := if c.allAllowed then accumulate 0 (c.perms [star]) else 0
  if c.allAllowed ∧ (c.perms [star]).isSome ∧ effective &&& desired = desired then true
  else
    let effective := accumulate effective (c.perms pp.name)
    if (c.perms pp.name).isSome ∧ effective &&& desired = desired then true
    else c.climb desired (pp.name.length + 1) pp.name pp.name.length effective

end CldcVm.Security
