import CldcVm.Handles.ClassIdentifier

/-!
# Classes and their methods

What the dispatch tables need of a class: its name, with the package
(`handles/Symbol.cpp`, lines 60–116), and its methods, with their access flags
(`utilities/AccessFlags.hpp`).

Result: `isSameClassPackage_iff`: the code compares the packages.
-/

namespace CldcVm.Dispatch

open Handles (byte)

/-- The bytes of a symbol. Symbols are interned: the same bytes are the same symbol. -/
abbrev Symbol := List UInt8

/-! ## Packages -/

/-- `strrchr`: the last place of a byte below `len`; `none` is `-1`. -/
def strrchr (symbol : Symbol) (c : UInt8) : (len : ℕ) → Option ℕ
  | 0 => none
  | len + 1 => if symbol[len]? = some c then some len else strrchr symbol c len

/-- The start of the comparison: the brackets of an array class are skipped. -/
def packageStart (symbol : Symbol) : Option ℕ :=
  let start := (symbol.takeWhile (· == byte '[')).length
  if start ≠ 0 ∧ symbol[start]? ≠ some (byte 'L') then none else some start

/-- `is_same_class_package` (lines 72–116). -/
def isSameClassPackage (symbol other : Symbol) : Bool :=
  match strrchr symbol (byte '/') symbol.length, strrchr other (byte '/') other.length with
  | some end1, some end2 =>
    match packageStart symbol, packageStart other with
    | some start1, some start2 =>
      if end1 - start1 ≠ end2 - start2 then false
      else (List.range (end1 - start1)).all fun i => symbol[i + start1]? == other[i + start2]?
    | _, _ => false
  | none, none => true
  | _, _ => false

/-- The package of a class: what stands before the last slash of its name. -/
def packageOf : (name : Symbol) → Option Symbol
  | [] => none
  | c :: rest =>
    match packageOf rest with
    | some package => some (c :: package)
    | none => if c = byte '/' then some [] else none

theorem packageOf_eq_none_iff {name : Symbol} : packageOf name = none ↔ byte '/' ∉ name := by
  induction name with
  | nil => exact iff_of_true rfl List.not_mem_nil
  | cons c rest ih =>
    unfold packageOf
    cases hrest : packageOf rest with
    | some package =>
      have hmem : byte '/' ∈ rest := by
        by_contra hnot
        rw [ih.mpr hnot] at hrest
        cases hrest
      exact iff_of_false nofun fun h => h (List.mem_cons_of_mem c hmem)
    | none =>
      have hnot := ih.mp hrest
      simp only [List.mem_cons, not_or]
      split_ifs with hc
      · exact iff_of_false nofun fun h => h.1 hc.symm
      · exact iff_of_true rfl ⟨fun h => hc h.symm, hnot⟩

theorem packageOf_append {simple : Symbol} (package : Symbol) (h : byte '/' ∉ simple) :
    packageOf (package ++ byte '/' :: simple) = some package := by
  induction package with
  | nil =>
    show packageOf (byte '/' :: simple) = some []
    unfold packageOf
    rw [packageOf_eq_none_iff.mpr h]
    exact if_pos rfl
  | cons c package ih =>
    show packageOf (c :: (package ++ byte '/' :: simple)) = _
    rw [packageOf, ih]

theorem strrchr_eq_none {symbol : Symbol} {c : UInt8} {len : ℕ} (h : strrchr symbol c len = none) :
    ∀ j < len, symbol[j]? ≠ some c := by
  induction len with
  | zero => exact nofun
  | succ len ih =>
    unfold strrchr at h
    split_ifs at h with hlast
    intro j hj
    rcases Nat.lt_succ_iff_lt_or_eq.mp hj with hj | rfl
    · exact ih h j hj
    · exact hlast

theorem strrchr_eq_some {symbol : Symbol} {c : UInt8} {len k : ℕ}
    (h : strrchr symbol c len = some k) :
    k < len ∧ symbol[k]? = some c ∧ ∀ j < len, k < j → symbol[j]? ≠ some c := by
  induction len with
  | zero => cases h
  | succ len ih =>
    unfold strrchr at h
    split_ifs at h with hlast
    · cases h
      exact ⟨Nat.lt_succ_self k, hlast, fun j hj hkj => absurd hj (by omega)⟩
    · obtain ⟨hk, hc, hrest⟩ := ih h
      refine ⟨by omega, hc, fun j hj hkj => ?_⟩
      rcases Nat.lt_succ_iff_lt_or_eq.mp hj with hj | rfl
      · exact hrest j hj hkj
      · exact hlast

theorem packageOf_eq (name : Symbol) :
    packageOf name = (strrchr name (byte '/') name.length).map fun k => name.take k := by
  cases hlast : strrchr name (byte '/') name.length with
  | none =>
    refine packageOf_eq_none_iff.mpr fun hmem => ?_
    obtain ⟨j, hj, hc⟩ := List.mem_iff_getElem.mp hmem
    exact strrchr_eq_none hlast j hj (by rw [List.getElem?_eq_getElem hj, hc])
  | some k =>
    obtain ⟨hk, hc, hrest⟩ := strrchr_eq_some hlast
    rw [List.getElem?_eq_getElem hk, Option.some.injEq] at hc
    have hsplit : name = name.take k ++ byte '/' :: name.drop (k + 1) := by
      rw [← hc, List.getElem_cons_drop, List.take_append_drop]
    have hsimple : byte '/' ∉ name.drop (k + 1) := by
      intro hmem
      obtain ⟨j, hj, hc'⟩ := List.mem_iff_getElem.mp hmem
      rw [List.length_drop] at hj
      rw [List.getElem_drop] at hc'
      refine hrest (k + 1 + j) (by omega) (by omega) ?_
      rw [List.getElem?_eq_getElem (by omega), hc']
    show packageOf name = some (name.take k)
    conv_lhs => rw [hsplit]
    exact packageOf_append _ hsimple

theorem packageStart_eq {symbol : Symbol} (h : symbol.head? ≠ some (byte '[')) :
    packageStart symbol = some 0 := by
  have hnone : symbol.takeWhile (· == byte '[') = [] := by
    cases symbol with
    | nil => rfl
    | cons c rest =>
      refine List.takeWhile_cons_of_neg fun hc => h ?_
      rw [beq_iff_eq.mp hc]
      rfl
  unfold packageStart
  rw [hnone]
  exact if_neg fun hne => hne.1 rfl

/-- The code compares the packages of names that are not those of array classes. -/
theorem isSameClassPackage_iff {symbol other : Symbol} (h : symbol.head? ≠ some (byte '['))
    (h' : other.head? ≠ some (byte '[')) :
    isSameClassPackage symbol other = true ↔ packageOf symbol = packageOf other := by
  rw [packageOf_eq, packageOf_eq]
  unfold isSameClassPackage
  rw [packageStart_eq h, packageStart_eq h']
  cases hend1 : strrchr symbol (byte '/') symbol.length with
  | none =>
    cases strrchr other (byte '/') other.length with
    | none => exact iff_of_true rfl rfl
    | some end2 => exact iff_of_false nofun nofun
  | some end1 =>
    cases hend2 : strrchr other (byte '/') other.length with
    | none => exact iff_of_false nofun nofun
    | some end2 =>
      obtain ⟨hlt1, -, -⟩ := strrchr_eq_some hend1
      obtain ⟨hlt2, -, -⟩ := strrchr_eq_some hend2
      simp only [Nat.sub_zero, Nat.add_zero, Option.map_some, Option.some.injEq]
      split_ifs with hne
      · refine iff_of_false nofun fun heq => hne ?_
        have hlengths := congrArg List.length heq
        rw [List.length_take, List.length_take] at hlengths
        omega
      · obtain rfl : end1 = end2 := not_not.mp hne
        rw [List.all_eq_true]
        constructor
        · intro hall
          apply List.ext_getElem?
          intro i
          rw [List.getElem?_take, List.getElem?_take]
          split_ifs with hi
          · exact beq_iff_eq.mp (hall i (List.mem_range.mpr hi))
          · rfl
        · intro heq i hi
          have hi := List.mem_range.mp hi
          have hbytes := congrArg (fun l => l[i]?) heq
          rw [List.getElem?_take_of_lt hi, List.getElem?_take_of_lt hi] at hbytes
          exact beq_iff_eq.mpr hbytes

/-! ## Methods -/

/-- The access of a method. The parser refuses other combinations of the three flags
(`are_valid_method_access_flags`). -/
inductive Access
  | accPublic | accProtected | accPackagePrivate | accPrivate
deriving DecidableEq, Repr

/-- What the dispatch tables need of a method. -/
structure Method where
  name : Symbol
  signature : Symbol
  access : Access
  isStatic : Bool
  isFinal : Bool
deriving DecidableEq, Repr

namespace Method

def isPublic (m : Method) : Bool := m.access == .accPublic

def isProtected (m : Method) : Bool := m.access == .accProtected

def isPackagePrivate (m : Method) : Bool := m.access == .accPackagePrivate

def isPrivate (m : Method) : Bool := m.access == .accPrivate

/-- `is_object_initializer`: the name is `<init>`. -/
def isObjectInitializer (m : Method) : Bool :=
  m.name == [byte '<', byte 'i', byte 'n', byte 'i', byte 't', byte '>']

/-- `match`: the same name and signature. -/
def Matches (m m' : Method) : Prop := m.name = m'.name ∧ m.signature = m'.signature

instance (m m' : Method) : Decidable (m.Matches m') := instDecidableAnd

theorem Matches.symm {m m' : Method} (h : m.Matches m') : m'.Matches m := ⟨h.1.symm, h.2.symm⟩

theorem Matches.trans {m m' m'' : Method} (h : m.Matches m') (h' : m'.Matches m'') :
    m.Matches m'' := ⟨h.1.trans h'.1, h.2.trans h'.2⟩

/-- Public or protected. -/
def IsOpen (m : Method) : Prop := m.isPublic = true ∨ m.isProtected = true

instance (m : Method) : Decidable m.IsOpen := instDecidableOr

theorem access_cases (m : Method) : m.IsOpen ∧ m.isPackagePrivate = false ∧ m.isPrivate = false ∨
      ¬m.IsOpen ∧ m.isPackagePrivate = true ∧ m.isPrivate = false ∨
      ¬m.IsOpen ∧ m.isPackagePrivate = false ∧ m.isPrivate = true := by
  obtain ⟨name, signature, access, isStatic, isFinal⟩ := m
  cases access with
  | accPublic => exact .inl ⟨.inl rfl, rfl, rfl⟩
  | accProtected => exact .inl ⟨.inr rfl, rfl, rfl⟩
  | accPackagePrivate => exact .inr (.inl ⟨nofun, rfl, rfl⟩)
  | accPrivate => exact .inr (.inr ⟨nofun, rfl, rfl⟩)

end Method

/-! ## Class files -/

/-- What the dispatch tables need of a class. An entry of the methods is null where a
method has been removed. The name is not that of an array class, and no two
methods match (`check_for_duplicate_methods`). -/
structure ClassFile where
  name : Symbol
  isFinal : Bool
  methods : List (Option Method)
  name_head : name.head? ≠ some (byte '[')
  methods_pairwise : methods.Pairwise fun o o' =>
    ∀ m ∈ o, ∀ m' ∈ o', ¬m.Matches m'
deriving DecidableEq

theorem ClassFile.eq_of_matches {c : ClassFile} {m m' : Method} (h : some m ∈ c.methods)
    (h' : some m' ∈ c.methods) (hmatches : m.Matches m') : m = m' := by
  by_contra hne
  have hsymm : Std.Symm fun o o' : Option Method => ∀ m ∈ o, ∀ m' ∈ o', ¬m.Matches m' :=
    ⟨fun _ _ hR m hm m' hm' hmatch => hR m' hm' m hm hmatch.symm⟩
  have hR := c.methods_pairwise.forall h h' fun heq => hne (Option.some.inj heq)
  exact hR m rfl m' rfl hmatches

end CldcVm.Dispatch
