import CldcVm.Dispatch.ClassFile

/-!
# Overriding

The rule of `invokevirtual`: which method a class has for a method of one of its
superclasses; and the rule by which a vtable slot changes from a class to its
subclass, which looks only at the method that is in the slot.

Result: `Occupies.selects`: both come to the same, where a method of less access
than the one in the slot does not override it.
-/

namespace CldcVm.Dispatch

/-- A class, followed by its superclasses. -/
abbrev InstanceClass := List ClassFile

/-- A method with its holder. -/
structure HeldMethod where
  holder : InstanceClass
  method : Method
deriving DecidableEq

/-! ## The rule -/

/-- The class has the method among its own. -/
def HasMethod : InstanceClass → HeldMethod → Prop
  | [], _ => False
  | file :: supers, n => n.holder = file :: supers ∧ some n.method ∈ file.methods

/-- The package of the holder. -/
def HeldMethod.package (n : HeldMethod) : Option (Option Symbol) :=
  n.holder.head?.map fun file => packageOf file.name

/-- What the method in a superclass and its overrider have in common. -/
structure IsOverrider (n m : HeldMethod) : Prop where
  declared : HasMethod n.holder n
  isSuper : m.holder <:+ n.holder
  ne : m.holder ≠ n.holder
  isMatch : n.method.Matches m.method
  not_static : n.method.isStatic = false
  not_initializer : n.method.isObjectInitializer = false
  not_private : n.method.isPrivate = false

/-- The method overrides the other one: that is public or protected, or it is package
private in the same package. -/
def DirectlyOverrides (n m : HeldMethod) : Prop :=
  IsOverrider n m ∧
    (m.method.IsOpen ∨ m.method.isPackagePrivate = true ∧ n.package = m.package)

/-- The method overrides the other one, maybe by way of others. -/
def Overrides : HeldMethod → HeldMethod → Prop := Relation.TransGen DirectlyOverrides

/-- The rule of `invokevirtual`: what a class has for the method `m`. Its own method is
selected where it overrides `m` and stands in the relation `keeps` to what the
superclass has; else the class has what the superclass has. -/
inductive Selects (keeps : HeldMethod → HeldMethod → Prop) (m : HeldMethod) :
    InstanceClass → HeldMethod → Prop
  | declared : Selects keeps m m.holder m
  | overridden {file : ClassFile} {supers : InstanceClass} {o n : HeldMethod} :
      Selects keeps m supers o → HasMethod (file :: supers) n → Overrides n m → keeps n o →
      Selects keeps m (file :: supers) n
  | inherited {file : ClassFile} {supers : InstanceClass} {o : HeldMethod} :
      Selects keeps m supers o →
      (∀ n, HasMethod (file :: supers) n → Overrides n m → ¬keeps n o) →
      Selects keeps m (file :: supers) o

/-- The method has not less access than the one in the superclass: for a public or
protected method, it is public or protected. -/
def KeepsAccess (n o : HeldMethod) : Prop := o.method.IsOpen → n.method.IsOpen

/-! ## Slots -/

/-- The method takes the slot of the method that is in it. -/
def TakesSlot (n o : HeldMethod) : Prop :=
  IsOverrider n o ∧
    (o.method.IsOpen ∧ n.method.IsOpen ∨
      o.method.isPackagePrivate = true ∧ n.package = o.package)

/-- What is in the slot of `m`, from the holder of `m` down to a class. -/
inductive Occupies (m : HeldMethod) : InstanceClass → HeldMethod → Prop
  | declared : Occupies m m.holder m
  | taken {file : ClassFile} {supers : InstanceClass} {o n : HeldMethod} :
      Occupies m supers o → HasMethod (file :: supers) n → TakesSlot n o →
      Occupies m (file :: supers) n
  | kept {file : ClassFile} {supers : InstanceClass} {o : HeldMethod} :
      Occupies m supers o → (∀ n, HasMethod (file :: supers) n → ¬TakesSlot n o) →
      Occupies m (file :: supers) o

variable {m n o : HeldMethod} {c supers : InstanceClass} {file : ClassFile}

theorem TakesSlot.directlyOverrides (h : TakesSlot n o) : DirectlyOverrides n o :=
  ⟨h.1, h.2.imp And.left id⟩

theorem TakesSlot.keepsAccess (h : TakesSlot n o) : KeepsAccess n o := by
  intro hopen
  rcases h.2 with ⟨-, hn⟩ | ⟨hpackage, -⟩
  · exact hn
  · rcases o.method.access_cases with ⟨-, hnot, -⟩ | ⟨hnot, -⟩ | ⟨hnot, -⟩
    · rw [hnot] at hpackage
      cases hpackage
    · exact absurd hopen hnot
    · exact absurd hopen hnot

theorem Overrides.isOverrider (h : Overrides n m) : IsOverrider n m := by
  induction h with
  | single hdirect => exact hdirect.1
  | tail _ hdirect ih =>
    refine ⟨ih.declared, hdirect.1.isSuper.trans ih.isSuper, fun heq => ?_,
      ih.isMatch.trans hdirect.1.isMatch, ih.not_static, ih.not_initializer, ih.not_private⟩
    have hle := ih.isSuper.length_le
    rw [← heq] at hle
    exact hdirect.1.ne (hdirect.1.isSuper.eq_of_length_le hle)

theorem HasMethod.holder_eq (h : HasMethod c n) : n.holder = c := by
  cases c with
  | nil => exact h.elim
  | cons => exact h.1

theorem HasMethod.eq (h : HasMethod c n) (h' : HasMethod c o)
    (hmatches : n.method.Matches o.method) : n = o := by
  cases c with
  | nil => exact h.elim
  | cons file supers =>
    obtain ⟨hholder, hmem⟩ := h
    obtain ⟨hholder', hmem'⟩ := h'
    obtain ⟨nholder, nmethod⟩ := n
    obtain ⟨oholder, omethod⟩ := o
    simp only at *
    rw [hholder, hholder', file.eq_of_matches hmem hmem' hmatches]

/-- What is in a slot is the method of the slot or overrides it. -/
theorem Occupies.eq_or_overrides (h : Occupies m c o) : o = m ∨ Overrides o m := by
  induction h with
  | declared => exact .inl rfl
  | taken _ _ htakes ih =>
    right
    rcases ih with rfl | hoverrides
    · exact .single htakes.directlyOverrides
    · exact hoverrides.head htakes.directlyOverrides
  | kept _ _ ih => exact ih

theorem Occupies.holder_suffix (h : Occupies m c o) : o.holder <:+ c := by
  induction h with
  | declared => exact List.suffix_rfl
  | taken _ hmethod => exact hmethod.holder_eq ▸ List.suffix_rfl
  | kept _ _ ih => exact ih.trans (List.suffix_cons _ _)

theorem Overrides.cases_head (h : Overrides n m) :
    DirectlyOverrides n m ∨ ∃ x, DirectlyOverrides n x ∧ Overrides x m := by
  rcases Relation.TransGen.head'_iff.mp h with ⟨x, hdirect, hrest⟩
  rcases Relation.reflTransGen_iff_eq_or_transGen.mp hrest with rfl | hrest
  · exact .inl hdirect
  · exact .inr ⟨x, hdirect, hrest⟩

theorem Occupies.isMatch (h : Occupies m c o) : o.method.Matches m.method := by
  rcases h.eq_or_overrides with rfl | hoverrides
  · exact ⟨rfl, rfl⟩
  · exact hoverrides.isOverrider.isMatch

theorem not_isOpen_of_packagePrivate (h : n.method.isPackagePrivate = true) : ¬n.method.IsOpen := by
  rcases n.method.access_cases with ⟨-, hnot, -⟩ | ⟨hnot, -⟩ | ⟨hnot, -⟩
  · rw [hnot] at h
    cases h
  · exact hnot
  · exact hnot

theorem Occupies.isOverrider (hslot : Occupies m supers o) (h : Overrides n m)
    (hn : HasMethod (file :: supers) n) : IsOverrider n o := by
  have hover := h.isOverrider
  have hholder := hn.holder_eq
  have hsuffix := hslot.holder_suffix
  refine ⟨hover.declared, ?_, fun heq => ?_, hover.isMatch.trans hslot.isMatch.symm,
    hover.not_static, hover.not_initializer, hover.not_private⟩
  · rw [hholder]
    exact hsuffix.trans (List.suffix_cons _ _)
  · have hle := hsuffix.length_le
    rw [heq, hholder, List.length_cons] at hle
    omega

/-- Where all that overrides a package private method in the superclasses is in its
package, so is what overrides it in the class. -/
theorem Overrides.package_eq (h : Overrides n m) (hn : HasMethod (file :: supers) n)
    (hm : m.method.isPackagePrivate = true) (hall : ∀ x, Overrides x m → x.holder <:+ supers →
      ¬x.method.IsOpen ∧ x.package = m.package) : n.package = m.package := by
  rcases h.cases_head with ⟨-, hopen | ⟨-, hpackage⟩⟩ | ⟨x, ⟨hover, haccess⟩, hrest⟩
  · exact absurd hopen (not_isOpen_of_packagePrivate hm)
  · exact hpackage
  · have hsuffix := hover.isSuper
    have hne := hover.ne
    rw [hn.holder_eq] at hsuffix hne
    obtain ⟨hclosed, hpackage⟩ :=
      hall x hrest ((List.suffix_cons_iff.mp hsuffix).resolve_left hne)
    rcases haccess with hopen | ⟨-, hsame⟩
    · exact absurd hopen hclosed
    · exact hsame.trans hpackage

/-- While the method in the slot is package private, what overrides the method of the slot
is so too, and in the same package. -/
theorem Occupies.packagePrivate (h : Occupies m c o) (ho : o.method.isPackagePrivate = true) :
    m.method.isPackagePrivate = true ∧ o.package = m.package ∧
      ∀ x, Overrides x m → x.holder <:+ c → ¬x.method.IsOpen ∧ x.package = m.package := by
  induction h with
  | declared =>
    refine ⟨ho, rfl, fun x hx hsuffix => ?_⟩
    have hover := hx.isOverrider
    exact absurd (hover.isSuper.eq_of_length_le hsuffix.length_le) hover.ne
  | @taken file supers o n hslot hn htakes ih =>
    rcases htakes.2 with ⟨-, hopen⟩ | ⟨hpackage, hsame⟩
    · exact absurd hopen (not_isOpen_of_packagePrivate ho)
    · obtain ⟨hm, hom, hall⟩ := ih hpackage
      refine ⟨hm, hsame.trans hom, fun x hx hsuffix => ?_⟩
      rcases List.suffix_cons_iff.mp hsuffix with heq | hsuffix
      · -- the class has no other matching method
        have hover := hx.isOverrider
        have hdeclared := hover.declared
        rw [heq] at hdeclared
        obtain rfl := hdeclared.eq hn
          (hover.isMatch.trans (htakes.1.isMatch.trans hslot.isMatch).symm)
        exact ⟨not_isOpen_of_packagePrivate ho, hsame.trans hom⟩
      · exact hall x hx hsuffix
  | @kept file supers o hslot hkept ih =>
    obtain ⟨hm, hom, hall⟩ := ih ho
    refine ⟨hm, hom, fun x hx hsuffix => ?_⟩
    rcases List.suffix_cons_iff.mp hsuffix with heq | hsuffix
    · -- it would have taken the slot
      have hdeclared := hx.isOverrider.declared
      rw [heq] at hdeclared
      have hpackage := hx.package_eq hdeclared hm hall
      exact absurd ⟨hslot.isOverrider hx hdeclared, .inr ⟨ho, hpackage.trans hom.symm⟩⟩
        (hkept x hdeclared)
    · exact hall x hx hsuffix

theorem Overrides.not_private (h : Overrides n m) : m.method.isPrivate = false := by
  have hlast : ∀ {x}, DirectlyOverrides x m → m.method.isPrivate = false := by
    intro x hx
    rcases m.method.access_cases with ⟨-, -, hnot⟩ | ⟨-, -, hnot⟩ | ⟨hclosed, hpackage, -⟩
    · exact hnot
    · exact hnot
    · rcases hx.2 with hopen | ⟨hpackage', -⟩
      · exact absurd hopen hclosed
      · rw [hpackage] at hpackage'
        cases hpackage'
  cases h with
  | single hdirect => exact hlast hdirect
  | tail _ hdirect => exact hlast hdirect

/-- **Step lemma**: the methods that take a slot are those that override the method of the
slot, and have not less access than the method in it. -/
theorem Occupies.takesSlot_iff (hslot : Occupies m supers o) (hn : HasMethod (file :: supers) n) :
    TakesSlot n o ↔ Overrides n m ∧ KeepsAccess n o := by
  constructor
  · intro htakes
    refine ⟨?_, htakes.keepsAccess⟩
    rcases hslot.eq_or_overrides with rfl | hoverrides
    · exact .single htakes.directlyOverrides
    · exact hoverrides.head htakes.directlyOverrides
  · rintro ⟨hoverrides, hkeeps⟩
    refine ⟨hslot.isOverrider hoverrides hn, ?_⟩
    rcases o.method.access_cases with ⟨hopen, -⟩ | ⟨-, hpackage, -⟩ | ⟨-, -, hprivate⟩
    · exact .inl ⟨hopen, hkeeps hopen⟩
    · obtain ⟨hm, hom, hall⟩ := hslot.packagePrivate hpackage
      exact .inr ⟨hpackage, (hoverrides.package_eq hn hm hall).trans hom.symm⟩
    · have hnot : o.method.isPrivate = false := by
        rcases hslot.eq_or_overrides with rfl | ho
        · exact hoverrides.not_private
        · exact ho.isOverrider.not_private
      rw [hnot] at hprivate
      cases hprivate

/-- **Run lemma**: what is in the slot of a method is what the rule selects, where a method
of less access does not override. -/
theorem Occupies.selects (h : Occupies m c o) : Selects KeepsAccess m c o := by
  induction h with
  | declared => exact .declared
  | taken hslot hn htakes ih =>
    obtain ⟨hoverrides, hkeeps⟩ := (hslot.takesSlot_iff hn).mp htakes
    exact .overridden ih hn hoverrides hkeeps
  | kept hslot hkept ih =>
    refine .inherited ih fun n hn hoverrides hkeeps => ?_
    exact hkept n hn ((hslot.takesSlot_iff hn).mpr ⟨hoverrides, hkeeps⟩)

end CldcVm.Dispatch
