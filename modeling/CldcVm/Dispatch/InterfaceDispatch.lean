import CldcVm.Dispatch.ItableFill

/-!
# Interface dispatch

The runs of the class loader: classes are loaded, on top of their superclasses and
interfaces, and initialized, which clears their `<clinit>` entries.

Result: `interfaceDispatch_of_run`: over every run, the itables fit, and the slots of
the interface methods hold what `lookup_method` selects, if no class is loaded with
an interface that has a cleared entry before one of its methods.
-/

namespace CldcVm.Dispatch

open Handles (byte)

variable {classes classes' : List LoadedClass} {c c' : LoadedClass} {id : ℕ}

/-! ## Runs -/

/-- What the parser has checked of a class that is to be loaded. -/
structure Loadable (classes : List LoadedClass) (c : LoadedClass) : Prop where
  super_lt : ∀ s ∈ c.super, s < classes.length
  local_lt : ∀ j ∈ c.localInterfaces, j < classes.length
  holder_le : ∀ m, some m ∈ c.vtable → m.holder ≤ classes.length
  clinit_static : ∀ m, some m ∈ c.methods → m.name = clinitName → m.isStatic = true
  methods_pairwise : c.methods.Pairwise fun o o' => ∀ m ∈ o, ∀ m' ∈ o', ¬m.Matches m'

/-- A class is loaded, or a class is initialized. -/
inductive Step : List LoadedClass → List LoadedClass → Prop
  | load {classes classes' : List LoadedClass} {c : LoadedClass} :
      Loadable classes c → loadClass classes c = some classes' → Step classes classes'
  | clinit {classes : List LoadedClass} {id : ℕ} {c : LoadedClass} :
      classes[id]? = some c →
      Step classes (classes.set id { c with methods := removeClinit c.methods })

/-- The superclass of a class. -/
def superOf (classes : List LoadedClass) (id : ℕ) : Option ℕ :=
  match classes[id]? with
  | none => none
  | some c => c.super

/-- The class implements the interface. -/
inductive Implements (classes : List LoadedClass) : ℕ → ℕ → Prop
  | own {id intf : ℕ} : intf ∈ localInterfacesOf classes id → Implements classes id intf
  | superinterface {id j intf : ℕ} :
      Implements classes id j → intf ∈ localInterfacesOf classes j → Implements classes id intf
  | super {id s intf : ℕ} :
      superOf classes id = some s → Implements classes s intf → Implements classes id intf

/-- No entry that is null is before a method that is not static. -/
def NoGap (methods : List (Option Method)) : Prop :=
  ∀ (i : ℕ) (m : Method), methods[i]? = some (some m) → m.isStatic = false →
    ∀ j < i, methods[j]? ≠ some none

/-- The steps in which no class is loaded with an interface that has a gap. -/
inductive StepWithoutGap : List LoadedClass → List LoadedClass → Prop
  | load {classes classes' : List LoadedClass} {c : LoadedClass} :
      Loadable classes c → loadClass classes c = some classes' →
      (∀ intf, Implements (classes ++ [c]) classes.length intf →
        NoGap (methodsOf classes intf)) → StepWithoutGap classes classes'
  | clinit {classes : List LoadedClass} {id : ℕ} {c : LoadedClass} :
      classes[id]? = some c →
      StepWithoutGap classes (classes.set id { c with methods := removeClinit c.methods })

theorem StepWithoutGap.step (h : StepWithoutGap classes classes') : Step classes classes' := by
  cases h with
  | load hloadable hload => exact .load hloadable hload
  | clinit hid => exact .clinit hid

/-- The search of `invokeinterface` for the entry of an interface
(`cpu/c/Interpreter_c.cpp`, lines 3932–3949): the offset of its methods. -/
def Itable.offsetOf (itable : Itable) (intf : ℕ) : Option ℕ :=
  itable.interfaces.findSome? fun entry =>
    match entry with
    | none => none
    | some (ic, offset) => if ic = intf then some offset else none

/-- Interface dispatch works for the loaded classes, and the itable of every class that
is loaded next fits. -/
structure InterfaceDispatch (classes : List LoadedClass) : Prop where
  /-- The slot of an interface method has what `lookup_method` selects. -/
  selected : ∀ id c, classes[id]? = some c → ∀ intf, Implements classes id intf →
    ∀ m, some m ∈ methodsOf classes intf → m.isStatic = false →
      ∃ offset, c.itable.offsetOf intf = some offset ∧
        c.itable.slots[offset + itableIndex classes ⟨intf, m⟩]? =
          some (slotFor c.isAbstract ⟨intf, m⟩
            (lookupMethod classes id m.name m.signature true))
  /-- The loops write as many entries as have been computed, and not more slots. -/
  fits : ∀ c, Loadable classes c →
    ∃ size st, computeItableSize classes c.localInterfaces c.super = some size ∧
      initializeItable (classes ++ [{ c with itable := .blank size }]) classes.length c
        (.blank size) = some st ∧
      st.index = size.1 ∧ st.methodOffset ≤ size.2

/-! ## What the events keep -/

/-- What is left of the methods of a class. -/
structure MethodsKept (methods methods' : List (Option Method)) : Prop where
  length_eq : methods'.length = methods.length
  kept : ∀ (i : ℕ) (m : Method), methods'[i]? = some (some m) → methods[i]? = some (some m)
  find : ∀ name signature nonStaticOnly, name ≠ clinitName →
    findMethod methods' name signature nonStaticOnly = findMethod methods name signature nonStaticOnly

/-- What is left of a class. -/
structure ClassKept (c c' : LoadedClass) : Prop where
  super : c'.super = c.super
  isAbstract : c'.isAbstract = c.isAbstract
  localInterfaces : c'.localInterfaces = c.localInterfaces
  vtable : c'.vtable = c.vtable
  methods : MethodsKept c.methods c'.methods

/-- The classes are still there. -/
def Kept (classes classes' : List LoadedClass) : Prop :=
  ∀ (id : ℕ) c, classes[id]? = some c → ∃ c', classes'[id]? = some c' ∧ ClassKept c c'

theorem MethodsKept.refl (methods : List (Option Method)) : MethodsKept methods methods :=
  ⟨rfl, fun _ _ h => h, fun _ _ _ _ => rfl⟩

theorem findMethod_cons (entry : Option Method) (methods : List (Option Method))
    (name signature : Symbol) (nonStaticOnly : Bool) :
    findMethod (entry :: methods) name signature nonStaticOnly = match entry.filter fun m =>
          m.name = name ∧ m.signature = signature ∧ (nonStaticOnly = true → m.isStatic = false) with
      | some m => some m
      | none => findMethod methods name signature nonStaticOnly := by
  unfold findMethod
  rw [List.findSome?_cons]
  generalize Option.filter _ entry = found
  cases found <;> rfl

theorem MethodsKept.cons {methods methods' : List (Option Method)}
    (h : MethodsKept methods methods')
    (entry : Option Method) : MethodsKept (entry :: methods) (entry :: methods') := by
  refine ⟨by rw [List.length_cons, List.length_cons, h.length_eq], fun i m hm => ?_,
    fun name signature nonStaticOnly hname => ?_⟩
  · cases i with
    | zero => exact hm
    | succ i => exact h.kept i m hm
  · rw [findMethod_cons, findMethod_cons, h.find name signature nonStaticOnly hname]

/-- What the removal of a class initializer keeps of the methods. -/
theorem methodsKept_removeClinit (methods : List (Option Method)) :
    MethodsKept methods (removeClinit methods) := by
  induction methods with
  | nil => exact .refl []
  | cons entry methods ih =>
    cases entry with
    | none => exact ih.cons none
    | some m =>
      unfold removeClinit
      split_ifs with hclinit
      · refine ⟨rfl, fun i m' hm => ?_, fun name signature nonStaticOnly hname => ?_⟩
        · cases i with
          | zero => cases hm
          | succ i => exact hm
        · have hne : m.name ≠ name := by
            unfold Method.isClassInitializer at hclinit
            rw [Bool.and_eq_true, beq_iff_eq] at hclinit
            rw [hclinit.1]
            exact hname.symm
          rw [findMethod_cons, findMethod_cons, Option.filter_some_neg (by simp [hne])]
          rfl
      · exact ih.cons (some m)

theorem ClassKept.refl (c : LoadedClass) : ClassKept c c := ⟨rfl, rfl, rfl, rfl, .refl _⟩

theorem kept_append (classes : List LoadedClass) (c : LoadedClass) :
    Kept classes (classes ++ [c]) := by
  intro id c' hid
  obtain ⟨hlt, -⟩ := List.getElem?_eq_some_iff.mp hid
  exact ⟨c', (List.getElem?_append_left hlt).trans hid, .refl c'⟩

theorem kept_append_itable (classes : List LoadedClass) (c : LoadedClass)
    (itable itable' : Itable) :
    Kept (classes ++ [{ c with itable := itable }]) (classes ++ [{ c with itable := itable' }]) := by
  intro id c' hid
  rcases lt_or_ge id classes.length with hlt | hge
  · rw [List.getElem?_append_left hlt] at hid
    exact ⟨c', (List.getElem?_append_left hlt).trans hid, .refl c'⟩
  · rw [List.getElem?_append_right hge] at hid
    obtain ⟨hlt, heq⟩ := List.getElem?_eq_some_iff.mp hid
    have hzero : id - classes.length = 0 := Nat.lt_one_iff.mp hlt
    refine ⟨{ c with itable := itable' }, ?_, ?_⟩
    · rw [List.getElem?_append_right hge, hzero]
      rfl
    · simp only [hzero, List.getElem_cons_zero] at heq
      rw [← heq]
      exact ⟨rfl, rfl, rfl, rfl, .refl _⟩

theorem kept_clinit (hid : classes[id]? = some c) :
    Kept classes (classes.set id { c with methods := removeClinit c.methods }) := by
  intro id' c' hid'
  obtain ⟨hlt, -⟩ := List.getElem?_eq_some_iff.mp hid
  by_cases heq : id = id'
  · subst heq
    rw [hid] at hid'
    cases hid'
    exact ⟨_, List.getElem?_set_self hlt, rfl, rfl, rfl, rfl, methodsKept_removeClinit _⟩
  · exact ⟨c', (List.getElem?_set_ne heq).trans hid', .refl c'⟩

/-! ## Well-formed lists of classes -/

/-- What holds of the loaded classes in every run. -/
structure WellFormed (classes : List LoadedClass) : Prop where
  super_lt : ∀ id s, superOf classes id = some s → s < id
  local_lt : InterfacesBelow classes
  holder_le : ∀ (id : ℕ) c, classes[id]? = some c → ∀ m, some m ∈ c.vtable → m.holder ≤ id
  clinit_static : ∀ id (m : Method), some m ∈ methodsOf classes id → m.name = clinitName →
    m.isStatic = true
  methods_unique : ∀ id (i j : ℕ) (m : Method), (methodsOf classes id)[i]? = some (some m) →
    (methodsOf classes id)[j]? = some (some m) → i = j
  full : ∀ (id : ℕ) c, classes[id]? = some c → none ∉ c.itable.interfaces
  mem_ids : ∀ (id : ℕ) c, classes[id]? = some c → ∀ intf,
    intf ∈ c.itable.ids ↔ Implements classes id intf

theorem superOf_eq (hid : classes[id]? = some c) : superOf classes id = c.super := by
  unfold superOf
  rw [hid]

theorem localInterfacesOf_eq (hid : classes[id]? = some c) :
    localInterfacesOf classes id = c.localInterfaces := by
  unfold localInterfacesOf
  rw [hid]

theorem methodsOf_eq (hid : classes[id]? = some c) : methodsOf classes id = c.methods := by
  unfold methodsOf
  rw [hid]

theorem itableIds_eq (hid : classes[id]? = some c) :
    itableIds classes (some id) = c.itable.ids := by
  unfold itableIds
  simp only [hid]

variable {intf : ℕ}

theorem Implements.lt (h : Implements classes id intf)
    (hsuper : ∀ id s, superOf classes id = some s → s < id) (hlocal : InterfacesBelow classes) :
    intf < id := by
  induction h with
  | own hmem => exact hlocal _ _ hmem
  | superinterface _ hmem ih => exact (hlocal _ _ hmem).trans ih
  | super hs _ ih => exact ih.trans (hsuper _ _ hs)

theorem WellFormed.implements_lt (h : WellFormed classes)
    (himplements : Implements classes id intf) : intf < id :=
  himplements.lt h.super_lt h.local_lt

theorem exists_getElem? (hlt : id < classes.length) : ∃ c, classes[id]? = some c :=
  ⟨_, List.getElem?_eq_getElem hlt⟩

theorem Kept.superOf_congr (h : Kept classes classes') (hlt : id < classes.length) :
    superOf classes' id = superOf classes id := by
  obtain ⟨c, hc⟩ := exists_getElem? hlt
  obtain ⟨c', hc', hkept⟩ := h id c hc
  rw [superOf_eq hc, superOf_eq hc', hkept.super]

theorem Kept.localInterfacesOf_congr (h : Kept classes classes') (hlt : id < classes.length) :
    localInterfacesOf classes' id = localInterfacesOf classes id := by
  obtain ⟨c, hc⟩ := exists_getElem? hlt
  obtain ⟨c', hc', hkept⟩ := h id c hc
  rw [localInterfacesOf_eq hc, localInterfacesOf_eq hc', hkept.localInterfaces]

theorem Kept.methodsOf_kept (h : Kept classes classes') (hlt : id < classes.length) :
    MethodsKept (methodsOf classes id) (methodsOf classes' id) := by
  obtain ⟨c, hc⟩ := exists_getElem? hlt
  obtain ⟨c', hc', hkept⟩ := h id c hc
  rw [methodsOf_eq hc, methodsOf_eq hc']
  exact hkept.methods

/-- **Frame lemma**: a class implements the same interfaces. -/
theorem Kept.implements_iff (h : Kept classes classes') (hwf : WellFormed classes)
    (hlt : id < classes.length) : Implements classes' id intf ↔ Implements classes id intf := by
  constructor
  · intro himplements
    induction himplements with
    | own hmem => exact .own (h.localInterfacesOf_congr hlt ▸ hmem)
    | @superinterface id j intf _ hmem ih =>
      have hj := ih hlt
      rw [h.localInterfacesOf_congr ((hwf.implements_lt hj).trans hlt)] at hmem
      exact .superinterface hj hmem
    | @super id s intf hsuper _ ih =>
      rw [h.superOf_congr hlt] at hsuper
      exact .super hsuper (ih ((hwf.super_lt _ _ hsuper).trans hlt))
  · intro himplements
    induction himplements with
    | own hmem => exact .own (h.localInterfacesOf_congr hlt ▸ hmem)
    | @superinterface id j intf hj hmem ih =>
      rw [← h.localInterfacesOf_congr ((hwf.implements_lt hj).trans hlt)] at hmem
      exact .superinterface (ih hlt) hmem
    | @super id s intf hsuper _ ih =>
      have hs := (hwf.super_lt _ _ hsuper).trans hlt
      rw [← h.superOf_congr hlt] at hsuper
      exact .super hsuper (ih hs)

variable {nonStaticOnly : Bool}

/-- **Frame lemma**: the lookup in the superclasses. -/
theorem Kept.lookupDeclared_congr (h : Kept classes classes')
    (hsuper : ∀ id s, superOf classes id = some s → s < id) {name signature : Symbol}
    (hname : name ≠ clinitName) (fuel : ℕ) (ic : Option ℕ)
    (hlt : ∀ id ∈ ic, id < classes.length) :
    lookupDeclared classes' name signature nonStaticOnly fuel ic =
      lookupDeclared classes name signature nonStaticOnly fuel ic := by
  induction fuel generalizing ic with
  | zero => rfl
  | succ fuel ih =>
    cases ic with
    | none => rfl
    | some id =>
      obtain ⟨c, hc⟩ := exists_getElem? (hlt id rfl)
      obtain ⟨c', hc', hkept⟩ := h id c hc
      unfold lookupDeclared
      rw [hc, hc']
      simp only
      rw [hkept.methods.find name signature nonStaticOnly hname, hkept.super, ih c.super]
      intro s hs
      exact (hsuper id s ((superOf_eq hc).trans hs)).trans (hlt id rfl)

/-- **Frame lemma**: the walk to the holder. -/
theorem Kept.isSubclassOf_congr (h : Kept classes classes')
    (hsuper : ∀ id s, superOf classes id = some s → s < id) (holder fuel : ℕ) (ic : Option ℕ)
    (hlt : ∀ id ∈ ic, id < classes.length) :
    isSubclassOf classes' holder fuel ic = isSubclassOf classes holder fuel ic := by
  induction fuel generalizing ic with
  | zero => rfl
  | succ fuel ih =>
    cases ic with
    | none => rfl
    | some id =>
      obtain ⟨c, hc⟩ := exists_getElem? (hlt id rfl)
      obtain ⟨c', hc', hkept⟩ := h id c hc
      unfold isSubclassOf
      rw [hc, hc']
      simp only
      rw [hkept.super, ih c.super]
      intro s hs
      exact (hsuper id s ((superOf_eq hc).trans hs)).trans (hlt id rfl)

/-- **Frame lemma**: the lookup in the vtable. -/
theorem Kept.lookupVtable_congr (h : Kept classes classes')
    (hsuper : ∀ id s, superOf classes id = some s → s < id) (name signature : Symbol)
    (vtable : List (Option MethodAt)) (found : Option MethodAt)
    (hholder : ∀ m, some m ∈ vtable → m.holder < classes.length) :
    lookupVtable classes' name signature vtable found =
      lookupVtable classes name signature vtable found := by
  induction vtable generalizing found with
  | nil => rfl
  | cons entry vtable ih =>
    have ih := fun found => ih found fun m hm => hholder m (List.mem_cons_of_mem _ hm)
    cases entry with
    | none => exact ih found
    | some m2 =>
      have hwalk : ∀ holder, isSubclassOf classes' holder (m2.holder + 1) (some m2.holder) =
          isSubclassOf classes holder (m2.holder + 1) (some m2.holder) := by
        refine fun holder => h.isSubclassOf_congr hsuper holder _ _ ?_
        rintro id ⟨⟩
        exact hholder m2 List.mem_cons_self
      unfold lookupVtable
      cases found with
      | none =>
        simp only
        rw [ih, ih]
      | some m1 =>
        simp only
        rw [ih, ih, hwalk]

/-- **Frame lemma**: methods other than class initializers are looked up alike. -/
theorem Kept.lookupMethod_congr (h : Kept classes classes')
    (hsuper : ∀ id s, superOf classes id = some s → s < id) (hid : classes[id]? = some c)
    (hholder : ∀ m, some m ∈ c.vtable → m.holder ≤ id) {name signature : Symbol}
    (hname : name ≠ clinitName) :
    lookupMethod classes' id name signature nonStaticOnly =
      lookupMethod classes id name signature nonStaticOnly := by
  obtain ⟨hlt, -⟩ := List.getElem?_eq_some_iff.mp hid
  obtain ⟨c', hc', hkept⟩ := h id c hid
  have hvtable := fun found => h.lookupVtable_congr hsuper name signature c.vtable found
    fun m hm => (hholder m hm).trans_lt hlt
  unfold lookupMethod
  rw [hid, hc']
  simp only
  rw [h.lookupDeclared_congr hsuper hname _ _ (by rintro id' ⟨⟩; exact hlt), hkept.vtable]
  simp only [hvtable]

/-! ## Loading -/

theorem getElem?_append_self (classes : List LoadedClass) (c : LoadedClass) :
    (classes ++ [c])[classes.length]? = some c := by
  rw [List.getElem?_append_right le_rfl, Nat.sub_self]
  rfl

/-- The classes with one more have the superclasses and interfaces before them. -/
theorem WellFormed.append_lt (hwf : WellFormed classes) (hloadable : Loadable classes c)
    (itable : Itable) :
    (∀ id s, superOf (classes ++ [{ c with itable := itable }]) id = some s → s < id) ∧
      InterfacesBelow (classes ++ [{ c with itable := itable }]) := by
  have hkept := kept_append classes { c with itable := itable }
  have hself := getElem?_append_self classes { c with itable := itable }
  have hcases : ∀ id, id < classes.length ∨ id = classes.length ∨
      (classes ++ [{ c with itable := itable }])[id]? = none := by
    intro id
    rcases lt_trichotomy id classes.length with hlt | heq | hgt
    · exact .inl hlt
    · exact .inr (.inl heq)
    · refine .inr (.inr (List.getElem?_eq_none ?_))
      rw [List.length_append, List.length_singleton]
      omega
  constructor
  · intro id s hs
    rcases hcases id with hlt | rfl | hnone
    · rw [hkept.superOf_congr hlt] at hs
      exact hwf.super_lt id s hs
    · rw [superOf_eq hself] at hs
      exact hloadable.super_lt s hs
    · unfold superOf at hs
      rw [hnone] at hs
      cases hs
  · intro id j hj
    rcases hcases id with hlt | rfl | hnone
    · rw [hkept.localInterfacesOf_congr hlt] at hj
      exact hwf.local_lt id j hj
    · rw [localInterfacesOf_eq hself] at hj
      exact hloadable.local_lt j hj
    · unfold localInterfacesOf at hj
      rw [hnone] at hj
      exact absurd hj List.not_mem_nil

theorem itableIds_append (hsuper : ∀ s ∈ c.super, s < classes.length) (c' : LoadedClass) :
    itableIds (classes ++ [c']) c.super = itableIds classes c.super := by
  cases hs : c.super with
  | none => rfl
  | some s =>
    unfold itableIds
    simp only
    rw [List.getElem?_append_left (hsuper s hs)]

/-- The superclass has the superinterfaces of its interfaces. -/
theorem WellFormed.closedIds (hwf : WellFormed classes)
    (hsuper : ∀ s ∈ c.super, s < classes.length) :
    ClosedIds classes c.super := by
  intro j hj k hk
  cases hs : c.super with
  | none =>
    rw [hs] at hj
    exact absurd hj List.not_mem_nil
  | some s =>
    obtain ⟨c', hc'⟩ := exists_getElem? (hsuper s hs)
    rw [hs, itableIds_eq hc', hwf.mem_ids s c' hc'] at hj
    rw [itableIds_eq hc', hwf.mem_ids s c' hc']
    exact .superinterface hj hk

variable {j : ℕ}

theorem WellFormed.lt_of_mem_itableIds (hwf : WellFormed classes)
    (hsuper : ∀ s ∈ c.super, s < classes.length) (hj : j ∈ itableIds classes c.super) :
    j < classes.length := by
  cases hs : c.super with
  | none =>
    rw [hs] at hj
    exact absurd hj List.not_mem_nil
  | some s =>
    obtain ⟨c', hc'⟩ := exists_getElem? (hsuper s hs)
    rw [hs, itableIds_eq hc', hwf.mem_ids s c' hc'] at hj
    exact (hwf.implements_lt hj).trans (hsuper s hs)

theorem newInterfaces_append (hwf : WellFormed classes)
    (hsuper : ∀ s ∈ c.super, s < classes.length) (c' : LoadedClass) (fuel : ℕ)
    (hj : j < classes.length) :
    newInterfaces (classes ++ [c']) c.super fuel j = newInterfaces classes c.super fuel j := by
  induction fuel generalizing j with
  | zero => rfl
  | succ fuel ih =>
    unfold newInterfaces
    rw [itableIds_append hsuper, (kept_append classes c').localInterfacesOf_congr hj]
    congr 2
    exact List.flatMap_congr fun k hk => ih ((hwf.local_lt j k hk).trans hj)

theorem listed_append (hwf : WellFormed classes) (hloadable : Loadable classes c)
    (c' : LoadedClass) (fuel : ℕ) : listed (classes ++ [c']) c.super fuel c.localInterfaces =
      listed classes c.super fuel c.localInterfaces := by
  unfold listed
  rw [itableIds_append hloadable.super_lt]
  congr 1
  exact List.flatMap_congr fun j hj =>
    newInterfaces_append hwf hloadable.super_lt c' fuel (hloadable.local_lt j hj)

/-- What is new below an interface is a superinterface of it. -/
theorem mem_newInterfaces {base : Option ℕ} {fuel : ℕ}
    (h : intf ∈ newInterfaces classes base fuel j) (hj : Implements classes id j) :
    Implements classes id intf := by
  induction fuel generalizing j with
  | zero => exact absurd h List.not_mem_nil
  | succ fuel ih =>
    unfold newInterfaces at h
    split_ifs at h
    · exact absurd h List.not_mem_nil
    · rcases List.mem_cons.mp h with rfl | h
      · exact hj
      · obtain ⟨k, hk, h⟩ := List.mem_flatMap.mp h
        exact ih h (.superinterface hj hk)

theorem newInterfaces_closed (hbelow : InterfacesBelow classes) {base : Option ℕ}
    {fuel k : ℕ} (hfuel : j < fuel) (h : intf ∈ newInterfaces classes base fuel j)
    (hk : k ∈ localInterfacesOf classes intf) :
    k ∈ itableIds classes base ∨ k ∈ newInterfaces classes base fuel j := by
  induction fuel generalizing j with
  | zero => omega
  | succ fuel ih =>
    by_cases hmem : k ∈ itableIds classes base
    · exact .inl hmem
    · right
      unfold newInterfaces at h ⊢
      split_ifs at h ⊢ with hjmem
      · exact absurd h List.not_mem_nil
      · refine List.mem_cons_of_mem _ ?_
        rcases List.mem_cons.mp h with rfl | h
        · have hlt := hbelow intf k hk
          refine List.mem_flatMap.mpr ⟨k, hk, ?_⟩
          obtain ⟨f, rfl⟩ : ∃ f, fuel = f + 1 := ⟨fuel - 1, by omega⟩
          unfold newInterfaces
          rw [if_neg hmem]
          exact List.mem_cons_self
        · obtain ⟨j', hj', h⟩ := List.mem_flatMap.mp h
          have hlt := hbelow j j' hj'
          exact List.mem_flatMap.mpr ⟨j', hj', (ih (by omega) h).resolve_left hmem⟩

theorem mem_listed_iff (hwf : WellFormed classes) (hloadable : Loadable classes c)
    (itable : Itable) : intf ∈ listed classes c.super classes.length c.localInterfaces ↔
      Implements (classes ++ [{ c with itable := itable }]) classes.length intf := by
  obtain ⟨-, hbelow⟩ := hwf.append_lt hloadable itable
  have hclosed := hwf.closedIds hloadable.super_lt
  obtain ⟨c₁, hc₁, hsuper₁, hlocal₁⟩ : ∃ c₁ : LoadedClass, { c with itable := itable } = c₁ ∧
      c₁.super = c.super ∧ c₁.localInterfaces = c.localInterfaces := ⟨_, rfl, rfl, rfl⟩
  rw [hc₁] at hbelow ⊢
  have hkept := kept_append classes c₁
  have hself := getElem?_append_self classes c₁
  rw [← listed_append hwf hloadable c₁]
  unfold listed
  rw [List.mem_append, List.mem_flatMap]
  constructor
  · rintro (hbase | ⟨j, hj, hmem⟩)
    · rw [itableIds_append hloadable.super_lt] at hbase
      cases hs : c.super with
      | none =>
        rw [hs] at hbase
        exact absurd hbase List.not_mem_nil
      | some s =>
        have hlt := hloadable.super_lt s hs
        obtain ⟨c', hc'⟩ := exists_getElem? hlt
        rw [hs, itableIds_eq hc', hwf.mem_ids s c' hc', ← hkept.implements_iff hwf hlt] at hbase
        exact .super ((superOf_eq hself).trans (hsuper₁.trans hs)) hbase
    · refine mem_newInterfaces hmem (.own ?_)
      rw [localInterfacesOf_eq hself, hlocal₁]
      exact hj
  · intro himplements
    generalize hid : classes.length = id at himplements
    induction himplements with
    | @own id intf hmem =>
      subst hid
      rw [localInterfacesOf_eq hself, hlocal₁] at hmem
      by_cases hbase : intf ∈ itableIds (classes ++ [c₁]) c.super
      · exact .inl hbase
      · refine .inr ⟨intf, hmem, ?_⟩
        obtain ⟨f, hf⟩ : ∃ f, classes.length = f + 1 :=
          ⟨classes.length - 1, by have := hloadable.local_lt intf hmem; omega⟩
        rw [hf]
        unfold newInterfaces
        rw [if_neg hbase]
        exact List.mem_cons_self
    | @superinterface id j intf _ hmem ih =>
      subst hid
      rcases ih rfl with hbase | ⟨j', hj', hnew⟩
      · rw [itableIds_append hloadable.super_lt] at hbase ⊢
        have hlt := hwf.lt_of_mem_itableIds hloadable.super_lt hbase
        rw [hkept.localInterfacesOf_congr hlt] at hmem
        exact .inl (hclosed j hbase intf hmem)
      · refine (newInterfaces_closed hbelow (hloadable.local_lt j' hj') hnew hmem).imp_right ?_
        exact fun h => ⟨j', hj', h⟩
    | @super id s intf hsuper himplements =>
      subst hid
      rw [superOf_eq hself, hsuper₁] at hsuper
      have hlt := hloadable.super_lt s hsuper
      obtain ⟨c', hc'⟩ := exists_getElem? hlt
      rw [hkept.implements_iff hwf hlt, ← hwf.mem_ids s c' hc'] at himplements
      left
      rw [itableIds_append hloadable.super_lt, hsuper, itableIds_eq hc']
      exact himplements

theorem sizeOf_append_left {l : List ℕ} (c : LoadedClass) (hl : ∀ ic ∈ l, ic < classes.length) :
    sizeOf (classes ++ [c]) l = sizeOf classes l := by
  unfold sizeOf
  congr 2
  apply List.map_congr_left
  intro ic hic
  unfold methodsOf
  rw [List.getElem?_append_left (hl ic hic)]

theorem mem_listed_lt (hwf : WellFormed classes) (hloadable : Loadable classes c) (intf : ℕ)
    (h : intf ∈ listed classes c.super classes.length c.localInterfaces) :
    intf < classes.length := by
  obtain ⟨hsuper, hlocal⟩ := hwf.append_lt hloadable (.blank (0, 0))
  exact ((mem_listed_iff hwf hloadable (.blank (0, 0))).mp h).lt hsuper hlocal

/-- **Spec lemma** of the loading: the loops make one entry for each listed interface,
and fill its slots. -/
theorem initializeItable_eq (hwf : WellFormed classes) (hloadable : Loadable classes c) :
    ∃ size st, computeItableSize classes c.localInterfaces c.super = some size ∧
      initializeItable (classes ++ [{ c with itable := .blank size }]) classes.length c
        (.blank size) = some st ∧
      st.index = size.1 ∧ st.methodOffset ≤ size.2 ∧
      st.itable.interfaces.length =
        (listed classes c.super classes.length c.localInterfaces).length ∧
      ∀ (k ic : ℕ), (listed classes c.super classes.length c.localInterfaces)[k]? = some ic →
        ∃ offset, st.itable.interfaces[k]? = some (some (ic, offset)) ∧
          FilledAt (classes ++ [{ c with itable := .blank size }]) classes.length c.isAbstract ic
            (methodsOf classes ic) st.itable.slots offset := by
  have hsize := computeItableSize_eq c.super hwf.local_lt hloadable.local_lt
  have hlt := mem_listed_lt hwf hloadable
  have happend := fun c' => listed_append hwf hloadable c' classes.length
  generalize listed classes c.super classes.length c.localInterfaces = l at *
  generalize hblank : Itable.blank (sizeOf classes l) = blank
  have hinterfaces : blank.interfaces.length = (sizeOf classes l).1 := by
    rw [← hblank]
    exact List.length_replicate
  have hslots : blank.slots.length = (sizeOf classes l).2 := by
    rw [← hblank]
    exact List.length_replicate
  obtain ⟨-, hbelow⟩ := hwf.append_lt hloadable blank
  obtain ⟨c₁, hc₁, hsuper₁, hlocal₁⟩ : ∃ c₁ : LoadedClass, { c with itable := blank } = c₁ ∧
      c₁.super = c.super ∧ c₁.localInterfaces = c.localInterfaces := ⟨_, rfl, rfl, rfl⟩
  rw [hc₁] at hbelow
  have hsizeOf := sizeOf_append_left c₁ hlt
  have hclosed : ClosedIds (classes ++ [c₁]) c.super := by
    intro j hj k hk
    rw [itableIds_append hloadable.super_lt] at hj ⊢
    have hj' := hwf.lt_of_mem_itableIds hloadable.super_lt hj
    rw [(kept_append classes c₁).localInterfacesOf_congr hj'] at hk
    exact hwf.closedIds hloadable.super_lt j hj k hk
  obtain ⟨st, hrun, hindex, hoffset, hlength, -, -, -, hentries⟩ :=
    foldlM_itableCopyDown_eq (classes ++ [c₁]) classes.length c.isAbstract (l := l) ⟨0, 0, blank⟩
      (by rw [hsizeOf]; simp only; omega) (by rw [hsizeOf]; simp only; omega)
  rw [hsizeOf] at hindex hoffset
  refine ⟨sizeOf classes l, st, hsize, ?_, by rw [hindex]; exact Nat.zero_add _,
    by simpa using hoffset, hlength.trans hinterfaces, fun k ic hk => ?_⟩
  · rw [hblank, hc₁]
    rw [← happend c₁] at hrun
    unfold listed at hrun
    rw [List.foldlM_append] at hrun
    unfold initializeItable
    cases hfirst : (itableIds (classes ++ [c₁]) c.super).foldlM
        (itableCopyDown (classes ++ [c₁]) classes.length c.isAbstract) ⟨0, 0, blank⟩ with
    | none =>
      rw [hfirst] at hrun
      cases hrun
    | some st₁ =>
      rw [hfirst] at hrun
      simp only
      rw [updateLocalItables_eq hbelow hclosed classes.length classes.length le_rfl,
        localInterfacesOf_eq (getElem?_append_self classes c₁), hlocal₁]
      exact hrun
  · obtain ⟨offset, hentry, hfilled⟩ := hentries k ic hk
    rw [Nat.zero_add] at hentry
    have hmethods : methodsOf (classes ++ [c₁]) ic = methodsOf classes ic := by
      obtain ⟨hlt', heq⟩ := List.getElem?_eq_some_iff.mp hk
      unfold methodsOf
      rw [List.getElem?_append_left (hlt ic (heq ▸ List.getElem_mem hlt'))]
    rw [hmethods] at hfilled
    rw [hblank, hc₁]
    exact ⟨offset, hentry, hfilled⟩

/-! ## Invariants of runs -/

/-- A class that is new in a list. -/
structure NewClass (classes : List LoadedClass) (id : ℕ) (c : LoadedClass) : Prop where
  super_lt : ∀ s ∈ c.super, s < id
  local_lt : ∀ j ∈ c.localInterfaces, j < id
  holder_le : ∀ m, some m ∈ c.vtable → m.holder ≤ id
  clinit_static : ∀ m : Method, some m ∈ c.methods → m.name = clinitName → m.isStatic = true
  methods_unique : ∀ (i j : ℕ) (m : Method), c.methods[i]? = some (some m) →
    c.methods[j]? = some (some m) → i = j
  full : none ∉ c.itable.interfaces
  mem_ids : ∀ intf, intf ∈ c.itable.ids ↔ Implements classes id intf

/-- Every class was there before, but for new ones. -/
def OldOrNew (classes classes' : List LoadedClass) (New : ℕ → LoadedClass → Prop) : Prop :=
  ∀ (id : ℕ) c', classes'[id]? = some c' →
    (∃ c, classes[id]? = some c ∧ ClassKept c c' ∧ c'.itable = c.itable) ∨ New id c'

variable {m : Method}

theorem mem_of_kept {methods methods' : List (Option Method)} (h : MethodsKept methods methods')
    (hm : some m ∈ methods') : some m ∈ methods := by
  obtain ⟨i, hi⟩ := List.mem_iff_getElem?.mp hm
  exact List.mem_iff_getElem?.mpr ⟨i, h.kept i m hi⟩

/-- **Step lemma**: the classes stay well-formed. -/
theorem WellFormed.of_kept (hwf : WellFormed classes) (hkept : Kept classes classes')
    (hall : OldOrNew classes classes' (NewClass classes')) : WellFormed classes' := by
  have hcases : ∀ id : ℕ, classes'[id]? = none ∨ ∃ c', classes'[id]? = some c' :=
    fun id => Option.eq_none_or_eq_some _
  refine ⟨fun id s hs => ?_, fun id j hj => ?_, fun id c' hc' m hm => ?_,
    fun id m hm hname => ?_, fun id i j m hi hj => ?_, fun id c' hc' => ?_,
    fun id c' hc' intf => ?_⟩
  · rcases hcases id with hnone | ⟨c', hc'⟩
    · unfold superOf at hs
      rw [hnone] at hs
      cases hs
    · rw [superOf_eq hc'] at hs
      rcases hall id c' hc' with ⟨c, hc, hck, -⟩ | hnew
      · exact hwf.super_lt id s (by rw [superOf_eq hc, ← hck.super, hs])
      · exact hnew.super_lt s hs
  · rcases hcases id with hnone | ⟨c', hc'⟩
    · unfold localInterfacesOf at hj
      rw [hnone] at hj
      exact absurd hj List.not_mem_nil
    · rw [localInterfacesOf_eq hc'] at hj
      rcases hall id c' hc' with ⟨c, hc, hck, -⟩ | hnew
      · exact hwf.local_lt id j (by rw [localInterfacesOf_eq hc, ← hck.localInterfaces]; exact hj)
      · exact hnew.local_lt j hj
  · rcases hall id c' hc' with ⟨c, hc, hck, -⟩ | hnew
    · exact hwf.holder_le id c hc m (hck.vtable ▸ hm)
    · exact hnew.holder_le m hm
  · rcases hcases id with hnone | ⟨c', hc'⟩
    · unfold methodsOf at hm
      rw [hnone] at hm
      exact absurd hm List.not_mem_nil
    · rw [methodsOf_eq hc'] at hm
      rcases hall id c' hc' with ⟨c, hc, hck, -⟩ | hnew
      · refine hwf.clinit_static id m ?_ hname
        rw [methodsOf_eq hc]
        exact mem_of_kept hck.methods hm
      · exact hnew.clinit_static m hm hname
  · rcases hcases id with hnone | ⟨c', hc'⟩
    · unfold methodsOf at hi
      rw [hnone] at hi
      cases hi
    · rw [methodsOf_eq hc'] at hi hj
      rcases hall id c' hc' with ⟨c, hc, hck, -⟩ | hnew
      · refine hwf.methods_unique id i j m ?_ ?_
        · rw [methodsOf_eq hc]
          exact hck.methods.kept i m hi
        · rw [methodsOf_eq hc]
          exact hck.methods.kept j m hj
      · exact hnew.methods_unique i j m hi hj
  · rcases hall id c' hc' with ⟨c, hc, -, hitable⟩ | hnew
    · rw [hitable]
      exact hwf.full id c hc
    · exact hnew.full
  · rcases hall id c' hc' with ⟨c, hc, -, hitable⟩ | hnew
    · obtain ⟨hlt, -⟩ := List.getElem?_eq_some_iff.mp hc
      rw [hitable, hwf.mem_ids id c hc, hkept.implements_iff hwf hlt]
    · exact hnew.mem_ids intf

/-- The entries of the itables lead to the slots of the interface methods. -/
def Served (classes : List LoadedClass) (id : ℕ) (c : LoadedClass) : Prop :=
  ∀ intf offset, some (intf, offset) ∈ c.itable.interfaces →
    ∀ (i : ℕ) (m : Method), (methodsOf classes intf)[i]? = some (some m) → m.isStatic = false →
      c.itable.slots[offset + i]? =
        some (slotFor c.isAbstract ⟨intf, m⟩ (lookupMethod classes id m.name m.signature true))

theorem Itable.mem_ids {itable : Itable} :
    intf ∈ itable.ids ↔ ∃ offset, some (intf, offset) ∈ itable.interfaces := by
  unfold Itable.ids
  rw [List.mem_filterMap]
  constructor
  · rintro ⟨entry, hentry, hid⟩
    obtain ⟨⟨ic, offset⟩, rfl, rfl⟩ := Option.map_eq_some_iff.mp hid
    exact ⟨offset, hentry⟩
  · rintro ⟨offset, hentry⟩
    exact ⟨_, hentry, rfl⟩

variable {i : ℕ}

theorem WellFormed.name_ne (hwf : WellFormed classes)
    (hm : (methodsOf classes intf)[i]? = some (some m)) (hstatic : m.isStatic = false) :
    m.name ≠ clinitName := by
  intro hname
  rw [hwf.clinit_static intf m (List.mem_iff_getElem?.mpr ⟨i, hm⟩) hname] at hstatic
  cases hstatic

/-- **Step lemma**: the slots of a class stay right. -/
theorem Served.of_kept (hwf : WellFormed classes) (hkept : Kept classes classes')
    (hserved : Served classes id c) (hc : classes[id]? = some c) (hck : ClassKept c c')
    (hitable : c'.itable = c.itable) : Served classes' id c' := by
  intro intf offset hentry i m hm hstatic
  rw [hitable] at hentry ⊢
  obtain ⟨hlt, -⟩ := List.getElem?_eq_some_iff.mp hc
  have himplements := (hwf.mem_ids id c hc intf).mp (Itable.mem_ids.mpr ⟨offset, hentry⟩)
  have hm' := (hkept.methodsOf_kept ((hwf.implements_lt himplements).trans hlt)).kept i m hm
  rw [hserved intf offset hentry i m hm' hstatic, hck.isAbstract,
    hkept.lookupMethod_congr hwf.super_lt hc (hwf.holder_le id c hc) (hwf.name_ne hm' hstatic)]

/-- A method that no null entry is before has the slot of its place. -/
theorem NoGap.countP_eq {methods : List (Option Method)} (h : NoGap methods)
    (hm : methods[i]? = some (some m)) (hstatic : m.isStatic = false) :
    (methods.take i).countP Option.isSome = i := by
  obtain ⟨hlt, -⟩ := List.getElem?_eq_some_iff.mp hm
  have hlength : (methods.take i).length = i := by
    rw [List.length_take]
    omega
  have hall : ∀ entry ∈ methods.take i, Option.isSome entry = true := by
    intro entry hentry
    obtain ⟨j, hj⟩ := List.mem_iff_getElem?.mp hentry
    obtain ⟨hjlt, -⟩ := List.getElem?_eq_some_iff.mp hj
    rw [hlength] at hjlt
    rw [List.getElem?_take_of_lt hjlt] at hj
    cases entry with
    | none => exact absurd hj (h i m hm hstatic j hjlt)
    | some => rfl
  calc (methods.take i).countP Option.isSome = (methods.take i).length := List.countP_eq_length.mpr hall
    _ = i := hlength

/-- What holds of every state of a run without gaps. -/
def Invariant (classes : List LoadedClass) : Prop :=
  WellFormed classes ∧ ∀ (id : ℕ) c, classes[id]? = some c → Served classes id c

theorem oldOrNew_clinit (hid : classes[id]? = some c) (New : ℕ → LoadedClass → Prop) :
    OldOrNew classes (classes.set id { c with methods := removeClinit c.methods }) New := by
  intro id' c' hc'
  obtain ⟨hlt, -⟩ := List.getElem?_eq_some_iff.mp hid
  left
  by_cases heq : id = id'
  · subst heq
    rw [List.getElem?_set_self hlt] at hc'
    cases hc'
    exact ⟨c, hid, ⟨rfl, rfl, rfl, rfl, methodsKept_removeClinit _⟩, rfl⟩
  · rw [List.getElem?_set_ne heq] at hc'
    exact ⟨c', hc', .refl c', rfl⟩

theorem oldOrNew_append {New : ℕ → LoadedClass → Prop} (hnew : New classes.length c) :
    OldOrNew classes (classes ++ [c]) New := by
  intro id c' hc'
  rcases lt_or_ge id classes.length with hlt | hge
  · rw [List.getElem?_append_left hlt] at hc'
    exact .inl ⟨c', hc', .refl c', rfl⟩
  · rw [List.getElem?_append_right hge] at hc'
    obtain ⟨hlt, heq⟩ := List.getElem?_eq_some_iff.mp hc'
    have hzero : id - classes.length = 0 := Nat.lt_one_iff.mp hlt
    simp only [hzero, List.getElem_cons_zero] at heq
    rw [← heq, show id = classes.length by omega]
    exact .inr hnew

/-- What a class file has once, it has in one place. -/
theorem methods_unique_of_pairwise {methods : List (Option Method)}
    (h : methods.Pairwise fun o o' => ∀ m ∈ o, ∀ m' ∈ o', ¬m.Matches m')
    (hi : methods[i]? = some (some m)) (hj : methods[j]? = some (some m)) : i = j := by
  obtain ⟨hilt, hieq⟩ := List.getElem?_eq_some_iff.mp hi
  obtain ⟨hjlt, hjeq⟩ := List.getElem?_eq_some_iff.mp hj
  have hpairs := List.pairwise_iff_getElem.mp h
  rcases lt_trichotomy i j with hlt | heq | hgt
  · exact absurd ⟨rfl, rfl⟩ (hpairs i j hilt hjlt hlt m hieq m hjeq)
  · exact heq
  · exact absurd ⟨rfl, rfl⟩ (hpairs j i hjlt hilt hgt m hjeq m hieq)

/-- **Step lemma**: what the loading of a class makes. -/
theorem WellFormed.loadClass (hwf : WellFormed classes) (hloadable : Loadable classes c)
    (hload : loadClass classes c = some classes') :
    ∃ c', classes' = classes ++ [c'] ∧ c'.isAbstract = c.isAbstract ∧
      NewClass classes' classes.length c' ∧
      ∀ intf offset, some (intf, offset) ∈ c'.itable.interfaces →
        Implements (classes ++ [c]) classes.length intf ∧
        ∀ (i : ℕ) (m : Method), (methodsOf classes intf)[i]? = some (some m) → m.isStatic = false →
          c'.itable.slots[offset + ((methodsOf classes intf).take i).countP Option.isSome]? =
            some (slotFor c.isAbstract ⟨intf, m⟩
              (lookupMethod classes' classes.length m.name m.signature true)) := by
  obtain ⟨size, st, hsize, hinit, -, -, hlength, hentries⟩ := initializeItable_eq hwf hloadable
  unfold Dispatch.loadClass at hload
  simp only [hsize, hinit, Option.map_some, Option.some.injEq] at hload
  have hentry : ∀ entry ∈ st.itable.interfaces, ∃ ic offset, entry = some (ic, offset) ∧
      ic ∈ listed classes c.super classes.length c.localInterfaces ∧
      FilledAt (classes ++ [{ c with itable := .blank size }]) classes.length c.isAbstract ic
        (methodsOf classes ic) st.itable.slots offset := by
    intro entry hentry
    obtain ⟨k, hk⟩ := List.mem_iff_getElem?.mp hentry
    obtain ⟨hlt, -⟩ := List.getElem?_eq_some_iff.mp hk
    rw [hlength] at hlt
    obtain ⟨offset, heq, hfilled⟩ := hentries k _ (List.getElem?_eq_getElem hlt)
    rw [hk] at heq
    exact ⟨_, offset, Option.some.inj heq, List.getElem_mem hlt, hfilled⟩
  have hlisted : ∀ ic ∈ listed classes c.super classes.length c.localInterfaces,
      ∃ offset, some (ic, offset) ∈ st.itable.interfaces := by
    intro ic hic
    obtain ⟨k, hk⟩ := List.mem_iff_getElem?.mp hic
    obtain ⟨offset, heq, -⟩ := hentries k ic hk
    exact ⟨offset, List.mem_iff_getElem?.mpr ⟨k, heq⟩⟩
  obtain ⟨hsuper, hlocal⟩ := hwf.append_lt hloadable (.blank size)
  refine ⟨{ c with itable := st.itable }, hload.symm, rfl, ?_, fun intf offset hmem => ?_⟩
  · refine ⟨hloadable.super_lt, hloadable.local_lt, hloadable.holder_le, hloadable.clinit_static,
      fun i j m => methods_unique_of_pairwise hloadable.methods_pairwise, fun hnone => ?_,
      fun intf => ?_⟩
    · obtain ⟨ic, offset, heq, -⟩ := hentry none hnone
      cases heq
    · rw [← hload, ← mem_listed_iff hwf hloadable]
      refine Itable.mem_ids.trans ⟨?_, hlisted intf⟩
      rintro ⟨offset, hmem⟩
      obtain ⟨ic, offset', heq, hic, -⟩ := hentry _ hmem
      cases heq
      exact hic
  · obtain ⟨ic, offset', heq, hic, hfilled⟩ := hentry _ hmem
    cases heq
    refine ⟨(mem_listed_iff hwf hloadable c.itable).mp hic, fun i m hm hstatic => ?_⟩
    rw [hfilled i m hm, ← hload]
    have hkept := kept_append_itable classes c (.blank size) st.itable
    rw [hkept.lookupMethod_congr hsuper (getElem?_append_self _ _) hloadable.holder_le
      (hwf.name_ne hm hstatic)]

/-- **Step lemma**: a load without a gap keeps the invariant. -/
theorem Invariant.load (h : Invariant classes) (hloadable : Loadable classes c)
    (hload : Dispatch.loadClass classes c = some classes')
    (hgap : ∀ intf, Implements (classes ++ [c]) classes.length intf →
      NoGap (methodsOf classes intf)) : Invariant classes' := by
  obtain ⟨hwf, hserved⟩ := h
  obtain ⟨c', rfl, habstract, hnew, hslots⟩ := hwf.loadClass hloadable hload
  have hkept := kept_append classes c'
  refine ⟨hwf.of_kept hkept (oldOrNew_append hnew), fun id c₁ hc₁ => ?_⟩
  have hold : OldOrNew classes (classes ++ [c']) fun id c₁ => id = classes.length ∧ c₁ = c' :=
    oldOrNew_append ⟨rfl, rfl⟩
  rcases hold id c₁ hc₁ with ⟨c₀, hc₀, hck, hitable⟩ | ⟨rfl, rfl⟩
  · exact (hserved id c₀ hc₀).of_kept hwf hkept hc₀ hck hitable
  · intro intf offset hentry i m hm hstatic
    obtain ⟨himplements, hall⟩ := hslots intf offset hentry
    have hlt : intf < classes.length := by
      have hids := Itable.mem_ids.mpr ⟨offset, hentry⟩
      exact ((hnew.mem_ids intf).mp hids).lt (hwf.of_kept hkept (oldOrNew_append hnew)).super_lt
        (hwf.of_kept hkept (oldOrNew_append hnew)).local_lt
    have hm' := (hkept.methodsOf_kept hlt).kept i m hm
    rw [habstract, ← hall i m hm' hstatic, (hgap intf himplements).countP_eq hm' hstatic]

/-- **Step lemma**: the initialization of a class keeps the invariant. -/
theorem Invariant.clinit (h : Invariant classes) (hid : classes[id]? = some c) :
    Invariant (classes.set id { c with methods := removeClinit c.methods }) := by
  obtain ⟨hwf, hserved⟩ := h
  have hkept := kept_clinit hid
  refine ⟨hwf.of_kept hkept (oldOrNew_clinit hid _), fun id' c' hc' => ?_⟩
  rcases oldOrNew_clinit hid (fun _ _ => False) id' c' hc' with ⟨c₀, hc₀, hck, hitable⟩ | hfalse
  · exact (hserved id' c₀ hc₀).of_kept hwf hkept hc₀ hck hitable
  · exact hfalse.elim

theorem invariant_nil : Invariant [] := by
  refine ⟨⟨nofun, ?_, nofun, nofun, nofun, nofun, nofun⟩, nofun⟩
  exact fun intf j hj => absurd hj List.not_mem_nil

/-- **Run lemma**: the invariant holds in every state of a run without gaps. -/
theorem invariant_of_run (h : Relation.ReflTransGen StepWithoutGap [] classes) :
    Invariant classes := by
  induction h with
  | refl => exact invariant_nil
  | tail _ hstep ih =>
    cases hstep with
    | load hloadable hload hgap => exact ih.load hloadable hload hgap
    | clinit hid => exact ih.clinit hid

/-! ## Dispatch -/

/-- The search finds an entry of the interface, if there is one. -/
theorem Itable.exists_offsetOf {itable : Itable} (h : intf ∈ itable.ids) :
    ∃ offset, itable.offsetOf intf = some offset ∧ some (intf, offset) ∈ itable.interfaces := by
  cases hfind : itable.offsetOf intf with
  | none =>
    obtain ⟨offset, hentry⟩ := Itable.mem_ids.mp h
    have hnone := List.findSome?_eq_none_iff.mp hfind _ hentry
    simp at hnone
  | some offset =>
    obtain ⟨entry, hentry, heq⟩ := List.exists_of_findSome?_eq_some hfind
    cases entry with
    | none => cases heq
    | some entry =>
      obtain ⟨ic, offset'⟩ := entry
      simp only at heq
      split_ifs at heq with hid
      cases heq
      subst hid
      exact ⟨_, rfl, hentry⟩

theorem WellFormed.itableIndex_eq (hwf : WellFormed classes)
    (hm : (methodsOf classes intf)[i]? = some (some m)) : itableIndex classes ⟨intf, m⟩ = i := by
  obtain ⟨hlt, heq⟩ := List.getElem?_eq_some_iff.mp hm
  unfold itableIndex
  refine (List.findIdx_eq hlt).mpr ⟨beq_iff_eq.mpr heq, fun j hj => ?_⟩
  refine beq_eq_false_iff_ne.mpr fun hjm => ?_
  have hjm' : (methodsOf classes intf)[j]? = some (some m) := by
    rw [List.getElem?_eq_getElem (hj.trans hlt), hjm]
  exact hj.ne (hwf.methods_unique intf j i m hjm' hm)

theorem WellFormed.fits (hwf : WellFormed classes) (hloadable : Loadable classes c) :
    ∃ size st, computeItableSize classes c.localInterfaces c.super = some size ∧
      initializeItable (classes ++ [{ c with itable := .blank size }]) classes.length c
        (.blank size) = some st ∧ st.index = size.1 ∧ st.methodOffset ≤ size.2 := by
  obtain ⟨size, st, hsize, hinit, hindex, hoffset, -⟩ := initializeItable_eq hwf hloadable
  exact ⟨size, st, hsize, hinit, hindex, hoffset⟩

theorem Invariant.interfaceDispatch (h : Invariant classes) : InterfaceDispatch classes := by
  obtain ⟨hwf, hserved⟩ := h
  refine ⟨fun id c hc intf himplements m hm hstatic => ?_, fun c => hwf.fits⟩
  obtain ⟨offset, hoffset, hentry⟩ :=
    Itable.exists_offsetOf ((hwf.mem_ids id c hc intf).mpr himplements)
  obtain ⟨i, hi⟩ := List.mem_iff_getElem?.mp hm
  refine ⟨offset, hoffset, ?_⟩
  rw [hwf.itableIndex_eq hi]
  exact hserved id c hc intf offset hentry i m hi hstatic

/-- **Main theorem**: interface dispatch works in every state of a run in which no class is
loaded with an interface that has a gap. -/
theorem interfaceDispatch_of_run (h : Relation.ReflTransGen StepWithoutGap [] classes) :
    InterfaceDispatch classes :=
  (invariant_of_run h).interfaceDispatch

/-! ## A cleared entry -/

/-- A method without arguments and result. -/
def plainMethod (name : Symbol) (isStatic : Bool) : Method :=
  ⟨name, [byte '(', byte ')', byte 'V'], .accPublic, isStatic, false⟩

/-- A class that is to be loaded. -/
def newClass (super : Option ℕ) (isAbstract : Bool) (localInterfaces : List ℕ)
    (methods : List (Option Method)) : LoadedClass :=
  ⟨super, isAbstract, localInterfaces, methods, [], ⟨[], []⟩⟩

/-- `java.lang.Object`, without methods. -/
def objectClass : LoadedClass := newClass none false [] []

/-- An interface with the method `m`, before or behind its class initializer. -/
def interfaceM (clinitFirst : Bool) : LoadedClass :=
  newClass (some 0) true [] (if clinitFirst
    then [some (plainMethod clinitName true), some (plainMethod [byte 'm'] false)]
    else [some (plainMethod [byte 'm'] false), some (plainMethod clinitName true)])

/-- A class that implements the interface. -/
def implementsM : LoadedClass :=
  newClass (some 0) false [1] [some (plainMethod [byte 'm'] false)]

/-- The interface after its initialization. -/
def initializedM (clinitFirst : Bool) : LoadedClass :=
  { interfaceM clinitFirst with methods := removeClinit (interfaceM clinitFirst).methods }

/-- The class with its itable. -/
def loadedM (slots : List Slot) : LoadedClass :=
  { implementsM with itable := ⟨[some (1, 0)], slots⟩ }

theorem loadable_object : Loadable [] objectClass :=
  ⟨nofun, nofun, nofun, nofun, .nil⟩

theorem loadable_interface (clinitFirst : Bool) :
    Loadable [objectClass] (interfaceM clinitFirst) := by
  refine ⟨?_, nofun, nofun, ?_, ?_⟩
  · rintro s ⟨⟩
    exact Nat.zero_lt_one
  · cases clinitFirst <;> simp [interfaceM, newClass, plainMethod, clinitName, byte]
  · cases clinitFirst <;> decide

theorem loadable_implements {interface : LoadedClass} :
    Loadable [objectClass, interface] implementsM := by
  refine ⟨?_, ?_, nofun, ?_, ?_⟩
  · rintro s ⟨⟩
    exact Nat.zero_lt_two
  · intro j hj
    rw [List.mem_singleton.mp hj]
    exact Nat.one_lt_two
  · simp [implementsM, newClass, plainMethod, clinitName, byte]
  · decide

theorem noGap_methodsOf (h : ∀ c ∈ classes, NoGap c.methods) (intf : ℕ) :
    NoGap (methodsOf classes intf) := by
  unfold methodsOf
  cases hintf : classes[intf]? with
  | none => exact nofun
  | some c => exact h c (List.mem_of_getElem? hintf)

theorem noGap_object : NoGap objectClass.methods := by
  intro i m hm
  cases hm

theorem noGap_initialized : NoGap (initializedM false).methods := by
  intro i m hm hstatic j hj
  match i, hm with
  | 0, _ => exact absurd hj (Nat.not_lt_zero j)
  | 1, hm => cases hm

theorem run_initialized (clinitFirst : Bool) :
    Relation.ReflTransGen StepWithoutGap [] [objectClass, initializedM clinitFirst] := by
  have hobject : StepWithoutGap [] [objectClass] :=
    .load loadable_object (by decide) fun intf _ =>
      noGap_methodsOf (fun c hc => absurd hc List.not_mem_nil) intf
  have hinterface : StepWithoutGap [objectClass] [objectClass, interfaceM clinitFirst] := by
    refine .load (loadable_interface clinitFirst) (by cases clinitFirst <;> decide) ?_
    intro intf _
    refine noGap_methodsOf (fun c hc => ?_) intf
    rw [List.mem_singleton.mp hc]
    exact noGap_object
  have hid : [objectClass, interfaceM clinitFirst][1]? = some (interfaceM clinitFirst) := rfl
  have hclinit : StepWithoutGap [objectClass, interfaceM clinitFirst]
      [objectClass, initializedM clinitFirst] := .clinit hid
  exact .tail (.tail (.single hobject) hinterface) hclinit

/-- A class that implements an interface whose class initializer is its last method. -/
theorem interfaceDispatch_clinit_last :
    InterfaceDispatch [objectClass, initializedM false,
      loadedM [.method ⟨2, plainMethod [byte 'm'] false⟩, .null]] := by
  refine interfaceDispatch_of_run (.tail (run_initialized false) ?_)
  refine .load loadable_implements (by decide) fun intf _ => ?_
  refine noGap_methodsOf (fun c hc => ?_) intf
  rcases List.mem_cons.mp hc with rfl | hc
  · exact noGap_object
  · rw [List.mem_singleton.mp hc]
    exact noGap_initialized

/-- A class that implements an interface whose class initializer is its first method: the
slot of the method is null. -/
theorem not_interfaceDispatch_clinit_first :
    ∃ classes, Relation.ReflTransGen Step [] classes ∧ ¬InterfaceDispatch classes := by
  have hrun : Relation.ReflTransGen Step [] [objectClass, initializedM true] :=
    Relation.ReflTransGen.mono (fun _ _ hstep => hstep.step) _ _ (run_initialized true)
  have hload : loadClass [objectClass, initializedM true] implementsM =
      some [objectClass, initializedM true,
        loadedM [.method ⟨2, plainMethod [byte 'm'] false⟩, .null]] := by decide
  refine ⟨_, .tail hrun (.load loadable_implements hload), fun hdispatch => ?_⟩
  obtain ⟨offset, hoffset, hslot⟩ := hdispatch.selected 2 _ rfl 1
    (.own (List.mem_singleton.mpr rfl)) (plainMethod [byte 'm'] false) (by decide) rfl
  have hzero : offset = 0 := (Option.some.inj hoffset).symm
  subst hzero
  revert hslot
  decide

end CldcVm.Dispatch
