import CldcVm.Dispatch.InterfaceTable

/-!
# What the loops write into an itable

`Listed` is the list of the interfaces for which the loops make entries:
`updateLocalItables_eq` says that they are those, and `computeInterfaceSize_eq` that
the computed size is that of their entries. From this, `fill_eq`: the entries fit, and
every method that is not null has its slot.
-/

namespace CldcVm.Dispatch

variable {classes : List LoadedClass} {base : Option ℕ} {this ic : ℕ} {isAbstract : Bool}

/-! ## The interfaces of the entries -/

/-- The interfaces for which `update_local_itables` makes entries below an interface. -/
def newInterfaces (classes : List LoadedClass) (base : Option ℕ) : (fuel : ℕ) → ℕ → List ℕ
  | 0, _ => []
  | fuel + 1, intf =>
    if intf ∈ itableIds classes base then []
    else intf :: (localInterfacesOf classes intf).flatMap (newInterfaces classes base fuel)

/-- Superclasses and interfaces have smaller ids. -/
def InterfacesBelow (classes : List LoadedClass) : Prop :=
  ∀ intf, ∀ j ∈ localInterfacesOf classes intf, j < intf

/-- The itable of the superclass has the superinterfaces of its interfaces. -/
def ClosedIds (classes : List LoadedClass) (base : Option ℕ) : Prop :=
  ∀ j ∈ itableIds classes base, ∀ k ∈ localInterfacesOf classes j, k ∈ itableIds classes base

theorem ClosedIds.flatMap_newInterfaces (h : ClosedIds classes base) {j : ℕ}
    (hj : j ∈ itableIds classes base) (fuel : ℕ) :
    (localInterfacesOf classes j).flatMap (newInterfaces classes base fuel) = [] := by
  rw [List.flatMap_eq_nil_iff]
  intro k hk
  cases fuel with
  | zero => rfl
  | succ fuel => exact if_pos (h j hj k hk)

/-- **Run lemma**: the recursion makes the entries one after the other. -/
theorem updateLocalItables_eq (hbelow : InterfacesBelow classes) (hclosed : ClosedIds classes base)
    (fuel intf : ℕ) (hfuel : intf ≤ fuel) (st : FillState) :
    updateLocalItables classes this isAbstract base (fuel + 1) intf st =
      ((localInterfacesOf classes intf).flatMap (newInterfaces classes base fuel)).foldlM
        (itableCopyDown classes this isAbstract) st := by
  induction fuel generalizing intf st with
  | zero =>
    have hnil : localInterfacesOf classes intf = [] :=
      List.eq_nil_iff_forall_not_mem.mpr fun j hj => by
        have := hbelow intf j hj
        omega
    unfold updateLocalItables
    rw [hnil]
    rfl
  | succ fuel ih =>
    unfold updateLocalItables
    have hlocals := hbelow intf
    revert hlocals
    generalize localInterfacesOf classes intf = l
    intro hlocals
    induction l generalizing st with
    | nil => rfl
    | cons j l ihl =>
      have hj := hlocals j List.mem_cons_self
      rw [List.foldlM_cons, List.flatMap_cons, List.foldlM_append]
      unfold newInterfaces
      split_ifs with hmem
      · simp only
        rw [ih j (by omega), hclosed.flatMap_newInterfaces hmem]
        exact ihl st fun j' hj' => hlocals j' (List.mem_cons_of_mem j hj')
      · rw [List.foldlM_cons]
        cases itableCopyDown classes this isAbstract st j with
        | none => rfl
        | some st' =>
          simp only
          rw [ih j (by omega)]
          have hrest : ∀ st'', _ := fun st'' =>
            ihl st'' fun j' hj' => hlocals j' (List.mem_cons_of_mem j hj')
          simp only [Option.bind_eq_bind, Option.bind_some]
          exact congrArg _ (funext hrest)

/-- The size of the entries for interfaces. -/
def sizeOf (classes : List LoadedClass) (l : List ℕ) : ℕ × ℕ :=
  (l.length, (l.map fun ic => (methodsOf classes ic).length).sum)

theorem sizeOf_append (l l' : List ℕ) : sizeOf classes (l ++ l') =
      ((sizeOf classes l).1 + (sizeOf classes l').1, (sizeOf classes l).2 + (sizeOf classes l').2) := by
  unfold sizeOf
  rw [List.length_append, List.map_append, List.sum_append]

theorem foldlM_computeInterfaceSize {fuel : ℕ} {l : List ℕ}
    (h : ∀ j ∈ l, ∀ size : ℕ × ℕ, computeInterfaceSize classes base fuel j size =
      some (size.1 + (sizeOf classes (newInterfaces classes base fuel j)).1,
        size.2 + (sizeOf classes (newInterfaces classes base fuel j)).2)) (size : ℕ × ℕ) :
    l.foldlM (fun size intf => computeInterfaceSize classes base fuel intf size) size =
      some (size.1 + (sizeOf classes (l.flatMap (newInterfaces classes base fuel))).1,
        size.2 + (sizeOf classes (l.flatMap (newInterfaces classes base fuel))).2) := by
  induction l generalizing size with
  | nil => rfl
  | cons j l ih =>
    rw [List.foldlM_cons, h j List.mem_cons_self, List.flatMap_cons, sizeOf_append]
    refine (ih (fun j' hj' => h j' (List.mem_cons_of_mem j hj')) _).trans ?_
    simp only [Nat.add_assoc]

/-- **Run lemma**: the computed size is that of the entries. -/
theorem computeInterfaceSize_eq (hbelow : InterfacesBelow classes) (fuel intf : ℕ)
    (hfuel : intf < fuel) (size : ℕ × ℕ) : computeInterfaceSize classes base fuel intf size =
      some (size.1 + (sizeOf classes (newInterfaces classes base fuel intf)).1,
        size.2 + (sizeOf classes (newInterfaces classes base fuel intf)).2) := by
  induction fuel generalizing intf size with
  | zero => omega
  | succ fuel ih =>
    unfold computeInterfaceSize newInterfaces
    split_ifs with hmem
    · rfl
    · rw [foldlM_computeInterfaceSize fun j hj => ih j (by have := hbelow intf j hj; omega)]
      unfold sizeOf
      rw [List.length_cons, List.map_cons, List.sum_cons]
      congr 2
      · omega
      · omega

/-- The interfaces of the entries of a class, in their order. -/
def listed (classes : List LoadedClass) (base : Option ℕ) (fuel : ℕ) (localInterfaces : List ℕ) :
    List ℕ :=
  itableIds classes base ++ localInterfaces.flatMap (newInterfaces classes base fuel)

theorem computeItableSize_eq (base : Option ℕ) (hbelow : InterfacesBelow classes)
    {localInterfaces : List ℕ} (hlocal : ∀ j ∈ localInterfaces, j < classes.length) :
    computeItableSize classes localInterfaces base =
      some (sizeOf classes (listed classes base classes.length localInterfaces)) := by
  unfold computeItableSize listed
  rw [foldlM_computeInterfaceSize fun j hj => computeInterfaceSize_eq hbelow _ j (hlocal j hj),
    sizeOf_append]
  simp only [Option.map_some, Nat.zero_add]
  rfl

/-! ## Filling -/

/-- The slots of a table from an offset on are those of the methods of an interface. -/
def FilledAt (classes : List LoadedClass) (this : ℕ) (isAbstract : Bool) (ic : ℕ)
    (methods : List (Option Method)) (slots : List Slot) (offset : ℕ) : Prop :=
  ∀ i m, methods[i]? = some (some m) →
    slots[offset + (methods.take i).countP Option.isSome]? =
      some (slotFor isAbstract ⟨ic, m⟩ (lookupMethod classes this m.name m.signature true))

theorem FillState.putSlot_eq {st : FillState} (slot : Slot)
    (h : st.methodOffset < st.itable.slots.length) :
    ∃ st', st.putSlot slot = some st' ∧ st'.index = st.index ∧
      st'.methodOffset = st.methodOffset + 1 ∧ st'.itable.interfaces = st.itable.interfaces ∧
      st'.itable.slots = st.itable.slots.set st.methodOffset slot :=
  ⟨_, if_pos h, rfl, rfl, rfl, rfl⟩

variable {methods : List (Option Method)}

/-- **Run lemma**: the methods of an interface get the next slots. -/
theorem copyMethods_eq (st : FillState)
    (h : st.methodOffset + methods.length ≤ st.itable.slots.length) :
    ∃ st', copyMethods classes this isAbstract ic methods st = some st' ∧ st'.index = st.index ∧
      st.methodOffset ≤ st'.methodOffset ∧ st'.methodOffset ≤ st.methodOffset + methods.length ∧
      st'.itable.interfaces = st.itable.interfaces ∧
      st'.itable.slots.length = st.itable.slots.length ∧
      (∀ i < st.methodOffset, st'.itable.slots[i]? = st.itable.slots[i]?) ∧
      FilledAt classes this isAbstract ic methods (st'.itable.slots.take st'.methodOffset)
        st.methodOffset := by
  induction methods generalizing st with
  | nil => exact ⟨st, rfl, rfl, le_rfl, le_rfl, rfl, rfl, fun _ _ => rfl, nofun⟩
  | cons entry methods ih =>
    rw [List.length_cons] at h
    unfold copyMethods
    cases entry with
    | none =>
      obtain ⟨st', hrun, hindex, hge, hle, hinterfaces, hlength, hkept, hfilled⟩ :=
        ih st (by omega)
      refine ⟨st', hrun, hindex, hge, by rw [List.length_cons]; omega, hinterfaces, hlength, hkept,
        fun i m hm => ?_⟩
      cases i with
      | zero => cases hm
      | succ i => exact hfilled i m hm
    | some m =>
      obtain ⟨st₁, hput, hindex₁, hoffset₁, hinterfaces₁, hslots₁⟩ :=
        FillState.putSlot_eq (slotFor isAbstract ⟨ic, m⟩
          (lookupMethod classes this m.name m.signature true))
          (show st.methodOffset < st.itable.slots.length by omega)
      have hlength₁ : st₁.itable.slots.length = st.itable.slots.length := by
        rw [hslots₁, List.length_set]
      obtain ⟨st', hrun, hindex, hge, hle, hinterfaces, hlength, hkept, hfilled⟩ :=
        ih st₁ (by omega)
      simp only [hput]
      refine ⟨st', hrun, hindex.trans hindex₁, by omega, by rw [List.length_cons]; omega,
        hinterfaces.trans hinterfaces₁, hlength.trans hlength₁, fun i hi => ?_, fun i m' hm => ?_⟩
      · rw [hkept i (by omega), hslots₁, List.getElem?_set_ne (by omega)]
      · cases i with
        | zero =>
          cases hm
          rw [List.take_zero, List.countP_nil, Nat.add_zero, List.getElem?_take_of_lt (by omega),
            hkept _ (by omega), hslots₁]
          exact List.getElem?_set_self (by omega)
        | succ i =>
          have hnext := hfilled i m' hm
          rw [hoffset₁] at hnext
          rw [List.take_succ_cons, List.countP_cons_of_pos rfl]
          rw [show st.methodOffset + ((methods.take i).countP Option.isSome + 1) =
            st.methodOffset + 1 + (methods.take i).countP Option.isSome by omega]
          exact hnext

theorem FilledAt.mono {slots slots' : List Slot} {offset : ℕ}
    (h : FilledAt classes this isAbstract ic methods slots offset)
    (hslots : ∀ (i : ℕ) slot, slots[i]? = some slot → slots'[i]? = some slot) :
    FilledAt classes this isAbstract ic methods slots' offset :=
  fun i m hm => hslots _ _ (h i m hm)

/-- **Step lemma**: an interface gets the next entry, and its methods the next slots. -/
theorem itableCopyDown_eq (st : FillState) (hindex : st.index < st.itable.interfaces.length)
    (hslots : st.methodOffset + (methodsOf classes ic).length ≤ st.itable.slots.length) :
    ∃ st', itableCopyDown classes this isAbstract st ic = some st' ∧ st'.index = st.index + 1 ∧
      st.methodOffset ≤ st'.methodOffset ∧
      st'.methodOffset ≤ st.methodOffset + (methodsOf classes ic).length ∧
      st'.itable.interfaces = st.itable.interfaces.set st.index (some (ic, st.methodOffset)) ∧
      st'.itable.slots.length = st.itable.slots.length ∧
      (∀ i < st.methodOffset, st'.itable.slots[i]? = st.itable.slots[i]?) ∧
      FilledAt classes this isAbstract ic (methodsOf classes ic)
        (st'.itable.slots.take st'.methodOffset) st.methodOffset := by
  unfold itableCopyDown FillState.putInterface
  rw [if_pos hindex]
  exact copyMethods_eq { st with
    index := st.index + 1
    itable := { st.itable with
      interfaces := st.itable.interfaces.set st.index (some (ic, st.methodOffset)) } } hslots

/-- **Run lemma**: the interfaces of a list get the next entries, and their methods the
next slots. -/
theorem foldlM_itableCopyDown_eq (classes : List LoadedClass) (this : ℕ) (isAbstract : Bool)
    {l : List ℕ} (st : FillState)
    (hindex : st.index + (sizeOf classes l).1 ≤ st.itable.interfaces.length)
    (hslots : st.methodOffset + (sizeOf classes l).2 ≤ st.itable.slots.length) :
    ∃ st', l.foldlM (itableCopyDown classes this isAbstract) st = some st' ∧
      st'.index = st.index + (sizeOf classes l).1 ∧
      st'.methodOffset ≤ st.methodOffset + (sizeOf classes l).2 ∧
      st'.itable.interfaces.length = st.itable.interfaces.length ∧
      st'.itable.slots.length = st.itable.slots.length ∧
      (∀ i < st.index, st'.itable.interfaces[i]? = st.itable.interfaces[i]?) ∧
      (∀ i < st.methodOffset, st'.itable.slots[i]? = st.itable.slots[i]?) ∧
      ∀ k ic, l[k]? = some ic → ∃ offset,
        st'.itable.interfaces[st.index + k]? = some (some (ic, offset)) ∧
        FilledAt classes this isAbstract ic (methodsOf classes ic) st'.itable.slots offset := by
  induction l generalizing st with
  | nil => exact ⟨st, rfl, rfl, le_rfl, rfl, rfl, fun _ _ => rfl, fun _ _ => rfl, nofun⟩
  | cons ic l ih =>
    have hsize : sizeOf classes (ic :: l) =
        ((sizeOf classes l).1 + 1, (methodsOf classes ic).length + (sizeOf classes l).2) := rfl
    rw [hsize] at hindex hslots ⊢
    simp only at hindex hslots ⊢
    obtain ⟨st₁, hcopy, hindex₁, hge₁, hle₁, hinterfaces₁, hlength₁, hkept₁, hfilled₁⟩ :=
      itableCopyDown_eq st (by omega)
        (show st.methodOffset + (methodsOf classes ic).length ≤ st.itable.slots.length by omega)
    have hinterfaces₁' : st₁.itable.interfaces.length = st.itable.interfaces.length := by
      rw [hinterfaces₁, List.length_set]
    obtain ⟨st', hrun, hindex', hle', hinterfaces', hlength', hentries', hkept', hall⟩ :=
      ih st₁ (by omega) (by omega)
    rw [List.foldlM_cons, hcopy]
    refine ⟨st', hrun, by omega, by omega, hinterfaces'.trans hinterfaces₁',
      hlength'.trans hlength₁, fun i hi => ?_, fun i hi => ?_, fun k ic' hk => ?_⟩
    · rw [hentries' i (by omega), hinterfaces₁, List.getElem?_set_ne (by omega)]
    · rw [hkept' i (by omega), hkept₁ i hi]
    · cases k with
      | zero =>
        cases hk
        refine ⟨st.methodOffset, ?_, hfilled₁.mono fun i slot hslot => ?_⟩
        · rw [Nat.add_zero, hentries' _ (by omega), hinterfaces₁]
          exact List.getElem?_set_self (by omega)
        · rw [List.getElem?_take] at hslot
          split_ifs at hslot with hi
          rw [hkept' i hi, hslot]
      | succ k =>
        obtain ⟨offset, hentry, hfilled⟩ := hall k ic' hk
        refine ⟨offset, ?_, hfilled⟩
        rw [show st.index + (k + 1) = st₁.index + k by omega]
        exact hentry

end CldcVm.Dispatch
