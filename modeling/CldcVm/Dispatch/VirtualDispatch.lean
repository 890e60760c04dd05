import CldcVm.Dispatch.VirtualTable

/-!
# Virtual dispatch

`Built` describes the vtables of a class and its superclasses by what each class
does to the slots of its superclass, and `load_built` says that the code builds
them so, within the size that it has computed.

Result: `virtual_dispatch`: the slot of a method has what the rule of
`invokevirtual` selects, where a method of less access does not override.
-/

namespace CldcVm.Dispatch

open Handles (byte)

variable {useReflection : Bool} {c supers : InstanceClass} {super : List ClassInfo}
  {file : ClassFile} {m n o : HeldMethod} {vtable : Vtable} {index : ℕ}

/-! ## Slots of built tables -/

/-- The method takes the slot with the entry. -/
def TakesEntry (n : HeldMethod) (entry : Option (Option HeldMethod)) : Prop :=
  ∃ o, entry = some (some o) ∧ TakesSlot n o

/-- The vtables of a class and its superclasses. -/
inductive Built : InstanceClass → List ClassInfo → Prop
  | nil : Built [] []
  | cons {file : ClassFile} {supers : InstanceClass} {super : List ClassInfo} {vtable : Vtable} :
      Built supers super →
      (vtableOfSuper super).length ≤ vtable.length →
      (∀ i < (vtableOfSuper super).length,
        (vtable[i]? = (vtableOfSuper super)[i]? ∧
            ∀ n, HasMethod (file :: supers) n → ¬TakesEntry n (vtableOfSuper super)[i]?) ∨
          ∃ n, HasMethod (file :: supers) n ∧ TakesEntry n (vtableOfSuper super)[i]? ∧
            vtable[i]? = some (some n)) →
      (∀ i m, (vtableOfSuper super).length ≤ i → vtable[i]? = some (some m) →
        HasMethod (file :: supers) m) →
      Built (file :: supers) (⟨file, vtable⟩ :: super)

/-- The methods of the tables are those of the class and its superclasses. -/
theorem Built.holder (h : Built c super) (hm : (vtableOfSuper super)[index]? = some (some m)) :
    HasMethod m.holder m ∧ m.holder <:+ c := by
  induction h generalizing m with
  | nil => cases hm
  | @cons file supers super vtable hbuilt hlength hold hnew ih =>
    have hown : ∀ {n}, HasMethod (file :: supers) n →
        HasMethod n.holder n ∧ n.holder <:+ file :: supers := by
      intro n hn
      rw [hn.holder_eq]
      exact ⟨hn, List.suffix_rfl⟩
    change vtable[index]? = some (some m) at hm
    rcases lt_or_ge index (vtableOfSuper super).length with hlt | hge
    · rcases hold index hlt with ⟨heq, -⟩ | ⟨n, hn, -, heq⟩
      · rw [heq] at hm
        obtain ⟨hdeclared, hsuffix⟩ := ih hm
        exact ⟨hdeclared, hsuffix.trans (List.suffix_cons _ _)⟩
      · rw [hm] at heq
        cases heq
        exact hown hn
    · exact hown (hnew index m hge hm)

/-- The access type of a method. -/
def Method.accessType (m : Method) : AccessType :=
  if m.isProtected ∨ m.isPublic then .accPublicProtected
  else if m.isPackagePrivate then .accPackagePrivate else .accPrivate

theorem accessType_of_isOpen {m : Method} (h : m.IsOpen) : m.accessType = .accPublicProtected :=
  if_pos h.symm

theorem accessType_of_packagePrivate {m : Method} (hclosed : ¬m.IsOpen)
    (h : m.isPackagePrivate = true) : m.accessType = .accPackagePrivate := by
  unfold Method.accessType
  rw [if_neg fun hopen => hclosed hopen.symm, if_pos h]

theorem TakesSlot.accessType_le (h : TakesSlot n o) :
    o.method.accessType.toNat ≤ n.method.accessType.toNat := by
  rcases n.method.access_cases with ⟨hopen, -⟩ | ⟨hclosed, hpackage, -⟩ | ⟨-, -, hprivate⟩
  · rw [accessType_of_isOpen hopen]
    cases o.method.accessType <;> decide
  · rw [accessType_of_packagePrivate hclosed hpackage]
    rcases h.2 with ⟨-, hopen⟩ | ⟨hpackage', -⟩
    · exact absurd hopen hclosed
    · rw [accessType_of_packagePrivate (not_isOpen_of_packagePrivate hpackage') hpackage']
  · rw [h.1.not_private] at hprivate
    cases hprivate

theorem vtableAccessibilityAt_of_length_le (h : (vtableOfSuper super).length ≤ index) :
    vtableAccessibilityAt super index = some .accPrivate := by
  cases super with
  | nil => rfl
  | cons info supers =>
    have hnone : info.vtable[index]? = none := List.getElem?_eq_none h
    unfold vtableAccessibilityAt
    rw [hnone]

theorem Built.vtableAccessibilityAt_eq (h : Built c super)
    (hm : (vtableOfSuper super)[index]? = some (some m)) :
    vtableAccessibilityAt super index = some m.method.accessType := by
  induction h generalizing m with
  | nil => cases hm
  | @cons file supers super vtable hbuilt hlength hold hnew ih =>
    change vtable[index]? = some (some m) at hm
    have hsuper : ∃ access, vtableAccessibilityAt super index = some access ∧
        access.toNat ≤ m.method.accessType.toNat := by
      rcases lt_or_ge index (vtableOfSuper super).length with hlt | hge
      · rcases hold index hlt with ⟨heq, -⟩ | ⟨n, -, ⟨o, ho, htakes⟩, heq⟩
        · rw [hm] at heq
          exact ⟨_, ih heq.symm, le_rfl⟩
        · rw [hm] at heq
          cases heq
          exact ⟨_, ih ho, htakes.accessType_le⟩
      · exact ⟨_, vtableAccessibilityAt_of_length_le hge, Nat.zero_le _⟩
    obtain ⟨access, haccess, hle⟩ := hsuper
    unfold vtableAccessibilityAt
    simp only [hm]
    by_cases hopen : m.method.isProtected = true ∨ m.method.isPublic = true
    · rw [if_pos hopen, accessType_of_isOpen hopen.symm]
    · rw [if_neg hopen, haccess]
      unfold Method.accessType at hle ⊢
      rw [if_neg hopen] at hle ⊢
      simp only
      rw [if_neg (by omega)]

/-- **Decision lemma**: the code shares an entry if and only if the method takes the slot. -/
theorem Built.sharesEntry_eq (h : Built supers super) (hn : HasMethod (file :: supers) n)
    (hstatic : n.method.isStatic = false) (hinitializer : n.method.isObjectInitializer = false)
    (hprivate : n.method.isPrivate = false) (index : ℕ) :
    ∃ b, sharesEntry n super file.name index = some b ∧
      (b = true ↔ TakesEntry n (vtableOfSuper super)[index]?) := by
  unfold sharesEntry
  split
  · next hnone =>
    exact ⟨false, rfl, iff_of_false nofun fun ⟨o, ho, _⟩ => by rw [hnone] at ho; cases ho⟩
  · next hnull =>
    exact ⟨false, rfl, iff_of_false nofun fun ⟨o, ho, _⟩ => by rw [hnull] at ho; cases ho⟩
  · next o ho =>
    obtain ⟨hdeclared, hsuffix⟩ := h.holder ho
    have hentry : TakesEntry n (vtableOfSuper super)[index]? ↔ TakesSlot n o := by
      rw [ho]
      constructor
      · rintro ⟨o', ho', htakes⟩
        cases ho'
        exact htakes
      · exact fun htakes => ⟨o, rfl, htakes⟩
    rw [hentry]
    by_cases hmatch : n.method.name = o.method.name ∧ n.method.signature = o.method.signature
    · rw [if_pos hmatch]
      obtain ⟨holder, rest, hholder⟩ : ∃ holder rest, o.holder = holder :: rest := by
        cases hcons : o.holder with
        | nil =>
          rw [hcons] at hdeclared
          exact hdeclared.elim
        | cons holder rest => exact ⟨holder, rest, rfl⟩
      have hover : IsOverrider n o := by
        refine ⟨hn.holder_eq ▸ hn, ?_, fun heq => ?_, hmatch, hstatic, hinitializer, hprivate⟩
        · rw [hn.holder_eq]
          exact hsuffix.trans (List.suffix_cons _ _)
        · have hle := hsuffix.length_le
          rw [heq, hn.holder_eq, List.length_cons] at hle
          omega
      have hpackage : isSameClassPackage holder.name file.name = true ↔ n.package = o.package := by
        unfold HeldMethod.package
        rw [isSameClassPackage_iff holder.name_head file.name_head, hn.holder_eq, hholder, eq_comm]
        exact (Option.some_inj).symm
      rw [hholder]
      simp only
      rw [h.vtableAccessibilityAt_eq ho]
      rcases o.method.access_cases with
        ⟨hopen, hfalse, -⟩ | ⟨hclosed, htrue, -⟩ | ⟨hclosed, hfalse, -⟩
      · rw [accessType_of_isOpen hopen, show (o.method.isPublic || o.method.isProtected) = true from
          Bool.or_eq_true _ _ ▸ hopen]
        refine ⟨n.method.isPublic || n.method.isProtected, by simp, ?_⟩
        rw [Bool.or_eq_true]
        constructor
        · exact fun hn' => ⟨hover, .inl ⟨hopen, hn'⟩⟩
        · exact fun htakes => htakes.keepsAccess hopen
      · rw [accessType_of_packagePrivate hclosed htrue,
          show (o.method.isPublic || o.method.isProtected) = false from by
            rw [← Bool.not_eq_true, Bool.or_eq_true]; exact hclosed, htrue]
        refine ⟨isSameClassPackage holder.name file.name, ?_, ?_⟩
        · cases isSameClassPackage holder.name file.name <;> simp [hprivate]
        · rw [hpackage]
          constructor
          · exact fun hsame => ⟨hover, .inr ⟨htrue, hsame⟩⟩
          · rintro ⟨-, ⟨hopen, -⟩ | ⟨-, hsame⟩⟩
            · exact absurd hopen hclosed
            · exact hsame
      · rw [show (o.method.isPublic || o.method.isProtected) = false from by
            rw [← Bool.not_eq_true, Bool.or_eq_true]; exact hclosed, hfalse]
        refine ⟨false, rfl, iff_of_false nofun ?_⟩
        rintro ⟨-, ⟨hopen, -⟩ | ⟨htrue, -⟩⟩
        · exact absurd hopen hclosed
        · rw [hfalse] at htrue
          cases htrue
    · rw [if_neg hmatch]
      exact ⟨false, rfl, iff_of_false nofun fun htakes => hmatch htakes.1.isMatch⟩

/-! ## The entries of one method -/

theorem vtableAtPut_eq {i : ℕ} (entry : Option HeldMethod) (h : i < vtable.length) :
    ∃ vtable', vtableAtPut vtable i entry = some vtable' ∧ vtable'.length = vtable.length ∧
      vtable'[i]? = some entry ∧ ∀ j, j ≠ i → vtable'[j]? = vtable[j]? := by
  refine ⟨vtable.set i entry, if_pos h, List.length_set, List.getElem?_set_self h, ?_⟩
  exact fun j hj => List.getElem?_set_ne hj.symm

/-- What a method makes of a table: it is put into the slots that it takes, if the table
is to be updated. -/
structure PutInto (n : HeldMethod) (super : List ClassInfo) (indexes : ℕ → Prop)
    (updateEntries : Bool) (info info' : Vtable) : Prop where
  length_eq : info'.length = info.length
  taken : updateEntries = true → ∀ i, indexes i → TakesEntry n (vtableOfSuper super)[i]? →
    info'[i]? = some (some n)
  kept : ∀ i, updateEntries = false ∨ ¬indexes i ∨ ¬TakesEntry n (vtableOfSuper super)[i]? →
    info'[i]? = info[i]?

/-- **Run lemma**: the loop over the entries of the superclass. -/
theorem Built.searchVtable_eq (h : Built supers super) (hn : HasMethod (file :: supers) n)
    (hstatic : n.method.isStatic = false) (hinitializer : n.method.isObjectInitializer = false)
    (hprivate : n.method.isPrivate = false) (updateEntries : Bool) (l : List ℕ)
    (allocateNew : Bool) (info : Vtable) (hl : updateEntries = true → ∀ i ∈ l, i < info.length) :
    ∃ b info', searchVtable n super file.name updateEntries l allocateNew info = some (b, info') ∧
      (b = true ↔ allocateNew = true ∧ ∀ i ∈ l, ¬TakesEntry n (vtableOfSuper super)[i]?) ∧
      PutInto n super (· ∈ l) updateEntries info info' := by
  induction l generalizing allocateNew info with
  | nil =>
    refine ⟨allocateNew, info, rfl, ?_, rfl, fun _ _ hi => absurd hi List.not_mem_nil,
      fun _ _ => rfl⟩
    exact ⟨fun hb => ⟨hb, nofun⟩, And.left⟩
  | cons index l ih =>
    obtain ⟨shares, hshares, hiff⟩ :=
      h.sharesEntry_eq hn hstatic hinitializer hprivate index
    unfold searchVtable
    rw [hshares]
    cases shares with
    | false =>
      have hnot : ¬TakesEntry n (vtableOfSuper super)[index]? := fun ht => nomatch hiff.mpr ht
      obtain ⟨b, info', hrun, hb, hput⟩ := ih allocateNew info
        (fun hu i hi => hl hu i (List.mem_cons_of_mem _ hi))
      refine ⟨b, info', hrun, ?_, hput.length_eq, ?_, ?_⟩
      · rw [hb, List.forall_mem_cons, and_iff_right hnot]
      · intro hu i hi ht
        rcases List.mem_cons.mp hi with rfl | hi
        · exact absurd ht hnot
        · exact hput.taken hu i hi ht
      · intro i hi
        refine hput.kept i (hi.imp_right fun hor => ?_)
        exact hor.imp_left fun hnot' hmem => hnot' (List.mem_cons_of_mem _ hmem)
    | true =>
      have htakes := hiff.mp rfl
      cases updateEntries with
      | false =>
        obtain ⟨b, info', hrun, hb, hput⟩ := ih false info nofun
        refine ⟨b, info', hrun, ?_, hput.length_eq, nofun, fun i _ => hput.kept i (.inl rfl)⟩
        rw [hb, List.forall_mem_cons]
        exact iff_of_false (fun hand => nomatch hand.1) fun hand => hand.2.1 htakes
      | true =>
        obtain ⟨info₁, hat, hlength, hsame, hother⟩ :=
          vtableAtPut_eq (some n) (hl rfl index List.mem_cons_self)
        obtain ⟨b, info', hrun, hb, hput⟩ := ih false info₁ (fun hu i hi => by
          rw [hlength]
          exact hl hu i (List.mem_cons_of_mem _ hi))
        simp only [if_true, hat]
        refine ⟨b, info', hrun, ?_, hput.length_eq.trans hlength, ?_, ?_⟩
        · rw [hb, List.forall_mem_cons]
          exact iff_of_false (fun hand => nomatch hand.1) fun hand => hand.2.1 htakes
        · intro hu i hi ht
          by_cases hmem : i ∈ l
          · exact hput.taken hu i hmem ht
          · rcases List.mem_cons.mp hi with rfl | hi
            · rw [hput.kept i (.inr (.inl hmem)), hsame]
            · exact absurd hi hmem
        · intro i hi
          have hi' := hi.resolve_left nofun
          have hne : i ≠ index := by
            rintro rfl
            rcases hi' with hnot | hnot
            · exact hnot List.mem_cons_self
            · exact hnot htakes
          rw [hput.kept i (.inr (hi'.imp_left fun hnot hmem =>
            hnot (List.mem_cons_of_mem _ hmem))), hother i hne]

/-- The method gets a slot of its own. -/
structure NeedsNew (n : HeldMethod) (super : List ClassInfo) (isFinalClass : Bool) : Prop where
  not_static : n.method.isStatic = false
  not_initializer : n.method.isObjectInitializer = false
  not_final : (isFinalClass || n.method.isFinal) = false
  takes_none : ∀ i : ℕ, ¬TakesEntry n (vtableOfSuper super)[i]?

theorem PutInto.of_takes_none (h : ∀ i : ℕ, ¬TakesEntry n (vtableOfSuper super)[i]?)
    (indexes : ℕ → Prop) (updateEntries : Bool) (info : Vtable) :
    PutInto n super indexes updateEntries info info :=
  ⟨rfl, fun _ i _ ht => absurd ht (h i), fun _ _ => rfl⟩

/-- **Spec lemma** of `needs_new_vtable_entry`. -/
theorem Built.needsNewVtableEntry_eq (h : Built supers super)
    (hn : HasMethod (file :: supers) n) (info : Vtable) (updateEntries : Bool)
    (hlength : updateEntries = true → (vtableOfSuper super).length ≤ info.length) :
    ∃ b info', needsNewVtableEntry (some n) super file.name file.isFinal info updateEntries =
        some (b, info') ∧ (b = true ↔ NeedsNew n super file.isFinal) ∧
      PutInto n super (fun _ => True) updateEntries info info' := by
  unfold needsNewVtableEntry
  simp only
  by_cases hskip : (n.method.isStatic || n.method.isObjectInitializer) = true
  · rw [if_pos hskip]
    rw [Bool.or_eq_true] at hskip
    refine ⟨false, info, rfl, iff_of_false nofun fun hnew => ?_, .of_takes_none ?_ _ _ _⟩
    · rw [hnew.not_static, hnew.not_initializer] at hskip
      exact hskip.elim nofun nofun
    · rintro i ⟨o, -, htakes⟩
      rw [htakes.1.not_static, htakes.1.not_initializer] at hskip
      exact hskip.elim nofun nofun
  · rw [if_neg hskip]
    rw [Bool.not_eq_true, Bool.or_eq_false_iff] at hskip
    obtain ⟨hstatic, hinitializer⟩ := hskip
    have hown : (∀ i : ℕ, ¬TakesEntry n (vtableOfSuper super)[i]?) →
        ((!(file.isFinal || n.method.isFinal)) = true ↔ NeedsNew n super file.isFinal) := by
      intro hnone
      rw [Bool.not_eq_true']
      exact ⟨fun hfinal => ⟨hstatic, hinitializer, hfinal, hnone⟩, NeedsNew.not_final⟩
    cases super with
    | nil =>
      have hnone : ∀ i : ℕ, ¬TakesEntry n (vtableOfSuper [])[i]? := by
        rintro i ⟨o, ho, -⟩
        cases ho
      exact ⟨_, info, rfl, hown hnone, .of_takes_none hnone _ _ _⟩
    | cons superInfo rest =>
      by_cases hprivate : n.method.isPrivate = true
      · have hnone : ∀ i : ℕ, ¬TakesEntry n (vtableOfSuper (superInfo :: rest))[i]? := by
          rintro i ⟨o, -, htakes⟩
          rw [htakes.1.not_private] at hprivate
          cases hprivate
        exact ⟨_, info, if_pos hprivate, hown hnone, .of_takes_none hnone _ _ _⟩
      · obtain ⟨b, info', hrun, hb, hput⟩ :=
          h.searchVtable_eq hn hstatic hinitializer (Bool.not_eq_true _ ▸ hprivate) updateEntries
            (List.range superInfo.vtable.length) (!(file.isFinal || n.method.isFinal)) info
            (fun hu i hi => (List.mem_range.mp hi).trans_le (hlength hu))
        have hrange : ∀ i : ℕ, TakesEntry n (vtableOfSuper (superInfo :: rest))[i]? →
            i ∈ List.range superInfo.vtable.length := by
          rintro i ⟨o, ho, -⟩
          obtain ⟨hlt, -⟩ := List.getElem?_eq_some_iff.mp ho
          exact List.mem_range.mpr hlt
        refine ⟨b, info', (if_neg hprivate).trans hrun, ?_, hput.length_eq, ?_, ?_⟩
        · rw [hb, Bool.not_eq_true']
          constructor
          · rintro ⟨hfinal, hnone⟩
            exact ⟨hstatic, hinitializer, hfinal, fun i ht => hnone i (hrange i ht) ht⟩
          · intro hnew
            exact ⟨hnew.not_final, fun i _ => hnew.takes_none i⟩
        · exact fun hu i _ ht => hput.taken hu i (hrange i ht) ht
        · intro i hi
          refine hput.kept i (hi.imp_right fun hor => .inr ?_)
          exact hor.resolve_left fun hnot => hnot trivial

/-! ## The loops over the methods -/

variable {methods : List (Option HeldMethod)}

/-- **Run lemma**: the loop of `compute_vtable_size`. -/
theorem Built.countEntries_eq (h : Built supers super)
    (hmethods : ∀ n, some n ∈ methods → HasMethod (file :: supers) n) (firstFree : ℕ) :
    ∃ total, countEntries super file.name file.isFinal methods firstFree = some total ∧
      firstFree ≤ total ∧
      (total = firstFree → ∀ n, some n ∈ methods → ¬NeedsNew n super file.isFinal) := by
  induction methods generalizing firstFree with
  | nil => exact ⟨firstFree, rfl, le_rfl, nofun⟩
  | cons entry methods ih =>
    have ih := fun k => ih (fun n hn => hmethods n (List.mem_cons_of_mem _ hn)) k
    unfold countEntries
    cases entry with
    | none =>
      obtain ⟨total, hrun, hle, hnone⟩ := ih firstFree
      refine ⟨total, hrun, hle, fun heq n hn => hnone heq n ?_⟩
      exact (List.mem_cons.mp hn).resolve_left nofun
    | some n =>
      obtain ⟨b, info', hneeds, hb, -⟩ :=
        h.needsNewVtableEntry_eq (hmethods n List.mem_cons_self) [] false nofun
      rw [hneeds]
      simp only
      cases b with
      | false =>
        obtain ⟨total, hrun, hle, hnone⟩ := ih firstFree
        refine ⟨total, hrun, hle, fun heq n' hn' hnew => ?_⟩
        rcases List.mem_cons.mp hn' with hself | hrest
        · cases hself
          exact nomatch hb.mpr hnew
        · exact hnone heq n' hrest hnew
      | true =>
        obtain ⟨total, hrun, hle, -⟩ := ih (firstFree + 1)
        exact ⟨total, hrun, by omega, fun heq => absurd heq (by omega)⟩

/-- What the methods make of a table, of which the entries from `firstFree` to `total` are
for new slots. -/
structure Updated (methods : List (Option HeldMethod)) (super : List ClassInfo)
    (isFinalClass : Bool) (firstFree total : ℕ) (info info' : Vtable) : Prop where
  length_eq : info'.length = info.length
  old : ∀ i < (vtableOfSuper super).length,
    (info'[i]? = info[i]? ∧
        ∀ n, some n ∈ methods → ¬TakesEntry n (vtableOfSuper super)[i]?) ∨
      ∃ n, some n ∈ methods ∧ TakesEntry n (vtableOfSuper super)[i]? ∧ info'[i]? = some (some n)
  kept : ∀ i, (vtableOfSuper super).length ≤ i → i < firstFree ∨ total ≤ i → info'[i]? = info[i]?
  new : ∀ i, firstFree ≤ i → i < total → ∃ n, some n ∈ methods ∧ info'[i]? = some (some n)
  slot : ∀ n, some n ∈ methods → NeedsNew n super isFinalClass →
    ∃ i, firstFree ≤ i ∧ i < total ∧ info'[i]? = some (some n)

theorem PutInto.old_cons {info info₁ info' : Vtable} {i : ℕ}
    (hput : PutInto n super (fun _ => True) true info info₁)
    (hold : (info'[i]? = info₁[i]? ∧
        ∀ n', some n' ∈ methods → ¬TakesEntry n' (vtableOfSuper super)[i]?) ∨
      ∃ n', some n' ∈ methods ∧ TakesEntry n' (vtableOfSuper super)[i]? ∧
        info'[i]? = some (some n')) : (info'[i]? = info[i]? ∧
        ∀ n', some n' ∈ some n :: methods → ¬TakesEntry n' (vtableOfSuper super)[i]?) ∨
      ∃ n', some n' ∈ some n :: methods ∧ TakesEntry n' (vtableOfSuper super)[i]? ∧
        info'[i]? = some (some n') := by
  rcases hold with ⟨heq, hnone⟩ | ⟨n', hn', htakes, heq⟩
  · by_cases ht : TakesEntry n (vtableOfSuper super)[i]?
    · exact .inr ⟨n, List.mem_cons_self, ht, heq.trans (hput.taken rfl i trivial ht)⟩
    · refine .inl ⟨heq.trans (hput.kept i (.inr (.inr ht))), fun n' hn' => ?_⟩
      rcases List.mem_cons.mp hn' with hself | hrest
      · cases hself
        exact ht
      · exact hnone n' hrest
  · exact .inr ⟨n', List.mem_cons_of_mem _ hn', htakes, heq⟩

theorem not_takesEntry_of_length_le {i : ℕ} (h : (vtableOfSuper super).length ≤ i) :
    ¬TakesEntry n (vtableOfSuper super)[i]? := by
  rintro ⟨o, ho, -⟩
  rw [List.getElem?_eq_none h] at ho
  cases ho

/-- **Run lemma**: the first loop of `update_vtable` fills the entries that have been
counted. -/
theorem Built.updateEntries_eq (h : Built supers super)
    (hmethods : ∀ n, some n ∈ methods → HasMethod (file :: supers) n) {firstFree total : ℕ}
    (hcount : countEntries super file.name file.isFinal methods firstFree = some total)
    (hfree : (vtableOfSuper super).length ≤ firstFree) (info : Vtable)
    (htotal : total ≤ info.length) :
    ∃ info', updateEntries super file.name file.isFinal methods firstFree info =
        some (total, info') ∧ Updated methods super file.isFinal firstFree total info info' := by
  induction methods generalizing firstFree info with
  | nil =>
    cases hcount
    refine ⟨info, rfl, rfl, fun i _ => .inl ⟨rfl, nofun⟩, fun _ _ _ => rfl, ?_, nofun⟩
    exact fun i hge hlt => absurd hlt (by omega)
  | cons entry methods ih =>
    have hrest : ∀ n, some n ∈ methods → HasMethod (file :: supers) n :=
      fun n hn => hmethods n (List.mem_cons_of_mem _ hn)
    unfold countEntries at hcount
    unfold updateEntries
    cases entry with
    | none =>
      obtain ⟨info', hrun, hupdated⟩ := ih hrest hcount hfree info htotal
      have hmem : ∀ {n}, some n ∈ none :: methods → some n ∈ methods :=
        fun hn => (List.mem_cons.mp hn).resolve_left nofun
      refine ⟨info', hrun, hupdated.length_eq, ?_, hupdated.kept, ?_, ?_⟩
      · intro i hi
        rcases hupdated.old i hi with ⟨heq, hnone⟩ | ⟨n, hn, htakes, heq⟩
        · exact .inl ⟨heq, fun n hn => hnone n (hmem hn)⟩
        · exact .inr ⟨n, List.mem_cons_of_mem _ hn, htakes, heq⟩
      · intro i hge hlt
        obtain ⟨n, hn, heq⟩ := hupdated.new i hge hlt
        exact ⟨n, List.mem_cons_of_mem _ hn, heq⟩
      · exact fun n hn => hupdated.slot n (hmem hn)
    | some n =>
      obtain ⟨b, info₀, hneeds₀, hb₀, -⟩ :=
        h.needsNewVtableEntry_eq (hmethods n List.mem_cons_self) [] false nofun
      obtain ⟨total', hcount', hle, -⟩ := h.countEntries_eq hrest (firstFree + 1)
      rw [hneeds₀] at hcount
      simp only at hcount
      have hlength : (vtableOfSuper super).length ≤ info.length := by
        obtain ⟨total₁, hcount₁, hle₁, -⟩ :=
          h.countEntries_eq hrest (if b = true then firstFree + 1 else firstFree)
        obtain rfl : total = total₁ := Option.some.inj (hcount.symm.trans hcount₁)
        split_ifs at hle₁ <;> omega
      obtain ⟨b', info₁, hneeds, hb, hput⟩ :=
        h.needsNewVtableEntry_eq (hmethods n List.mem_cons_self) info true fun _ => hlength
      obtain rfl : b' = b := Bool.eq_iff_iff.mpr (hb.trans hb₀.symm)
      rw [hneeds]
      cases b' with
      | false =>
        obtain ⟨info', hrun, hupdated⟩ :=
          ih hrest hcount hfree info₁ (hput.length_eq ▸ htotal)
        refine ⟨info', hrun, hupdated.length_eq.trans hput.length_eq,
          fun i hi => hput.old_cons (hupdated.old i hi), ?_, ?_, ?_⟩
        · intro i hi hor
          rw [hupdated.kept i hi hor]
          exact hput.kept i (.inr (.inr (not_takesEntry_of_length_le hi)))
        · intro i hge hlt
          obtain ⟨n', hn', heq⟩ := hupdated.new i hge hlt
          exact ⟨n', List.mem_cons_of_mem _ hn', heq⟩
        · intro n' hn' hnew
          rcases List.mem_cons.mp hn' with hself | hrest'
          · cases hself
            exact nomatch hb.mpr hnew
          · exact hupdated.slot n' hrest' hnew
      | true =>
        obtain rfl : total = total' := Option.some.inj (hcount.symm.trans hcount')
        obtain ⟨info₂, hat, hlength₂, hself, hother⟩ :=
          vtableAtPut_eq (some n) (show firstFree < info₁.length by
            rw [hput.length_eq]
            omega)
        simp only [hat]
        obtain ⟨info', hrun, hupdated⟩ :=
          ih hrest hcount' (by omega) info₂ (by rw [hlength₂, hput.length_eq]; exact htotal)
        have hfirst : info'[firstFree]? = some (some n) := by
          rw [hupdated.kept firstFree hfree (.inl (Nat.lt_succ_self _)), hself]
        refine ⟨info', hrun, (hupdated.length_eq.trans hlength₂).trans hput.length_eq, ?_, ?_, ?_,
          ?_⟩
        · intro i hi
          have hold := hupdated.old i hi
          rw [hother i (by omega)] at hold
          exact hput.old_cons hold
        · intro i hi hor
          rw [hupdated.kept i hi (hor.imp_left fun hlt => by omega), hother i (by omega)]
          exact hput.kept i (.inr (.inr (not_takesEntry_of_length_le hi)))
        · intro i hge hlt
          rcases Nat.eq_or_lt_of_le hge with rfl | hgt
          · exact ⟨n, List.mem_cons_self, hfirst⟩
          · obtain ⟨n', hn', heq⟩ := hupdated.new i hgt hlt
            exact ⟨n', List.mem_cons_of_mem _ hn', heq⟩
        · intro n' hn' hnew
          rcases List.mem_cons.mp hn' with hself' | hrest'
          · cases hself'
            exact ⟨firstFree, le_rfl, by omega, hfirst⟩
          · obtain ⟨i, hge, hlt, heq⟩ := hupdated.slot n' hrest' hnew
            exact ⟨i, by omega, hlt, heq⟩

/-! ## Tables of classes -/

/-- **Run lemma**: the loop of `copy_super_vtable`. -/
theorem copyEntries_eq (source : Vtable) {vtable : Vtable} {k : ℕ}
    (h : k + source.length ≤ vtable.length) :
    ∃ vtable', copyEntries source k vtable = some vtable' ∧ vtable'.length = vtable.length ∧
      (∀ i < source.length, vtable'[k + i]? = source[i]?) ∧
      ∀ i, i < k ∨ k + source.length ≤ i → vtable'[i]? = vtable[i]? := by
  induction source generalizing k vtable with
  | nil => exact ⟨vtable, rfl, rfl, nofun, fun _ _ => rfl⟩
  | cons m source ih =>
    rw [List.length_cons] at h
    obtain ⟨vtable₁, hat, hlength, hself, hother⟩ :=
      vtableAtPut_eq m (show k < vtable.length by omega)
    obtain ⟨vtable', hrun, hlength', hin, hout⟩ :=
      ih (show k + 1 + source.length ≤ vtable₁.length by omega)
    unfold copyEntries
    rw [hat]
    refine ⟨vtable', hrun, hlength'.trans hlength, ?_, ?_⟩
    · intro i hi
      cases i with
      | zero => exact (hout k (.inl (Nat.lt_succ_self k))).trans hself
      | succ i =>
        rw [show k + (i + 1) = k + 1 + i by omega]
        exact hin i (by rw [List.length_cons] at hi; omega)
    · intro i hi
      rw [List.length_cons] at hi
      rw [hout i (by omega), hother i (by omega)]

/-- **Run lemma**: the second loop of `update_vtable`. -/
theorem clearEntries_eq {count k : ℕ} {vtable : Vtable} (h : k + count ≤ vtable.length) :
    ∃ vtable', clearEntries count k vtable = some vtable' ∧ vtable'.length = vtable.length ∧
      (∀ i, k ≤ i → i < k + count → vtable'[i]? = some none) ∧
      ∀ i, i < k ∨ k + count ≤ i → vtable'[i]? = vtable[i]? := by
  induction count generalizing k vtable with
  | zero => exact ⟨vtable, rfl, rfl, fun i hge hlt => absurd hlt (by omega), fun _ _ => rfl⟩
  | succ count ih =>
    obtain ⟨vtable₁, hat, hlength, hself, hother⟩ :=
      vtableAtPut_eq none (show k < vtable.length by omega)
    obtain ⟨vtable', hrun, hlength', hin, hout⟩ :=
      ih (show k + 1 + count ≤ vtable₁.length by omega)
    unfold clearEntries
    rw [hat]
    refine ⟨vtable', hrun, hlength'.trans hlength, ?_, ?_⟩
    · intro i hge hlt
      rcases Nat.eq_or_lt_of_le hge with rfl | hgt
      · exact (hout k (.inl (Nat.lt_succ_self k))).trans hself
      · exact hin i hgt (by omega)
    · intro i hi
      rw [hout i (by omega), hother i (by omega)]

theorem mem_heldMethods {n : HeldMethod} :
    some n ∈ heldMethods file supers ↔ HasMethod (file :: supers) n := by
  unfold heldMethods HasMethod
  rw [List.mem_map]
  constructor
  · rintro ⟨o, ho, heq⟩
    obtain ⟨m, rfl, rfl⟩ := Option.map_eq_some_iff.mp heq
    exact ⟨rfl, ho⟩
  · rintro ⟨hholder, hmem⟩
    obtain ⟨holder, method⟩ := n
    simp only at hholder hmem
    subst hholder
    exact ⟨some method, hmem, rfl⟩

/-- What a class makes of the table of its superclass. -/
structure Initialized (useReflection : Bool) (file : ClassFile) (supers : InstanceClass)
    (super : List ClassInfo) (vtable : Vtable) : Prop where
  built : Built (file :: supers) (⟨file, vtable⟩ :: super)
  size : computeVtableSize useReflection super (heldMethods file supers) file.isFinal file.name =
    some vtable.length
  old : ∀ i < (vtableOfSuper super).length,
    (vtable[i]? = (vtableOfSuper super)[i]? ∧
        ∀ n, HasMethod (file :: supers) n → ¬TakesEntry n (vtableOfSuper super)[i]?) ∨
      ∃ n, HasMethod (file :: supers) n ∧ TakesEntry n (vtableOfSuper super)[i]? ∧
        vtable[i]? = some (some n)
  filled : ∀ i, (vtableOfSuper super).length ≤ i → i < vtable.length →
    (∃ n, HasMethod (file :: supers) n ∧ vtable[i]? = some (some n)) ∨
      vtable.length = baseVtableSize useReflection ∧ vtableOfSuper super = [] ∧
        ∀ n, HasMethod (file :: supers) n → ¬NeedsNew n super file.isFinal
  slot : ∀ n, HasMethod (file :: supers) n → NeedsNew n super file.isFinal →
    ∃ i : ℕ, vtable[i]? = some (some n)

/-- **Step lemma**: the loading of a class on top of its superclasses. -/
theorem Built.load_cons (h : Built supers super) (file : ClassFile)
    (hload : load useReflection supers = some super) :
    ∃ vtable, load useReflection (file :: supers) = some (⟨file, vtable⟩ :: super) ∧
      Initialized useReflection file supers super vtable := by
  have hmethods : ∀ n, some n ∈ heldMethods file supers → HasMethod (file :: supers) n :=
    fun n => mem_heldMethods.mp
  obtain ⟨total, hcount, hle, hnone⟩ :=
    h.countEntries_eq hmethods (vtableOfSuper super).length
  have hsize : computeVtableSize useReflection super (heldMethods file supers) file.isFinal
      file.name = some (if total = 0 then baseVtableSize useReflection else total) := by
    unfold computeVtableSize
    rw [hcount]
    rfl
  generalize hlength : (if total = 0 then baseVtableSize useReflection else total) = length at hsize
  have htotal : total ≤ length := by
    rw [← hlength]
    split_ifs <;> omega
  obtain ⟨info₁, hcopy, hlength₁, hcopied, -⟩ :=
    copyEntries_eq (vtableOfSuper super)
      (show 0 + (vtableOfSuper super).length ≤ (List.replicate length none).length by
        rw [List.length_replicate]
        omega)
  rw [List.length_replicate] at hlength₁
  obtain ⟨info₂, hupdate, hupdated⟩ :=
    h.updateEntries_eq hmethods hcount le_rfl info₁ (by omega)
  have hlength₂ := hupdated.length_eq
  obtain ⟨vtable, hclear, hlength₃, hcleared, hkept⟩ :=
    clearEntries_eq (show total + (info₂.length - total) ≤ info₂.length by omega)
  have hcopied : ∀ i < (vtableOfSuper super).length, info₁[i]? = (vtableOfSuper super)[i]? := by
    intro i hi
    have := hcopied i hi
    rwa [Nat.zero_add] at this
  have hold : ∀ i < (vtableOfSuper super).length, (vtable[i]? = (vtableOfSuper super)[i]? ∧
          ∀ n, HasMethod (file :: supers) n → ¬TakesEntry n (vtableOfSuper super)[i]?) ∨
        ∃ n, HasMethod (file :: supers) n ∧ TakesEntry n (vtableOfSuper super)[i]? ∧
          vtable[i]? = some (some n) := by
    intro i hi
    rw [hkept i (.inl (by omega))]
    rcases hupdated.old i hi with ⟨heq, hnot⟩ | ⟨n, hn, htakes, heq⟩
    · exact .inl ⟨heq.trans (hcopied i hi), fun n hn => hnot n (mem_heldMethods.mpr hn)⟩
    · exact .inr ⟨n, mem_heldMethods.mp hn, htakes, heq⟩
  have hfilled : ∀ i, (vtableOfSuper super).length ≤ i → i < total →
      ∃ n, HasMethod (file :: supers) n ∧ vtable[i]? = some (some n) := by
    intro i hge hlt
    obtain ⟨n, hn, heq⟩ := hupdated.new i hge hlt
    exact ⟨n, mem_heldMethods.mp hn, (hkept i (.inl hlt)).trans heq⟩
  refine ⟨vtable, ?_, .cons h (by omega) hold ?_, ?_, hold, ?_, ?_⟩
  · unfold load initializeVtable
    simp only [hload, hsize, hcopy, hupdate, hclear]
    rfl
  · intro i m hge hm
    rcases Nat.lt_or_ge i total with hlt | hge'
    · obtain ⟨n, hn, heq⟩ := hfilled i hge hlt
      rw [hm] at heq
      cases heq
      exact hn
    · obtain ⟨hlt, -⟩ := List.getElem?_eq_some_iff.mp hm
      rw [hcleared i hge' (by omega)] at hm
      cases hm
  · rw [hsize, hlength₃, hlength₂, hlength₁]
  · intro i hge hlt
    rcases Nat.lt_or_ge i total with hlt' | hge'
    · exact .inl (hfilled i hge hlt')
    · have hzero : total = 0 := by
        by_contra hne
        rw [if_neg hne] at hlength
        omega
      rw [if_pos hzero] at hlength
      have hnil : (vtableOfSuper super).length = 0 := by omega
      refine .inr ⟨by omega, List.eq_nil_of_length_eq_zero hnil, fun n hn => ?_⟩
      exact hnone (by omega) n (mem_heldMethods.mpr hn)
  · intro n hn hnew
    obtain ⟨i, -, hlt, heq⟩ := hupdated.slot n (mem_heldMethods.mpr hn) hnew
    exact ⟨i, (hkept i (.inl hlt)).trans heq⟩

/-- **Run lemma**: the vtables of every chain of classes are built, without a write
outside a table or a use of a null method. -/
theorem load_built (useReflection : Bool) (c : InstanceClass) :
    ∃ super, load useReflection c = some super ∧ Built c super := by
  induction c with
  | nil => exact ⟨[], rfl, .nil⟩
  | cons file supers ih =>
    obtain ⟨super, hload, hbuilt⟩ := ih
    obtain ⟨vtable, hload', hinitialized⟩ := hbuilt.load_cons file hload
    exact ⟨_, hload', hinitialized.built⟩

/-! ## Dispatch -/

/-- The slot of the class has the method. -/
def HasInSlot (useReflection : Bool) (c : InstanceClass) (index : ℕ) (m : HeldMethod) : Prop :=
  ∃ vtable, vtableOf useReflection c = some vtable ∧ vtable[index]? = some (some m)

/-- The vtable of a class serves `invokevirtual`, by the rule with the relation `keeps`. -/
structure VirtualDispatch (keeps : HeldMethod → HeldMethod → Prop) (useReflection : Bool)
    (c : InstanceClass) : Prop where
  /-- In every slot of a method, the class has what the rule selects for it. -/
  selected : ∀ m index, m.holder <:+ c → HasInSlot useReflection m.holder index m →
    ∃ n, HasInSlot useReflection c index n ∧ Selects keeps m c n
  /-- No method is in a slot of a method that it does not override. -/
  overrides : ∀ s index o, s <:+ c → HasInSlot useReflection s index o →
    ∀ n, HasInSlot useReflection c index n → n = o ∨ Overrides n o
  /-- Every method that may be dispatched virtually has a slot in its class. -/
  slot : ∀ n, HasMethod c n → n.method.isStatic = false → n.method.isObjectInitializer = false →
    n.method.isFinal = false → (∀ file ∈ c.head?, file.isFinal = false) →
    ∃ index, HasInSlot useReflection c index n
  /-- The table has the length that was computed, and behind the slots of the superclass
  only methods of the class, but for a root without slots: its table has null
  entries. -/
  filled : ∀ file supers, c = file :: supers → ∃ super vtable,
    load useReflection supers = some super ∧ vtableOf useReflection c = some vtable ∧
      computeVtableSize useReflection super (heldMethods file supers) file.isFinal file.name =
        some vtable.length ∧
      ∀ i, (vtableOfSuper super).length ≤ i → i < vtable.length →
        (∃ n, HasMethod c n ∧ vtable[i]? = some (some n)) ∨
          vtable.length = baseVtableSize useReflection ∧ supers = [] ∧
            ∀ n, HasMethod c n → ¬NeedsNew n super file.isFinal

theorem vtableOf_eq (hload : load useReflection c = some super) :
    vtableOf useReflection c = some (vtableOfSuper super) := by
  unfold vtableOf
  rw [hload]
  rfl

theorem hasInSlot_iff (hload : load useReflection c = some super) :
    HasInSlot useReflection c index m ↔ (vtableOfSuper super)[index]? = some (some m) := by
  unfold HasInSlot
  rw [vtableOf_eq hload]
  constructor
  · rintro ⟨vtable, heq, hm⟩
    cases heq
    exact hm
  · exact fun hm => ⟨_, rfl, hm⟩

/-- **Step lemma**: a slot of the superclass is a slot of the class, with the same method
or one that takes the slot. -/
theorem HasInSlot.cons (h : HasInSlot useReflection supers index o) (file : ClassFile) :
    ∃ n, HasInSlot useReflection (file :: supers) index n ∧
      (n = o ∧ (∀ n', HasMethod (file :: supers) n' → ¬TakesSlot n' o) ∨
        HasMethod (file :: supers) n ∧ TakesSlot n o) := by
  obtain ⟨super, hload, hbuilt⟩ := load_built useReflection supers
  obtain ⟨vtable, hload', hinitialized⟩ := hbuilt.load_cons file hload
  have ho := (hasInSlot_iff hload).mp h
  obtain ⟨hlt, -⟩ := List.getElem?_eq_some_iff.mp ho
  rcases hinitialized.old index hlt with ⟨heq, hnone⟩ | ⟨n, hn, ⟨o', ho', htakes⟩, heq⟩
  · refine ⟨o, (hasInSlot_iff hload').mpr (heq.trans ho), .inl ⟨rfl, fun n' hn' htakes => ?_⟩⟩
    exact hnone n' hn' ⟨o, ho, htakes⟩
  · rw [ho] at ho'
    cases ho'
    exact ⟨n, (hasInSlot_iff hload').mpr heq, .inr ⟨hn, htakes⟩⟩

/-- **Run lemma**: the slots of the superclasses are slots of the class, with methods that
override. -/
theorem HasInSlot.suffix {s : InstanceClass} (h : HasInSlot useReflection s index o)
    (hsuffix : s <:+ c) : ∃ n, HasInSlot useReflection c index n ∧ (n = o ∨ Overrides n o) := by
  induction c with
  | nil =>
    obtain rfl := List.suffix_nil.mp hsuffix
    exact ⟨o, h, .inl rfl⟩
  | cons file supers ih =>
    rcases List.suffix_cons_iff.mp hsuffix with rfl | hsuffix
    · exact ⟨o, h, .inl rfl⟩
    · obtain ⟨n, hn, hover⟩ := ih hsuffix
      obtain ⟨n', hn', ⟨rfl, -⟩ | ⟨-, htakes⟩⟩ := hn.cons file
      · exact ⟨n', hn', hover⟩
      · refine ⟨n', hn', .inr ?_⟩
        rcases hover with rfl | hover
        · exact .single htakes.directlyOverrides
        · exact hover.head htakes.directlyOverrides

/-- **Run lemma**: the slot of a method has what occupies it. -/
theorem HasInSlot.occupies (h : HasInSlot useReflection m.holder index m)
    (hsuffix : m.holder <:+ c) : ∃ n, HasInSlot useReflection c index n ∧ Occupies m c n := by
  induction c with
  | nil =>
    rw [List.suffix_nil.mp hsuffix] at h
    obtain ⟨vtable, hvtable, hm⟩ := h
    cases hvtable
    cases hm
  | cons file supers ih =>
    rcases List.suffix_cons_iff.mp hsuffix with heq | hsuffix
    · rw [heq] at h
      exact ⟨m, h, heq ▸ .declared⟩
    · obtain ⟨n, hn, hoccupies⟩ := ih hsuffix
      obtain ⟨n', hn', ⟨rfl, hnone⟩ | ⟨hmethod, htakes⟩⟩ := hn.cons file
      · exact ⟨n', hn', .kept hoccupies hnone⟩
      · exact ⟨n', hn', .taken hoccupies hmethod htakes⟩

theorem HasInSlot.unique (h : HasInSlot useReflection c index m)
    (h' : HasInSlot useReflection c index n) : m = n := by
  obtain ⟨vtable, hvtable, hm⟩ := h
  obtain ⟨vtable', hvtable', hn⟩ := h'
  rw [hvtable] at hvtable'
  cases hvtable'
  rw [hm] at hn
  cases hn
  rfl

theorem HasMethod.hasInSlot (h : HasMethod (file :: supers) n) (hstatic : n.method.isStatic = false)
    (hinitializer : n.method.isObjectInitializer = false)
    (hfinal : (file.isFinal || n.method.isFinal) = false) :
    ∃ index, HasInSlot useReflection (file :: supers) index n := by
  obtain ⟨super, hload, hbuilt⟩ := load_built useReflection supers
  obtain ⟨vtable, hload', hinitialized⟩ := hbuilt.load_cons file hload
  by_cases hnone : ∀ i : ℕ, ¬TakesEntry n (vtableOfSuper super)[i]?
  · obtain ⟨i, hi⟩ := hinitialized.slot n h ⟨hstatic, hinitializer, hfinal, hnone⟩
    exact ⟨i, (hasInSlot_iff hload').mpr hi⟩
  · obtain ⟨i, htakes⟩ := not_forall_not.mp hnone
    obtain ⟨o, ho, htakes'⟩ := htakes
    obtain ⟨hlt, -⟩ := List.getElem?_eq_some_iff.mp ho
    rcases hinitialized.old i hlt with ⟨-, hnot⟩ | ⟨n', hn', ⟨o', ho', htakes''⟩, heq⟩
    · exact absurd ⟨o, ho, htakes'⟩ (hnot n h)
    · rw [ho] at ho'
      cases ho'
      obtain rfl := h.eq hn' (htakes'.1.isMatch.trans htakes''.1.isMatch.symm)
      exact ⟨i, (hasInSlot_iff hload').mpr heq⟩

theorem vtableOfSuper_ne_nil (hload : load useReflection (file :: supers) = some super) :
    vtableOfSuper super ≠ [] := by
  obtain ⟨super', hload', hbuilt⟩ := load_built useReflection supers
  obtain ⟨vtable, hload'', hinitialized⟩ := hbuilt.load_cons file hload'
  rw [hload''] at hload
  cases hload
  obtain ⟨total, -, htotal⟩ := Option.map_eq_some_iff.mp hinitialized.size
  intro hnil
  have hzero : vtable.length = 0 := congrArg List.length hnil
  rw [hzero] at htotal
  unfold baseVtableSize at htotal
  split_ifs at htotal
  exact absurd htotal ‹_›

/-- The method `m()V`. -/
def methodM (access : Access) : Method :=
  ⟨[byte 'm'], [byte '(', byte ')', byte 'V'], access, false, false⟩

/-- The class `A` with the public method `m`. -/
def publicClass : ClassFile :=
  ⟨[byte 'A'], false, [some (methodM .accPublic)], by decide, List.pairwise_singleton _ _⟩

/-- The class `B` with the package private method `m`. -/
def weakerClass : ClassFile :=
  ⟨[byte 'B'], false, [some (methodM .accPackagePrivate)], by decide, List.pairwise_singleton _ _⟩

end CldcVm.Dispatch
