import CldcVm.Dispatch.OverrideTracking

/-!
# Inlined calls and the loading of classes

Results:

* `unlinkDirectCallers_spec`: what `unlink_direct_callers` leaves.
* `Codes.mark`: the direct callers of a method may be kept until it is marked.
* `marked_after`: which methods are marked after the loop of `update_vtable_bitmaps`.
* `tracked_runEvents`: after any run, the marks are right, and no compiled method has inlined a
  method that is overridden.
-/

namespace CldcVm.Dispatch

open Function (update update_of_ne update_self)

variable {useReflection : Bool} {c supers : InstanceClass} {file : ClassFile}
  {m n o callee caller : HeldMethod} {i : ℕ} {st : State} {table : List Record}

/-! ## Slots -/

theorem vtableMethodAt_eq_some :
    vtableMethodAt useReflection c i = some m ↔ HasInSlot useReflection c i m := by
  unfold vtableMethodAt HasInSlot
  rw [Option.join_eq_some_iff, Option.bind_eq_some_iff]

theorem HasInSlot.lt_vtableLength (h : HasInSlot useReflection c i m) :
    i < vtableLength useReflection c := by
  obtain ⟨vtable, hvtable, hm⟩ := h
  obtain ⟨hlt, -⟩ := List.getElem?_eq_some_iff.mp hm
  rw [vtableLength, hvtable]
  exact hlt

theorem HasInSlot.eq_or_holder (hn : HasInSlot useReflection (file :: supers) i n)
    (ho : HasInSlot useReflection supers i o) : n = o ∨ n.holder = file :: supers := by
  obtain ⟨n', hn', ⟨rfl, -⟩ | ⟨hmethod, -⟩⟩ := ho.cons file
  · exact .inl (hn.unique hn')
  · rw [hn.unique hn']
    exact .inr hmethod.holder_eq

theorem HasInSlot.of_holder (h : HasInSlot useReflection c i m) :
    HasInSlot useReflection m.holder i m ∧ m.holder <:+ c ∧ m.holder ≠ [] := by
  induction c with
  | nil =>
    obtain ⟨vtable, hvtable, hm⟩ := h
    cases hvtable
    cases hm
  | cons file supers ih =>
    have hown : HasMethod (file :: supers) m → HasInSlot useReflection m.holder i m ∧
        m.holder <:+ file :: supers ∧ m.holder ≠ [] := by
      intro hmethod
      rw [hmethod.holder_eq]
      exact ⟨h, List.suffix_rfl, List.cons_ne_nil _ _⟩
    obtain ⟨super, hload, hbuilt⟩ := load_built useReflection supers
    obtain ⟨vtable, hload', hinitialized⟩ := hbuilt.load_cons file hload
    have hm := (hasInSlot_iff hload').mp h
    change vtable[i]? = some (some m) at hm
    obtain hlt | hge := lt_or_ge i (vtableOfSuper super).length
    · obtain ⟨heq, -⟩ | ⟨n, hn, -, heq⟩ := hinitialized.old i hlt
      · rw [heq] at hm
        obtain ⟨hslot, hsuffix, hne⟩ := ih ((hasInSlot_iff hload).mpr hm)
        exact ⟨hslot, hsuffix.trans (List.suffix_cons _ _), hne⟩
      · rw [hm] at heq
        cases heq
        exact hown hn
    · cases hinitialized.built with
      | cons _ _ _ hnew => exact hown (hnew i m hge hm)

/-! ## The table of direct callers -/

/-- The keys differ, and every record has a caller. -/
structure Records (table : List Record) : Prop where
  nodup : (table.map Prod.fst).Nodup
  ne_nil : ∀ record ∈ table, record.2 ≠ []

theorem findCalleeRecord_cons (record : Record) : findCalleeRecord callee (record :: table) =
      if record.1 = callee then some record.2 else findCalleeRecord callee table := by
  unfold findCalleeRecord
  rw [List.find?_cons]
  by_cases h : record.1 = callee <;> simp [h]

theorem findCalleeRecord_eq_none :
    findCalleeRecord callee table = none ↔ callee ∉ table.map Prod.fst := by
  rw [findCalleeRecord, Option.map_eq_none_iff, List.find?_eq_none]
  constructor
  · intro hnone hmem
    obtain ⟨record, hrecord, rfl⟩ := List.mem_map.mp hmem
    exact hnone record hrecord (decide_eq_true rfl)
  · intro hnot record hrecord hkey
    obtain rfl := of_decide_eq_true hkey
    exact hnot (List.mem_map_of_mem hrecord)

theorem mem_of_findCalleeRecord {head : List HeldMethod}
    (h : findCalleeRecord callee table = some head) : (callee, head) ∈ table := by
  obtain ⟨record, hfind, rfl⟩ := Option.map_eq_some_iff.mp h
  have hkey := List.find?_some hfind
  obtain rfl := of_decide_eq_true hkey
  exact List.mem_of_find?_eq_some hfind

theorem map_fst_setNext (head : List HeldMethod) :
    (setNext callee head table).map Prod.fst = table.map Prod.fst := by
  induction table with
  | nil => rfl
  | cons record table ih =>
    rw [setNext]
    split
    · simp [*]
    · simp [ih]

theorem mem_setNext {head : List HeldMethod} {record : Record}
    (h : record ∈ setNext callee head table) : record = (callee, head) ∨ record ∈ table := by
  induction table with
  | nil => cases h
  | cons first table ih =>
    rw [setNext] at h
    split at h
    · obtain rfl | hmem := List.mem_cons.mp h
      · exact .inl rfl
      · exact .inr (List.mem_cons_of_mem _ hmem)
    · obtain rfl | hmem := List.mem_cons.mp h
      · exact .inr List.mem_cons_self
      · exact (ih hmem).imp_right (List.mem_cons_of_mem _)

theorem findCalleeRecord_setNext (head : List HeldMethod) (hfound : callee ∈ table.map Prod.fst) :
    findCalleeRecord m (setNext callee head table) =
      if callee = m then some head else findCalleeRecord m table := by
  induction table with
  | nil => cases hfound
  | cons record table ih =>
    rw [setNext]
    by_cases hkey : record.1 = callee
    · rw [if_pos hkey, findCalleeRecord_cons, findCalleeRecord_cons, hkey]
      by_cases hm : callee = m
      · rw [if_pos hm, if_pos hm]
      · simp only [if_neg hm]
    · rw [if_neg hkey, findCalleeRecord_cons, findCalleeRecord_cons]
      have htail : callee ∈ table.map Prod.fst := by
        obtain heq | hmem := List.mem_cons.mp hfound
        · exact absurd heq.symm hkey
        · exact hmem
      rw [ih htail]
      by_cases hm : record.1 = m
      · rw [if_pos hm, if_pos hm, if_neg (fun heq => hkey (hm.trans heq.symm))]
      · rw [if_neg hm, if_neg hm]

/-- The callers that the table has for a method. -/
def callersIn (table : List Record) (callee : HeldMethod) : List HeldMethod :=
  (findCalleeRecord callee table).getD []

/-- **Spec lemma** for `add_direct_caller`: the caller is in the table, and none is lost. -/
theorem addDirectCaller_spec {memory : ℕ} {table' : List Record} (h : Records table)
    (hadd : addDirectCaller callee caller memory table = some table') :
    Records table' ∧ caller ∈ callersIn table' callee ∧
      ∀ m, callersIn table m ⊆ callersIn table' m := by
  unfold addDirectCaller at hadd
  cases hfind : findCalleeRecord callee table with
  | some head =>
    simp only [hfind] at hadd
    split at hadd
    · cases hadd
      refine ⟨h, ?_, fun m => List.Subset.refl _⟩
      rw [callersIn, hfind]
      assumption
    split at hadd
    · cases hadd
    cases hadd
    have hkey : callee ∈ table.map Prod.fst :=
      List.mem_map.mpr ⟨_, mem_of_findCalleeRecord hfind, rfl⟩
    refine ⟨⟨?_, ?_⟩, ?_, fun m => ?_⟩
    · rw [map_fst_setNext]
      exact h.nodup
    · intro record hrecord
      obtain rfl | hmem := mem_setNext hrecord
      · exact List.cons_ne_nil _ _
      · exact h.ne_nil record hmem
    · rw [callersIn, findCalleeRecord_setNext _ hkey, if_pos rfl]
      exact List.mem_cons_self
    · rw [callersIn, callersIn, findCalleeRecord_setNext _ hkey]
      by_cases hm : callee = m
      · subst hm
        rw [if_pos rfl, hfind]
        exact List.subset_cons_self _ _
      · rw [if_neg hm]
        exact List.Subset.refl _
  | none =>
    simp only [hfind] at hadd
    split at hadd
    · cases hadd
    cases hadd
    refine ⟨⟨?_, ?_⟩, ?_, fun m => ?_⟩
    · rw [List.map_cons, List.nodup_cons]
      exact ⟨findCalleeRecord_eq_none.mp hfind, h.nodup⟩
    · intro record hrecord
      obtain rfl | hmem := List.mem_cons.mp hrecord
      · exact List.cons_ne_nil _ _
      · exact h.ne_nil record hmem
    · rw [callersIn, findCalleeRecord_cons, if_pos rfl]
      exact List.mem_cons_self
    · rw [callersIn, callersIn, findCalleeRecord_cons]
      by_cases hm : callee = m
      · rw [← hm, hfind]
        exact List.nil_subset _
      · rw [if_neg hm]
        exact List.Subset.refl _

theorem Records.eraseP_eq_filter (h : Records table) :
    table.eraseP (fun record => record.1 = callee) =
      table.filter fun record => record.1 ≠ callee := by
  induction table with
  | nil => rfl
  | cons record table ih =>
    obtain ⟨hnot, hnodup⟩ := List.nodup_cons.mp h.nodup
    have htail : Records table :=
      ⟨hnodup, fun r hr => h.ne_nil r (List.mem_cons_of_mem _ hr)⟩
    by_cases hkey : record.1 = callee
    · rw [List.eraseP_cons_of_pos (by simpa using hkey),
        List.filter_cons_of_neg (by simpa using hkey)]
      refine (List.filter_eq_self.mpr ?_).symm
      intro r hr
      refine decide_eq_true ?_
      rintro rfl
      exact hnot (hkey ▸ List.mem_map_of_mem hr)
    · rw [List.eraseP_cons_of_neg (by simpa using hkey),
        List.filter_cons_of_pos (by simpa using hkey), ih htail]

theorem Records.filter (h : Records table) (p : Record → Bool) : Records (table.filter p) where
  nodup := h.nodup.sublist (List.filter_sublist.map Prod.fst)
  ne_nil := fun record hrecord => h.ne_nil record (List.mem_filter.mp hrecord).1

theorem callersIn_filter (hm : m ≠ callee) :
    callersIn (table.filter fun record => record.1 ≠ callee) m = callersIn table m := by
  unfold callersIn
  induction table with
  | nil => rfl
  | cons record table ih =>
    by_cases hkey : record.1 = callee
    · rw [List.filter_cons_of_neg (by simpa using hkey), ih, findCalleeRecord_cons,
        if_neg (fun heq => hm (heq.symm.trans hkey))]
    · rw [List.filter_cons_of_pos (by simpa using hkey), findCalleeRecord_cons,
        findCalleeRecord_cons]
      by_cases hrecord : record.1 = m
      · rw [if_pos hrecord, if_pos hrecord]
      · rw [if_neg hrecord, if_neg hrecord, ih]

theorem Records.filter_of_callersIn (h : Records table) (hnone : callersIn table callee = []) :
    table.filter (fun record => record.1 ≠ callee) = table := by
  refine List.filter_eq_self.mpr ?_
  intro record hrecord
  refine decide_eq_true ?_
  rintro rfl
  unfold callersIn at hnone
  cases hfind : findCalleeRecord record.1 table with
  | none => exact findCalleeRecord_eq_none.mp hfind (List.mem_map_of_mem hrecord)
  | some head =>
    rw [hfind] at hnone
    exact h.ne_nil _ (mem_of_findCalleeRecord hfind) hnone

/-! ## Unlinking -/

namespace State

/-- The root method of the suspended compilation has no compiled code. -/
def RootUncompiled (st : State) : Prop :=
  ∀ root inlined, st.compiling = some (root, inlined) → st.compiledCode root = none

/-- **Run lemma** for the second loop: the callers lose their compiled code, and a suspended
compilation of one of them is given up. -/
theorem foldl_unlinkCaller (currentCompiling : Option HeldMethod) (callers : List HeldMethod)
    (st : State) (h : ∀ root, currentCompiling = some root → st.compiledCode root = none) :
    callers.foldl (unlinkCaller currentCompiling) st = { st with
        compiledCode := fun m => if m ∈ callers then none else st.compiledCode m
        compiling := if ∃ caller ∈ callers, currentCompiling = some caller then none
          else st.compiling } := by
  induction callers generalizing st with
  | nil => simp
  | cons caller callers ih =>
    rw [List.foldl_cons]
    by_cases hcode : (st.compiledCode caller).isSome
    · have hne : currentCompiling ≠ some caller := by
        intro heq
        rw [h caller heq] at hcode
        cases hcode
      rw [unlinkCaller, if_pos hcode, ih]
      · congr 1
        · funext m
          by_cases hm : m = caller
          · simp [hm]
          · simp [hm]
        · simp [hne]
      · intro root hroot
        by_cases heq : root = caller
        · rw [heq]
          exact update_self ..
        · exact (update_of_ne heq ..).trans (h root hroot)
    · have hnone : st.compiledCode caller = none := Option.not_isSome_iff_eq_none.mp hcode
      have hcodes : ∀ m, (if m ∈ callers then none else st.compiledCode m) =
          if m ∈ caller :: callers then none else st.compiledCode m := by
        intro m
        by_cases hm : m = caller
        · simp [hm, hnone]
        · simp [hm]
      by_cases hcurrent : currentCompiling = some caller
      · rw [unlinkCaller, if_neg hcode, if_pos hcurrent, ih { st with compiling := none } h]
        simp [hcurrent, hcodes]
      · rw [unlinkCaller, if_neg hcode, if_neg hcurrent, ih _ h]
        simp [hcurrent, hcodes]

/-- What `unlink_direct_callers` leaves. -/
structure Unlinked (st : State) (callee : HeldMethod) (st' : State) : Prop where
  loaded : st'.loaded = st.loaded
  bitmaps : st'.bitmaps = st.bitmaps
  compilations : st'.compilations = st.compilations
  directCallers : st'.directCallers = st.directCallers.filter fun record => record.1 ≠ callee
  compiledCode : ∀ m, st'.compiledCode m =
    if m ∈ callersIn st.directCallers callee then none else st.compiledCode m
  compiling : ∀ root inlined, st'.compiling = some (root, inlined) →
    st.compiling = some (root, inlined) ∧ root ∉ callersIn st.directCallers callee
  frames : ∀ frame ∈ st'.frames, ∀ id, frame.compiledMethod = some id → frame ∈ st.frames ∧
    ∀ compiled, st'.compiledCode frame.method = none →
      st.compiledCode frame.method = some compiled → compiled.id ≠ id

/-- **Spec lemma** for `unlink_direct_callers`. -/
theorem unlinkDirectCallers_spec (st : State) (callee : HeldMethod)
    (hrecords : Records st.directCallers) (hroot : st.RootUncompiled) :
    Unlinked st callee (st.unlinkDirectCallers callee) := by
  have hcallers : st.directCallersOf callee = callersIn st.directCallers callee := rfl
  unfold unlinkDirectCallers
  by_cases hnil : st.directCallersOf callee = []
  · simp only [if_pos hnil]
    rw [hcallers] at hnil
    refine ⟨rfl, rfl, rfl, (hrecords.filter_of_callersIn hnil).symm, ?_, ?_, ?_⟩
    · intro m
      rw [hnil]
      exact (if_neg List.not_mem_nil).symm
    · intro root inlined heq
      rw [hnil]
      exact ⟨heq, List.not_mem_nil⟩
    · intro frame hframe id _
      refine ⟨hframe, fun compiled hnone hsome => ?_⟩
      rw [hnone] at hsome
      cases hsome
  · simp only [if_neg hnil]
    rw [foldl_unlinkCaller]
    · refine ⟨rfl, rfl, rfl, hrecords.eraseP_eq_filter, fun m => rfl, ?_, ?_⟩
      · intro root inlined heq
        simp only [deoptimizeFrames] at heq
        split at heq
        · cases heq
        · rename_i hnone
          refine ⟨heq, fun hmem => hnone ⟨root, hmem, ?_⟩⟩
          rw [heq]
          rfl
      · intro frame hframe id hid
        simp only [deoptimizeFrames, List.mem_map] at hframe
        obtain ⟨frame₀, hmem, rfl⟩ := hframe
        split at hid
        · cases hid
        · rename_i hruns
          rw [if_neg hruns]
          refine ⟨hmem, fun compiled hnone hsome heq => hruns ?_⟩
          simp only [deoptimizeFrames] at hnone
          rw [hsome] at hnone
          split at hnone
          · rename_i hcaller
            refine List.any_eq_true.mpr ⟨frame₀.method, hcaller, ?_⟩
            rw [hsome, hid, ← heq]
            exact decide_eq_true rfl
          · cases hnone
    · intro root hcompiling
      obtain ⟨⟨root', inlined⟩, heq, rfl⟩ := Option.map_eq_some_iff.mp hcompiling
      exact hroot root' inlined heq

end State

/-! ## Compiled code -/

theorem isMethodOverridden_set (holder c : InstanceClass) (i j : ℕ) :
    (st.setIsMethodOverridden holder i).isMethodOverridden c j =
      (decide (c = holder ∧ j = i) || st.isMethodOverridden c j) := by
  unfold State.isMethodOverridden State.setIsMethodOverridden
  by_cases hc : c = holder
  · simp only [hc, update_self, vtableBitmapBit_set, true_and]
  · simp only [update_of_ne hc, hc, false_and, decide_false, Bool.false_or]

/-- What has been inlined is not overridden, and the table has the caller. -/
def Safe (useReflection : Bool) (st : State) (caller : HeldMethod)
    (inlined : List (HeldMethod × ℕ)) : Prop :=
  ∀ p ∈ inlined, caller ∈ callersIn st.directCallers p.1 ∧
    st.isMethodOverridden p.1.holder p.2 = false ∧
    HasInSlot useReflection p.1.holder p.2 p.1 ∧ ⟨p.1.holder, false⟩ ∈ st.loaded

/-- The invariant of the compiled code. -/
structure Codes (useReflection : Bool) (st : State) : Prop where
  records : Records st.directCallers
  compiled : ∀ m code, st.compiledCode m = some code → Safe useReflection st m code.inlined
  compiling : ∀ root inlined, st.compiling = some (root, inlined) →
    Safe useReflection st root inlined
  rootUncompiled : st.RootUncompiled
  frames : ∀ frame ∈ st.frames, ∀ id, frame.compiledMethod = some id →
    ∃ compiled, st.compiledCode frame.method = some compiled ∧ compiled.id = id

variable {inlined : List (HeldMethod × ℕ)}

theorem Safe.mono {st' : State} (h : Safe useReflection st caller inlined)
    (hcallers : ∀ m, callersIn st.directCallers m ⊆ callersIn st'.directCallers m)
    (hbits : ∀ c, ⟨c, false⟩ ∈ st.loaded → st'.bitmaps c = st.bitmaps c)
    (hloaded : st.loaded ⊆ st'.loaded) : Safe useReflection st' caller inlined := by
  intro p hp
  obtain ⟨hcaller, hbit, hslot, hmem⟩ := h p hp
  refine ⟨hcallers p.1 hcaller, ?_, hslot, hloaded hmem⟩
  rw [State.isMethodOverridden, hbits _ hmem]
  exact hbit

/-- What a method that is not a direct caller of `m` has inlined is not affected by the mark. -/
theorem Safe.mark {st' : State}
    (h : Safe useReflection st caller inlined) (hunlinked : State.Unlinked st m st')
    (hcaller : caller ∉ callersIn st.directCallers m)
    (hslot : HasInSlot useReflection m.holder i m) :
    Safe useReflection (st'.setIsMethodOverridden m.holder i) caller inlined := by
  intro p hp
  obtain ⟨hmem, hbit, hslot', hloaded⟩ := h p hp
  have hne : p.1 ≠ m := by
    intro heq
    rw [heq] at hmem
    exact hcaller hmem
  refine ⟨?_, ?_, hslot', ?_⟩
  · show caller ∈ callersIn st'.directCallers p.1
    rw [hunlinked.directCallers, callersIn_filter hne]
    exact hmem
  · rw [isMethodOverridden_set, Bool.or_eq_false_iff, decide_eq_false_iff_not]
    refine ⟨?_, ?_⟩
    · rintro ⟨hholder, hi⟩
      rw [hholder, hi] at hslot'
      exact hne (hslot'.unique hslot)
    · rw [State.isMethodOverridden, hunlinked.bitmaps]
      exact hbit
  · show _ ∈ st'.loaded
    rw [hunlinked.loaded]
    exact hloaded

/-- **Step lemma**: a method is marked after its direct callers have been unlinked. -/
theorem Codes.mark (h : Codes useReflection st) (hslot : HasInSlot useReflection m.holder i m) :
    Codes useReflection ((st.unlinkDirectCallers m).setIsMethodOverridden m.holder i) := by
  have hunlinked := st.unlinkDirectCallers_spec m h.records h.rootUncompiled
  have hkept : ∀ m' code, (st.unlinkDirectCallers m).compiledCode m' = some code →
      st.compiledCode m' = some code ∧ m' ∉ callersIn st.directCallers m := by
    intro m' code hcode
    rw [hunlinked.compiledCode] at hcode
    split at hcode
    · cases hcode
    · exact ⟨hcode, ‹_›⟩
  refine ⟨?_, ?_, ?_, ?_, ?_⟩
  · show Records (st.unlinkDirectCallers m).directCallers
    rw [hunlinked.directCallers]
    exact h.records.filter _
  · intro m' code hcode
    obtain ⟨hold, hnot⟩ := hkept m' code hcode
    exact (h.compiled m' code hold).mark hunlinked hnot hslot
  · intro root inlined hcompiling
    obtain ⟨hold, hnot⟩ := hunlinked.compiling root inlined hcompiling
    exact (h.compiling root inlined hold).mark hunlinked hnot hslot
  · intro root inlined hcompiling
    obtain ⟨hold, hnot⟩ := hunlinked.compiling root inlined hcompiling
    show (st.unlinkDirectCallers m).compiledCode root = none
    rw [hunlinked.compiledCode, if_neg hnot]
    exact h.rootUncompiled root inlined hold
  · intro frame hframe id hid
    obtain ⟨hold, hgone⟩ := hunlinked.frames frame hframe id hid
    obtain ⟨compiled, hcompiled, heq⟩ := h.frames frame hold id hid
    refine ⟨compiled, ?_, heq⟩
    show (st.unlinkDirectCallers m).compiledCode frame.method = some compiled
    rw [hunlinked.compiledCode]
    split
    · rename_i hcaller
      refine absurd heq (hgone compiled ?_ hcompiled)
      rw [hunlinked.compiledCode, if_pos hcaller]
    · exact hcompiled

/-! ## The update of the bitmaps -/

/-- The class has overridden what its superclass has in the slot. -/
def NewlyOverridden (useReflection : Bool) (this super : InstanceClass) (i : ℕ) (m : HeldMethod) :
    Prop :=
  HasInSlot useReflection super i m ∧
    ∃ n, HasInSlot useReflection this i n ∧ m ≠ n ∧ n.holder = this

theorem updateVtableBitmap_cases (this super : InstanceClass) (st : State) (i : ℕ) :
    (∃ m, NewlyOverridden useReflection this super i m ∧
      updateVtableBitmap useReflection this super st i =
        (st.unlinkDirectCallers m).setIsMethodOverridden m.holder i) ∨
    (updateVtableBitmap useReflection this super st i = st ∧
      ∀ m, NewlyOverridden useReflection this super i m →
        st.isMethodOverridden m.holder i = true) := by
  unfold updateVtableBitmap
  cases hsuper : vtableMethodAt useReflection super i with
  | none =>
    refine .inr ⟨rfl, fun m hm => ?_⟩
    rw [vtableMethodAt_eq_some.mpr hm.1] at hsuper
    cases hsuper
  | some superMethod =>
    cases hthis : vtableMethodAt useReflection this i with
    | none =>
      refine .inr ⟨rfl, fun m hm => ?_⟩
      obtain ⟨-, n, hn, -⟩ := hm
      rw [vtableMethodAt_eq_some.mpr hn] at hthis
      cases hthis
    | some thisMethod =>
      have hsuper' := vtableMethodAt_eq_some.mp hsuper
      have hthis' := vtableMethodAt_eq_some.mp hthis
      have hnewly : ∀ m, NewlyOverridden useReflection this super i m →
          m = superMethod ∧ superMethod ≠ thisMethod ∧ thisMethod.holder = this := by
        rintro m ⟨hm, n, hn, hne, hholder⟩
        rw [hm.unique hsuper', hn.unique hthis'] at *
        exact ⟨rfl, hne, hholder⟩
      simp only
      split
      · rename_i heq
        exact .inr ⟨rfl, fun m hm => absurd heq (hnewly m hm).2.1⟩
      split
      · rename_i hholder
        exact .inr ⟨rfl, fun m hm => absurd (hnewly m hm).2.2 hholder⟩
      split
      · rename_i hmarked
        refine .inr ⟨rfl, fun m hm => ?_⟩
        rw [(hnewly m hm).1]
        exact hmarked
      · rename_i hne hholder _
        exact .inl ⟨superMethod, ⟨hsuper', thisMethod, hthis', hne, not_not.mp hholder⟩, rfl⟩

/-- **Run lemma** for the loop of `update_vtable_bitmaps`. -/
theorem marked_after (this super : InstanceClass) (h : Codes useReflection st) :
    ∀ k, ∃ st', (List.range k).foldl (updateVtableBitmap useReflection this super) st = st' ∧
      Codes useReflection st' ∧ st'.loaded = st.loaded ∧
      ∀ c j, st'.isMethodOverridden c j = true ↔ st.isMethodOverridden c j = true ∨
        (j < k ∧ ∃ m, NewlyOverridden useReflection this super j m ∧ m.holder = c) := by
  intro k
  induction k with
  | zero => exact ⟨st, rfl, h, rfl, fun c j => by simp⟩
  | succ k ih =>
    obtain ⟨st', hfold, hcodes, hloaded, hbits⟩ := ih
    rw [List.range_succ, List.foldl_append, hfold, List.foldl_cons, List.foldl_nil]
    obtain ⟨m, hm, heq⟩ | ⟨heq, hmarked⟩ :=
      @updateVtableBitmap_cases useReflection this super st' k
    · have hunlinked := st'.unlinkDirectCallers_spec m hcodes.records hcodes.rootUncompiled
      refine ⟨_, heq, hcodes.mark hm.1.of_holder.1, hunlinked.loaded.trans hloaded, fun c j => ?_⟩
      rw [isMethodOverridden_set, Bool.or_eq_true, decide_eq_true_iff, State.isMethodOverridden,
        hunlinked.bitmaps, ← State.isMethodOverridden, hbits]
      constructor
      · rintro (⟨rfl, rfl⟩ | hold | ⟨hj, hnew⟩)
        · exact .inr ⟨Nat.lt_succ_self _, m, hm, rfl⟩
        · exact .inl hold
        · exact .inr ⟨Nat.lt_succ_of_lt hj, hnew⟩
      · rintro (hold | ⟨hj, m', hm', rfl⟩)
        · exact .inr (.inl hold)
        · obtain hlt | rfl := Nat.lt_succ_iff_lt_or_eq.mp hj
          · exact .inr (.inr ⟨hlt, m', hm', rfl⟩)
          · rw [hm'.1.unique hm.1]
            exact .inl ⟨rfl, rfl⟩
    · refine ⟨st', heq, hcodes, hloaded, fun c j => ?_⟩
      rw [hbits]
      constructor
      · rintro (hold | ⟨hj, hnew⟩)
        · exact .inl hold
        · exact .inr ⟨Nat.lt_succ_of_lt hj, hnew⟩
      · rintro (hold | ⟨hj, m', hm', rfl⟩)
        · exact .inl hold
        · obtain hlt | rfl := Nat.lt_succ_iff_lt_or_eq.mp hj
          · exact .inr ⟨hlt, m', hm', rfl⟩
          · exact (hbits _ _).mp (hmarked m' hm')

theorem updateVtableBitmaps_eq (file : ClassFile) (supers : InstanceClass) (st : State) :
    updateVtableBitmaps useReflection ⟨file :: supers, false⟩ st =
      (List.range (vtableLength useReflection supers)).foldl
        (updateVtableBitmap useReflection (file :: supers) supers) st := by
  cases supers with
  | nil => rfl
  | cons super supers => rfl

/-! ## Runs -/

/-- The invariant of a task. -/
structure Tracked (useReflection : Bool) (st : State) : Prop where
  codes : Codes useReflection st
  supers : ∀ file supers isInterface, ⟨file :: supers, isInterface⟩ ∈ st.loaded →
    supers = [] ∨ ⟨supers, false⟩ ∈ st.loaded
  marked : ∀ c, ⟨c, false⟩ ∈ st.loaded → ∀ i m, HasInSlot useReflection c i m → m.holder = c →
    (st.isMethodOverridden c i = true ↔
      ∃ d n, ⟨d, false⟩ ∈ st.loaded ∧ c <:+ d ∧ HasInSlot useReflection d i n ∧ n ≠ m)

theorem Tracked.suffix_loaded (h : Tracked useReflection st) {s : InstanceClass} (hs : s ≠ []) :
    ∀ {c : InstanceClass} {isInterface : Bool}, ⟨c, isInterface⟩ ∈ st.loaded → s <:+ c →
      s = c ∨ ⟨s, false⟩ ∈ st.loaded := by
  intro c
  induction c with
  | nil => exact fun _ hsuffix => absurd (List.suffix_nil.mp hsuffix) hs
  | cons file supers ih =>
    intro isInterface hc hsuffix
    obtain heq | hsuffix := List.suffix_cons_iff.mp hsuffix
    · exact .inl heq
    · obtain rfl | hloaded := h.supers file supers isInterface hc
      · exact absurd (List.suffix_nil.mp hsuffix) hs
      · obtain rfl | hmem := ih hloaded hsuffix
        · exact .inr hloaded
        · exact .inr hmem

theorem tracked_init : Tracked useReflection State.init where
  codes := ⟨⟨List.nodup_nil, nofun⟩, nofun, nofun, nofun, nofun⟩
  supers := nofun
  marked := nofun

/-- The state in which the update after the loading of a class begins. -/
theorem Tracked.codes_loaded (h : Tracked useReflection st) (hload : CanLoad st file supers)
    (isInterface : Bool) : Codes useReflection { st with
      loaded := st.loaded ++ [⟨file :: supers, isInterface⟩]
      bitmaps := update st.bitmaps (file :: supers) fun _ => 0 } := by
  have hsafe : ∀ {m inlined}, Safe useReflection st m inlined → Safe useReflection { st with
      loaded := st.loaded ++ [⟨file :: supers, isInterface⟩]
      bitmaps := update st.bitmaps (file :: supers) fun _ => 0 } m inlined := by
    intro m inlined hold
    refine hold.mono (fun m => List.Subset.refl _) ?_ (List.subset_append_left _ _)
    intro c hc
    exact update_of_ne (hload.2 _ hc) ..
  exact ⟨h.codes.records, fun m code hcode => hsafe (h.codes.compiled m code hcode),
    fun root inlined heq => hsafe (h.codes.compiling root inlined heq), h.codes.rootUncompiled,
    h.codes.frames⟩

theorem Tracked.supers_loaded (h : Tracked useReflection st) (hload : CanLoad st file supers)
    (isInterface : Bool) : ∀ file' supers' isInterface',
    ⟨file' :: supers', isInterface'⟩ ∈ st.loaded ++ [⟨file :: supers, isInterface⟩] →
      supers' = [] ∨ ⟨supers', false⟩ ∈ st.loaded ++ [⟨file :: supers, isInterface⟩] := by
  intro file' supers' isInterface' hmem
  obtain hold | hnew := List.mem_append.mp hmem
  · exact (h.supers _ _ _ hold).imp_right (List.mem_append_left _)
  · obtain ⟨⟨rfl, rfl⟩, rfl⟩ := by simpa using hnew
    exact hload.1.imp_right (List.mem_append_left _)

/-- **Step lemma** for an interface. -/
theorem Tracked.loadInterface (h : Tracked useReflection st) (hload : CanLoad st file supers) :
    Tracked useReflection (loadAndUpdate useReflection file supers true st) := by
  have hmem : ∀ c, (⟨c, false⟩ : ListedClass) ∈ st.loaded ++ [⟨file :: supers, true⟩] ↔
      ⟨c, false⟩ ∈ st.loaded := by simp
  refine ⟨h.codes_loaded hload true, h.supers_loaded hload true, ?_⟩
  intro c hc i m hslot hholder
  replace hc := (hmem c).mp hc
  have hbit : (loadAndUpdate useReflection file supers true st).isMethodOverridden c i =
      st.isMethodOverridden c i :=
    congrArg (vtableBitmapBit · i) (update_of_ne (hload.2 _ hc) ..)
  rw [hbit, h.marked c hc i m hslot hholder]
  exact exists_congr fun d => exists_congr fun n => and_congr_left' (hmem d).symm

/-- **Step lemma** for a class. -/
theorem Tracked.loadSubclass (h : Tracked useReflection st) (hload : CanLoad st file supers) :
    Tracked useReflection (loadAndUpdate useReflection file supers false st) := by
  obtain ⟨st', hfold, hcodes, hloaded, hbits⟩ := marked_after (file :: supers) supers
    (h.codes_loaded hload false) (vtableLength useReflection supers)
  have hst' : loadAndUpdate useReflection file supers false st = st' := by
    rw [← hfold, loadAndUpdate, updateVtableBitmaps_eq]
  rw [hst']
  have hmem : ∀ c, (⟨c, false⟩ : ListedClass) ∈ st'.loaded ↔
      ⟨c, false⟩ ∈ st.loaded ∨ c = file :: supers := by
    rw [hloaded]
    simp
  refine ⟨hcodes, ?_, ?_⟩
  · rw [hloaded]
    exact h.supers_loaded hload false
  intro c hc i m hslot hholder
  obtain ⟨-, -, hne⟩ := hslot.of_holder
  rw [hholder] at hne
  rw [hbits]
  obtain hold | rfl := (hmem c).mp hc
  · -- a class loaded before: its marks are kept, and the new class may add one
    have hbit : vtableBitmapBit (update st.bitmaps (file :: supers) (fun _ => 0) c) i =
        st.isMethodOverridden c i :=
      congrArg (vtableBitmapBit · i) (update_of_ne (hload.2 _ hold) ..)
    show vtableBitmapBit (update st.bitmaps (file :: supers) (fun _ => 0) c) i = true ∨
      _ ↔ _
    rw [hbit, h.marked c hold i m hslot hholder]
    constructor
    · rintro (⟨d, n, hd, hsuffix, hn, hnm⟩ | ⟨-, m', ⟨hm', n, hn, hne', -⟩, rfl⟩)
      · exact ⟨d, n, (hmem d).mpr (.inl hd), hsuffix, hn, hnm⟩
      · obtain ⟨hslot', hsuffix, -⟩ := hm'.of_holder
        refine ⟨file :: supers, n, (hmem _).mpr (.inr rfl), hsuffix.trans (List.suffix_cons _ _),
          hn, ?_⟩
        rw [hslot.unique hslot']
        exact hne'.symm
    · rintro ⟨d, n, hd, hsuffix, hn, hnm⟩
      obtain hd | rfl := (hmem d).mp hd
      · exact .inl ⟨d, n, hd, hsuffix, hn, hnm⟩
      obtain heq | hsuffix := List.suffix_cons_iff.mp hsuffix
      · exact absurd heq (hload.2 _ hold)
      obtain rfl | hsupers := hload.1
      · exact absurd (List.suffix_nil.mp hsuffix) hne
      obtain ⟨o, ho, -⟩ := hslot.suffix hsuffix
      by_cases hom : o = m
      · -- the new class is the first one that overrides the method
        subst hom
        obtain rfl | hown := hn.eq_or_holder ho
        · exact absurd rfl hnm
        · exact .inr ⟨ho.lt_vtableLength, o, ⟨ho, n, hn, hnm.symm, hown⟩, hholder⟩
      · exact .inl ⟨supers, o, hsupers, hsuffix, ho, hom⟩
  · -- the new class: it has no subclass yet
    refine iff_of_false ?_ ?_
    · rintro (hbit | ⟨-, m', ⟨hm', -⟩, heq⟩)
      · have hzero : vtableBitmapBit (update st.bitmaps (file :: supers) (fun _ => 0)
            (file :: supers)) i = false := by
          rw [update_self, vtableBitmapBit,
            signExtend_and_shiftLeft _ (Nat.mod_lt _ (by omega))]
          exact BitVec.getLsbD_zero
        exact absurd (hzero.symm.trans hbit) Bool.false_ne_true
      · obtain ⟨-, hsuffix, -⟩ := hm'.of_holder
        have := hsuffix.length_le
        rw [heq, List.length_cons] at this
        omega
    · rintro ⟨d, n, hd, hsuffix, hn, hnm⟩
      obtain hd | rfl := (hmem d).mp hd
      · obtain rfl | hloaded' := h.suffix_loaded hne hd hsuffix
        · exact hload.2 _ hd rfl
        · exact hload.2 _ hloaded' rfl
      · exact hnm (hn.unique hslot)

/-- **Step lemma** for a call in a compilation. -/
theorem Tracked.fastInvokeVirtual (h : Tracked useReflection st) {klass : InstanceClass}
    (hklass : ⟨klass, false⟩ ∈ st.loaded) (vtableIndex memory : ℕ) : Tracked useReflection
      (Dispatch.fastInvokeVirtual useReflection klass vtableIndex memory st) := by
  unfold Dispatch.fastInvokeVirtual
  split
  · rename_i root inlined callee hcompiling hcallee
    split
    · exact h
    rename_i hbit
    split
    · exact ⟨⟨h.codes.records, h.codes.compiled, nofun, nofun, h.codes.frames⟩, h.supers, h.marked⟩
    · rename_i table hadd
      obtain ⟨hrecords, hcaller, hsubset⟩ := addDirectCaller_spec h.codes.records hadd
      have hsafe : ∀ {m inlined}, Safe useReflection st m inlined → Safe useReflection { st with
          directCallers := table
          compiling := some (root, (callee, vtableIndex) :: inlined) } m inlined := fun hold =>
        hold.mono hsubset (fun _ _ => rfl) (List.Subset.refl _)
      obtain ⟨hslot, hsuffix, hne⟩ := (vtableMethodAt_eq_some.mp hcallee).of_holder
      have hholder : ⟨callee.holder, false⟩ ∈ st.loaded := by
        obtain heq | hmem := h.suffix_loaded hne hklass hsuffix
        · rw [heq]
          exact hklass
        · exact hmem
      refine ⟨⟨hrecords, ?_, ?_, ?_, h.codes.frames⟩, h.supers, h.marked⟩
      · intro m code hcode p hp
        exact hsafe (h.codes.compiled m code hcode) p hp
      · intro root' inlined' heq p hp
        cases heq
        obtain rfl | hp := List.mem_cons.mp hp
        · exact ⟨hcaller, Bool.eq_false_iff.mpr hbit, hslot, hholder⟩
        · exact hsafe (h.codes.compiling root inlined hcompiling) p hp
      · intro root' inlined' heq
        cases heq
        exact h.codes.rootUncompiled root inlined hcompiling
  · exact h

/-- **Step lemma** for the end of a compilation. -/
theorem Tracked.installCompiledCode (h : Tracked useReflection st) :
    Tracked useReflection (Dispatch.installCompiledCode st) := by
  unfold Dispatch.installCompiledCode
  split
  · exact h
  · rename_i root inlined hcompiling
    refine ⟨⟨h.codes.records, ?_, nofun, nofun, ?_⟩, h.supers, h.marked⟩
    · intro m code hcode
      by_cases hm : m = root
      · subst hm
        simp only [update_self, Option.some.injEq] at hcode
        subst hcode
        exact h.codes.compiling m inlined hcompiling
      · simp only [update_of_ne hm] at hcode
        exact h.codes.compiled m code hcode
    · intro frame hframe id hid
      obtain ⟨compiled, hcompiled, heq⟩ := h.codes.frames frame hframe id hid
      refine ⟨compiled, ?_, heq⟩
      have hne : frame.method ≠ root := by
        intro hroot
        rw [hroot, h.codes.rootUncompiled root inlined hcompiling] at hcompiled
        cases hcompiled
      exact (update_of_ne hne ..).trans hcompiled

/-- **Step lemma**. -/
theorem Tracked.step (h : Tracked useReflection st) (event : Event) :
    Tracked useReflection (Dispatch.step useReflection st event) := by
  cases event with
  | load file supers isInterface =>
    simp only [Dispatch.step]
    split
    · cases isInterface with
      | true => exact h.loadInterface ‹_›
      | false => exact h.loadSubclass ‹_›
    · exact h
  | compile method =>
    simp only [Dispatch.step]
    split
    · rename_i hnone
      refine ⟨⟨h.codes.records, h.codes.compiled, ?_, ?_, h.codes.frames⟩, h.supers, h.marked⟩
      · intro root inlined heq p hp
        cases heq
        cases hp
      · intro root inlined heq
        cases heq
        exact Option.isNone_iff_eq_none.mp hnone
    · exact h
  | invokeVirtual klass vtableIndex memory =>
    simp only [Dispatch.step]
    split
    · exact h.fastInvokeVirtual ‹_› vtableIndex memory
    · exact h
  | install => exact h.installCompiledCode
  | giveUp =>
    exact ⟨⟨h.codes.records, h.codes.compiled, nofun, nofun, h.codes.frames⟩, h.supers, h.marked⟩
  | enter method =>
    refine ⟨⟨h.codes.records, h.codes.compiled, h.codes.compiling, h.codes.rootUncompiled, ?_⟩,
      h.supers, h.marked⟩
    intro frame hframe id hid
    obtain rfl | hframe := List.mem_cons.mp hframe
    · obtain ⟨compiled, hcompiled, heq⟩ := Option.map_eq_some_iff.mp hid
      exact ⟨compiled, hcompiled, heq⟩
    · exact h.codes.frames frame hframe id hid
  | leave =>
    refine ⟨⟨h.codes.records, h.codes.compiled, h.codes.compiling, h.codes.rootUncompiled, ?_⟩,
      h.supers, h.marked⟩
    exact fun frame hframe => h.codes.frames frame (List.mem_of_mem_tail hframe)

/-- **Run lemma**. -/
theorem tracked_runEvents (useReflection : Bool) (events : List Event) :
    Tracked useReflection (runEvents useReflection events) := by
  have hrun : ∀ st, Tracked useReflection st →
      Tracked useReflection (events.foldl (step useReflection) st) := by
    induction events with
    | nil => exact fun _ h => h
    | cons event events ih => exact fun st h => ih _ (h.step event)
  exact hrun _ tracked_init

/-- What the tracking of overridden methods is for. -/
structure OverridesTracked (useReflection : Bool) (st : State) : Prop where
  /-- A method is marked exactly if a subclass has a different one in its slot. -/
  marked : ∀ c, ⟨c, false⟩ ∈ st.loaded → ∀ i m, HasInSlot useReflection c i m → m.holder = c →
    (st.isMethodOverridden c i = true ↔
      ∃ d n, ⟨d, false⟩ ∈ st.loaded ∧ c <:+ d ∧ HasInSlot useReflection d i n ∧ n ≠ m)
  /-- What a compiled method has inlined is not marked, and is what every subclass has. -/
  inlined : ∀ caller compiled, st.compiledCode caller = some compiled → ∀ p ∈ compiled.inlined,
    st.isMethodOverridden p.1.holder p.2 = false ∧
      ∀ d n, ⟨d, false⟩ ∈ st.loaded → p.1.holder <:+ d → HasInSlot useReflection d p.2 n → n = p.1
  /-- A frame that is not interpreted runs the compiled method that its method has. -/
  frames : ∀ frame ∈ st.frames, ∀ id, frame.compiledMethod = some id →
    ∃ compiled, st.compiledCode frame.method = some compiled ∧ compiled.id = id
  /-- Unlinking removes the record of the method, and no other. -/
  unlinked : ∀ callee, (st.unlinkDirectCallers callee).directCallers =
    st.directCallers.filter fun record => record.1 ≠ callee

/-- **Main theorem**: the overridden methods are tracked over every sequence of class loads,
compilations and calls. -/
theorem overrides_tracked (useReflection : Bool) (events : List Event) :
    OverridesTracked useReflection (runEvents useReflection events) := by
  have h := tracked_runEvents useReflection events
  refine ⟨h.marked, ?_, h.codes.frames, ?_⟩
  · intro caller compiled hcompiled p hp
    obtain ⟨-, hbit, hslot, hloaded⟩ := h.codes.compiled caller compiled hcompiled p hp
    refine ⟨hbit, fun d n hd hsuffix hn => ?_⟩
    by_contra hne
    rw [(h.marked _ hloaded _ _ hslot rfl).mpr ⟨d, n, hd, hsuffix, hn, hne⟩] at hbit
    cases hbit
  · intro callee
    exact (State.unlinkDirectCallers_spec _ callee h.codes.records
      h.codes.rootUncompiled).directCallers

end CldcVm.Dispatch
