import CldcVm.Merge.Invariant

/-!
# The steps of the reference merge

The bodies of the three loops of `conform_to_reference_impl` keep the invariant. The code
for an immediate that goes to memory takes a register from the allocator.

Results: `flushConflict_spec`, `storeFlushed_spec`, `Conforming.step`: a step of the first,
of the second and of the third loop.
-/

namespace CldcVm.Merge

open Function (update update_apply update_eq_self update_of_ne update_self)

variable {c : Context} {m₀ : Machine} {v : ℕ → Word} {frame₀ : List RawLocation}
variable {g g' : Gen} {K U D : ℕ → Prop} {i reg : ℕ}

/-- The registers where the allocator goes on are its own. -/
def Pointers (c : Context) (g : Gen) : Prop := g.nextAllocate ∈ c.order ∧ g.nextSpill ∈ c.order

/-! ## Literals -/

/-- No immediate has to be stored. -/
def NoStore (c : Context) (frame : List RawLocation) : Prop :=
  ∀ j, (locationAt frame j).place = .immediate → (locationAt frame j).status = .changed →
    (locationAt c.other j).status = .changed

/-- No immediate goes to a register. -/
def AllFlushed (c : Context) (frame : List RawLocation) : Prop :=
  ∀ j, (locationAt frame j).place = .immediate → (locationAt frame j).status ≠ .flushed →
    (locationAt c.other j).status = .flushed

/-- The literals are in registers of the target only where a location has been conformed. -/
structure SafeLiterals (c : Context) (m₀ : Machine) (D : ℕ → Prop) (g : Gen) : Prop where
  hold : LiteralsHold m₀ g
  safe : ∀ r, g.literals r ≠ 0 → ∀ j, usesRegister c.other j r = true → D j
  spare : Spare c g.frame g.nextSpill ∨ NoStore c g.frame

/-- What the store of a word of an immediate does. -/
structure StoresLiteral (c : Context) (m₀ : Machine) (frame₀ : List RawLocation) (g : Gen)
    (s : ℕ) (imm32 : Word) (g' : Gen) : Prop where
  hold : LiteralsHold m₀ g'
  pointers : Pointers c g'
  stored : (g'.machine m₀).mem s = imm32
  status : ∀ j, (locationAt frame₀ j).place ≠ .register →
    (locationAt g'.frame j).status = (locationAt g.frame j).status
  mem : ∀ j, (locationAt frame₀ j).type ≠ .illegal → (locationAt g.frame j).status ≠ .changed →
    ∀ s', s' ≠ s → IsSlotOf frame₀ j s' → (g'.machine m₀).mem s' = (g.machine m₀).mem s'
  safe : Spare c g.frame g.nextSpill → Spare c g'.frame g'.nextSpill ∧
    ∀ r, g'.literals r ≠ 0 → g.literals r ≠ 0 ∨ isMappingLocation c.other r = false

/-- **Step lemma**: the store of a word of an immediate keeps the invariant, if its register is
not one of a location that has been conformed. -/
theorem storeLiteral_spec (hprepared : Prepared c frame₀)
    (h : Inv c m₀ v frame₀ K U D g.frame (g.machine m₀)) (hpointers : Pointers c g)
    (hhold : LiteralsHold m₀ g) {s : ℕ} (imm32 : Word)
    (hs : ∀ j, U j ∨ D j → (locationAt frame₀ j).type ≠ .illegal → ¬IsSlotOf frame₀ j s)
    (htemp : Spare c g.frame g.nextSpill ∨ ∀ j, ¬D j) :
    Inv c m₀ v frame₀ K U D (g.storeLiteral c s imm32).frame
        ((g.storeLiteral c s imm32).machine m₀) ∧
      StoresLiteral c m₀ frame₀ g s imm32 (g.storeLiteral c s imm32) := by
  have hlayout : Layout g.frame := h.same.layout hprepared.wellFormed.toLayout
  have hliteral : Obtains c m₀ g imm32 (g.getLiteral c imm32).1 (g.getLiteral c imm32).2 :=
    getLiteral_spec hlayout hpointers.1 hpointers.2 hhold imm32
  unfold Gen.storeLiteral
  generalize g.getLiteral c imm32 = found at hliteral ⊢
  obtain ⟨r, g₂⟩ := found
  obtain ⟨hvalue, hhold₂, heffect⟩ := hliteral
  -- the code that follows the literal is one store
  have hstore : (g₂.emit (.str r s)).machine m₀ = (g₂.machine m₀).setMem s imm32 := by
    rw [Gen.machine_emit]
    show (g₂.machine m₀).setMem s _ = _
    rw [hvalue]
  have hmem : ∀ s' ≠ s, ((g₂.emit (.str r s)).machine m₀).mem s' = (g₂.machine m₀).mem s' := by
    intro s' hs'
    rw [hstore]
    exact update_of_ne hs' _ _
  have hstored : ((g₂.emit (.str r s)).machine m₀).mem s = imm32 := by
    rw [hstore]
    exact update_self _ _ _
  have hhold' : LiteralsHold m₀ (g₂.emit (.str r s)) := by
    intro r' hr'
    rw [hstore]
    exact hhold₂ r' hr'
  rcases heffect with rfl | ⟨g₁, hallocates, hframe, halloc, hspill, hliterals, hmachine⟩
  · refine ⟨?_, hhold', hpointers, hstored, fun _ _ => rfl, fun _ _ _ s' hs' _ => hmem s' hs',
      fun hspare => ⟨hspare, fun r' hr' => .inl hr'⟩⟩
    rw [hstore]
    exact h.setMem hprepared hs
  · obtain ⟨g₃, nextAllocate, nextSpill, hg₁, hflush⟩ := hallocates.flushes
    subst hg₁
    have hlegal : ∀ j, usesRegister g.frame j r = true →
        (locationAt frame₀ j).type ≠ .illegal ∧ (locationAt frame₀ j).place = .register := by
      intro j hj
      have htype := hlayout.type_ne_of_usesRegister hj
      rw [(h.same.slot j).type] at htype
      exact ⟨htype, (h.same.slot j).place ▸ (usesRegister_iff.mp hj).2.1⟩
    have hflushed : Inv c m₀ v frame₀ K U D g₃.frame (g₃.machine m₀) :=
      h.flushes hprepared hflush hlegal
    have hother : (∃ j, D j) → isMappingLocation c.other r = false := by
      rintro ⟨j, hj⟩
      exact (hallocates.spare (htemp.resolve_right fun hD => hD j hj)).1
    have hunused : ∀ j, D j → usesRegister c.other j r = false := fun j hj =>
      (isMappingLocation_eq_false hprepared.other.toLayout).mp (hother ⟨j, hj⟩) j
    refine ⟨?_, hhold', ?_, hstored, fun j hj => ?_, fun j htype hstatus s' hs' hslot => ?_,
      fun hspare => ?_⟩
    · rw [hstore, Gen.emit_frame, hframe, hmachine]
      exact (hflushed.setReg hallocates.mem_order (fun j _ _ _ => hflush.not_usesRegister j)
        hunused).setMem hprepared hs
    · exact ⟨halloc ▸ hallocates.nextAllocate, hspill ▸ hallocates.nextSpill⟩
    · rw [Gen.emit_frame, hframe]
      exact hflush.kept j fun huses => hj (hlegal j huses).2
    · rw [hmem s' hs', hmachine]
      refine hflush.mem s' fun k hk hchanged hslot' => ?_
      obtain rfl := hprepared.wellFormed.slots_disjoint htype (hlegal k hk).1 hslot
        (h.same.isSlotOf_iff.mp hslot')
      exact hstatus hchanged
    · obtain ⟨hfree, hspare'⟩ := hallocates.spare hspare
      refine ⟨?_, fun r' hr' => ?_⟩
      · show Spare c g₂.frame g₂.nextSpill
        rw [hframe, hspill]
        exact hspare'
      · rw [Gen.emit_literals, hliterals, update_apply] at hr'
        split_ifs at hr' with heq
        · exact .inr (heq ▸ hfree)
        · rw [hallocates.literals, update_of_ne heq] at hr'
          exact .inl hr'

variable {frame : List RawLocation}

theorem Spare.mono {frame' : List RawLocation} {nextSpill : ℕ} (h : Spare c frame nextSpill)
    (hlayout : Layout frame) (hlayout' : Layout frame')
    (huses : ∀ j r, usesRegister frame' j r = true → usesRegister frame j r = true) :
    Spare c frame' nextSpill := by
  refine h.imp_left fun ⟨r, hr, hframe, hother⟩ => ⟨r, hr, ?_, hother⟩
  rw [isMappingLocation_eq_false hlayout] at hframe
  rw [isMappingLocation_eq_false hlayout']
  intro j
  by_contra hne
  rw [Bool.not_eq_false] at hne
  exact Bool.false_ne_true ((hframe j).symm.trans (huses j r hne))

theorem usesRegister_setStatus {status : Status} (j r : ℕ)
    (hlive : status ≠ .flushed → (locationAt frame i).status ≠ .flushed)
    (huses : usesRegister (setStatus frame i status) j r = true) :
    usesRegister frame j r = true := by
  have hsame := sameSlots_setStatus frame i status
  obtain ⟨hstatus, hplace, hregister⟩ := usesRegister_iff.mp huses
  refine usesRegister_iff.mpr ⟨?_, (hsame.slot j).place ▸ hplace, ?_⟩
  · rw [locationAt_setStatus] at hstatus
    split_ifs at hstatus with hij
    · exact hij.1 ▸ hlive hstatus
    · exact hstatus
  · rw [hsame.getRegister_eq, hsame.getRegister_eq, hsame.isTwoWordAt_eq] at hregister
    exact hregister

/-! ## Writing changes -/

/-- What the store of an immediate does. -/
structure StoresImmediate (c : Context) (m₀ : Machine) (v : ℕ → Word)
    (frame₀ : List RawLocation) (i : ℕ) (g g' : Gen) : Prop where
  hold : LiteralsHold m₀ g'
  pointers : Pointers c g'
  stored : InMemory frame₀ v (g'.machine m₀) i
  status : ∀ j, (locationAt frame₀ j).place ≠ .register →
    (locationAt g'.frame j).status = (locationAt g.frame j).status
  safe : Spare c g.frame g.nextSpill → Spare c g'.frame g'.nextSpill ∧
    ∀ r, g'.literals r ≠ 0 → g.literals r ≠ 0 ∨ isMappingLocation c.other r = false

theorem storeImmediate_spec (hprepared : Prepared c frame₀)
    (h : Inv c m₀ v frame₀ K U D g.frame (g.machine m₀)) (hpointers : Pointers c g)
    (hhold : LiteralsHold m₀ g) (htype : (locationAt frame₀ i).type ≠ .illegal)
    (hplace : (locationAt frame₀ i).place = .immediate) (hout : ∀ j, U j ∨ D j → j ≠ i)
    (hstatus : (locationAt g.frame i).status ≠ .changed)
    (hvalue : InPlace frame₀ v (g.machine m₀) i) (htemp : Spare c g.frame g.nextSpill ∨ ∀ j, ¬D j) :
    Inv c m₀ v frame₀ K U D (g.storeImmediate c i).frame ((g.storeImmediate c i).machine m₀) ∧
      StoresImmediate c m₀ v frame₀ i g (g.storeImmediate c i) := by
  have hlayout := hprepared.wellFormed.toLayout
  have hslots : ∀ s, IsSlotOf frame₀ i s → ∀ j, U j ∨ D j →
      (locationAt frame₀ j).type ≠ .illegal → ¬IsSlotOf frame₀ j s := fun s hs j hj htype' hs' =>
    hout j hj (hlayout.slots_disjoint htype' htype hs' hs)
  unfold InPlace at hvalue
  rw [hplace] at hvalue
  obtain ⟨hlo, hhi⟩ := hvalue
  unfold Gen.storeImmediate
  rw [h.same.isTwoWordAt_eq, (h.same.slot i).value, (h.same.slot (i + 1)).value, hlo]
  obtain ⟨h₁, hstores₁⟩ := storeLiteral_spec hprepared h hpointers hhold (v i)
    (hslots i (.inl rfl)) htemp
  by_cases htwo : isTwoWordAt frame₀ i = true
  · rw [if_pos htwo, hhi htwo]
    have hstatus₁ : (locationAt (g.storeLiteral c i (v i)).frame i).status ≠ .changed := by
      rw [hstores₁.status i (hplace.trans_ne nofun)]
      exact hstatus
    obtain ⟨h₂, hstores₂⟩ := storeLiteral_spec hprepared h₁ hstores₁.pointers hstores₁.hold
      (v (i + 1)) (hslots (i + 1) (.inr ⟨htwo, rfl⟩)) (htemp.imp_left fun hsp => (hstores₁.safe hsp).1)
    refine ⟨h₂, hstores₂.hold, hstores₂.pointers, fun s hs => ?_, fun j hj => ?_, fun hsp => ?_⟩
    · rcases hs with rfl | ⟨-, rfl⟩
      · rw [hstores₂.mem s htype hstatus₁ s (Nat.lt_succ_self s).ne (.inl rfl)]
        exact hstores₁.stored
      · exact hstores₂.stored
    · exact (hstores₂.status j hj).trans (hstores₁.status j hj)
    · obtain ⟨hsp₁, hsafe₁⟩ := hstores₁.safe hsp
      obtain ⟨hsp₂, hsafe₂⟩ := hstores₂.safe hsp₁
      exact ⟨hsp₂, fun r hr => (hsafe₂ r hr).elim (hsafe₁ r) .inr⟩
  · rw [if_neg htwo]
    refine ⟨h₁, hstores₁.hold, hstores₁.pointers, fun s hs => ?_, hstores₁.status, hstores₁.safe⟩
    rcases hs with rfl | ⟨htwo', -⟩
    · exact hstores₁.stored
    · exact (htwo htwo').elim

/-- What `write_changes` does to a location that has been changed. -/
structure WritesChanges (c : Context) (m₀ : Machine) (v : ℕ → Word) (frame₀ : List RawLocation)
    (D : ℕ → Prop) (i : ℕ) (g g' : Gen) : Prop where
  pointers : Pointers c g'
  status : (locationAt g'.frame i).status = .cached
  immediates : ∀ j ≠ i, (locationAt frame₀ j).place = .immediate →
    (locationAt g'.frame j).status = (locationAt g.frame j).status
  inMemory : (locationAt frame₀ i).type ≠ .illegal → InMemory frame₀ v (g'.machine m₀) i
  inPlace : (locationAt frame₀ i).type ≠ .illegal → InPlace frame₀ v (g'.machine m₀) i
  hold : LiteralsHold m₀ g → LiteralsHold m₀ g'
  safe : SafeLiterals c m₀ D g → SafeLiterals c m₀ D g'

/-- **Step lemma**: a location that has been changed is written to memory. -/
theorem writeChanges_spec (hprepared : Prepared c frame₀)
    (h : Inv c m₀ v frame₀ K U D g.frame (g.machine m₀)) (hpointers : Pointers c g)
    (hlt : i < frame₀.length) (hK : ¬K i) (hU : ¬U i) (hD : ¬D i)
    (hchanged : (locationAt g.frame i).status = .changed)
    (hother : (locationAt c.other i).status ≠ .changed)
    (hpending : (locationAt frame₀ i).type ≠ .illegal → Pending c v g.frame (g.machine m₀) i)
    (himmediate : (locationAt frame₀ i).place = .immediate →
      SafeLiterals c m₀ D g ∨ LiteralsHold m₀ g ∧ ∀ j, ¬D j) :
    Inv c m₀ v frame₀ K U D (g.writeChanges c i).frame ((g.writeChanges c i).machine m₀) ∧
      WritesChanges c m₀ v frame₀ D i g (g.writeChanges c i) := by
  have hlayout := hprepared.wellFormed.toLayout
  have hlive : Status.cached ≠ .flushed → (locationAt g.frame i).status ≠ .flushed := by
    rw [hchanged]
    exact fun _ => nofun
  have hcached : Inv c m₀ v frame₀ K U D (setStatus g.frame i .cached) (g.machine m₀) :=
    h.setStatus hK hU hD hlive
  have hlt' : i < g.frame.length := h.same.length.symm ▸ hlt
  have hsame := sameSlots_setStatus g.frame i .cached
  have hspare : Spare c g.frame g.nextSpill →
      Spare c (setStatus g.frame i .cached) g.nextSpill := fun hsp =>
    hsp.mono (h.same.layout hlayout) (hcached.same.layout hlayout)
      fun j r => usesRegister_setStatus j r hlive
  have hnoStore : NoStore c g.frame → NoStore c (setStatus g.frame i .cached) := by
    intro hno j hplace hstatus
    rw [locationAt_setStatus] at hplace hstatus
    split_ifs at hplace hstatus
    exact hno j hplace hstatus
  have hother' : ∀ j ≠ i, (locationAt (setStatus g.frame i .cached) j).status =
      (locationAt g.frame j).status :=
    fun j hj => congrArg _ (locationAt_setStatus_of_ne hj.symm _)
  have hsafe : SafeLiterals c m₀ D g → SafeLiterals c m₀ D (g.setStatus i .cached) :=
    fun hs => ⟨hs.hold, hs.safe, hs.spare.imp hspare hnoStore⟩
  unfold Gen.writeChanges
  rw [if_pos hchanged, (h.same.slot i).place]
  cases hplace : (locationAt frame₀ i).place with
  | nowhere =>
    have hillegal : (locationAt frame₀ i).type = .illegal := by
      by_contra htype
      have hin := (hpending htype).inPlace (.inl hchanged)
      unfold InPlace at hin
      rw [(h.same.slot i).place, hplace] at hin
      exact hin
    exact ⟨hcached, hpointers, status_setStatus_self hlt' _, fun j hj _ => hother' j hj,
      fun htype => (htype hillegal).elim, fun htype => (htype hillegal).elim, id, hsafe⟩
  | register =>
    have htype := hlayout.type_ne_of_place hplace nofun
    have hin := ((hpending htype).inPlace (.inl hchanged)).sameSlots hsame
    obtain ⟨hframe, hliterals, halloc, hspill⟩ :=
      storeRegisters_gen (g.setStatus i .cached) i
    have hregs : (((g.setStatus i .cached).storeRegisters i).machine m₀).regs =
        (g.machine m₀).regs := storeRegisters_regs (g.setStatus i .cached) i
    have hslot : ∀ s, IsSlotOf frame₀ i s → ∀ j, U j ∨ D j →
        (locationAt frame₀ j).type ≠ .illegal → ¬IsSlotOf frame₀ j s := by
      intro s hs j hj htype' hs'
      obtain rfl := hlayout.slots_disjoint htype' htype hs' hs
      exact hj.elim hU hD
    have hsame₀ := h.same.trans hsame
    refine ⟨?_, ⟨halloc ▸ hpointers.1, hspill ▸ hpointers.2⟩, ?_, fun j hj _ => ?_, fun _ s hs => ?_,
      fun _ => ?_, fun hhold r hr => ?_, fun hs => ⟨fun r hr => ?_, ?_, ?_⟩⟩
    · rw [hframe, storeRegisters_machine]
      split_ifs with htwo
      · refine (hcached.setMem hprepared (hslot i (.inl rfl))).setMem hprepared
          (hslot (i + 1) (.inr ⟨?_, rfl⟩))
        exact (hsame₀.isTwoWordAt_eq i).symm.trans htwo
      · exact hcached.setMem hprepared (hslot i (.inl rfl))
    · rw [hframe]
      exact status_setStatus_self hlt' _
    · rw [hframe]
      exact hother' j hj
    · unfold InPlace at hin
      rw [(hsame₀.slot i).place, hplace] at hin
      rw [storeRegisters_mem]
      rcases hs with rfl | ⟨htwo, rfl⟩
      · rw [if_neg fun h => absurd h.2 (Nat.lt_succ_self s).ne, if_pos rfl]
        exact hin.1
      · have htwo' := (hsame₀.isTwoWordAt_eq i).trans htwo
        rw [if_pos ⟨htwo', rfl⟩]
        exact hin.2 htwo'
    · have hin₀ := hin.sameSlots hsame₀.symm
      exact hin₀.congr fun _ => ⟨congrFun hregs _, fun _ => congrFun hregs _⟩
    · rw [hliterals] at hr ⊢
      rw [hregs]
      exact hhold r hr
    · rw [hliterals] at hr ⊢
      rw [hregs]
      exact hs.hold r hr
    · rw [hliterals]
      exact hs.safe
    · rw [hframe, hspill]
      exact hs.spare.imp hspare hnoStore
  | immediate =>
    have htype := hlayout.type_ne_of_place hplace nofun
    have hin := ((hpending htype).inPlace (.inl hchanged)).sameSlots h.same.symm
    have hneeds : SafeLiterals c m₀ D g → Spare c g.frame g.nextSpill := by
      refine fun hs => hs.spare.resolve_right fun hno => hother (hno i ?_ hchanged)
      rw [(h.same.slot i).place, hplace]
    obtain ⟨hhold, htemp⟩ : LiteralsHold m₀ g ∧
        (Spare c (setStatus g.frame i .cached) g.nextSpill ∨ ∀ j, ¬D j) :=
      (himmediate hplace).elim (fun hs => ⟨hs.hold, .inl (hspare (hneeds hs))⟩)
        fun hs => ⟨hs.1, .inr hs.2⟩
    have hstatus := status_setStatus_self hlt' Status.cached
    have hout : ∀ j, U j ∨ D j → j ≠ i := by
      rintro j hj rfl
      exact hj.elim hU hD
    obtain ⟨hinv, hstores⟩ := storeImmediate_spec (g := g.setStatus i .cached) hprepared hcached
      hpointers hhold htype hplace hout
      (by rw [Gen.setStatus_frame, hstatus]; exact nofun) hin htemp
    refine ⟨hinv, hstores.pointers, ?_, fun j hj hplace' => ?_, fun _ => hstores.stored, fun _ => ?_,
      fun _ => hstores.hold, fun hs => ⟨hstores.hold, fun r hr j hj => ?_, ?_⟩⟩
    · rw [hstores.status i (hplace.trans_ne nofun)]
      exact hstatus
    · rw [hstores.status j (by rw [hplace']; exact nofun)]
      exact hother' j hj
    · refine hin.congr fun hregister => ?_
      rw [hplace] at hregister
      cases hregister
    · rcases (hstores.safe (hspare (hneeds hs))).2 r hr with hr' | hr'
      · exact hs.safe r hr' j hj
      · rw [(isMappingLocation_eq_false hprepared.other.toLayout).mp hr' j] at hj
        cases hj
    · exact .inl (hstores.safe (hspare (hneeds hs))).1

/-! ## Placing values -/

theorem SafeLiterals.mono {D' : ℕ → Prop} (h : SafeLiterals c m₀ D g) (hD : ∀ j, D j → D' j) :
    SafeLiterals c m₀ D' g :=
  ⟨h.hold, fun r hr j hj => hD j (h.safe r hr j hj), h.spare⟩

/-- A register of the target may be changed before its location has been conformed. -/
theorem Inv.setTarget (hprepared : Prepared c frame₀) {m : Machine}
    (h : Inv c m₀ v frame₀ K U D frame m) (hUK : ∀ j, U j → K j) (hU : ¬U i) (hD : ¬D i)
    (huses : usesRegister c.other i reg = true) (w : Word) :
    Inv c m₀ v frame₀ K U D frame (m.setReg reg w) := by
  refine h.setReg ?_ (fun j hj htype hneeds => ?_) fun j hj => ?_
  · exact hprepared.other.allocatable i (lt_length_of_usesRegister huses) reg huses
  · by_contra hused
    rw [Bool.not_eq_false] at hused
    have hij := (h.conflict j (hUK j hj) htype hneeds reg i hused huses).1
    exact hU (hij.symm ▸ hj)
  · by_contra hused
    rw [Bool.not_eq_false] at hused
    exact hD (hprepared.unshared j i reg hused huses ▸ hj)

/-- The word is put into the register, and nothing else happens. -/
structure SetsRegister (m₀ : Machine) (reg : ℕ) (w : Word) (g g' : Gen) : Prop where
  frame : g'.frame = g.frame
  literals : g'.literals = g.literals
  nextAllocate : g'.nextAllocate = g.nextAllocate
  nextSpill : g'.nextSpill = g.nextSpill
  machine : g'.machine m₀ = (g.machine m₀).setReg reg w

variable {w : Word}

theorem setsRegister_emit {instr : Instr}
    (hstep : (g.machine m₀).step instr = (g.machine m₀).setReg reg w) :
    SetsRegister m₀ reg w g (g.emit instr) :=
  ⟨rfl, rfl, rfl, rfl, (Gen.machine_emit g instr).trans hstep⟩

theorem SafeLiterals.setsRegister (h : SafeLiterals c m₀ D g)
    (hset : SetsRegister m₀ reg w g g') (huses : usesRegister c.other i reg = true) (hD : ¬D i) :
    SafeLiterals c m₀ D g' := by
  refine ⟨fun r hr => ?_, fun r hr => h.safe r (hset.literals ▸ hr), ?_⟩
  · rw [hset.literals] at hr ⊢
    have hne : r ≠ reg := fun heq => hD (h.safe reg (heq ▸ hr) i huses)
    rw [hset.machine]
    exact (update_of_ne hne _ _).trans (h.hold r hr)
  · rw [hset.frame, hset.nextSpill]
    exact h.spare

theorem SafeLiterals.setLiteral (h : SafeLiterals c m₀ D g) (hreg : (g.machine m₀).regs reg = w)
    (hD : ∀ j, usesRegister c.other j reg = true → D j) :
    SafeLiterals c m₀ D (g.setLiteral reg w) := by
  refine ⟨fun r hr => ?_, fun r hr j hj => ?_, h.spare⟩
  · change update g.literals reg w r ≠ 0 at hr
    show (g.machine m₀).regs r = update g.literals reg w r
    rw [update_apply] at hr ⊢
    split_ifs at hr ⊢ with heq
    · exact heq ▸ hreg
    · exact h.hold r hr
  · change update g.literals reg w r ≠ 0 at hr
    rw [update_apply] at hr
    split_ifs at hr with heq
    · exact hD j (heq ▸ hj)
    · exact h.safe r hr j hj

/-- What placing the value of a location in the registers of the target does. -/
structure Places (c : Context) (m₀ : Machine) (v : ℕ → Word) (frame₀ : List RawLocation)
    (D : ℕ → Prop) (i : ℕ) (g g' : Gen) : Prop where
  frame : g'.frame = g.frame
  nextAllocate : g'.nextAllocate = g.nextAllocate
  nextSpill : g'.nextSpill = g.nextSpill
  mem : (g'.machine m₀).mem = (g.machine m₀).mem
  inPlace : (locationAt frame₀ i).type ≠ .illegal → InPlace c.other v (g'.machine m₀) i
  safe : SafeLiterals c m₀ D g → SafeLiterals c m₀ (fun j => D j ∨ j = i) g'

theorem usesRegister_lo (hstatus : (locationAt frame i).status ≠ .flushed)
    (hplace : (locationAt frame i).place = .register) :
    usesRegister frame i (locationAt frame i).getRegister = true :=
  usesRegister_iff.mpr ⟨hstatus, hplace, .inl rfl⟩

theorem usesRegister_hi (hstatus : (locationAt frame i).status ≠ .flushed)
    (hplace : (locationAt frame i).place = .register) (htwo : isTwoWordAt frame i = true) :
    usesRegister frame i (locationAt frame (i + 1)).getRegister = true :=
  usesRegister_iff.mpr ⟨hstatus, hplace, .inr ⟨htwo, rfl⟩⟩

theorem Prepared.place_other (hprepared : Prepared c frame₀)
    (htype : (locationAt frame₀ i).type ≠ .illegal)
    (hother : (locationAt c.other i).status ≠ .flushed)
    (himmediate : (locationAt c.other i).place ≠ .immediate) :
    (locationAt c.other i).place = .register := by
  have htype' : (locationAt c.other i).type ≠ .illegal := (hprepared.type_eq i htype).symm ▸ htype
  have hpresent := hprepared.other.present i (lt_length_of_type_ne htype') htype' hother
  cases hplace : (locationAt c.other i).place with
  | nowhere => exact (hpresent hplace).elim
  | register => rfl
  | immediate => exact (himmediate hplace).elim

/-- **Step lemma**: the words of the value are put into the registers of the target. -/
theorem places_of_setsRegister (hprepared : Prepared c frame₀)
    (h : Inv c m₀ v frame₀ K U D g.frame (g.machine m₀)) (hUK : ∀ j, U j → K j) (hU : ¬U i)
    (hD : ¬D i) (hother : (locationAt c.other i).status ≠ .flushed)
    (hplace : (locationAt c.other i).place = .register) (w w' : Word) {g₁ : Gen}
    (hlo : SetsRegister m₀ (locationAt c.other i).getRegister w g g₁)
    (hhi : if isTwoWordAt c.other i = true then
      SetsRegister m₀ (locationAt c.other (i + 1)).getRegister w' g₁ g' else g' = g₁)
    (hw : (locationAt frame₀ i).type ≠ .illegal → w = v i)
    (hw' : (locationAt frame₀ i).type ≠ .illegal → isTwoWordAt c.other i = true → w' = v (i + 1)) :
    Inv c m₀ v frame₀ K U D g'.frame (g'.machine m₀) ∧ Places c m₀ v frame₀ D i g g' := by
  have huses := usesRegister_lo hother hplace
  have hinv : Inv c m₀ v frame₀ K U D g₁.frame (g₁.machine m₀) := by
    rw [hlo.frame, hlo.machine]
    exact h.setTarget hprepared hUK hU hD huses w
  have hsafe : SafeLiterals c m₀ D g → SafeLiterals c m₀ D g₁ :=
    fun hs => hs.setsRegister hlo huses hD
  have hregs : (g₁.machine m₀).regs (locationAt c.other i).getRegister = w := by
    rw [hlo.machine]
    exact update_self _ _ _
  by_cases htwo : isTwoWordAt c.other i = true
  · rw [if_pos htwo] at hhi
    have huses' := usesRegister_hi hother hplace htwo
    refine ⟨?_, hhi.frame.trans hlo.frame, hhi.nextAllocate.trans hlo.nextAllocate,
      hhi.nextSpill.trans hlo.nextSpill, ?_, fun htype => ?_, fun hs => ?_⟩
    · rw [hhi.frame, hhi.machine]
      exact hinv.setTarget hprepared hUK hU hD huses' w'
    · rw [hhi.machine, hlo.machine]
      rfl
    · unfold InPlace
      rw [hplace, hhi.machine]
      refine ⟨?_, fun _ => ?_⟩
      · rw [← hw htype]
        exact (update_of_ne (hprepared.distinct i hother hplace htwo) _ _).trans hregs
      · rw [← hw' htype htwo]
        exact update_self _ _ _
    · exact ((hsafe hs).setsRegister hhi huses' hD).mono fun j hj => .inl hj
  · rw [if_neg htwo] at hhi
    subst hhi
    refine ⟨hinv, hlo.frame, hlo.nextAllocate, hlo.nextSpill, ?_, fun htype => ?_,
      fun hs => (hsafe hs).mono fun j hj => .inl hj⟩
    · rw [hlo.machine]
      rfl
    · unfold InPlace
      rw [hplace]
      exact ⟨hregs.trans (hw htype), fun htwo' => (htwo htwo').elim⟩

/-- **Step lemma**: the value is loaded from the memory. -/
theorem updateCache_spec (hprepared : Prepared c frame₀)
    (h : Inv c m₀ v frame₀ K U D g.frame (g.machine m₀)) (hUK : ∀ j, U j → K j) (hU : ¬U i)
    (hD : ¬D i) (hother : (locationAt c.other i).status ≠ .flushed)
    (himmediate : (locationAt c.other i).place ≠ .immediate)
    (hmemory : (locationAt frame₀ i).type ≠ .illegal → InMemory frame₀ v (g.machine m₀) i) :
    Inv c m₀ v frame₀ K U D (g.updateCache c i).frame ((g.updateCache c i).machine m₀) ∧
      Places c m₀ v frame₀ D i g (g.updateCache c i) := by
  unfold Gen.updateCache
  by_cases hplace : (locationAt c.other i).place = .register
  · rw [if_pos ⟨hother, hplace⟩]
    have hlo : SetsRegister m₀ (locationAt c.other i).getRegister ((g.machine m₀).mem i) g
        (g.emit (.ldr (locationAt c.other i).getRegister i)) := setsRegister_emit rfl
    refine places_of_setsRegister hprepared h hUK hU hD hother hplace _
      ((g.machine m₀).mem (i + 1)) hlo ?_ (fun htype => hmemory htype i (.inl rfl))
      fun htype htwo => hmemory htype (i + 1) (.inr ⟨?_, rfl⟩)
    · split_ifs
      · refine setsRegister_emit ?_
        rw [hlo.machine]
        rfl
      · rfl
    · rw [← hprepared.isTwoWordAt_other htype]
      exact htwo
  · rw [if_neg fun hand => hplace hand.2]
    refine ⟨h, rfl, rfl, rfl, rfl, fun htype => ?_, fun hs => hs.mono fun j hj => .inl hj⟩
    exact (hplace (hprepared.place_other htype hother himmediate)).elim

/-- The merge reads the register. -/
def Reads (frame : List RawLocation) (i r : ℕ) : Prop :=
  (locationAt frame i).place = .register ∧ ((locationAt frame i).getRegister = r ∨
    isTwoWordAt frame i = true ∧ (locationAt frame (i + 1)).getRegister = r)

theorem isRegisterIdenticalTo_iff :
    g.isRegisterIdenticalTo c i = true ↔ IsIdentical c g.frame i := by
  simp [Gen.isRegisterIdenticalTo, IsIdentical, imp_iff_not_or]

theorem moveRegister_spec (g : Gen) (dst src : ℕ) :
    SetsRegister m₀ dst ((g.machine m₀).regs src) g (g.moveRegister dst src) := by
  unfold Gen.moveRegister
  split_ifs with heq
  · subst heq
    refine ⟨rfl, rfl, rfl, rfl, ?_⟩
    unfold Machine.setReg
    rw [update_eq_self]
  · refine setsRegister_emit ?_
    show (g.machine m₀).setReg dst ((g.machine m₀).regs src <<< 0) = _
    rw [BitVec.shiftLeft_zero]

/-- **Step lemma**: the value is moved to the registers of the target. -/
theorem storeRegister_spec (hprepared : Prepared c frame₀)
    (h : Inv c m₀ v frame₀ K U D g.frame (g.machine m₀)) (hUK : ∀ j, U j → K j) (hU : ¬U i)
    (hD : ¬D i) (hother : (locationAt c.other i).status ≠ .flushed)
    (himmediate : (locationAt c.other i).place ≠ .immediate)
    (hvalue : (locationAt frame₀ i).type ≠ .illegal → InPlace frame₀ v (g.machine m₀) i)
    (hreads : ∀ r, Reads frame₀ i r → usesRegister c.other i r = true → IsIdentical c frame₀ i)
    (hsafe : (locationAt frame₀ i).place = .immediate → SafeLiterals c m₀ D g) :
    Inv c m₀ v frame₀ K U D (g.storeRegister c i).frame ((g.storeRegister c i).machine m₀) ∧
      Places c m₀ v frame₀ D i g (g.storeRegister c i) := by
  have hlayout := hprepared.wellFormed.toLayout
  have hnothing : ((locationAt frame₀ i).type ≠ .illegal → InPlace c.other v (g.machine m₀) i) →
      Inv c m₀ v frame₀ K U D g.frame (g.machine m₀) ∧ Places c m₀ v frame₀ D i g g :=
    fun hin => ⟨h, rfl, rfl, rfl, rfl, hin, fun hs => hs.mono fun j hj => .inl hj⟩
  unfold Gen.storeRegister
  by_cases hplace : (locationAt c.other i).place = .register
  · rw [if_pos hplace]
    split_ifs with hidentical
    · -- the value is in the registers already
      have hidentical := And.intro hidentical.1 (isRegisterIdenticalTo_iff.mp hidentical.2)
      refine hnothing fun htype => ?_
      have hin := (hvalue htype).sameSlots h.same
      unfold InPlace at hin ⊢
      rw [hidentical.1] at hin
      rw [hplace, ← hidentical.2.2.1]
      refine ⟨hin.1, fun htwo => ?_⟩
      have htwo' : isTwoWordAt g.frame i = true := by
        rw [h.same.isTwoWordAt_eq, ← hprepared.isTwoWordAt_other htype]
        exact htwo
      rw [← hidentical.2.2.2 htwo']
      exact hin.2 htwo'
    · unfold Gen.move
      rw [(h.same.slot i).place]
      cases hplace₀ : (locationAt frame₀ i).place with
      | nowhere =>
        refine hnothing fun htype => ?_
        have hin := hvalue htype
        unfold InPlace at hin
        rw [hplace₀] at hin
        exact hin.elim
      | register =>
        have htype := hlayout.type_ne_of_place hplace₀ nofun
        have hin := (hvalue htype).sameSlots h.same
        unfold InPlace at hin
        rw [(h.same.slot i).place, hplace₀] at hin
        have hlo : SetsRegister m₀ (locationAt c.other i).getRegister
            ((g.machine m₀).regs (locationAt g.frame i).getRegister) g
            (g.moveRegister (locationAt c.other i).getRegister
              (locationAt g.frame i).getRegister) := moveRegister_spec _ _ _
        refine places_of_setsRegister hprepared h hUK hU hD hother hplace _
          (((g.moveRegister (locationAt c.other i).getRegister
            (locationAt g.frame i).getRegister).machine m₀).regs
              (locationAt g.frame (i + 1)).getRegister) hlo ?_ (fun _ => hin.1) fun _ htwo => ?_
        · unfold Gen.moveRegisters
          split_ifs
          · exact moveRegister_spec _ _ _
          · rfl
        · have htwo' : isTwoWordAt g.frame i = true := by
            rw [h.same.isTwoWordAt_eq, ← hprepared.isTwoWordAt_other htype]
            exact htwo
          -- the second word is not read from the register of the first word of the target
          have hne : (locationAt g.frame (i + 1)).getRegister ≠
              (locationAt c.other i).getRegister := by
            intro heq
            have hread : Reads frame₀ i (locationAt c.other i).getRegister := by
              refine ⟨hplace₀, .inr ⟨(h.same.isTwoWordAt_eq i).symm.trans htwo', ?_⟩⟩
              rw [← h.same.getRegister_eq]
              exact heq
            obtain ⟨hreg, hlo', hhi'⟩ := hreads _ hread (usesRegister_lo hother hplace)
            refine hidentical ⟨(h.same.slot i).place.trans hplace₀,
              isRegisterIdenticalTo_iff.mpr ⟨hreg, ?_, fun htwo => ?_⟩⟩
            · rw [h.same.getRegister_eq]
              exact hlo'
            · rw [h.same.getRegister_eq]
              exact hhi' ((h.same.isTwoWordAt_eq i).symm.trans htwo)
          rw [hlo.machine]
          exact (update_of_ne hne _ _).trans (hin.2 htwo')
      | immediate =>
        have htype := hlayout.type_ne_of_place hplace₀ nofun
        have hin := (hvalue htype).sameSlots h.same
        unfold InPlace at hin
        rw [(h.same.slot i).place, hplace₀] at hin
        have hs := hsafe hplace₀
        have huses := usesRegister_lo hother hplace
        have hown : ∀ {r}, usesRegister c.other i r = true → ∀ j, usesRegister c.other j r = true →
            D j ∨ j = i := fun hr j hj => .inr (hprepared.unshared j i _ hj hr)
        obtain ⟨instr, hmov, hstep⟩ := movImm_spec (c := c) hs.hold
          (locationAt c.other i).getRegister (locationAt g.frame i).value
        have hlo := setsRegister_emit hstep
        rw [← hmov] at hlo
        show Inv c m₀ v frame₀ K U D (g.moveImmediate c i).frame
            ((g.moveImmediate c i).machine m₀) ∧
          Places c m₀ v frame₀ D i g (g.moveImmediate c i)
        unfold Gen.moveImmediate
        by_cases htwo : isTwoWordAt c.other i = true
        · have htwo' : isTwoWordAt g.frame i = true := by
            rw [h.same.isTwoWordAt_eq, ← hprepared.isTwoWordAt_other htype]
            exact htwo
          have hs₁ := hs.setsRegister hlo huses hD
          obtain ⟨instr', hmov', hstep'⟩ := movImm_spec (c := c) hs₁.hold
            (locationAt c.other (i + 1)).getRegister (locationAt g.frame (i + 1)).value
          have hhi := setsRegister_emit hstep'
          rw [← hmov'] at hhi
          obtain ⟨hinv, hplaces⟩ := places_of_setsRegister hprepared h hUK hU hD hother hplace _ _
            hlo (by rw [if_pos htwo]; exact hhi) (fun _ => hin.1) fun _ _ => hin.2 htwo'
          have hin' := hplaces.inPlace htype
          unfold InPlace at hin'
          rw [hplace] at hin'
          simp only [if_pos htwo]
          refine ⟨hinv, hplaces.frame, hplaces.nextAllocate, hplaces.nextSpill, hplaces.mem,
            hplaces.inPlace, fun hs' => ?_⟩
          refine ((hplaces.safe hs').setLiteral ?_ (hown huses)).setLiteral ?_
            (hown (usesRegister_hi hother hplace htwo))
          · exact hin'.1.trans hin.1.symm
          · exact (hin'.2 htwo).trans (hin.2 htwo').symm
        · obtain ⟨hinv, hplaces⟩ := places_of_setsRegister hprepared h hUK hU hD hother hplace _ 0
            hlo (by rw [if_neg htwo]) (fun _ => hin.1) fun _ htwo' => (htwo htwo').elim
          have hin' := hplaces.inPlace htype
          unfold InPlace at hin'
          rw [hplace] at hin'
          simp only [if_neg htwo]
          refine ⟨hinv, hplaces.frame, hplaces.nextAllocate, hplaces.nextSpill, hplaces.mem,
            hplaces.inPlace, fun hs' => (hplaces.safe hs').setLiteral ?_ (hown huses)⟩
          exact hin'.1.trans hin.1.symm
  · rw [if_neg hplace]
    exact hnothing fun htype => (hplace (hprepared.place_other htype hother himmediate)).elim

/-! ## The third loop -/

/-- No immediate is stored or goes to a register. -/
def NoImmediates (c : Context) (frame : List RawLocation) : Prop :=
  ∀ j, (locationAt frame j).place = .immediate → (locationAt frame j).status = .flushed ∨
    (locationAt c.other j).status = .flushed ∧ (locationAt frame j).status ≠ .changed

/-- The immediates of the target are the values. -/
def TargetConstants (c : Context) (v : ℕ → Word) (m : Machine) (frame₀ : List RawLocation) : Prop :=
  ∀ j, (locationAt frame₀ j).type ≠ .illegal → (locationAt c.other j).status ≠ .flushed →
    (locationAt c.other j).place = .immediate → InPlace c.other v m j

/-- The invariant of the third loop. -/
structure Conforming (c : Context) (m₀ : Machine) (v : ℕ → Word) (frame₀ : List RawLocation)
    (i : ℕ) (g : Gen) : Prop where
  inv : Inv c m₀ v frame₀ (i ≤ ·) (i ≤ ·) (· < i) g.frame (g.machine m₀)
  pointers : Pointers c g
  literals : SafeLiterals c m₀ (· < i) g ∨ NoImmediates c g.frame

/-- What is left to show of a step of the third loop. -/
theorem Conforming.finish (hprepared : Prepared c frame₀)
    (h : Inv c m₀ v frame₀ (i + 1 ≤ ·) (i + 1 ≤ ·) (· < i) g.frame (g.machine m₀))
    (hpointers : Pointers c g)
    (hliterals : SafeLiterals c m₀ (fun j => j < i ∨ j = i) g ∨ NoImmediates c g.frame)
    (hmemory : (locationAt frame₀ i).type ≠ .illegal →
      (locationAt c.other i).status ≠ .changed → InMemory frame₀ v (g.machine m₀) i)
    (hplace : (locationAt frame₀ i).type ≠ .illegal →
      (locationAt c.other i).status ≠ .flushed → InPlace c.other v (g.machine m₀) i)
    (hwritten : (locationAt c.other i).status ≠ .changed →
      (locationAt g.frame i).status ≠ .changed) : Conforming c m₀ v frame₀ (i + 1) g := by
  refine ⟨⟨h.same, h.live, h.kept, h.conflict, h.pending, fun j hj htype => ?_⟩, hpointers,
    hliterals.imp_left fun hs => hs.mono fun j hj => ?_⟩
  · rcases Nat.lt_succ_iff_lt_or_eq.mp hj with hlt | rfl
    · exact h.done j hlt htype
    · have hmemory' : (locationAt c.other j).status ≠ .changed →
          InMemory c.other v (g.machine m₀) j := fun hstatus =>
        (hmemory htype hstatus).congr (fun s => (hprepared.isSlotOf_other htype).mp) fun _ _ => rfl
      refine ⟨?_, hwritten⟩
      unfold Holds
      cases hstatus : (locationAt c.other j).status with
      | flushed => exact hmemory' (hstatus.trans_ne nofun)
      | cached =>
        exact ⟨hmemory' (hstatus.trans_ne nofun), hplace htype (hstatus.trans_ne nofun)⟩
      | changed => exact hplace htype (hstatus.trans_ne nofun)
  · exact hj.elim (fun hlt => Nat.lt_succ_of_lt hlt) fun heq => heq ▸ Nat.lt_succ_self i

/-- The registers that a location is moved from are not those of the target, unless it stays. -/
theorem NoConflict.reads (h : NoConflict c frame i)
    (hsame : SameSlots frame₀ frame) (hneeds : NeedsPlace c frame i) (r : ℕ)
    (hreads : Reads frame₀ i r) (huses : usesRegister c.other i r = true) :
    IsIdentical c frame₀ i := by
  have hused : usesRegister frame i r = true := by
    refine usesRegister_iff.mpr ⟨needsPlace_ne_flushed hneeds, ?_, ?_⟩
    · rw [(hsame.slot i).place]
      exact hreads.1
    · rw [hsame.getRegister_eq, hsame.getRegister_eq, hsame.isTwoWordAt_eq]
      exact hreads.2
  obtain ⟨-, hother, hlo, hhi⟩ := h hneeds r i hused huses
  rw [hsame.getRegister_eq] at hlo
  rw [hsame.getRegister_eq, hsame.isTwoWordAt_eq] at hhi
  exact ⟨hother, hlo, hhi⟩

/-- **Step lemma**: the third loop conforms a location. -/
theorem Conforming.step (hprepared : Prepared c frame₀)
    (hconstants : ∀ m, TargetConstants c v m frame₀) (hlt : i < frame₀.length)
    (h : Conforming c m₀ v frame₀ i g) :
    Conforming c m₀ v frame₀ (i + 1) (Gen.conformLocation c i g) := by
  obtain ⟨hinv, hpointers, hliterals⟩ := h
  have hrest : Inv c m₀ v frame₀ (i + 1 ≤ ·) (i + 1 ≤ ·) (· < i) g.frame (g.machine m₀) :=
    hinv.mono (fun j hj => (Nat.le_succ i).trans hj) (fun j hj => (Nat.le_succ i).trans hj)
      fun j hj => hj
  have hpending := hinv.pending i le_rfl
  have hconflict := hinv.conflict i le_rfl
  have hmemory : (locationAt frame₀ i).type ≠ .illegal → (locationAt g.frame i).status ≠ .changed →
      InMemory frame₀ v (g.machine m₀) i := fun htype hstatus =>
    ((hpending htype).inMemory hstatus).congr (fun s => hinv.same.isSlotOf_iff.mpr) fun _ _ => rfl
  have hmono : SafeLiterals c m₀ (· < i) g ∨ NoImmediates c g.frame →
      SafeLiterals c m₀ (fun j => j < i ∨ j = i) g ∨ NoImmediates c g.frame :=
    fun hl => hl.imp_left fun hs => hs.mono fun j hj => .inl hj
  have hout : ¬i + 1 ≤ i := Nat.not_succ_le_self i
  have hout' : ¬i < i := Nat.lt_irrefl i
  have hstay : (locationAt g.frame i).status ≠ .changed → (locationAt c.other i).status = .flushed →
      Conforming c m₀ v frame₀ (i + 1) g := fun hne hother =>
    .finish hprepared hrest hpointers (hmono hliterals) (fun htype _ => hmemory htype hne)
      (fun _ hother' => (hother' hother).elim) fun _ => hne
  -- the move to the registers of the target
  have hmove : ∀ {g'}, Inv c m₀ v frame₀ (i + 1 ≤ ·) (i + 1 ≤ ·) (· < i) g'.frame (g'.machine m₀) →
      Pointers c g' → SafeLiterals c m₀ (· < i) g' ∨ NoImmediates c g'.frame →
      (locationAt g'.frame i).status ≠ .flushed → NeedsPlace c g.frame i →
      (locationAt c.other i).status ≠ .flushed → (locationAt c.other i).place ≠ .immediate →
      ((locationAt frame₀ i).type ≠ .illegal → InPlace frame₀ v (g'.machine m₀) i) →
      ((locationAt frame₀ i).type ≠ .illegal → (locationAt c.other i).status ≠ .changed →
        InMemory frame₀ v (g'.machine m₀) i) →
      ((locationAt c.other i).status ≠ .changed → (locationAt g'.frame i).status ≠ .changed) →
      Conforming c m₀ v frame₀ (i + 1) (g'.storeRegister c i) := by
    intro g' hinv' hpointers' hliterals' hlive hneeds hother himmediate hvalue hmem hwritten
    have htype : ∀ r, Reads frame₀ i r → (locationAt frame₀ i).type ≠ .illegal :=
      fun r hreads => hprepared.wellFormed.type_ne_of_place hreads.1 nofun
    obtain ⟨hinv'', hplaces⟩ := storeRegister_spec hprepared hinv' (fun j hj => hj) hout hout' hother
      himmediate hvalue
      (fun r hreads huses => (hconflict (htype r hreads)).reads hinv.same hneeds r hreads huses)
      fun hplace => hliterals'.resolve_right fun hno => by
        rw [← (hinv'.same.slot i).place] at hplace
        rcases hno i hplace with hflushed | hflushed
        · exact hlive hflushed
        · exact hother hflushed.1
    refine .finish hprepared hinv'' ⟨hplaces.nextAllocate ▸ hpointers'.1,
      hplaces.nextSpill ▸ hpointers'.2⟩ (hliterals'.imp hplaces.safe fun hno => ?_)
      (fun htype hstatus => ?_) (fun htype _ => hplaces.inPlace htype) fun hstatus => ?_
    · rw [hplaces.frame]
      exact hno
    · exact (hmem htype hstatus).congr (fun _ => id) fun s _ => congrFun hplaces.mem s
    · rw [hplaces.frame]
      exact hwritten hstatus
  unfold Gen.conformLocation
  split_ifs with hguard
  · have himmediate : (locationAt c.other i).status ≠ .flushed →
        (locationAt c.other i).place ≠ .immediate := fun hother => hguard.resolve_left hother
    have hlt' : i < g.frame.length := hinv.same.length.symm ▸ hlt
    unfold Gen.conformTo Gen.actionsAt
    cases hstatus : (locationAt g.frame i).status with
    | flushed =>
      have hne : (locationAt g.frame i).status ≠ .changed := hstatus.trans_ne nofun
      have hload : (locationAt c.other i).status ≠ .flushed →
          Conforming c m₀ v frame₀ (i + 1) (g.updateCache c i) := by
        intro hother
        obtain ⟨hinv', hplaces⟩ := updateCache_spec hprepared hrest (fun j hj => hj) hout hout'
          hother (himmediate hother) fun htype => hmemory htype hne
        refine .finish hprepared hinv' ⟨hplaces.nextAllocate ▸ hpointers.1,
          hplaces.nextSpill ▸ hpointers.2⟩ (hliterals.imp hplaces.safe fun hno => ?_)
          (fun htype _ => ?_) (fun htype _ => hplaces.inPlace htype) fun _ => ?_
        · rw [hplaces.frame]
          exact hno
        · exact (hmemory htype hne).congr (fun _ => id) fun s _ => congrFun hplaces.mem s
        · rw [hplaces.frame]
          exact hne
      cases hother : (locationAt c.other i).status with
      | flushed => exact hstay hne hother
      | cached => exact hload (hother.trans_ne nofun)
      | changed => exact hload (hother.trans_ne nofun)
    | cached =>
      have hne : (locationAt g.frame i).status ≠ .changed := hstatus.trans_ne nofun
      have hregister : (locationAt c.other i).status ≠ .flushed →
          Conforming c m₀ v frame₀ (i + 1) (g.storeRegister c i) := by
        intro hother
        have hneeds : NeedsPlace c g.frame i := .inr ⟨hstatus, hother⟩
        exact hmove hrest hpointers hliterals (hstatus.trans_ne nofun) hneeds hother
          (himmediate hother)
          (fun htype => ((hpending htype).inPlace hneeds).sameSlots hinv.same.symm)
          (fun htype _ => hmemory htype hne) fun _ => hne
      cases hother : (locationAt c.other i).status with
      | flushed => exact hstay hne hother
      | cached => exact hregister (hother.trans_ne nofun)
      | changed => exact hregister (hother.trans_ne nofun)
    | changed =>
      have hneeds : NeedsPlace c g.frame i := .inl hstatus
      have hwrite : (locationAt c.other i).status ≠ .changed → _ := fun hother =>
        writeChanges_spec hprepared hrest hpointers hlt hout hout hout' hstatus hother hpending
          fun hplace => .inl (hliterals.resolve_right fun hno => by
            rw [← (hinv.same.slot i).place] at hplace
            rcases hno i hplace with hflushed | hflushed
            · rw [hstatus] at hflushed
              cases hflushed
            · exact hflushed.2 hstatus)
      have hnoImmediates : ∀ {g'}, WritesChanges c m₀ v frame₀ (· < i) i g g' →
          SameSlots frame₀ g'.frame → NoImmediates c g.frame → NoImmediates c g'.frame := by
        intro g' hwrites hsame hno j hplace
        have hplace₀ : (locationAt frame₀ j).place = .immediate := (hsame.slot j).place ▸ hplace
        have hno' := hno j ((hinv.same.slot j).place.trans hplace₀)
        by_cases hji : j = i
        · subst hji
          rw [hstatus] at hno'
          rcases hno' with hfalse | hfalse
          · cases hfalse
          · exact (hfalse.2 rfl).elim
        · rw [hwrites.immediates j hji hplace₀]
          exact hno'
      cases hother : (locationAt c.other i).status with
      | flushed =>
        obtain ⟨hinv', hwrites⟩ := hwrite (hother.trans_ne nofun)
        have hne : (locationAt (g.writeChanges c i).frame i).status ≠ .changed :=
          hwrites.status.trans_ne nofun
        exact .finish hprepared hinv' hwrites.pointers
          ((hliterals.imp hwrites.safe (hnoImmediates hwrites hinv'.same)).imp_left
            fun hs => hs.mono fun j hj => .inl hj)
          (fun htype _ => hwrites.inMemory htype) (fun _ hother' => (hother' hother).elim) fun _ => hne
      | cached =>
        have hother' : (locationAt c.other i).status ≠ .flushed := hother.trans_ne nofun
        obtain ⟨hinv', hwrites⟩ := hwrite (hother.trans_ne nofun)
        have hne : (locationAt (g.writeChanges c i).frame i).status ≠ .changed :=
          hwrites.status.trans_ne nofun
        have hlive : (locationAt (g.writeChanges c i).frame i).status ≠ .flushed :=
          hwrites.status.trans_ne nofun
        exact hmove hinv' hwrites.pointers
          (hliterals.imp hwrites.safe (hnoImmediates hwrites hinv'.same)) hlive hneeds hother' (himmediate hother')
          hwrites.inPlace (fun htype _ => hwrites.inMemory htype) fun _ => hne
      | changed =>
        have hother' : (locationAt c.other i).status ≠ .flushed := hother.trans_ne nofun
        have hlive : (locationAt g.frame i).status ≠ .flushed := hstatus.trans_ne nofun
        exact hmove hrest hpointers hliterals hlive hneeds hother' (himmediate hother')
          (fun htype => ((hpending htype).inPlace hneeds).sameSlots hinv.same.symm)
          (fun _ hne => (hne hother).elim) fun hne => (hne hother).elim
  · -- the target has a constant, and the location has been flushed
    rw [not_or, not_not] at hguard
    have hflushed : (locationAt g.frame i).status = .flushed := by
      by_contra hlive
      exact hinv.live i hlive (hprepared.immediate i hguard.1 hguard.2)
    have hne : (locationAt g.frame i).status ≠ .changed := hflushed.trans_ne nofun
    exact .finish hprepared hrest hpointers (hmono hliterals) (fun htype _ => hmemory htype hne)
      (fun htype hother => hconstants _ i htype hother hguard.2) fun _ => hne

/-! ## The first two loops -/

theorem isTwoWordInFrames_skip (hprepared : Prepared c frame₀)
    (hsame : SameSlots frame₀ frame) (htwo : Gen.isTwoWordInFrames c frame i = true) :
    (locationAt frame₀ (i + 1)).type = .illegal := by
  unfold Gen.isTwoWordInFrames at htwo
  rw [Bool.or_eq_true, hsame.isTwoWordAt_eq] at htwo
  rcases htwo with htwo | htwo
  · exact hprepared.wellFormed.next_illegal htwo
  · by_contra htype
    have hother := hprepared.other.next_illegal (Bool.and_eq_true_iff.mp htwo).2
    exact htype ((hprepared.type_eq (i + 1) htype).symm.trans hother)

/-- The state of the first two loops. -/
structure Preparing (c : Context) (m₀ : Machine) (v : ℕ → Word) (frame₀ : List RawLocation)
    (K : ℕ → Prop) (g : Gen) : Prop where
  inv : Inv c m₀ v frame₀ K (fun _ => True) (fun _ => False) g.frame (g.machine m₀)
  pointers : Pointers c g
  hold : LiteralsHold m₀ g

theorem noConflict_of_not_hasRegisterConflict (hprepared : Prepared c frame₀)
    (hsame : SameSlots frame₀ g.frame) (htype : (locationAt frame₀ i).type ≠ .illegal)
    (h : ¬g.hasRegisterConflict c i = true) : NoConflict c g.frame i := by
  intro hneeds r k hr hk
  obtain ⟨-, hplace, hregister⟩ := usesRegister_iff.mp hr
  have hmapped : isMappingLocation c.other r = true :=
    (isMappingLocation_iff hprepared.other.toLayout).mpr ⟨k, hk⟩
  have hused : g.isUsedInOther c i = true := by
    unfold Gen.isUsedInOther
    rw [Bool.or_eq_true, Bool.and_eq_true]
    rcases hregister with rfl | ⟨htwo, rfl⟩
    · exact .inl hmapped
    · exact .inr ⟨htwo, hmapped⟩
  have hactions : (g.actionsAt c i).locStore = false → g.isRegisterIdenticalTo c i = true →
      k = i ∧ IsIdentical c g.frame i := by
    intro hstore hidentical
    have hidentical' := isRegisterIdenticalTo_iff.mp hidentical
    refine ⟨hprepared.unshared k i r hk ?_, hidentical'⟩
    have hother : (locationAt c.other i).status ≠ .flushed := by
      intro hother
      rcases hneeds with hchanged | hcached
      · rw [Gen.actionsAt, hchanged, hother] at hstore
        cases hstore
      · exact hcached.2 hother
    refine usesRegister_iff.mpr ⟨hother, hidentical'.1, ?_⟩
    rcases hregister with rfl | ⟨htwo, rfl⟩
    · exact .inl hidentical'.2.1.symm
    · refine .inr ⟨?_, (hidentical'.2.2 htwo).symm⟩
      rw [hprepared.isTwoWordAt_other htype, ← hsame.isTwoWordAt_eq]
      exact htwo
  have hneeded : ((g.actionsAt c i).regStore || (g.actionsAt c i).locStore) = true := by
    unfold Gen.actionsAt
    rcases hneeds with hchanged | ⟨hcached, hother⟩
    · rw [hchanged]
      cases (locationAt c.other i).status <;> rfl
    · rw [hcached]
      cases hstatus : (locationAt c.other i).status with
      | flushed => exact (hother hstatus).elim
      | cached => rfl
      | changed => rfl
  unfold Gen.hasRegisterConflict at h
  rw [hplace, hneeded, hused, Bool.true_and, Bool.true_and, beq_self_eq_true, Bool.true_and,
    Bool.or_eq_true, not_or, Bool.not_eq_true, Bool.not_eq_true', Bool.not_eq_false] at h
  exact hactions h.1 h.2

/-- **Step lemma**: the first loop flushes a location with a conflict. -/
theorem flushConflict_spec (hprepared : Prepared c frame₀) (hlt : i < frame₀.length)
    (h : Preparing c m₀ v frame₀ (· < i) g) :
    Preparing c m₀ v frame₀ (· < i + 1) (Gen.flushConflict c i g) ∧
      (Gen.flushConflict c i g).literals = g.literals ∧
      (Gen.flushConflict c i g).nextSpill = g.nextSpill ∧
      ∃ S, Flushes m₀ S g (Gen.flushConflict c i g) ∧
        ∀ j, S j → (locationAt frame₀ j).place = .register := by
  obtain ⟨hinv, hpointers, hhold⟩ := h
  unfold Gen.flushConflict
  split_ifs with hconflict
  · have hplace : (locationAt g.frame i).place = .register := by
      unfold Gen.hasRegisterConflict at hconflict
      exact beq_iff_eq.mp (Bool.and_eq_true_iff.mp hconflict).1
    have hplace₀ : (locationAt frame₀ i).place = .register := (hinv.same.slot i).place ▸ hplace
    have htype := hprepared.wellFormed.type_ne_of_place hplace₀ nofun
    have hflush : Flushes m₀ (· = i) g (g.flushRegisters i) :=
      flushRegisters_spec (hinv.same.length.symm ▸ hlt)
    have hinv' := hinv.flushes hprepared hflush (by rintro j rfl; exact ⟨htype, hplace₀⟩)
    refine ⟨⟨⟨hinv'.same, hinv'.live, hinv'.kept, fun j hj htype' => ?_, hinv'.pending,
      hinv'.done⟩, ⟨hflush.nextAllocate ▸ hpointers.1, hflush.nextSpill ▸ hpointers.2⟩,
      fun r hr => ?_⟩, flushRegisters_literals g i, hflush.nextSpill, _, hflush, ?_⟩
    · rcases Nat.lt_succ_iff_lt_or_eq.mp hj with hlt | rfl
      · exact hinv'.conflict j hlt htype'
      · exact fun hneeds => (needsPlace_ne_flushed hneeds (hflush.flushed j rfl)).elim
    · rw [flushRegisters_literals] at hr ⊢
      rw [hflush.regs]
      exact hhold r hr
    · rintro j rfl
      exact hplace₀
  · refine ⟨⟨⟨hinv.same, hinv.live, hinv.kept, fun j hj htype => ?_, hinv.pending, hinv.done⟩,
      hpointers, hhold⟩, rfl, rfl, fun _ => False, .refl fun j => id, fun j hj => hj.elim⟩
    rcases Nat.lt_succ_iff_lt_or_eq.mp hj with hlt | rfl
    · exact hinv.conflict j hlt htype
    · exact noConflict_of_not_hasRegisterConflict hprepared hinv.same htype hconflict

/-- **Step lemma**: the second loop stores an immediate that goes to memory. -/
theorem storeFlushed_spec (hprepared : Prepared c frame₀) (hlt : i < frame₀.length)
    (h : Preparing c m₀ v frame₀ (fun _ => True) g) :
    Preparing c m₀ v frame₀ (fun _ => True) (Gen.storeFlushed c i g) ∧
      (SafeLiterals c m₀ (fun _ => False) g →
        SafeLiterals c m₀ (fun _ => False) (Gen.storeFlushed c i g)) ∧
      ∀ j, (locationAt frame₀ j).place = .immediate →
        ((j = i → (locationAt c.other i).status = .flushed →
            (locationAt (Gen.storeFlushed c i g).frame i).status ≠ .changed) ∧
          (j ≠ i → (locationAt (Gen.storeFlushed c i g).frame j).status =
            (locationAt g.frame j).status)) := by
  have hstay : ((locationAt c.other i).status = .flushed →
      (locationAt frame₀ i).place = .immediate → (locationAt g.frame i).status ≠ .changed) →
      Preparing c m₀ v frame₀ (fun _ => True) g ∧
      (SafeLiterals c m₀ (fun _ => False) g → SafeLiterals c m₀ (fun _ => False) g) ∧
      ∀ j, (locationAt frame₀ j).place = .immediate →
        ((j = i → (locationAt c.other i).status = .flushed →
            (locationAt g.frame i).status ≠ .changed) ∧
          (j ≠ i → (locationAt g.frame j).status = (locationAt g.frame j).status)) :=
    fun hne => ⟨h, id, fun j hj => ⟨fun heq hother => hne hother (heq ▸ hj), fun _ => rfl⟩⟩
  obtain ⟨hinv, hpointers, hhold⟩ := h
  unfold Gen.storeFlushed
  split_ifs with hguard
  · obtain ⟨hother, hplace⟩ := hguard
    have hplace₀ : (locationAt frame₀ i).place = .immediate := (hinv.same.slot i).place ▸ hplace
    have hconform : g.conformTo c i =
        if (locationAt g.frame i).status = .changed then g.writeChanges c i else g := by
      unfold Gen.conformTo Gen.actionsAt
      rw [hother]
      cases (locationAt g.frame i).status <;> rfl
    rw [hconform]
    by_cases hstatus : (locationAt g.frame i).status = .changed
    · rw [if_pos hstatus]
      have hrest : Inv c m₀ v frame₀ (· ≠ i) (· ≠ i) (fun _ => False) g.frame (g.machine m₀) :=
        hinv.mono (fun _ _ => trivial) (fun _ _ => trivial) fun _ => id
      obtain ⟨hinv', hwrites⟩ := writeChanges_spec hprepared hrest hpointers hlt (fun h => h rfl)
        (fun h => h rfl) id hstatus (hother.trans_ne nofun) (hinv.pending i trivial)
        fun _ => .inr ⟨hhold, fun _ => id⟩
      refine ⟨⟨⟨hinv'.same, hinv'.live, hinv'.kept, fun j _ htype => ?_, fun j _ htype => ?_,
        hinv'.done⟩, hwrites.pointers, hwrites.hold hhold⟩, hwrites.safe, fun j hj => ⟨?_, ?_⟩⟩
      · by_cases hji : j = i
        · subst hji
          intro _ r k hr
          have hplace' := (usesRegister_iff.mp hr).2.1
          rw [(hinv'.same.slot j).place, hplace₀] at hplace'
          cases hplace'
        · exact hinv'.conflict j hji htype
      · by_cases hji : j = i
        · subst hji
          refine ⟨fun _ => (hwrites.inMemory htype).congr (fun s => hinv'.same.isSlotOf_iff.mp)
            fun _ _ => rfl, fun _ => (hwrites.inPlace htype).sameSlots hinv'.same⟩
        · exact hinv'.pending j hji htype
      · rintro - -
        rw [hwrites.status]
        exact nofun
      · exact fun hji => hwrites.immediates j hji hj
    · rw [if_neg hstatus]
      exact hstay fun _ _ => hstatus
  · refine hstay fun hother hplace => (hguard ⟨hother, ?_⟩).elim
    exact (hinv.same.slot i).place.trans hplace

end CldcVm.Merge
