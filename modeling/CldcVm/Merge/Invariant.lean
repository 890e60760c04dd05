import CldcVm.Merge.Effects

/-!
# The invariant of a merge

Where the values of the locations are: those that are still to be conformed are where
the source frame says, those that have been conformed are where the target frame says.

Results: `Inv.setReg`, `Inv.setMem`, `Inv.setStatus`: what the
operations of the code generator keep.
-/

namespace CldcVm.Merge

variable {c : Context} {m₀ m : Machine} {v : ℕ → Word} {frame₀ frame : List RawLocation}
variable {K U D : ℕ → Prop} {i reg : ℕ}

/-! ## Values -/

/-- The words of the value are in the memory of the location. -/
def InMemory (frame : List RawLocation) (v : ℕ → Word) (m : Machine) (j : ℕ) : Prop :=
  ∀ s, IsSlotOf frame j s → m.mem s = v s

/-- The words of the value are in the registers of the location, or it is immediate. -/
def InPlace (frame : List RawLocation) (v : ℕ → Word) (m : Machine) (j : ℕ) : Prop :=
  match (locationAt frame j).place with
  | .nowhere => False
  | .register => m.regs (locationAt frame j).getRegister = v j ∧
      (isTwoWordAt frame j = true → m.regs (locationAt frame (j + 1)).getRegister = v (j + 1))
  | .immediate => (locationAt frame j).value = v j ∧
      (isTwoWordAt frame j = true → (locationAt frame (j + 1)).value = v (j + 1))

/-- The value is where the frame says. -/
def Holds (frame : List RawLocation) (v : ℕ → Word) (m : Machine) (j : ℕ) : Prop :=
  match (locationAt frame j).status with
  | .flushed => InMemory frame v m j
  | .cached => InMemory frame v m j ∧ InPlace frame v m j
  | .changed => InPlace frame v m j

/-- The contents of the registers and of the memory are consistent with the frame. -/
def Consistent (frame : List RawLocation) (v : ℕ → Word) (m : Machine) : Prop :=
  ∀ j, (locationAt frame j).type ≠ .illegal → Holds frame v m j

/-- The merge reads the value from its registers. -/
def NeedsPlace (c : Context) (frame : List RawLocation) (j : ℕ) : Prop :=
  (locationAt frame j).status = .changed ∨
    (locationAt frame j).status = .cached ∧ (locationAt c.other j).status ≠ .flushed

/-- The value of a location that is still to be conformed. -/
structure Pending (c : Context) (v : ℕ → Word) (frame : List RawLocation) (m : Machine) (j : ℕ) :
    Prop where
  inMemory : (locationAt frame j).status ≠ .changed → InMemory frame v m j
  inPlace : NeedsPlace c frame j → InPlace frame v m j

/-- The value of a location that has been conformed. -/
structure Done (c : Context) (v : ℕ → Word) (frame : List RawLocation) (m : Machine) (j : ℕ) :
    Prop where
  holds : Holds c.other v m j
  written : (locationAt c.other j).status ≠ .changed → (locationAt frame j).status ≠ .changed

/-- The location is in the same registers in both frames. -/
def IsIdentical (c : Context) (frame : List RawLocation) (j : ℕ) : Prop :=
  (locationAt c.other j).place = .register ∧
    (locationAt frame j).getRegister = (locationAt c.other j).getRegister ∧
    (isTwoWordAt frame j = true →
      (locationAt frame (j + 1)).getRegister = (locationAt c.other (j + 1)).getRegister)

/-- The registers that the merge reads are not those of the target, unless the location is
in the same registers there. -/
def NoConflict (c : Context) (frame : List RawLocation) (j : ℕ) : Prop :=
  NeedsPlace c frame j → ∀ r k, usesRegister frame j r = true → usesRegister c.other k r = true →
    k = j ∧ IsIdentical c frame j

/-! ## Frames -/

/-- The frames after the prologue. -/
structure Prepared (c : Context) (frame₀ : List RawLocation) : Prop where
  wellFormed : WellFormed c.order frame₀
  other : WellFormed c.order c.other
  length_eq : c.other.length = frame₀.length
  type_eq : ∀ i, (locationAt frame₀ i).type ≠ .illegal →
    (locationAt c.other i).type = (locationAt frame₀ i).type
  unshared : ∀ i j r, usesRegister c.other i r = true → usesRegister c.other j r = true → i = j
  distinct : ∀ i, (locationAt c.other i).status ≠ .flushed →
    (locationAt c.other i).place = .register → isTwoWordAt c.other i = true →
    (locationAt c.other i).getRegister ≠ (locationAt c.other (i + 1)).getRegister
  immediate : ∀ i, (locationAt c.other i).status ≠ .flushed →
    (locationAt c.other i).place = .immediate → (locationAt frame₀ i).status = .flushed

theorem Prepared.isTwoWordAt_other (h : Prepared c frame₀)
    (hi : (locationAt frame₀ i).type ≠ .illegal) :
    isTwoWordAt c.other i = isTwoWordAt frame₀ i := by
  rw [isTwoWordAt, isTwoWordAt, h.type_eq i hi]

theorem Prepared.isSlotOf_other (h : Prepared c frame₀)
    (hi : (locationAt frame₀ i).type ≠ .illegal) {s : ℕ} :
    IsSlotOf c.other i s ↔ IsSlotOf frame₀ i s := by
  rw [IsSlotOf, IsSlotOf, h.isTwoWordAt_other hi]

/-! ## The invariant -/

/-- The invariant: `K` are the locations without conflicts, `U` those that are still to be
conformed, `D` those that have been conformed. -/
structure Inv (c : Context) (m₀ : Machine) (v : ℕ → Word) (frame₀ : List RawLocation)
    (K U D : ℕ → Prop) (frame : List RawLocation) (m : Machine) : Prop where
  same : SameSlots frame₀ frame
  live : ∀ j, (locationAt frame j).status ≠ .flushed → (locationAt frame₀ j).status ≠ .flushed
  kept : ∀ r, r ∉ c.order → m.regs r = m₀.regs r
  conflict : ∀ j, K j → (locationAt frame₀ j).type ≠ .illegal → NoConflict c frame j
  pending : ∀ j, U j → (locationAt frame₀ j).type ≠ .illegal → Pending c v frame m j
  done : ∀ j, D j → (locationAt frame₀ j).type ≠ .illegal → Done c v frame m j

theorem Inv.mono {K' U' D' : ℕ → Prop} (h : Inv c m₀ v frame₀ K U D frame m)
    (hK : ∀ j, K' j → K j) (hU : ∀ j, U' j → U j) (hD : ∀ j, D' j → D j) :
    Inv c m₀ v frame₀ K' U' D' frame m :=
  ⟨h.same, h.live, h.kept, fun j hj => h.conflict j (hK j hj), fun j hj => h.pending j (hU j hj),
    fun j hj => h.done j (hD j hj)⟩

theorem InMemory.congr {m' : Machine} {frame' : List RawLocation} (h : InMemory frame v m i)
    (hslots : ∀ s, IsSlotOf frame' i s → IsSlotOf frame i s)
    (hmem : ∀ s, IsSlotOf frame i s → m'.mem s = m.mem s) : InMemory frame' v m' i :=
  fun s hs => (hmem s (hslots s hs)).trans (h s (hslots s hs))

theorem InPlace.congr {m' : Machine} (h : InPlace frame v m i)
    (hregs : (locationAt frame i).place = .register →
      m'.regs (locationAt frame i).getRegister = m.regs (locationAt frame i).getRegister ∧
        (isTwoWordAt frame i = true → m'.regs (locationAt frame (i + 1)).getRegister =
          m.regs (locationAt frame (i + 1)).getRegister)) : InPlace frame v m' i := by
  unfold InPlace at h ⊢
  cases hplace : (locationAt frame i).place with
  | nowhere =>
    rw [hplace] at h
    exact h
  | register =>
    rw [hplace] at h
    obtain ⟨hlo, hhi⟩ := hregs hplace
    exact ⟨hlo.trans h.1, fun htwo => (hhi htwo).trans (h.2 htwo)⟩
  | immediate =>
    rw [hplace] at h
    exact h

theorem InPlace.sameSlots {frame' : List RawLocation} (h : InPlace frame v m i)
    (hsame : SameSlots frame frame') : InPlace frame' v m i := by
  unfold InPlace at h ⊢
  rw [(hsame.slot i).place, hsame.getRegister_eq, hsame.getRegister_eq, hsame.isTwoWordAt_eq,
    (hsame.slot i).value, (hsame.slot (i + 1)).value]
  exact h

theorem Holds.congr {m' : Machine} (h : Holds frame v m i)
    (hmem : (locationAt frame i).status ≠ .changed → ∀ s, IsSlotOf frame i s → m'.mem s = m.mem s)
    (hregs : ∀ r, usesRegister frame i r = true → m'.regs r = m.regs r) : Holds frame v m' i := by
  have hplace : (locationAt frame i).status ≠ .flushed → InPlace frame v m i →
      InPlace frame v m' i := by
    intro hstatus hin
    refine hin.congr fun hregister => ⟨hregs _ ?_, fun htwo => hregs _ ?_⟩
    · exact usesRegister_iff.mpr ⟨hstatus, hregister, .inl rfl⟩
    · exact usesRegister_iff.mpr ⟨hstatus, hregister, .inr ⟨htwo, rfl⟩⟩
  unfold Holds at h ⊢
  cases hstatus : (locationAt frame i).status with
  | flushed =>
    rw [hstatus] at h hmem
    exact h.congr (fun _ => id) (hmem nofun)
  | cached =>
    rw [hstatus] at h hmem hplace
    exact ⟨h.1.congr (fun _ => id) (hmem nofun), hplace nofun h.2⟩
  | changed =>
    rw [hstatus] at h hplace
    exact hplace nofun h

theorem needsPlace_ne_flushed (h : NeedsPlace c frame i) :
    (locationAt frame i).status ≠ .flushed := by
  rcases h with h | h
  · rw [h]
    exact nofun
  · rw [h.1]
    exact nofun

/-- **Step lemma**: a register may be changed that no location needs. -/
theorem Inv.setReg (h : Inv c m₀ v frame₀ K U D frame m) {w : Word} (horder : reg ∈ c.order)
    (hU : ∀ j, U j → (locationAt frame₀ j).type ≠ .illegal → NeedsPlace c frame j →
      usesRegister frame j reg = false) (hD : ∀ j, D j → usesRegister c.other j reg = false) :
    Inv c m₀ v frame₀ K U D frame (m.setReg reg w) := by
  have hne : ∀ {r}, r ≠ reg → (m.setReg reg w).regs r = m.regs r :=
    fun hr => Function.update_of_ne hr _ _
  refine ⟨h.same, h.live, fun r hr => ?_, h.conflict, fun j hj htype => ?_, fun j hj htype => ?_⟩
  · have hreg : r ≠ reg := fun heq => hr (heq.symm ▸ horder)
    exact (hne hreg).trans (h.kept r hr)
  · obtain ⟨hmem, hplace⟩ := h.pending j hj htype
    refine ⟨hmem, fun hneeds => (hplace hneeds).congr fun hregister => ?_⟩
    have hunused := hU j hj htype hneeds
    rw [Bool.eq_false_iff, Ne, usesRegister_iff] at hunused
    have hstatus := needsPlace_ne_flushed hneeds
    refine ⟨hne fun heq => hunused ⟨hstatus, hregister, .inl heq⟩, fun htwo => hne fun heq => ?_⟩
    exact hunused ⟨hstatus, hregister, .inr ⟨htwo, heq⟩⟩
  · obtain ⟨hholds, hwritten⟩ := h.done j hj htype
    refine ⟨hholds.congr (fun _ _ _ => rfl) fun r hr => hne fun heq => ?_, hwritten⟩
    rw [heq, hD j hj] at hr
    cases hr

/-- **Step lemma**: a slot may be changed that belongs to none of the locations. -/
theorem Inv.setMem (hprepared : Prepared c frame₀) (h : Inv c m₀ v frame₀ K U D frame m) {s : ℕ}
    {w : Word} (hs : ∀ j, U j ∨ D j → (locationAt frame₀ j).type ≠ .illegal →
      ¬IsSlotOf frame₀ j s) : Inv c m₀ v frame₀ K U D frame (m.setMem s w) := by
  have hne : ∀ {s'}, s' ≠ s → (m.setMem s w).mem s' = m.mem s' :=
    fun hs' => Function.update_of_ne hs' _ _
  refine ⟨h.same, h.live, h.kept, h.conflict, fun j hj htype => ?_, fun j hj htype => ?_⟩
  · obtain ⟨hmem, hplace⟩ := h.pending j hj htype
    refine ⟨fun hstatus => (hmem hstatus).congr (fun _ => id) fun s' hs' => hne ?_, fun hneeds =>
      (hplace hneeds).congr fun _ => ⟨rfl, fun _ => rfl⟩⟩
    rintro rfl
    exact hs j (.inl hj) htype (h.same.isSlotOf_iff.mp hs')
  · obtain ⟨hholds, hwritten⟩ := h.done j hj htype
    refine ⟨hholds.congr (fun _ s' hs' => hne ?_) fun _ _ => rfl, hwritten⟩
    rintro rfl
    exact hs j (.inr hj) htype ((hprepared.isSlotOf_other htype).mp hs')

/-- **Step lemma**: the status of a location outside the sets may be changed. -/
theorem Inv.setStatus (h : Inv c m₀ v frame₀ K U D frame m) {status : Status} (hK : ¬K i)
    (hU : ¬U i) (hD : ¬D i) (hlive : status ≠ .flushed → (locationAt frame i).status ≠ .flushed) :
    Inv c m₀ v frame₀ K U D (Merge.setStatus frame i status) m := by
  have hsame := sameSlots_setStatus frame i status
  have hstatus : ∀ {j}, j ≠ i → (locationAt (Merge.setStatus frame i status) j).status =
      (locationAt frame j).status := fun hj => congrArg _ (locationAt_setStatus_of_ne hj.symm _)
  have hneeds : ∀ {j}, j ≠ i → NeedsPlace c (Merge.setStatus frame i status) j →
      NeedsPlace c frame j := by
    intro j hj hneeds
    unfold NeedsPlace at hneeds
    rwa [hstatus hj] at hneeds
  refine ⟨h.same.trans hsame, fun j hj => ?_, h.kept, fun j hj htype => ?_, fun j hj htype => ?_,
    fun j hj htype => ?_⟩
  · by_cases hji : j = i
    · subst hji
      rw [locationAt_setStatus] at hj
      split_ifs at hj
      · exact h.live j (hlive hj)
      · exact h.live j hj
    · rw [hstatus hji] at hj
      exact h.live j hj
  · have hji : j ≠ i := fun heq => hK (heq ▸ hj)
    intro hneed r k hr hk
    rw [usesRegister_of_status_eq hsame (hstatus hji)] at hr
    obtain ⟨hkj, hidentical⟩ := h.conflict j hj htype (hneeds hji hneed) r k hr hk
    refine ⟨hkj, hidentical.1, ?_, ?_⟩
    · rw [hsame.getRegister_eq]
      exact hidentical.2.1
    · rw [hsame.getRegister_eq, hsame.isTwoWordAt_eq]
      exact hidentical.2.2
  · have hji : j ≠ i := fun heq => hU (heq ▸ hj)
    obtain ⟨hmem, hplace⟩ := h.pending j hj htype
    refine ⟨fun hchanged => ?_, fun hneed => (hplace (hneeds hji hneed)).sameSlots hsame⟩
    rw [hstatus hji] at hchanged
    exact (hmem hchanged).congr (fun s => hsame.isSlotOf_iff.mp) fun _ _ => rfl
  · have hji : j ≠ i := fun heq => hD (heq ▸ hj)
    obtain ⟨hholds, hwritten⟩ := h.done j hj htype
    refine ⟨hholds, fun hother => ?_⟩
    rw [hstatus hji]
    exact hwritten hother

/-- **Step lemma**: locations in registers may be flushed. -/
theorem Inv.flushes (hprepared : Prepared c frame₀) {g g' : Gen} {S : ℕ → Prop}
    (h : Inv c m₀ v frame₀ K U D g.frame (g.machine m₀)) (hflush : Flushes m₀ S g g')
    (hS : ∀ j, S j → (locationAt frame₀ j).type ≠ .illegal ∧
      (locationAt frame₀ j).place = .register) :
    Inv c m₀ v frame₀ K U D g'.frame (g'.machine m₀) := by
  have hlayout := hprepared.wellFormed.toLayout
  have hneeds : ∀ {j}, ¬S j → NeedsPlace c g'.frame j → NeedsPlace c g.frame j := by
    intro j hj hneeds
    unfold NeedsPlace at hneeds
    rwa [hflush.kept j hj] at hneeds
  have hnotS : ∀ {j}, NeedsPlace c g'.frame j → ¬S j :=
    fun hneed hj => needsPlace_ne_flushed hneed (hflush.flushed _ hj)
  -- the slots of a location that has not been changed are not written
  have hmem : ∀ j, (locationAt frame₀ j).type ≠ .illegal →
      (locationAt g.frame j).status ≠ .changed → ∀ s, IsSlotOf frame₀ j s →
      (g'.machine m₀).mem s = (g.machine m₀).mem s := by
    intro j htype hstatus s hs
    refine hflush.mem s fun k hk hchanged hslot => ?_
    obtain rfl := hlayout.slots_disjoint htype (hS k hk).1 hs (h.same.isSlotOf_iff.mp hslot)
    exact hstatus hchanged
  refine ⟨h.same.trans hflush.same, fun j hj => ?_, fun r hr => ?_, fun j hj htype => ?_,
    fun j hj htype => ?_, fun j hj htype => ?_⟩
  · by_cases hSj : S j
    · exact (hj (hflush.flushed j hSj)).elim
    · rw [hflush.kept j hSj] at hj
      exact h.live j hj
  · rw [hflush.regs]
    exact h.kept r hr
  · intro hneed r k hr hk
    have hSj := hnotS hneed
    rw [usesRegister_of_status_eq hflush.same (hflush.kept j hSj)] at hr
    obtain ⟨hkj, hidentical⟩ := h.conflict j hj htype (hneeds hSj hneed) r k hr hk
    refine ⟨hkj, hidentical.1, ?_, ?_⟩
    · rw [hflush.same.getRegister_eq]
      exact hidentical.2.1
    · rw [hflush.same.getRegister_eq, hflush.same.isTwoWordAt_eq]
      exact hidentical.2.2
  · obtain ⟨hinMemory, hinPlace⟩ := h.pending j hj htype
    refine ⟨fun hstatus' => ?_, fun hneed => ?_⟩
    · by_cases hchanged : (locationAt g.frame j).status = .changed
      · have hSj : S j := by
          by_contra hSj
          rw [hflush.kept j hSj] at hstatus'
          exact hstatus' hchanged
        -- the location has just been written back from its registers
        obtain ⟨hlo, hhi⟩ := hflush.written j hSj hchanged
        have hplace := hinPlace (.inl hchanged)
        unfold InPlace at hplace
        rw [(h.same.slot j).place, (hS j hSj).2] at hplace
        rintro s hs
        rcases hs with rfl | ⟨htwo, rfl⟩
        · exact hlo.trans hplace.1
        · rw [hflush.same.isTwoWordAt_eq] at htwo
          exact (hhi htwo).trans (hplace.2 htwo)
      · refine (hinMemory hchanged).congr (fun s => hflush.same.isSlotOf_iff.mp) fun s hs => ?_
        exact hmem j htype hchanged s (h.same.isSlotOf_iff.mp hs)
    · have hplace := (hinPlace (hneeds (hnotS hneed) hneed)).sameSlots hflush.same
      exact hplace.congr fun _ => ⟨congrFun hflush.regs _, fun _ => congrFun hflush.regs _⟩
  · obtain ⟨hholds, hwritten⟩ := h.done j hj htype
    refine ⟨hholds.congr (fun hother s hs => ?_) fun r _ => congrFun hflush.regs r, fun hother => ?_⟩
    · exact hmem j htype (hwritten hother) s ((hprepared.isSlotOf_other htype).mp hs)
    · by_cases hSj : S j
      · rw [hflush.flushed j hSj]
        exact nofun
      · rw [hflush.kept j hSj]
        exact hwritten hother

end CldcVm.Merge
