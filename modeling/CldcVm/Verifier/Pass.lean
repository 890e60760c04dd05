import CldcVm.Verifier.Forget
import CldcVm.Verifier.Reachable

/-!
# The pass over an accepted method

The verifier goes through the code once. `Pass n bci f` says that its `n`th
instruction is the one at `bci` and that `f` is the frame before the prolog;
`FrameAt bci f` says that `f` is the frame after the prolog, with which the
instruction is verified.

Results, for an accepted method:
* `checkExceptionHandlersForBci_intact`: the check of the exception handlers leaves the frame
  as it was, for any method.
-/

namespace CldcVm.Verifier

open Lib Comp

variable {env : ClassEnv} {m : Method} {cache : FrameCache}

/-- The `n`th instruction of the pass is at `bci`, and the frame before its prolog
is `f`. -/
inductive Pass (env : ClassEnv) (m : Method) (cache : FrameCache) : ℕ → ℕ → VerifierFrame → Prop
  | start {f : VerifierFrame} :
      initializeLocals m (initialFrame cache) = .ok ((), f) → Pass env m cache 0 0 f
  | next {n bci : ℕ} {f f' : VerifierFrame} :
      Pass env m cache n bci f → bci < m.code.length →
      verifyBytecode env m bci f = .ok ((), f') →
      Pass env m cache (n + 1) (bci + (m.bytecodeLengthFor bci).toNat) f'

/-- The frame with which the instruction at `bci` is verified. -/
def FrameAt (env : ClassEnv) (m : Method) (cache : FrameCache) (bci : ℕ) (f : VerifierFrame) :
    Prop :=
  ∃ n f₀, Pass env m cache n bci f₀ ∧ bci < m.code.length ∧
    bytecodeProlog env m bci f₀ = .ok ((), f)

/-! ## Instruction starts -/

/-- `bci` is an instruction start that `GetInstructionStarts::run` finds. -/
def IsInstructionStart (m : Method) (bci : ℕ) : Prop :=
  ∃ starts, instructionStarts m m.code.length 0 = .ok starts ∧ bci ∈ starts

variable {bci : ℕ}

theorem instructionStarts_ok {fuel : ℕ} {starts : List ℕ}
    (h : instructionStarts m fuel bci = .ok starts) : (bci ∈ starts ∨ bci = m.code.length) ∧
      ∀ b ∈ starts, b < m.code.length ∧ 0 < m.bytecodeLengthFor b ∧
        (b + (m.bytecodeLengthFor b).toNat ∈ starts ∨
          b + (m.bytecodeLengthFor b).toNat = m.code.length) := by
  induction fuel generalizing bci starts with
  | zero =>
    unfold instructionStarts at h
    split_ifs at h with hend
    cases h
    exact ⟨.inr hend, fun b hb => absurd hb List.not_mem_nil⟩
  | succ fuel ih =>
    unfold instructionStarts at h
    split_ifs at h with hlt hpos hend
    · split at h
      · cases h
      · rename_i rest hrest
        cases h
        obtain ⟨hnext, hall⟩ := ih hrest
        refine ⟨.inl List.mem_cons_self, fun b hb => ?_⟩
        rcases List.mem_cons.mp hb with rfl | hb
        · exact ⟨hlt, Int.not_le.mp hpos, hnext.imp_left (List.mem_cons_of_mem _)⟩
        · obtain ⟨h1, h2, h3⟩ := hall b hb
          exact ⟨h1, h2, h3.imp_left (List.mem_cons_of_mem _)⟩
    · cases h
      exact ⟨.inr hend, fun b hb => absurd hb List.not_mem_nil⟩

theorem Accepted.checked (h : Accepted env m cache) : checkMethod env m = .ok () := by
  unfold Accepted verify at h
  split at h
  · cases h
  · assumption

theorem Accepted.starts (h : Accepted env m cache) :
    ∃ starts, instructionStarts m m.code.length 0 = .ok starts := by
  have hm := h.checked
  unfold checkMethod at hm
  split_ifs at hm
  rcases hs : instructionStarts m m.code.length 0 with e | starts
  · rw [hs] at hm
    cases hm
  · exact ⟨starts, rfl⟩

theorem Accepted.verified (h : Accepted env m cache) :
    ∃ f, verifyCode env m (initialFrame cache) = .ok ((), f) := by
  have hm := h.checked
  unfold Accepted verify at h
  rw [hm] at h
  rcases hv : verifyCode env m (initialFrame cache) with e | ⟨_, f⟩
  · rw [hv] at h
    cases h
  · exact ⟨f, rfl⟩

variable {n : ℕ} {f f' : VerifierFrame}

namespace Pass

theorem isInstructionStart (hacc : Accepted env m cache)
    (h : Pass env m cache n bci f) (hlt : bci < m.code.length) : IsInstructionStart m bci := by
  obtain ⟨starts, hstarts⟩ := hacc.starts
  obtain ⟨hzero, hall⟩ := instructionStarts_ok hstarts
  refine ⟨starts, hstarts, ?_⟩
  have hmem : bci ∈ starts ∨ bci = m.code.length := by
    induction h with
    | start _ => exact hzero
    | next _ hlt' _ ih =>
      rcases ih hlt' with hb | hb
      · exact (hall _ hb).2.2
      · omega
  exact hmem.resolve_right hlt.ne

theorem length_pos (hacc : Accepted env m cache)
    (h : Pass env m cache n bci f) (hlt : bci < m.code.length) :
    0 < (m.bytecodeLengthFor bci).toNat := by
  obtain ⟨starts, hstarts, hmem⟩ := h.isInstructionStart hacc hlt
  have := ((instructionStarts_ok hstarts).2 bci hmem).2.1
  omega

theorem functional {bci' : ℕ} (h : Pass env m cache n bci f)
    (h' : Pass env m cache n bci' f') : bci = bci' ∧ f = f' := by
  induction h generalizing bci' f' with
  | start hinit =>
    cases h' with
    | start hinit' =>
      rw [hinit] at hinit'
      cases hinit'
      exact ⟨rfl, rfl⟩
  | next _ _ hv ih =>
    cases h' with
    | next hprev _ hv' =>
      obtain ⟨rfl, rfl⟩ := ih hprev
      rw [hv] at hv'
      cases hv'
      exact ⟨rfl, rfl⟩

theorem lt_of_lt {n' bci' : ℕ} (hacc : Accepted env m cache)
    (h : Pass env m cache n bci f) (h' : Pass env m cache n' bci' f') (hn : n < n') :
    bci < bci' := by
  induction h' with
  | start _ => omega
  | @next n₁ bci₁ f₁ _ hprev hlt _ ih =>
    have hpos := hprev.length_pos hacc hlt
    rcases Nat.lt_succ_iff_lt_or_eq.mp hn with hn | rfl
    · have := ih hn
      omega
    · obtain ⟨rfl, -⟩ := h.functional hprev
      omega

/-- There is one frame at a `bci`. -/
theorem unique {n' : ℕ} (hacc : Accepted env m cache)
    (h : Pass env m cache n bci f) (h' : Pass env m cache n' bci f') : f = f' := by
  rcases Nat.lt_trichotomy n n' with hn | rfl | hn
  · exact absurd (h.lt_of_lt hacc h' hn) (Nat.lt_irrefl _)
  · exact (h.functional h').2
  · exact absurd (h'.lt_of_lt hacc h hn) (Nat.lt_irrefl _)

theorem rest_ok (hacc : Accepted env m cache) (h : Pass env m cache n bci f) :
    ∃ fuel f', (do iterateFrom env m fuel bci; checkEnd m : Vfy Unit) f = .ok ((), f') := by
  induction h with
  | start hinit =>
    obtain ⟨f', hv⟩ := hacc.verified
    obtain ⟨_, f₁, h1, h2⟩ := bind_eq_ok.mp hv
    rw [hinit] at h1
    cases h1
    exact ⟨_, f', h2⟩
  | next _ hlt hv ih =>
    obtain ⟨fuel, f', hrest⟩ := ih
    obtain ⟨_, f₁, hiter, hend⟩ := bind_eq_ok.mp hrest
    cases fuel with
    | zero =>
      unfold iterateFrom at hiter
      rw [if_neg hlt.ne] at hiter
      cases hiter
    | succ fuel =>
      unfold iterateFrom at hiter
      rw [if_pos hlt] at hiter
      obtain ⟨_, f₂, h1, h2⟩ := bind_eq_ok.mp hiter
      rw [hv] at h1
      cases h1
      exact ⟨fuel, f', bind_eq_ok.mpr ⟨(), f₁, h2, hend⟩⟩

/-- An instruction of the pass is accepted; after the last one the pass is
complete, and that one did not fall through. -/
theorem verified (hacc : Accepted env m cache) (h : Pass env m cache n bci f) :
    (bci < m.code.length ∧ ∃ f', verifyBytecode env m bci f = .ok ((), f')) ∨
      (bci = m.code.length ∧ f.noControlFlow = true) := by
  obtain ⟨fuel, f', hrest⟩ := h.rest_ok hacc
  obtain ⟨_, f₁, hiter, hend⟩ := bind_eq_ok.mp hrest
  have hend' : ∀ f₂, iterateFrom env m fuel bci f = .ok ((), f₂) → f₂ = f →
      f.noControlFlow = true := by
    intro f₂ h1 h2
    rw [hiter] at h1
    cases h1
    subst h2
    unfold checkEnd at hend
    rw [get_bind_apply] at hend
    split_ifs at hend with h3 h4
    · cases hend
    · cases hend
    · exact (Bool.not_eq_false _).mp h4
  cases fuel with
  | zero =>
    have hcopy := hiter
    unfold iterateFrom at hiter
    split_ifs at hiter with hb
    · cases hiter
      exact .inr ⟨hb, hend' _ hcopy rfl⟩
    · cases hiter
  | succ fuel =>
    have hcopy := hiter
    unfold iterateFrom at hiter
    split_ifs at hiter with hlt hgt
    · obtain ⟨_, f₂, h1, -⟩ := bind_eq_ok.mp hiter
      exact .inl ⟨hlt, f₂, h1⟩
    · cases hiter
    · cases hiter
      exact .inr ⟨by omega, hend' _ hcopy rfl⟩

theorem consistent (h : Pass env m cache n bci f) : Consistent m f := by
  induction h with
  | start hinit => exact ⟨0, initializeLocals_triple.ok ⟨rfl, rfl⟩ hinit⟩
  | @next _ bci _ _ _ _ hv ih =>
    exact (((keepsConsistent_bytecodeProlog bci).bind fun _ _ => keepsConsistent_of_safe fun _ =>
      safe_exec bci (kindsFit_iterateBytecode m bci)).ok ih hv).2

theorem reaches_end (hacc : Accepted env m cache) :
    ∃ n f, Pass env m cache n m.code.length f ∧ f.currentStackmapIndex = m.stackmaps.length := by
  have hiterate : ∀ fuel n bci f f', Pass env m cache n bci f →
      iterateFrom env m fuel bci f = .ok ((), f') →
      ∃ n', Pass env m cache n' m.code.length f' := by
    intro fuel
    induction fuel with
    | zero =>
      intro n bci f f' hp hx
      unfold iterateFrom at hx
      split_ifs at hx with hb
      · cases hx
        exact ⟨n, hb ▸ hp⟩
      · cases hx
    | succ fuel ih =>
      intro n bci f f' hp hx
      have hcases := hp.verified hacc
      unfold iterateFrom at hx
      split_ifs at hx with hlt hgt
      · obtain ⟨_, f₁, h1, h2⟩ := bind_eq_ok.mp hx
        exact ih _ _ _ _ (.next hp hlt h1) h2
      · cases hx
      · cases hx
        rcases hcases with ⟨hlt', -⟩ | ⟨hb, -⟩
        · exact absurd hlt' hlt
        · exact ⟨n, hb ▸ hp⟩
  obtain ⟨f', hv⟩ := hacc.verified
  obtain ⟨_, f₁, hinit, hrest⟩ := bind_eq_ok.mp hv
  obtain ⟨_, f₂, hiter, hend⟩ := bind_eq_ok.mp hrest
  obtain ⟨n, hp⟩ := hiterate _ _ _ _ _ (.start hinit) hiter
  refine ⟨n, f₂, hp, ?_⟩
  unfold checkEnd at hend
  rw [get_bind_apply] at hend
  split_ifs at hend with h1 h2
  · cases hend
  · cases hend
  · exact not_not.mp h1

end Pass

theorem FrameAt.unique (hacc : Accepted env m cache)
    (h : FrameAt env m cache bci f) (h' : FrameAt env m cache bci f') : f = f' := by
  obtain ⟨n, f₀, hp, -, hx⟩ := h
  obtain ⟨n', f₀', hp', -, hx'⟩ := h'
  rw [hp.unique hacc hp', hx'] at hx
  cases hx
  rfl

/-! ## The prolog -/

/-- Two frames with the same live slots and flags; only what `save_stack_state`
keeps may differ. -/
def Saved (f f' : VerifierFrame) : Prop :=
  ∃ sp slot, f' = { f with savedStackPointer := sp, saved0 := slot }

theorem Saved.refl (f : VerifierFrame) : Saved f f := ⟨f.savedStackPointer, f.saved0, rfl⟩

theorem Saved.trans {f'' : VerifierFrame} (h : Saved f f') (h' : Saved f' f'') : Saved f f'' := by
  obtain ⟨sp, slot, rfl⟩ := h
  obtain ⟨sp', slot', rfl⟩ := h'
  exact ⟨sp', slot', rfl⟩

/-- A handler that covers the instruction has a stack map that the frame fits,
with the exception alone on the stack. -/
def HandlerFits (env : ClassEnv) (m : Method) (h : Handler) (f : VerifierFrame) : Prop :=
  ∃ name map, m.stackmapAt h.handler = some map ∧ 0 < m.maxStack ∧
    AssignableFrom env f.vlocals 0 (carriedSlots map.localSlots none) ∧
    map.stackSlots.length = 1 ∧
    AssignableFrom env (Function.update f.vstack 0 ⟨.object, some name⟩) 0
      (carriedSlots map.stackSlots none)

theorem handlerFits_of_check {h : Handler}
    (hx : checkExceptionHandler env m h f = .ok ((), f')) : Saved f f' ∧ HandlerFits env m h f := by
  obtain ⟨name, -, hroom, hcheck, rfl⟩ := checkExceptionHandler_ok_iff.mp hx
  obtain ⟨-, map, hmap, hlocals, hheight, hstack, -⟩ := checkBranchTarget_ok_iff.mp hcheck
  exact ⟨⟨_, _, rfl⟩, name, map, hmap, hroom, hlocals, hheight, hstack⟩

theorem HandlerFits.saved {h : Handler} (hs : Saved f f')
    (hfits : HandlerFits env m h f') : HandlerFits env m h f := by
  obtain ⟨sp, slot, rfl⟩ := hs
  exact hfits

theorem checkExceptionHandlersForBci_ok {handlers : List Handler}
    (hx : checkExceptionHandlersForBci env m bci handlers f = .ok ((), f')) :
    Saved f f' ∧ ∀ h ∈ handlers, h.start ≤ bci → bci < h.finish → HandlerFits env m h f := by
  induction handlers generalizing f with
  | nil =>
    cases hx
    exact ⟨Saved.refl _, fun _ hh => absurd hh List.not_mem_nil⟩
  | cons h handlers ih =>
    obtain ⟨_, f₁, h1, h2⟩ := bind_eq_ok.mp hx
    obtain ⟨hs, hrest⟩ := ih h2
    have hfirst : Saved f f₁ ∧ (h.start ≤ bci → bci < h.finish → HandlerFits env m h f) := by
      split_ifs at h1 with hcovers
      · obtain ⟨hs₁, hfits⟩ := handlerFits_of_check h1
        exact ⟨hs₁, fun _ _ => hfits⟩
      · cases h1
        exact ⟨Saved.refl f, fun ha hb => absurd ⟨ha, hb⟩ hcovers⟩
    refine ⟨hfirst.1.trans hs, fun h' hh ha hb => ?_⟩
    rcases List.mem_cons.mp hh with rfl | hh
    · exact hfirst.2 ha hb
    · exact (hrest h' hh ha hb).saved hfirst.1

/-! ### The frame after the check of the handlers -/

/-- The frame `f'` is the frame `f` again: every member that describes the method's
stack, locals and flags is the same, live or not. What is left out is the
scratch pair `_saved_stack_pointer`, `_saved_tags_0`/`_saved_klass_0`, which
only `restore_stack_state` reads, after `save_stack_state` has written it. -/
structure Intact (f f' : VerifierFrame) : Prop where
  vstackpointer : f'.vstackpointer = f.vstackpointer
  vstack : f'.vstack = f.vstack
  vlocals : f'.vlocals = f.vlocals
  needInitialization : f'.needInitialization = f.needInitialization
  noControlFlow : f'.noControlFlow = f.noControlFlow
  currentStackmapIndex : f'.currentStackmapIndex = f.currentStackmapIndex

theorem Saved.intact (h : Saved f f') : Intact f f' := by
  obtain ⟨sp, slot, rfl⟩ := h
  exact ⟨rfl, rfl, rfl, rfl, rfl, rfl⟩

theorem Saved.same (h : Saved f f') : Same m f f' := by
  obtain ⟨sp, slot, rfl⟩ := h
  exact ⟨rfl, fun _ _ => rfl, fun _ _ => rfl, rfl, rfl, rfl⟩

/-- The scratch pair after the handlers: it is written iff a handler covers the
instruction, and each handler writes the same. -/
theorem checkExceptionHandlersForBci_scratch {handlers : List Handler}
    (hx : checkExceptionHandlersForBci env m bci handlers f = .ok ((), f')) :
    f' = if ∃ h ∈ handlers, h.start ≤ bci ∧ bci < h.finish then
      { f with savedStackPointer := f.vstackpointer, saved0 := f.vstack 0 } else f := by
  induction handlers generalizing f with
  | nil =>
    cases hx
    simp
  | cons h handlers ih =>
    obtain ⟨_, f₁, h1, h2⟩ := bind_eq_ok.mp hx
    have hrest := ih h2
    split_ifs at h1 with hcovers
    · obtain ⟨name, -, -, -, rfl⟩ := checkExceptionHandler_ok_iff.mp h1
      rw [if_pos ⟨h, List.mem_cons_self, hcovers⟩, hrest]
      -- a second handler saves what the first one has put back
      split_ifs <;> rfl
    · cases h1
      rw [hrest]
      simp [hcovers]

/-- **Main theorem.** However many handlers cover the instruction, the check of the
handlers leaves every member of the frame as it was, outside the scratch pair,
and the rest of the pass goes on as it would have from the frame before. -/
theorem checkExceptionHandlersForBci_intact {bci : ℕ} {handlers : List Handler}
    {f f' : VerifierFrame} (hx : checkExceptionHandlersForBci env m bci handlers f = .ok ((), f')) :
    Intact f f' ∧
      (f' = if ∃ h ∈ handlers, h.start ≤ bci ∧ bci < h.finish then
        { f with savedStackPointer := f.vstackpointer, saved0 := f.vstack 0 } else f) ∧
      ∀ fuel next, OutcomesAgree (Same m) (iterateFrom env m fuel next f)
        (iterateFrom env m fuel next f') := by
  have hsaved : Saved f f' := (checkExceptionHandlersForBci_ok hx).1
  refine ⟨hsaved.intact, checkExceptionHandlersForBci_scratch hx, fun fuel next => ?_⟩
  exact agrees_iterateFrom fuel next f f' hsaved.same

/-- Two handlers over one instruction of a method with a stack of one word: their
stack maps take the exception as a `Throwable` and as an `Object`. -/
def guardedMethod : Method where
  code := [0x00, 0xb1, 0xbf, 0xbf]
  maxStack := 1
  maxLocals := 0
  name := "run"
  isStatic := true
  params := []
  ret := none
  holder := "C"
  constants := []
  exceptionTable := [⟨0, 1, 2, 0⟩, ⟨0, 2, 3, 0⟩]
  stackmaps := [⟨2, [], [.object "java/lang/Throwable"]⟩, ⟨3, [], [.object "java/lang/Object"]⟩]
  codeSize_lt := by decide
  stackmaps_fit := by decide

/-- A frame with one `Integer` on the stack. -/
def integerFrame : VerifierFrame where
  vstackpointer := 1
  vstack := fun _ => ⟨.integer, none⟩
  vlocals := fun _ => ⟨.bogus, none⟩
  needInitialization := false
  savedStackPointer := 0
  saved0 := ⟨.bogus, none⟩
  noControlFlow := false
  currentStackmapIndex := 0

theorem guardedMethod_intact :
    ∃ f', checkExceptionHandlersForBci .bare guardedMethod 0 guardedMethod.exceptionTable
        integerFrame = .ok ((), f') ∧ Intact integerFrame f' := by
  rcases hx : checkExceptionHandlersForBci .bare guardedMethod 0 guardedMethod.exceptionTable
    integerFrame with e | ⟨u, f'⟩
  · have hok : (checkExceptionHandlersForBci .bare guardedMethod 0 guardedMethod.exceptionTable
      integerFrame).toOption.isSome := by decide +kernel
    rw [hx] at hok
    cases hok
  · exact ⟨f', rfl, (checkExceptionHandlersForBci_intact hx).1⟩

/-- The frame an instruction is verified with is the one before it, or the one of
the stack map there, which the frame before it fits if control comes from
it. -/
inductive Merged (env : ClassEnv) (m : Method) (bci : ℕ) (f f' : VerifierFrame) : Prop
  | same : m.stackmapAt bci = none → f.noControlFlow = false →
      f'.vstackpointer = f.vstackpointer → f'.vstack = f.vstack → f'.vlocals = f.vlocals →
      Merged env m bci f f'
  | map (map : StackMap) : m.stackmapAt bci = some map →
      (f.noControlFlow = false →
        AssignableFrom env f.vlocals 0 (carriedSlots map.localSlots none) ∧
        map.stackSlots.length = f.vstackpointer ∧
        AssignableFrom env f.vstack 0 (carriedSlots map.stackSlots none)) →
      f'.vstackpointer = map.stackSlots.length →
      f'.vstack = overlay f.vstack 0 (carriedSlots map.stackSlots none) →
      f'.vlocals = mergedLocals m map f.vlocals → Merged env m bci f f'

/-- What the prolog has checked when it returns, and the frame it leaves. -/
structure PrologDone (env : ClassEnv) (m : Method) (bci : ℕ) (f f' : VerifierFrame) : Prop where
  merged : Merged env m bci f f'
  flows : f'.noControlFlow = false
  index : f'.currentStackmapIndex = f.currentStackmapIndex ∨
    (f'.currentStackmapIndex = f.currentStackmapIndex + 1 ∧
      ∃ map, m.stackmaps[f.currentStackmapIndex]? = some map ∧ map.offset = bci)
  handlers : ∀ h ∈ m.exceptionTable, h.start ≤ bci → bci < h.finish → HandlerFits env m h f'

theorem checkStackmapOrder_ok (hx : checkStackmapOrder m bci f = .ok ((), f')) :
    f' = f ∨ (f' = { f with currentStackmapIndex := f.currentStackmapIndex + 1 } ∧
      ∃ map, m.stackmaps[f.currentStackmapIndex]? = some map ∧ map.offset = bci) := by
  unfold checkStackmapOrder at hx
  rcases hmap : m.stackmaps[f.currentStackmapIndex]? with _ | map
  · rw [hmap] at hx
    cases hx
    exact .inl rfl
  · rw [hmap] at hx
    simp only at hx
    split_ifs at hx with h1 h2 <;> cases hx
    · exact .inr ⟨rfl, map, rfl, h1⟩
    · exact .inl rfl

theorem bytecodeProlog_ok
    (hx : bytecodeProlog env m bci f = .ok ((), f')) : PrologDone env m bci f f' := by
  obtain ⟨_, f₁, horder, hx⟩ := bind_eq_ok.mp hx
  rw [get_bind_apply] at hx
  obtain ⟨_, f₂, htarget, hx⟩ := bind_eq_ok.mp hx
  obtain ⟨_, f₃, hhandlers, hflows⟩ := bind_eq_ok.mp hx
  cases hflows
  obtain ⟨⟨sp, slot, rfl⟩, hall⟩ := checkExceptionHandlersForBci_ok hhandlers
  have hf₁ : f₁.vstackpointer = f.vstackpointer ∧ f₁.vstack = f.vstack ∧ f₁.vlocals = f.vlocals ∧
      f₁.noControlFlow = f.noControlFlow ∧
      (f₁.currentStackmapIndex = f.currentStackmapIndex ∨
        (f₁.currentStackmapIndex = f.currentStackmapIndex + 1 ∧
          ∃ map, m.stackmaps[f.currentStackmapIndex]? = some map ∧ map.offset = bci)) := by
    rcases checkStackmapOrder_ok horder with rfl | ⟨rfl, hmap⟩
    · exact ⟨rfl, rfl, rfl, rfl, .inl rfl⟩
    · exact ⟨rfl, rfl, rfl, rfl, .inr ⟨rfl, hmap⟩⟩
  obtain ⟨hsp, hstack, hlocals, hncf, hindex⟩ := hf₁
  unfold checkCurrentTarget checkStackmapMatch at htarget
  rcases hmap : m.stackmapAt bci with _ | map
  · rw [hmap] at htarget
    simp only at htarget
    split_ifs at htarget with hexist
    · cases htarget
    · cases htarget
      exact {
        merged := .same hmap (hncf ▸ (Bool.not_eq_true _).mp hexist) hsp hstack hlocals
        flows := rfl
        index := hindex
        handlers := fun h hh ha hb => hall h hh ha hb }
  · rw [hmap] at htarget
    obtain ⟨hcheck, -, rfl⟩ := matchStackmap_ok_iff.mp htarget
    rw [hsp, hstack, hlocals, hncf] at hcheck
    refine {
      merged := .map map hmap (fun hc => hcheck (by simp [hc])) rfl ?_ ?_
      flows := rfl
      index := hindex
      handlers := fun h hh ha hb => hall h hh ha hb }
    · simp only [if_true, hstack]
    · simp only [if_true, hlocals]

/-! ## Stack maps -/

theorem Pass.seen (h : Pass env m cache n bci f) {j : ℕ}
    (hj : j < f.currentStackmapIndex) {map : StackMap} (hmap : m.stackmaps[j]? = some map) :
    ∃ n' f', Pass env m cache n' map.offset f' ∧ map.offset < m.code.length := by
  induction h with
  | start hinit =>
    have hindex := (initializeLocals_triple.ok ⟨rfl, rfl⟩ hinit).index_eq
    omega
  | @next n bci f f' hp hlt hv ih =>
    obtain ⟨_, f₁, hprolog, hexec⟩ := bind_eq_ok.mp hv
    obtain ⟨k, hk⟩ := ((keepsConsistent_bytecodeProlog bci).ok hp.consistent hprolog).2
    have hkept := ((safe_exec bci (kindsFit_iterateBytecode m bci)).ok hk hexec).2.index_eq
    rw [hkept, ← hk.index_eq] at hj
    rcases (bytecodeProlog_ok hprolog).index with heq | ⟨heq, map', hmap', hoffset⟩
    · exact ih (heq ▸ hj)
    · rw [heq] at hj
      rcases Nat.lt_succ_iff_lt_or_eq.mp hj with hj | rfl
      · exact ih hj
      · rw [hmap] at hmap'
        cases hmap'
        exact ⟨n, f, hoffset.symm ▸ hp, hoffset.symm ▸ hlt⟩

theorem stackmap_visited (hacc : Accepted env m cache) {dest : ℤ} {map : StackMap}
    (hmap : m.stackmapAt dest = some map) :
    (map.offset : ℤ) = dest ∧ ∃ f, FrameAt env m cache map.offset f := by
  have hoffset : (map.offset : ℤ) = dest := by
    have := List.find?_some hmap
    simpa using this
  obtain ⟨n, f, hend, hindex⟩ := Pass.reaches_end hacc
  obtain ⟨j, hj⟩ := List.getElem?_of_mem (List.mem_of_find?_eq_some hmap)
  have hlt := (List.getElem?_eq_some_iff.mp hj).1
  obtain ⟨n', f₀, hp, hbci⟩ := hend.seen (hindex ▸ hlt) hj
  rcases hp.verified hacc with ⟨-, f', hv⟩ | ⟨heq, -⟩
  · obtain ⟨_, f₁, hprolog, -⟩ := bind_eq_ok.mp hv
    exact ⟨hoffset, f₁, n', f₀, hp, hbci, hprolog⟩
  · omega

end CldcVm.Verifier
