import CldcVm.Interpreter.Simulation
import CldcVm.Verifier.Pass

/-!
# Soundness of the verifier

An execution of an accepted method follows the pass of the verifier: when it
comes to an instruction, its words fit the frame with which the verifier has
verified this instruction.

Main results:
* `reachable_keepsDiscipline`: no execution of an accepted method breaks the
  stack discipline.
* `reachable_tracksObjects`: where a frame has the tag of an uninitialized object,
  all slots with this tag hold one object, and an `<init>` call turns only slots
  with its receiver into slots with an initialized object.
-/

namespace CldcVm.Interpreter

open Lib Comp Verifier
open Function (update update_of_ne update_self)

variable {env : ClassEnv} {m : Method} {cache : FrameCache} {newest : Origin → Option ℕ} {k : ℕ}
variable {s s' s₀ : MState}

/-! ## Stack maps and frames -/

variable {f f' : VerifierFrame}

theorem MapSatisfied.conforms {map : StackMap} (h : MapSatisfied map s)
    (hframe : FrameInvariant m k f') (hflows : f'.noControlFlow = false)
    (hsp : f'.vstackpointer = map.stackSlots.length)
    (hstack : f'.vstack = overlay f.vstack 0 (carriedSlots map.stackSlots none))
    (hlocals : f'.vlocals = mergedLocals m map f.vlocals) : Conforms m s.newest k f' s where
  frame := hframe
  flows := hflows
  newest_eq := rfl
  sp_eq := h.height.trans hsp.symm
  stack := by
    rw [hstack, hsp]
    exact h.stack.overlay
  locals := by
    rw [hlocals]
    exact h.locals.mergedLocals

variable {bci : ℕ}

/-- Control that falls into an instruction fits the frame after the prolog, and
the stack map there, if there is one. -/
theorem Conforms.prolog (hc : Conforms m s.newest k f s)
    (hx : bytecodeProlog env m bci f = .ok ((), f')) : (∃ k', Conforms m s.newest k' f' s) ∧
      ∀ map, m.stackmapAt bci = some map → MapSatisfied map s := by
  obtain ⟨-, k', hframe⟩ := (keepsConsistent_bytecodeProlog bci).ok ⟨k, hc.frame⟩ hx
  have hdone := bytecodeProlog_ok hx
  rcases hdone.merged with ⟨hmap, -, hsp, hstack, hlocals⟩ | ⟨map, hmap, hfits, hsp, hstack, hlocals⟩
  · refine ⟨⟨k', hframe, hdone.flows, rfl, hc.sp_eq.trans hsp.symm, ?_, ?_⟩, fun map h => ?_⟩
    · rw [hstack, hsp]
      exact hc.stack
    · rw [hlocals]
      exact hc.locals
    · rw [hmap] at h
      cases h
  · obtain ⟨h1, h2, h3⟩ := hfits hc.flows
    have hsat := hc.mapSatisfied hmap h1 h2 h3
    refine ⟨⟨k', hsat.conforms hframe hdone.flows hsp hstack hlocals⟩, fun map' h => ?_⟩
    rw [hmap] at h
    cases h
    exact hsat

/-- Control that jumps to a stack map fits the frame of the instruction there. -/
theorem TargetFits.lands (hacc : Accepted env m cache) {dest : ℤ} (h : TargetFits m dest s) :
    ∃ (bci : ℕ) (f : VerifierFrame) (k : ℕ), (bci : ℤ) = dest ∧ FrameAt env m cache bci f ∧
      Conforms m s.newest k f s := by
  obtain ⟨map, hmap, hsat⟩ := h
  obtain ⟨hoffset, f, hf⟩ := stackmap_visited hacc hmap
  have ⟨n, f₀, hp, _, hx⟩ := hf
  obtain ⟨-, k, hframe⟩ := (keepsConsistent_bytecodeProlog _).ok hp.consistent hx
  have hdone := bytecodeProlog_ok hx
  refine ⟨map.offset, f, k, hoffset, hf, ?_⟩
  rcases hdone.merged with ⟨hnone, -⟩ | ⟨map', hmap', -, hsp, hstack, hlocals⟩
  · rw [hoffset, hmap] at hnone
    cases hnone
  · rw [hoffset, hmap] at hmap'
    cases hmap'
    exact hsat.conforms hframe hdone.flows hsp hstack hlocals

theorem Conforms.enterHandler {h : Handler} (hc : Conforms m s.newest k f s)
    (hfits : HandlerFits env m h f) (exception : ℕ) :
    TargetFits m h.handler (enterHandler h exception s) := by
  obtain ⟨name, map, hmap, -, hlocals, hheight, hstack⟩ := hfits
  obtain ⟨hfit, -⟩ := Method.stackmapAt_fits hmap
  have hexc : WordsFit s.newest (update f.vstack 0 ⟨.object, some name⟩)
      (update s.stack 0 (.ref (some exception))) 1 := by
    intro i hi
    obtain rfl : i = 0 := by omega
    rw [update_self, update_self]
    exact ⟨some exception, rfl⟩
  exact ⟨map, hmap, hheight.symm, hexc.mapFits hheight.le hstack, hc.locals.mapFits hfit hlocals⟩

/-! ## The entry -/

/-- While `initialize_locals` writes the locals below `n`, these fit the words. -/
structure InitFits (m : Method) (s : MState) (n : ℕ) (f : VerifierFrame) : Prop where
  initializing : Initializing m n f
  flows : f.noControlFlow = false
  locals : WordsFit s.newest f.vlocals s.locals n

variable {n : ℕ}

theorem InitFits.setSingle {slot : Slot} (h : InitFits m s n f)
    (hx : setLocalRef m n slot f = .ok ((), f')) (hs : slot.tag.isSingle = true)
    (hfits : SlotFits s.newest (s.locals n) .undefined slot.tag) : InitFits m s (n + 1) f' := by
  have hinit := (initializes_setLocalRef hs).ok h.initializing hx
  obtain ⟨-, rfl⟩ := setLocalRef_ok_iff.mp hx
  refine ⟨hinit, h.flows, ?_⟩
  refine WordsFit.bogify fun i hi hspoiled => ?_
  rcases Nat.lt_succ_iff_lt_or_eq.mp hi with hlt | rfl
  · rw [update_of_ne hlt.ne]
    exact h.locals i hlt
  · rw [update_self]
    exact hfits.congr_next (StackMapKind.isSingle_iff.mp hs).1

theorem InitFits.setPair {kind : StackMapKind}
    (h : InitFits m s n f) (hx : setLocal2 m n kind f = .ok ((), f')) (hhead : kind.isHead = true)
    (hfits : SlotFits s.newest (s.locals n) (s.locals (n + 1)) kind) : InitFits m s (n + 2) f' := by
  have hinit := (initializes_setLocal2 hhead).ok h.initializing hx
  obtain ⟨-, -, rfl⟩ := setLocal2_ok_iff.mp hx
  refine ⟨hinit, h.flows, ?_⟩
  refine WordsFit.bogify fun i hi hspoiled => ?_
  rcases Nat.lt_trichotomy i n with hlt | rfl | hgt
  · rw [update_of_ne (by omega), update_of_ne hlt.ne]
    exact h.locals i hlt
  · rw [update_of_ne i.lt_succ_self.ne, update_self]
    exact hfits
  · obtain rfl : i = n + 1 := by omega
    rw [update_self]
    exact slotFits_of_isHalf (StackMapKind.isHalf_secondHalf kind)

theorem InitFits.setKind {kind : StackMapKind}
    (h : InitFits m s n f) (hx : setLocal m n kind f = .ok ((), f')) (hs : kind.isSingle = true)
    (hfits : SlotFits s.newest (s.locals n) .undefined kind) : InitFits m s (n + 1) f' := by
  unfold setLocal at hx
  split_ifs at hx
  · cases hx
  · exact h.setSingle hx hs hfits

theorem InitFits.param {type : JavaType} (h : InitFits m s n f) (hfits : (if type.wordSize = 2 then
      Word.arePair type.basicType (s.locals n, s.locals (n + 1))
      else (s.locals n).hasKind type.basicType) = true)
    (hx : initializeParam m n type f = .ok ((), f')) : InitFits m s (n + type.wordSize) f' := by
  have hint : ∀ {kind : BasicType}, kind.isPrimitive = true → kind ≠ .float →
      (s.locals n).hasKind kind = true → setLocal m n .integer f = .ok ((), f') →
      InitFits m s (n + 1) f' :=
    fun hk hne hkind hx => h.setKind hx rfl (hasKind_int hk hne hkind)
  cases type
  case object name => exact h.setSingle hx rfl (hasKind_object.mp hfits)
  case array name =>
    refine h.setSingle hx rfl (hasKind_object.mp ?_)
    have harray : (s.locals n).hasKind .array = true := hfits
    revert harray
    cases s.locals n <;> simp [Word.hasKind]
  case float =>
    have hset : setLocal m n .float f = .ok ((), f') := hx
    exact h.setKind hset rfl (hasKind_float.mp hfits)
  case long =>
    have hset : setLocal2 m n .long f = .ok ((), f') := hx
    exact h.setPair hset rfl (arePair_long.mp hfits)
  case double =>
    have hset : setLocal2 m n .double f = .ok ((), f') := hx
    exact h.setPair hset rfl (arePair_double.mp hfits)
  all_goals exact hint rfl (by decide) hfits hx

theorem InitFits.params {n' : ℕ} {params : List JavaType}
    (h : InitFits m s n f) (hfits : argumentsFit s.locals n params = true)
    (hx : initializeParams m n params f = .ok (n', f')) : InitFits m s n' f' := by
  induction params generalizing n f with
  | nil =>
    cases hx
    exact h
  | cons type params ih =>
    obtain ⟨_, f₁, h1, h2⟩ := bind_eq_ok.mp hx
    obtain ⟨htype, hrest⟩ := (Bool.and_eq_true _ _).mp hfits
    exact ih (h.param htype h1) hrest h2

theorem InitFits.rest {count : ℕ} (h : InitFits m s n f)
    (hx : initializeRest m n count f = .ok ((), f')) : InitFits m s (n + count) f' := by
  induction count generalizing n f with
  | zero =>
    cases hx
    exact h
  | succ count ih =>
    obtain ⟨_, f₁, h1, h2⟩ := bind_eq_ok.mp hx
    rw [show n + (count + 1) = n + 1 + count by omega]
    exact ih (h.setKind h1 rfl trivial) h2

/-- An activation begins with words that fit the locals the verifier begins
with. -/
theorem Entry.conforms (h : Entry m s)
    (hx : initializeLocals m (initialFrame cache) = .ok ((), f)) : Conforms m s.newest 0 f s := by
  have hframe : FrameInvariant m 0 f := initializeLocals_triple.ok ⟨rfl, rfl⟩ hx
  obtain ⟨_, f₁, hclear, hx⟩ := bind_eq_ok.mp hx
  obtain ⟨n, f₂, hthis, hx⟩ := bind_eq_ok.mp hx
  obtain ⟨n', f₃, hparams, hrest⟩ := bind_eq_ok.mp hx
  cases hclear
  have hclear : InitFits m s 0 { initialFrame cache with needInitialization := false } :=
    ⟨⟨fun _ hi => absurd hi (Nat.not_lt_zero _), Nat.zero_le _, rfl, rfl, fun h => by cases h⟩,
      rfl, fun _ hi => absurd hi (Nat.not_lt_zero _)⟩
  have hreceiver : n = (if m.isStatic then 0 else 1) ∧ InitFits m s n f₂ := by
    unfold initializeThis at hthis
    split_ifs at hthis with hstatic hinit
    · cases hthis
      exact ⟨(if_pos hstatic).symm, hclear⟩
    · obtain ⟨_, f₄, hset, hbind⟩ := bind_eq_ok.mp hthis
      obtain ⟨_, f₅, hlocal, hpure⟩ := bind_eq_ok.mp hbind
      cases hset
      cases hpure
      have hset : InitFits m s 0 { initialFrame cache with needInitialization := true } :=
        { hclear with initializing := { hclear.initializing with flag := fun _ => hinit.2 } }
      refine ⟨(if_neg hstatic).symm, hset.setKind hlocal rfl ?_⟩
      exact h.receiver ((Bool.not_eq_true _).mp hstatic)
    · obtain ⟨_, f₅, hlocal, hpure⟩ := bind_eq_ok.mp hthis
      cases hpure
      obtain ⟨object, -, hword⟩ := h.receiver ((Bool.not_eq_true _).mp hstatic)
      exact ⟨(if_neg hstatic).symm, hclear.setSingle hlocal rfl ⟨_, hword⟩⟩
  obtain ⟨rfl, hreceiver⟩ := hreceiver
  have hdone := (hreceiver.params h.arguments hparams)
  have hlast := hdone.rest hrest
  rw [Nat.add_sub_cancel' hdone.initializing.le_maxLocals] at hlast
  exact {
    frame := hframe
    flows := hlast.flows
    newest_eq := rfl
    sp_eq := h.sp_eq.trans hlast.initializing.vstackpointer_eq.symm
    stack := fun i hi => by
      rw [hlast.initializing.vstackpointer_eq] at hi
      exact absurd hi (Nat.not_lt_zero _)
    locals := hlast.locals }

/-! ## Runs -/

/-- Where a `new` has been executed, its frame has no older object of it. -/
def Executed (env : ClassEnv) (m : Method) (cache : FrameCache) (newest : Origin → Option ℕ) :
    Prop :=
  ∀ bci object, newest (.created bci) = some object →
    ∀ f, FrameAt env m cache bci f → NoNewObject m bci f

/-- What holds whenever the activation comes to an instruction: its words fit the
frame and the stack map there. -/
structure RunInvariant (env : ClassEnv) (m : Method) (cache : FrameCache) (s : MState) : Prop where
  frame : ∃ f k, FrameAt env m cache s.pc f ∧ Conforms m s.newest k f s ∧
    ∀ map, m.stackmapAt s.pc = some map → MapSatisfied map s
  executed : Executed env m cache s.newest

/-- The first time, no object has the tag of a `new`; from then on there is one
frame at this `new`. -/
theorem RunInvariant.noNewObject (h : RunInvariant env m cache s)
    (hf : FrameAt env m cache s.pc f) (hc : Conforms m s.newest k f s) : NoNewObject m s.pc f := by
  rcases hnew : s.newest (.created s.pc) with _ | object
  · have hnone : ∀ {word next : Word} {tag : StackMapKind},
        SlotFits s.newest word next tag → tag ≠ .newObject s.pc := by
      intro word next tag hfits htag
      rw [htag] at hfits
      obtain ⟨o, ho, -⟩ := hfits
      rw [hnew] at ho
      cases ho
    exact ⟨fun i hi => hnone (hc.stack i hi), fun i hi => hnone (hc.locals i hi)⟩
  · exact h.executed _ _ hnew f hf

theorem RunInvariant.fallThrough (hacc : Accepted env m cache)
    (hexecuted : Executed env m cache s.newest) (hp : Pass env m cache n bci f)
    (hc : Conforms m s.newest k f s) : RunInvariant env m cache { s with pc := bci } := by
  rcases hp.verified hacc with ⟨hlt, _, hv⟩ | ⟨-, hend⟩
  · obtain ⟨_, f', hprolog, -⟩ := bind_eq_ok.mp hv
    obtain ⟨⟨k', hc'⟩, hmap⟩ := hc.prolog hprolog
    exact ⟨⟨f', k', ⟨n, f, hp, hlt, hprolog⟩, { hc' with }, fun map h => { hmap map h with }⟩,
      hexecuted⟩
  · rw [hc.flows] at hend
    cases hend

theorem RunInvariant.jump (hacc : Accepted env m cache) {dest : ℤ}
    (hexecuted : Executed env m cache s.newest) (h : TargetFits m dest s) :
    ∃ bci : ℕ, (bci : ℤ) = dest ∧ RunInvariant env m cache { s with pc := bci } := by
  obtain ⟨bci, f, k, hbci, hf, hc⟩ := h.lands hacc
  obtain ⟨map, hmap, hsat⟩ := h
  refine ⟨bci, hbci, ⟨f, k, hf, { hc with }, fun map' hmap' => ?_⟩, hexecuted⟩
  simp only at hmap'
  rw [hbci, hmap] at hmap'
  cases hmap'
  exact { hsat with }

/-- The activation begins at the first instruction of the pass. -/
theorem Entry.runInvariant (hacc : Accepted env m cache) (h : Entry m s) :
    RunInvariant env m cache s := by
  obtain ⟨_, hv⟩ := hacc.verified
  obtain ⟨_, f, hinit, -⟩ := bind_eq_ok.mp hv
  have hexecuted : Executed env m cache s.newest := by
    intro bci object hsome
    rw [h.newest_eq] at hsome
    cases hsome
  have hinv := RunInvariant.fallThrough hacc hexecuted (.start hinit) (h.conforms hinit)
  rw [← h.pc_eq] at hinv
  exact hinv

/-- **Step lemma**: the instruction is executed without a fault, and the
invariant holds where control goes. -/
theorem RunInvariant.exec (hacc : Accepted env m cache) (h : RunInvariant env m cache s)
    (c : Choice) :
    ∃ next s', exec m c s.pc (m.iterateBytecode s.pc) s = .ok (next, s') ∧ match next with
      | .fallThrough =>
        RunInvariant env m cache { s' with pc := s.pc + (m.bytecodeLengthFor s.pc).toNat }
      | .jump dest => TargetFits m dest s' ∧
        ∃ bci : ℕ, (bci : ℤ) = dest ∧ RunInvariant env m cache { s' with pc := bci }
      | .finish => True
      | .raise => True := by
  obtain ⟨f, k, hf, hc, -⟩ := h.frame
  have hnonew := h.noNewObject hf hc
  have ⟨n, f₀, hp, hlt, hprolog⟩ := hf
  obtain ⟨f', hv⟩ : ∃ f', verifyBytecode env m s.pc f₀ = .ok ((), f') := by
    rcases hp.verified hacc with ⟨-, hv⟩ | ⟨heq, -⟩
    · exact hv
    · exact absurd heq hlt.ne
  have hexec : Verifier.exec env m s.pc (m.iterateBytecode s.pc) f = .ok ((), f') := by
    obtain ⟨_, f₁, h1, h2⟩ := bind_eq_ok.mp hv
    rw [hprolog] at h1
    cases h1
    exact h2
  have hnext := Pass.next hp hlt hv
  by_cases hnew : ∃ index, m.iterateBytecode s.pc = .newObject index
  · obtain ⟨index, hop⟩ := hnew
    rw [hop] at hexec ⊢
    obtain ⟨s', hy, hc'⟩ := newObject_simulates (c := c) hc hnonew hexec
    have hnewest := hc'.newest_eq
    rw [← hnewest] at hc'
    refine ⟨.fallThrough, s', hy, RunInvariant.fallThrough hacc (fun bci object hsome g hg => ?_)
      hnext hc'⟩
    rcases eq_or_ne bci s.pc with rfl | hne
    · rw [hg.unique hacc hf]
      exact hnonew
    · have hne' : Origin.created bci ≠ .created s.pc := fun he => hne (Origin.created.inj he)
      rw [hnewest, update_of_ne hne'] at hsome
      exact h.executed bci object hsome g hg
  · have hsim : Executes m s.newest k (Verifier.exec env m s.pc (m.iterateBytecode s.pc))
        (Interpreter.exec m c s.pc (m.iterateBytecode s.pc)) :=
      exec_simulates s.pc (kindsFit_iterateBytecode m s.pc) fun index hop => hnew ⟨index, hop⟩
    obtain ⟨next, s', hy, hcont⟩ := hsim f s hc () f' hexec
    refine ⟨next, s', hy, ?_⟩
    cases next with
    | fallThrough =>
      have hc' : Conforms m s.newest k f' s' := hcont
      have hnewest := hc'.newest_eq
      rw [← hnewest] at hc'
      exact RunInvariant.fallThrough hacc (hnewest ▸ h.executed) hnext hc'
    | jump dest =>
      obtain ⟨hnewest, htarget⟩ := hcont
      exact ⟨htarget, RunInvariant.jump hacc (hnewest ▸ h.executed) htarget⟩
    | finish => trivial
    | raise => trivial

theorem RunInvariant.handler (hacc : Accepted env m cache) (h : RunInvariant env m cache s)
    {handler : Handler} (hmem : handler ∈ m.exceptionTable) (hstart : handler.start ≤ s.pc)
    (hfinish : s.pc < handler.finish) (exception : ℕ) :
    TargetFits m handler.handler (enterHandler handler exception s) ∧
      RunInvariant env m cache (enterHandler handler exception s) := by
  obtain ⟨f, k, ⟨n, f₀, -, -, hprolog⟩, hc, -⟩ := h.frame
  have htarget := hc.enterHandler
    ((bytecodeProlog_ok hprolog).handlers handler hmem hstart hfinish) exception
  have hexecuted : Executed env m cache (enterHandler handler exception s).newest := h.executed
  obtain ⟨bci, hbci, hinv⟩ := RunInvariant.jump hacc hexecuted htarget
  obtain rfl : bci = handler.handler := Int.ofNat.inj hbci
  exact ⟨htarget, hinv⟩

/-- **Step lemma.** -/
theorem RunInvariant.step (hacc : Accepted env m cache) (h : RunInvariant env m cache s)
    (hstep : Step m s s') : RunInvariant env m cache s' := by
  cases hstep with
  | next c _ hexec =>
    obtain ⟨_, _, hy, hnext⟩ := h.exec hacc c
    rw [hexec] at hy
    cases hy
    exact hnext
  | jump c dest _ hexec =>
    obtain ⟨_, _, hy, hnext⟩ := h.exec hacc c
    rw [hexec] at hy
    cases hy
    obtain ⟨-, bci, hbci, hinv⟩ := hnext
    obtain rfl : bci = dest := Int.ofNat.inj hbci
    exact hinv
  | exception handler exception _ hmem hstart hfinish =>
    exact (h.handler hacc hmem hstart hfinish exception).2

/-- **Run lemma.** -/
theorem runInvariant_of_run (hacc : Accepted env m cache) (hentry : Entry m s₀)
    (hrun : Relation.ReflTransGen (Step m) s₀ s) : RunInvariant env m cache s := by
  induction hrun with
  | refl => exact hentry.runInvariant hacc
  | tail _ hstep ih => exact ih.step hacc hstep

/-! ## The stack discipline -/

/-- Control may come to `dest`: an instruction starts there, its stack map is
satisfied, and the stack is not too high. -/
structure Lands (m : Method) (dest : ℤ) (s : MState) : Prop where
  start : ∃ bci : ℕ, (bci : ℤ) = dest ∧ IsInstructionStart m bci
  map : TargetFits m dest s
  height : s.sp ≤ m.maxStack

/-- The stack discipline at a state: whatever the instruction finds, it does not
fault (a `Fault` is a stack underflow or overflow, a local out of range, a
word of the wrong kind, an illegal code), and control goes only to
instruction starts with their stack maps satisfied. -/
structure KeepsDiscipline (m : Method) (s : MState) : Prop where
  start : IsInstructionStart m s.pc
  height : s.sp ≤ m.maxStack
  map : ∀ map, m.stackmapAt s.pc = some map → MapSatisfied map s
  executes : ∀ c, ∃ next s', exec m c s.pc (m.iterateBytecode s.pc) s = .ok (next, s') ∧
    match next with
    | .fallThrough =>
      IsInstructionStart m (s.pc + (m.bytecodeLengthFor s.pc).toNat) ∧ s'.sp ≤ m.maxStack ∧
        ∀ map, m.stackmapAt ↑(s.pc + (m.bytecodeLengthFor s.pc).toNat) = some map →
          MapSatisfied map s'
    | .jump dest => Lands m dest s'
    | .finish => True
    | .raise => True
  handlers : ∀ h ∈ m.exceptionTable, h.start ≤ s.pc → s.pc < h.finish →
    ∀ exception, Lands m h.handler (enterHandler h exception s)

theorem RunInvariant.start (hacc : Accepted env m cache) (h : RunInvariant env m cache s) :
    IsInstructionStart m s.pc := by
  obtain ⟨f, k, ⟨n, f₀, hp, hlt, -⟩, -⟩ := h.frame
  exact hp.isInstructionStart hacc hlt

theorem RunInvariant.height (h : RunInvariant env m cache s) : s.sp ≤ m.maxStack := by
  obtain ⟨f, k, -, hc, -⟩ := h.frame
  rw [hc.sp_eq]
  exact hc.frame.height

theorem RunInvariant.map (h : RunInvariant env m cache s) {map : StackMap}
    (hmap : m.stackmapAt s.pc = some map) : MapSatisfied map s := by
  obtain ⟨f, k, -, -, hsat⟩ := h.frame
  exact hsat map hmap

theorem RunInvariant.keepsDiscipline (hacc : Accepted env m cache)
    (h : RunInvariant env m cache s) : KeepsDiscipline m s where
  start := h.start hacc
  height := h.height
  map := fun _ => h.map
  executes := fun c => by
    obtain ⟨next, s', hy, hnext⟩ := h.exec hacc c
    refine ⟨next, s', hy, ?_⟩
    cases next with
    | fallThrough =>
      have hinv : RunInvariant env m cache _ := hnext
      exact ⟨hinv.start hacc, hinv.height, fun map hmap => { hinv.map hmap with }⟩
    | jump dest =>
      obtain ⟨htarget, bci, hbci, hinv⟩ := hnext
      exact ⟨⟨bci, hbci, hinv.start hacc⟩, htarget, hinv.height⟩
    | finish => trivial
    | raise => trivial
  handlers := fun handler hmem hstart hfinish exception => by
    obtain ⟨htarget, hinv⟩ := h.handler hacc hmem hstart hfinish exception
    exact ⟨⟨_, rfl, hinv.start hacc⟩, htarget, hinv.height⟩

/-- `new A; dup; invokespecial A.<init>; pop; return`. -/
def creatingMethod : Method where
  code := [0xbb, 0x00, 0x01, 0x59, 0xb7, 0x00, 0x02, 0x57, 0xb1]
  maxStack := 2
  maxLocals := 0
  name := "f"
  isStatic := true
  params := []
  ret := none
  holder := "C"
  constants := [.other, .klass "A", .method "A" "<init>" [] none]
  exceptionTable := []
  stackmaps := []
  codeSize_lt := by decide
  stackmaps_fit := by decide

theorem creatingMethod_accepted : Accepted .bare creatingMethod emptyCache := by
  unfold Accepted
  decide +kernel

/-- A fresh activation. -/
def freshState : MState where
  pc := 0
  sp := 0
  stack := fun _ => .undefined
  locals := fun _ => .undefined
  nextObject := 0
  newest := fun _ => none

theorem freshState_entry : Entry creatingMethod freshState where
  pc_eq := rfl
  sp_eq := rfl
  newest_eq := fun _ => rfl
  receiver := fun h => by cases h
  arguments := rfl

/-- The activation after `new`. -/
def allocatedState : MState where
  pc := 3
  sp := 1
  stack := Function.update freshState.stack 0 (.ref (some 0))
  locals := freshState.locals
  nextObject := 1
  newest := Function.update freshState.newest (.created 0) (some 0)

/-- The activation before the call of `<init>`. -/
def createdState : MState :=
  { allocatedState with
    pc := 4
    sp := 2
    stack := Function.update (Function.update allocatedState.stack 0 (.ref (some 0))) 1
      (.ref (some 0)) }

theorem creatingMethod_run :
    Relation.ReflTransGen (Step creatingMethod) freshState createdState := by
  have hnew : creatingMethod.iterateBytecode 0 = .newObject 1 := by decide +kernel
  have hdup : creatingMethod.iterateBytecode 3 = .dup := by decide +kernel
  have hlen : creatingMethod.bytecodeLengthFor 0 = 3 ∧ creatingMethod.bytecodeLengthFor 3 = 1 := by
    decide +kernel
  have h1 : exec creatingMethod ⟨0, 0, 0, 0, none, false, 0⟩ 0 (creatingMethod.iterateBytecode 0)
      freshState = .ok (.fallThrough, { allocatedState with pc := 0 }) := by
    rw [hnew]
    exact newObject_ok rfl (by decide)
  have h2 : exec creatingMethod ⟨0, 0, 0, 0, none, false, 0⟩ 3 (creatingMethod.iterateBytecode 3)
      allocatedState = .ok (.fallThrough, { createdState with pc := 3 }) := by
    rw [hdup]
    rfl
  have hstep1 := Step.next (s := freshState) _ (by decide) h1
  have hstep2 := Step.next (s := allocatedState) _ (by decide) h2
  rw [show freshState.pc = 0 from rfl, hlen.1] at hstep1
  rw [show allocatedState.pc = 3 from rfl, hlen.2] at hstep2
  exact .tail (.single hstep1) hstep2

/-- The tags of objects that need an initializer. -/
def isUninitialized (tag : StackMapKind) : Bool := tag == .initObject || tag.isNewObject

/-- All live slots with the tag hold the object. -/
structure HoldsObject (m : Method) (f : VerifierFrame) (s : MState) (tag : StackMapKind)
    (object : ℕ) : Prop where
  stack : ∀ i < f.vstackpointer, (f.vstack i).tag = tag → s.stack i = .ref (some object)
  locals : ∀ i < m.maxLocals, (f.vlocals i).tag = tag → s.locals i = .ref (some object)

/-- Between the frame before an `<init>` call and the frame after it, only slots
that hold the receiver have changed. The receiver lies in the stack at
`receiver`, and all that lies above it is taken by the call. -/
structure InitializesReceiver (m : Method) (receiver : ℕ) (f f' : VerifierFrame) (s : MState) :
    Prop where
  object : ∃ object, s.stack receiver = .ref (some object)
  stack : ∀ i < receiver, f'.vstack i ≠ f.vstack i → s.stack i = s.stack receiver
  locals : ∀ i < m.maxLocals, f'.vlocals i ≠ f.vlocals i → s.locals i = s.stack receiver

variable {tag : StackMapKind}

theorem SlotFits.isObject {word next : Word} (h : SlotFits newest word next tag)
    (htag : isUninitialized tag = true) : ∃ object, word = .ref (some object) := by
  cases tag
  case initObject => exact h.elim fun o ho => ⟨o, ho.2⟩
  case newObject bci => exact h.elim fun o ho => ⟨o, ho.2⟩
  all_goals cases htag

theorem SlotFits.sameObject {word next word' next' : Word}
    (h : SlotFits newest word next tag) (h' : SlotFits newest word' next' tag)
    (htag : isUninitialized tag = true) : word = word' := by
  cases tag
  case initObject =>
    obtain ⟨o, ho, rfl⟩ := h
    obtain ⟨o', ho', rfl⟩ := h'
    rw [ho] at ho'
    rw [Option.some.inj ho']
  case newObject bci =>
    obtain ⟨o, ho, rfl⟩ := h
    obtain ⟨o', ho', rfl⟩ := h'
    rw [ho] at ho'
    rw [Option.some.inj ho']
  all_goals cases htag

theorem Conforms.holdsObject (hc : Conforms m newest k f s) (htag : isUninitialized tag = true) :
    ∃ object, HoldsObject m f s tag object := by
  have hfits : ∃ object, ∀ word next, SlotFits newest word next tag → word = .ref (some object) := by
    by_cases hsome : ∃ word next, SlotFits newest word next tag
    · obtain ⟨word, next, h⟩ := hsome
      obtain ⟨object, rfl⟩ := h.isObject htag
      exact ⟨object, fun word' next' h' => h'.sameObject h htag⟩
    · exact ⟨0, fun word next h => absurd ⟨word, next, h⟩ hsome⟩
  obtain ⟨object, hobject⟩ := hfits
  refine ⟨object, fun i hi ht => ?_, fun i hi ht => ?_⟩
  · have hword := hc.stack i hi
    rw [ht] at hword
    exact hobject _ _ hword
  · have hword := hc.locals i hi
    rw [ht] at hword
    exact hobject _ _ hword

/-- The stack below `n` and the locals are as given. -/
def Below (n : ℕ) (v w : ℕ → Slot) (f : VerifierFrame) : Prop :=
  n ≤ f.vstackpointer ∧ (∀ i < n, f.vstack i = v i) ∧ f.vlocals = w

theorem below_pushCategory1 {v w : ℕ → Slot} {slot : Slot} :
    Triple (Below n v w) (fun _ => True) (fun _ => Below n v w) (pushCategory1 m slot) := by
  refine Triple.intro (fun f u f' h hx => ?_) fun _ _ _ _ => trivial
  obtain ⟨-, rfl⟩ := pushCategory1_ok_iff.mp hx
  refine ⟨h.1.trans (Nat.le_succ _), fun i hi => ?_, h.2.2⟩
  simp only
  rw [update_of_ne (hi.trans_le h.1).ne]
  exact h.2.1 i hi

theorem below_pushInvokeResult {v w : ℕ → Slot} (ret : Option JavaType) :
    Triple (Below n v w) (fun _ => True) (fun _ => Below n v w) (pushInvokeResult m ret) := by
  rcases ret with _ | type
  · exact Triple.pure fun _ h => h
  · cases type
    case long => exact below_pushCategory1.bind fun _ => below_pushCategory1
    case double => exact below_pushCategory1.bind fun _ => below_pushCategory1
    all_goals exact below_pushCategory1

theorem initName_isUninitialized {klass name : Symbol}
    (h : initName env m bci klass tag f = .ok (name, f')) :
    isUninitialized tag = true := by
  cases tag <;> first | rfl | cases h

/-- An `<init>` call: the receiver has the tag of an uninitialized object, and
only slots with this tag are changed. -/
theorem handleInvoker_init_ok {index : ℕ} {klass : Symbol} {params : List JavaType}
    {ret : Option JavaType}
    (hconst : m.constants[index]? = some (.method klass objectInitializerName params ret))
    (hx : handleInvoker env m bci index .special f = .ok ((), f')) {receiver : ℕ}
    (hreceiver : receiver = f.vstackpointer - parameterWordSize params - 1) :
    receiver < f.vstackpointer ∧ isUninitialized (f.vstack receiver).tag = true ∧
      (∀ i < receiver, f'.vstack i ≠ f.vstack i → (f.vstack i).tag = (f.vstack receiver).tag) ∧
      ∀ i, f'.vlocals i ≠ f.vlocals i → (f.vlocals i).tag = (f.vstack receiver).tag := by
  unfold handleInvoker at hx
  rw [hconst] at hx
  obtain ⟨n, f₁, hargs, hx⟩ := bind_eq_ok.mp hx
  obtain ⟨rfl, -, -, rfl⟩ := popInvokeArguments_ok_iff.mp hargs
  rw [if_neg (by simp)] at hx
  obtain ⟨_, f₂, hinit, hx⟩ := bind_eq_ok.mp hx
  obtain ⟨_, f₃, hpush, hx⟩ := bind_eq_ok.mp hx
  obtain ⟨-, rfl⟩ := ofExcept_eq_ok.mp hx
  obtain ⟨slot, f₄, hpop, hrest⟩ := bind_eq_ok.mp hinit
  obtain ⟨name, f₅, hname, hreplace⟩ := bind_eq_ok.mp hrest
  obtain ⟨hpos, rfl, -, -, rfl⟩ := popCategory1_ok_iff.mp hpop
  simp only at hpos hname hreplace
  rw [← hreceiver] at hname hreplace
  have hf₅ : f₅.vstack = f.vstack ∧ f₅.vlocals = f.vlocals ∧ f₅.vstackpointer = receiver := by
    rcases (initName_ok hname).2 with rfl | rfl
    · exact ⟨rfl, rfl, rfl⟩
    · exact ⟨rfl, rfl, rfl⟩
  obtain ⟨hstack, hlocals, hsp⟩ := hf₅
  cases hreplace
  rw [hstack, hlocals] at hpush
  obtain ⟨-, hbelow, hsame⟩ := (below_pushInvokeResult ret).ok
    (by exact ⟨hsp.ge, fun _ _ => rfl, rfl⟩) hpush
  refine ⟨by omega, initName_isUninitialized hname, fun i hi hne => ?_, fun i hne => ?_⟩
  · rw [hbelow i hi] at hne
    simp only at hne
    split_ifs at hne with htag
    · exact htag.2
    · exact absurd rfl hne
  · rw [hsame] at hne
    simp only at hne
    split_ifs at hne with htag
    · exact htag.2
    · exact absurd rfl hne

/-- The frame of an instruction tells the uninitialized objects of the activation
apart. -/
structure TracksObjects (env : ClassEnv) (m : Method) (f : VerifierFrame) (s : MState) : Prop where
  height : f.vstackpointer = s.sp
  holdsObject : ∀ tag, isUninitialized tag = true → ∃ object, HoldsObject m f s tag object
  initializes : ∀ index klass params ret f',
    m.iterateBytecode s.pc = .invokeSpecial index →
    m.constants[index]? = some (.method klass objectInitializerName params ret) →
    Verifier.exec env m s.pc (.invokeSpecial index) f = .ok ((), f') →
    InitializesReceiver m (s.sp - parameterWordSize params - 1) f f' s

theorem Conforms.tracksObjects (hc : Conforms m newest k f s) : TracksObjects env m f s where
  height := hc.sp_eq.symm
  holdsObject := fun _ htag => hc.holdsObject htag
  initializes := fun index klass params ret f' _ hconst hx => by
    obtain ⟨hlt, htag, hstack, hlocals⟩ := handleInvoker_init_ok hconst hx rfl
    rw [← hc.sp_eq] at hlt htag hstack hlocals
    generalize s.sp - parameterWordSize params - 1 = receiver at hlt htag hstack hlocals ⊢
    have hreceiver := hc.stack receiver (hc.sp_eq ▸ hlt)
    refine ⟨hreceiver.isObject htag, fun i hi hne => ?_, fun i hi hne => ?_⟩
    · have hword := hc.stack i (hc.sp_eq ▸ hi.trans hlt)
      rw [hstack i hi hne] at hword
      exact hword.sameObject hreceiver htag
    · have hword := hc.locals i hi
      rw [hlocals i hne] at hword
      exact hword.sameObject hreceiver htag

/-- **Main theorem.** In every state an execution of an accepted method reaches,
the one frame the verifier has for the instruction tells the uninitialized
objects apart. -/
theorem reachable_tracksObjects (hacc : Accepted env m cache) (hentry : Entry m s₀)
    (hrun : Relation.ReflTransGen (Step m) s₀ s) :
    ∃ f, FrameAt env m cache s.pc f ∧ (∀ f', FrameAt env m cache s.pc f' → f' = f) ∧
      TracksObjects env m f s := by
  obtain ⟨f, k, hf, hc, -⟩ := (runInvariant_of_run hacc hentry hrun).frame
  exact ⟨f, hf, fun f' hf' => hf'.unique hacc hf, hc.tracksObjects⟩

/-- Before the call of `<init>`, both slots hold the object of the `new`. -/
theorem createdState_tracksObjects :
    ∃ f, FrameAt .bare creatingMethod emptyCache createdState.pc f ∧
      (∀ f', FrameAt .bare creatingMethod emptyCache createdState.pc f' → f' = f) ∧
      TracksObjects .bare creatingMethod f createdState :=
  reachable_tracksObjects creatingMethod_accepted freshState_entry creatingMethod_run

end CldcVm.Interpreter
