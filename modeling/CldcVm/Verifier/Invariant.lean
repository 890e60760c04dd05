import CldcVm.Verifier.TwoWord

/-!
# The invariant of the verifier's frame

`TwoWord` is two-word consistency of a frame. Every primitive of the frame, the
match with a stack map and the check of the exception handlers keep it, and none
fails a `GUARANTEE`.
-/

namespace CldcVm.Verifier

open Lib Comp

/-! ## The invariant -/

/-- Two-word consistency of a frame: the stack fits, first words are followed by
their second words, and on the stack second words come after their first
words. -/
structure TwoWord (m : Method) (f : VerifierFrame) : Prop where
  height : f.vstackpointer ≤ m.maxStack
  stackHeads : HeadsFollowed f.vstack f.vstackpointer
  stackHalves : HalvesPreceded f.vstack f.vstackpointer
  localHeads : HeadsFollowed f.vlocals m.maxLocals

/-- What the members of the closure keep: two-word consistency, the number `k` of
stack maps seen, and that only an initializer has an uninitialized `this`. -/
structure FrameInvariant (m : Method) (k : ℕ) (f : VerifierFrame) : Prop extends TwoWord m f where
  index_eq : f.currentStackmapIndex = k
  flag : f.needInitialization = true → m.isObjectInitializer = true

variable {n : ℕ}

namespace FrameInvariant

variable {m : Method} {k : ℕ} {f : VerifierFrame}

/-- Popping `n` words that do not begin with a second word. -/
theorem popped (h : FrameInvariant m k f)
    (hcut : 0 < n → (f.vstack (f.vstackpointer - n)).tag.isHalf = false) :
    FrameInvariant m k { f with vstackpointer := f.vstackpointer - n } := by
  rcases Nat.eq_zero_or_pos n with rfl | hn
  · exact h
  · exact { h with
      height := (Nat.sub_le _ _).trans h.height
      stackHeads := h.stackHeads.truncate (Nat.sub_le _ _) fun _ => hcut hn
      stackHalves := h.stackHalves.truncate (Nat.sub_le _ _) }

end FrameInvariant

/-- `x` keeps the invariant and fails no `GUARANTEE`; what it returns has `V`. -/
abbrev Kept (m : Method) (k : ℕ) {α : Type} (V : α → Prop) (x : Vfy α) : Prop :=
  Keeps (FrameInvariant m k) (· ≠ .guarantee) V x

/-- The same for what returns nothing of interest. -/
abbrev Safe (m : Method) (k : ℕ) {α : Type} (x : Vfy α) : Prop := Kept m k (fun _ => True) x

variable {env : ClassEnv} {m : Method} {k : ℕ}

/-! ## The primitives -/

theorem safe_pushCategory1 {slot : Slot} (hs : slot.tag.isSingle = true) :
    Safe m k (pushCategory1 m slot) := by
  intro f h
  unfold pushCategory1
  split_ifs with hroom
  · exact ⟨trivial, { h with
      height := hroom
      stackHeads := h.stackHeads.push hs
      stackHalves := h.stackHalves.push hs }⟩
  · exact VerifyError.noConfusion

variable {kind : StackMapKind}

theorem safe_push (hs : kind.isSingle = true) : Safe m k (push m kind) :=
  safe_pushCategory1 hs

theorem safe_pushObject (name : Symbol) : Safe m k (pushObject m name) := safe_pushCategory1 rfl

theorem kept_popCategory1 : Kept m k (fun slot => slot.tag.isSingle = true) popCategory1 := by
  intro f h
  unfold popCategory1
  simp only
  split_ifs with hpos hhalf
  · exact VerifyError.noConfusion
  · have hhalf := (Bool.not_eq_true _).mp fun hne => hhalf (StackMapKind.isHalf_iff.mp hne)
    exact ⟨StackMapKind.isSingle_iff.mpr ⟨h.stackHeads.top hpos, hhalf⟩, h.popped fun _ => hhalf⟩
  · exact VerifyError.noConfusion

theorem safe_pushCategory2 {slots : Slot × Slot} (hs : IsBlock slots) :
    Safe m k (pushCategory2 m slots) := by
  intro f h
  unfold pushCategory2
  split_ifs with hroom
  · exact ⟨trivial, { h with
      height := hroom
      stackHeads := h.stackHeads.pushBlock hs
      stackHalves := h.stackHalves.pushBlock hs }⟩
  · exact VerifyError.noConfusion

theorem kept_popCategory2 : Kept m k IsBlock popCategory2 := by
  intro f h
  unfold popCategory2
  simp only
  split_ifs with hlow hhalf
  · exact VerifyError.noConfusion
  · exact VerifyError.noConfusion
  · have hhalf := (Bool.not_eq_true _).mp fun hne => hhalf (StackMapKind.isHalf_iff.mp hne)
    exact ⟨h.stackHeads.block h.stackHalves (by omega) hhalf, h.popped fun _ => hhalf⟩

theorem kept_popRef : Kept m k (fun slot => slot.tag.isSingle = true) popRef :=
  kept_popCategory1.bind fun _ hs =>
    .ite (fun _ => .pure hs) fun _ => .throw VerifyError.noConfusion

variable {e : VerifyError}

theorem computeIsSubtypeOf_error {source : Option Symbol} {target : Symbol}
    (h : computeIsSubtypeOf env source target = .error e) : e = .nullSymbol := by
  unfold computeIsSubtypeOf at h
  split at h <;> cases h
  rfl

theorem isAssignableTo_error {source target : Slot}
    (h : isAssignableTo env source target = .error e) : e = .nullSymbol := by
  unfold isAssignableTo at h
  split_ifs at h
  split at h
  · cases h
    rfl
  · exact computeIsSubtypeOf_error h

theorem safe_popObject (name : Symbol) : Safe m k (popObject env name) := by
  refine kept_popCategory1.bind fun slot _ => .ofExcept (fun _ _ => trivial) fun e he => ?_
  unfold checkObjectSlot at he
  split at he
  · split at he <;> cases he
    · exact VerifyError.noConfusion
    · rename_i hsub
      rw [computeIsSubtypeOf_error hsub]
      exact VerifyError.noConfusion
  · cases he
  · cases he
    exact VerifyError.noConfusion

theorem safe_pop (hs : kind.isSingle = true) : Safe m k (pop kind) := by
  intro f h
  unfold pop
  split_ifs with hpos htag
  · exact VerifyError.noConfusion
  · refine ⟨trivial, h.popped fun _ => ?_⟩
    rw [← not_not.mp htag]
    exact (StackMapKind.isSingle_iff.mp hs).2
  · exact VerifyError.noConfusion

/-- The two pushes of `push_long` and `push_double` are one push of a block. -/
theorem safe_pushDoubleword (hhead : kind.isHead = true) : Safe m k (pushDoubleword m kind) := by
  refine Triple.intro (fun f u f' h hx => ⟨trivial, ?_⟩) fun f e h hx => ?_
  · obtain ⟨_, f₁, h1, h2⟩ := bind_eq_ok.mp hx
    obtain ⟨-, rfl⟩ := pushCategory1_ok_iff.mp h1
    obtain ⟨hroom, rfl⟩ := pushCategory1_ok_iff.mp h2
    have hblock : IsBlock (⟨kind, none⟩, ⟨kind.secondHalf, none⟩) := .inr ⟨hhead, rfl⟩
    exact { h with
      height := hroom
      stackHeads := h.stackHeads.pushBlock hblock
      stackHalves := h.stackHalves.pushBlock hblock }
  · have hpush : ∀ kind : StackMapKind, ∀ f, push m kind f = .error e → e ≠ .guarantee := by
      intro kind f hp
      unfold push pushCategory1 at hp
      split_ifs at hp
      cases hp
      exact VerifyError.noConfusion
    rcases bind_eq_error.mp hx with h1 | ⟨_, f₁, -, h2⟩
    · exact hpush _ _ h1
    · exact hpush _ _ h2

/-- So are the two pops of `pop(T_LONG)` and `pop(T_DOUBLE)`. -/
theorem safe_popDoubleword (hhead : kind.isHead = true) :
    Safe m k (do pop kind.secondHalf; pop kind) := by
  refine Triple.intro (fun f u f' h hx => ⟨trivial, ?_⟩) fun f e h hx => ?_
  · obtain ⟨_, f₁, h1, h2⟩ := bind_eq_ok.mp hx
    obtain ⟨-, -, rfl⟩ := pop_ok_iff.mp h1
    obtain ⟨-, htag, rfl⟩ := pop_ok_iff.mp h2
    refine h.popped (n := 2) fun _ => ?_
    rw [show f.vstackpointer - 2 = f.vstackpointer - 1 - 1 by omega, htag]
    exact (Bool.not_eq_true _).mp fun hhalf => by
      rw [StackMapKind.isHead_of_isHalf hhalf] at hhead
      cases hhead
  · have hpop : ∀ kind : StackMapKind, ∀ f, pop kind f = .error e → e ≠ .guarantee := by
      intro kind f hp
      unfold pop at hp
      split_ifs at hp <;> cases hp <;> exact VerifyError.noConfusion
    rcases bind_eq_error.mp hx with h1 | ⟨_, f₁, -, h2⟩
    · exact hpop _ _ h1
    · exact hpop _ _ h2

variable {index : ℕ}

theorem safe_setLocalRef {slot : Slot} (hs : slot.tag.isSingle = true) :
    Safe m k (setLocalRef m index slot) := by
  intro f h
  unfold setLocalRef
  split_ifs with hroom
  · exact VerifyError.noConfusion
  · exact ⟨trivial, { h with
      localHeads := h.localHeads.setSingle hs le_rfl fun _ hj _ => hj }⟩

theorem safe_setLocal (hs : kind.isSingle = true) : Safe m k (setLocal m index kind) := by
  refine .ite (fun hhead => ?_) fun _ => safe_setLocalRef hs
  rw [StackMapKind.isSingle_iff, StackMapKind.isHead_iff.mpr hhead] at hs
  cases hs.1

theorem safe_setLocal2 (hhead : kind.isHead = true) : Safe m k (setLocal2 m index kind) := by
  intro f h
  unfold setLocal2
  rcases StackMapKind.isHead_iff.mp hhead with rfl | rfl
  all_goals
    split_ifs with hkind hroom
    · simp at hkind
    · exact VerifyError.noConfusion
    · exact ⟨trivial, { h with
        localHeads := h.localHeads.setPair (⟨_, none⟩, ⟨_, none⟩) rfl le_rfl
          (Nat.not_le.mp hroom) fun _ hj _ _ => hj }⟩

theorem safe_checkLocal (hkind : kind = .integer ∨ kind = .float) :
    Safe m k (checkLocal m index kind) := by
  intro f h
  unfold checkLocal
  split_ifs with h1 h2 h3
  · exact absurd hkind (not_or.mpr h1)
  · exact VerifyError.noConfusion
  · exact VerifyError.noConfusion
  · exact ⟨trivial, h⟩

/-- The `GUARANTEE` of `check_local2` holds: a first word is followed. -/
theorem safe_checkLocal2 (hhead : kind.isHead = true) : Safe m k (checkLocal2 m index kind) := by
  intro f h
  unfold checkLocal2
  split_ifs with h1 h2 h3 h4
  · exact absurd (StackMapKind.isHead_iff.mp hhead) (not_or.mpr h1)
  · exact VerifyError.noConfusion
  · exact VerifyError.noConfusion
  · have htag := not_not.mp h3
    have := (h.localHeads index (by omega) (by rw [htag]; exact hhead)).2
    rw [htag] at this
    exact absurd this h4
  · exact ⟨trivial, h⟩

theorem kept_checkLocalRef (index : ℕ) :
    Kept m k (fun slot => slot.tag.isSingle = true) (checkLocalRef m index) := by
  refine Triple.intro (fun f slot f' h hx => ?_) fun f e h hx => ?_
  · obtain ⟨-, href, rfl, rfl⟩ := checkLocalRef_ok_iff.mp hx
    refine ⟨?_, h⟩
    show (refSlot _).tag.isSingle = true
    rw [refSlot_tag]
    exact StackMapKind.isSingle_of_isReference href
  · unfold checkLocalRef at hx
    simp only at hx
    split_ifs at hx <;> cases hx <;> exact VerifyError.noConfusion

theorem safe_replace {source : StackMapKind} (hs : source.isSingle = true) (name : Symbol) :
    Safe m k (replaceStackTypeWithRealType m source .object name) := by
  have htag : ∀ {v : ℕ → Slot} {n i : ℕ}, (v i).tag ≠ source →
      (if i < n ∧ (v i).tag = source then (⟨.object, some name⟩ : Slot) else v i) = v i :=
    fun hne => if_neg fun h => hne h.2
  have hhead : ∀ {v : ℕ → Slot} {n i : ℕ},
      (if i < n ∧ (v i).tag = source then (⟨.object, some name⟩ : Slot) else v i).tag.isHead = true →
        (v i).tag.isHead = true ∧ (v i).tag ≠ source := by
    intro v n i h
    split_ifs at h with hsrc
    · cases h
    · refine ⟨h, fun he => ?_⟩
      rw [he, (StackMapKind.isSingle_iff.mp hs).1] at h
      cases h
  have hhalf : ∀ {kind : StackMapKind}, kind.isHalf = true → kind ≠ source := by
    intro kind h he
    rw [he, (StackMapKind.isSingle_iff.mp hs).2] at h
    cases h
  have hfollowed : ∀ {v : ℕ → Slot} {n n' : ℕ}, HeadsFollowed v n → HeadsFollowed (fun i =>
      if i < n' ∧ (v i).tag = source then (⟨.object, some name⟩ : Slot) else v i) n := by
    intro v n n' h i hi hh
    obtain ⟨h1, h2⟩ := hhead hh
    obtain ⟨h3, h4⟩ := h i hi h1
    refine ⟨h3, ?_⟩
    simp only
    rw [htag h2, htag (hhalf (h4 ▸ StackMapKind.isHalf_secondHalf _)), h4]
  intro f h
  refine ⟨trivial, { h with
    stackHeads := hfollowed h.stackHeads
    localHeads := hfollowed h.localHeads
    stackHalves := fun i hi hh => ?_ }⟩
  have hold : (f.vstack i).tag.isHalf = true := by
    simp only at hh
    split_ifs at hh with hsrc
    · cases hh
    · exact hh
  obtain ⟨j, rfl, h1, h2⟩ := h.stackHalves i hi hold
  refine ⟨j, rfl, ?_⟩
  have hj : (f.vstack j).tag ≠ source := fun he => by
    rw [he, (StackMapKind.isSingle_iff.mp hs).1] at h1
    cases h1
  simp only
  rw [htag hj, htag (hhalf hold)]
  exact ⟨h1, h2⟩

/-! ## Arguments -/

variable {v : ℕ → Slot}

/-- A parameter is checked on its own slots, and a first word there has its
second word. -/
theorem checkArgument_error {sp : ℕ} (h : HeadsFollowed v sp) (hn : n < sp)
    {type : JavaType} (he : checkArgument env v n type = .error e) : e ≠ .guarantee := by
  have hpair : ∀ kind : StackMapKind, kind.isHead = true → (v n).tag = kind →
      (v (n + 1)).tag = kind.secondHalf := by
    intro kind hhead htag
    have := (h n hn (by rw [htag]; exact hhead)).2
    rwa [htag] at this
  have hobject : ∀ name : Symbol,
      checkArgument env v n (.object name) = .error e → e ≠ .guarantee := by
    intro name hx
    simp only [checkArgument] at hx
    split_ifs at hx
    · split at hx <;> cases hx
      · exact VerifyError.noConfusion
      · rename_i hsub
        rw [computeIsSubtypeOf_error hsub]
        exact VerifyError.noConfusion
    · cases hx
      exact VerifyError.noConfusion
  have hsingle : ∀ kind : StackMapKind,
      (if (v n).tag ≠ kind then .error .stackBadType else .ok () : Except VerifyError Unit) =
        .error e → e ≠ .guarantee := by
    intro kind hx
    split_ifs at hx
    cases hx
    exact VerifyError.noConfusion
  cases type
  case object name => exact hobject name he
  case array name => exact hobject name he
  case float => exact hsingle .float he
  case long =>
    simp only [checkArgument] at he
    split_ifs at he with h1 h2 <;> cases he
    · exact VerifyError.noConfusion
    · exact absurd (hpair .long rfl (not_not.mp h1)) h2
  case double =>
    simp only [checkArgument] at he
    split_ifs at he with h1 h2 <;> cases he
    · exact VerifyError.noConfusion
    · exact absurd (hpair .double rfl (not_not.mp h1)) h2
  all_goals exact hsingle .integer he

theorem wordSize_pos (type : JavaType) : 0 < type.wordSize := by
  cases type <;> simp [JavaType.wordSize]

theorem checkArguments_error {sp : ℕ} (h : HeadsFollowed v sp)
    {params : List JavaType} (hn : n + parameterWordSize params ≤ sp)
    (he : checkArguments env v n params = .error e) : e ≠ .guarantee := by
  induction params generalizing n with
  | nil => cases he
  | cons type params ih =>
    have hsize : parameterWordSize (type :: params) = type.wordSize + parameterWordSize params := by
      simp [parameterWordSize]
    have hpos := wordSize_pos type
    unfold checkArguments at he
    split at he
    · rename_i hfirst
      cases he
      exact checkArgument_error h (by omega) hfirst
    · exact ih (by omega) he

/-- The first parameter does not begin with a second word. -/
theorem checkArgument_ok {type : JavaType} {u : Unit}
    (h : checkArgument env v n type = .ok u) : (v n).tag.isHalf = false := by
  have hif : ∀ {kind : StackMapKind} {x : Except VerifyError Unit}, kind.isHalf = false →
      (if (v n).tag ≠ kind then .error .stackBadType else x) = .ok u →
        (v n).tag.isHalf = false := by
    intro kind x hkind hx
    split_ifs at hx with htag
    rw [not_not.mp htag]
    exact hkind
  have hobject : ∀ {x : Except VerifyError Unit},
      (if (v n).tag = .null then .ok () else if (v n).tag = .object then x
        else .error .stackBadType) = .ok u → (v n).tag.isHalf = false := by
    intro x hx
    split_ifs at hx with hnull hobj
    · rw [hnull]
      rfl
    · rw [hobj]
      rfl
  cases type
  case object name => exact hobject h
  case array name => exact hobject h
  case float => exact hif (by rfl) h
  case long => exact hif (by rfl) h
  case double => exact hif (by rfl) h
  all_goals exact hif (by rfl) h

theorem safe_popInvokeArguments (params : List JavaType) :
    Safe m k (popInvokeArguments env params) := by
  refine Triple.intro (fun f n f' h hx => ⟨trivial, ?_⟩) fun f e h hx => ?_
  · obtain ⟨rfl, hsize, hargs, rfl⟩ := popInvokeArguments_ok_iff.mp hx
    refine h.popped fun hpos => ?_
    rcases params with _ | ⟨type, params⟩
    · cases hpos
    · unfold checkArguments at hargs
      split at hargs
      · cases hargs
      · rename_i hfirst
        exact checkArgument_ok hfirst
  · unfold popInvokeArguments at hx
    simp only at hx
    split_ifs at hx with hsize
    · cases hx
      exact VerifyError.noConfusion
    · split at hx
      · rename_i hargs
        cases hx
        exact checkArguments_error h.stackHeads (by omega) hargs
      · cases hx

/-! ## Stack maps and handlers -/

theorem matchSlots_error {flags : MatchFlags} {slots : List Slot} {i : ℕ} {klass : Option Symbol}
    {needs : Bool}
    (h : matchSlots env flags slots i klass needs v = .error e) : e ≠ .guarantee := by
  induction slots generalizing i klass needs v with
  | nil => cases h
  | cons slot slots ih =>
    simp only [matchSlots] at h
    split at h
    · rename_i hassign
      cases h
      have herror : e = .nullSymbol := by
        split_ifs at hassign <;> exact isAssignableTo_error hassign
      rw [herror]
      exact VerifyError.noConfusion
    · cases h
      exact VerifyError.noConfusion
    · exact ih h

theorem safe_matchStackmap {map : StackMap} {flags : MatchFlags}
    (hlocals : map.localSlots.length ≤ m.maxLocals) (hstack : map.stackSlots.length ≤ m.maxStack) :
    Safe m k (matchStackmap env m map flags) := by
  refine Triple.intro (fun f u f' h hx => ⟨trivial, ?_⟩) fun f e h hx => ?_
  · obtain ⟨-, hneeds, rfl⟩ := matchStackmap_ok_iff.mp hx
    cases flags.merge with
    | false => simpa using h
    | true =>
      refine {
        height := hstack
        stackHeads := headsFollowed_overlay (pairedTags_slotsOf map.stack)
        stackHalves := halvesPreceded_overlay (pairedTags_slotsOf map.stack)
        localHeads := headsFollowed_mergedLocals hlocals
        index_eq := h.index_eq
        flag := fun hset => ?_ }
      by_contra hinit
      simp only [(Bool.not_eq_true _).mp hinit, Bool.false_eq_true, false_and, if_false] at hset
      exact hinit (h.flag hset)
  · unfold matchStackmap at hx
    split at hx
    · rename_i hslots
      cases hx
      exact matchSlots_error hslots
    · simp only at hx
      split_ifs at hx
      · cases hx
        exact VerifyError.noConfusion
      all_goals
        split at hx
        · rename_i hslots
          cases hx
          exact matchSlots_error hslots
        · split_ifs at hx
          cases hx
          exact VerifyError.noConfusion

theorem safe_checkStackmapMatch (bci : ℤ) (flags : MatchFlags) :
    Safe m k (checkStackmapMatch env m bci flags) := by
  unfold checkStackmapMatch
  split
  · exact .ite (fun _ => .throw VerifyError.noConfusion) fun _ => .pure trivial
  · rename_i hmap
    obtain ⟨hlocals, hstack⟩ := Method.stackmapAt_fits hmap
    exact safe_matchStackmap hlocals hstack

theorem safe_checkBranchTarget (dest : ℤ) : Safe m k (checkBranchTarget env m dest) :=
  safe_checkStackmapMatch _ _

theorem safe_klassNameAt (index : ℕ) : Safe m k (klassNameAt m index) := by
  refine .ofExcept (fun _ _ => trivial) fun e he => ?_
  split at he <;> cases he <;> exact VerifyError.noConfusion

theorem FrameInvariant.entered {f : VerifierFrame} (h : FrameInvariant m k f) :
    FrameInvariant m k { f with
      savedStackPointer := f.vstackpointer, saved0 := f.vstack 0, vstackpointer := 0 } :=
  { h with
    height := Nat.zero_le _
    stackHeads := fun _ hi => absurd hi (Nat.not_lt_zero _)
    stackHalves := fun _ hi => absurd hi (Nat.not_lt_zero _) }

/-- `save_stack_state` and the push of the exception. -/
def enterHandler (m : Method) (name : Symbol) : Vfy Unit := do
  saveStackState
  pushObject m name

theorem safe_enterHandler (name : Symbol) : Safe m k (enterHandler m name) :=
  Keeps.bind (V := fun _ => True) (fun _ h => ⟨trivial, h.entered⟩) fun _ _ => safe_pushObject name

theorem safe_checkExceptionHandler (h : Handler) : Safe m k (checkExceptionHandler env m h) := by
  refine Triple.intro (fun f u f' hf hx => ⟨trivial, ?_⟩) fun f e hf hx => ?_
  · obtain ⟨-, -, -, -, rfl⟩ := checkExceptionHandler_ok_iff.mp hx
    exact { hf with }
  · have hclass : Safe m k (exceptionClass m h) :=
      .ite (fun _ => safe_klassNameAt _) fun _ => .pure trivial
    have hcheck : Safe m k (do
        let name ← exceptionClass m h
        saveStackState
        pushObject m name
        checkBranchTarget env m h.handler) :=
      hclass.bind fun name _ => Keeps.bind (V := fun _ => True) (fun _ h => ⟨trivial, h.entered⟩)
        fun _ _ => (safe_pushObject name).bind fun _ _ => safe_checkBranchTarget _
    -- `restore_stack_state` raises nothing
    have hsplit : checkExceptionHandler env m h = (do
        let name ← exceptionClass m h
        saveStackState
        pushObject m name
        checkBranchTarget env m h.handler) >>= fun _ => restoreStackState := by
      simp only [checkExceptionHandler, bind_assoc]
    rw [hsplit] at hx
    rcases bind_eq_error.mp hx with hx | ⟨_, _, -, hx⟩
    · exact hcheck.error hf hx
    · cases hx

theorem safe_checkExceptionHandlersForBci (bci : ℕ) (handlers : List Handler) :
    Safe m k (checkExceptionHandlersForBci env m bci handlers) := by
  induction handlers with
  | nil => exact .pure trivial
  | cons h handlers ih =>
    exact Keeps.bind (.ite (fun _ => safe_checkExceptionHandler h) fun _ => .pure trivial)
      fun _ _ => ih

end CldcVm.Verifier
