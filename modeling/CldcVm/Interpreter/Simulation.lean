import CldcVm.Interpreter.Conforms

/-!
# The machine follows the verifier

Where a member of the verifier's closure accepts an instruction, the machine
executes it without a fault, and what comes next conforms again: the frame the
verifier goes on with, or the stack map of the branch target.

Results:
* `exec_simulates`: every instruction but `new`.
* `newObject_simulates`: `new`, where the frame has no older object of the same
  `new`.
-/

namespace CldcVm.Interpreter

open Lib Comp Verifier
open Function (update update_of_ne update_self)

variable {env : ClassEnv} {m : Method} {newest : Origin → Option ℕ} {k : ℕ} {c : Choice}

/-! ## Uses of words -/

theorem use_true {fits : Bool} (h : fits = true) : use fits = pure () := if_pos h

variable {word : Word}

theorem hasKind_float : word.hasKind .float = true ↔ ∃ v, word = .float v := by
  cases word <;> simp [Word.hasKind]

theorem hasKind_object : word.hasKind .object = true ↔ ∃ o, word = .ref o := by
  cases word <;> simp [Word.hasKind]

variable {kind : BasicType}

theorem hasKind_int (hk : kind.isPrimitive = true)
    (hne : kind ≠ .float) (h : word.hasKind kind = true) : ∃ v, word = .int v := by
  cases word <;> cases kind <;> simp_all [Word.hasKind, BasicType.isPrimitive]

theorem arePair_long {words : Word × Word} :
    Word.arePair .long words = true ↔ SlotFits newest words.1 words.2 .long := by
  obtain ⟨word1, word2⟩ := words
  cases word1 <;> cases word2 <;> simp [Word.arePair, SlotFits]
  exact eq_comm

theorem arePair_double {words : Word × Word} :
    Word.arePair .double words = true ↔ SlotFits newest words.1 words.2 .double := by
  obtain ⟨word1, word2⟩ := words
  cases word1 <;> cases word2 <;> simp [Word.arePair, SlotFits]
  exact eq_comm

section Rules

variable {α β γ : Type} {V : α → β → Prop} {W : α → γ → Prop}

theorem Follows.used {x : Vfy α} {y : Mch β} {fits : β → Bool} (h : Follows m newest k V x y)
    (hfits : ∀ a b, V a b → fits b = true) :
    FollowsTo m newest k x (y >>= fun b => use (fits b)) := by
  intro f s hc a f' hx
  obtain ⟨b, s', hy, hV, hc'⟩ := h f s hc a f' hx
  exact ⟨(), s', bind_eq_ok.mpr ⟨b, s', hy, by rw [use_true (hfits a b hV)]; rfl⟩, trivial, hc'⟩

theorem Follows.after_use {x : Vfy α} {y : Mch γ} {fits : Bool} (hfits : fits = true)
    (h : Follows m newest k W x y) : Follows m newest k W x (use fits >>= fun _ => y) := by
  rw [use_true hfits, pure_bind]
  exact h

end Rules

/-! ## Values -/

theorem follows_popInteger (hkind : popType kind = popInteger)
    (hvalue : popValue kind = do let word ← popWord; use (word.hasKind kind))
    (hfits : ∀ word : Word, (∃ v, word = .int v) → word.hasKind kind = true) :
    FollowsTo m newest k (popType kind) (popValue kind) := by
  rw [hkind, hvalue]
  exact Follows.used (follows_pop rfl) fun _ word h => hfits word h

theorem follows_popType (hk : kind.isPrimitive = true) :
    FollowsTo m newest k (popType kind) (popValue kind) := by
  cases kind
  case long =>
    exact Follows.used (follows_popDoubleword (by rfl : StackMapKind.long.isHead = true))
      fun _ _ h => arePair_long.mpr h
  case double =>
    exact Follows.used (follows_popDoubleword (by rfl : StackMapKind.double.isHead = true))
      fun _ _ h => arePair_double.mpr h
  case float => exact Follows.used (follows_pop rfl) fun _ _ h => hasKind_float.mpr h
  case object => cases hk
  case array => cases hk
  case void => cases hk
  all_goals
    refine follows_popInteger rfl rfl fun word h => ?_
    obtain ⟨v, rfl⟩ := h
    rfl

theorem follows_popInt : FollowsTo m newest k popInteger (popValue .int) :=
  follows_popType (by rfl : BasicType.int.isPrimitive = true)

theorem follows_pushType (hk : kind.isPrimitive = true) :
    FollowsTo m newest k (pushType m kind) (pushValue m c kind) := by
  cases kind
  case long => exact follows_pushDoubleword rfl ⟨c.long, rfl, rfl⟩
  case double => exact follows_pushDoubleword rfl ⟨c.double, rfl, rfl⟩
  case float => exact follows_pushCategory1 ⟨rfl, c.float, rfl⟩
  case object => cases hk
  case array => cases hk
  case void => cases hk
  all_goals exact follows_pushCategory1 ⟨rfl, c.int, rfl⟩

theorem follows_popRef_word :
    Follows m newest k (fun slot word => slot.tag.isReference = true ∧ SlotWord newest slot word)
      popRef popWord := by
  intro f s hc slot f' hx
  obtain ⟨hpop, href⟩ := popRef_ok_iff.mp hx
  obtain ⟨word, s', hy, hsw, hc'⟩ := follows_popCategory1 f s hc slot f' hpop
  exact ⟨word, s', hy, ⟨href, hsw⟩, hc'⟩

theorem follows_popRef : FollowsTo m newest k popRef (popValue .object) :=
  Follows.used follows_popRef_word fun _ _ h => hasKind_object.mpr (h.2.2.isRef h.1)

theorem follows_popAnyRef : FollowsTo m newest k popAnyRef (popValue .object) := by
  intro f s hc u f' hx
  obtain ⟨slot, f₁, h1, h2⟩ := bind_eq_ok.mp hx
  cases h2
  obtain ⟨b, s', hy, -, hc'⟩ := follows_popRef f s hc slot f' h1
  exact ⟨b, s', hy, trivial, hc'⟩

variable {name : Symbol}

theorem isReference_of_isObjectSlot {slot : Slot}
    (h : IsObjectSlot env slot name) : slot.tag.isReference = true := by
  rcases h with h | ⟨h, -⟩ <;> rw [h] <;> rfl

theorem follows_popObject_word (name : Symbol) :
    Follows m newest k (fun _ word => ∃ o, word = .ref o) (popObject env name) popWord := by
  intro f s hc u f' hx
  obtain ⟨slot, hpop, hobject⟩ := popObject_ok_iff.mp hx
  obtain ⟨word, s', hy, hsw, hc'⟩ := follows_popCategory1 f s hc slot f' hpop
  exact ⟨word, s', hy, hsw.2.isRef (isReference_of_isObjectSlot hobject), hc'⟩

theorem follows_popObject (name : Symbol) :
    FollowsTo m newest k (popObject env name) (popValue .object) :=
  Follows.used (follows_popObject_word name) fun _ _ h => hasKind_object.mpr h

theorem follows_pushObject (name : Symbol) (o : Option ℕ) :
    FollowsTo m newest k (pushObject m name) (pushWord m (.ref o)) :=
  follows_pushCategory1 ⟨rfl, o, rfl⟩

theorem follows_pushJavaType (type : JavaType) :
    FollowsTo m newest k (pushJavaType m type) (pushValue m c type.basicType) := by
  unfold pushJavaType
  split
  · exact follows_pushObject _ _
  · exact follows_pushObject _ _
  · rename_i hobject harray
    exact follows_pushType (JavaType.isPrimitive_basicType hobject harray)

theorem follows_popJavaType (type : JavaType) :
    FollowsTo m newest k (popJavaType env type) (popValue type.basicType) := by
  unfold popJavaType
  split
  · exact follows_popObject _
  · exact follows_popObject _
  · rename_i hobject harray
    exact follows_popType (JavaType.isPrimitive_basicType hobject harray)

theorem follows_popArrayOf (kind : BasicType) :
    Follows m newest k (fun _ word => ∃ o, word = .ref o) (popArrayOf env kind) popWord :=
  Tracks.weaken (Tracks.bind_ofExcept follows_popRef_word)
    fun _ _ h => h.elim fun _ h => h.2.2.isRef h.1

/-! ## Locals -/

theorem follows_loadLocal (hk : kind = .object ∨ kind.isPrimitive = true)
    (index : ℕ) : FollowsTo m newest k (loadLocal m kind index) (load m kind index) := by
  unfold loadLocal
  refine Tracks.ite (fun hobject => ?_) fun hne => ?_
  · subst hobject
    exact follows_checkLocalRef.bind fun slot word h =>
      Follows.after_use (hasKind_object.mpr (h.2.2.isRef h.1)) (follows_pushCategory1 h.2)
  · have hprim := hk.resolve_left hne
    cases kind
    case long =>
      exact follows_checkLocal2.bind fun _ words h =>
        Follows.after_use (arePair_long.mpr h) (follows_pushDoubleword rfl h)
    case double =>
      exact follows_checkLocal2.bind fun _ words h =>
        Follows.after_use (arePair_double.mpr h) (follows_pushDoubleword rfl h)
    case float =>
      exact (follows_checkLocal rfl).bind fun _ word h =>
        Follows.after_use (hasKind_float.mpr h) (follows_pushCategory1 ⟨rfl, h⟩)
    case object => cases hprim
    case array => cases hprim
    case void => cases hprim
    all_goals
      refine (follows_checkLocal rfl).bind fun _ word h =>
        Follows.after_use ?_ (follows_pushCategory1 ⟨rfl, h⟩)
      obtain ⟨v, rfl⟩ := h
      rfl

theorem follows_storeLocal (hk : kind = .object ∨ kind.isPrimitive = true)
    (index : ℕ) : FollowsTo m newest k (storeLocal m kind index) (store m kind index) := by
  unfold storeLocal
  refine Tracks.ite (fun hobject => ?_) fun hne => ?_
  · subst hobject
    exact follows_popRef_word.bind fun slot word h =>
      Follows.after_use (hasKind_object.mpr (h.2.2.isRef h.1)) (follows_setLocalRef h.2)
  · have hprim := hk.resolve_left hne
    cases kind
    case long =>
      exact (follows_popDoubleword rfl).bind fun _ words h =>
        Follows.after_use (arePair_long.mpr h) (follows_setLocal2 rfl h)
    case double =>
      exact (follows_popDoubleword rfl).bind fun _ words h =>
        Follows.after_use (arePair_double.mpr h) (follows_setLocal2 rfl h)
    case float =>
      exact (follows_pop rfl).bind fun _ word h =>
        Follows.after_use (hasKind_float.mpr h) (follows_setLocal rfl h)
    case object => cases hprim
    case array => cases hprim
    case void => cases hprim
    all_goals
      refine (follows_pop rfl).bind fun _ word h =>
        Follows.after_use ?_ (follows_setLocal rfl h)
      obtain ⟨v, rfl⟩ := h
      rfl

/-! ## Changes of the frame that the machine does not see -/

variable {f f' : VerifierFrame} {s : MState}

/-- The machine only sees what is alive. -/
theorem Conforms.of_live (h : Conforms m newest k f s)
    (hframe : FrameInvariant m k f') (hflows : f'.noControlFlow = f.noControlFlow)
    (hsp : f'.vstackpointer = f.vstackpointer)
    (hstack : ∀ i < f.vstackpointer, f'.vstack i = f.vstack i)
    (hlocals : ∀ i < m.maxLocals, f'.vlocals i = f.vlocals i) : Conforms m newest k f' s where
  frame := hframe
  flows := hflows.trans h.flows
  newest_eq := h.newest_eq
  sp_eq := h.sp_eq.trans hsp.symm
  stack := fun i hi => by
    rw [hsp] at hi
    rw [hstack i hi]
    exact h.stack i hi
  locals := fun i hi => by
    rw [hlocals i hi]
    exact h.locals i hi

/-- `put_field` puts the receiver back and pops it again. -/
theorem follows_popPutReceiver (klass field target : Symbol) (type : JavaType) :
    FollowsTo m newest k (popPutReceiver env m klass field target type) (popValue .object) := by
  intro f s hc u f' hx
  obtain ⟨slot, f₁, hpop, hx⟩ := bind_eq_ok.mp hx
  obtain ⟨_, f₂, hpush, hobject⟩ := bind_eq_ok.mp hx
  obtain ⟨b, s', hy, -, hc₁⟩ := follows_popRef f s hc slot f₁ hpop
  have hsingle := (kept_popRef.ok hc.frame hpop).1
  have hframe₂ := ((safe_pushCategory1 (m := m) (by split_ifs <;> [rfl; exact hsingle])).ok
    hc₁.frame hpush).2
  have hframe := ((safe_popObject target).ok hframe₂ hobject).2
  obtain ⟨-, rfl⟩ := pushCategory1_ok_iff.mp hpush
  obtain ⟨_, hpop', -⟩ := popObject_ok_iff.mp hobject
  obtain ⟨-, -, -, -, rfl⟩ := popCategory1_ok_iff.mp hpop'
  refine ⟨b, s', hy, trivial, hc₁.of_live hframe rfl (by simp) (fun i hi => ?_) fun _ _ => rfl⟩
  simp only
  rw [update_of_ne hi.ne]

/-- A reference slot that becomes an `Object` still holds its reference. -/
theorem follows_replace {source : StackMapKind} (hs : source.isReference = true) (name : Symbol) :
    FollowsTo m newest k (replaceStackTypeWithRealType m source .object name)
      (pure () : Mch Unit) := by
  have hslot : ∀ {n i : ℕ} {v : ℕ → Slot} {word next : Word},
      SlotFits newest word next (v i).tag → SlotFits newest word next
        (if i < n ∧ (v i).tag = source then (⟨.object, some name⟩ : Slot) else v i).tag := by
    intro n i v word next h
    split_ifs with hi
    · exact h.isRef (hi.2.symm ▸ hs)
    · exact h
  intro f s hc u f' hx
  have hframe := ((safe_replace (StackMapKind.isSingle_of_isReference hs) name).ok hc.frame hx).2
  cases hx
  exact ⟨(), s, rfl, trivial, { hc with
    frame := hframe
    stack := fun i hi => hslot (hc.stack i hi)
    locals := fun i hi => hslot (hc.locals i hi) }⟩

variable {bci : ℕ}

theorem initThis_ok {klass : Symbol} (h : initThis env m bci klass f = .ok (name, f')) :
    f' = { f with needInitialization := false } := by
  unfold initThis at h
  rw [get_bind_apply] at h
  split_ifs at h <;> cases h
  rfl

theorem initName_ok {klass : Symbol} {kind : StackMapKind}
    (h : initName env m bci klass kind f = .ok (name, f')) :
    kind.isReference = true ∧ (f' = f ∨ f' = { f with needInitialization := false }) := by
  unfold initName at h
  split at h
  · exact ⟨rfl, Or.inl (ofExcept_eq_ok.mp h).2⟩
  · exact ⟨rfl, Or.inr (initThis_ok h)⟩
  · cases h

theorem follows_initReceiver (bci : ℕ) (klass : Symbol) :
    FollowsTo m newest k (initReceiver env m bci klass) (popValue .object) := by
  refine follows_popCategory1.bind fun slot word hsw => ?_
  by_cases href : slot.tag.isReference = true
  · rw [use_true (hasKind_object.mpr (hsw.2.isRef href))]
    refine Simulates.check_bind (I := fun _ => Conforms m newest k)
      (fun f s hc name f' hx => ?_) fun name => follows_replace href name
    rcases (initName_ok hx).2 with rfl | rfl
    · exact hc
    · exact { hc with frame := { hc.frame with flag := fun h => by cases h } }
  · intro f s hc u f' hx
    obtain ⟨name, f₁, hname, -⟩ := bind_eq_ok.mp hx
    exact absurd (initName_ok hname).1 href

/-! ## Calls -/

variable {v : ℕ → Slot} {w : ℕ → Word} {n : ℕ}

theorem argumentFits {sp : ℕ} (h : WordsFit newest v w sp)
    (hn : n < sp) {type : JavaType} (hok : checkArgument env v n type = .ok ()) :
    (if type.wordSize = 2 then Word.arePair type.basicType (w n, w (n + 1))
      else (w n).hasKind type.basicType) = true := by
  have htag : ∀ {kind : StackMapKind} {x : Except VerifyError Unit},
      (if (v n).tag ≠ kind then .error .stackBadType else x) = .ok () → (v n).tag = kind := by
    intro kind x hx
    split_ifs at hx with hne
    exact not_not.mp hne
  have hfits := h n hn
  have hint : (v n).tag = .integer → ∃ x, w n = .int x := fun ht => by
    rw [ht] at hfits
    exact hfits
  have hobject : ∀ {x : Except VerifyError Unit},
      (if (v n).tag = .null then .ok () else if (v n).tag = .object then x
        else .error .stackBadType) = .ok () → (w n).hasKind .object = true := by
    intro x hx
    refine hasKind_object.mpr (hfits.isRef ?_)
    split_ifs at hx with hnull hobj
    · rw [hnull]
      rfl
    · rw [hobj]
      rfl
  cases type
  case object name => exact hobject hok
  case array name =>
    have := hobject hok
    rcases hw : w n <;> rw [hw] at this <;> first | rfl | cases this
  case float =>
    have ht : (v n).tag = .float := htag hok
    rw [ht] at hfits
    exact hasKind_float.mpr hfits
  case long =>
    have ht : (v n).tag = .long := htag hok
    rw [ht] at hfits
    exact arePair_long.mpr hfits
  case double =>
    have ht : (v n).tag = .double := htag hok
    rw [ht] at hfits
    exact arePair_double.mpr hfits
  all_goals
    have ht : (v n).tag = .integer := htag hok
    obtain ⟨x, hw⟩ := hint ht
    show (w n).hasKind _ = true
    rw [hw]
    rfl

theorem argumentsFit_of_checkArguments {sp : ℕ}
    (h : WordsFit newest v w sp) {params : List JavaType}
    (hn : n + parameterWordSize params ≤ sp) (hok : checkArguments env v n params = .ok ()) :
    argumentsFit w n params = true := by
  induction params generalizing n with
  | nil => rfl
  | cons type params ih =>
    have hsize : parameterWordSize (type :: params) = type.wordSize + parameterWordSize params := by
      simp [parameterWordSize]
    have hpos := wordSize_pos type
    unfold checkArguments at hok
    split at hok
    · cases hok
    · rename_i hfirst
      unfold argumentsFit
      rw [argumentFits h (by omega) hfirst, ih (by omega) hok]
      rfl

theorem follows_popInvokeArguments (params : List JavaType) :
    FollowsTo m newest k (popInvokeArguments env params) (popArguments params) := by
  intro f s hc n f' hx
  have hframe := ((safe_popInvokeArguments params).ok hc.frame hx).2
  obtain ⟨rfl, hsize, hargs, rfl⟩ := popInvokeArguments_ok_iff.mp hx
  refine ⟨(), _, ?_, trivial, hc.popped _ hframe⟩
  unfold popArguments
  rw [hc.sp_eq, if_neg (by omega), argumentsFit_of_checkArguments hc.stack (by omega) hargs]
  rfl

theorem follows_invokeReceiver (bci index : ℕ) (opcode : InvokeCode) (klass name : Symbol) :
    FollowsTo m newest k (invokeReceiver env m bci index opcode klass name)
      (popReceiver (opcode == .static)) := by
  unfold invokeReceiver
  by_cases hstatic : opcode = .static
  · rw [if_pos hstatic, hstatic]
    exact Tracks.pure trivial
  · rw [if_neg hstatic, show (opcode == .static) = false by simpa using hstatic]
    show FollowsTo m newest k _ (popValue .object)
    refine .ite (fun _ => follows_initReceiver _ _) fun _ => .ite (fun _ => .ite
      (fun _ => follows_popObject _) fun _ => .throw _ _) fun _ => .ite (fun _ => ?_)
        fun _ => follows_popObject _
    split
    · exact .throw _ _
    · exact follows_popObject _

theorem follows_pushInvokeResult (ret : Option JavaType) :
    FollowsTo m newest k (pushInvokeResult m ret) (pushValue m c (returnBasicType ret)) := by
  cases ret with
  | none => exact Tracks.pure trivial
  | some type => exact follows_pushJavaType type

theorem follows_handleInvoker (bci index : ℕ) (opcode : InvokeCode) :
    FollowsTo m newest k (handleInvoker env m bci index opcode)
      (invoke m c index (opcode == .static)) := by
  unfold handleInvoker invoke
  rcases m.constants[index]? with _ | entry
  · exact Tracks.throw _ _
  · cases entry
    case method klass name params ret =>
      refine (follows_popInvokeArguments params).bind fun n _ _ => Tracks.ite (fun _ => .throw _ _)
        fun _ => (follows_invokeReceiver _ _ _ _ _).bind fun _ _ _ => ?_
      exact Tracks.weaken (Tracks.bind_ofExcept (follows_pushInvokeResult _)) fun _ _ _ => trivial
    all_goals exact Tracks.throw _ _

theorem follows_handleFieldReference (index : ℕ) (isStatic isPut : Bool) :
    FollowsTo m newest k (handleFieldReference env m index isStatic isPut)
      (accessField m c index isStatic isPut) := by
  unfold handleFieldReference accessField
  rcases m.constants[index]? with _ | entry
  · exact Tracks.throw _ _
  · cases entry
    case field klass name type =>
      rcases env.isProtectedAccess index false with _ | isProtected
      · exact Tracks.throw _ _
      · cases isPut <;> cases isStatic
        · exact (follows_popObject _).bind fun _ _ _ => follows_pushJavaType type
        · exact Tracks.bind (V := fun _ _ => True) (Tracks.pure trivial)
            fun _ _ _ => follows_pushJavaType type
        · exact (follows_popJavaType type).bind fun _ _ _ => follows_popPutReceiver _ _ _ _
        · exact (follows_popJavaType type).bind fun _ _ _ => Tracks.pure trivial
    all_goals exact Tracks.throw _ _

/-! ## What comes next -/

/-- The activation fits a stack map. -/
structure MapSatisfied (map : StackMap) (s : MState) : Prop where
  height : s.sp = map.stackSlots.length
  stack : MapFits s.newest s.stack map.stackSlots
  locals : MapFits s.newest s.locals map.localSlots

/-- What the verifier has checked of a branch target. -/
def TargetFits (m : Method) (dest : ℤ) (s : MState) : Prop :=
  ∃ map, m.stackmapAt dest = some map ∧ MapSatisfied map s

/-- After an instruction: the next one finds a frame that the activation conforms
to, and a branch target has a stack map that the activation fits. -/
def Continues (m : Method) (newest : Origin → Option ℕ) (k : ℕ) (next : Next) (f : VerifierFrame)
    (s : MState) : Prop :=
  match next with
  | .fallThrough => Conforms m newest k f s
  | .jump dest => s.newest = newest ∧ TargetFits m dest s
  | .finish => True
  | .raise => True

/-- The machine executes what the verifier accepts. -/
abbrev Executes (m : Method) (newest : Origin → Option ℕ) (k : ℕ) {α : Type} (x : Vfy α)
    (y : Mch Next) : Prop :=
  Simulates (Conforms m newest k) (fun _ next f s => Continues m newest k next f s) x y

theorem executes_falls {α : Type} {x : Vfy α} {y : Mch Unit} (h : FollowsTo m newest k x y) :
    Executes m newest k x (falls y) := by
  intro f s hc a f' hx
  obtain ⟨_, s', hy, -, hc'⟩ := h f s hc a f' hx
  exact ⟨.fallThrough, s', bind_eq_ok.mpr ⟨(), s', hy, rfl⟩, hc'⟩

variable {dest : ℤ}

/-- What fits the frame fits a stack map that the frame has been checked
against. -/
theorem Conforms.mapSatisfied {map : StackMap}
    (hc : Conforms m newest k f s) (hmap : m.stackmapAt dest = some map)
    (hlocals : AssignableFrom env f.vlocals 0 (carriedSlots map.localSlots none))
    (hheight : map.stackSlots.length = f.vstackpointer)
    (hstack : AssignableFrom env f.vstack 0 (carriedSlots map.stackSlots none)) :
    MapSatisfied map s := by
  obtain ⟨hfit, -⟩ := Method.stackmapAt_fits hmap
  refine ⟨hc.sp_eq.trans hheight.symm, ?_, ?_⟩
  · rw [hc.newest_eq]
    exact hc.stack.mapFits hheight.le hstack
  · rw [hc.newest_eq]
    exact hc.locals.mapFits hfit hlocals

theorem Conforms.targetFits
    (hc : Conforms m newest k f s) (h : checkBranchTarget env m dest f = .ok ((), f')) :
    f' = f ∧ TargetFits m dest s := by
  obtain ⟨rfl, map, hmap, hlocals, hheight, hstack, -⟩ := checkBranchTarget_ok_iff.mp h
  exact ⟨rfl, map, hmap, hc.mapSatisfied hmap hlocals hheight hstack⟩

theorem executes_branch : Executes m newest k (checkBranchTarget env m dest)
      (pure (if c.taken then .jump dest else .fallThrough)) := by
  intro f s hc u f' hx
  obtain ⟨rfl, hfits⟩ := hc.targetFits hx
  refine ⟨_, s, rfl, ?_⟩
  split_ifs
  · exact ⟨hc.newest_eq, hfits⟩
  · exact hc

theorem Conforms.targetsFit {dests : List ℤ}
    (hc : Conforms m newest k f s) (h : checkBranchTargets env m dests f = .ok ((), f')) :
    f' = f ∧ ∀ dest ∈ dests, TargetFits m dest s := by
  induction dests with
  | nil =>
    cases h
    exact ⟨rfl, fun _ hd => absurd hd List.not_mem_nil⟩
  | cons dest dests ih =>
    obtain ⟨_, f₁, h1, h2⟩ := bind_eq_ok.mp h
    obtain ⟨rfl, hfits⟩ := hc.targetFits h1
    obtain ⟨hf, hrest⟩ := ih h2
    refine ⟨hf, fun d hd => ?_⟩
    rcases List.mem_cons.mp hd with rfl | hd
    · exact hfits
    · exact hrest d hd

theorem Conforms.pairsFit {pairs : List (ℤ × ℤ)} {lastKey : Option ℤ} (hc : Conforms m newest k f s)
    (h : checkLookupPairs env m lastKey pairs f = .ok ((), f')) :
    f' = f ∧ ∀ dest ∈ pairs.map Prod.snd, TargetFits m dest s := by
  induction pairs generalizing lastKey with
  | nil =>
    cases h
    exact ⟨rfl, fun _ hd => absurd hd List.not_mem_nil⟩
  | cons pair pairs ih =>
    unfold checkLookupPairs at h
    split_ifs at h
    · cases h
    · obtain ⟨_, f₁, h1, h2⟩ := bind_eq_ok.mp h
      obtain ⟨rfl, hfits⟩ := hc.targetFits h1
      obtain ⟨hf, hrest⟩ := ih h2
      refine ⟨hf, fun d hd => ?_⟩
      rcases List.mem_cons.mp hd with rfl | hd
      · exact hfits
      · exact hrest d hd

theorem getD_cases {α : Type} {P : α → Prop} {xs : List α} {d : α} {i : ℕ} (hd : P d)
    (h : ∀ x ∈ xs, P x) : P (xs.getD i d) := by
  rw [List.getD_eq_getElem?_getD]
  rcases hi : xs[i]? with _ | x
  · exact hd
  · exact h x (List.mem_of_getElem? hi)

theorem executes_tableSwitch (defaultDest : ℤ) (dests : List ℤ) :
    Executes m newest k (tableSwitch env m defaultDest dests) (do
      popValue .int
      pure (.jump (dests.getD c.case defaultDest))) := by
  refine follows_popInt.bind_simulates fun _ _ _ f s hc u f' hx => ?_
  obtain ⟨_, f₁, h1, hrest⟩ := bind_eq_ok.mp hx
  obtain ⟨rfl, hdefault⟩ := hc.targetFits h1
  obtain ⟨_, f₂, h2, -⟩ := bind_eq_ok.mp hrest
  exact ⟨_, s, rfl, hc.newest_eq, getD_cases (P := fun dest => TargetFits m dest s) hdefault
    (hc.targetsFit h2).2⟩

theorem executes_lookupSwitch (defaultDest : ℤ) (pairs : List (ℤ × ℤ)) :
    Executes m newest k (lookupSwitch env m defaultDest pairs) (do
      popValue .int
      pure (.jump ((pairs.map Prod.snd).getD c.case defaultDest))) := by
  refine follows_popInt.bind_simulates fun _ _ _ f s hc u f' hx => ?_
  obtain ⟨_, f₁, h1, hrest⟩ := bind_eq_ok.mp hx
  obtain ⟨rfl, hdefault⟩ := hc.targetFits h1
  obtain ⟨_, f₂, h2, -⟩ := bind_eq_ok.mp hrest
  exact ⟨_, s, rfl, hc.newest_eq, getD_cases (P := fun dest => TargetFits m dest s) hdefault
    (hc.pairsFit h2).2⟩

/-! ## Returns and arrays -/

theorem returnKind_eq (m : Method) : returnKind m = m.expectedReturnKind := by
  unfold returnKind Method.expectedReturnKind
  rcases m.ret with _ | type
  · rfl
  · cases type <;> rfl

theorem follows_popReturnValue :
    FollowsTo m newest k (popReturnValue env m) (popValue m.expectedReturnKind) := by
  unfold popReturnValue
  split
  · rename_i hret
    rw [show m.expectedReturnKind = .object by simp [Method.expectedReturnKind, hret,
      returnBasicType, JavaType.basicType]]
    exact follows_popObject _
  · rename_i hret
    rw [show m.expectedReturnKind = .object by simp [Method.expectedReturnKind, hret,
      returnBasicType, JavaType.basicType]]
    exact follows_popObject _
  · rename_i hobject harray
    unfold Method.expectedReturnKind
    rcases hret : m.ret with _ | type
    · exact Tracks.pure trivial
    · cases type
      case object name => exact absurd hret (hobject name)
      case array name => exact absurd hret (harray name)
      all_goals exact follows_popType (by rfl)

theorem executes_returnOp (kind : BasicType) :
    Executes m newest k (returnOp env m kind) (returnValue kind (returnKind m)) := by
  intro f s hc u f' hx
  unfold returnOp at hx
  rw [get_bind_apply] at hx
  split_ifs at hx with h1 h2
  · cases hx
  · cases hx
  · obtain ⟨_, f₁, h3, -⟩ := bind_eq_ok.mp hx
    obtain ⟨_, s', hy, -, -⟩ := follows_popReturnValue f s hc _ f₁ h3
    rw [not_not.mp h2] at hy
    refine ⟨.finish, s', ?_, trivial⟩
    unfold returnValue
    rw [returnKind_eq, if_neg h2]
    exact bind_eq_ok.mpr ⟨(), s', hy, rfl⟩

/-- `aaload` pushes null only for an element of null, and that one raises. -/
theorem executes_loadArray (hk : kind = .object ∨ kind.isPrimitive = true) :
    Executes m newest k (Verifier.loadArray env m kind) (loadArray m c kind) := by
  refine (follows_popInt).bind_simulates fun _ _ _ => ?_
  refine Simulates.ite (fun hobject => ?_) fun hne => ?_
  · subst hobject
    refine follows_popRef_word.bind_simulates fun slot word hsw => ?_
    rw [use_true (hasKind_object.mpr (hsw.2.2.isRef hsw.1)), pure_bind]
    by_cases hnull : word = .ref none
    · rw [if_pos hnull]
      intro f s hc u f' hx
      exact ⟨.raise, s, rfl, trivial⟩
    · rw [if_neg hnull]
      refine executes_falls (Tracks.ofExcept_bind fun element helement => ?_)
      unfold elementSlot at helement
      split_ifs at helement with htag
      · have hfits := hsw.2.2
        rw [htag] at hfits
        exact absurd hfits hnull
      · split at helement <;> cases helement
        exact follows_pushObject _ c.object
  · refine (follows_popArrayOf kind).bind_simulates fun _ word hword => ?_
    rw [use_true (hasKind_object.mpr hword), pure_bind]
    by_cases hnull : word = .ref none
    · rw [if_pos hnull]
      intro f s hc u f' hx
      exact ⟨.raise, s, rfl, trivial⟩
    · rw [if_neg hnull]
      exact executes_falls (follows_pushType (hk.resolve_left hne))

theorem follows_storeArray (hk : kind = .object ∨ kind.isPrimitive = true) :
    FollowsTo m newest k (Verifier.storeArray env kind) (storeArray kind) := by
  refine Tracks.ite (fun hobject => ?_) fun hne => ?_
  · subst hobject
    refine follows_popRef.bind fun _ _ _ => (follows_popInt).bind fun _ _ _ => ?_
    exact Tracks.weaken (Tracks.bind_ofExcept follows_popRef) fun _ _ _ => trivial
  · exact (follows_popType (hk.resolve_left hne)).bind fun _ _ _ =>
      (follows_popInt).bind fun _ _ _ =>
        Follows.used (follows_popArrayOf kind) fun _ _ h => hasKind_object.mpr h

theorem follows_popIntegers (n : ℕ) : FollowsTo m newest k (popIntegers n) (popDimensions n) := by
  induction n with
  | zero => exact Tracks.pure trivial
  | succ n ih => exact (follows_popInt).bind fun _ _ _ => ih

theorem follows_newMultiArray (index dims : ℕ) :
    FollowsTo m newest k (newMultiArray env m index dims) (do
      popDimensions dims
      pushValue m c .object) := by
  refine Tracks.ofExcept_bind fun name _ => Tracks.ite (fun _ => ?_) fun _ => .throw _ _
  by_cases hdims : dims ≤ env.arrayDimensions name
  · rw [min_eq_left hdims, if_pos hdims]
    exact (follows_popIntegers dims).bind fun _ _ _ => follows_pushObject name c.object
  · rw [if_neg hdims]
    intro f s hc u f' hx
    obtain ⟨_, _, -, hx⟩ := bind_eq_ok.mp hx
    cases hx

/-! ## Instructions -/

/-- `iinc` writes an `int` over an `int`. -/
theorem WordsFit.setInt {index : ℕ} {x : BitVec 32}
    (h : WordsFit newest v w n) (hindex : index < n) (hheads : HeadsFollowed v n)
    (htag : (v index).tag = .integer) :
    WordsFit newest v (update w index (.int x)) n := by
  intro i hi
  by_cases hii : i = index
  · subst hii
    rw [update_self, htag]
    exact ⟨x, rfl⟩
  · rw [update_of_ne hii]
    by_cases hnext : i + 1 = index
    · refine (h i hi).congr_next ((Bool.not_eq_true _).mp fun hhead => ?_)
      have htag' := (hheads i hi hhead).2
      rw [hnext, htag] at htag'
      have hhalf := StackMapKind.isHalf_secondHalf (v i).tag
      rw [← htag'] at hhalf
      cases hhalf
    · rw [update_of_ne hnext]
      exact h i hi

/-- **Step lemma**: the machine executes every instruction but `new` that the
verifier accepts. -/
theorem exec_simulates (bci : ℕ) {op : Op} (hop : op.KindsFit)
    (hnew : ∀ index, op ≠ .newObject index) :
    Executes m newest k (Verifier.exec env m bci op) (exec m c bci op) := by
  have push1 : ∀ {slot : Slot} {word : Word}, SlotWord newest slot word →
      FollowsTo m newest k (pushCategory1 m slot) (pushWord m word) := follows_pushCategory1
  have push2 : ∀ {slots : Slot × Slot} {words : Word × Word},
      IsBlock slots ∧ BlockFits newest slots words →
      FollowsTo m newest k (pushCategory2 m slots) (pushPair m words) :=
    fun h => follows_pushCategory2 h.1 h.2
  have pop1 : Follows m newest k (SlotWord newest) popCategory1 popWord := follows_popCategory1
  have pop2 : Follows m newest k (fun slots words => IsBlock slots ∧ BlockFits newest slots words)
      popCategory2 popPair := follows_popCategory2
  have popInt : FollowsTo m newest k popInteger (popValue .int) := follows_popInt
  have pushInt : FollowsTo m newest k (pushInteger m) (pushValue m c .int) :=
    follows_pushType (by rfl : BasicType.int.isPrimitive = true)
  have popAny : FollowsTo m newest k popAnyRef (popValue .object) := follows_popAnyRef
  have pushRef : ∀ name, FollowsTo m newest k (pushObject m name) (pushValue m c .object) :=
    fun name => follows_pushObject name c.object
  cases op with
  | pushInt => exact executes_falls pushInt
  | pushLong => exact executes_falls (follows_pushDoubleword rfl ⟨c.long, rfl, rfl⟩)
  | pushFloat => exact executes_falls (push1 ⟨rfl, c.float, rfl⟩)
  | pushDouble => exact executes_falls (follows_pushDoubleword rfl ⟨c.double, rfl, rfl⟩)
  | pushObj isNull =>
    refine executes_falls (Tracks.ite (fun hnull => ?_) fun hnull => push1 ⟨rfl, _, rfl⟩)
    rw [if_pos hnull]
    exact push1 ⟨rfl, rfl⟩
  | loadLocal kind index => exact executes_falls (follows_loadLocal hop index)
  | storeLocal kind index => exact executes_falls (follows_storeLocal hop index)
  | incrementLocalInt index =>
    refine executes_falls fun f s hc u f' hx => ?_
    have hcheck : checkLocal m index .integer f = .ok (u, f') := hx
    obtain ⟨-, hroom, htag, rfl⟩ := checkLocal_ok_iff.mp hcheck
    have hfits := hc.locals index hroom
    rw [htag] at hfits
    obtain ⟨v, hword⟩ := hfits
    refine ⟨(), { s with locals := update s.locals index (.int c.int) }, ?_, trivial,
      { hc with locals := hc.locals.setInt hroom hc.frame.localHeads htag }⟩
    refine bind_eq_ok.mpr ⟨_, s, getLocal_ok hroom, ?_⟩
    rw [hword, use_true (show (Word.int v).hasKind .int = true from rfl), pure_bind]
    exact setLocalWord_ok hroom
  | arrayLength =>
    exact executes_falls (follows_popRef.bind fun _ _ _ => Tracks.ofExcept_bind fun _ _ => pushInt)
  | loadArray kind => exact executes_loadArray hop
  | storeArray kind => exact executes_falls (follows_storeArray hop)
  | nop => exact executes_falls (Tracks.pure trivial)
  | pop => exact executes_falls (pop1.bind fun _ _ _ => Tracks.pure trivial)
  | pop2 => exact executes_falls (pop2.bind fun _ _ _ => Tracks.pure trivial)
  | dup => exact executes_falls (pop1.bind fun _ _ h1 => (push1 h1).bind fun _ _ _ => push1 h1)
  | dup2 =>
    exact executes_falls (pop2.bind fun _ _ h12 => (push2 h12).bind fun _ _ _ => push2 h12)
  | dupX1 =>
    exact executes_falls (pop1.bind fun _ _ h1 => pop1.bind fun _ _ h2 =>
      (push1 h1).bind fun _ _ _ => (push1 h2).bind fun _ _ _ => push1 h1)
  | dup2X1 =>
    exact executes_falls (pop2.bind fun _ _ h12 => pop1.bind fun _ _ h3 =>
      (push2 h12).bind fun _ _ _ => (push1 h3).bind fun _ _ _ => push2 h12)
  | dupX2 =>
    exact executes_falls (pop1.bind fun _ _ h1 => pop2.bind fun _ _ h23 =>
      (push1 h1).bind fun _ _ _ => (push2 h23).bind fun _ _ _ => push1 h1)
  | dup2X2 =>
    exact executes_falls (pop2.bind fun _ _ h12 => pop2.bind fun _ _ h34 =>
      (push2 h12).bind fun _ _ _ => (push2 h34).bind fun _ _ _ => push2 h12)
  | swap =>
    exact executes_falls (pop1.bind fun _ _ h1 => pop1.bind fun _ _ h2 =>
      (push1 h1).bind fun _ _ _ => push1 h2)
  | neg kind => exact executes_falls ((follows_popType hop).bind fun _ _ _ => follows_pushType hop)
  | binary kind isShift =>
    refine executes_falls (Tracks.bind (V := fun _ _ => True) ?_ fun _ _ _ =>
      (follows_popType hop).bind fun _ _ _ => follows_pushType hop)
    cases isShift
    · exact follows_popType hop
    · exact popInt
  | convert source target =>
    exact executes_falls ((follows_popType hop.1).bind fun _ _ _ => follows_pushType hop.2)
  | compare kind =>
    exact executes_falls ((follows_popType hop).bind fun _ _ _ =>
      (follows_popType hop).bind fun _ _ _ => pushInt)
  | branchIf isRef dest =>
    refine Tracks.bind_simulates (V := fun _ _ => True) ?_ fun _ _ _ => executes_branch
    cases isRef
    · exact popInt
    · exact popAny
  | branchIfIcmp dest =>
    show Executes m newest k _ (branches c _ dest)
    unfold branches
    rw [bind_assoc]
    exact popInt.bind_simulates fun _ _ _ => popInt.bind_simulates fun _ _ _ => executes_branch
  | branchIfAcmp dest =>
    show Executes m newest k _ (branches c _ dest)
    unfold branches
    rw [bind_assoc]
    exact popAny.bind_simulates fun _ _ _ => popAny.bind_simulates fun _ _ _ => executes_branch
  | branch dest =>
    intro f s hc u f' hx
    obtain ⟨_, f₁, h1, -⟩ := bind_eq_ok.mp hx
    exact ⟨_, s, rfl, hc.newest_eq, (hc.targetFits h1).2⟩
  | returnOp kind => exact executes_returnOp kind
  | tableSwitch defaultDest dests => exact executes_tableSwitch defaultDest dests
  | lookupSwitch defaultDest pairs => exact executes_lookupSwitch defaultDest pairs
  | getField index => exact executes_falls (follows_handleFieldReference index false false)
  | putField index => exact executes_falls (follows_handleFieldReference index false true)
  | getStatic index => exact executes_falls (follows_handleFieldReference index true false)
  | putStatic index => exact executes_falls (follows_handleFieldReference index true true)
  | invokeInterface index => exact executes_falls (follows_handleInvoker bci index .interface)
  | invokeSpecial index => exact executes_falls (follows_handleInvoker bci index .special)
  | invokeStatic index => exact executes_falls (follows_handleInvoker bci index .static)
  | invokeVirtual index => exact executes_falls (follows_handleInvoker bci index .virtual)
  | throwException =>
    refine (follows_popObject _).bind_simulates fun _ _ _ f s hc u f' hx => ?_
    exact ⟨.raise, s, rfl, trivial⟩
  | newObject index => exact absurd rfl (hnew index)
  | newBasicArray type =>
    exact executes_falls (popInt.bind fun _ _ _ => Tracks.ite (fun _ => pushRef _)
      fun _ => .throw _ _)
  | newObjectArray index =>
    exact executes_falls (Tracks.ofExcept_bind fun _ _ => popInt.bind fun _ _ _ => pushRef _)
  | newMultiArray index dims => exact executes_falls (follows_newMultiArray index dims)
  | checkCast index =>
    exact executes_falls (Tracks.ofExcept_bind fun _ _ => (follows_popObject_word _).bind
      fun _ word hword => Follows.after_use (hasKind_object.mpr hword) (by
        obtain ⟨o, rfl⟩ := hword
        exact follows_pushObject _ o))
  | instanceOf index =>
    exact executes_falls (Tracks.ofExcept_bind fun _ _ => (follows_popObject _).bind
      fun _ _ _ => pushInt)
  | monitorEnter => exact executes_falls popAny
  | monitorExit => exact executes_falls popAny
  | illegalCode => exact Simulates.throw _ _

/-! ## The creation of an object -/

/-- No live slot of the frame has the tag of the `new` at `bci`. -/
structure NoNewObject (m : Method) (bci : ℕ) (f : VerifierFrame) : Prop where
  stack : ∀ i < f.vstackpointer, (f.vstack i).tag ≠ .newObject bci
  locals : ∀ i < m.maxLocals, (f.vlocals i).tag ≠ .newObject bci

/-- Without its tag, the new object of a `new` is of no interest. -/
theorem WordsFit.allocated {o : ℕ}
    (h : WordsFit newest v w n) (hnew : ∀ i < n, (v i).tag ≠ .newObject bci) :
    WordsFit (update newest (.created bci) (some o)) v w n := by
  intro i hi
  have hfits := h i hi
  have hne := hnew i hi
  generalize (v i).tag = tag at hfits hne ⊢
  cases tag
  case newObject bci' =>
    obtain ⟨o', h1, h2⟩ := hfits
    have hbci : Origin.created bci' ≠ .created bci := by
      intro he
      cases he
      exact hne rfl
    exact ⟨o', by rw [update_of_ne hbci, h1], h2⟩
  all_goals exact hfits

theorem newObject_ok {index : ℕ}
    (hconst : m.constants[index]? = some (.klass name)) (hroom : s.sp < m.maxStack) :
    exec m c bci (.newObject index) s = .ok (.fallThrough, { s with
      nextObject := s.nextObject + 1
      newest := update s.newest (.created bci) (some s.nextObject)
      stack := update s.stack s.sp (.ref (some s.nextObject))
      sp := s.sp + 1 }) := by
  have hpush : newObject m bci index s = .ok ((), { s with
      nextObject := s.nextObject + 1
      newest := update s.newest (.created bci) (some s.nextObject)
      stack := update s.stack s.sp (.ref (some s.nextObject))
      sp := s.sp + 1 }) := by
    unfold newObject
    rw [hconst]
    exact bind_eq_ok.mpr ⟨_, _, rfl, if_pos hroom⟩
  exact bind_eq_ok.mpr ⟨(), _, hpush, rfl⟩

/-- **Step lemma**: the machine executes a `new` the verifier accepts; the slot it
pushes holds the new object. -/
theorem newObject_simulates {index : ℕ} {u : Unit}
    (hc : Conforms m newest k f s) (hnew : NoNewObject m bci f)
    (hx : Verifier.newObject env m bci index f = .ok (u, f')) :
    ∃ s', exec m c bci (.newObject index) s = .ok (.fallThrough, s') ∧
      Conforms m (update newest (.created bci) (some s.nextObject)) k f' s' := by
  obtain ⟨name, f₁, hname, hpush⟩ := bind_eq_ok.mp hx
  obtain ⟨hconst, rfl⟩ := klassNameAt_ok_iff.mp hname
  split_ifs at hpush
  · cases hpush
  have hframe := ((safe_push (m := m) (k := k) (by rfl)).ok hc.frame hpush).2
  obtain ⟨hroom, rfl⟩ := pushCategory1_ok_iff.mp hpush
  have hroom' : s.sp < m.maxStack := hc.sp_eq ▸ hroom
  refine ⟨_, newObject_ok hconst hroom', {
    frame := hframe
    flows := hc.flows
    newest_eq := by rw [hc.newest_eq]
    sp_eq := by simp only [hc.sp_eq]
    stack := ?_
    locals := hc.locals.allocated hnew.locals }⟩
  have hfits : SlotFits (update newest (.created bci) (some s.nextObject))
      (.ref (some s.nextObject)) .undefined (.newObject bci) :=
    ⟨s.nextObject, update_self _ _ _, rfl⟩
  simp only
  rw [hc.sp_eq]
  exact (hc.stack.allocated hnew.stack).push hc.frame.stackHeads rfl hfits

end CldcVm.Interpreter
