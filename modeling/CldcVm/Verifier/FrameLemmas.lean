import CldcVm.Verifier.MethodCodes

/-!
# What a frame operation returns

For every primitive of the frame: when it returns, and what it returns. The
proofs about the verifier use these and do not unfold the primitives.

Results:
* `pushCategory1_ok_iff`, `popCategory1_ok_iff`, …: one statement for each
  primitive.
* `matchSlots_ok_iff`, `matchStackmap_ok_iff`: a stack map is checked slot by
  slot, and a merge leaves the slots of the map.
* `checkExceptionHandler_ok_iff`: the check of a handler leaves the frame as it
  was.
-/

namespace CldcVm.Verifier

open Lib
open Function (update update_of_ne update_self)

variable {env : ClassEnv} {m : Method} {f f' : VerifierFrame}

/-! ## The operand stack -/

variable {slot : Slot} {u : Unit}

theorem pushCategory1_ok_iff : pushCategory1 m slot f = .ok (u, f') ↔ f.vstackpointer < m.maxStack ∧
        f' = { f with
          vstack := update f.vstack f.vstackpointer slot
          vstackpointer := f.vstackpointer + 1 } := by
  unfold pushCategory1
  split_ifs with h
  · simp [h, eq_comm]
  · simp [h]

theorem popCategory1_ok_iff : popCategory1 f = .ok (slot, f') ↔
      0 < f.vstackpointer ∧ slot = f.vstack (f.vstackpointer - 1) ∧ slot.tag ≠ .double2 ∧
        slot.tag ≠ .long2 ∧ f' = { f with vstackpointer := f.vstackpointer - 1 } := by
  unfold popCategory1
  simp only
  split_ifs with h0 h1
  · constructor
    · intro h; cases h
    · rintro ⟨-, rfl, hd, hl, -⟩
      rcases h1 with h1 | h1
      · exact absurd h1 hd
      · exact absurd h1 hl
  · constructor
    · intro h
      cases h
      exact ⟨h0, rfl, fun h => h1 (.inl h), fun h => h1 (.inr h), rfl⟩
    · rintro ⟨-, rfl, -, -, rfl⟩
      rfl
  · constructor
    · intro h; cases h
    · rintro ⟨h, -⟩; exact absurd h h0

theorem pushCategory2_ok_iff {slots : Slot × Slot} : pushCategory2 m slots f = .ok (u, f') ↔
      f.vstackpointer + 1 < m.maxStack ∧ f' = { f with
          vstack := update (update f.vstack f.vstackpointer slots.1)
            (f.vstackpointer + 1) slots.2
          vstackpointer := f.vstackpointer + 2 } := by
  unfold pushCategory2
  split_ifs with h
  · simp [h, eq_comm]
  · simp [h]

theorem popCategory2_ok_iff {slots : Slot × Slot} : popCategory2 f = .ok (slots, f') ↔
      2 ≤ f.vstackpointer ∧ slots.1 = f.vstack (f.vstackpointer - 2) ∧
        slots.2 = f.vstack (f.vstackpointer - 1) ∧ slots.1.tag ≠ .double2 ∧
        slots.1.tag ≠ .long2 ∧ f' = { f with vstackpointer := f.vstackpointer - 2 } := by
  obtain ⟨slot1, slot2⟩ := slots
  unfold popCategory2
  simp only
  split_ifs with h0 h1
  · constructor
    · intro h; cases h
    · rintro ⟨h, -⟩; omega
  · constructor
    · intro h; cases h
    · rintro ⟨-, rfl, -, hd, hl, -⟩
      rcases h1 with h1 | h1
      · exact absurd h1 hd
      · exact absurd h1 hl
  · constructor
    · intro h
      cases h
      exact ⟨by omega, rfl, rfl, fun h => h1 (.inl h), fun h => h1 (.inr h), rfl⟩
    · rintro ⟨-, rfl, rfl, -, -, rfl⟩
      rfl

variable {kind : StackMapKind}

theorem pop_ok_iff : pop kind f = .ok (u, f') ↔
      0 < f.vstackpointer ∧ (f.vstack (f.vstackpointer - 1)).tag = kind ∧
        f' = { f with vstackpointer := f.vstackpointer - 1 } := by
  unfold pop
  split_ifs with h0 h1
  · constructor
    · intro h; cases h
    · rintro ⟨-, h, -⟩; exact absurd h.symm h1
  · constructor
    · intro h
      cases h
      exact ⟨h0, (not_not.mp h1).symm, rfl⟩
    · rintro ⟨-, -, rfl⟩
      rfl
  · constructor
    · intro h; cases h
    · rintro ⟨h, -⟩; exact absurd h h0

theorem popRef_ok_iff : popRef f = .ok (slot, f') ↔
      popCategory1 f = .ok (slot, f') ∧ slot.tag.isReference = true := by
  unfold popRef
  rw [Comp.bind_eq_ok]
  constructor
  · rintro ⟨slot', f₁, h1, h2⟩
    split_ifs at h2 with hr
    · cases h2; exact ⟨h1, hr⟩
    · cases h2
  · rintro ⟨h, hr⟩
    exact ⟨slot, f', h, by rw [if_pos hr]; rfl⟩

/-- What `pop_object` accepts on top of the stack. -/
def IsObjectSlot (env : ClassEnv) (slot : Slot) (name : Symbol) : Prop :=
  slot.tag = .null ∨ (slot.tag = .object ∧ computeIsSubtypeOf env slot.klass name = .ok true)

variable {name : Symbol}

theorem checkObjectSlot_ok_iff :
    checkObjectSlot env slot name = .ok u ↔ IsObjectSlot env slot name := by
  unfold checkObjectSlot IsObjectSlot
  split
  · rename_i htag
    split
    · rename_i hc; simp [htag, hc]
    · rename_i hc; simp [htag, hc]
    · rename_i hc; simp [htag, hc]
  · rename_i htag; simp [htag]
  · rename_i h1 h2
    simp [show slot.tag ≠ .null from h2, show slot.tag ≠ .object from h1]

theorem popObject_ok_iff : popObject env name f = .ok (u, f') ↔
      ∃ slot, popCategory1 f = .ok (slot, f') ∧ IsObjectSlot env slot name := by
  unfold popObject
  simp only [Comp.bind_eq_ok, Comp.ofExcept_eq_ok, checkObjectSlot_ok_iff]
  constructor
  · rintro ⟨slot, f₁, h1, h2, rfl⟩
    exact ⟨slot, h1, h2⟩
  · rintro ⟨slot, h1, h2⟩
    exact ⟨slot, f', h1, h2, rfl⟩

/-! ## The locals -/

variable {index : ℕ}

theorem setLocalRef_ok_iff : setLocalRef m index slot f = .ok (u, f') ↔
      index < m.maxLocals ∧ f' = { f with
          vlocals :=
            bogifySurroundingDoublewords (update f.vlocals index slot) index } := by
  unfold setLocalRef
  split_ifs with h
  · constructor
    · intro h'; cases h'
    · rintro ⟨h', -⟩; omega
  · constructor
    · intro h'
      cases h'
      exact ⟨by omega, rfl⟩
    · rintro ⟨-, rfl⟩
      rfl

theorem setLocal2_ok_iff : setLocal2 m index kind f = .ok (u, f') ↔
      (kind = .double ∨ kind = .long) ∧ index + 1 < m.maxLocals ∧ f' = { f with
          vlocals := bogifySurroundingDoublewords
            (update (update f.vlocals index ⟨kind, none⟩)
              (index + 1) ⟨kind.secondHalf, none⟩) index } := by
  unfold setLocal2
  split_ifs with h1 h2
  · constructor
    · intro h'; cases h'
    · rintro ⟨h, -⟩
      rcases h with h | h
      · exact absurd h h1.1
      · exact absurd h h1.2
  · constructor
    · intro h'; cases h'
    · rintro ⟨-, h, -⟩; omega
  · constructor
    · intro h'
      cases h'
      refine ⟨?_, by omega, rfl⟩
      by_cases hd : kind = .double
      · exact .inl hd
      · exact .inr (by_contra fun hl => h1 ⟨hd, hl⟩)
    · rintro ⟨-, -, rfl⟩
      rfl

theorem checkLocal_ok_iff : checkLocal m index kind f = .ok (u, f') ↔
      (kind = .integer ∨ kind = .float) ∧ index < m.maxLocals ∧ (f.vlocals index).tag = kind ∧
        f' = f := by
  unfold checkLocal
  split_ifs with h1 h2 h3
  · constructor
    · intro h'; cases h'
    · rintro ⟨h, -⟩
      rcases h with h | h
      · exact absurd h h1.1
      · exact absurd h h1.2
  · constructor
    · intro h'; cases h'
    · rintro ⟨-, h, -⟩; omega
  · constructor
    · intro h'; cases h'
    · rintro ⟨-, -, h, -⟩; exact absurd h h3
  · constructor
    · intro h'
      cases h'
      refine ⟨?_, by omega, not_not.mp h3, rfl⟩
      by_cases hi : kind = .integer
      · exact .inl hi
      · exact .inr (by_contra fun hf => h1 ⟨hi, hf⟩)
    · rintro ⟨-, -, -, rfl⟩
      rfl

theorem checkLocal2_ok_iff : checkLocal2 m index kind f = .ok (u, f') ↔
      (kind = .double ∨ kind = .long) ∧ index + 1 < m.maxLocals ∧
        (f.vlocals index).tag = kind ∧ (f.vlocals (index + 1)).tag = kind.secondHalf ∧ f' = f := by
  unfold checkLocal2
  split_ifs with h1 h2 h3 h4
  · constructor
    · intro h'; cases h'
    · rintro ⟨h, -⟩
      rcases h with h | h
      · exact absurd h h1.1
      · exact absurd h h1.2
  · constructor
    · intro h'; cases h'
    · rintro ⟨-, h, -⟩; omega
  · constructor
    · intro h'; cases h'
    · rintro ⟨-, -, h, -⟩; exact absurd h h3
  · constructor
    · intro h'; cases h'
    · rintro ⟨-, -, -, h, -⟩; exact absurd h h4
  · constructor
    · intro h'
      cases h'
      refine ⟨?_, by omega, not_not.mp h3, not_not.mp h4, rfl⟩
      by_cases hd : kind = .double
      · exact .inl hd
      · exact .inr (by_contra fun hl => h1 ⟨hd, hl⟩)
    · rintro ⟨-, -, -, -, rfl⟩
      rfl

/-- The slot `check_local_ref` returns for a local. -/
def refSlot (slot : Slot) : Slot := if slot.tag = .object then slot else ⟨slot.tag, none⟩

theorem refSlot_tag (slot : Slot) : (refSlot slot).tag = slot.tag := by
  unfold refSlot
  split_ifs <;> rfl

theorem checkLocalRef_ok_iff : checkLocalRef m index f = .ok (slot, f') ↔
      index < m.maxLocals ∧ (f.vlocals index).tag.isReference = true ∧
        slot = refSlot (f.vlocals index) ∧ f' = f := by
  unfold checkLocalRef refSlot
  simp only
  by_cases h1 : index ≥ m.maxLocals
  · rw [if_pos h1]
    constructor
    · intro h'; cases h'
    · rintro ⟨h, -⟩; omega
  rw [if_neg h1]
  by_cases h2 : (f.vlocals index).tag = .object
  · rw [if_pos h2, if_pos h2]
    constructor
    · intro h'
      cases h'
      exact ⟨by omega, by rw [h2]; rfl, rfl, rfl⟩
    · rintro ⟨-, -, rfl, rfl⟩
      rfl
  rw [if_neg h2, if_neg h2]
  by_cases h3 : (f.vlocals index).tag.isReference = true
  · rw [if_pos h3]
    constructor
    · intro h'
      cases h'
      exact ⟨by omega, h3, rfl, rfl⟩
    · rintro ⟨-, -, rfl, rfl⟩
      rfl
  · rw [if_neg h3]
    constructor
    · intro h'; cases h'
    · rintro ⟨-, h, -⟩; exact absurd h h3

/-! ## Arguments -/

theorem popInvokeArguments_ok_iff {params : List JavaType} {n : ℕ} :
    popInvokeArguments env params f = .ok (n, f') ↔
      n = parameterWordSize params ∧ n ≤ f.vstackpointer ∧
        checkArguments env f.vstack (f.vstackpointer - n) params = .ok () ∧
        f' = { f with vstackpointer := f.vstackpointer - n } := by
  unfold popInvokeArguments
  simp only
  split_ifs with h
  · constructor
    · intro h'; cases h'
    · rintro ⟨rfl, h', -⟩; omega
  · rcases hc : checkArguments env f.vstack (f.vstackpointer - parameterWordSize params) params with
      e | ⟨⟩
    · constructor
      · intro h'; cases h'
      · rintro ⟨rfl, -, h', -⟩
        rw [hc] at h'; cases h'
    · constructor
      · intro h'
        cases h'
        exact ⟨rfl, by omega, hc, rfl⟩
      · rintro ⟨rfl, -, -, rfl⟩
        rfl

/-! ## Stack maps -/

/-- The slots a merge writes: a slot that is no `Object` keeps the class of the
last `Object` before it. -/
def carriedSlots : (slots : List Slot) → (klass : Option Symbol) → List Slot
  | [], _ => []
  | slot :: slots, klass =>
    let klass := if slot.tag = .object then slot.klass else klass
    ⟨slot.tag, klass⟩ :: carriedSlots slots klass

/-- The stack map has an `InitObject` among the slots. -/
def needsInit (slots : List Slot) : Bool := slots.any fun slot => slot.tag == .initObject

/-- The frame array with `slots` written from `i` on. -/
def overlay (frame : ℕ → Slot) (i : ℕ) (slots : List Slot) : ℕ → Slot := fun j =>
  if i ≤ j then slots.getD (j - i) (frame j) else frame j

@[simp] theorem length_carriedSlots (slots : List Slot) (klass : Option Symbol) :
    (carriedSlots slots klass).length = slots.length := by
  induction slots generalizing klass with
  | nil => rfl
  | cons slot slots ih => simp [carriedSlots, ih]

theorem map_tag_carriedSlots (slots : List Slot) (klass : Option Symbol) :
    (carriedSlots slots klass).map Slot.tag = slots.map Slot.tag := by
  induction slots generalizing klass with
  | nil => rfl
  | cons slot slots ih => simp [carriedSlots, ih]

theorem overlay_nil (frame : ℕ → Slot) (i : ℕ) : overlay frame i [] = frame := by
  funext j
  simp [overlay]

theorem overlay_cons (frame : ℕ → Slot) (i : ℕ) (slot : Slot) (slots : List Slot) :
    overlay frame i (slot :: slots) = overlay (update frame i slot) (i + 1) slots := by
  funext j
  unfold overlay
  rcases Nat.lt_trichotomy j i with h | rfl | h
  · rw [if_neg (by omega), if_neg (by omega), update_of_ne (by omega)]
  · rw [if_pos le_rfl, if_neg (by omega), update_self, Nat.sub_self]
    rfl
  · rw [if_pos (by omega), if_pos (by omega), update_of_ne (by omega),
      show j - i = j - (i + 1) + 1 by omega, List.getD_cons_succ]

variable {i : ℕ}

theorem overlay_of_lt (frame : ℕ → Slot) {j : ℕ} {slots : List Slot} (h1 : i ≤ j)
    (h2 : j < i + slots.length) : overlay frame i slots j = slots[j - i] := by
  unfold overlay
  rw [if_pos h1, List.getD_eq_getElem?_getD, List.getElem?_eq_getElem (by omega), Option.getD_some]

/-- Every slot from `i` on is assignable to the slot of the list. -/
def AssignableFrom (env : ClassEnv) (frame : ℕ → Slot) : (i : ℕ) → List Slot → Prop
  | _, [] => True
  | i, slot :: slots =>
    isAssignableTo env (frame i) slot = .ok true ∧ AssignableFrom env frame (i + 1) slots

theorem AssignableFrom.congr {frame frame' : ℕ → Slot} {slots : List Slot}
    (h : AssignableFrom env frame i slots)
    (heq : ∀ j, i ≤ j → j < i + slots.length → frame' j = frame j) :
    AssignableFrom env frame' i slots := by
  induction slots generalizing i with
  | nil => trivial
  | cons slot slots ih =>
    simp only [List.length_cons] at heq
    refine ⟨?_, ih h.2 (fun j h1 h2 => heq j (by omega) (by omega))⟩
    rw [heq i le_rfl (by omega)]
    exact h.1

theorem matchSlots_ok_iff {flags : MatchFlags} {slots : List Slot} {klass : Option Symbol}
    {needs needs' : Bool} {frame frame' : ℕ → Slot} :
    matchSlots env flags slots i klass needs frame = .ok (frame', needs') ↔
      (flags.check = true → AssignableFrom env frame i (carriedSlots slots klass)) ∧
        frame' = (if flags.merge then overlay frame i (carriedSlots slots klass) else frame) ∧
        needs' = (needs || needsInit slots) := by
  induction slots generalizing i klass needs frame with
  | nil =>
    simp only [matchSlots, carriedSlots, overlay_nil, AssignableFrom, needsInit, List.any_nil,
      Bool.or_false, ite_self, implies_true, true_and, Except.ok.injEq, Prod.mk.injEq]
    constructor
    · rintro ⟨rfl, rfl⟩; exact ⟨rfl, rfl⟩
    · rintro ⟨rfl, rfl⟩; exact ⟨rfl, rfl⟩
  | cons slot slots ih =>
    simp only [matchSlots, carriedSlots, AssignableFrom]
    set klass' := if slot.tag = .object then slot.klass else klass
    have hneeds : (needs || needsInit (slot :: slots)) =
        ((needs || slot.tag == .initObject) || needsInit slots) := by
      simp [needsInit, Bool.or_assoc]
    -- the rest of the loop reads slots this iteration did not write
    have hrest : ∀ frame₁ : ℕ → Slot, (∀ j, i + 1 ≤ j → frame₁ j = frame j) →
        (AssignableFrom env frame₁ (i + 1) (carriedSlots slots klass') ↔
          AssignableFrom env frame (i + 1) (carriedSlots slots klass')) := fun frame₁ heq =>
      ⟨fun h => h.congr fun j h1 _ => (heq j h1).symm, fun h => h.congr fun j h1 _ => heq j h1⟩
    have hupd : ∀ j, i + 1 ≤ j →
        (if flags.merge = true then update frame i ⟨slot.tag, klass'⟩ else frame) j =
          frame j := by
      intro j hj
      split_ifs
      · rw [update_of_ne (by omega)]
      · rfl
    have hmerge : (if flags.merge = true then
          overlay (if flags.merge = true then update frame i ⟨slot.tag, klass'⟩ else frame)
            (i + 1) (carriedSlots slots klass')
        else if flags.merge = true then update frame i ⟨slot.tag, klass'⟩ else frame) =
        (if flags.merge = true then overlay frame i (⟨slot.tag, klass'⟩ :: carriedSlots slots klass')
        else frame) := by
      split_ifs
      · rw [overlay_cons]
      · rfl
    cases hcheck : flags.check with
    | false =>
      simp only [Bool.false_eq_true, if_false, ih, hcheck, IsEmpty.forall_iff, true_and, hneeds]
      rw [hmerge]
    | true =>
      simp only [if_true, forall_const]
      rcases ha : isAssignableTo env (frame i) ⟨slot.tag, klass'⟩ with e | b
      · simp
      · cases b with
        | false => simp
        | true =>
          simp only [ih, hcheck, forall_const, true_and, hneeds, hrest _ hupd]
          rw [hmerge]

/-- The locals after a merge. -/
def mergedLocals (m : Method) (map : StackMap) (vlocals : ℕ → Slot) : ℕ → Slot :=
  bogifyRest m map.localSlots.length (overlay vlocals 0 (carriedSlots map.localSlots none))

/-- The map has an `InitObject`: `target_needs_initialization`. -/
def StackMap.needsInitialization (map : StackMap) : Bool :=
  needsInit map.localSlots || needsInit map.stackSlots

/-- `check_stackmap_match` on a map. -/
theorem matchStackmap_ok_iff {map : StackMap} {flags : MatchFlags} :
    matchStackmap env m map flags f = .ok (u, f') ↔ (flags.check = true →
        AssignableFrom env f.vlocals 0 (carriedSlots map.localSlots none) ∧
        map.stackSlots.length = f.vstackpointer ∧
        AssignableFrom env f.vstack 0 (carriedSlots map.stackSlots none)) ∧
      (m.isObjectInitializer = true → f.needInitialization = true →
        map.needsInitialization = true) ∧ f' = { f with
        vlocals := if flags.merge then mergedLocals m map f.vlocals else f.vlocals
        vstack := if flags.merge then overlay f.vstack 0 (carriedSlots map.stackSlots none)
          else f.vstack
        vstackpointer := if flags.merge then map.stackSlots.length else f.vstackpointer
        needInitialization := if m.isObjectInitializer ∧ flags.merge then map.needsInitialization
          else f.needInitialization } := by
  unfold matchStackmap
  rcases hl : matchSlots env flags map.localSlots 0 none false f.vlocals with e | ⟨vlocals, needs⟩
  · constructor
    · intro h; cases h
    · rintro ⟨hcheck, -, -⟩
      have hok : matchSlots env flags map.localSlots 0 none false f.vlocals = .ok (_, _) :=
        matchSlots_ok_iff.mpr ⟨fun hc => (hcheck hc).1, rfl, rfl⟩
      rw [hl] at hok; cases hok
  obtain ⟨hlok, rfl, rfl⟩ := matchSlots_ok_iff.mp hl
  simp only
  by_cases hsize : flags.check = true ∧ map.stackSlots.length ≠ f.vstackpointer
  · rw [if_pos hsize]
    constructor
    · intro h; cases h
    · rintro ⟨hcheck, -, -⟩
      exact absurd (hcheck hsize.1).2.1 hsize.2
  rw [if_neg hsize]
  rcases hs : matchSlots env flags map.stackSlots 0 none (false || needsInit map.localSlots)
    f.vstack with e | ⟨vstack, needs⟩
  · constructor
    · intro h; cases h
    · rintro ⟨hcheck, -, -⟩
      have hok : matchSlots env flags map.stackSlots 0 none (false || needsInit map.localSlots)
          f.vstack = .ok (_, _) := matchSlots_ok_iff.mpr ⟨fun hc => (hcheck hc).2.2, rfl, rfl⟩
      rw [hs] at hok; cases hok
  obtain ⟨hsok, rfl, rfl⟩ := matchSlots_ok_iff.mp hs
  have hneeds : (false || needsInit map.localSlots || needsInit map.stackSlots) =
      map.needsInitialization := by
    simp [StackMap.needsInitialization]
  simp only [hneeds]
  have hcheck : flags.check = true →
      AssignableFrom env f.vlocals 0 (carriedSlots map.localSlots none) ∧
      map.stackSlots.length = f.vstackpointer ∧
      AssignableFrom env f.vstack 0 (carriedSlots map.stackSlots none) :=
    fun hc => ⟨hlok hc, by_contra fun hne => hsize ⟨hc, hne⟩, hsok hc⟩
  by_cases hinit : m.isObjectInitializer = true ∧ f.needInitialization = true ∧
      map.needsInitialization = false
  · rw [if_pos hinit]
    constructor
    · intro h; cases h
    · rintro ⟨-, h, -⟩
      have := h hinit.1 hinit.2.1
      rw [hinit.2.2] at this
      cases this
  · rw [if_neg hinit]
    have hflag : m.isObjectInitializer = true → f.needInitialization = true →
        map.needsInitialization = true := fun h1 h2 => by
      by_contra h3
      exact hinit ⟨h1, h2, (Bool.not_eq_true _).mp h3⟩
    have hvl : (if flags.merge = true then
          bogifyRest m map.localSlots.length
            (if flags.merge = true then overlay f.vlocals 0 (carriedSlots map.localSlots none)
              else f.vlocals)
        else if flags.merge = true then overlay f.vlocals 0 (carriedSlots map.localSlots none)
          else f.vlocals) =
        (if flags.merge = true then mergedLocals m map f.vlocals else f.vlocals) := by
      unfold mergedLocals
      split_ifs <;> rfl
    rw [hvl]
    constructor
    · intro h
      cases h
      exact ⟨hcheck, hflag, rfl⟩
    · rintro ⟨-, -, rfl⟩
      rfl

theorem checkBranchTarget_ok_iff {dest : ℤ} : checkBranchTarget env m dest f = .ok (u, f') ↔
      f' = f ∧ ∃ map, m.stackmapAt dest = some map ∧
        AssignableFrom env f.vlocals 0 (carriedSlots map.localSlots none) ∧
        map.stackSlots.length = f.vstackpointer ∧
        AssignableFrom env f.vstack 0 (carriedSlots map.stackSlots none) ∧
        (m.isObjectInitializer = true → f.needInitialization = true →
          map.needsInitialization = true) := by
  unfold checkBranchTarget checkStackmapMatch
  rcases hm : m.stackmapAt dest with _ | map
  · constructor
    · intro h; cases h
    · rintro ⟨-, map, h, -⟩; cases h
  · simp only [matchStackmap_ok_iff, forall_const, Bool.false_eq_true, if_false, and_false,
      Option.some.injEq, exists_eq_left']
    constructor
    · rintro ⟨⟨h1, h2, h3⟩, h4, rfl⟩
      exact ⟨rfl, h1, h2, h3, h4⟩
    · rintro ⟨rfl, h1, h2, h3, h4⟩
      exact ⟨⟨h1, h2, h3⟩, h4, rfl⟩

/-! ## Handlers -/

/-- The class of the exception a handler catches. -/
def catchClass (m : Method) (h : Handler) : Option Symbol :=
  if h.catchType = 0 then some javaLangThrowable
  else
    match m.constants[h.catchType]? with
    | some (.klass name) => some name
    | _ => none

theorem klassNameAt_ok_iff : klassNameAt m index f = .ok (name, f') ↔
      m.constants[index]? = some (.klass name) ∧ f' = f := by
  unfold klassNameAt
  rw [Comp.ofExcept_eq_ok]
  refine and_congr_left fun _ => ?_
  rcases m.constants[index]? with _ | e
  · simp
  · cases e <;> simp

theorem exceptionClass_ok_iff {h : Handler} :
    exceptionClass m h f = .ok (name, f') ↔ catchClass m h = some name ∧ f' = f := by
  unfold exceptionClass catchClass
  by_cases hz : h.catchType = 0
  · rw [if_neg (not_not.mpr hz), if_pos hz]
    simp only [Comp.pure_apply, Except.ok.injEq, Prod.mk.injEq, Option.some.injEq]
    exact ⟨fun h => ⟨h.1, h.2.symm⟩, fun h => ⟨h.1, h.2.symm⟩⟩
  · rw [if_pos hz, if_neg hz, klassNameAt_ok_iff]
    refine and_congr_left fun _ => ?_
    rcases m.constants[h.catchType]? with _ | e
    · simp
    · cases e <;> simp

/-- The frame a handler is checked with: the stack holds the exception. -/
def handlerFrame (f : VerifierFrame) (name : Symbol) : VerifierFrame :=
  { f with
    savedStackPointer := f.vstackpointer, saved0 := f.vstack 0
    vstack := Function.update f.vstack 0 ⟨.object, some name⟩, vstackpointer := 1 }

/-- The check of a handler: the frame with the exception fits its map, and the
stack is put back. -/
theorem checkExceptionHandler_ok_iff {h : Handler} : checkExceptionHandler env m h f = .ok (u, f') ↔
      ∃ name, catchClass m h = some name ∧ 0 < m.maxStack ∧
        checkBranchTarget env m h.handler (handlerFrame f name) = .ok ((), handlerFrame f name) ∧
        f' = { f with savedStackPointer := f.vstackpointer, saved0 := f.vstack 0 } := by
  unfold checkExceptionHandler
  simp only [Comp.bind_eq_ok, exceptionClass_ok_iff]
  constructor
  · rintro ⟨name, f₁, ⟨hcatch, rfl⟩, u1, f₂, hsave, u2, f₃, hpush, u3, f₄, hcheck, hrestore⟩
    cases hsave
    obtain ⟨hroom, rfl⟩ := pushCategory1_ok_iff.mp hpush
    obtain ⟨rfl, -⟩ := checkBranchTarget_ok_iff.mp hcheck
    cases hrestore
    refine ⟨name, hcatch, hroom, hcheck, ?_⟩
    simp
  · rintro ⟨name, hcatch, hroom, hcheck, rfl⟩
    refine ⟨name, f, ⟨hcatch, rfl⟩, (), _, rfl, (), _, pushCategory1_ok_iff.mpr ⟨hroom, rfl⟩,
      (), _, hcheck, ?_⟩
    simp [restoreStackState, handlerFrame]

end CldcVm.Verifier
