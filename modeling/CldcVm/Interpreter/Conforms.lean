import CldcVm.Interpreter.Machine
import CldcVm.Verifier.Reachable

/-!
# An activation conforms to a frame

`Conforms`: the words of an activation are what the tags of a verifier frame say
they are. The two words of a `long` lie where its two tags lie; a new object
that still needs its initializer is the one its `new` created last.

Every primitive of the verifier's frame is matched by one of the machine: where
the frame operation returns, the machine operation returns and does not fault,
and the activation conforms again (`Follows`).
-/

namespace CldcVm.Interpreter

open Lib Comp Verifier
open Function (update update_of_ne update_self)

/-- A word and the word after it are what the tag of the slot says. The second
word of a two-word value is left to the tag of the first one. -/
def SlotFits (newest : Origin → Option ℕ) (word next : Word) : StackMapKind → Prop
  | .bogus | .long2 | .double2 => True
  | .integer => ∃ v, word = .int v
  | .float => ∃ v, word = .float v
  | .long => ∃ v, word = .long1 v ∧ next = .long2 v
  | .double => ∃ v, word = .double1 v ∧ next = .double2 v
  | .null => word = .ref none
  | .object => ∃ o, word = .ref o
  | .initObject => ∃ o, newest .receiver = some o ∧ word = .ref (some o)
  | .newObject bci => ∃ o, newest (.created bci) = some o ∧ word = .ref (some o)

/-- The words below `n` fit the tags of the slots. -/
def WordsFit (newest : Origin → Option ℕ) (slots : ℕ → Slot) (words : ℕ → Word) (n : ℕ) : Prop :=
  ∀ i < n, SlotFits newest (words i) (words (i + 1)) (slots i).tag

/-- Two words fit two slots that stand next to each other on their own. -/
def BlockFits (newest : Origin → Option ℕ) (slots : Slot × Slot) (words : Word × Word) : Prop :=
  SlotFits newest words.1 words.2 slots.1.tag ∧ SlotFits newest words.2 .undefined slots.2.tag

variable {newest : Origin → Option ℕ} {v : ℕ → Slot} {w : ℕ → Word} {n : ℕ}

variable {word : Word} {tag : StackMapKind}

variable {next : Word}

theorem SlotFits.congr_next {next' : Word}
    (h : SlotFits newest word next tag) (htag : tag.isHead = false) :
    SlotFits newest word next' tag := by
  cases tag <;> first | exact h | cases htag

theorem slotFits_of_isHalf (htag : tag.isHalf = true) : SlotFits newest word next tag := by
  cases tag <;> trivial

theorem SlotFits.isRef (h : SlotFits newest word next tag)
    (htag : tag.isReference = true) : ∃ o, word = .ref o := by
  cases tag
  case newObject bci => exact h.elim fun o ho => ⟨some o, ho.2⟩
  case null => exact ⟨none, h⟩
  case object => exact h
  case initObject => exact h.elim fun o ho => ⟨some o, ho.2⟩
  all_goals cases htag

/-! ## The stack as an array -/

theorem WordsFit.push {slot : Slot} {word : Word} (h : WordsFit newest v w n)
    (hheads : HeadsFollowed v n) (hs : slot.tag.isSingle = true)
    (hfits : SlotFits newest word .undefined slot.tag) :
    WordsFit newest (update v n slot) (update w n word) (n + 1) := by
  intro i hi
  rcases Nat.lt_succ_iff_lt_or_eq.mp hi with hlt | rfl
  · rw [update_of_ne hlt.ne, update_of_ne hlt.ne]
    by_cases hhead : (v i).tag.isHead = true
    · rw [update_of_ne (hheads i hlt hhead).1.ne]
      exact h i hlt
    · exact (h i hlt).congr_next ((Bool.not_eq_true _).mp hhead)
  · rw [update_self, update_self]
    exact hfits.congr_next (StackMapKind.isSingle_iff.mp hs).1

theorem WordsFit.pushBlock {slots : Slot × Slot} {words : Word × Word}
    (h : WordsFit newest v w n) (hheads : HeadsFollowed v n) (hs : IsBlock slots)
    (hfits : BlockFits newest slots words) :
    WordsFit newest (update (update v n slots.1) (n + 1) slots.2)
      (update (update w n words.1) (n + 1) words.2) (n + 2) := by
  have hsecond : slots.2.tag.isHead = false := by
    rcases hs with ⟨-, h2⟩ | ⟨-, h2⟩
    · exact (StackMapKind.isSingle_iff.mp h2).1
    · rw [h2]
      exact StackMapKind.isHead_of_isHalf (StackMapKind.isHalf_secondHalf _)
  have hw0 : update (update w n words.1) (n + 1) words.2 n = words.1 := by
    rw [update_of_ne n.lt_succ_self.ne, update_self]
  have hw : ∀ i < n, update (update w n words.1) (n + 1) words.2 i = w i := by
    intro i hi
    rw [update_of_ne (by omega), update_of_ne hi.ne]
  intro i hi
  rcases Nat.lt_trichotomy i n with hlt | rfl | hgt
  · rw [block_other hlt.ne (by omega), hw i hlt]
    by_cases hhead : (v i).tag.isHead = true
    · rw [hw (i + 1) (hheads i hlt hhead).1]
      exact h i hlt
    · exact (h i hlt).congr_next ((Bool.not_eq_true _).mp hhead)
  · rw [block_fst, hw0, update_self]
    exact hfits.1
  · obtain rfl : i = n + 1 := by omega
    rw [block_snd, update_self]
    exact hfits.2.congr_next hsecond

theorem WordsFit.truncate {k : ℕ} (h : WordsFit newest v w n) (hk : k ≤ n) :
    WordsFit newest v w k := fun i hi => h i (hi.trans_le hk)

/-! ## The locals as an array -/

variable {index : ℕ}

/-- After a write it is enough that the words fit where no two-word value was
spoiled. -/
theorem WordsFit.bogify (h : ∀ i < n, ¬ (i + 1 = index ∧ (v i).tag.isHead = true) →
      SlotFits newest (w i) (w (i + 1)) (v i).tag) :
    WordsFit newest (bogifySurroundingDoublewords v index) w n := by
  intro i hi
  rw [bogify_apply]
  split_ifs with hspoiled
  · trivial
  · exact h i hi hspoiled

variable {slot : Slot}

theorem WordsFit.setSingle (h : WordsFit newest v w n)
    (hs : slot.tag.isSingle = true) (hfits : SlotFits newest word .undefined slot.tag) :
    WordsFit newest (bogifySurroundingDoublewords (update v index slot) index)
      (update w index word) n := by
  refine WordsFit.bogify fun i hi hspoiled => ?_
  by_cases hii : i = index
  · subst hii
    rw [update_self, update_self]
    exact hfits.congr_next (StackMapKind.isSingle_iff.mp hs).1
  · rw [update_of_ne hii] at hspoiled ⊢
    rw [update_of_ne hii]
    by_cases hnext : i + 1 = index
    · exact (h i hi).congr_next ((Bool.not_eq_true _).mp fun hh => hspoiled ⟨hnext, hh⟩)
    · rw [update_of_ne hnext]
      exact h i hi

theorem WordsFit.setPair (slots : Slot × Slot) {words : Word × Word}
    (h : WordsFit newest v w n) (hfits : SlotFits newest words.1 words.2 slots.1.tag)
    (hhalf : slots.2.tag.isHalf = true) : WordsFit newest (bogifySurroundingDoublewords
        (update (update v index slots.1) (index + 1) slots.2) index)
      (update (update w index words.1) (index + 1) words.2) n := by
  refine WordsFit.bogify fun i hi hspoiled => ?_
  rcases eq_or_ne i index with rfl | hii
  · rw [block_fst, update_self, update_of_ne i.lt_succ_self.ne,
      update_self]
    exact hfits
  rcases eq_or_ne i (index + 1) with rfl | hii'
  · rw [block_snd]
    exact slotFits_of_isHalf hhalf
  · rw [block_other hii hii'] at hspoiled ⊢
    rw [update_of_ne hii', update_of_ne hii]
    by_cases hnext : i + 1 = index
    · exact (h i hi).congr_next ((Bool.not_eq_true _).mp fun hh => hspoiled ⟨hnext, hh⟩)
    · rw [update_of_ne (by omega), update_of_ne hnext]
      exact h i hi

/-! ## Stack maps -/

theorem SlotFits.assignable {env : ClassEnv} {source target : Slot}
    (h : SlotFits newest word next source.tag)
    (hassign : isAssignableTo env source target = .ok true) :
    SlotFits newest word next target.tag := by
  unfold isAssignableTo at hassign
  by_cases htag : source.tag = target.tag
  · rw [← htag]
    exact h
  · rw [if_neg htag] at hassign
    simp only [Except.ok.injEq, Bool.or_eq_true, Bool.and_eq_true, beq_iff_eq] at hassign
    rcases hassign with hbogus | ⟨hobject, hnull⟩
    · rw [hbogus]
      trivial
    · rw [hobject]
      rw [hnull] at h
      exact ⟨none, h⟩

/-- The words fit the slots of a stack map. -/
def MapFits (newest : Origin → Option ℕ) (words : ℕ → Word) (slots : List Slot) : Prop :=
  ∀ i slot, slots[i]? = some slot → SlotFits newest (words i) (words (i + 1)) slot.tag

theorem assignableFrom_getElem {env : ClassEnv} {slots : List Slot} {i : ℕ}
    (h : AssignableFrom env v i slots) {j : ℕ} (hj : slots[j]? = some slot) :
    isAssignableTo env (v (i + j)) slot = .ok true := by
  induction slots generalizing i j with
  | nil => cases hj
  | cons head slots ih =>
    cases j with
    | zero =>
      cases hj
      exact h.1
    | succ j =>
      have := ih h.2 hj
      rwa [Nat.add_right_comm] at this

theorem getElem_carriedSlots {slots : List Slot} (klass : Option Symbol) {i : ℕ}
    (h : slots[i]? = some slot) :
    ∃ slot', (carriedSlots slots klass)[i]? = some slot' ∧ slot'.tag = slot.tag := by
  have hmap : ((carriedSlots slots klass).map Slot.tag)[i]? = some slot.tag := by
    rw [map_tag_carriedSlots, List.getElem?_map, h]
    rfl
  rw [List.getElem?_map] at hmap
  exact Option.map_eq_some_iff.mp hmap

theorem WordsFit.mapFits {env : ClassEnv} {slots : List Slot} {klass : Option Symbol}
    (h : WordsFit newest v w n) (hn : slots.length ≤ n)
    (hassign : AssignableFrom env v 0 (carriedSlots slots klass)) : MapFits newest w slots := by
  intro i slot hi
  obtain ⟨slot', hi', htag⟩ := getElem_carriedSlots klass hi
  have hlt : i < slots.length := (List.getElem?_eq_some_iff.mp hi).1
  have := assignableFrom_getElem hassign hi'
  rw [Nat.zero_add] at this
  rw [← htag]
  exact (h i (hlt.trans_le hn)).assignable this

theorem MapFits.overlay {slots : List Slot} (h : MapFits newest w slots) :
    WordsFit newest (overlay v 0 (carriedSlots slots none)) w slots.length := by
  intro i hi
  have htag := overlay_tag (v := v) hi
  rw [List.getElem?_map] at htag
  obtain ⟨slot, hslot, htag⟩ := Option.map_eq_some_iff.mp htag
  rw [← htag]
  exact h i slot hslot

theorem MapFits.mergedLocals {m : Method} {map : StackMap} (h : MapFits newest w map.localSlots) :
    WordsFit newest (mergedLocals m map v) w m.maxLocals := by
  intro i hi
  by_cases hmap : i < map.localSlots.length
  · rw [mergedLocals_of_lt hmap]
    exact h.overlay i hmap
  · rw [mergedLocals_of_ge (Nat.not_lt.mp hmap) hi]
    trivial

/-! ## The relation -/

/-- The activation conforms to a frame that control flows through. The parameter
`newest` is what the activation says of its new objects, and `k` the number
of stack maps the verifier has seen. -/
structure Conforms (m : Method) (newest : Origin → Option ℕ) (k : ℕ) (f : VerifierFrame) (s : MState) :
    Prop where
  frame : FrameInvariant m k f
  flows : f.noControlFlow = false
  newest_eq : s.newest = newest
  sp_eq : s.sp = f.vstackpointer
  stack : WordsFit newest f.vstack s.stack f.vstackpointer
  locals : WordsFit newest f.vlocals s.locals m.maxLocals

/-- Where the verifier's `x` returns, the machine's `y` returns and the
activation conforms again. -/
abbrev Follows (m : Method) (newest : Origin → Option ℕ) (k : ℕ) {α β : Type} (V : α → β → Prop)
    (x : Vfy α) (y : Mch β) : Prop :=
  Tracks (Conforms m newest k) V x y

/-- The same for what returns nothing of interest. -/
abbrev FollowsTo (m : Method) (newest : Origin → Option ℕ) (k : ℕ) {α β : Type}
    (x : Vfy α) (y : Mch β) : Prop :=
  Follows m newest k (fun _ _ => True) x y

/-- A slot and the word that was in it. -/
def SlotWord (newest : Origin → Option ℕ) (slot : Slot) (word : Word) : Prop :=
  slot.tag.isSingle = true ∧ SlotFits newest word .undefined slot.tag

variable {m : Method} {env : ClassEnv} {k : ℕ}

variable {s : MState}

/-- Popping `n` words. -/
theorem Conforms.popped {f : VerifierFrame} (h : Conforms m newest k f s) (n : ℕ)
    (hframe : FrameInvariant m k { f with vstackpointer := f.vstackpointer - n }) :
    Conforms m newest k { f with vstackpointer := f.vstackpointer - n } { s with sp := s.sp - n } :=
  { h with
    frame := hframe
    sp_eq := by simp only [h.sp_eq]
    stack := h.stack.truncate (Nat.sub_le _ _) }

/-! ## Machine operations that do not fault -/

theorem pushWord_ok (h : s.sp < m.maxStack) : pushWord m word s =
      .ok ((), { s with stack := update s.stack s.sp word, sp := s.sp + 1 }) := if_pos h

theorem popWord_ok (h : 0 < s.sp) :
    popWord s = .ok (s.stack (s.sp - 1), { s with sp := s.sp - 1 }) := if_pos h

theorem popPair_ok (h : 2 ≤ s.sp) :
    popPair s = .ok ((s.stack (s.sp - 2), s.stack (s.sp - 1)), { s with sp := s.sp - 2 }) := by
  unfold popPair
  rw [bind_apply, popWord_ok (by omega)]
  simp only
  rw [bind_apply, popWord_ok (show 0 < s.sp - 1 by omega)]
  rfl

theorem pushPair_ok {words : Word × Word} (h : s.sp + 1 < m.maxStack) : pushPair m words s =
      .ok ((), { s with
        stack := update (update s.stack s.sp words.1) (s.sp + 1) words.2
        sp := s.sp + 2 }) := by
  unfold pushPair
  rw [bind_apply, pushWord_ok (by omega)]
  exact pushWord_ok h

theorem getLocal_ok (h : index < m.maxLocals) :
    getLocal m index s = .ok (s.locals index, s) := if_pos h

theorem setLocalWord_ok (h : index < m.maxLocals) : setLocalWord m index word s =
      .ok ((), { s with locals := update s.locals index word }) := if_pos h

theorem getLocalPair_ok (h : index + 1 < m.maxLocals) :
    getLocalPair m index s = .ok ((s.locals index, s.locals (index + 1)), s) := by
  unfold getLocalPair
  rw [bind_apply, getLocal_ok (by omega)]
  simp only
  rw [bind_apply, getLocal_ok h]
  rfl

theorem setLocalPair_ok {words : Word × Word} (h : index + 1 < m.maxLocals) :
    setLocalPair m index words s = .ok ((), { s with
        locals := update (update s.locals index words.1) (index + 1) words.2 }) := by
  unfold setLocalPair
  rw [bind_apply, setLocalWord_ok (by omega)]
  exact setLocalWord_ok h

/-! ## The operand stack -/

theorem follows_pushCategory1 (h : SlotWord newest slot word) :
    FollowsTo m newest k (pushCategory1 m slot) (pushWord m word) := by
  intro f s hc u f' hx
  obtain ⟨hroom, rfl⟩ := pushCategory1_ok_iff.mp hx
  refine ⟨(), _, pushWord_ok (hc.sp_eq ▸ hroom), trivial, { hc with
    frame := ((safe_pushCategory1 h.1).ok hc.frame hx).2
    sp_eq := by simp only [hc.sp_eq]
    stack := ?_ }⟩
  rw [hc.sp_eq]
  exact hc.stack.push hc.frame.stackHeads h.1 h.2

theorem follows_popCategory1 : Follows m newest k (SlotWord newest) popCategory1 popWord := by
  intro f s hc slot f' hx
  obtain ⟨hsingle, hframe⟩ := kept_popCategory1.ok hc.frame hx
  obtain ⟨hpos, rfl, -, -, rfl⟩ := popCategory1_ok_iff.mp hx
  refine ⟨_, _, popWord_ok (hc.sp_eq ▸ hpos), ⟨hsingle, ?_⟩, hc.popped 1 hframe⟩
  rw [hc.sp_eq]
  exact (hc.stack _ (by omega)).congr_next (StackMapKind.isSingle_iff.mp hsingle).1

theorem follows_pushCategory2 {slots : Slot × Slot} {words : Word × Word} (hs : IsBlock slots)
    (hfits : BlockFits newest slots words) :
    FollowsTo m newest k (pushCategory2 m slots) (pushPair m words) := by
  intro f s hc u f' hx
  obtain ⟨hroom, rfl⟩ := pushCategory2_ok_iff.mp hx
  refine ⟨(), _, pushPair_ok (hc.sp_eq ▸ hroom), trivial, { hc with
    frame := ((safe_pushCategory2 hs).ok hc.frame hx).2
    sp_eq := by simp only [hc.sp_eq]
    stack := ?_ }⟩
  rw [hc.sp_eq]
  exact hc.stack.pushBlock hc.frame.stackHeads hs hfits

theorem follows_popCategory2 :
    Follows m newest k (fun slots words => IsBlock slots ∧ BlockFits newest slots words)
      popCategory2 popPair := by
  intro f s hc slots f' hx
  obtain ⟨hblock, hframe⟩ := kept_popCategory2.ok hc.frame hx
  obtain ⟨slot1, slot2⟩ := slots
  obtain ⟨hlow, rfl, rfl, -, -, rfl⟩ := popCategory2_ok_iff.mp hx
  refine ⟨_, _, popPair_ok (hc.sp_eq ▸ hlow), ⟨hblock, ?_⟩, hc.popped 2 hframe⟩
  rw [hc.sp_eq]
  have hfirst := hc.stack (f.vstackpointer - 2) (by omega)
  rw [show f.vstackpointer - 2 + 1 = f.vstackpointer - 1 by omega] at hfirst
  exact ⟨hfirst, (hc.stack _ (by omega)).congr_next (hc.frame.stackHeads.top (by omega))⟩

variable {kind : StackMapKind}

theorem follows_pop (hs : kind.isSingle = true) :
    Follows m newest k (fun _ word => SlotFits newest word .undefined kind) (pop kind) popWord := by
  intro f s hc u f' hx
  have hframe := ((safe_pop hs).ok hc.frame hx).2
  obtain ⟨hpos, rfl, rfl⟩ := pop_ok_iff.mp hx
  refine ⟨_, _, popWord_ok (hc.sp_eq ▸ hpos), ?_, hc.popped 1 hframe⟩
  rw [hc.sp_eq]
  exact (hc.stack _ (by omega)).congr_next (StackMapKind.isSingle_iff.mp hs).1

theorem follows_popDoubleword (hhead : kind.isHead = true) :
    Follows m newest k (fun _ words => SlotFits newest words.1 words.2 kind)
      (do Verifier.pop kind.secondHalf; Verifier.pop kind) popPair := by
  intro f s hc u f' hx
  have hframe := ((safe_popDoubleword hhead).ok hc.frame hx).2
  obtain ⟨_, f₁, h1, h2⟩ := bind_eq_ok.mp hx
  obtain ⟨hpos, -, rfl⟩ := pop_ok_iff.mp h1
  obtain ⟨hpos', htag, rfl⟩ := pop_ok_iff.mp h2
  simp only at hpos' htag
  rw [show f.vstackpointer - 1 - 1 = f.vstackpointer - 2 by omega] at htag
  refine ⟨_, _, popPair_ok (hc.sp_eq ▸ (by omega)), ?_, hc.popped 2 hframe⟩
  have hfits := hc.stack (f.vstackpointer - 2) (by omega)
  rw [htag, show f.vstackpointer - 2 + 1 = f.vstackpointer - 1 by omega] at hfits
  rw [hc.sp_eq]
  exact hfits

theorem follows_pushDoubleword {words : Word × Word}
    (hhead : kind.isHead = true) (hfits : SlotFits newest words.1 words.2 kind) :
    FollowsTo m newest k (pushDoubleword m kind) (pushPair m words) := by
  intro f s hc u f' hx
  have hframe := ((safe_pushDoubleword hhead).ok hc.frame hx).2
  obtain ⟨_, f₁, h1, h2⟩ := bind_eq_ok.mp hx
  obtain ⟨-, rfl⟩ := pushCategory1_ok_iff.mp h1
  obtain ⟨hroom, rfl⟩ := pushCategory1_ok_iff.mp h2
  refine ⟨(), _, pushPair_ok (hc.sp_eq ▸ hroom), trivial, { hc with
    frame := hframe
    sp_eq := by simp only [hc.sp_eq]
    stack := ?_ }⟩
  rw [hc.sp_eq]
  have hblock : BlockFits newest (⟨kind, none⟩, ⟨kind.secondHalf, none⟩) words :=
    ⟨hfits, slotFits_of_isHalf (StackMapKind.isHalf_secondHalf _)⟩
  exact hc.stack.pushBlock hc.frame.stackHeads (.inr ⟨hhead, rfl⟩) hblock

/-! ## The locals -/

theorem follows_setLocalRef (h : SlotWord newest slot word) :
    FollowsTo m newest k (setLocalRef m index slot) (setLocalWord m index word) := by
  intro f s hc u f' hx
  have hframe := ((safe_setLocalRef h.1).ok hc.frame hx).2
  obtain ⟨hroom, rfl⟩ := setLocalRef_ok_iff.mp hx
  exact ⟨(), _, setLocalWord_ok hroom, trivial, { hc with
    frame := hframe
    locals := hc.locals.setSingle h.1 h.2 }⟩

theorem follows_setLocal
    (hs : kind.isSingle = true) (hfits : SlotFits newest word .undefined kind) :
    FollowsTo m newest k (setLocal m index kind) (setLocalWord m index word) :=
  .ite (fun _ => .throw _ _) fun _ => follows_setLocalRef ⟨hs, hfits⟩

theorem follows_setLocal2 {words : Word × Word}
    (hhead : kind.isHead = true) (hfits : SlotFits newest words.1 words.2 kind) :
    FollowsTo m newest k (setLocal2 m index kind) (setLocalPair m index words) := by
  intro f s hc u f' hx
  have hframe := ((safe_setLocal2 hhead).ok hc.frame hx).2
  obtain ⟨-, hroom, rfl⟩ := setLocal2_ok_iff.mp hx
  exact ⟨(), _, setLocalPair_ok hroom, trivial, { hc with
    frame := hframe
    locals := hc.locals.setPair (⟨kind, none⟩, ⟨kind.secondHalf, none⟩) hfits
      (StackMapKind.isHalf_secondHalf _) }⟩

theorem follows_checkLocal (hs : kind.isSingle = true) :
    Follows m newest k (fun _ word => SlotFits newest word .undefined kind)
      (checkLocal m index kind) (getLocal m index) := by
  intro f s hc u f' hx
  obtain ⟨-, hroom, htag, rfl⟩ := checkLocal_ok_iff.mp hx
  refine ⟨_, _, getLocal_ok hroom, ?_, hc⟩
  rw [← htag]
  exact (hc.locals index hroom).congr_next (htag ▸ (StackMapKind.isSingle_iff.mp hs).1)

theorem follows_checkLocal2 :
    Follows m newest k (fun _ words => SlotFits newest words.1 words.2 kind)
      (checkLocal2 m index kind) (getLocalPair m index) := by
  intro f s hc u f' hx
  obtain ⟨-, hroom, htag, -, rfl⟩ := checkLocal2_ok_iff.mp hx
  refine ⟨_, s, getLocalPair_ok hroom, ?_, hc⟩
  rw [← htag]
  exact hc.locals index (by omega)

theorem follows_checkLocalRef :
    Follows m newest k (fun slot word => slot.tag.isReference = true ∧ SlotWord newest slot word)
      (checkLocalRef m index) (getLocal m index) := by
  intro f s hc slot f' hx
  obtain ⟨hroom, href, rfl, rfl⟩ := checkLocalRef_ok_iff.mp hx
  have hs := StackMapKind.isSingle_of_isReference href
  refine ⟨_, _, getLocal_ok hroom, ⟨by rw [refSlot_tag]; exact href, ?_⟩, hc⟩
  unfold SlotWord
  rw [refSlot_tag]
  exact ⟨hs, (hc.locals index hroom).congr_next (StackMapKind.isSingle_iff.mp hs).1⟩

end CldcVm.Interpreter
