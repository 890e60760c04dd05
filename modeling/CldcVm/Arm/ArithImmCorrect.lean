import CldcVm.Arm.Splitting

/-!
# Operations with a constant compute what they say

Results:

* `arithImm_computes_iff`: this is the only exception.
-/

namespace CldcVm.Arm

variable {opcode opcode' opcode2 : Opcode} {rd rn rn' : Register} {imm32 : BitVec 32} {s : CCMode}
  {cond : Condition} {scratch : Option Register} {st st' st'' : Machine} {operand : Address1}
  {la : Option LiteralAccessor} {code : List Instr}

/-! ## The parts of `arith_imm` -/

/-- **Spec lemma**: one instruction. -/
theorem singleImm_spec {instr : Instr} (h : singleImm opcode rd rn imm32 la s cond = some instr) :
    Sound la opcode rd rn imm32 s cond [instr] := by
  rw [singleImm] at h
  split at h
  · rename_i operand hrotated
    obtain rfl := Option.some.inj h
    exact sound_single (isRotatedImm_spec hrotated).1 fun st _ => (isRotatedImm_spec hrotated).2 st
  split at h
  · rename_i altOpcode operand halt
    obtain rfl := Option.some.inj h
    obtain ⟨alt, halternative, hmap⟩ := Option.bind_eq_some_iff.1 halt
    obtain ⟨_, hrotated, hpair⟩ := Option.map_eq_some_iff.1 hmap
    obtain ⟨rfl, rfl⟩ := Prod.mk.inj hpair
    obtain ⟨hlegal, hvalue⟩ := isRotatedImm_spec hrotated
    exact (sound_single hlegal fun st _ => hvalue st).alternative halternative
  split at h
  · rename_i operand hliteral
    obtain rfl := Option.some.inj h
    obtain ⟨l, rfl, hhas⟩ := Option.bind_eq_some_iff.1 hliteral
    exact sound_single (hasLiteral_spec hhas).1 (hasLiteral_spec hhas).2
  split at h
  · rename_i altOpcode operand halt
    obtain rfl := Option.some.inj h
    obtain ⟨alt, halternative, hmap⟩ := Option.bind_eq_some_iff.1 halt
    obtain ⟨_, hliteral, hpair⟩ := Option.map_eq_some_iff.1 hmap
    obtain ⟨rfl, rfl⟩ := Prod.mk.inj hpair
    obtain ⟨l, rfl, hhas⟩ := Option.bind_eq_some_iff.1 hliteral
    exact (sound_single (hasLiteral_spec hhas).1 (hasLiteral_spec hhas).2).alternative
      halternative
  · exact absurd h (by simp)

theorem allowedTwoword_spec (opcode : Opcode) (rd rn : Register) (imm32 : BitVec 32)
    (la : Option LiteralAccessor) (s : CCMode) (cond : Condition) :
    ∃ result, allowedTwoword opcode rd rn imm32 s cond = .ok result ∧
      ∀ code ∈ result, Sound la opcode rd rn imm32 s cond code := by
  rw [allowedTwoword]
  by_cases h : (OpcodeInfo.table opcode).twowordAllowed
  · rw [if_pos h]
    exact arith2Imm_spec h
  · exact ⟨none, if_neg h, by simp⟩

/-- **Spec lemma**: the search for two instructions ends. -/
theorem splitImm_spec (opcode : Opcode) (rd rn : Register) (imm32 : BitVec 32)
    (la : Option LiteralAccessor) (s : CCMode) (cond : Condition) :
    ∃ result, splitImm opcode rd rn imm32 s cond = .ok result ∧
      ∀ code ∈ result, Sound la opcode rd rn imm32 s cond code := by
  rw [splitImm]
  by_cases hmay : maySplit opcode rd s
  · obtain ⟨first, hfirst, hspec⟩ := allowedTwoword_spec opcode rd rn imm32 la s cond
    rw [if_pos hmay, hfirst]
    match first, hspec with
    | some code, hspec => exact ⟨some code, rfl, hspec⟩
    | none, _ =>
      cases halt : alternative opcode imm32 with
      | none => exact ⟨none, rfl, by simp⟩
      | some alt =>
        obtain ⟨result, hresult, hsound⟩ := allowedTwoword_spec alt.1 rd rn alt.2 la s cond
        exact ⟨result, hresult, fun code hcode => (hsound code hcode).alternative halt⟩
  · exact ⟨none, if_neg hmay, by simp⟩

theorem ne_zero_of_isRotatedImm (h : isRotatedImm imm32 = none) : imm32 ≠ 0#32 := by
  rintro rfl
  exact absurd h (by decide)

/-- **Spec lemma**: the last part comes to its end. -/
theorem desperateImm_spec (hrotated : isRotatedImm imm32 = none)
    (hrotatedAlt : ∀ alt ∈ alternative opcode imm32, isRotatedImm alt.2 = none) :
    desperateImm opcode rd rn imm32 s cond ≠ .error .outOfFuel ∧
      ∀ code, desperateImm opcode rd rn imm32 s cond = .ok code →
        Sound la opcode rd rn imm32 s cond code := by
  have hstop : (Except.error .shouldNotReachHere : Except Failure (List Instr)) ≠
        .error .outOfFuel ∧
      ∀ code, Except.error Failure.shouldNotReachHere = .ok code →
        Sound la opcode rd rn imm32 s cond code := ⟨by simp, by simp⟩
  rw [desperateImm]
  by_cases hmay : maySplit opcode rd s
  · rw [if_pos hmay]
    by_cases h : (OpcodeInfo.table opcode).twowordAllowed
    · obtain ⟨code, hcode, hsound⟩ :=
        @arith4Imm_spec opcode rd rn imm32 s cond la h (ne_zero_of_isRotatedImm hrotated)
      rw [if_pos h, hcode]
      exact ⟨by simp, fun _ heq => Except.ok.inj heq ▸ hsound⟩
    · rw [if_neg h]
      cases halt : alternative opcode imm32 with
      | none => exact hstop
      | some alt =>
        simp only
        by_cases h2 : (OpcodeInfo.table alt.1).twowordAllowed
        · obtain ⟨code, hcode, hsound⟩ := @arith4Imm_spec alt.1 rd rn alt.2 s cond la h2
            (ne_zero_of_isRotatedImm (hrotatedAlt alt halt))
          rw [if_pos h2, hcode]
          exact ⟨by simp, fun _ heq => Except.ok.inj heq ▸ hsound.alternative halt⟩
        · rw [if_neg h2]
          exact hstop
  · rw [if_neg hmay]
    exact hstop

/-- The literal of `ldr_big_integer`, which does not set the flags. -/
theorem ldrLiteral_effect :
    Effect .mov rd rn imm32 .noCC cond scratch st (Instr.exec st (.ldrLiteral rd imm32 cond)) where
  result := by
    intro hcond _
    simp only [Instr.exec, if_pos hcond, Function.update_self, Opcode.result]
  flags := fun _ hs => by simp at hs
  frame := by
    intro r _ hr
    cases hcond : cond.holds st with
    | false => simp only [Instr.exec, hcond, Bool.false_eq_true, if_false]
    | true =>
      have hrd : r ≠ rd := by simpa [Opcode.isCompare, hcond] using hr
      simp only [Instr.exec, hcond, if_true, Function.update_of_ne hrd]
  kept := by
    intro _
    simp only [Instr.exec]
    split <;> exact ⟨rfl, rfl, rfl, rfl⟩

/-- The constant is in the register `tmp`, which is the allocated one if any has changed. -/
structure Loads (l : LiteralAccessor) (imm32 : BitVec 32) (code : List Instr) (tmp : Register) :
    Prop where
  legal : ∀ instr ∈ code, instr.Legal
  value : ∀ st, Right (some l) st → (run code st).regs tmp = imm32
  flags : ∀ st, Right (some l) st → SameFlags st (run code st)
  frame : ∀ st, Right (some l) st → ∀ r, r ≠ tmp ∨ r ≠ l.allocated →
    (run code st).regs r = st.regs r

theorem Loads.sound {l : LiteralAccessor} {tmp : Register} (h : Loads l imm32 code tmp)
    (hne : rn ≠ tmp) :
    Sound (some l) opcode rd rn imm32 s cond (code ++ [.arith opcode rd rn (reg tmp) s cond]) where
  legal := by
    intro instr hinstr
    obtain hmem | hlast := List.mem_append.1 hinstr
    · exact h.legal instr hmem
    · rw [List.mem_singleton.1 hlast]
      exact (by decide : 0 < 32)
  effect := by
    intro st hright
    have hrun : run (code ++ [.arith opcode rd rn (reg tmp) s cond]) st =
        Instr.exec (run code st) (.arith opcode rd rn (reg tmp) s cond) := by
      rw [run, List.foldl_append]
      rfl
    have hvalue : (reg tmp).value (run code st) = imm32 := by
      rw [reg_value]
      exact h.value st hright
    have hsame := h.flags st hright
    have hholds := hsame.holds cond
    have hrn := h.frame st hright rn (.inl hne)
    have heffect : Effect opcode rd rn imm32 s cond none (run code st) _ := exec_effect_self hvalue
    rw [hrun]
    refine ⟨⟨?_, ?_, ?_⟩, ?_⟩
    · intro hcond hno
      rw [← hrn, ← hsame.2.2.1]
      exact heffect.result (hholds.trans hcond) hno
    · intro hcond hs
      rw [← hrn, ← hsame.2.2.1]
      exact heffect.flags (hholds.trans hcond) hs
    · intro r hr hcases
      have hscratch : r ≠ l.allocated := fun heq => hr (by rw [heq]; rfl)
      rw [← hholds] at hcases
      rw [heffect.frame r (by simp) hcases, h.frame st hright r (.inr hscratch)]
    · intro hs
      rw [← hholds] at hs
      exact hsame.trans (heffect.kept hs)

theorem isRotatedImm_of_singleImm (h : singleImm opcode rd rn imm32 la s cond = none) :
    isRotatedImm imm32 = none ∧ ∀ alt ∈ alternative opcode imm32, isRotatedImm alt.2 = none := by
  rw [singleImm] at h
  split at h
  · exact absurd h (by simp)
  split at h
  · exact absurd h (by simp)
  rename_i hrotated _ halt
  refine ⟨hrotated, fun alt hmem => ?_⟩
  rw [Option.mem_def.1 hmem] at halt
  exact Option.map_eq_none_iff.1 halt

/-- **Spec lemma**: the code is sound, where that of the literal is and no large constant is moved
with the flags to be set. -/
theorem arithImmWith_spec {getLiteral : LiteralAccessor → Except Failure (List Instr × Register)}
    (hget : ∀ l ∈ la, getLiteral l ≠ .error .outOfFuel ∧
      ∀ code tmp, getLiteral l = .ok (code, tmp) → Loads l imm32 code tmp)
    (hmove : opcode = .mov → singleImm opcode rd rn imm32 la s cond = none →
      splitImm opcode rd rn imm32 s cond = .ok none → s = .noCC) :
    arithImmWith getLiteral opcode rd rn imm32 la s cond ≠ .error .outOfFuel ∧
      ∀ code, arithImmWith getLiteral opcode rd rn imm32 la s cond = .ok code →
        Sound la opcode rd rn imm32 s cond code := by
  unfold arithImmWith
  match hsingle : singleImm opcode rd rn imm32 la s cond with
  | some instr =>
    exact ⟨by simp, fun code hcode => Except.ok.inj hcode ▸ singleImm_spec hsingle⟩
  | none =>
    simp only
    obtain ⟨result, hsplit, hspec⟩ := splitImm_spec opcode rd rn imm32 la s cond
    rw [hsplit]
    match result, hspec with
    | some split, hspec =>
      exact ⟨by simp, fun code hcode => Except.ok.inj hcode ▸ hspec split rfl⟩
    | none, _ =>
      simp only
      by_cases heor : opcode = .eor ∧ imm32 = -1
      · rw [if_pos heor]
        obtain ⟨rfl, rfl⟩ := heor
        refine ⟨by simp, fun code hcode => ?_⟩
        obtain rfl := Except.ok.inj hcode
        refine ⟨fun instr hinstr => ?_, fun st _ => ?_⟩
        · rw [List.mem_singleton.1 hinstr]
          exact (by decide : 0 < 32)
        · have hmvn : Effect .eor rd rn (-1) s cond none st
              (Instr.exec st (.arith .mvn rd sbz (reg rn) s cond)) := by
            refine exec_effect rfl ?_
            rw [reg_value]
            exact BitVec.xor_allOnes.symm
          exact hmvn.weaken _
      rw [if_neg heor]
      by_cases hmov : opcode = .mov
      · rw [if_pos hmov]
        have hs := hmove hmov hsingle hsplit
        subst hmov hs
        refine ⟨by simp, fun code hcode => ?_⟩
        obtain rfl := Except.ok.inj hcode
        refine ⟨fun instr hinstr => ?_, fun st _ => ldrLiteral_effect⟩
        rw [List.mem_singleton.1 hinstr]
        trivial
      rw [if_neg hmov]
      match la, hget with
      | none, _ =>
        obtain ⟨hrotated, hrotatedAlt⟩ := isRotatedImm_of_singleImm hsingle
        exact desperateImm_spec hrotated hrotatedAlt
      | some l, hget =>
        simp only
        obtain ⟨hfuel, hloads⟩ := hget l rfl
        match hlit : getLiteral l with
        | .error e =>
          refine ⟨fun heq => hfuel ?_, by simp⟩
          rw [hlit, Except.error.inj heq]
        | .ok (code, tmp) =>
          simp only
          by_cases heq : rn = tmp
          · rw [if_pos heq]
            exact ⟨by simp, by simp⟩
          · rw [if_neg heq]
            refine ⟨by simp, fun code' hcode' => ?_⟩
            obtain rfl := Except.ok.inj hcode'
            exact (hloads code tmp hlit).sound heq

/-- **Spec lemma**: a literal is found in a register, or moved into the allocated one. -/
theorem getLiteral_spec (imm32 : BitVec 32) (l : LiteralAccessor) :
    getLiteral imm32 l ≠ .error .outOfFuel ∧
      ∀ code tmp, getLiteral imm32 l = .ok (code, tmp) → Loads l imm32 code tmp := by
  rw [getLiteral]
  match hfind : l.registers.find? fun r => l.literalsMap r = imm32 with
  | some r =>
    refine ⟨by simp, fun code tmp h => ?_⟩
    obtain ⟨rfl, rfl⟩ := Prod.mk.inj (Except.ok.inj h)
    have hvalue : l.literalsMap r = imm32 := by
      simpa only [decide_eq_true_eq] using List.find?_some hfind
    refine ⟨by simp, fun st hright => ?_, fun st _ => SameFlags.refl st, fun _ _ _ _ => rfl⟩
    rw [← hvalue]
    exact hright l rfl r (mem_registers (List.mem_of_find?_eq_some hfind))
  | none =>
    simp only
    obtain ⟨hfuel, hsound⟩ : movImm l.allocated imm32 (some l) .noCC .al ≠ .error .outOfFuel ∧
        ∀ code, movImm l.allocated imm32 (some l) .noCC .al = .ok code →
          Sound (some l) .mov l.allocated sbz imm32 .noCC .al code :=
      arithImmWith_spec (fun _ _ => ⟨by simp, by simp⟩) fun _ _ _ => rfl
    match hmov : movImm l.allocated imm32 (some l) .noCC .al with
    | .error e =>
      refine ⟨fun heq => hfuel ?_, by simp⟩
      rw [hmov, Except.error.inj heq]
    | .ok code =>
      refine ⟨by simp, fun code' tmp h => ?_⟩
      obtain ⟨rfl, rfl⟩ := Prod.mk.inj (Except.ok.inj h)
      obtain ⟨hlegal, heffect⟩ := hsound code hmov
      refine ⟨hlegal, fun st hright => ?_, fun st hright => ?_, fun st hright r hr => ?_⟩
      · exact (heffect st hright).result rfl rfl
      · exact (heffect st hright).kept (.inl rfl)
      · have hne : r ≠ l.allocated := hr.elim id id
        refine (heffect st hright).frame r (fun heq => hne ?_) (.inl hne)
        exact (Option.some.inj heq).symm

/-! ## Large constants -/

/-- A large constant is moved and the flags are to be set: the constant and its complement are not
rotated ones, they are not at hand as literals, and they do not fall into two pieces, or the
destination is the program counter. -/
structure LargeMove (opcode : Opcode) (rd : Register) (imm32 : BitVec 32)
    (la : Option LiteralAccessor) (s : CCMode) : Prop where
  mov : opcode = .mov
  setCC : s = .setCC
  notRotated : isRotatedImm imm32 = none ∧ isRotatedImm (~~~imm32) = none
  noLiteral : ∀ l ∈ la, l.hasLiteral imm32 = none ∧ l.hasLiteral (~~~imm32) = none
  notSplit : rd = pc ∨
    isTwowordImmediate imm32 = .ok none ∧ isTwowordImmediate (~~~imm32) = .ok none

theorem arith2Imm_eq_none_iff :
    arith2Imm opcode rd rn imm32 s cond = .ok none ↔ isTwowordImmediate imm32 = .ok none := by
  rw [arith2Imm]
  split <;> simp_all

theorem splitImm_mov_eq_none_iff : splitImm .mov rd rn imm32 .setCC cond = .ok none ↔
    rd = pc ∨ isTwowordImmediate imm32 = .ok none ∧ isTwowordImmediate (~~~imm32) = .ok none := by
  have hmay : maySplit .mov rd .setCC = true ↔ rd ≠ pc := by
    simp [maySplit, Opcode.code]
  by_cases hpc : rd = pc
  · rw [splitImm, if_neg (by rw [hmay]; exact not_not.2 hpc)]
    simp [hpc]
  · rw [splitImm, if_pos (hmay.2 hpc)]
    simp only [allowedTwoword, OpcodeInfo.table, alternative, if_true]
    rw [← @arith2Imm_eq_none_iff .mov rd rn imm32 .setCC cond,
      ← @arith2Imm_eq_none_iff .mvn rd rn (~~~imm32) .setCC cond]
    obtain ⟨result, hresult, -⟩ := @arith2Imm_spec .mov rd rn imm32 .setCC cond none rfl
    rw [hresult]
    cases result with
    | some code => simp [hpc]
    | none => simp [hpc]

theorem singleImm_mov_eq_none_iff : singleImm .mov rd rn imm32 la s cond = none ↔
    (isRotatedImm imm32 = none ∧ isRotatedImm (~~~imm32) = none) ∧
      ∀ l ∈ la, l.hasLiteral imm32 = none ∧ l.hasLiteral (~~~imm32) = none := by
  have halt : alternative .mov imm32 = some (.mvn, ~~~imm32) := rfl
  rw [singleImm, halt]
  simp only [Option.bind_some]
  cases isRotatedImm imm32 <;> cases isRotatedImm (~~~imm32) <;> cases la with
  | none => simp
  | some l =>
    cases hl : l.hasLiteral imm32 <;> cases hl' : l.hasLiteral (~~~imm32) <;> simp [hl, hl']

theorem LargeMove.arithImm (h : LargeMove opcode rd imm32 la s) :
    arithImm opcode rd rn imm32 la s cond = .ok [.ldrLiteral rd imm32 cond] := by
  obtain ⟨rfl, rfl, hrotated, hliteral, hsplit⟩ := h
  unfold Arm.arithImm arithImmWith
  rw [singleImm_mov_eq_none_iff.2 ⟨hrotated, hliteral⟩]
  simp only [splitImm_mov_eq_none_iff.2 hsplit]
  rfl

/-- Flags with which the condition holds, while Z is set or N is not `m`. -/
theorem exists_flags (cond : Condition) (m : Bool) : ∃ n z c v : Bool,
    cond.holds ⟨fun _ => 0, n, z, c, v⟩ = true ∧ (n ≠ m ∨ z = true) := by
  cases cond <;> cases m <;> decide

theorem exists_wrong_flags (la : Option LiteralAccessor) (cond : Condition)
    (hne : imm32 ≠ 0#32) : ∃ st, Right la st ∧ cond.holds st = true ∧
      ¬(st.n = imm32.msb ∧ st.z = (imm32 == 0)) := by
  obtain ⟨n, z, c, v, hholds, hwrong⟩ := exists_flags cond imm32.msb
  have hsame : ∀ regs, SameFlags ⟨fun _ => 0, n, z, c, v⟩ ⟨regs, n, z, c, v⟩ :=
    fun _ => ⟨rfl, rfl, rfl, rfl⟩
  refine ⟨⟨fun r => la.elim 0 fun l => l.literalsMap r, n, z, c, v⟩, ?_, ?_, ?_⟩
  · intro l hl r _
    rw [Option.mem_def.1 hl]
    rfl
  · rw [(hsame _).holds, hholds]
  · rintro ⟨hn, hz⟩
    have hzero : (imm32 == 0) = false := beq_false_of_ne hne
    obtain hn' | hz' := hwrong
    · exact hn' hn
    · exact absurd (hz.symm.trans hz') (by rw [hzero]; decide)

/-- The loops end, and the code has legal operands and computes the operation in every state in
which the literals are right. -/
def ArithImmComputes (opcode : Opcode) (rd rn : Register) (imm32 : BitVec 32)
    (la : Option LiteralAccessor) (s : CCMode) (cond : Condition) : Prop :=
  arithImm opcode rd rn imm32 la s cond ≠ .error .outOfFuel ∧
    ∀ code, arithImm opcode rd rn imm32 la s cond = .ok code →
      (∀ instr ∈ code, instr.Legal) ∧ ∀ st, Right la st →
        Computes opcode rd rn imm32 s cond (la.map (·.allocated)) st (run code st)

/-- **Main theorem**: for every opcode, register, constant, condition and mode, the code that
`arith_imm` emits computes the operation, if and only if it is not the move of a large constant with
the flags to be set. -/
theorem arithImm_computes_iff (opcode : Opcode) (rd rn : Register) (imm32 : BitVec 32)
    (la : Option LiteralAccessor) (s : CCMode) (cond : Condition) :
    ArithImmComputes opcode rd rn imm32 la s cond ↔ ¬LargeMove opcode rd imm32 la s := by
  constructor
  · rintro ⟨-, hcode⟩ hlarge
    obtain ⟨-, hcomputes⟩ := hcode _ hlarge.arithImm
    obtain ⟨st, hright, hholds, hwrong⟩ :=
      exists_wrong_flags la cond (ne_zero_of_isRotatedImm hlarge.notRotated.1)
    have hflags := (hcomputes st hright).flags hholds hlarge.setCC
    obtain rfl := hlarge.mov
    have hkept : SameFlags st (run [.ldrLiteral rd imm32 cond] st) :=
      (@ldrLiteral_effect rd rn imm32 cond none st).kept (Or.inl rfl)
    rw [hkept.1, hkept.2.1] at hflags
    exact hwrong hflags
  · intro hlarge
    obtain ⟨hfuel, hsound⟩ := @arithImmWith_spec opcode rd rn imm32 s cond la _
      (fun l _ => getLiteral_spec imm32 l) (by
        rintro rfl hsingle hsplit
        obtain ⟨hrotated, hliteral⟩ := singleImm_mov_eq_none_iff.1 hsingle
        cases s with
        | noCC => rfl
        | setCC =>
          exact absurd ⟨rfl, rfl, hrotated, hliteral, splitImm_mov_eq_none_iff.1 hsplit⟩ hlarge)
    refine ⟨hfuel, fun code hcode => ⟨(hsound code hcode).legal, fun st hright => ?_⟩⟩
    exact ((hsound code hcode).effect st hright).toComputes

/-- `mov_imm(r0, 0x12345678, NULL, set_CC)` loads the literal and leaves the flags. -/
theorem movImm_large_not_computes :
    ¬ArithImmComputes .mov 0 0 0x12345678#32 none .setCC .al := by
  rintro ⟨-, hcode⟩
  have hlarge : arithImm .mov 0 0 0x12345678#32 none .setCC .al =
      .ok [.ldrLiteral 0 0x12345678#32 .al] := by decide +kernel
  have hflags := ((hcode _ hlarge).2 ⟨fun _ => 0, false, true, false, false⟩
    (fun _ hl => absurd hl (by simp))).flags rfl rfl
  exact absurd hflags.2 (by decide)

end CldcVm.Arm
