import CldcVm.Arm.ArithImm

/-!
# The effect of an operation with a constant

Results:

* `isRotatedImm_spec`, `hasLiteral_spec`: an operand that is found has the value of the constant.
* `alternative_spec`, `table_splits`: the rows of the table of opcodes.
* `Effect.trans`: two operations with disjoint constants have the effect of one.
-/

namespace CldcVm.Arm

open Rotation (byte rest)

/-! ## The effect of an operation -/

/-- The registers that are known to hold literals hold them. -/
def Right (la : Option LiteralAccessor) (st : Machine) : Prop :=
  ∀ l ∈ la, ∀ r, l.literalsMap r ≠ 0 → st.regs r = l.literalsMap r

/-- Where the condition holds the destination has the result, and the flags N and Z are those of the
result where they are to be set. No register but the destination and `scratch` changes. -/
structure Computes (opcode : Opcode) (rd rn : Register) (imm32 : BitVec 32) (s : CCMode)
    (cond : Condition) (scratch : Option Register) (st st' : Machine) : Prop where
  result : cond.holds st → opcode.isCompare = false →
    st'.regs rd = opcode.result (st.regs rn) imm32 st.c
  flags : cond.holds st → s = .setCC →
    st'.n = (opcode.result (st.regs rn) imm32 st.c).msb ∧
      st'.z = (opcode.result (st.regs rn) imm32 st.c == 0)
  frame : ∀ r, scratch ≠ some r → (r ≠ rd ∨ opcode.isCompare ∨ cond.holds st = false) →
    st'.regs r = st.regs r

/-- The four flags have not changed. -/
def SameFlags (st st' : Machine) : Prop :=
  st'.n = st.n ∧ st'.z = st.z ∧ st'.c = st.c ∧ st'.v = st.v

theorem SameFlags.refl (st : Machine) : SameFlags st st := ⟨rfl, rfl, rfl, rfl⟩

theorem SameFlags.holds {st st' : Machine} (h : SameFlags st st') (cond : Condition) :
    cond.holds st' = cond.holds st := by
  obtain ⟨hn, hz, hc, hv⟩ := h
  cases cond <;> simp only [Condition.holds, hn, hz, hc, hv]

theorem SameFlags.trans {st st' st'' : Machine} (h : SameFlags st st') (h' : SameFlags st' st'') :
    SameFlags st st'' :=
  ⟨h'.1.trans h.1, h'.2.1.trans h.2.1, h'.2.2.1.trans h.2.2.1, h'.2.2.2.trans h.2.2.2⟩

/-- The effect of an operation that leaves the flags where it does not set them. -/
structure Effect (opcode : Opcode) (rd rn : Register) (imm32 : BitVec 32) (s : CCMode)
    (cond : Condition) (scratch : Option Register) (st st' : Machine) : Prop
    extends Computes opcode rd rn imm32 s cond scratch st st' where
  kept : s = .noCC ∨ cond.holds st = false → SameFlags st st'

variable {opcode opcode' opcode2 : Opcode} {rd rn rn' : Register} {imm32 : BitVec 32} {s : CCMode}
  {cond : Condition} {scratch : Option Register} {st st' st'' : Machine} {operand : Address1}

theorem exec_effect (hcompare : opcode'.isCompare = opcode.isCompare)
    (hresult : opcode'.result (st.regs rn') (operand.value st) st.c =
      opcode.result (st.regs rn) imm32 st.c) :
    Effect opcode rd rn imm32 s cond scratch st
      (Instr.exec st (.arith opcode' rd rn' operand s cond)) where
  result := by
    intro hcond hno
    have hno' : opcode'.isCompare = false := hcompare.trans hno
    cases s <;>
      simp only [Instr.exec, if_pos hcond, hno', Bool.false_eq_true, if_false,
        Function.update_self, hresult]
  flags := by
    intro hcond hs
    subst hs
    simp only [Instr.exec, if_pos hcond, hresult, and_self]
  frame := by
    intro r _ hr
    cases hcond : cond.holds st with
    | false => simp only [Instr.exec, hcond, Bool.false_eq_true, if_false]
    | true =>
      cases hno : opcode.isCompare with
      | true => cases s <;> simp only [Instr.exec, hcond, hcompare, hno, if_true]
      | false =>
        have hrd : r ≠ rd := by
          refine hr.resolve_right ?_
          simp only [hno, hcond, Bool.false_eq_true, Bool.true_eq_false, or_self, not_false_eq_true]
        cases s <;>
          simp only [Instr.exec, hcond, hcompare, hno, Bool.false_eq_true, if_true, if_false,
            Function.update_of_ne hrd]
  kept := by
    intro h
    cases hcond : cond.holds st with
    | false =>
      simp only [Instr.exec, hcond, Bool.false_eq_true, if_false]
      exact SameFlags.refl st
    | true =>
      have hs : s = .noCC := by
        refine h.resolve_right ?_
        simp only [hcond, Bool.true_eq_false, not_false_eq_true]
      subst hs
      simp only [Instr.exec, hcond, if_true]
      exact ⟨rfl, rfl, rfl, rfl⟩

theorem exec_effect_self (hvalue : operand.value st = imm32) :
    Effect opcode rd rn imm32 s cond scratch st
      (Instr.exec st (.arith opcode rd rn operand s cond)) :=
  exec_effect rfl (by rw [hvalue])

/-! ## Operands -/

theorem mem_evenRotations {r : ℕ} (hr : r ∈ evenRotations) : r < 32 ∧ r % 2 = 0 := by
  obtain ⟨k, hk, rfl⟩ := List.mem_map.1 hr
  have hlt : k < 16 := List.mem_range.1 hk
  omega

theorem byte_eq_of_and {y : BitVec 32} (h : y &&& 0xFFFFFF00#32 = 0) : byte y = y := by
  have hrest : rest y = 0#32 := h
  have hor := Rotation.byte_or_rest y
  rwa [hrest, BitVec.or_zero] at hor

theorem rotatedImmLoop_spec {rs : List ℕ} (hrs : ∀ r ∈ rs, r < 32 ∧ r % 2 = 0)
    (h : rotatedImmLoop imm32 rs = some operand) :
    operand.Legal ∧ ∀ st, operand.value st = imm32 := by
  induction rs with
  | nil => cases h
  | cons r rs ih =>
    simp only [rotatedImmLoop] at h
    split at h
    · rename_i hmask
      cases h
      have hbyte := byte_eq_of_and hmask
      obtain ⟨hlt, heven⟩ := hrs r (List.mem_cons_self ..)
      refine ⟨⟨?_, hlt, heven⟩, fun _ => Rotation.rotateRight_rotateLeft imm32 r⟩
      rw [← hbyte]
      exact Rotation.byte_lt _
    · exact ih (fun r hr => hrs r (List.mem_cons_of_mem _ hr)) h

theorem rotateRight_zero (x : BitVec 32) : x.rotateRight 0 = x := by
  apply BitVec.eq_of_getLsbD_eq
  intro i hi
  rw [Rotation.getLsbD_rotateRight32 hi, Nat.add_zero, Nat.mod_eq_of_lt hi]

/-- **Spec lemma**: a rotated constant can be encoded, and stands for the word. -/
theorem isRotatedImm_spec (h : isRotatedImm imm32 = some operand) :
    operand.Legal ∧ ∀ st, operand.value st = imm32 := by
  rw [isRotatedImm] at h
  split at h
  · rename_i hlt
    cases h
    exact ⟨⟨by omega, by decide, rfl⟩, fun _ => rotateRight_zero imm32⟩
  · split at h
    · cases h
    · exact rotatedImmLoop_spec (fun r hr => mem_evenRotations hr) h

theorem shiftTo_spec {value : BitVec 32} {i : ℕ} (hi : 1 ≤ i) (hi' : i ≤ 30)
    (h : shiftTo imm32 value rd i = some operand) :
    operand.Legal ∧ ∀ st : Machine, st.regs rd = value → operand.value st = imm32 := by
  have hne : i ≠ 0 := by omega
  have hlegal : ∀ shift, (Address1.shifted rd shift i).Legal := fun _ => (by omega : i < 32)
  simp only [shiftTo] at h
  split at h
  · rename_i heq
    cases h
    exact ⟨hlegal _, fun st hvalue => by
      simp only [Address1.value, Shift.apply, hvalue, if_neg hne, heq]⟩
  split at h
  · rename_i heq
    cases h
    exact ⟨hlegal _, fun st hvalue => by
      simp only [Address1.value, Shift.apply, hvalue, heq]⟩
  split at h
  · rename_i heq
    cases h
    exact ⟨hlegal _, fun st hvalue => by
      simp only [Address1.value, Shift.apply, hvalue, if_neg hne, heq]⟩
  split at h
  · rename_i heq
    cases h
    exact ⟨hlegal _, fun st hvalue => by
      simp only [Address1.value, Shift.apply, hvalue, if_neg hne, heq]⟩
  · cases h

theorem reg_value (rm : Register) (st : Machine) : (reg rm).value st = st.regs rm := by
  simp only [reg, Address1.value, Shift.apply, BitVec.shiftLeft_zero]

theorem mem_registers {la : LiteralAccessor} {r : Register} (hr : r ∈ la.registers) :
    la.literalsMap r ≠ 0 := by
  simpa only [LiteralAccessor.registers, List.mem_filter, List.mem_finRange, true_and,
    decide_eq_true_eq] using hr

/-- **Spec lemma**: a literal that is found holds the constant. -/
theorem hasLiteral_spec {la : LiteralAccessor} (h : la.hasLiteral imm32 = some operand) :
    operand.Legal ∧ ∀ st, Right (some la) st → operand.value st = imm32 := by
  rw [LiteralAccessor.hasLiteral] at h
  split at h
  · rename_i r hfind
    obtain rfl := Option.some.inj h
    have hvalue : la.literalsMap r = imm32 := by
      simpa only [decide_eq_true_eq] using List.find?_some hfind
    refine ⟨(by decide : 0 < 32), fun st hright => ?_⟩
    rw [reg_value, hright la rfl r (mem_registers (List.mem_of_find?_eq_some hfind)), hvalue]
  · obtain ⟨r, hr, hshift⟩ := List.exists_of_findSome?_eq_some h
    obtain ⟨i, hi, hto⟩ := List.exists_of_findSome?_eq_some hshift
    have hbounds := List.mem_range'_1.1 hi
    obtain ⟨hlegal, hvalue⟩ := shiftTo_spec hbounds.1 (by omega) hto
    exact ⟨hlegal, fun st hright => hvalue st (hright la rfl r (mem_registers hr))⟩

/-! ## Alternatives and splits -/

theorem alternative_spec {imm : BitVec 32} (h : alternative opcode imm32 = some (opcode', imm)) :
    opcode'.isCompare = opcode.isCompare ∧
      ∀ x c, opcode'.result x imm c = opcode.result x imm32 c := by
  cases opcode <;> simp [alternative, OpcodeInfo.table] at h
  all_goals
    obtain ⟨rfl, rfl⟩ := h
    refine ⟨rfl, fun x c => ?_⟩
    simp [Opcode.result, BitVec.sub_eq_add_neg]

/-- The operation may be done in two steps, the second one by `opcode2`, where the constant is split
in two disjoint pieces. -/
structure Splits (opcode opcode2 : Opcode) : Prop where
  writes : opcode.isCompare = false
  writes2 : opcode2.isCompare = false
  result : ∀ x a b c c', a &&& b = 0#32 →
    opcode2.result (opcode.result x a c) b c' = opcode.result x (a ||| b) c

/-- **Spec lemma**: the rows of the table that allow two instructions. The carry is used by the
first one only. -/
theorem table_splits (h : (OpcodeInfo.table opcode).twowordAllowed) :
    Splits opcode (OpcodeInfo.table opcode).twowordOpcode where
  writes := by cases opcode <;> first | rfl | cases h
  writes2 := by cases opcode <;> rfl
  result := by
    intro x a b c c' hab
    have hadd := BitVec.add_eq_or_of_and_eq_zero a b hab
    have hxor := Rotation.xor_of_and_eq_zero hab
    cases opcode <;> simp only [OpcodeInfo.table, Bool.false_eq_true] at h <;>
      simp only [OpcodeInfo.table, Opcode.result]
    case eor => rw [← hxor, BitVec.xor_assoc]
    case orr => rw [BitVec.or_assoc]
    case bic => rw [BitVec.not_or, BitVec.and_assoc]
    case mvn => rw [BitVec.not_or]
    case mov => rw [hadd]
    all_goals
      rw [← hadd]
      grind

/-- The opcode of the second step may be split once more. -/
theorem twowordOpcode_splits (h : (OpcodeInfo.table opcode).twowordAllowed) :
    Splits (OpcodeInfo.table opcode).twowordOpcode (OpcodeInfo.table opcode).twowordOpcode := by
  have hallowed : (OpcodeInfo.table (OpcodeInfo.table opcode).twowordOpcode).twowordAllowed := by
    cases opcode <;> first | rfl | cases h
  have hsame : (OpcodeInfo.table (OpcodeInfo.table opcode).twowordOpcode).twowordOpcode =
      (OpcodeInfo.table opcode).twowordOpcode := by
    cases opcode <;> rfl
  have hsplits := table_splits hallowed
  rwa [hsame] at hsplits

theorem Effect.congr {imm : BitVec 32} (hcompare : opcode'.isCompare = opcode.isCompare)
    (hresult : ∀ x c, opcode'.result x imm c = opcode.result x imm32 c)
    (h : Effect opcode' rd rn imm s cond scratch st st') :
    Effect opcode rd rn imm32 s cond scratch st st' where
  result := by
    intro hcond hno
    rw [h.result hcond (hcompare.trans hno), hresult]
  flags := by
    intro hcond hs
    rw [← hresult]
    exact h.flags hcond hs
  frame := by
    intro r hr hcases
    rw [← hcompare] at hcases
    exact h.frame r hr hcases
  kept := h.kept

theorem Effect.weaken (h : Effect opcode rd rn imm32 s cond none st st')
    (scratch : Option Register) : Effect opcode rd rn imm32 s cond scratch st st' where
  result := h.result
  flags := h.flags
  frame := fun r _ hr => h.frame r (by simp) hr
  kept := h.kept

/-- **Step lemma**: two operations with disjoint constants have the effect of one. -/
theorem Effect.trans {a b : BitVec 32} (hsplits : Splits opcode opcode2) (hab : a &&& b = 0#32)
    (h : Effect opcode rd rn a .noCC cond none st st')
    (h' : Effect opcode2 rd rd b s cond none st' st'') :
    Effect opcode rd rn (a ||| b) s cond none st st'' := by
  have hsame := h.kept (Or.inl rfl)
  have hholds := hsame.holds cond
  have hvalue (hcond : cond.holds st) : opcode2.result (st'.regs rd) b st'.c =
      opcode.result (st.regs rn) (a ||| b) st.c := by
    rw [h.result hcond hsplits.writes]
    exact hsplits.result _ _ _ _ _ hab
  refine ⟨⟨?_, ?_, ?_⟩, ?_⟩
  · intro hcond _
    rw [h'.result (hholds.trans hcond) hsplits.writes2]
    exact hvalue hcond
  · intro hcond hs
    rw [← hvalue hcond]
    exact h'.flags (hholds.trans hcond) hs
  · intro r hr hcases
    have hcases' : r ≠ rd ∨ opcode2.isCompare ∨ cond.holds st' = false := by
      rw [hsplits.writes2, hholds]
      rwa [hsplits.writes] at hcases
    rw [h'.frame r hr hcases', h.frame r hr hcases]
  · intro hs
    exact hsame.trans (h'.kept (by rwa [hholds]))

end CldcVm.Arm
