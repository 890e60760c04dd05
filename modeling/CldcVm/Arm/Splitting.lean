import CldcVm.Arm.Effect

/-!
# A constant in pieces

Results:

* `isTwowordImmediate_spec`: the search for two pieces ends, and they are disjoint.
* `arith4Loop_spec`: the loop with up to four pieces ends.
* `arith2Imm_spec`, `arith4Imm_spec`: the instructions with the pieces have the effect of the
  operation.
-/

namespace CldcVm.Arm

open Rotation (byte rest Fits)

variable {opcode opcode' opcode2 : Opcode} {rd rn rn' : Register} {imm32 : BitVec 32} {s : CCMode}
  {cond : Condition} {scratch : Option Register} {st st' st'' : Machine} {operand : Address1}

/-! ## Two pieces -/

theorem and_thirty {n : ℕ} (h : n % 2 = 0) : n &&& 30 = n % 32 := by
  obtain ⟨k, rfl⟩ : ∃ k, n = k <<< 1 := ⟨n / 2, by rw [Nat.shiftLeft_eq]; omega⟩
  have hmask : k &&& 15 = k % 16 := Nat.and_two_pow_sub_one_eq_mod k 4
  calc k <<< 1 &&& 15 <<< 1 = (k &&& 15) <<< 1 := Nat.shiftLeft_and_distrib.symm
    _ = (k <<< 1) % 32 := by rw [hmask, Nat.shiftLeft_eq, Nat.shiftLeft_eq]; omega

variable {y : BitVec 32}

theorem low_zeros (h : y &&& 3#32 = 0) : ∀ j < 2, y.getLsbD j = false := by
  intro j hj
  have hbit := congrArg (fun z => z.getLsbD j) h
  obtain rfl | rfl : j = 0 ∨ j = 1 := by omega
  · simpa using hbit
  · simpa using hbit

/-- **Run lemma**: the inner loop ends, and has dropped zeros only. -/
theorem otherPiece_spec {fuel : ℕ} {x t : BitVec 32} (hx : x.toNat < 256 * 4 ^ fuel) :
    ∃ result, otherPiece (fuel + 1) x t = .ok result ∧ ∀ p ∈ result, ∃ j,
      p.1 = x >>> (2 * j) ∧ (p.2.toNat + 2 * j) % 32 = t.toNat % 32 ∧ p.1.toNat < 256 ∧
      ∀ i < 2 * j, x.getLsbD i = false := by
  induction fuel generalizing x t with
  | zero =>
    have hle : x.toNat ≤ 0xFF := by omega
    refine ⟨some (x, t), by rw [otherPiece, if_pos hle], ?_⟩
    simp only [Option.mem_def, Option.some.injEq]
    intro p hp
    subst hp
    exact ⟨0, rfl, rfl, (by omega : x.toNat < 256), fun i hi => by omega⟩
  | succ fuel ih =>
    rw [otherPiece]
    by_cases hle : x.toNat ≤ 0xFF
    · refine ⟨some (x, t), if_pos hle, ?_⟩
      simp only [Option.mem_def, Option.some.injEq]
      intro p hp
      subst hp
      exact ⟨0, rfl, rfl, (by omega : x.toNat < 256), fun i hi => by omega⟩
    · by_cases hlow : x &&& 3 ≠ 0
      · refine ⟨none, by rw [if_neg hle, if_pos hlow], ?_⟩
        simp
      · have hzeros := low_zeros (not_not.1 hlow)
        have hshift : (x >>> 2).toNat < 256 * 4 ^ fuel := by
          rw [BitVec.toNat_ushiftRight, Nat.shiftRight_eq_div_pow]
          rw [pow_succ] at hx
          omega
        obtain ⟨result, hresult, hspec⟩ := ih hshift (t := t - 2)
        refine ⟨result, by rw [if_neg hle, if_neg hlow, hresult], fun p hp => ?_⟩
        obtain ⟨j, hp1, hp2, hlt, hzero⟩ := hspec p hp
        refine ⟨j + 1, ?_, ?_, hlt, ?_⟩
        · rw [hp1, ← BitVec.shiftRight_add]
          congr 1
          omega
        · have hsub : (t - 2).toNat = (2 ^ 32 - 2 + t.toNat) % 2 ^ 32 := BitVec.toNat_sub t 2
          omega
        · intro i hi
          by_cases hi2 : i < 2
          · exact hzeros i hi2
          · have hbit := hzero (i - 2) (by omega)
            rwa [BitVec.getLsbD_ushiftRight, show 2 + (i - 2) = i by omega] at hbit

/-- The two pieces are disjoint constants that can be encoded, and together they are the word. -/
def Pieces (imm32 : BitVec 32) (p : Address1 × Address1) : Prop :=
  ∃ a b, a &&& b = 0#32 ∧ a ||| b = imm32 ∧ (p.1.Legal ∧ ∀ st, p.1.value st = a) ∧
    (p.2.Legal ∧ ∀ st, p.2.value st = b)

/-- A byte and what is left of the word above a run of zeros. -/
theorem pieces_of_rotate {z : BitVec 32} {r t m : ℕ} (hr : r < 32 ∧ r % 2 = 0)
    (ht : t < 32 ∧ t % 2 = 0) (hm : 8 ≤ m) (htm : (t + m) % 32 = r % 32) (hz : z = y >>> m)
    (hlt : z.toNat < 256) (hzero : ∀ j, 8 ≤ j → j < m → y.getLsbD j = false) :
    Pieces (y.rotateRight r) (immRotate (byte y) r, immRotate z t) := by
  have hvalue : z.rotateRight t = (rest y).rotateRight r := by
    rw [hz]
    exact Rotation.rotateRight_ushiftRight hm htm hzero
  refine ⟨(byte y).rotateRight r, (rest y).rotateRight r, ?_, ?_,
    ⟨⟨Rotation.byte_lt y, hr⟩, fun _ => rfl⟩, ⟨⟨hlt, ht⟩, fun _ => hvalue⟩⟩
  · rw [← Rotation.rotateRight_and, Rotation.byte_and_rest, Rotation.zero_rotateRight]
  · rw [← Rotation.rotateRight_or, Rotation.byte_or_rest]

/-- **Run lemma**: the outer loop ends. -/
theorem twowordLoop_spec {rs : List ℕ} (hrs : ∀ r ∈ rs, r < 32 ∧ r % 2 = 0) :
    ∃ result, twowordLoop imm32 rs = .ok result ∧ ∀ p ∈ result, Pieces imm32 p := by
  induction rs with
  | nil => exact ⟨none, rfl, by simp⟩
  | cons r rs ih =>
    have hr := hrs r (List.mem_cons_self ..)
    rw [twowordLoop]
    by_cases hcanonical : imm32.rotateLeft r &&& 3 ≠ 0 ∧ imm32.rotateLeft r &&& 0xFF000000#32 = 0
    · simp only [if_pos hcanonical]
      set y := imm32.rotateLeft r with hy
      have hlt : (y >>> 8).toNat < 256 * 4 ^ 15 := by
        rw [BitVec.toNat_ushiftRight, Nat.shiftRight_eq_div_pow]
        have := y.isLt
        omega
      obtain ⟨other, hother, hspec⟩ := otherPiece_spec (t := BitVec.ofNat 32 r - 8) hlt
      simp only [hother]
      match other, hspec with
      | none, _ => exact ⟨none, rfl, by simp⟩
      | some (x, t), hspec =>
        obtain ⟨j, hx, ht, hbyte, hzero⟩ := hspec (x, t) rfl
        refine ⟨_, rfl, ?_⟩
        simp only [Option.mem_def, Option.some.injEq]
        intro p hp
        subst hp
        have hsub : (BitVec.ofNat 32 r - 8).toNat = (2 ^ 32 - 8 + r) % 2 ^ 32 := by
          have h := BitVec.toNat_sub (BitVec.ofNat 32 r) 8
          rwa [BitVec.toNat_ofNat, Nat.mod_eq_of_lt (by omega : r < 2 ^ 32)] at h
        simp only at ht hx hbyte
        have hand : (t &&& 30#32).toNat = t.toNat % 32 := by
          rw [BitVec.toNat_and]
          exact and_thirty (by omega)
        have himm : imm32 = y.rotateRight r := (Rotation.rotateRight_rotateLeft imm32 r).symm
        rw [himm]
        refine pieces_of_rotate hr ?_ (by omega : 8 ≤ 8 + 2 * j) ?_ ?_ hbyte ?_
        · rw [hand]
          omega
        · rw [hand]
          omega
        · rw [hx, ← BitVec.shiftRight_add]
        · intro i hi him
          have hbit := hzero (i - 8) (by omega)
          rwa [BitVec.getLsbD_ushiftRight, show 8 + (i - 8) = i by omega] at hbit
    · simp only [if_neg hcanonical]
      exact ih fun r hr => hrs r (List.mem_cons_of_mem _ hr)

/-- **Spec lemma**: the search for two pieces ends, and those that are found are pieces of the
word. -/
theorem isTwowordImmediate_spec (imm32 : BitVec 32) :
    ∃ result, isTwowordImmediate imm32 = .ok result ∧ ∀ p ∈ result, Pieces imm32 p := by
  rw [isTwowordImmediate]
  by_cases hsmall : imm32.toNat < 0x10000
  · refine ⟨_, if_pos hsmall, ?_⟩
    simp only [Option.mem_def, Option.some.injEq]
    intro p hp
    subst hp
    have hlt : (imm32 >>> 8).toNat < 256 := by
      rw [BitVec.toNat_ushiftRight, Nat.shiftRight_eq_div_pow]
      omega
    have hpieces := pieces_of_rotate (r := 0) (t := 24) (by decide) (by decide) le_rfl rfl rfl hlt
      (fun j hj hj' => by omega)
    rwa [rotateRight_zero] at hpieces
  · rw [if_neg hsmall]
    exact twowordLoop_spec fun r hr => mem_evenRotations hr

/-! ## Sound code -/

/-- The code can be encoded and has the effect of the operation. -/
structure Sound (la : Option LiteralAccessor) (opcode : Opcode) (rd rn : Register)
    (imm32 : BitVec 32) (s : CCMode) (cond : Condition) (code : List Instr) : Prop where
  legal : ∀ instr ∈ code, instr.Legal
  effect : ∀ st, Right la st →
    Effect opcode rd rn imm32 s cond (la.map (·.allocated)) st (run code st)

variable {la : Option LiteralAccessor} {code : List Instr}

theorem sound_single (hlegal : operand.Legal)
    (hvalue : ∀ st, Right la st → operand.value st = imm32) :
    Sound la opcode rd rn imm32 s cond [.arith opcode rd rn operand s cond] where
  legal := by
    intro instr hinstr
    rw [List.mem_singleton.1 hinstr]
    exact hlegal
  effect := fun st hright => (exec_effect_self (hvalue st hright)).weaken _

theorem Sound.alternative {imm : BitVec 32} (halt : alternative opcode imm32 = some (opcode', imm))
    (h : Sound la opcode' rd rn imm s cond code) : Sound la opcode rd rn imm32 s cond code where
  legal := h.legal
  effect := fun st hright =>
    (h.effect st hright).congr (alternative_spec halt).1 (alternative_spec halt).2

/-- **Spec lemma**: two instructions. -/
theorem arith2Imm_spec (h : (OpcodeInfo.table opcode).twowordAllowed) :
    ∃ result, arith2Imm opcode rd rn imm32 s cond = .ok result ∧
      ∀ code ∈ result, Sound la opcode rd rn imm32 s cond code := by
  obtain ⟨pieces, hpieces, hspec⟩ := isTwowordImmediate_spec imm32
  simp only [arith2Imm, hpieces]
  match pieces, hspec with
  | none, _ => exact ⟨none, rfl, by simp⟩
  | some (p, q), hspec =>
    obtain ⟨a, b, hab, himm, ⟨hp, hpvalue⟩, ⟨hq, hqvalue⟩⟩ := hspec (p, q) rfl
    refine ⟨_, rfl, ?_⟩
    simp only [Option.mem_def, Option.some.injEq]
    intro code hcode
    subst hcode himm
    refine ⟨?_, fun st _ => ?_⟩
    · simp only [List.mem_cons, List.not_mem_nil, or_false, forall_eq_or_imp, forall_eq]
      exact ⟨hp, hq⟩
    · exact ((exec_effect_self (hpvalue st)).trans (table_splits h) hab
        (exec_effect_self (hqvalue _))).weaken _

/-! ## Four pieces -/

theorem ushiftRight_ne_zero {m : ℕ} (hy : y ≠ 0#32)
    (hzero : ∀ j < m, y.getLsbD j = false) : y >>> m ≠ 0#32 := by
  intro h
  have hback := Rotation.ushiftRight_shiftLeft 0 hzero
  rw [h, BitVec.zero_shiftLeft, BitVec.shiftLeft_zero] at hback
  exact hy hback.symm

/-- **Run lemma**: pairs of zeros are dropped until there are none. -/
theorem dropZeros_spec {fuel k : ℕ} (hy : y ≠ 0#32) (hfits : Fits y k)
    (heven : k % 2 = 0) (hfuel : 30 ≤ k + 2 * fuel) :
    ∃ y' k', dropZeros (fuel + 1) y (32 - k) = .ok (y', 32 - k') ∧ y' ≠ 0#32 ∧ Fits y' k' ∧
      k' % 2 = 0 ∧ k ≤ k' ∧ y' <<< k' = y <<< k := by
  induction fuel generalizing y k with
  | zero =>
    have hlow : ¬y &&& 3 = 0 := by
      intro hlow
      have hlt := (hfits.ushiftRight 2).lt (ushiftRight_ne_zero hy (low_zeros hlow))
      omega
    exact ⟨y, k, by rw [dropZeros, if_neg hlow], hy, hfits, heven, le_rfl, rfl⟩
  | succ fuel ih =>
    rw [dropZeros]
    by_cases hlow : y &&& 3 = 0
    · have hzeros := low_zeros hlow
      obtain ⟨y', k', hdrop, hy', hfits', heven', hle, hshift⟩ :=
        ih (ushiftRight_ne_zero hy hzeros) (hfits.ushiftRight 2) (by omega) (by omega)
      refine ⟨y', k', ?_, hy', hfits', heven', by omega, ?_⟩
      · rw [if_pos hlow, show 32 - k - 2 = 32 - (k + 2) by omega, hdrop]
      · rw [hshift, Rotation.ushiftRight_shiftLeft k hzeros]
    · exact ⟨y, k, if_neg hlow, hy, hfits, heven, le_rfl, rfl⟩

theorem byte_operand {k : ℕ} (hbyte : y.toNat < 256) (hfits : Fits y k)
    (hk : k < 32) (heven : k % 2 = 0) :
    (immRotate y ((32 - k) &&& 30)).Legal ∧
      ∀ st, (immRotate y ((32 - k) &&& 30)).value st = y <<< k := by
  have hand : (32 - k) &&& 30 = (32 - k) % 32 := and_thirty (by omega)
  rw [hand]
  exact ⟨⟨hbyte, by omega, by omega⟩, fun _ => hfits.rotateRight hk⟩

/-- **Run lemma**: the loop ends, each round with a piece of at least eight bits. -/
theorem arith4Loop_spec {fuel k : ℕ} {y : BitVec 32} (hsplits : Splits opcode opcode2)
    (hsplits2 : Splits opcode2 opcode2) (hy : y ≠ 0#32) (hfits : Fits y k) (heven : k % 2 = 0)
    (hfuel : 32 ≤ k + 8 * fuel) :
    ∃ code, arith4Loop opcode2 rd s cond fuel opcode rn y (32 - k) = .ok code ∧
      (∀ instr ∈ code, instr.Legal) ∧
      ∀ st, Effect opcode rd rn (y <<< k) s cond none st (run code st) := by
  induction fuel generalizing opcode rn y k with
  | zero =>
    have := hfits.lt hy
    omega
  | succ fuel ih =>
    obtain ⟨y', k', hdrop, hy', hfits', heven', hle, hshift⟩ :=
      dropZeros_spec hy hfits heven (by omega : 30 ≤ k + 2 * 16)
    have hk := hfits'.lt hy'
    have hne : ¬y = 0 := hy
    rw [arith4Loop, if_neg hne, hdrop, ← hshift]
    simp only
    by_cases hbyte : byte y' = y'
    · have hlt : y'.toNat < 256 := by
        rw [← hbyte]
        exact Rotation.byte_lt y'
      obtain ⟨hlegal, hvalue⟩ := byte_operand hlt hfits' hk heven'
      refine ⟨_, if_pos hbyte, ?_, fun st => exec_effect_self (hvalue st)⟩
      intro instr hinstr
      rw [List.mem_singleton.1 hinstr]
      exact hlegal
    · have hne : y' >>> 8 ≠ 0#32 := by
        intro h
        have hrest := Rotation.rest_shiftLeft y' 0
        rw [h, BitVec.zero_shiftLeft, BitVec.shiftLeft_zero] at hrest
        have hor := Rotation.byte_or_rest y'
        rw [hrest, BitVec.or_zero] at hor
        exact hbyte hor
      obtain ⟨code, hcode, hlegals, heffect⟩ :=
        @ih opcode2 rd _ _ hsplits2 hne (hfits'.ushiftRight 8) (by omega) (by omega)
      obtain ⟨hlegal, hvalue⟩ := byte_operand (Rotation.byte_lt y') hfits'.byte hk heven'
      rw [if_neg hbyte, show 32 - k' - 8 = 32 - (k' + 8) by omega, hcode]
      refine ⟨_, rfl, ?_, fun st => ?_⟩
      · intro instr hinstr
        obtain rfl | hmem := List.mem_cons.1 hinstr
        · exact hlegal
        · exact hlegals instr hmem
      · rw [Rotation.shiftLeft_eq_or]
        exact (exec_effect_self (hvalue st)).trans hsplits (Rotation.shiftLeft_and_eq_zero y' k')
          (heffect _)

/-- **Spec lemma**: up to four instructions. -/
theorem arith4Imm_spec (h : (OpcodeInfo.table opcode).twowordAllowed) (hne : imm32 ≠ 0#32) :
    ∃ code, arith4Imm opcode rd rn imm32 s cond = .ok code ∧
      Sound la opcode rd rn imm32 s cond code := by
  obtain ⟨code, hcode, hlegal, heffect⟩ := @arith4Loop_spec _ _ rd rn s cond _ _ _ (table_splits h)
    (twowordOpcode_splits h) hne (Rotation.fits_zero imm32) rfl (by omega : 32 ≤ 0 + 8 * 4)
  refine ⟨code, hcode, hlegal, fun st _ => ?_⟩
  rw [← BitVec.shiftLeft_zero imm32]
  exact (heffect st).weaken _

end CldcVm.Arm
