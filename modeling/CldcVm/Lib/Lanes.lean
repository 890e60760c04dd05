import CldcVm.Lib.Words

/-!
# Four bytes in one word

A word of 32 bits holds four lanes of eight. An operation on the word is an operation on
each lane as long as no bit and no carry goes from one lane into the next.

Results:
* `lane_ext`, `lane_readQuad`, `writeQuad_apply`: a word is its lanes, and lanes are the
  bytes in memory.
* `lane_and`, `lane_not`, `lane_quadMask`: bitwise operations act lane by lane.
* `lane_shiftLeft_mask`, `lane_shiftRight_mask`: so do shifts under a mask that drops what
  has crossed.
* `toNat_lane_add`: so does the sum, when no lane overflows.
* `and_quadMask_ne_zero`: a mask is met in some lane.
-/

namespace CldcVm.Lib

/-- The `k`-th byte of a word, from the lowest. -/
def lane (x : BitVec 32) (k : ℕ) : Byte := x.extractLsb' (8 * k) 8

/-- The four bytes from `p` on as a word, the lowest address in the lowest lane. -/
def readQuad (m : Memory) (p : ℕ) : BitVec 32 := m (p + 3) ++ (m (p + 2) ++ (m (p + 1) ++ m p))

/-- The memory with the lanes of `x` from `p` on. -/
def writeQuad (m : Memory) (p : ℕ) (x : BitVec 32) : Memory :=
  fun a => if p ≤ a ∧ a < p + 4 then lane x (a - p) else m a

/-- `x` in each of the four lanes. -/
def quadMask (x : BitVec 32) : BitVec 32 := x <<< 24 ||| x <<< 16 ||| x <<< 8 ||| x

variable {m : Memory} {p k : ℕ} {x y : BitVec 32}

theorem getLsbD_lane (x : BitVec 32) (k i : ℕ) :
    (lane x k).getLsbD i = (decide (i < 8) && x.getLsbD (8 * k + i)) := by
  rw [lane, BitVec.getLsbD_extractLsb']

/-- A word is its lanes. -/
theorem lane_ext (h : ∀ k < 4, lane x k = lane y k) : x = y := by
  apply BitVec.eq_of_getLsbD_eq
  intro i hi
  have hbit := congrArg (fun b : Byte => b.getLsbD (i % 8)) (h (i / 8) (by omega))
  simp only [getLsbD_lane, decide_eq_true (Nat.mod_lt i (by decide : 0 < 8)), Bool.true_and] at hbit
  rwa [Nat.div_add_mod] at hbit

theorem lane_readQuad (hk : k < 4) : lane (readQuad m p) k = m (p + k) := by
  apply BitVec.eq_of_getLsbD_eq
  intro i hi
  rw [getLsbD_lane, decide_eq_true hi, Bool.true_and, readQuad]
  simp only [BitVec.getLsbD_append]
  interval_cases k <;> interval_cases i <;> rfl

theorem writeQuad_apply (m : Memory) (p : ℕ) (x : BitVec 32) (hk : k < 4) :
    writeQuad m p x (p + k) = lane x k := by
  rw [writeQuad, if_pos (by omega), Nat.add_sub_cancel_left]

theorem writeQuad_other {a : ℕ} (h : a < p ∨ p + 4 ≤ a) : writeQuad m p x a = m a := by
  rw [writeQuad, if_neg (by omega)]

theorem readQuad_congr {m' : Memory} (h : ∀ k < 4, m' (p + k) = m (p + k)) :
    readQuad m' p = readQuad m p := by
  apply lane_ext
  intro k hk
  rw [lane_readQuad hk, lane_readQuad hk, h k hk]

/-- A word that does not meet the one that is written. -/
theorem readQuad_writeQuad_other {q : ℕ} (h : q + 4 ≤ p ∨ p + 4 ≤ q) :
    readQuad (writeQuad m p x) q = readQuad m q :=
  readQuad_congr fun _ _ => writeQuad_other (by omega)

/-! ## Bitwise operations -/

theorem lane_and : lane (x &&& y) k = lane x k &&& lane y k := by
  apply BitVec.eq_of_getLsbD_eq
  intro i hi
  simp only [getLsbD_lane, BitVec.getLsbD_and, decide_eq_true hi, Bool.true_and]

theorem lane_not (hk : k < 4) : lane (~~~x) k = ~~~lane x k := by
  apply BitVec.eq_of_getLsbD_eq
  intro i hi
  have hlt : 8 * k + i < 32 := by omega
  simp only [getLsbD_lane, BitVec.getLsbD_not, decide_eq_true hi, decide_eq_true hlt, Bool.true_and]

/-- Every lane of `quadMask` is the byte it was made of. -/
theorem lane_quadMask (b : Byte) (hk : k < 4) : lane (quadMask (b.setWidth 32)) k = b := by
  apply BitVec.eq_of_getLsbD_eq
  intro i hi
  rw [getLsbD_lane, decide_eq_true hi, Bool.true_and, quadMask]
  simp only [BitVec.getLsbD_or, BitVec.getLsbD_shiftLeft, BitVec.getLsbD_setWidth]
  interval_cases k <;> interval_cases i <;> simp

theorem lane_zero (k : ℕ) : lane 0 k = 0 := by
  apply BitVec.eq_of_getLsbD_eq
  intro i hi
  simp only [getLsbD_lane, BitVec.ofNat_eq_ofNat, BitVec.getLsbD_zero, Bool.and_false]

/-- A mask is met by a word where one of the lanes meets it. -/
theorem and_quadMask_ne_zero (x : BitVec 32) (b : Byte) :
    x &&& quadMask (b.setWidth 32) ≠ 0 ↔ ∃ k < 4, lane x k &&& b ≠ 0 := by
  constructor
  · intro h
    by_contra hall
    push Not at hall
    apply h
    apply lane_ext
    intro k hk
    rw [lane_and, lane_quadMask b hk, lane_zero]
    exact hall k hk
  · rintro ⟨k, hk, hne⟩ heq
    apply hne
    have hlane := congrArg (lane · k) heq
    simp only [lane_and, lane_quadMask b hk, lane_zero] at hlane
    exact hlane

/-! ## Shifts under a mask -/

/-- A byte below `2 ^ n` has no bit from `n` on. -/
theorem getLsbD_of_lt {b : Byte} {n i : ℕ} (h : b.toNat < 2 ^ n) (hi : n ≤ i) :
    b.getLsbD i = false :=
  Nat.testBit_lt_two_pow (lt_of_lt_of_le h (Nat.pow_le_pow_right (by decide) hi))

theorem lane_shiftLeft_mask {s : ℕ} {b : Byte} (hs : s ≤ 8) (hb : b.toNat < 2 ^ (8 - s))
    (hk : k < 4) : lane ((x &&& quadMask (b.setWidth 32)) <<< s) k = (lane x k &&& b) <<< s := by
  have hmask : ∀ k < 4, ∀ i < 8, (x &&& quadMask (b.setWidth 32)).getLsbD (8 * k + i) =
      (lane x k &&& b).getLsbD i := by
    intro k hk i hi
    have hlane := congrArg (fun c : Byte => c.getLsbD i)
      (show lane (x &&& quadMask (b.setWidth 32)) k = lane x k &&& b by
        rw [lane_and, lane_quadMask b hk])
    simpa only [getLsbD_lane, decide_eq_true hi, Bool.true_and] using hlane
  apply BitVec.eq_of_getLsbD_eq
  intro i hi
  have hlt : 8 * k + i < 32 := by omega
  rw [getLsbD_lane, BitVec.getLsbD_shiftLeft, BitVec.getLsbD_shiftLeft]
  simp only [decide_eq_true hi, decide_eq_true hlt, Bool.true_and]
  by_cases his : i < s
  · -- What comes up from the lane below is beyond the mask.
    rw [decide_eq_true his, Bool.not_true, Bool.false_and, Bool.and_eq_false_iff]
    by_cases hlow : 8 * k + i < s
    · exact .inl (by rw [decide_eq_true hlow]; rfl)
    · right
      rw [show 8 * k + i - s = 8 * (k - 1) + (8 + i - s) by omega,
        hmask (k - 1) (by omega) (8 + i - s) (by omega), BitVec.getLsbD_and,
        getLsbD_of_lt hb (by omega), Bool.and_false]
  · rw [decide_eq_false his, decide_eq_false (show ¬8 * k + i < s by omega),
      show 8 * k + i - s = 8 * k + (i - s) by omega, hmask k hk (i - s) (by omega)]

/-- Bits that come down from the lane above are dropped by the mask. -/
theorem lane_shiftRight_mask {s : ℕ} {b : Byte} (hb : b.toNat < 2 ^ (8 - s)) (hk : k < 4) :
    lane ((x >>> s) &&& quadMask (b.setWidth 32)) k = (lane x k >>> s) &&& b := by
  rw [lane_and, lane_quadMask b hk]
  apply BitVec.eq_of_getLsbD_eq
  intro i hi
  simp only [BitVec.getLsbD_and, getLsbD_lane, BitVec.getLsbD_ushiftRight, decide_eq_true hi,
    Bool.true_and]
  by_cases his : s + i < 8
  · rw [decide_eq_true his, Bool.true_and, Nat.add_left_comm]
  · rw [getLsbD_of_lt hb (show 8 - s ≤ i by omega), Bool.and_false, Bool.and_false]

/-! ## The sum -/

theorem toNat_lane (x : BitVec 32) (k : ℕ) : (lane x k).toNat = x.toNat / 2 ^ (8 * k) % 256 := by
  rw [lane, BitVec.extractLsb'_toNat, Nat.shiftRight_eq_div_pow]

theorem lane_of_digits {a b c d : ℕ} (ha : a < 256) (hb : b < 256) (hc : c < 256) (hd : d < 256)
    (hx : x.toNat = a + 256 * (b + 256 * (c + 256 * d))) :
    (lane x 0).toNat = a ∧ (lane x 1).toNat = b ∧ (lane x 2).toNat = c ∧ (lane x 3).toNat = d := by
  refine ⟨?_, ?_, ?_, ?_⟩
  · rw [toNat_lane, hx, show 2 ^ (8 * 0) = 1 from rfl]
    omega
  · rw [toNat_lane, hx, show 2 ^ (8 * 1) = 256 from rfl]
    omega
  · rw [toNat_lane, hx, show 2 ^ (8 * 2) = 65536 from rfl]
    omega
  · rw [toNat_lane, hx, show 2 ^ (8 * 3) = 16777216 from rfl]
    omega

theorem exists_digits (x : BitVec 32) : ∃ a b c d, a < 256 ∧ b < 256 ∧ c < 256 ∧ d < 256 ∧
    x.toNat = a + 256 * (b + 256 * (c + 256 * d)) := by
  have hlt := x.isLt
  exact ⟨x.toNat % 256, x.toNat / 256 % 256, x.toNat / 65536 % 256, x.toNat / 16777216,
    by omega, by omega, by omega, by omega, by omega⟩

/-- No carry goes from one lane into the next when no lane overflows. -/
theorem toNat_lane_add (h : ∀ k < 4, (lane x k).toNat + (lane y k).toNat < 256) (hk : k < 4) :
    (lane (x + y) k).toNat = (lane x k).toNat + (lane y k).toNat := by
  have h0 := h 0 (by decide)
  have h1 := h 1 (by decide)
  have h2 := h 2 (by decide)
  have h3 := h 3 (by decide)
  obtain ⟨a, b, c, d, ha, hb, hc, hd, hx⟩ := exists_digits x
  obtain ⟨a', b', c', d', ha', hb', hc', hd', hy⟩ := exists_digits y
  obtain ⟨hx0, hx1, hx2, hx3⟩ := lane_of_digits ha hb hc hd hx
  obtain ⟨hy0, hy1, hy2, hy3⟩ := lane_of_digits ha' hb' hc' hd' hy
  rw [hx0, hy0] at h0
  rw [hx1, hy1] at h1
  rw [hx2, hy2] at h2
  rw [hx3, hy3] at h3
  have hsum : (x + y).toNat = a + a' + 256 * (b + b' + 256 * (c + c' + 256 * (d + d'))) := by
    rw [BitVec.toNat_add, hx, hy]
    omega
  obtain ⟨hs0, hs1, hs2, hs3⟩ := lane_of_digits h0 h1 h2 h3 hsum
  match k, hk with
  | 0, _ => rw [hs0, hx0, hy0]
  | 1, _ => rw [hs1, hx1, hy1]
  | 2, _ => rw [hs2, hx2, hy2]
  | 3, _ => rw [hs3, hx3, hy3]

end CldcVm.Lib
