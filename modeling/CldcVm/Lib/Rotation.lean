import Mathlib.Data.BitVec
import Mathlib.Tactic.IntervalCases

/-!
# Rotated constants

Words of 32 bits as the sum of bytes that have been rotated.

Results:

* `getLsbD_rotateLeft32`, `getLsbD_rotateRight32`: a rotation moves the bits around the word.
* `rotateRight_ushiftRight`: what is left of a word above a byte and a run of zeros, in its place.
* `shiftLeft_eq_or`: a shifted word is its lowest byte and the rest.
-/

namespace CldcVm.Rotation

variable {x y : BitVec 32} {i r : ℕ}

theorem getLsbD_rotateLeft32 (hi : i < 32) :
    (x.rotateLeft r).getLsbD i = x.getLsbD ((i + 32 - r % 32) % 32) := by
  rw [BitVec.getLsbD_rotateLeft]
  by_cases h : i < r % 32
  · rw [decide_eq_true h, cond_true]
    congr 1
    omega
  · rw [decide_eq_false h, cond_false, decide_eq_true hi, Bool.true_and]
    congr 1
    omega

theorem getLsbD_rotateRight32 (hi : i < 32) :
    (x.rotateRight r).getLsbD i = x.getLsbD ((i + r) % 32) := by
  rw [BitVec.getLsbD_rotateRight]
  by_cases h : i < 32 - r % 32
  · rw [decide_eq_true h, cond_true]
    congr 1
    omega
  · rw [decide_eq_false h, cond_false, decide_eq_true hi, Bool.true_and]
    congr 1
    omega

theorem rotateRight_rotateLeft (x : BitVec 32) (r : ℕ) : (x.rotateLeft r).rotateRight r = x := by
  apply BitVec.eq_of_getLsbD_eq
  intro i hi
  rw [getLsbD_rotateRight32 hi, getLsbD_rotateLeft32 (Nat.mod_lt _ (by omega))]
  congr 1
  omega

theorem rotateRight_or (x y : BitVec 32) (r : ℕ) :
    (x ||| y).rotateRight r = x.rotateRight r ||| y.rotateRight r := by
  apply BitVec.eq_of_getLsbD_eq
  intro i hi
  simp only [BitVec.getLsbD_or, getLsbD_rotateRight32 hi]

theorem rotateRight_and (x y : BitVec 32) (r : ℕ) :
    (x &&& y).rotateRight r = x.rotateRight r &&& y.rotateRight r := by
  apply BitVec.eq_of_getLsbD_eq
  intro i hi
  simp only [BitVec.getLsbD_and, getLsbD_rotateRight32 hi]

theorem zero_rotateRight (r : ℕ) : (0#32).rotateRight r = 0#32 := by
  apply BitVec.eq_of_getLsbD_eq
  intro i hi
  rw [getLsbD_rotateRight32 hi, BitVec.getLsbD_zero, BitVec.getLsbD_zero]

/-! ## Bytes -/

/-- The lowest byte of the word. -/
def byte (x : BitVec 32) : BitVec 32 := x &&& 0xFF#32

theorem getLsbD_byte (x : BitVec 32) (i : ℕ) :
    (byte x).getLsbD i = (decide (i < 8) && x.getLsbD i) := by
  have hmask : (0xFF#32).getLsbD i = decide (i < 8) := by
    by_cases hi : i < 8
    · rw [decide_eq_true hi]
      interval_cases i <;> rfl
    · rw [decide_eq_false hi, BitVec.getLsbD_ofNat]
      have hzero : Nat.testBit 0xFF i = false :=
        Nat.testBit_lt_two_pow (lt_of_lt_of_le (by decide : 0xFF < 2 ^ 8)
          (Nat.pow_le_pow_right (by decide) (by omega)))
      rw [hzero, Bool.and_false]
  rw [byte, BitVec.getLsbD_and, hmask, Bool.and_comm]

theorem byte_lt (x : BitVec 32) : (byte x).toNat < 256 := by
  rw [byte, BitVec.toNat_and]
  exact lt_of_le_of_lt Nat.and_le_right (by decide)

/-- A word without its lowest byte. -/
def rest (x : BitVec 32) : BitVec 32 := x &&& ~~~0xFF#32

theorem getLsbD_rest (hi : i < 32) : (rest x).getLsbD i = (decide (8 ≤ i) && x.getLsbD i) := by
  have hmask : (x &&& 0xFF#32).getLsbD i = (decide (i < 8) && x.getLsbD i) := getLsbD_byte x i
  rw [BitVec.getLsbD_and] at hmask
  rw [rest, BitVec.getLsbD_and, BitVec.getLsbD_not, decide_eq_true hi, Bool.true_and]
  by_cases h : i < 8
  · rw [decide_eq_false (by omega : ¬8 ≤ i)]
    rw [decide_eq_true h, Bool.true_and] at hmask
    cases hx : x.getLsbD i <;> simp_all
  · rw [decide_eq_true (by omega : 8 ≤ i)]
    rw [decide_eq_false h, Bool.false_and] at hmask
    cases hx : x.getLsbD i <;> simp_all

theorem byte_or_rest (x : BitVec 32) : byte x ||| rest x = x := by
  apply BitVec.eq_of_getLsbD_eq
  intro i hi
  rw [BitVec.getLsbD_or, getLsbD_byte, getLsbD_rest hi]
  by_cases h : i < 8
  · rw [decide_eq_true h, decide_eq_false (by omega : ¬8 ≤ i), Bool.true_and, Bool.false_and,
      Bool.or_false]
  · rw [decide_eq_false h, decide_eq_true (by omega : 8 ≤ i), Bool.true_and, Bool.false_and,
      Bool.false_or]

theorem byte_and_rest (x : BitVec 32) : byte x &&& rest x = 0#32 := by
  rw [byte, rest]
  apply BitVec.eq_of_getLsbD_eq
  intro i hi
  simp only [BitVec.getLsbD_and, BitVec.getLsbD_not, BitVec.getLsbD_zero]
  cases x.getLsbD i <;> cases (0xFF#32).getLsbD i <;> simp

/-- What is above the byte and a run of zeros, back in its place by the other rotation. -/
theorem rotateRight_ushiftRight {m t : ℕ} (hm : 8 ≤ m) (ht : (t + m) % 32 = r % 32)
    (hzero : ∀ j, 8 ≤ j → j < m → x.getLsbD j = false) :
    (x >>> m).rotateRight t = (rest x).rotateRight r := by
  apply BitVec.eq_of_getLsbD_eq
  intro i hi
  rw [getLsbD_rotateRight32 hi, getLsbD_rotateRight32 hi, BitVec.getLsbD_ushiftRight,
    getLsbD_rest (Nat.mod_lt _ (by omega))]
  by_cases h : m + (i + t) % 32 < 32
  · have hj : (i + r) % 32 = m + (i + t) % 32 := by omega
    rw [hj, decide_eq_true (by omega : 8 ≤ m + (i + t) % 32), Bool.true_and]
  · have hj : (i + r) % 32 < m := by omega
    rw [BitVec.getLsbD_of_ge _ _ (by omega)]
    by_cases h8 : 8 ≤ (i + r) % 32
    · rw [hzero _ h8 hj, Bool.and_false]
    · rw [decide_eq_false h8, Bool.false_and]

/-! ## Shifts without a loss -/

/-- The word may be shifted by `k` bits to the left without a loss. -/
def Fits (x : BitVec 32) (k : ℕ) : Prop := ∀ j, 32 - k ≤ j → x.getLsbD j = false

theorem fits_zero (x : BitVec 32) : Fits x 0 := fun _ hj => BitVec.getLsbD_of_ge _ _ hj

theorem Fits.lt (h : Fits x r) (hx : x ≠ 0#32) : r < 32 := by
  by_contra hr
  refine hx (BitVec.eq_of_getLsbD_eq fun i hi => ?_)
  rw [h i (by omega), BitVec.getLsbD_zero]

theorem Fits.ushiftRight (h : Fits x r) (m : ℕ) : Fits (x >>> m) (r + m) := by
  intro j hj
  rw [BitVec.getLsbD_ushiftRight]
  exact h _ (by omega)

theorem Fits.byte (h : Fits x r) : Fits (byte x) r := by
  intro j hj
  rw [getLsbD_byte, h j hj, Bool.and_false]

/-- A rotation that loses nothing is a shift. -/
theorem Fits.rotateRight (h : Fits x r) (hr : r < 32) :
    x.rotateRight ((32 - r) % 32) = x <<< r := by
  apply BitVec.eq_of_getLsbD_eq
  intro i hi
  rw [getLsbD_rotateRight32 hi, BitVec.getLsbD_shiftLeft, decide_eq_true hi, Bool.true_and]
  by_cases hir : i < r
  · rw [h _ (by omega), decide_eq_true hir, Bool.not_true, Bool.false_and]
  · rw [decide_eq_false hir, Bool.not_false, Bool.true_and]
    congr 1
    omega

theorem ushiftRight_shiftLeft {m : ℕ} (k : ℕ) (hzero : ∀ j < m, x.getLsbD j = false) :
    (x >>> m) <<< (k + m) = x <<< k := by
  apply BitVec.eq_of_getLsbD_eq
  intro i hi
  rw [BitVec.getLsbD_shiftLeft, BitVec.getLsbD_shiftLeft, BitVec.getLsbD_ushiftRight]
  by_cases hik : i < k
  · rw [decide_eq_true hik, decide_eq_true (by omega : i < k + m), Bool.not_true, Bool.and_false,
      Bool.false_and, Bool.false_and]
  · by_cases hikm : i < k + m
    · rw [decide_eq_true hikm, hzero (i - k) (by omega), Bool.not_true, Bool.and_false,
        Bool.false_and, Bool.and_false]
    · rw [decide_eq_false hik, decide_eq_false hikm, show m + (i - (k + m)) = i - k by omega]

theorem rest_shiftLeft (x : BitVec 32) (k : ℕ) : rest x <<< k = (x >>> 8) <<< (k + 8) := by
  apply BitVec.eq_of_getLsbD_eq
  intro i hi
  rw [BitVec.getLsbD_shiftLeft, BitVec.getLsbD_shiftLeft, BitVec.getLsbD_ushiftRight,
    decide_eq_true hi, Bool.true_and, Bool.true_and]
  by_cases hik : i < k
  · rw [decide_eq_true hik, decide_eq_true (by omega : i < k + 8), Bool.not_true, Bool.false_and,
      Bool.false_and]
  · rw [getLsbD_rest (by omega), decide_eq_false hik, Bool.not_false, Bool.true_and]
    by_cases hik8 : i < k + 8
    · rw [decide_eq_true hik8, decide_eq_false (by omega : ¬8 ≤ i - k), Bool.not_true,
        Bool.false_and, Bool.false_and]
    · rw [decide_eq_false hik8, decide_eq_true (by omega : 8 ≤ i - k), Bool.not_false,
        show 8 + (i - (k + 8)) = i - k by omega]

theorem shiftLeft_eq_or (x : BitVec 32) (k : ℕ) :
    x <<< k = byte x <<< k ||| (x >>> 8) <<< (k + 8) := by
  rw [← rest_shiftLeft, ← BitVec.shiftLeft_or_distrib, byte_or_rest]

theorem shiftLeft_and_eq_zero (x : BitVec 32) (k : ℕ) :
    byte x <<< k &&& (x >>> 8) <<< (k + 8) = 0#32 := by
  rw [← rest_shiftLeft, ← BitVec.shiftLeft_and_distrib, byte_and_rest, BitVec.zero_shiftLeft]

/-! ## Sums of disjoint words -/

theorem xor_of_and_eq_zero (h : x &&& y = 0#32) : x ^^^ y = x ||| y := by
  apply BitVec.eq_of_getLsbD_eq
  intro i _
  have hbit := congrArg (fun z => z.getLsbD i) h
  simp only [BitVec.getLsbD_and, BitVec.getLsbD_zero] at hbit
  rw [BitVec.getLsbD_xor, BitVec.getLsbD_or]
  cases hx : x.getLsbD i <;> cases hy : y.getLsbD i <;> simp_all

end CldcVm.Rotation
