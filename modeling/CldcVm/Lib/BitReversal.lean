import Mathlib.Data.Nat.Bitwise

/-!
# Reversing the bits of a number

`reverseBits n x` has the lowest `n` bits of `x` in the opposite order.

Results:

* `testBit_reverseBits`: the bits, one by one; everything else follows from it.
* `reverseBits_reverseBits`: it is an involution.
* `reverseBits_mod`: its lowest bits are the reversed highest bits.
-/

namespace CldcVm.Lib

/-- The lowest `n` bits of `x`, the highest one first. -/
def reverseBits (n x : ℕ) : ℕ := Nat.ofBits fun i : Fin n => x.testBit (n - 1 - i)

variable {n l x i : ℕ}

theorem reverseBits_lt (n x : ℕ) : reverseBits n x < 2 ^ n := Nat.ofBits_lt_two_pow _

theorem testBit_reverseBits (n x i : ℕ) :
    (reverseBits n x).testBit i = (decide (i < n) && x.testBit (n - 1 - i)) := by
  unfold reverseBits
  rcases Nat.lt_or_ge i n with hlt | hge
  · rw [Nat.testBit_ofBits_lt _ _ hlt, decide_eq_true hlt, Bool.true_and]
  · rw [Nat.testBit_ofBits_ge _ _ hge, decide_eq_false (by omega), Bool.false_and]

/-- Reversing twice gives the lowest bits back. -/
theorem reverseBits_reverseBits (n x : ℕ) : reverseBits n (reverseBits n x) = x % 2 ^ n := by
  apply Nat.eq_of_testBit_eq
  intro i
  rw [testBit_reverseBits, testBit_reverseBits, Nat.testBit_mod_two_pow]
  rcases Nat.lt_or_ge i n with hlt | hge
  · rw [decide_eq_true (show n - 1 - i < n by omega), Bool.true_and,
      show n - 1 - (n - 1 - i) = i by omega]
  · rw [decide_eq_false (by omega), Bool.false_and, Bool.false_and]

/-- The lowest bits are the highest ones of the number, reversed. -/
theorem reverseBits_mod (h : l ≤ n) (x : ℕ) :
    reverseBits n x % 2 ^ l = reverseBits l (x / 2 ^ (n - l)) := by
  apply Nat.eq_of_testBit_eq
  intro i
  rw [Nat.testBit_mod_two_pow, testBit_reverseBits, testBit_reverseBits, Nat.testBit_div_two_pow]
  rcases Nat.lt_or_ge i l with hlt | hge
  · rw [decide_eq_true hlt, decide_eq_true (show i < n by omega), Bool.true_and, Bool.true_and,
      Bool.true_and, show l - 1 - i + (n - l) = n - 1 - i by omega]
  · rw [decide_eq_false (by omega), Bool.false_and, Bool.false_and]

/-- A number whose lowest bits are zero has a reversal that is as much shorter. -/
theorem reverseBits_mul (h : l ≤ n) (x : ℕ) :
    reverseBits n (x * 2 ^ (n - l)) = reverseBits l x := by
  apply Nat.eq_of_testBit_eq
  intro i
  rw [testBit_reverseBits, testBit_reverseBits, Nat.testBit_mul_two_pow]
  rcases Nat.lt_or_ge i l with hlt | hge
  · rw [decide_eq_true hlt, decide_eq_true (show i < n by omega), Bool.true_and, Bool.true_and,
      decide_eq_true (show n - l ≤ n - 1 - i by omega), Bool.true_and,
      show n - 1 - i - (n - l) = l - 1 - i by omega]
  · rw [decide_eq_false (show ¬ i < l by omega), Bool.false_and]
    rcases Nat.lt_or_ge i n with hlt | hge'
    · rw [decide_eq_false (show ¬ n - l ≤ n - 1 - i by omega), Bool.false_and, Bool.and_false]
    · rw [decide_eq_false (by omega), Bool.false_and]

theorem reverseBits_mod_two_pow (n x : ℕ) : reverseBits n (x % 2 ^ n) = reverseBits n x := by
  apply Nat.eq_of_testBit_eq
  intro i
  rw [testBit_reverseBits, testBit_reverseBits, Nat.testBit_mod_two_pow]
  rcases Nat.lt_or_ge i n with hlt | hge
  · rw [decide_eq_true (show n - 1 - i < n by omega), Bool.true_and]
  · rw [decide_eq_false (by omega), Bool.false_and, Bool.false_and]

/-- Reversing a number in two parts. -/
theorem reverseBits_add (m n x : ℕ) :
    reverseBits (m + n) x = 2 ^ m * reverseBits n x + reverseBits m (x / 2 ^ n) := by
  apply Nat.eq_of_testBit_eq
  intro i
  rw [Nat.testBit_two_pow_mul_add _ (reverseBits_lt m _), testBit_reverseBits, testBit_reverseBits,
    testBit_reverseBits, Nat.testBit_div_two_pow]
  rcases Nat.lt_or_ge i m with hlt | hge
  · rw [if_pos hlt, decide_eq_true hlt, decide_eq_true (show i < m + n by omega), Bool.true_and,
      Bool.true_and, show m - 1 - i + n = m + n - 1 - i by omega]
  · rw [if_neg (by omega), show n - 1 - (i - m) = m + n - 1 - i by omega]
    congr 1
    rw [decide_eq_decide]
    omega

end CldcVm.Lib
