import Mathlib.Data.List.Basic
import Mathlib.Data.Nat.Bitwise

/-!
# Bit fields and bit streams

A word with fields at fixed positions, a word whose bits are set one after the other, and the
stream of bits in a sequence of words.

Results:

* `two_pow_mul_add_and`, `two_pow_mul_add_or`: a bitwise operation acts on the fields above and
  below a position on their own.
* `Collects.push`: one more bit of a word is set.
* `streamBit_set_of_ne`, `streamBit_set_self`: a word is put in a stream.
-/

namespace CldcVm.Lib

/-! ## Fields -/

section Fields

variable {k a b c d : ℕ}

theorem two_pow_mul_add_and (hc : c < 2 ^ k) (hd : d < 2 ^ k) :
    (2 ^ k * a + c) &&& (2 ^ k * b + d) = 2 ^ k * (a &&& b) + (c &&& d) := by
  apply Nat.eq_of_testBit_eq
  intro i
  rw [Nat.testBit_and, Nat.testBit_two_pow_mul_add a hc, Nat.testBit_two_pow_mul_add b hd,
    Nat.testBit_two_pow_mul_add _ (Nat.and_lt_two_pow c hd)]
  split_ifs <;> rw [Nat.testBit_and]

theorem two_pow_mul_add_or (hc : c < 2 ^ k) (hd : d < 2 ^ k) :
    (2 ^ k * a + c) ||| (2 ^ k * b + d) = 2 ^ k * (a ||| b) + (c ||| d) := by
  apply Nat.eq_of_testBit_eq
  intro i
  rw [Nat.testBit_or, Nat.testBit_two_pow_mul_add a hc, Nat.testBit_two_pow_mul_add b hd,
    Nat.testBit_two_pow_mul_add _ (Nat.or_lt_two_pow hc hd)]
  split_ifs <;> rw [Nat.testBit_or]

end Fields

/-! ## A word that is filled bit by bit -/

/-- The low `n` bits of `bits` are the first `n` values of `f`, and no other bit is set. -/
def Collects (bits n : ℕ) (f : ℕ → Bool) : Prop := ∀ i, bits.testBit i = (decide (i < n) && f i)

namespace Collects

variable {bits n : ℕ} {f g : ℕ → Bool}

theorem zero (f : ℕ → Bool) : Collects 0 0 f := by
  intro i
  simp

theorem testBit_of_lt (h : Collects bits n f) {i : ℕ} (hi : i < n) : bits.testBit i = f i := by
  simp [h i, hi]

theorem testBit_of_ge (h : Collects bits n f) {i : ℕ} (hi : n ≤ i) : bits.testBit i = false := by
  simp [h i, hi]

theorem lt_two_pow (h : Collects bits n f) : bits < 2 ^ n := by
  apply Nat.lt_pow_two_of_testBit
  intro i hi
  exact h.testBit_of_ge hi

/-- One more bit is set where `f` says so. -/
theorem push (h : Collects bits n f) :
    Collects (if f n then bits ||| 2 ^ n else bits) (n + 1) f := by
  intro i
  have hbits := h i
  rcases lt_trichotomy i n with hi | rfl | hi
  · have hpow : (2 ^ n).testBit i = false := Nat.testBit_two_pow_of_ne (by omega)
    split_ifs <;> simp [hbits, hpow, hi, Nat.lt_succ_of_lt hi]
  · split_ifs with hf <;> simp [hbits, hf, Nat.testBit_two_pow_self]
  · have hpow : (2 ^ n).testBit i = false := Nat.testBit_two_pow_of_ne (by omega)
    have hge : ¬ i < n + 1 := by omega
    split_ifs <;> simp [hbits, hpow, hge, not_lt.mpr hi.le]

theorem congr (h : Collects bits n f) (hfg : ∀ i < n, f i = g i) : Collects bits n g := by
  intro i
  rw [h i]
  by_cases hi : i < n
  · rw [hfg i hi]
  · simp [hi]

end Collects

/-! ## The stream of bits in a sequence of words -/

/-- Bit `p` of a sequence of words of `width` bits, the lowest bit of a word first. -/
def streamBit (width : ℕ) (words : List ℕ) (p : ℕ) : Bool :=
  (words.getD (p / width) 0).testBit (p % width)

section Stream

variable {width : ℕ} {words : List ℕ} {index bits p i : ℕ}

theorem streamBit_mul_add (hi : i < width) :
    streamBit width words (width * index + i) = (words.getD index 0).testBit i := by
  have hdiv : (width * index + i) / width = index := by
    rw [Nat.mul_add_div (by omega), Nat.div_eq_of_lt hi, add_zero]
  rw [streamBit, hdiv, Nat.mul_add_mod, Nat.mod_eq_of_lt hi]

theorem streamBit_set_of_ne (h : p / width ≠ index) :
    streamBit width (words.set index bits) p = streamBit width words p := by
  rw [streamBit, streamBit, List.getD_eq_getElem?_getD, List.getElem?_set_ne h.symm,
    List.getD_eq_getElem?_getD]

theorem streamBit_set_self (h : index < words.length) (hi : i < width) :
    streamBit width (words.set index bits) (width * index + i) = bits.testBit i := by
  rw [streamBit_mul_add hi, List.getD_eq_getElem?_getD, List.getElem?_set_self h]
  rfl

end Stream

end CldcVm.Lib
