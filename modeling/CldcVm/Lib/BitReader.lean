import Mathlib.Data.Nat.Bitwise
import Mathlib.Data.Nat.Digits.Defs

/-!
# Bit readers

A reader of a bit string, lowest bit first: the next bits are in a word, the others in bytes that
are loaded into it one by one. What is left to read is a number, which loading does not change, and
of which reading takes the lowest bits.

Results:

* `value_load`: loading a byte.
* `mod_word`, `value_drop`: the lowest bits are those of the word, and taking them off.
-/

namespace CldcVm.Lib

/-- The bits in the word, and the bytes that have not been loaded. -/
structure BitReader where
  word : ℕ
  size : ℕ
  rest : List UInt8

namespace BitReader

variable (r : BitReader)

/-- The number of bits that are left. -/
def left : ℕ := r.size + 8 * r.rest.length

/-- The bits that are left, as a number. -/
def value : ℕ := r.word + 2 ^ r.size * Nat.ofDigits 256 (r.rest.map UInt8.toNat)

/-- The word has no other bits. -/
def Fits : Prop := r.word < 2 ^ r.size

/-- The reader with a byte in the word that was in front of the others. -/
def load (b : UInt8) (rest : List UInt8) : BitReader :=
  ⟨r.word ||| b.toNat <<< r.size, r.size + 8, rest⟩

/-- The reader without its `k` lowest bits. -/
def drop (k : ℕ) : BitReader := ⟨r.word >>> k, r.size - k, r.rest⟩

variable {r} {b : UInt8} {rest : List UInt8} {k : ℕ}

theorem word_load (h : r.Fits) : (r.load b rest).word = r.word + 2 ^ r.size * b.toNat := by
  show r.word ||| b.toNat <<< r.size = _
  rw [Nat.lor_comm, ← Nat.shiftLeft_add_eq_or_of_lt h, Nat.shiftLeft_eq]
  ring

theorem Fits.load (h : r.Fits) (b : UInt8) (rest : List UInt8) : (r.load b rest).Fits := by
  have hb : b.toNat + 1 ≤ 2 ^ 8 := b.toNat_lt
  have hword : r.word < 2 ^ r.size := h
  show (r.load b rest).word < 2 ^ (r.size + 8)
  rw [word_load h, pow_add]
  calc r.word + 2 ^ r.size * b.toNat
      < 2 ^ r.size + 2 ^ r.size * b.toNat := Nat.add_lt_add_right hword _
    _ = 2 ^ r.size * (b.toNat + 1) := by ring
    _ ≤ 2 ^ r.size * 2 ^ 8 := Nat.mul_le_mul_left _ hb

theorem left_load (h : r.rest = b :: rest) : (r.load b rest).left = r.left := by
  show r.size + 8 + 8 * rest.length = r.size + 8 * r.rest.length
  rw [h, List.length_cons]
  ring

/-- **Step lemma**: loading a byte leaves the same bits. -/
theorem value_load (hfits : r.Fits) (h : r.rest = b :: rest) : (r.load b rest).value = r.value := by
  show (r.load b rest).word + 2 ^ (r.size + 8) * Nat.ofDigits 256 (rest.map UInt8.toNat) = r.value
  unfold value
  rw [word_load hfits, h, List.map_cons, Nat.ofDigits_cons, pow_add]
  push_cast
  ring

theorem Fits.drop (h : r.Fits) (hk : k ≤ r.size) : (r.drop k).Fits := by
  have hword : r.word < 2 ^ r.size := h
  show r.word >>> k < 2 ^ (r.size - k)
  rw [Nat.shiftRight_eq_div_pow, Nat.div_lt_iff_lt_mul (Nat.two_pow_pos k), ← pow_add,
    Nat.sub_add_cancel hk]
  exact hword

theorem left_drop (hk : k ≤ r.size) : (r.drop k).left = r.left - k := by
  show r.size - k + 8 * r.rest.length = r.size + 8 * r.rest.length - k
  omega

theorem mod_word (hk : k ≤ r.size) : r.value % 2 ^ k = r.word % 2 ^ k := by
  unfold value
  rw [← Nat.add_sub_of_le hk, pow_add, Nat.mul_assoc, Nat.add_mul_mod_self_left]

/-- **Step lemma**: taking bits off the word takes them off what is left. -/
theorem value_drop (hk : k ≤ r.size) : (r.drop k).value = r.value / 2 ^ k := by
  show r.word >>> k + 2 ^ (r.size - k) * Nat.ofDigits 256 (r.rest.map UInt8.toNat) =
    (r.word + 2 ^ r.size * Nat.ofDigits 256 (r.rest.map UInt8.toNat)) / 2 ^ k
  have hpow : 2 ^ r.size = 2 ^ k * 2 ^ (r.size - k) := by
    rw [← pow_add, Nat.add_sub_of_le hk]
  rw [Nat.shiftRight_eq_div_pow, hpow, Nat.mul_assoc, Nat.add_mul_div_left _ _ (Nat.two_pow_pos k)]

end BitReader

end CldcVm.Lib
