import CldcVm.Lib.Segment

/-!
# Words in a memory of bytes

Little-endian words of a number of bytes, how they are read and written, and the
byte-by-byte loops `memset` and `memcpy`.

Results:
* `readWord_writeWord_self`, `readWord_congr`: a word is read as it was written, and
  depends on its bytes only.
* `memset_apply`, `memcpy_apply`: what the loops leave behind.
-/

namespace CldcVm.Lib

abbrev Byte := BitVec 8

/-- A memory of bytes. -/
abbrev Memory := ℕ → Byte

/-- The bytes of a word of `n` bytes, the lowest first. -/
def toBytes : (n x : ℕ) → List Byte
  | 0, _ => []
  | n + 1, x => BitVec.ofNat 8 x :: toBytes n (x / 256)

/-- The word of `n` bytes at `p`. -/
def readWord (m : Memory) : (n p : ℕ) → ℕ
  | 0, _ => 0
  | n + 1, p => (m p).toNat + 256 * readWord m n (p + 1)

/-- The memory with a word of `n` bytes at `p`. -/
def writeWord (m : Memory) (n p x : ℕ) : Memory := write m p (toBytes n x)

variable {m m' : Memory} {n p q x : ℕ}

@[simp] theorem toBytes_length (n x : ℕ) : (toBytes n x).length = n := by
  induction n generalizing x with
  | zero => rfl
  | succ n ih => exact congrArg (· + 1) (ih (x / 256))

theorem readWord_congr (h : ∀ i < n, m' (p + i) = m (p + i)) :
    readWord m' n p = readWord m n p := by
  induction n generalizing p with
  | zero => rfl
  | succ n ih =>
    have hhead : m' p = m p := h 0 n.succ_pos
    have htail : readWord m' n (p + 1) = readWord m n (p + 1) := by
      refine ih fun i hi => ?_
      rw [show p + 1 + i = p + (i + 1) by omega]
      exact h (i + 1) (Nat.succ_lt_succ hi)
    rw [readWord, readWord, hhead, htail]

theorem readWord_of_holds (h : Holds m p (toBytes n x)) : readWord m n p = x % 256 ^ n := by
  induction n generalizing p x with
  | zero => exact (Nat.mod_one x).symm
  | succ n ih =>
    obtain ⟨hhead, htail⟩ := holds_cons.mp h
    have hbyte : (m p).toNat = x % 256 := by rw [hhead, BitVec.toNat_ofNat]
    rw [readWord, hbyte, ih htail, pow_succ', Nat.mod_mul]

theorem readWord_writeWord_self (m : Memory) (n p x : ℕ) :
    readWord (writeWord m n p x) n p = x % 256 ^ n :=
  readWord_of_holds Holds.write_self

theorem readWord_writeWord (h : x < 256 ^ n) : readWord (writeWord m n p x) n p = x := by
  rw [readWord_writeWord_self, Nat.mod_eq_of_lt h]

theorem writeWord_of_lt (h : q < p) : writeWord m n p x q = m q := write_of_lt h

theorem writeWord_of_ge (h : p + n ≤ q) : writeWord m n p x q = m q :=
  write_of_ge (by rwa [toBytes_length])

/-! ## Byte by byte -/

/-- `memset`: `count` bytes from `dst` on. -/
def memset (m : Memory) (dst : ℕ) (val : Byte) : (count : ℕ) → Memory
  | 0 => m
  | count + 1 => memset (Function.update m dst val) (dst + 1) val count

theorem memset_apply (m : Memory) (dst : ℕ) (val : Byte) (count a : ℕ) :
    memset m dst val count a = if dst ≤ a ∧ a < dst + count then val else m a := by
  induction count generalizing m dst with
  | zero => rw [memset, if_neg (by omega)]
  | succ count ih =>
    rw [memset, ih, Function.update_apply]
    split_ifs <;> first | rfl | omega

/-- `memcpy`: `count` bytes, from the lowest address on. -/
def memcpy (m : Memory) (dst src : ℕ) : (count : ℕ) → Memory
  | 0 => m
  | count + 1 => memcpy (Function.update m dst (m src)) (dst + 1) (src + 1) count

theorem memcpy_of_not_mem (m : Memory) (dst src count : ℕ) {a : ℕ}
    (h : a < dst ∨ dst + count ≤ a) : memcpy m dst src count a = m a := by
  induction count generalizing m dst src with
  | zero => rfl
  | succ count ih =>
    rw [memcpy, ih _ _ _ (by omega), Function.update_of_ne (by omega)]

/-- The bytes of the source are copied if the target does not overlap it. -/
theorem memcpy_apply (m : Memory) (dst src count : ℕ)
    (hdisjoint : src + count ≤ dst ∨ dst + count ≤ src) (i : ℕ) (hi : i < count) :
    memcpy m dst src count (dst + i) = m (src + i) := by
  induction count generalizing m dst src i with
  | zero => exact absurd hi (Nat.not_lt_zero i)
  | succ count ih =>
    rw [memcpy]
    cases i with
    | zero =>
      rw [memcpy_of_not_mem _ _ _ _ (by omega)]
      exact Function.update_self _ _ _
    | succ i =>
      rw [show dst + (i + 1) = dst + 1 + i by omega, ih _ _ _ (by omega) i (by omega),
        show src + 1 + i = src + (i + 1) by omega, Function.update_of_ne (by omega)]

/-- A range that is copied to its own place. -/
theorem memcpy_self (m : Memory) (p count : ℕ) : memcpy m p p count = m := by
  induction count generalizing p with
  | zero => rfl
  | succ count ih => rw [memcpy, Function.update_eq_self, ih]

end CldcVm.Lib
