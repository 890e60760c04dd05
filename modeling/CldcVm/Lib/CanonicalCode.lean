import CldcVm.Lib.BitReversal
import Mathlib.Algebra.BigOperators.Intervals
import Mathlib.Algebra.BigOperators.Ring.Finset
import Mathlib.Algebra.Order.BigOperators.Group.Finset
import Mathlib.Tactic.Ring

/-!
# Canonical prefix codes

A canonical code is given by the lengths of its codewords alone: the codewords of one length are
consecutive numbers, in the order of the symbols, and the first of a length follows the last of
the length before. A symbol of length 0 has no codeword.

A codeword of length `l` stands for an interval of numbers of `n` bits, those that begin with it.
The intervals lie one after the other (`start_add_le`); if they fit into `n` bits, no codeword is
a prefix of another.

Results:

* `codeword_mul`: the codewords are where the intervals start.
* `start_add_le_kraft`, `exists_last`: the intervals end at the Kraft sum.
* `IsCodeword.unique`: a bit string begins with one codeword at most.
* `isCodeword_iff_mod`: a bit string begins with a codeword iff its lowest bits are the reversed
  start of the interval.
-/

namespace CldcVm.Lib

namespace CanonicalCode

/-! ## The code -/

variable (lengths : List ℕ)

/-- The length of the codeword of a symbol. -/
def len (i : ℕ) : ℕ := lengths.getD i 0

/-- The number of codewords of a length. -/
def lengthCount (bits : ℕ) : ℕ := if bits = 0 then 0 else lengths.count bits

/-- The first codeword of a length: the one after the last of the length before, with a zero
added. -/
def firstCode : (bits : ℕ) → ℕ
  | 0 => 0
  | bits + 1 => 2 * (firstCode bits + lengthCount lengths bits)

/-- The codeword of a symbol, as a number. -/
def codeword (i : ℕ) : ℕ :=
  firstCode lengths (len lengths i) + (lengths.take i).count (len lengths i)

/-- The bit string `x`, lowest bit first, begins with the codeword of the symbol `i`, highest bit
first. -/
def IsCodeword (i x : ℕ) : Prop :=
  i < lengths.length ∧ 0 < len lengths i ∧
    ∀ k < len lengths i, x.testBit k = (codeword lengths i).testBit (len lengths i - 1 - k)

/-! ## The intervals -/

/-- Where the intervals of the codewords of a length start, in numbers of `n` bits. -/
def firstStart (n bits : ℕ) : ℕ :=
  ∑ b ∈ Finset.range bits, lengthCount lengths b * 2 ^ (n - b)

/-- Where the interval of a symbol starts. -/
def start (n i : ℕ) : ℕ :=
  firstStart lengths n (len lengths i) +
    (lengths.take i).count (len lengths i) * 2 ^ (n - len lengths i)

/-- The Kraft sum, in numbers of `n` bits: where the intervals end. -/
def kraft (n : ℕ) : ℕ := firstStart lengths n (n + 1)

variable {lengths} {n i j bits bits' : ℕ}

theorem firstStart_succ : firstStart lengths n (bits + 1) =
      firstStart lengths n bits + lengthCount lengths bits * 2 ^ (n - bits) :=
  Finset.sum_range_succ _ _

theorem lengthCount_of_pos (h : 0 < bits) : lengthCount lengths bits = lengths.count bits := by
  unfold lengthCount
  rw [if_neg (by omega)]

theorem firstStart_mono (h : bits ≤ bits') :
    firstStart lengths n bits ≤ firstStart lengths n bits' :=
  Finset.sum_le_sum_of_subset (Finset.range_subset_range.mpr h)

theorem firstCode_mul (h : bits ≤ n) :
    firstCode lengths bits * 2 ^ (n - bits) = firstStart lengths n bits := by
  induction bits with
  | zero => simp [firstCode, firstStart]
  | succ bits ih =>
    have hpow : 2 ^ (n - bits) = 2 * 2 ^ (n - (bits + 1)) := by
      rw [← pow_succ', show n - (bits + 1) + 1 = n - bits by omega]
    rw [firstStart_succ, ← ih (by omega), firstCode, hpow]
    ring

theorem codeword_mul (h : len lengths i ≤ n) :
    codeword lengths i * 2 ^ (n - len lengths i) = start lengths n i := by
  unfold codeword start
  rw [Nat.add_mul, firstCode_mul h]

theorem lt_length_of_len_pos (h : 0 < len lengths i) : i < lengths.length := by
  by_contra hge
  unfold len at h
  rw [List.getD_eq_default _ _ (by omega)] at h
  omega

theorem getElem?_of_len_pos (h : 0 < len lengths i) : lengths[i]? = some (len lengths i) := by
  have hlt := lt_length_of_len_pos h
  unfold len
  rw [List.getD_eq_getElem?_getD, List.getElem?_eq_getElem hlt, Option.getD_some]

theorem count_take_succ (h : 0 < len lengths i) (bits : ℕ) : (lengths.take (i + 1)).count bits =
      (lengths.take i).count bits + if len lengths i = bits then 1 else 0 := by
  rw [List.take_add_one, getElem?_of_len_pos h, Option.toList_some, List.count_append,
    List.count_singleton]
  simp only [beq_iff_eq]

theorem count_take_mono (h : i ≤ j) (bits : ℕ) :
    (lengths.take i).count bits ≤ (lengths.take j).count bits :=
  List.Sublist.count_le bits (List.take_sublist_take_left h)

theorem count_take_le (i bits : ℕ) : (lengths.take i).count bits ≤ lengths.count bits :=
  List.Sublist.count_le bits (List.take_sublist i lengths)

/-- The interval of a symbol lies among those of its length. -/
theorem start_add_le_firstStart (h : 0 < len lengths i) :
    start lengths n i + 2 ^ (n - len lengths i) ≤ firstStart lengths n (len lengths i + 1) := by
  have hcount : (lengths.take i).count (len lengths i) + 1 ≤ lengths.count (len lengths i) := by
    have hsucc := count_take_succ h (len lengths i)
    rw [if_pos rfl] at hsucc
    rw [← hsucc]
    exact count_take_le (i + 1) _
  rw [firstStart_succ, lengthCount_of_pos h, start, Nat.add_assoc, ← Nat.succ_mul]
  exact Nat.add_le_add_left (Nat.mul_le_mul_right _ hcount) _

/-- The symbols in the order of their codewords. -/
def Before (lengths : List ℕ) (i j : ℕ) : Prop :=
  len lengths i < len lengths j ∨ len lengths i = len lengths j ∧ i < j

/-- **Step lemma**: an interval starts after the ones before it. -/
theorem start_add_le (hi : 0 < len lengths i) (h : Before lengths i j) :
    start lengths n i + 2 ^ (n - len lengths i) ≤ start lengths n j := by
  rcases h with hlt | ⟨heq, hlt⟩
  · calc start lengths n i + 2 ^ (n - len lengths i)
        ≤ firstStart lengths n (len lengths i + 1) := start_add_le_firstStart hi
      _ ≤ firstStart lengths n (len lengths j) := firstStart_mono hlt
      _ ≤ start lengths n j := Nat.le_add_right _ _
  · have hcount : (lengths.take i).count (len lengths i) + 1 ≤
        (lengths.take j).count (len lengths i) := by
      have hsucc := count_take_succ hi (len lengths i)
      rw [if_pos rfl] at hsucc
      rw [← hsucc]
      exact count_take_mono hlt _
    unfold start
    rw [← heq, Nat.add_assoc, ← Nat.succ_mul]
    exact Nat.add_le_add_left (Nat.mul_le_mul_right _ hcount) _

theorem start_add_le_kraft (hi : 0 < len lengths i) (hn : len lengths i ≤ n) :
    start lengths n i + 2 ^ (n - len lengths i) ≤ kraft lengths n :=
  (start_add_le_firstStart hi).trans (firstStart_mono (by omega))

theorem dvd_firstStart (h : bits ≤ bits' + 1) : 2 ^ (n - bits') ∣ firstStart lengths n bits :=
  Finset.dvd_sum fun b hb => by
    have hlt := Finset.mem_range.mp hb
    exact Dvd.dvd.mul_left (pow_dvd_pow 2 (by omega)) _

theorem dvd_start (n i : ℕ) : 2 ^ (n - len lengths i) ∣ start lengths n i :=
  Nat.dvd_add (dvd_firstStart (by omega)) (Nat.dvd_mul_left _ _)

theorem exists_last_count {bits : ℕ} (h : 0 < lengths.count bits) :
    ∃ i < lengths.length, len lengths i = bits ∧
      (lengths.take i).count bits + 1 = lengths.count bits := by
  induction lengths with
  | nil => simp at h
  | cons a l ih =>
    by_cases hrest : 0 < l.count bits
    · obtain ⟨i, hi, hlen, hcount⟩ := ih hrest
      refine ⟨i + 1, by simpa using hi, by simpa [len] using hlen, ?_⟩
      rw [List.take_succ_cons, List.count_cons, List.count_cons]
      omega
    · have hzero : l.count bits = 0 := by omega
      rw [List.count_cons, hzero] at h ⊢
      have ha : a = bits := by
        by_contra hne
        rw [if_neg (by simpa using hne)] at h
        omega
      exact ⟨0, by simp, by simpa [len] using ha, by simp [ha]⟩

/-- Some interval ends where the intervals of the lengths up to `bits` do, if there is one. -/
theorem exists_last (hpos : 0 < firstStart lengths n bits) :
    ∃ i, 0 < len lengths i ∧ len lengths i < bits ∧
      start lengths n i + 2 ^ (n - len lengths i) = firstStart lengths n bits := by
  induction bits with
  | zero => simp [firstStart] at hpos
  | succ bits ih =>
    rw [firstStart_succ] at hpos ⊢
    by_cases hcount : lengthCount lengths bits = 0
    · rw [hcount, Nat.zero_mul, Nat.add_zero] at hpos ⊢
      obtain ⟨i, h0, hlt, hend⟩ := ih hpos
      exact ⟨i, h0, by omega, hend⟩
    · have hbits : 0 < bits := by
        by_contra h
        exact hcount (by simp [lengthCount, show bits = 0 by omega])
      rw [lengthCount_of_pos hbits] at hcount ⊢
      obtain ⟨i, -, hlen, hlast⟩ := exists_last_count (Nat.pos_of_ne_zero hcount)
      refine ⟨i, by omega, by omega, ?_⟩
      unfold start
      rw [hlen, Nat.add_assoc, ← Nat.succ_mul, Nat.succ_eq_add_one, hlast]

/-- Intervals that all start inside `n` bits end there. -/
theorem kraft_le_of_start_lt (hstart : ∀ i, 0 < len lengths i → start lengths n i < 2 ^ n) :
    kraft lengths n ≤ 2 ^ n := by
  unfold kraft
  rcases Nat.eq_zero_or_pos (firstStart lengths n (n + 1)) with hzero | hpos
  · rw [hzero]
    exact Nat.zero_le _
  · obtain ⟨i, h0, hlt, hend⟩ := exists_last hpos
    have hdvd : 2 ^ (n - len lengths i) ∣ start lengths n i := dvd_start n i
    obtain ⟨c, hc⟩ := hdvd
    have hlt' := hstart i h0
    have hpow : 2 ^ n = 2 ^ (n - len lengths i) * 2 ^ len lengths i := by
      rw [← pow_add, show n - len lengths i + len lengths i = n by omega]
    -- both ends are multiples of the length of the interval
    rw [hc, hpow] at hlt'
    rw [← hend, hc, hpow]
    have hcle : c + 1 ≤ 2 ^ len lengths i := Nat.lt_of_mul_lt_mul_left hlt'
    calc 2 ^ (n - len lengths i) * c + 2 ^ (n - len lengths i)
        = 2 ^ (n - len lengths i) * (c + 1) := by ring
      _ ≤ 2 ^ (n - len lengths i) * 2 ^ len lengths i := Nat.mul_le_mul_left _ hcle

/-! ## Prefixes -/

theorem reverse_start (hn : len lengths i ≤ n) :
    reverseBits n (start lengths n i) = reverseBits (len lengths i) (codeword lengths i) := by
  rw [← codeword_mul hn, reverseBits_mul hn]

/-- **Spec lemma**: the lowest bits tell whether a bit string begins with a codeword. -/
theorem isCodeword_iff_mod {x : ℕ} (h0 : 0 < len lengths i) (hn : len lengths i ≤ n) :
    IsCodeword lengths i x ↔ x % 2 ^ len lengths i = reverseBits n (start lengths n i) := by
  rw [reverse_start hn]
  constructor
  · rintro ⟨-, -, hbits⟩
    apply Nat.eq_of_testBit_eq
    intro k
    rw [Nat.testBit_mod_two_pow, testBit_reverseBits]
    rcases Nat.lt_or_ge k (len lengths i) with hlt | hge
    · rw [hbits k hlt]
    · rw [decide_eq_false (by omega), Bool.false_and, Bool.false_and]
  · intro heq
    refine ⟨lt_length_of_len_pos h0, h0, fun k hk => ?_⟩
    have hbit := congrArg (fun y => y.testBit k) heq
    simp only [Nat.testBit_mod_two_pow, testBit_reverseBits, hk, decide_true, Bool.true_and] at hbit
    exact hbit

section Prefixes

variable (hkraft : kraft lengths n ≤ 2 ^ n) {x : ℕ}

include hkraft

theorem codeword_lt (h0 : 0 < len lengths i) (hn : len lengths i ≤ n) :
    codeword lengths i < 2 ^ len lengths i := by
  have hend := (start_add_le_kraft h0 hn).trans hkraft
  have hpow : 2 ^ n = 2 ^ len lengths i * 2 ^ (n - len lengths i) := by
    rw [← pow_add, show len lengths i + (n - len lengths i) = n by omega]
  rw [← codeword_mul hn, hpow, ← Nat.succ_mul] at hend
  exact Nat.le_of_mul_le_mul_right hend (Nat.two_pow_pos _)

theorem start_lt (h0 : 0 < len lengths i) (hn : len lengths i ≤ n) : start lengths n i < 2 ^ n := by
  have hend := (start_add_le_kraft h0 hn).trans hkraft
  have hpos := Nat.two_pow_pos (n - len lengths i)
  omega

/-- The interval of a codeword holds the numbers that begin with it. -/
theorem start_le_reverse (h0 : 0 < len lengths i) (hn : len lengths i ≤ n)
    (hx : IsCodeword lengths i x) : start lengths n i ≤ reverseBits n x ∧
      reverseBits n x < start lengths n i + 2 ^ (n - len lengths i) := by
  have hmod := (isCodeword_iff_mod h0 hn).mp hx
  have htop : reverseBits n x / 2 ^ (n - len lengths i) = codeword lengths i := by
    -- the highest bits of the reversed string are the reversed lowest ones
    have h := congrArg (reverseBits (len lengths i)) hmod
    rw [reverse_start hn, reverseBits_reverseBits,
      Nat.mod_eq_of_lt (codeword_lt hkraft h0 hn), reverseBits_mod_two_pow] at h
    rw [← h]
    apply Nat.eq_of_testBit_eq
    intro k
    rw [Nat.testBit_div_two_pow, testBit_reverseBits, testBit_reverseBits]
    rcases Nat.lt_or_ge k (len lengths i) with hlt | hge
    · rw [decide_eq_true hlt, decide_eq_true (show k + (n - len lengths i) < n by omega),
        show n - 1 - (k + (n - len lengths i)) = len lengths i - 1 - k by omega]
    · rw [decide_eq_false (show ¬ k + (n - len lengths i) < n by omega),
        decide_eq_false (show ¬ k < len lengths i by omega), Bool.false_and, Bool.false_and]
  have hsplit := Nat.div_add_mod (reverseBits n x) (2 ^ (n - len lengths i))
  rw [htop, Nat.mul_comm, codeword_mul hn] at hsplit
  omega

/-- **Main theorem**: a bit string begins with one codeword at most. -/
theorem IsCodeword.unique (hle : ∀ i, len lengths i ≤ n) (hi : IsCodeword lengths i x)
    (hj : IsCodeword lengths j x) : i = j := by
  have hin := start_le_reverse hkraft hi.2.1 (hle i) hi
  have hjn := start_le_reverse hkraft hj.2.1 (hle j) hj
  rcases Nat.lt_trichotomy (len lengths i) (len lengths j) with hlt | heq | hgt
  · have := start_add_le (n := n) hi.2.1 (.inl hlt)
    omega
  · rcases Nat.lt_trichotomy i j with hlt | heq' | hgt
    · have := start_add_le (n := n) hi.2.1 (.inr ⟨heq, hlt⟩)
      omega
    · exact heq'
    · have := start_add_le (n := n) hj.2.1 (.inr ⟨heq.symm, hgt⟩)
      omega
  · have := start_add_le (n := n) hj.2.1 (.inl hgt)
    omega

end Prefixes

end CanonicalCode

end CldcVm.Lib
