import Mathlib.Data.BitVec

/-!
# The bits of a table

A table of words as a set of numbers, one bit a number, and the loop over the bits that are set in
a word: it halves its way to the lowest one, visits it, and shifts it out.

Results:
* `getBit_setBit`: setting a bit changes this bit alone.
* `forBits_eq`: the loop visits the bits that are set, each once and in ascending order.
-/

namespace CldcVm.Lib

/-! ## Bits of a table -/

/-- Bit `i` of a table of words of 32 bits. -/
def getBit (words : ℕ → BitVec 32) (i : ℕ) : Bool := (words (i / 32)).getLsbD (i % 32)

/-- `words[i / 32] |= 1 << i % 32`. -/
def setBit (words : ℕ → BitVec 32) (i : ℕ) : ℕ → BitVec 32 :=
  Function.update words (i / 32) (words (i / 32) ||| 1#32 <<< (i % 32))

/-- The table with another word. -/
def setWord (words : ℕ → BitVec 32) (k : ℕ) (w : BitVec 32) : ℕ → BitVec 32 :=
  Function.update words k w

variable {words : ℕ → BitVec 32} {w : BitVec 32} {i j k m n : ℕ}

theorem getLsbD_one_shiftLeft (hj : j < 32) : (1#32 <<< i).getLsbD j = decide (j = i) := by
  rw [← BitVec.twoPow_eq, BitVec.getLsbD_twoPow]
  by_cases h : j = i
  · subst h
    simp [hj]
  · simp [h, Ne.symm h]

theorem getBit_setBit (words : ℕ → BitVec 32) (i j : ℕ) :
    getBit (setBit words i) j = (getBit words j || decide (j = i)) := by
  unfold getBit setBit
  by_cases hword : j / 32 = i / 32
  · rw [hword, Function.update_self, BitVec.getLsbD_or,
      getLsbD_one_shiftLeft (Nat.mod_lt j (by decide))]
    have hiff : j % 32 = i % 32 ↔ j = i := by omega
    simp only [hiff]
  · rw [Function.update_of_ne hword, decide_eq_false fun h => hword (by rw [h]), Bool.or_false]

theorem getBit_setWord (words : ℕ → BitVec 32) (k : ℕ) (w : BitVec 32) (j : ℕ) :
    getBit (setWord words k w) j = if j / 32 = k then w.getLsbD (j % 32) else getBit words j := by
  unfold getBit setWord
  by_cases hword : j / 32 = k
  · rw [if_pos hword, hword, Function.update_self]
  · rw [if_neg hword, Function.update_of_ne hword]

/-- `right_n_bits(n)`. -/
def rightBits (n : ℕ) : BitVec 32 := BitVec.ofNat 32 (2 ^ n - 1)

theorem getLsbD_rightBits (hj : j < 32) : (rightBits n).getLsbD j = decide (j < n) := by
  rw [rightBits, BitVec.getLsbD_ofNat, Nat.testBit_two_pow_sub_one, decide_eq_true hj,
    Bool.true_and]

/-- The `n` lowest bits of a word are clear. -/
theorem and_rightBits_eq_zero_iff (hn : n ≤ 32) :
    w &&& rightBits n = 0#32 ↔ ∀ j < n, w.getLsbD j = false := by
  constructor
  · intro h j hj
    have hbit := congrArg (fun w : BitVec 32 => w.getLsbD j) h
    rw [BitVec.getLsbD_and, getLsbD_rightBits (by omega), decide_eq_true hj, Bool.and_true] at hbit
    rw [hbit]
    exact BitVec.getLsbD_zero
  · intro h
    apply BitVec.eq_of_getLsbD_eq
    intro j hj
    rw [BitVec.getLsbD_and, getLsbD_rightBits hj, BitVec.getLsbD_zero]
    by_cases hlt : j < n
    · rw [h j hlt, Bool.false_and]
    · rw [decide_eq_false hlt, Bool.and_false]

/-! ## The lowest bit -/

/-- `if ((w & right_n_bits(m)) == 0) { w >>= m; i += m; }`. -/
def skipStep (m : ℕ) : BitVec 32 × ℕ → BitVec 32 × ℕ
  | (w, i) => if w &&& rightBits m = 0#32 then (w >>> m, i + m) else (w, i)

/-- The five steps to the lowest bit that is set. -/
def skipZeros (w : BitVec 32) (i : ℕ) : BitVec 32 × ℕ :=
  skipStep 1 (skipStep 2 (skipStep 4 (skipStep 8 (skipStep 16 (w, i)))))

/-- The word has been shifted by zeros only, and one of its `n` lowest bits is set. -/
def Near (w : BitVec 32) (i n : ℕ) : BitVec 32 × ℕ → Prop
  | (w', i') => ∃ k, w' = w >>> k ∧ i' = i + k ∧ (∀ j < k, w.getLsbD j = false) ∧
      ∃ j < n, w'.getLsbD j = true

/-- **Step lemma.** A step halves the distance to the lowest bit. -/
theorem Near.step {s : BitVec 32 × ℕ} (hm : m ≤ 32) (h : Near w i (m + m) s) :
    Near w i m (skipStep m s) := by
  obtain ⟨w', i'⟩ := s
  obtain ⟨k, rfl, rfl, hzeros, j, hj, hbit⟩ := h
  simp only [skipStep]
  by_cases hlow : w >>> k &&& rightBits m = 0#32
  · rw [if_pos hlow]
    have hclear := (and_rightBits_eq_zero_iff hm).mp hlow
    refine ⟨k + m, ?_, Nat.add_assoc i k m, fun l hl => ?_, j - m, ?_, ?_⟩
    · rw [BitVec.shiftRight_add]
    · by_cases hlk : l < k
      · exact hzeros l hlk
      · have hzero := hclear (l - k) (by omega)
        rwa [BitVec.getLsbD_ushiftRight, Nat.add_sub_cancel' (by omega)] at hzero
    · omega
    · have hge : m ≤ j := by
        by_contra hlt
        rw [hclear j (by omega)] at hbit
        cases hbit
      rwa [BitVec.getLsbD_ushiftRight, Nat.add_sub_cancel' hge]
  · rw [if_neg hlow]
    rw [and_rightBits_eq_zero_iff hm] at hlow
    push Not at hlow
    obtain ⟨l, hl, hset⟩ := hlow
    exact ⟨k, rfl, rfl, hzeros, l, hl, by simpa using hset⟩

/-- **Spec lemma.** The steps lead to the lowest bit that is set. -/
theorem skipZeros_spec (hw : w ≠ 0#32) (i : ℕ) : ∃ k < 32, skipZeros w i = (w >>> k, i + k) ∧
    w.getLsbD k = true ∧ ∀ j < k, w.getLsbD j = false := by
  have hstart : Near w i (16 + 16) (w, i) := by
    refine ⟨0, (BitVec.ushiftRight_zero w).symm, rfl, fun j hj => absurd hj (Nat.not_lt_zero j), ?_⟩
    by_contra hnone
    push Not at hnone
    apply hw
    apply BitVec.eq_of_getLsbD_eq
    intro j hj
    rw [BitVec.getLsbD_zero]
    exact Bool.eq_false_iff.mpr (hnone j hj)
  have hnear : Near w i 1 (skipZeros w i) :=
    Near.step (by decide) (Near.step (by decide) (Near.step (by decide)
      (Near.step (by decide) (Near.step (by decide) hstart))))
  obtain ⟨k, hword, hindex, hzeros, j, hj, hbit⟩ := hnear
  obtain rfl : j = 0 := by omega
  rw [hword, BitVec.getLsbD_ushiftRight, Nat.add_zero] at hbit
  exact ⟨k, BitVec.lt_of_getLsbD hbit, Prod.ext hword hindex, hbit, hzeros⟩

/-! ## The loop -/

section Loop

variable {σ : Type*} (visit : ℕ → σ → σ)

/-- The loop over the bits that are set in a word. -/
def forBits : (fuel : ℕ) → BitVec 32 → (i : ℕ) → σ → σ
  | 0, _, _, s => s
  | fuel + 1, w, i, s =>
    if w = 0#32 then s
    else
      let (w, i) := skipZeros w i
      forBits fuel (w >>> 1) (i + 1) (visit i s)

/-- The bits that are set in a word, in ascending order. -/
def setBits (w : BitVec 32) (n : ℕ) : List ℕ := (List.range n).filter fun j => w.getLsbD j

theorem setBits_eq_cons (hk : k < n) (hbit : w.getLsbD k = true)
    (hzeros : ∀ j < k, w.getLsbD j = false) :
    setBits w n = k :: (setBits (w >>> (k + 1)) (n - (k + 1))).map (k + 1 + ·) := by
  obtain ⟨d, rfl⟩ : ∃ d, n = k + 1 + d := ⟨n - (k + 1), by omega⟩
  rw [setBits, List.range_add, List.range_succ, List.filter_append, List.filter_append,
    List.filter_eq_nil_iff.mpr fun j hj => by simp [hzeros j (List.mem_range.mp hj)],
    List.nil_append, List.filter_map, List.filter_cons, if_pos hbit, List.filter_nil,
    List.singleton_append, Nat.add_sub_cancel_left, setBits]
  congr 3
  funext j
  rw [Function.comp_apply, BitVec.getLsbD_ushiftRight]

/-- Bits above the word's own do not matter. -/
theorem setBits_of_le (hmn : m ≤ n) (hhigh : ∀ j, m ≤ j → w.getLsbD j = false) :
    setBits w n = setBits w m := by
  obtain ⟨d, rfl⟩ := Nat.exists_eq_add_of_le hmn
  have hnone : ∀ j ∈ (List.range d).map (m + ·), ¬w.getLsbD j = true := by
    intro j hj
    obtain ⟨l, -, rfl⟩ := List.mem_map.mp hj
    rw [hhigh _ (Nat.le_add_right m l)]
    exact Bool.false_ne_true
  rw [setBits, List.range_add, List.filter_append, List.filter_eq_nil_iff.mpr hnone,
    List.append_nil, setBits]

/-- **Run lemma.** The loop visits the bits that are set, each once and in ascending order. -/
theorem forBits_eq (hw : ∀ j, n ≤ j → w.getLsbD j = false) (i : ℕ) (s : σ) :
    forBits visit n w i s = (setBits w n).foldl (fun s j => visit (i + j) s) s := by
  induction n generalizing w i s with
  | zero => rfl
  | succ n ih =>
    rw [forBits]
    by_cases hzero : w = 0#32
    · rw [if_pos hzero, setBits, List.filter_eq_nil_iff.mpr fun j _ => by simp [hzero]]
      rfl
    · obtain ⟨k, -, hskip, hbit, hzeros⟩ := skipZeros_spec hzero i
      have hk : k < n + 1 := by
        by_contra hge
        rw [hw k (by omega)] at hbit
        cases hbit
      have hhigh : ∀ j, n - k ≤ j → (w >>> (k + 1)).getLsbD j = false := by
        intro j hj
        rw [BitVec.getLsbD_ushiftRight]
        exact hw _ (by omega)
      rw [if_neg hzero, hskip]
      simp only
      rw [← BitVec.shiftRight_add, ih (fun j hj => hhigh j (by omega)),
        setBits_of_le (Nat.sub_le n k) hhigh, setBits_eq_cons hk hbit hzeros, List.foldl_cons,
        List.foldl_map, Nat.add_sub_add_right]
      simp only [Nat.add_assoc]

end Loop

end CldcVm.Lib
