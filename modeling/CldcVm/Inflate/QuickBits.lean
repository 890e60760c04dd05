import CldcVm.Inflate.TableLoop
import Mathlib.Tactic.Linarith

/-!
# The sizes of a code table

The part of `Inflater::make_code_table` that chooses the number of quick bits and computes the
sizes (`runtime/Inflate.cpp`, lines 583–683), for lengths whose codes fit into 15 bits. The
distance of a long table has to fit into 15 bits as well: this is so because there are few symbols
and, with the heuristic, because the size is the least one.

Results:

* `scanAfter_code`, `scanAfter_codes`: the scans compute the first codes of the lengths.
* `optimumAfter_spec`: the heuristic finds the least size.
* `delta_le_of_minimal`, `delta_le_of_few`: the distances fit.
* `validLayout`: the sizes are right.
-/

namespace CldcVm.Inflate

open Lib Lib.CanonicalCode

/-- The arguments of the three calls of `make_code_table`: 19 or up to 32 lengths with
`MAX_QUICK_CXD`, up to 288 with `MAX_QUICK_LXL`. A length is at most 15. -/
structure CodeLengths where
  codelen : List ℕ
  maxQuickBits : ℕ
  le_maxBits : ∀ l ∈ codelen, l ≤ maxBits
  sizes : maxQuickBits = 9 ∧ codelen.length ≤ 288 ∨ maxQuickBits = 6 ∧ codelen.length ≤ 32

section Scans

variable {codelen : List ℕ} {bits : ℕ}

/-! ## The scans over the lengths -/

theorem scanAfter_code (bits : ℕ) :
    (scanAfter (fun b => codelen.count b) bits).code = firstStart codelen 15 (bits + 1) := by
  induction bits with
  | zero => simp [scanAfter, firstStart, lengthCount]
  | succ bits ih =>
    rw [firstStart_succ, ← ih, lengthCount_of_pos (Nat.succ_pos bits)]
    simp only [scanAfter, Scan.next, Nat.shiftLeft_eq]
    by_cases hzero : codelen.count (bits + 1) = 0
    · rw [if_neg (not_not.mpr hzero), hzero, Nat.zero_mul, Nat.add_zero]
    · rw [if_pos hzero]
      rfl

theorem scanAfter_codes {k : ℕ} (h0 : 0 < k) (hle : k ≤ bits) :
    (scanAfter (fun b => codelen.count b) bits).codes k = firstStart codelen 15 k := by
  induction bits with
  | zero => omega
  | succ bits ih =>
    simp only [scanAfter, Scan.next]
    rcases Nat.lt_or_eq_of_le hle with hlt | rfl
    · rw [Function.update_of_ne (by omega)]
      exact ih (by omega)
    · rw [Function.update_self, scanAfter_code]

theorem maxCodeLenUpTo_le (count : ℕ → ℕ) (bits : ℕ) : maxCodeLenUpTo count bits ≤ bits := by
  induction bits with
  | zero => exact le_rfl
  | succ bits ih =>
    rw [maxCodeLenUpTo]
    split_ifs
    · exact le_rfl
    · omega

theorem count_eq_zero_of_gt {count : ℕ → ℕ} {k : ℕ} (hgt : maxCodeLenUpTo count bits < k)
    (hle : k ≤ bits) : count k = 0 := by
  induction bits with
  | zero => omega
  | succ bits ih =>
    rw [maxCodeLenUpTo] at hgt
    split_ifs at hgt with hzero
    · omega
    · rcases Nat.lt_or_eq_of_le hle with hlt | rfl
      · exact ih hgt (by omega)
      · exact not_not.mp hzero

/-- The greatest length of a list of lengths. -/
def maxLen (codelen : List ℕ) : ℕ := maxCodeLenUpTo (fun b => codelen.count b) maxBits

theorem maxLen_le (codelen : List ℕ) : maxLen codelen ≤ 15 := maxCodeLenUpTo_le _ _

theorem len_le_maxLen (hle : ∀ l ∈ codelen, l ≤ maxBits) (i : ℕ) :
    len codelen i ≤ maxLen codelen := by
  by_contra hgt
  have hi : codelen[i]? = some (len codelen i) := getElem?_of_len_pos (by omega)
  have hmem := List.mem_of_getElem? hi
  have hlt : maxCodeLenUpTo (fun b => codelen.count b) maxBits < len codelen i := not_le.mp hgt
  have hzero : codelen.count (len codelen i) = 0 :=
    @count_eq_zero_of_gt maxBits (fun b => codelen.count b) _ hlt (hle _ hmem)
  exact absurd hmem (List.count_eq_zero.mp hzero)

/-- The codes end with the greatest length. -/
theorem kraft_eq (codelen : List ℕ) :
    kraft codelen 15 = firstStart codelen 15 (maxLen codelen + 1) := by
  have hstep : ∀ k, maxLen codelen + 1 ≤ k → k ≤ 16 →
      firstStart codelen 15 k = firstStart codelen 15 (maxLen codelen + 1) := by
    intro k hk
    induction k, hk using Nat.le_induction with
    | base => exact fun _ => rfl
    | succ k hk ih =>
      intro hle
      have hzero : codelen.count k = 0 :=
        @count_eq_zero_of_gt maxBits (fun b => codelen.count b) k hk (by unfold maxBits; omega)
      rw [firstStart_succ, lengthCount_of_pos (by omega), hzero, Nat.zero_mul, Nat.add_zero,
        ih (by omega)]
  have hmax := maxLen_le codelen
  exact hstep 16 (by omega) le_rfl

/-! ## The weight of the longer codes -/

theorem sum_count_le (l : List ℕ) (s : Finset ℕ) : ∑ b ∈ s, l.count b ≤ l.length := by
  induction l with
  | nil => simp
  | cons a l ih =>
    have hsplit : ∑ b ∈ s, (a :: l).count b =
        ∑ b ∈ s, l.count b + ∑ b ∈ s, if a = b then 1 else 0 := by
      rw [← Finset.sum_add_distrib]
      refine Finset.sum_congr rfl fun b _ => ?_
      rw [List.count_cons]
      simp only [beq_iff_eq]
    have hone : (∑ b ∈ s, if a = b then 1 else 0) ≤ 1 := by
      rw [Finset.sum_ite_eq]
      split_ifs <;> omega
    rw [hsplit, List.length_cons]
    omega

/-- Few symbols with long codes weigh little. -/
theorem kraft_sub_le {k : ℕ} (h0 : 0 < k) (hle : k ≤ 16) :
    kraft codelen 15 - firstStart codelen 15 k ≤ codelen.length * 2 ^ (15 - k) := by
  have hsplit : kraft codelen 15 = firstStart codelen 15 k +
      ∑ b ∈ Finset.Ico k 16, lengthCount codelen b * 2 ^ (15 - b) := by
    unfold kraft firstStart
    rw [Finset.sum_range_add_sum_Ico _ hle]
  have hterm : ∀ b ∈ Finset.Ico k 16,
      lengthCount codelen b * 2 ^ (15 - b) ≤ codelen.count b * 2 ^ (15 - k) := by
    intro b hb
    have hkb := (Finset.mem_Ico.mp hb).1
    rw [lengthCount_of_pos (by omega)]
    exact Nat.mul_le_mul_left _ (Nat.pow_le_pow_right (by decide) (by omega))
  rw [hsplit, Nat.add_sub_cancel_left]
  calc ∑ b ∈ Finset.Ico k 16, lengthCount codelen b * 2 ^ (15 - b)
      ≤ ∑ b ∈ Finset.Ico k 16, codelen.count b * 2 ^ (15 - k) := Finset.sum_le_sum hterm
    _ = (∑ b ∈ Finset.Ico k 16, codelen.count b) * 2 ^ (15 - k) := by rw [Finset.sum_mul]
    _ ≤ codelen.length * 2 ^ (15 - k) := Nat.mul_le_mul_right _ (sum_count_le _ _)

end Scans

/-! ## The heuristic -/

theorem heuristicSize_mul {code maxCodeLen bits : ℕ} (hbits : bits ≤ maxCodeLen)
    (hmax : maxCodeLen ≤ 15) (hcode : code ≤ 2 ^ 15) (hdvd : 2 ^ (15 - bits) ∣ code) :
    heuristicSize code maxCodeLen bits * 2 ^ (15 - maxCodeLen) + code =
      2 ^ 15 + 2 ^ bits * 2 ^ (15 - maxCodeLen) := by
  obtain ⟨c, rfl⟩ := hdvd
  have hpow : 2 ^ 15 = 2 ^ (15 - bits) * 2 ^ bits := by
    rw [← pow_add, show 15 - bits + bits = 15 by omega]
  have hunit : 2 ^ (15 - bits) = 2 ^ (maxCodeLen - bits) * 2 ^ (15 - maxCodeLen) := by
    rw [← pow_add, show maxCodeLen - bits + (15 - maxCodeLen) = 15 - bits by omega]
  have hc : c ≤ 2 ^ bits := by
    rw [hpow] at hcode
    exact Nat.le_of_mul_le_mul_left hcode (Nat.two_pow_pos _)
  have hsub : usub (2 ^ maxBits) (2 ^ (15 - bits) * c) = 2 ^ (15 - bits) * (2 ^ bits - c) := by
    unfold usub maxBits
    rw [Nat.mul_sub, ← hpow]
    omega
  have hlong : (2 ^ bits - c) * 2 ^ (maxCodeLen - bits) ≤ 2 ^ 15 := by
    calc (2 ^ bits - c) * 2 ^ (maxCodeLen - bits)
        ≤ 2 ^ bits * 2 ^ (maxCodeLen - bits) := Nat.mul_le_mul_right _ (Nat.sub_le _ _)
      _ = 2 ^ maxCodeLen := by rw [← pow_add, show bits + (maxCodeLen - bits) = maxCodeLen by omega]
      _ ≤ 2 ^ 15 := Nat.pow_le_pow_right (by decide) hmax
  have hquick : 2 ^ bits ≤ 2 ^ 15 := Nat.pow_le_pow_right (by decide) (by omega)
  have hsize : heuristicSize (2 ^ (15 - bits) * c) maxCodeLen bits =
      (2 ^ bits - c) * 2 ^ (maxCodeLen - bits) + 2 ^ bits := by
    unfold heuristicSize
    rw [hsub, show maxBits - bits = 15 - bits from rfl, Nat.shiftRight_eq_div_pow,
      Nat.mul_div_cancel_left _ (Nat.two_pow_pos _), Nat.shiftLeft_eq, Nat.mod_eq_of_lt (by omega),
      Nat.mod_eq_of_lt (by omega)]
  have hsum : (2 ^ bits - c) * 2 ^ (15 - bits) + 2 ^ (15 - bits) * c = 2 ^ 15 := by
    rw [Nat.mul_comm, ← Nat.mul_add, Nat.sub_add_cancel hc, ← hpow]
  rw [hsize, Nat.add_mul, Nat.mul_assoc, ← hunit]
  omega

/-- **Run lemma**: the loop finds the least size. -/
theorem optimumAfter_spec (count : ℕ → ℕ) (maxCodeLen : ℕ) {bits : ℕ} (h0 : 0 < bits) :
    let optimum := optimumAfter count maxCodeLen bits
    0 < optimum.1 ∧ optimum.1 ≤ bits ∧
      optimum.2 = heuristicSize (scanAfter count optimum.1).code maxCodeLen optimum.1 ∧
      ∀ k, 0 < k → k ≤ bits → optimum.2 ≤ heuristicSize (scanAfter count k).code maxCodeLen k := by
  induction bits with
  | zero => omega
  | succ bits ih =>
    simp only [optimumAfter]
    rcases Nat.eq_zero_or_pos bits with rfl | hpos
    · rw [if_pos (.inl rfl)]
      refine ⟨by omega, le_rfl, rfl, fun k hk0 hk => ?_⟩
      rw [show k = 0 + 1 by omega]
    · obtain ⟨hq0, hqle, hsize, hleast⟩ := ih hpos
      split_ifs with hless
      · have hlt := hless.resolve_left (by omega)
        refine ⟨by omega, le_rfl, rfl, fun k hk0 hk => ?_⟩
        rcases Nat.lt_or_eq_of_le hk with hk' | rfl
        · exact hlt.le.trans (hleast k hk0 (by omega))
        · exact le_rfl
      · refine ⟨hq0, by omega, hsize, fun k hk0 hk => ?_⟩
        rcases Nat.lt_or_eq_of_le hk with hk' | rfl
        · exact hleast k hk0 (by omega)
        · exact not_lt.mp fun hlt => hless (.inr hlt)

/-! ## The distances of the long tables -/

section Distances

variable {codelen : List ℕ} {q : ℕ}

/-- Long tables for few and short codes are near. -/
theorem delta_le_of_few {n : ℕ} (hlen : codelen.length ≤ n) (hq : q < 15)
    (hfew : n * 2 ^ (14 - q) + 2 ^ q ≤ 16382) :
    2 ^ q * 2 ^ (15 - maxLen codelen) + (kraft codelen 15 - firstStart codelen 15 (q + 1)) ≤
      16382 * 2 ^ (15 - maxLen codelen) := by
  have htail := @kraft_sub_le codelen (q + 1) (by omega) (by omega)
  have hbound : codelen.length * 2 ^ (15 - (q + 1)) ≤ n * 2 ^ (14 - q) := by
    rw [show 15 - (q + 1) = 14 - q by omega]
    exact Nat.mul_le_mul_right _ hlen
  have hunit : 1 ≤ 2 ^ (15 - maxLen codelen) := Nat.one_le_two_pow
  have hrest : n * 2 ^ (14 - q) ≤ n * 2 ^ (14 - q) * 2 ^ (15 - maxLen codelen) :=
    Nat.le_mul_of_pos_right _ hunit
  have hsum := Nat.mul_le_mul_right (2 ^ (15 - maxLen codelen)) hfew
  rw [Nat.add_mul] at hsum
  omega

/-- The least table has near long tables: it is not greater than one with 11 quick bits, or with
the greatest length if this is less. -/
theorem delta_le_of_minimal (hlen : codelen.length ≤ 288) (hmax : 0 < maxLen codelen) (hq : q ≤ 15)
    (hleast : ∀ k, 0 < k → k ≤ maxLen codelen →
      firstStart codelen 15 (k + 1) + 2 ^ q * 2 ^ (15 - maxLen codelen) ≤
        firstStart codelen 15 (q + 1) + 2 ^ k * 2 ^ (15 - maxLen codelen)) :
    2 ^ q * 2 ^ (15 - maxLen codelen) + (kraft codelen 15 - firstStart codelen 15 (q + 1)) ≤
      16382 * 2 ^ (15 - maxLen codelen) := by
  have hle := maxLen_le codelen
  have hend : firstStart codelen 15 (q + 1) ≤ kraft codelen 15 := firstStart_mono (by omega)
  rcases Nat.lt_or_ge (maxLen codelen) 11 with hshort | hlong
  · have h := hleast _ hmax le_rfl
    rw [← kraft_eq] at h
    have hpow : 2 ^ maxLen codelen * 2 ^ (15 - maxLen codelen) = 2 ^ 15 := by
      rw [← pow_add, show maxLen codelen + (15 - maxLen codelen) = 15 by omega]
    have hunit : 2 ^ 5 ≤ 2 ^ (15 - maxLen codelen) := Nat.pow_le_pow_right (by decide) (by omega)
    omega
  · have h := hleast 11 (by decide) hlong
    have htail := @kraft_sub_le codelen (11 + 1) (by decide) (by decide)
    have hunit : 1 ≤ 2 ^ (15 - maxLen codelen) := Nat.one_le_two_pow
    omega

end Distances

/-! ## The sizes -/

section Sizes

variable {codelen : List ℕ} {quickBits : ℕ} {codes : ℕ → ℕ}

/-- The number of long tables, for a first code that leaves room for them. -/
theorem usub_shiftRight {start : ℕ} (hq : quickBits ≤ 15) (hdvd : 2 ^ (15 - quickBits) ∣ start)
    (hle : start ≤ 2 ^ 15) : usub (2 ^ maxBits) start >>> (maxBits - quickBits) =
      2 ^ quickBits - start / 2 ^ (15 - quickBits) := by
  obtain ⟨c, rfl⟩ := hdvd
  have hpow : 2 ^ 15 = 2 ^ (15 - quickBits) * 2 ^ quickBits := by
    rw [← pow_add, show 15 - quickBits + quickBits = 15 by omega]
  have hsub : usub (2 ^ maxBits) (2 ^ (15 - quickBits) * c) =
      2 ^ (15 - quickBits) * (2 ^ quickBits - c) := by
    unfold usub maxBits
    rw [Nat.mul_sub, ← hpow]
    omega
  rw [hsub, show maxBits - quickBits = 15 - quickBits from rfl, Nat.shiftRight_eq_div_pow,
    Nat.mul_div_cancel_left _ (Nat.two_pow_pos _), Nat.mul_div_cancel_left _ (Nat.two_pow_pos _)]

theorem Layout.numEntries_eq {lay : Layout} (hmain : lay.mainTableLength ≤ 2 ^ 15)
    (hlong : lay.numLongTables * lay.longTableLength ≤ 2 ^ 15) :
    lay.numEntries = lay.mainTableLength + lay.numLongTables * lay.longTableLength := by
  unfold Layout.numEntries headerSize
  omega

theorem validLayout_quick (hle : ∀ l ∈ codelen, l ≤ maxBits)
    (hcodes : ∀ bits, 0 < bits → bits ≤ maxLen codelen → codes bits = firstStart codelen 15 bits) :
    ValidLayout codelen ⟨maxLen codelen, maxLen codelen, 2 ^ maxLen codelen, 0, 0, codes⟩ where
  maxCodeLen_le := maxLen_le codelen
  len_le := len_le_maxLen hle
  quickBits_le := le_rfl
  main_eq := rfl
  codes_eq := hcodes
  longLength_eq h := absurd h (lt_irrefl _)
  numLong_eq h := absurd h (lt_irrefl _)
  numEntries_eq := Layout.numEntries_eq (Nat.pow_le_pow_right (by decide) (maxLen_le codelen))
    (Nat.zero_le _)
  delta_le h := absurd h (lt_irrefl _)

theorem validLayout_long (hle : ∀ l ∈ codelen, l ≤ maxBits) (hkraft : kraft codelen 15 ≤ 2 ^ 15)
    (hquick : quickBits < maxLen codelen)
    (hcodes : ∀ bits, 0 < bits → bits ≤ maxLen codelen → codes bits = firstStart codelen 15 bits)
    (hdelta : 2 ^ quickBits * 2 ^ (15 - maxLen codelen) +
      (kraft codelen 15 - firstStart codelen 15 (quickBits + 1)) ≤
        16382 * 2 ^ (15 - maxLen codelen)) :
    ValidLayout codelen ⟨quickBits, maxLen codelen, 2 ^ quickBits,
      usub (2 ^ maxBits) (codes (quickBits + 1)) >>> (maxBits - quickBits),
      2 ^ (maxLen codelen - quickBits), codes⟩ := by
  have hmax := maxLen_le codelen
  have hfirst : firstStart codelen 15 (quickBits + 1) ≤ 2 ^ 15 :=
    (firstStart_mono (by omega)).trans hkraft
  have hnum : usub (2 ^ maxBits) (codes (quickBits + 1)) >>> (maxBits - quickBits) =
      2 ^ quickBits - firstStart codelen 15 (quickBits + 1) / 2 ^ (15 - quickBits) := by
    rw [hcodes _ (by omega) hquick]
    exact usub_shiftRight (by omega) (dvd_firstStart le_rfl) hfirst
  exact {
    maxCodeLen_le := hmax
    len_le := len_le_maxLen hle
    quickBits_le := hquick.le
    main_eq := rfl
    codes_eq := hcodes
    longLength_eq := fun _ => rfl
    numLong_eq := fun _ => hnum
    delta_le := fun _ => hdelta
    numEntries_eq := by
      apply Layout.numEntries_eq
      · exact Nat.pow_le_pow_right (by decide) (by omega)
      · rw [hnum]
        calc (2 ^ quickBits - firstStart codelen 15 (quickBits + 1) / 2 ^ (15 - quickBits)) *
              2 ^ (maxLen codelen - quickBits)
            ≤ 2 ^ quickBits * 2 ^ (maxLen codelen - quickBits) :=
              Nat.mul_le_mul_right _ (Nat.sub_le _ _)
          _ = 2 ^ maxLen codelen := by
              rw [← pow_add, show quickBits + (maxLen codelen - quickBits) = maxLen codelen by omega]
          _ ≤ 2 ^ 15 := Nat.pow_le_pow_right (by decide) hmax }

end Sizes

variable (c : CodeLengths) (heuristic : Bool)

theorem firstCodes_eq (codelen : List ℕ) {bits : ℕ} (h0 : 0 < bits) (hle : bits ≤ maxLen codelen) :
    firstCodes heuristic (fun b => codelen.count b) bits = firstStart codelen 15 bits := by
  unfold firstCodes
  cases heuristic with
  | true => exact scanAfter_codes h0 hle
  | false => exact scanAfter_codes h0 (hle.trans (maxLen_le codelen))

theorem delta_le_of_choice (hkraft : kraft c.codelen 15 ≤ 2 ^ 15)
    (hquick : chooseQuickBits heuristic (fun b => c.codelen.count b) c.maxQuickBits <
      maxLen c.codelen) :
    let quickBits := chooseQuickBits heuristic (fun b => c.codelen.count b) c.maxQuickBits
    2 ^ quickBits * 2 ^ (15 - maxLen c.codelen) +
      (kraft c.codelen 15 - firstStart c.codelen 15 (quickBits + 1)) ≤
        16382 * 2 ^ (15 - maxLen c.codelen) := by
  have hmax := maxLen_le c.codelen
  cases heuristic with
  | false =>
    rcases c.sizes with ⟨hq, hlen⟩ | ⟨hq, hlen⟩
    · simp only [chooseQuickBits, hq, Bool.false_eq_true, if_false]
      exact delta_le_of_few hlen (by decide) (by decide)
    · simp only [chooseQuickBits, hq, Bool.false_eq_true, if_false]
      exact delta_le_of_few hlen (by decide) (by decide)
  | true =>
    have hpos : 0 < maxLen c.codelen := by omega
    obtain ⟨hq0, hqle, hsize, hleast⟩ :=
      optimumAfter_spec (fun b => c.codelen.count b) (maxLen c.codelen) hpos
    have hcode : ∀ k ≤ maxLen c.codelen,
        heuristicSize (scanAfter (fun b => c.codelen.count b) k).code (maxLen c.codelen) k *
          2 ^ (15 - maxLen c.codelen) + firstStart c.codelen 15 (k + 1) =
            2 ^ 15 + 2 ^ k * 2 ^ (15 - maxLen c.codelen) := by
      intro k hk
      rw [scanAfter_code]
      exact heuristicSize_mul hk hmax ((firstStart_mono (by omega)).trans hkraft)
        (dvd_firstStart le_rfl)
    have hlen : c.codelen.length ≤ 288 := by
      rcases c.sizes with h | h <;> omega
    apply delta_le_of_minimal hlen hpos (hqle.trans hmax)
    intro k hk0 hk
    have hq := hcode _ hqle
    rw [← hsize] at hq
    have hk' := hcode k hk
    have hmul := Nat.mul_le_mul_right (2 ^ (15 - maxLen c.codelen)) (hleast k hk0 hk)
    change _ + 2 ^ (optimumAfter _ (maxLen c.codelen) (maxLen c.codelen)).1 * _ ≤
      firstStart c.codelen 15 ((optimumAfter _ (maxLen c.codelen) (maxLen c.codelen)).1 + 1) + _
    omega

/-- **Spec lemma**: the sizes are right if the codes fit into 15 bits. -/
theorem validLayout (hkraft : kraft c.codelen 15 ≤ 2 ^ 15) :
    ValidLayout c.codelen (layout heuristic c.codelen c.maxQuickBits) := by
  have hcodes : ∀ bits, 0 < bits → bits ≤ maxLen c.codelen →
      firstCodes heuristic (fun b => c.codelen.count b) bits = firstStart c.codelen 15 bits :=
    fun bits h0 hle => firstCodes_eq heuristic c.codelen h0 hle
  unfold layout
  simp only
  split_ifs with hquick
  · exact validLayout_quick c.le_maxBits hcodes
  · exact validLayout_long c.le_maxBits hkraft (not_le.mp hquick) hcodes
      (delta_le_of_choice c heuristic hkraft (not_le.mp hquick))

end CldcVm.Inflate
