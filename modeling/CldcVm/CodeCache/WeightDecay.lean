import CldcVm.CodeCache.Cache

/-!
# Decay of the weights

`on_timer_tick` and `degrade` update four weights at a time. Where no byte of the words is
above `0xEF`, which a tick preserves, they are the updates of the single entries: a charge of
16 for an entry whose sensor is clear, and, as soon as one weight does not fit into six bits
any more, the half of every weight. Neither keeps the lock bit apart: the halving drops it,
and a charge of a byte from `0xF0` on goes over into the next entry.

Main results:
* `ticks_weights`: any number of ticks.
-/

namespace CldcVm.CodeCache

open Lib

/-! ## Single entries -/

/-- The charge of one entry with the sensor `s`. -/
def chargeEntry (s w : Byte) : Byte := if s.getLsbD 0 then w else w + 16

/-- The half of a weight, in six bits. -/
def degradeEntry (w : Byte) : Byte := (w >>> 1) &&& 63

/-- The first `n` entries charged. -/
def chargeEntries (n : ℕ) (q w : Memory) : Memory :=
  fun i => if i < n then chargeEntry (q i) (w i) else w i

/-- A tick entry by entry: the charge, and the half if some weight is too large. -/
def tickEntries (n : ℕ) (q w : Memory) : Memory :=
  let w := chargeEntries n q w
  if ∃ i < n, w i &&& 64 ≠ 0 then fun i => if i < n then degradeEntry (w i) else w i
  else w

/-- Weights that a charge does not carry out of their byte. -/
def Bounded (n : ℕ) (w : Memory) : Prop := ∀ i < n, (w i).toNat < 0xF0

/-! ## Words -/

variable {k i : ℕ} {m q w : Memory} {overflow : BitVec 32}

theorem forDWords_apply (f : BitVec 32 → BitVec 32) (k : ℕ) (m : Memory) (i : ℕ) :
    forDWords f k m i = if i < 4 * k then lane (f (readQuad m (4 * (i / 4)))) (i % 4) else m i := by
  induction k generalizing m with
  | zero => simp [forDWords]
  | succ k ih =>
    rw [forDWords, ih]
    by_cases hlt : i < 4 * k
    · rw [if_pos hlt, if_pos (by omega), readQuad_writeQuad_other (by omega)]
    · rw [if_neg hlt]
      by_cases hword : i < 4 * (k + 1)
      · have hdiv : i / 4 = k := by omega
        rw [if_pos hword, hdiv]
        conv_lhs => rw [show i = 4 * k + i % 4 by omega]
        rw [writeQuad_apply _ _ _ (Nat.mod_lt i (by decide))]
      · rw [if_neg hword, writeQuad_other (by omega)]

theorem toNat_charge (s : Byte) :
    ((~~~s &&& 1) <<< chargeBits).toNat = if s.getLsbD 0 then 0 else 16 := by
  have hbit : ∀ s : Byte, ((~~~s &&& 1) <<< chargeBits).toNat = if s.getLsbD 0 then 0 else 16 := by
    decide +kernel
  exact hbit s

/-- No carry crosses when the weights of the word are bounded. -/
theorem lane_charge {q x : BitVec 32} (hx : ∀ k < 4, (lane x k).toNat < 0xF0) (hk : k < 4) :
    lane (charge q x) k = chargeEntry (lane q k) (lane x k) := by
  have hshift : ∀ k < 4, lane ((~~~q &&& quadMask 1) <<< chargeBits) k =
      (~~~lane q k &&& 1) <<< chargeBits := by
    intro k hk
    rw [show (1 : BitVec 32) = (1 : Byte).setWidth 32 from rfl,
      lane_shiftLeft_mask (by decide) (by decide) hk, lane_not hk]
  have hsum : ∀ k < 4, (lane ((~~~q &&& quadMask 1) <<< chargeBits) k).toNat +
      (lane x k).toNat < 256 := by
    intro k hk
    have hlane := hx k hk
    rw [hshift k hk, toNat_charge]
    split <;> omega
  apply BitVec.eq_of_toNat_eq
  have hlane := hx k hk
  rw [charge, toNat_lane_add hsum hk, hshift k hk, toNat_charge, chargeEntry]
  split
  · omega
  · rw [Nat.add_comm, BitVec.toNat_add]
    exact (Nat.mod_eq_of_lt (show (lane x k).toNat + 16 < 256 by omega)).symm

/-- The loop of `on_timer_tick` updates every lane of the words. -/
theorem chargeDWords_weights (k : ℕ) (w q : Memory) (overflow : BitVec 32) (i : ℕ) :
    (chargeDWords k (w, q, overflow)).1 i = if i < 4 * k then
      lane (charge (readQuad q (4 * (i / 4))) (readQuad w (4 * (i / 4)))) (i % 4) else w i := by
  induction k generalizing w q overflow with
  | zero => simp [chargeDWords]
  | succ k ih =>
    rw [chargeDWords, ih]
    by_cases hlt : i < 4 * k
    · rw [if_pos hlt, if_pos (by omega), readQuad_writeQuad_other (by omega),
        readQuad_writeQuad_other (by omega)]
    · rw [if_neg hlt]
      by_cases hword : i < 4 * (k + 1)
      · have hdiv : i / 4 = k := by omega
        rw [if_pos hword, hdiv]
        conv_lhs => rw [show i = 4 * k + i % 4 by omega]
        rw [writeQuad_apply _ _ _ (Nat.mod_lt i (by decide))]
      · rw [if_neg hword, writeQuad_other (by omega)]

theorem or_and_ne_zero (x y b : BitVec 32) : (x ||| y) &&& b ≠ 0 ↔ x &&& b ≠ 0 ∨ y &&& b ≠ 0 := by
  have hsplit : (x ||| y) &&& b = (x &&& b) ||| (y &&& b) := by
    apply BitVec.eq_of_getLsbD_eq
    intro i hi
    simp only [BitVec.getLsbD_and, BitVec.getLsbD_or, Bool.and_or_distrib_right]
  rw [hsplit]
  simp only [ne_eq, BitVec.ofNat_eq_ofNat, BitVec.or_eq_zero_iff]
  tauto

/-- `overflow` meets a mask just if one of the new weights does. -/
theorem chargeDWords_overflow (b : Byte) (k : ℕ) (w q : Memory) (overflow : BitVec 32) :
    (chargeDWords k (w, q, overflow)).2.2 &&& quadMask (b.setWidth 32) ≠ 0 ↔
      overflow &&& quadMask (b.setWidth 32) ≠ 0 ∨
        ∃ i < 4 * k, (chargeDWords k (w, q, overflow)).1 i &&& b ≠ 0 := by
  induction k generalizing w q overflow with
  | zero => simp [chargeDWords]
  | succ k ih =>
    set x := charge (readQuad q (4 * k)) (readQuad w (4 * k)) with hx
    have hlane : ∀ j < 4, (chargeDWords (k + 1) (w, q, overflow)).1 (4 * k + j) = lane x j := by
      intro j hj
      rw [chargeDWords_weights, if_pos (by omega), show (4 * k + j) / 4 = k by omega,
        show (4 * k + j) % 4 = j by omega]
    rw [chargeDWords] at hlane ⊢
    rw [ih, or_and_ne_zero, ← hx, and_quadMask_ne_zero x b, or_assoc]
    apply or_congr_right
    constructor
    · rintro (⟨j, hj, hne⟩ | ⟨i, hi, hne⟩)
      · exact ⟨4 * k + j, by omega, by rwa [hlane j hj]⟩
      · exact ⟨i, by omega, hne⟩
    · rintro ⟨i, hi, hne⟩
      by_cases hlt : i < 4 * k
      · exact .inr ⟨i, hlt, hne⟩
      · refine .inl ⟨i - 4 * k, by omega, ?_⟩
        rwa [← hlane (i - 4 * k) (by omega), Nat.add_sub_cancel' (by omega)]

/-! ## Ticks -/

variable (c : Cache)

theorem chargeDWords_entries (h : Bounded (4 * k) w) :
    (chargeDWords k (w, q, overflow)).1 = chargeEntries (4 * k) q w := by
  funext i
  rw [chargeDWords_weights, chargeEntries]
  by_cases hi : i < 4 * k
  · have hmod := Nat.mod_lt i (show 0 < 4 by decide)
    rw [if_pos hi, if_pos hi, lane_charge ?_ hmod, lane_readQuad hmod, lane_readQuad hmod,
      Nat.div_add_mod]
    intro j hj
    rw [lane_readQuad hj]
    exact h _ (by omega)
  · rw [if_neg hi, if_neg hi]

/-- `degrade` halves every entry of the words. -/
theorem degrade_weights : (degrade c).weights =
    fun i => if i < 4 * dwords c.upb then degradeEntry (c.weights i) else c.weights i := by
  funext i
  show forDWords _ _ _ i = _
  rw [forDWords_apply]
  by_cases hi : i < 4 * dwords c.upb
  · have hmod := Nat.mod_lt i (show 0 < 4 by decide)
    rw [if_pos hi, if_pos hi, show weightMask - 1 = (63 : Byte).setWidth 32 from rfl,
      lane_shiftRight_mask (by decide) hmod, lane_readQuad hmod, Nat.div_add_mod]
    rfl
  · rw [if_neg hi, if_neg hi]

/-- **Spec lemma.** One tick, entry by entry. -/
theorem onTimerTick_weights (h : Bounded (4 * dwords c.upb) c.weights) :
    (onTimerTick c).weights = tickEntries (4 * dwords c.upb) c.sensor c.weights := by
  have hcharge := @chargeDWords_entries (dwords c.upb) c.sensor c.weights 0 h
  have hmask := chargeDWords_overflow 64 (dwords c.upb) c.weights c.sensor 0
  have hzero : 0 &&& quadMask ((64 : Byte).setWidth 32) = 0 := BitVec.zero_and
  rw [hcharge, hzero] at hmask
  rw [onTimerTick, tickEntries, show weightMask = (64 : Byte).setWidth 32 from rfl]
  simp only [hmask, ne_eq, not_true_eq_false, false_or]
  split_ifs with hover
  · rw [degrade_weights]
    simp only [hcharge]
  · exact hcharge

theorem onTimerTick_upb : (onTimerTick c).upb = c.upb := by
  rw [onTimerTick]
  dsimp only
  split <;> rfl

/-- **Step lemma.** The weights of the words are bounded after a tick: what is charged without
an overflow has bit 6 clear, and what is halved has six bits. -/
theorem tickEntries_bounded {n : ℕ} : Bounded n (tickEntries n q w) := by
  have hhalf : ∀ b : Byte, (degradeEntry b).toNat < 0xF0 := by decide +kernel
  have hclear : ∀ b : Byte, b &&& 64 = 0 → b.toNat < 0xF0 := by decide +kernel
  intro i hi
  rw [tickEntries]
  split_ifs with hover
  · show (if i < n then _ else _ : Byte).toNat < 0xF0
    rw [if_pos hi]
    exact hhalf _
  · push Not at hover
    exact hclear _ (hover i hi)

/-- Ticks, with what the sensors are before each of them. -/
def ticks (qs : List Memory) (c : Cache) : Cache :=
  qs.foldl (fun c q => onTimerTick { c with sensor := q }) c

/-- **Main theorem.** After any number of ticks the weights are those of the single entries. -/
theorem ticks_weights (qs : List Memory) (h : Bounded (4 * dwords c.upb) c.weights) :
    (ticks qs c).weights = qs.foldl (fun w q => tickEntries (4 * dwords c.upb) q w) c.weights ∧
      Bounded (4 * dwords c.upb) (ticks qs c).weights := by
  induction qs generalizing c with
  | nil => exact ⟨rfl, h⟩
  | cons q qs ih =>
    have hstep := onTimerTick_weights { c with sensor := q } h
    have hupb := onTimerTick_upb { c with sensor := q }
    have hrest := ih (onTimerTick { c with sensor := q })
    rw [hupb, hstep] at hrest
    exact hrest tickEntries_bounded

/-- Four entries of the weight `0x3F`, the first of which is charged in every tick. -/
theorem ticks_weights_four :
    (ticks [fun i => if i = 0 then 0 else 0xFF, fun i => if i = 0 then 0 else 0xFF]
      { init (fun _ => 0) with upb := 3, weights := fun _ => 0x3F }).weights =
        [fun i => if i = 0 then 0 else 0xFF, fun i => if i = 0 then 0 else 0xFF].foldl
          (fun w q => tickEntries (4 * dwords 3) q w) (fun _ => 0x3F) ∧
      Bounded (4 * dwords 3)
        (ticks [fun i => if i = 0 then 0 else 0xFF, fun i => if i = 0 then 0 else 0xFF]
          { init (fun _ => 0) with upb := 3, weights := fun _ => 0x3F }).weights :=
  ticks_weights { init (fun _ => 0) with upb := 3, weights := fun _ => 0x3F }
    [fun i => if i = 0 then 0 else 0xFF, fun i => if i = 0 then 0 else 0xFF]
    (fun _ _ => show (0x3F#8).toNat < 0xF0 by decide)

/-- A locked entry of the weight `0x10` loses its lock when another entry overflows, and the
charge of the weight `0xF0` goes over into the next entry. -/
theorem tick_unlocks_and_carries :
    (onTimerTick { init (fun _ => 0) with
      upb := 3
      sensor := fun i => if i = 1 then 0 else 0xFF
      weights := fun i => if i = 0 then 0x90 else 0x3F }).weights 0 = 0x08 ∧
    (onTimerTick { init (fun _ => 0) with
      upb := 3
      sensor := fun i => if i = 0 then 0 else 0xFF
      weights := fun i => if i = 0 then 0xF0 else 0 }).weights 1 = 1 := by
  decide

end CldcVm.CodeCache
