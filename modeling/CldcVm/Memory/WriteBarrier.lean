import CldcVm.Memory.BitRanges

/-!
# The write barriers

Models of `oop_write_barrier_range` (`handles/ObjArray.cpp`, lines 50–106), of `set_bit_range`
(`memory/ObjectHeap.hpp`) and of `oop_write_barrier` (`runtime/HotRoutines.incl.hpp`, lines 80–94).
Addresses count words; the null reference is 0.

Results:
* `getBit_oopWriteBarrierRange`: the bits of the range are set, and no others are changed.
* `getBit_oopWriteBarrier`: the bit of a slot of the old generation is set if the slot points
  upwards.
-/

namespace CldcVm.Memory

open Lib BitRanges

/-- The boundaries of the old generation. The heap starts at a word of the bit vector. -/
structure Generations where
  heapStart : ℕ
  oldGenerationEnd : ℕ
  heapStart_aligned : 32 ∣ heapStart

/-- The slots of the heap and the bit vector. -/
structure Slots where
  slots : ℕ → ℕ
  bits : ℕ → BitVec 32

/-! ## Ranges -/

/-- `set_bit_range`. -/
def setBitRange (start : ℕ) : (len : ℕ) → (ℕ → BitVec 32) → ℕ → BitVec 32
  | 0, bits => bits
  | len + 1, bits => setBitRange (start + 1) len (setBit bits start)

/-- `jvm_memset(bvw, 0xff, main / BitsPerByte)`. -/
def setWords (bvw count : ℕ) (bits : ℕ → BitVec 32) (k : ℕ) : BitVec 32 :=
  if bvw ≤ k ∧ k < bvw + count then BitVec.allOnes 32 else bits k

/-- `oop_write_barrier_range`. -/
def oopWriteBarrierRange (g : Generations) (start len : ℕ) (bits : ℕ → BitVec 32) :
    ℕ → BitVec 32 :=
  if len < 32 then setBitRange start len bits
  else
    let startOffset := start - g.heapStart
    let head := 32 - startOffset % 32
    let main := (len - head) / 32 * 32
    let tail := len - (head + main)
    let bits := if head > 0 then setBitRange start head bits else bits
    let p := start + head
    let bits :=
      if main > 0 then setWords (getBitvectorwordForAligned p) (main / 8 / 4) bits else bits
    let p := p + main
    if tail > 0 then setBitRange p tail bits else bits

theorem getBit_setBitRange (start len : ℕ) (bits : ℕ → BitVec 32) (i : ℕ) :
    getBit (setBitRange start len bits) i =
      (getBit bits i || decide (start ≤ i ∧ i < start + len)) := by
  induction len generalizing start bits with
  | zero => rw [setBitRange, decide_eq_false (by omega), Bool.or_false]
  | succ len ih =>
    have hiff : start ≤ i ∧ i < start + (len + 1) ↔
        i = start ∨ start + 1 ≤ i ∧ i < start + 1 + len := by omega
    rw [setBitRange, ih, getBit_setBit]
    simp only [hiff, Bool.decide_or, Bool.or_assoc]

theorem getBit_setWords (bvw count : ℕ) (bits : ℕ → BitVec 32) (i : ℕ) :
    getBit (setWords bvw count bits) i =
      (getBit bits i || decide (bvw * 32 ≤ i ∧ i < (bvw + count) * 32)) := by
  have hmod : i % 32 < 32 := Nat.mod_lt i (by decide)
  rw [getBit, setWords]
  by_cases hin : bvw ≤ i / 32 ∧ i / 32 < bvw + count
  · rw [if_pos hin, decide_eq_true (by omega), Bool.or_true, BitVec.getLsbD_allOnes,
      decide_eq_true hmod]
  · rw [if_neg hin, decide_eq_false (by omega), Bool.or_false, getBit]

/-- **Spec lemma** of `oop_write_barrier_range`. -/
theorem getBit_oopWriteBarrierRange {g : Generations} {start : ℕ} (h : g.heapStart ≤ start)
    (len : ℕ) (bits : ℕ → BitVec 32) (i : ℕ) : getBit (oopWriteBarrierRange g start len bits) i =
      (getBit bits i || decide (start ≤ i ∧ i < start + len)) := by
  obtain ⟨k, hk⟩ := g.heapStart_aligned
  rw [oopWriteBarrierRange]
  by_cases hsmall : len < 32
  · rw [if_pos hsmall, getBit_setBitRange]
  · obtain ⟨head, hhead⟩ : ∃ head, head = 32 - (start - g.heapStart) % 32 := ⟨_, rfl⟩
    obtain ⟨main, hmain⟩ : ∃ main, main = (len - head) / 32 * 32 := ⟨_, rfl⟩
    obtain ⟨tail, htail⟩ : ∃ tail, tail = len - (head + main) := ⟨_, rfl⟩
    simp only [if_neg hsmall, ← hhead, ← hmain, ← htail, getBitvectorwordForAligned]
    have hwords : ∀ bits : ℕ → BitVec 32, getBit
        (if main > 0 then setWords ((start + head) / 32) (main / 8 / 4) bits else bits) i =
          (getBit bits i || decide (start + head ≤ i ∧ i < start + head + main)) := by
      intro bits
      by_cases hpos : main > 0
      · have hiff : (start + head) / 32 * 32 ≤ i ∧ i < ((start + head) / 32 + main / 8 / 4) * 32 ↔
              start + head ≤ i ∧ i < start + head + main := by omega
        rw [if_pos hpos, getBit_setWords]
        simp only [hiff]
      · rw [if_neg hpos, decide_eq_false (by omega), Bool.or_false]
    have htails : ∀ bits : ℕ → BitVec 32, getBit
        (if tail > 0 then setBitRange (start + head + main) tail bits else bits) i =
          (getBit bits i ||
            decide (start + head + main ≤ i ∧ i < start + head + main + tail)) := by
      intro bits
      by_cases hpos : tail > 0
      · rw [if_pos hpos, getBit_setBitRange]
      · rw [if_neg hpos, decide_eq_false (by omega), Bool.or_false]
    have hiff : start ≤ i ∧ i < start + len ↔
        (start ≤ i ∧ i < start + head) ∨ (start + head ≤ i ∧ i < start + head + main) ∨
          (start + head + main ≤ i ∧ i < start + head + main + tail) := by omega
    rw [htails, hwords, if_pos (show head > 0 by omega), getBit_setBitRange]
    simp only [hiff, Bool.decide_or, Bool.or_assoc]

/-! ## One slot -/

/-- `oop_write_barrier`. -/
def oopWriteBarrier (g : Generations) (addr value : ℕ) (m : Slots) : Slots :=
  { slots := Function.update m.slots addr value
    bits :=
      if addr < g.oldGenerationEnd ∧ addr < value ∧ g.heapStart ≤ addr then setBit m.bits addr
      else m.bits }

theorem getBit_oopWriteBarrier (g : Generations) (addr value : ℕ) (m : Slots) (i : ℕ) :
    getBit (oopWriteBarrier g addr value m).bits i = (getBit m.bits i ||
        decide (i = addr ∧ addr < g.oldGenerationEnd ∧ addr < value ∧ g.heapStart ≤ addr)) := by
  rw [oopWriteBarrier]
  by_cases hup : addr < g.oldGenerationEnd ∧ addr < value ∧ g.heapStart ≤ addr
  · rw [if_pos hup, getBit_setBit]
    simp only [hup, and_true]
  · rw [if_neg hup, decide_eq_false fun h => hup h.2, Bool.or_false]

end CldcVm.Memory
