import CldcVm.Lib.BitScan

/-!
# Ranges of the bit vector

Models of `clear_bit_range` and of `WRITE_BARRIER_OOPS_LOOP` (`memory/ObjectHeap.cpp`, lines 74–119
and 4078–4104). An address is the number of its word, so that there are `2 ^ 30` of them, and a
pointer into the bit vector is the number of a word from `_bitvector_base` on.

Results:
* `bitRange_exact`: both, for a range in the heap.
-/

namespace CldcVm.Memory.BitRanges

open Lib

/-- The heap: its last address is aligned (`must_be_aligned`). -/
structure Heap where
  heapStart : ℕ
  heapTop : ℕ
  heapTop_aligned : 32 ∣ heapTop
  heapTop_lt : heapTop < 2 ^ 30

/-- The two ends of a range in the heap. -/
structure Heap.Range (heap : Heap) (start stop : ℕ) : Prop where
  start_ge : heap.heapStart ≤ start
  le : start ≤ stop
  stop_le : stop ≤ heap.heapTop

/-! ## Alignment -/

/-- `align_down`. -/
def alignDown (p : ℕ) : ℕ := p / 32 * 32

/-- `align_up`. -/
def alignUp (p : ℕ) : ℕ := (p + 31) % 2 ^ 30 / 32 * 32

/-- `get_bitvectorword_for_aligned`. -/
def getBitvectorwordForAligned (p : ℕ) : ℕ := p / 32

/-- `get_bitvectorword_for_unaligned`. -/
def getBitvectorwordForUnaligned (p : ℕ) : ℕ := getBitvectorwordForAligned (alignDown p)

/-- `get_aligned_for_bitvectorword`. -/
def getAlignedForBitvectorword (ptr : ℕ) : ℕ := ptr * 32 % 2 ^ 30

/-! ## `clear_bit_range` -/

/-- `clear_bit_for`. -/
def clearBitFor (p : ℕ) (words : ℕ → BitVec 32) : ℕ → BitVec 32 :=
  setWord words (p / 32) (words (p / 32) &&& ~~~(1#32 <<< (p % 32)))

/-- `while (start < end) { clear_bit_for(start++); }`. -/
def clearForward (start stop : ℕ) (words : ℕ → BitVec 32) : ℕ → BitVec 32 :=
  if start < stop then clearForward (start + 1) stop (clearBitFor start words) else words
termination_by stop - start

/-- `while (end > start) { clear_bit_for(--end); }`. -/
def clearBackward (start : ℕ) : (stop : ℕ) → (ℕ → BitVec 32) → ℕ → BitVec 32
  | 0, words => words
  | stop + 1, words =>
    if stop + 1 > start then clearBackward start stop (clearBitFor stop words) else words

/-- `jvm_memset(s, 0, DISTANCE(s, e))`. -/
def clearWords (s e : ℕ) (words : ℕ → BitVec 32) (k : ℕ) : BitVec 32 :=
  if s ≤ k ∧ k < e then 0 else words k

/-- `clear_bit_range`. -/
def clearBitRange (start stop : ℕ) (words : ℕ → BitVec 32) : ℕ → BitVec 32 :=
  let alignedStart := alignUp start
  let alignedEnd := alignDown stop
  if alignedStart ≥ alignedEnd then clearForward start stop words
  else
    let words := clearForward start alignedStart words
    let words := clearBackward alignedEnd stop words
    clearWords (getBitvectorwordForAligned alignedStart) (getBitvectorwordForAligned alignedEnd)
      words

theorem getBit_clearBitFor (p : ℕ) (words : ℕ → BitVec 32) (i : ℕ) :
    getBit (clearBitFor p words) i = (getBit words i && !decide (i = p)) := by
  have hmod : i % 32 < 32 := Nat.mod_lt i (by decide)
  rw [clearBitFor, getBit_setWord]
  by_cases hword : i / 32 = p / 32
  · have hiff : i % 32 = p % 32 ↔ i = p := by omega
    rw [if_pos hword, BitVec.getLsbD_and, BitVec.getLsbD_not, decide_eq_true hmod, Bool.true_and,
      getLsbD_one_shiftLeft hmod, getBit, hword]
    simp only [hiff]
  · rw [if_neg hword, decide_eq_false fun h => hword (by rw [h]), Bool.not_false, Bool.and_true]

theorem getBit_clearForward (start stop : ℕ) (words : ℕ → BitVec 32) (i : ℕ) :
    getBit (clearForward start stop words) i =
      (getBit words i && !decide (start ≤ i ∧ i < stop)) := by
  induction start, words using clearForward.induct stop with
  | case1 start words hlt ih =>
    have hiff : start ≤ i ∧ i < stop ↔ i = start ∨ start + 1 ≤ i ∧ i < stop := by omega
    rw [clearForward, if_pos hlt, ih, getBit_clearBitFor]
    simp only [hiff, Bool.decide_or, Bool.not_or, Bool.and_assoc]
  | case2 start words hlt =>
    rw [clearForward, if_neg hlt, decide_eq_false (by omega), Bool.not_false, Bool.and_true]

theorem getBit_clearBackward (start stop : ℕ) (words : ℕ → BitVec 32) (i : ℕ) :
    getBit (clearBackward start stop words) i =
      (getBit words i && !decide (start ≤ i ∧ i < stop)) := by
  induction stop generalizing words with
  | zero => rw [clearBackward, decide_eq_false (by omega), Bool.not_false, Bool.and_true]
  | succ stop ih =>
    rw [clearBackward]
    by_cases hgt : stop + 1 > start
    · have hiff : start ≤ i ∧ i < stop + 1 ↔ i = stop ∨ start ≤ i ∧ i < stop := by omega
      rw [if_pos hgt, ih, getBit_clearBitFor]
      simp only [hiff, Bool.decide_or, Bool.not_or, Bool.and_assoc]
    · rw [if_neg hgt, decide_eq_false (by omega), Bool.not_false, Bool.and_true]

theorem getBit_clearWords (s e : ℕ) (words : ℕ → BitVec 32) (i : ℕ) :
    getBit (clearWords s e words) i = (getBit words i && !decide (32 * s ≤ i ∧ i < 32 * e)) := by
  rw [getBit, clearWords]
  by_cases hin : s ≤ i / 32 ∧ i / 32 < e
  · rw [if_pos hin, decide_eq_true (by omega), Bool.not_true, Bool.and_false]
    exact BitVec.getLsbD_zero
  · rw [if_neg hin, decide_eq_false (by omega), Bool.not_false, Bool.and_true, getBit]

/-- **Spec lemma.** The bits of the range are cleared, and no others. -/
theorem getBit_clearBitRange {heap : Heap} {start stop : ℕ} (h : heap.Range start stop)
    (words : ℕ → BitVec 32) (i : ℕ) : getBit (clearBitRange start stop words) i =
      (getBit words i && !decide (start ≤ i ∧ i < stop)) := by
  obtain ⟨k, hk⟩ := heap.heapTop_aligned
  have hlt := heap.heapTop_lt
  have hle := h.stop_le
  have hstart := h.le
  have hup : alignUp start = (start + 31) / 32 * 32 := by
    rw [alignUp]
    omega
  have hdown : alignDown stop ≤ stop ∧ stop < alignDown stop + 32 ∧ alignDown stop % 32 = 0 := by
    rw [alignDown]
    omega
  simp only [clearBitRange, getBitvectorwordForAligned]
  by_cases hsmall : alignUp start ≥ alignDown stop
  · rw [if_pos hsmall, getBit_clearForward]
  · have hiff : start ≤ i ∧ i < stop ↔ (start ≤ i ∧ i < alignUp start) ∨
        (alignDown stop ≤ i ∧ i < stop) ∨
        (32 * (alignUp start / 32) ≤ i ∧ i < 32 * (alignDown stop / 32)) := by
      omega
    rw [if_neg hsmall, getBit_clearWords, getBit_clearBackward, getBit_clearForward]
    simp only [hiff, Bool.decide_or, Bool.not_or, Bool.and_assoc]

/-! ## `WRITE_BARRIER_OOPS_LOOP` -/

/-- `while (bitvector_word_ptr <= last_bitvector_word_ptr && bitword == 0)`. -/
def skipWords (words : ℕ → BitVec 32) (last ptr : ℕ) (bitword : BitVec 32) : ℕ × BitVec 32 :=
  if ptr ≤ last ∧ bitword = 0#32 then skipWords words last (ptr + 1) (words (ptr + 1))
  else (ptr, bitword)
termination_by last + 1 - ptr

theorem skipWords_progress (words : ℕ → BitVec 32) (last ptr : ℕ) (bitword : BitVec 32) :
    ptr ≤ (skipWords words last ptr bitword).1 ∧
      (ptr ≤ last → bitword = 0#32 → ptr < (skipWords words last ptr bitword).1) := by
  induction ptr, bitword using skipWords.induct words last with
  | case1 ptr bitword hskip ih =>
    rw [skipWords, if_pos hskip]
    omega
  | case2 ptr bitword hskip =>
    rw [skipWords, if_neg hskip]
    exact ⟨le_rfl, fun hle hzero => absurd ⟨hle, hzero⟩ hskip⟩

/-- A word that is left behind makes the rest smaller. -/
theorem skipWords_decreases {words : ℕ → BitVec 32} {last ptr ptr' : ℕ}
    {bitword bitword' : BitVec 32} (hskip : skipWords words last ptr bitword = (ptr', bitword'))
    (hle : ptr' ≤ last) :
    2 * (last + 1 - ptr') + (if 0#32 = 0#32 then 0 else 1) <
      2 * (last + 1 - ptr) + if bitword = 0#32 then 0 else 1 := by
  obtain ⟨hge, hgt⟩ := skipWords_progress words last ptr bitword
  rw [hskip] at hge hgt
  change ptr ≤ ptr' at hge
  change ptr ≤ last → bitword = 0#32 → ptr < ptr' at hgt
  rw [if_pos rfl]
  by_cases hzero : bitword = 0#32
  · have hlt := hgt (by omega) hzero
    omega
  · rw [if_neg hzero]
    omega

section Loop

variable {σ : Type*} (words : σ → ℕ → BitVec 32) (body : ℕ → σ → σ)

/-- `while (true)`: the body is run for the bits of a word that are set, and the last word is cut
off at the end of the range. -/
def oopsLoop (last stop ptr : ℕ) (bitword : BitVec 32) (s : σ) : σ :=
  match _hskip : skipWords (words s) last ptr bitword with
  | (ptr', bitword') =>
    if ptr' < last then
      oopsLoop last stop ptr' 0#32
        (forBits body 32 bitword' (getAlignedForBitvectorword ptr') s)
    else if ptr' = last then
      oopsLoop last stop ptr' 0#32
        (forBits body 32 (bitword' &&& rightBits (stop - getAlignedForBitvectorword ptr'))
          (getAlignedForBitvectorword ptr') s)
    else s
termination_by 2 * (last + 1 - ptr) + if bitword = 0#32 then 0 else 1
decreasing_by
  · exact skipWords_decreases ‹_› (by omega)
  · exact skipWords_decreases ‹_› (by omega)

/-- `WRITE_BARRIER_OOPS_LOOP_BEGIN` and `WRITE_BARRIER_OOPS_LOOP_END` around a body. -/
def writeBarrierOopsLoop (start stop : ℕ) (s : σ) : σ :=
  let p := alignDown start
  let ptr := getBitvectorwordForAligned p
  let last := getBitvectorwordForUnaligned stop
  let bitword := words s ptr &&& ~~~((1#32 <<< (start - p)) - 1)
  oopsLoop words body last stop ptr bitword s

/-! ## The addresses that are visited -/

variable {words body} {start lo lo' stop last ptr : ℕ} {bitword : BitVec 32} {s s' : σ}

/-- The body leaves the bits of the range alone. -/
def Keeps (words : σ → ℕ → BitVec 32) (body : ℕ → σ → σ) (start stop : ℕ) : Prop :=
  ∀ p s, start ≤ p → p < stop → ∀ i, start ≤ i → i < stop →
    getBit (words (body p s)) i = getBit (words s) i

/-- The body has been run for addresses in ascending order; if it leaves the bits of the range
alone, these are the addresses whose bits are set. -/
def Visits (words : σ → ℕ → BitVec 32) (body : ℕ → σ → σ) (start lo stop : ℕ) (s s' : σ) : Prop :=
  ∃ l : List ℕ, l.Pairwise (· < ·) ∧ (∀ p ∈ l, lo ≤ p ∧ p < stop) ∧
    s' = l.foldl (fun s p => body p s) s ∧
    (Keeps words body start stop →
      ∀ p, p ∈ l ↔ lo ≤ p ∧ p < stop ∧ getBit (words s) p = true)

theorem foldl_keeps (h : Keeps words body start stop) (l : List ℕ)
    (hl : ∀ p ∈ l, start ≤ p ∧ p < stop) (s : σ) {i : ℕ} (h0 : start ≤ i) (h1 : i < stop) :
    getBit (words (l.foldl (fun s p => body p s) s)) i = getBit (words s) i := by
  induction l generalizing s with
  | nil => rfl
  | cons p l ih =>
    have hp := hl p List.mem_cons_self
    rw [List.foldl_cons, ih (fun q hq => hl q (List.mem_cons_of_mem p hq)), h p s hp.1 hp.2 i h0 h1]

/-- The bits of a word that remain, from an address on. -/
def Remains (words : ℕ → BitVec 32) (ptr lo stop : ℕ) (bitword : BitVec 32) : Prop :=
  ∀ j < 32, ptr * 32 + j < stop →
    bitword.getLsbD j = (decide (lo ≤ ptr * 32 + j) && getBit words (ptr * 32 + j))

theorem getBit_word (words : ℕ → BitVec 32) (ptr : ℕ) {j : ℕ} (hj : j < 32) :
    getBit words (ptr * 32 + j) = (words ptr).getLsbD j := by
  rw [getBit, show (ptr * 32 + j) / 32 = ptr by omega, show (ptr * 32 + j) % 32 = j by omega]

theorem remains_zero (words : ℕ → BitVec 32) (ptr stop : ℕ) :
    Remains words ptr (ptr * 32 + 32) stop 0#32 := by
  intro j hj _
  rw [decide_eq_false (by omega), Bool.false_and]
  exact BitVec.getLsbD_zero

theorem skipWords_remains {words : ℕ → BitVec 32} {ptr' : ℕ} {bitword' : BitVec 32}
    (h0 : ptr * 32 ≤ lo) (h1 : lo ≤ ptr * 32 + 32) (h : Remains words ptr lo stop bitword)
    (hskip : skipWords words last ptr bitword = (ptr', bitword')) :
    ∃ lo', lo ≤ lo' ∧ ptr' * 32 ≤ lo' ∧ lo' ≤ ptr' * 32 + 32 ∧
      Remains words ptr' lo' stop bitword' ∧
      ∀ i, lo ≤ i → i < lo' → i < stop → getBit words i = false := by
  induction ptr, bitword using skipWords.induct words last generalizing lo with
  | case1 ptr bitword hzero ih =>
    have hnext : Remains words (ptr + 1) ((ptr + 1) * 32) stop (words (ptr + 1)) := by
      intro j hj hstop
      rw [decide_eq_true (by omega), Bool.true_and, getBit_word words _ hj]
    rw [skipWords, if_pos hzero] at hskip
    obtain ⟨lo', hle, hlow, hhigh, hremains, hclear⟩ := ih (by omega) (by omega) hnext hskip
    refine ⟨lo', by omega, hlow, hhigh, hremains, fun i hi hi' hstop => ?_⟩
    by_cases hin : i < (ptr + 1) * 32
    · have hbit := h (i - ptr * 32) (by omega) (by omega)
      rw [hzero.2, Nat.add_sub_cancel' (by omega), decide_eq_true hi, Bool.true_and] at hbit
      rw [← hbit]
      exact BitVec.getLsbD_zero
    · exact hclear i (by omega) hi' hstop
  | case2 ptr bitword hstay =>
    rw [skipWords, if_neg hstay] at hskip
    cases hskip
    exact ⟨lo, le_rfl, h0, h1, h, fun i hi hi' => absurd hi' (by omega)⟩

theorem getAligned_eq (hlast : last = stop / 32) (hstop : stop < 2 ^ 30) (hle : ptr ≤ last) :
    getAlignedForBitvectorword ptr = ptr * 32 := by
  rw [getAlignedForBitvectorword]
  omega

/-- **Step lemma.** A word is visited, and then the words after it. -/
theorem Visits.word (hlo : start ≤ lo) (hle : lo ≤ lo') (hlow : ptr * 32 ≤ lo')
    (hhigh : lo' ≤ ptr * 32 + 32)
    (hclear : ∀ i, lo ≤ i → i < lo' → i < stop → getBit (words s) i = false)
    (hword : ∀ j < 32, bitword.getLsbD j = (decide (ptr * 32 + j < stop) &&
      (decide (lo' ≤ ptr * 32 + j) && getBit (words s) (ptr * 32 + j))))
    (hrest : Visits words body start (ptr * 32 + 32) stop
      (forBits body 32 bitword (ptr * 32) s) s') : Visits words body start lo stop s s' := by
  obtain ⟨l, hsorted, hrange, hs', hexact⟩ := hrest
  rw [forBits_eq body (fun j hj => BitVec.getLsbD_of_ge bitword j hj)] at hs' hexact
  have hmem : ∀ p, p ∈ (setBits bitword 32).map (ptr * 32 + ·) ↔
      p < ptr * 32 + 32 ∧ lo' ≤ p ∧ p < stop ∧ getBit (words s) p = true := by
    intro p
    rw [List.mem_map]
    constructor
    · rintro ⟨j, hj, rfl⟩
      rw [setBits, List.mem_filter, List.mem_range] at hj
      rw [hword j hj.1, Bool.and_eq_true, Bool.and_eq_true, decide_eq_true_eq,
        decide_eq_true_eq] at hj
      exact ⟨by omega, hj.2.2.1, hj.2.1, hj.2.2.2⟩
    · rintro ⟨hlt, hge, hstop, hbit⟩
      refine ⟨p - ptr * 32, ?_, by omega⟩
      rw [setBits, List.mem_filter, List.mem_range, hword _ (by omega),
        Nat.add_sub_cancel' (by omega), hbit, decide_eq_true hstop, decide_eq_true hge]
      exact ⟨by omega, rfl⟩
  have hfirst : ∀ p ∈ (setBits bitword 32).map (ptr * 32 + ·), start ≤ p ∧ p < stop := by
    intro p hp
    have hp := (hmem p).mp hp
    omega
  refine ⟨(setBits bitword 32).map (ptr * 32 + ·) ++ l, ?_, ?_, ?_, ?_⟩
  · rw [List.pairwise_append]
    refine ⟨?_, hsorted, fun p hp q hq => ?_⟩
    · rw [List.pairwise_map]
      exact (List.pairwise_lt_range.filter _).imp fun h => by omega
    · have hp := (hmem p).mp hp
      have hq := hrange q hq
      omega
  · intro p hp
    rcases List.mem_append.mp hp with hp | hp
    · have hp := (hmem p).mp hp
      omega
    · have hp := hrange p hp
      omega
  · rw [hs', List.foldl_append, List.foldl_map]
  · intro hkeeps p
    rw [List.mem_append, hmem, hexact hkeeps]
    have hsame : ptr * 32 + 32 ≤ p → p < stop →
        getBit (words ((setBits bitword 32).foldl (fun s j => body (ptr * 32 + j) s) s)) p =
          getBit (words s) p := by
      intro hge hstop
      have hfold := foldl_keeps hkeeps _ hfirst s (show start ≤ p by omega) hstop
      rwa [List.foldl_map] at hfold
    constructor
    · rintro (⟨-, hge, hstop, hbit⟩ | ⟨hge, hstop, hbit⟩)
      · exact ⟨by omega, hstop, hbit⟩
      · exact ⟨by omega, hstop, hsame hge hstop ▸ hbit⟩
    · rintro ⟨hge, hstop, hbit⟩
      by_cases hbefore : p < lo'
      · rw [hclear p hge hbefore hstop] at hbit
        cases hbit
      · by_cases hin : p < ptr * 32 + 32
        · exact .inl ⟨hin, by omega, hstop, hbit⟩
        · exact .inr ⟨by omega, hstop, (hsame (by omega) hstop).symm ▸ hbit⟩

/-- **Run lemma.** The loop visits the addresses that remain. -/
theorem oopsLoop_spec (hlast : last = stop / 32) (hstop : stop < 2 ^ 30) (hlo : start ≤ lo)
    (h0 : ptr * 32 ≤ lo) (h1 : lo ≤ ptr * 32 + 32) (h : Remains (words s) ptr lo stop bitword) :
    Visits words body start lo stop s (oopsLoop words body last stop ptr bitword s) := by
  induction ptr, bitword, s using oopsLoop.induct words body last stop generalizing lo with
  | case1 ptr bitword s ptr' bitword' hskip hlt ih =>
    obtain ⟨lo', hle, hlow, hhigh, hremains, hclear⟩ := skipWords_remains h0 h1 h hskip
    rw [oopsLoop, hskip]
    simp only [if_pos hlt, getAligned_eq hlast hstop hlt.le] at ih ⊢
    refine Visits.word hlo hle hlow hhigh hclear (fun j hj => ?_)
      (ih (by omega) (by omega) le_rfl (remains_zero _ _ _))
    rw [decide_eq_true (show ptr' * 32 + j < stop by omega), Bool.true_and]
    exact hremains j hj (by omega)
  | case2 ptr bitword s bitword' hskip hlt ih =>
    obtain ⟨lo', hle, hlow, hhigh, hremains, hclear⟩ := skipWords_remains h0 h1 h hskip
    rw [oopsLoop, hskip]
    simp only [if_neg hlt, if_true, getAligned_eq hlast hstop le_rfl] at ih ⊢
    refine Visits.word hlo hle hlow hhigh hclear (fun j hj => ?_)
      (ih (by omega) (by omega) le_rfl (remains_zero _ _ _))
    -- the bits from the end of the range on are cut off
    have hiff : j < stop - last * 32 ↔ last * 32 + j < stop := by omega
    rw [BitVec.getLsbD_and, getLsbD_rightBits hj, Bool.and_comm]
    simp only [hiff]
    by_cases hin : last * 32 + j < stop
    · rw [hremains j hj hin]
    · rw [decide_eq_false hin, Bool.false_and, Bool.false_and]
  | case3 ptr bitword s ptr' bitword' hskip hlt hne =>
    obtain ⟨lo', hle, hlow, -, -, hclear⟩ := skipWords_remains h0 h1 h hskip
    rw [oopsLoop, hskip]
    simp only [if_neg hlt, if_neg hne]
    refine ⟨[], List.Pairwise.nil, by simp, rfl, fun _ p => ?_⟩
    simp only [List.not_mem_nil, false_iff]
    rintro ⟨hge, hstop, hbit⟩
    rw [hclear p hge (by omega) hstop] at hbit
    cases hbit

theorem remains_head (words : ℕ → BitVec 32) (start stop : ℕ) :
    Remains words (start / 32) start stop
      (words (start / 32) &&& ~~~((1#32 <<< (start % 32)) - 1)) := by
  intro j hj _
  have hmask : ∀ k < 32, (1#32 <<< k) - 1 = rightBits k := by decide
  have hiff : start ≤ start / 32 * 32 + j ↔ ¬j < start % 32 := by omega
  rw [hmask _ (Nat.mod_lt start (by decide)), BitVec.getLsbD_and, BitVec.getLsbD_not,
    getLsbD_rightBits hj, decide_eq_true hj, Bool.true_and, getBit_word words _ hj, Bool.and_comm]
  simp only [hiff, decide_not]

/-- **Spec lemma** of `WRITE_BARRIER_OOPS_LOOP`. -/
theorem writeBarrierOopsLoop_visits (hstop : stop < 2 ^ 30) (s : σ) :
    Visits words body start start stop s (writeBarrierOopsLoop words body start stop s) := by
  have hlast : getBitvectorwordForUnaligned stop = stop / 32 := by
    rw [getBitvectorwordForUnaligned, getBitvectorwordForAligned, alignDown]
    omega
  have hptr : getBitvectorwordForAligned (alignDown start) = start / 32 := by
    rw [getBitvectorwordForAligned, alignDown]
    omega
  have hoffset : start - alignDown start = start % 32 := by
    rw [alignDown]
    omega
  simp only [writeBarrierOopsLoop, hlast, hptr, hoffset]
  exact oopsLoop_spec rfl hstop le_rfl (by omega) (by omega) (remains_head (words s) start stop)

/-- The addresses of a range whose bits are set. -/
def setAddresses (words : ℕ → BitVec 32) (start stop : ℕ) : List ℕ :=
  (List.range' start (stop - start)).filter fun p => getBit words p

/-- **Main theorem.** `clear_bit_range` clears the bits of the range and no others; the loop runs
its body for addresses of the range in ascending order, and for those whose bits are set if the
body leaves the bits of the range alone. -/
theorem bitRange_exact {heap : Heap} (h : heap.Range start stop) :
    (∀ map i, getBit (clearBitRange start stop map) i =
      (getBit map i && !decide (start ≤ i ∧ i < stop))) ∧
    ∀ (words : σ → ℕ → BitVec 32) (body : ℕ → σ → σ) (s : σ), ∃ l : List ℕ,
      l.Pairwise (· < ·) ∧ (∀ p ∈ l, start ≤ p ∧ p < stop) ∧
      writeBarrierOopsLoop words body start stop s = l.foldl (fun s p => body p s) s ∧
      (Keeps words body start stop → l = setAddresses (words s) start stop) := by
  refine ⟨fun map i => getBit_clearBitRange h map i, fun words body s => ?_⟩
  have hstop := lt_of_le_of_lt h.stop_le heap.heapTop_lt
  obtain ⟨l, hsorted, hrange, hrun, hexact⟩ :=
    @writeBarrierOopsLoop_visits σ words body start _ hstop s
  refine ⟨l, hsorted, hrange, hrun, fun hkeeps => ?_⟩
  have hle := h.le
  have hascending := @List.pairwise_lt_range' start (stop - start) 1 (by decide)
  refine hsorted.eq_of_mem_iff (hascending.filter _) fun p => ?_
  rw [hexact hkeeps, setAddresses, List.mem_filter, List.mem_range'_1]
  constructor
  · rintro ⟨hge, hlt, hbit⟩
    exact ⟨by omega, hbit⟩
  · rintro ⟨hin, hbit⟩
    exact ⟨hin.1, by omega, hbit⟩

/-- A range with ragged ends, of a trace of the addresses. -/
theorem bitRange_exact_ragged :
    (∀ map i, getBit (clearBitRange 70 100 map) i =
      (getBit map i && !decide (70 ≤ i ∧ i < 100))) ∧
    ∀ (words : List ℕ → ℕ → BitVec 32) (body : ℕ → List ℕ → List ℕ) (s : List ℕ), ∃ l : List ℕ,
      l.Pairwise (· < ·) ∧ (∀ p ∈ l, 70 ≤ p ∧ p < 100) ∧
      writeBarrierOopsLoop words body 70 100 s = l.foldl (fun s p => body p s) s ∧
      (Keeps words body 70 100 → l = setAddresses (words s) 70 100) :=
  @bitRange_exact (List ℕ) 70 100 ⟨64, 128, by decide, by decide⟩ ⟨by decide, by decide, by decide⟩

end Loop

end CldcVm.Memory.BitRanges
