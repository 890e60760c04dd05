import CldcVm.Lib.BitScan
import Mathlib.Order.Interval.Finset.Nat

/-!
# The remembered set

Models of `mark_remembered_set` and `mark_and_stack_pointers` (`memory/ObjectHeap.cpp`, lines
2245–2316) and of `mark_and_push` and `continue_marking` (`runtime/HotRoutines.incl.hpp`, lines
299–400).

One table has a bit for each word of the heap. Below the end of the old generation a bit says that
the slot may point into the collection area; in the collection area it marks an object. Addresses
count words.

Results:
* `markRememberedSet_spec`: what becomes of the bits.
-/

namespace CldcVm.Memory.RememberedSet

open Lib

/-! ## Marking -/

/-- The heap of a partial collection: its boundaries, the words of the old generation, and the
pointers that an object has, its near first. The heap starts at a word of the table
(`verify_bitvector_alignment`). -/
structure Heap where
  heapStart : ℕ
  oldGenerationEnd : ℕ
  collectionAreaStart : ℕ
  markAreaEnd : ℕ
  slot : ℕ → ℕ
  pointers : ℕ → List ℕ
  markingStackSize : ℕ
  heapStart_aligned : 32 ∣ heapStart
  heapStart_le : heapStart ≤ oldGenerationEnd
  oldGenerationEnd_le : oldGenerationEnd ≤ collectionAreaStart

/-- The table of bits, the marking stack, `_marking_stack_overflow`, and the entries that have been
traced. -/
structure Marking where
  bits : ℕ → BitVec 32
  stack : List ℕ
  overflow : Bool
  trace : List ℕ

variable (h : Heap)

/-- `_collection_area_start <= obj && obj < mark_area_end()`. -/
def inArea (obj : ℕ) : Bool := decide (h.collectionAreaStart ≤ obj) && decide (obj < h.markAreaEnd)

/-- `mark_and_push`. -/
def markAndPush (m : Marking) (obj : ℕ) : Marking :=
  if inArea h obj then
    if getBit m.bits obj then m
    else if m.stack.length = h.markingStackSize then
      { m with
        bits := setBit m.bits obj
        overflow := true }
    else
      { m with
        bits := setBit m.bits obj
        stack := obj :: m.stack }
  else m

/-- The loop of `continue_marking`. -/
def continueMarkingFrom : (fuel : ℕ) → Marking → Marking
  | 0, m => m
  | fuel + 1, m =>
    match m.stack with
    | [] => m
    | obj :: stack =>
      continueMarkingFrom fuel ((h.pointers obj).foldl (markAndPush h) { m with stack := stack })

/-- `continue_marking`: every object on the stack has been marked, and it is only pushed then. -/
def continueMarking (m : Marking) : Marking :=
  continueMarkingFrom h (m.stack.length + (h.markAreaEnd - h.collectionAreaStart)) m

/-- The body of the loop of `mark_and_stack_pointers`, for bit `i`. -/
def visitSlot (p i : ℕ) : BitVec 32 × Marking → BitVec 32 × Marking
  | (valid, m) =>
    let obj := h.slot (p + i)
    let m := { m with trace := m.trace ++ [p + i] }
    if inArea h obj then
      (valid ||| 1#32 <<< i,
        if getBit m.bits obj then m
        else
          { m with
            bits := setBit m.bits obj
            stack := obj :: m.stack })
    else (valid, m)

/-- `mark_and_stack_pointers`. -/
def markAndStackPointers (p : ℕ) (bitword : BitVec 32) (m : Marking) : BitVec 32 × Marking :=
  let (valid, m) := forBits (visitSlot h p) 32 bitword 0 (0#32, m)
  (valid, if valid ≠ 0#32 then continueMarking h m else m)

/-- The loop of `mark_remembered_set`, for the word at `bitp`. -/
def markWord (m : Marking) (bitp : ℕ) : Marking :=
  let bitword := m.bits bitp
  if bitword ≠ 0#32 then
    let (valid, m) := markAndStackPointers h (32 * bitp) bitword m
    { m with bits := setWord m.bits bitp valid }
  else m

/-- The word that the old generation shares with what follows it. -/
def markBoundaryWord (m : Marking) (bitp : ℕ) : Marking :=
  let mask := rightBits (h.oldGenerationEnd - 32 * bitp)
  let bitword := m.bits bitp &&& mask
  if bitword ≠ 0#32 then
    let (valid, m) := markAndStackPointers h (32 * bitp) bitword m
    -- The table is read once more: the upper bits may have been set.
    let m := { m with bits := setWord m.bits bitp (m.bits bitp &&& ~~~mask ||| valid) }
    if valid ≠ 0#32 then continueMarking h m else m
  else m

/-- `mark_remembered_set`. -/
def markRememberedSet (m : Marking) : Marking :=
  let first := h.heapStart / 32
  let last := h.oldGenerationEnd / 32
  markBoundaryWord h ((List.range' first (last - first)).foldl (markWord h) m) last

/-! ## What marking does -/

variable {h} {m m' m'' : Marking} {p i a obj : ℕ}

theorem inArea_iff : inArea h obj = true ↔ h.collectionAreaStart ≤ obj ∧ obj < h.markAreaEnd := by
  rw [inArea, Bool.and_eq_true, decide_eq_true_iff, decide_eq_true_iff]

/-- Objects of the collection area are marked, and nothing else happens to the bits. -/
structure Marks (h : Heap) (m m' : Marking) : Prop where
  set : ∀ a, getBit m.bits a = true → getBit m'.bits a = true
  outside : ∀ a, inArea h a = false → getBit m'.bits a = getBit m.bits a
  trace : m'.trace = m.trace

theorem Marks.refl (m : Marking) : Marks h m m := ⟨fun _ ha => ha, fun _ _ => rfl, rfl⟩

theorem Marks.trans (h₁ : Marks h m m') (h₂ : Marks h m' m'') : Marks h m m'' :=
  ⟨fun a ha => h₂.set a (h₁.set a ha), fun a ha => (h₂.outside a ha).trans (h₁.outside a ha),
    h₂.trace.trans h₁.trace⟩

theorem marks_setBit {stack : List ℕ} {overflow : Bool} (harea : inArea h obj = true) :
    Marks h m ⟨setBit m.bits obj, stack, overflow, m.trace⟩ := by
  refine ⟨fun a ha => ?_, fun a ha => ?_, rfl⟩
  · show getBit (setBit m.bits obj) a = true
    rw [getBit_setBit, ha, Bool.true_or]
  · have hne : a ≠ obj := by
      rintro rfl
      rw [harea] at ha
      cases ha
    show getBit (setBit m.bits obj) a = _
    rw [getBit_setBit, decide_eq_false hne, Bool.or_false]

theorem markAndPush_marks (m : Marking) (obj : ℕ) : Marks h m (markAndPush h m obj) := by
  unfold markAndPush
  split_ifs with harea
  · exact .refl m
  · exact marks_setBit harea
  · exact marks_setBit harea
  · exact .refl m

theorem foldl_markAndPush_marks (l : List ℕ) (m : Marking) :
    Marks h m (l.foldl (markAndPush h) m) := by
  induction l generalizing m with
  | nil => exact .refl m
  | cons obj l ih => exact (markAndPush_marks m obj).trans (ih _)

theorem continueMarkingFrom_marks (fuel : ℕ) (m : Marking) :
    Marks h m (continueMarkingFrom h fuel m) := by
  induction fuel generalizing m with
  | zero => exact .refl m
  | succ fuel ih =>
    unfold continueMarkingFrom
    cases hstack : m.stack with
    | nil => exact .refl m
    | cons obj stack =>
      have hpop : Marks h m { m with stack := stack } := ⟨fun _ ha => ha, fun _ _ => rfl, rfl⟩
      exact (hpop.trans (foldl_markAndPush_marks _ _)).trans (ih _)

/-! ## Marking comes to an end -/

/-- The objects that can still be marked. -/
def unmarked (h : Heap) (bits : ℕ → BitVec 32) : ℕ :=
  ((Finset.Ico h.collectionAreaStart h.markAreaEnd).filter fun a => getBit bits a = false).card

/-! ## A word of the table -/

/-- Slot `a` points into the collection area. -/
def pointsIn (h : Heap) (a : ℕ) : Bool := inArea h (h.slot a)

/-- **Run lemma.** What visiting some slots of a word leaves: the valid ones, and the marks of what
they point to. -/
theorem foldl_visitSlot (p : ℕ) (l : List ℕ) (hl : ∀ i ∈ l, i < 32) (valid : BitVec 32)
    (m : Marking) :
    (∀ j < 32, (l.foldl (fun s i => visitSlot h p i s) (valid, m)).1.getLsbD j = true ↔
      valid.getLsbD j = true ∨ (j ∈ l ∧ pointsIn h (p + j) = true)) ∧
    (∀ a, getBit (l.foldl (fun s i => visitSlot h p i s) (valid, m)).2.bits a = true ↔
      getBit m.bits a = true ∨ ∃ i ∈ l, pointsIn h (p + i) = true ∧ h.slot (p + i) = a) ∧
    (l.foldl (fun s i => visitSlot h p i s) (valid, m)).2.trace = m.trace ++ l.map (p + ·) := by
  induction l generalizing valid m with
  | nil => exact ⟨fun j _ => by simp, fun a => by simp, by simp⟩
  | cons i l ih =>
    have hi : i < 32 := hl i List.mem_cons_self
    have hstep : (∀ j < 32, (visitSlot h p i (valid, m)).1.getLsbD j = true ↔
          valid.getLsbD j = true ∨ (j = i ∧ pointsIn h (p + i) = true)) ∧
        (∀ a, getBit (visitSlot h p i (valid, m)).2.bits a = true ↔
          getBit m.bits a = true ∨ (pointsIn h (p + i) = true ∧ h.slot (p + i) = a)) ∧
        (visitSlot h p i (valid, m)).2.trace = m.trace ++ [p + i] := by
      simp only [visitSlot, pointsIn]
      by_cases harea : inArea h (h.slot (p + i)) = true
      · simp only [if_pos harea]
        refine ⟨fun j hj => ?_, fun a => ?_, ?_⟩
        · rw [BitVec.getLsbD_or, getLsbD_one_shiftLeft hj, Bool.or_eq_true, decide_eq_true_iff]
          exact or_congr_right ⟨fun heq => ⟨heq, harea⟩, fun hand => hand.1⟩
        · by_cases hmarked : getBit m.bits (h.slot (p + i)) = true
          · rw [if_pos hmarked]
            refine ⟨Or.inl, ?_⟩
            rintro (ha | ⟨-, rfl⟩)
            · exact ha
            · exact hmarked
          · rw [if_neg hmarked, getBit_setBit, Bool.or_eq_true, decide_eq_true_iff]
            exact or_congr_right ⟨fun heq => ⟨harea, heq.symm⟩, fun hslot => hslot.2.symm⟩
        · split <;> rfl
      · simp only [if_neg harea]
        exact ⟨fun j _ => ⟨Or.inl, fun hor => hor.resolve_right fun hand => harea hand.2⟩,
          fun a => ⟨Or.inl, fun hor => hor.resolve_right fun hslot => harea hslot.1⟩, trivial⟩
    obtain ⟨hvalid, hbits, htrace⟩ := hstep
    obtain ⟨ihvalid, ihbits, ihtrace⟩ := ih (fun j hj => hl j (List.mem_cons_of_mem i hj))
      (visitSlot h p i (valid, m)).1 (visitSlot h p i (valid, m)).2
    rw [List.foldl_cons]
    refine ⟨fun j hj => ?_, fun a => ?_, ?_⟩
    · rw [ihvalid j hj, hvalid j hj, List.mem_cons, or_assoc, or_and_right]
      refine or_congr_right (or_congr_left (and_congr_right ?_))
      rintro rfl
      exact Iff.rfl
    · rw [ihbits, hbits]
      simp only [List.mem_cons, exists_eq_or_imp, or_assoc]
    · rw [ihtrace, htrace, List.map_cons, List.append_assoc, List.singleton_append]

variable {w : BitVec 32}

theorem mem_setBits {j : ℕ} : j ∈ setBits w 32 ↔ w.getLsbD j = true := by
  rw [setBits, List.mem_filter, List.mem_range]
  exact ⟨fun hj => hj.2, fun hj => ⟨BitVec.lt_of_getLsbD hj, hj⟩⟩

/-- **Spec lemma.** The slots of a word whose bits are set are visited: those that point into the
area are valid, and what they point to is marked. -/
theorem markAndStackPointers_spec (h : Heap) (p : ℕ) (w : BitVec 32) (m : Marking) :
    (∀ j < 32, (markAndStackPointers h p w m).1.getLsbD j = (w.getLsbD j && pointsIn h (p + j))) ∧
    (∀ a, getBit m.bits a = true → getBit (markAndStackPointers h p w m).2.bits a = true) ∧
    (∀ a, inArea h a = false → getBit (markAndStackPointers h p w m).2.bits a = getBit m.bits a) ∧
    (∀ j < 32, w.getLsbD j = true → pointsIn h (p + j) = true →
      getBit (markAndStackPointers h p w m).2.bits (h.slot (p + j)) = true) ∧
    (markAndStackPointers h p w m).2.trace = m.trace ++ (setBits w 32).map (p + ·) := by
  have hloop := forBits_eq (visitSlot h p) (fun j hj => BitVec.getLsbD_of_ge w j hj) 0 (0#32, m)
  simp only [Nat.zero_add] at hloop
  obtain ⟨hvalid, hbits, htrace⟩ := foldl_visitSlot p (setBits w 32)
    (fun i hi => BitVec.lt_of_getLsbD (mem_setBits.mp hi)) 0#32 m
  rw [← hloop] at hvalid hbits htrace
  unfold markAndStackPointers
  generalize forBits (visitSlot h p) 32 w 0 (0#32, m) = s at hvalid hbits htrace ⊢
  have hmarks : Marks h s.2 (if s.1 ≠ 0#32 then continueMarking h s.2 else s.2) := by
    split
    · exact continueMarkingFrom_marks _ _
    · exact .refl _
  refine ⟨fun j hj => ?_, fun a ha => ?_, fun a ha => ?_, fun j hj hset hin => ?_, ?_⟩
  · rw [Bool.eq_iff_iff, hvalid j hj, BitVec.getLsbD_zero, mem_setBits, Bool.and_eq_true]
    exact ⟨fun hor => hor.resolve_left Bool.false_ne_true, Or.inr⟩
  · exact hmarks.set a ((hbits a).mpr (.inl ha))
  · rw [hmarks.outside a ha, Bool.eq_iff_iff, hbits]
    refine ⟨fun hor => hor.resolve_right ?_, Or.inl⟩
    rintro ⟨i, -, hin, rfl⟩
    rw [pointsIn, ha] at hin
    cases hin
  · exact hmarks.set _ ((hbits _).mpr (.inr ⟨j, mem_setBits.mpr hset, hin, rfl⟩))
  · rw [hmarks.trace, htrace]

/-! ## Scanning -/

/-- The slots from `lo` to `hi` have been scanned. -/
structure Scanned (h : Heap) (lo hi : ℕ) (m m' : Marking) : Prop where
  visited : m'.trace = m.trace ++ (List.range' lo (hi - lo)).filter (getBit m.bits)
  slots : ∀ a, lo ≤ a → a < hi → getBit m'.bits a = (getBit m.bits a && pointsIn h a)
  referenced : ∀ a, lo ≤ a → a < hi → getBit m.bits a = true → pointsIn h a = true →
    getBit m'.bits (h.slot a) = true
  kept : ∀ a, a < lo ∨ hi ≤ a → getBit m.bits a = true → getBit m'.bits a = true
  outside : ∀ a, a < lo ∨ hi ≤ a → inArea h a = false → getBit m'.bits a = getBit m.bits a

variable {lo mid hi k n : ℕ}

theorem inArea_of_lt (ha : a < h.oldGenerationEnd) : inArea h a = false := by
  rw [Bool.eq_false_iff, Ne, inArea_iff]
  have := h.oldGenerationEnd_le
  omega

theorem Scanned.refl (m : Marking) : Scanned h lo lo m m where
  visited := by simp
  slots a hlo hhi := absurd hhi (by omega)
  referenced a hlo hhi := absurd hhi (by omega)
  kept _ _ ha := ha
  outside _ _ _ := rfl

theorem Scanned.trans (h₁ : Scanned h lo mid m m') (h₂ : Scanned h mid hi m' m'')
    (hlo : lo ≤ mid) (hmid : mid ≤ hi) (hhi : hi ≤ h.oldGenerationEnd) : Scanned h lo hi m m'' := by
  -- The bits that are still to be read have not been touched.
  have hsame : ∀ a, mid ≤ a → a < hi → getBit m'.bits a = getBit m.bits a := fun a ha hlt =>
    h₁.outside a (.inr ha) (inArea_of_lt (by omega))
  refine ⟨?_, fun a hal hah => ?_, fun a hal hah hset hin => ?_, fun a ha hset => ?_,
    fun a ha hout => ?_⟩
  · have hsplit : List.range' lo (hi - lo) =
        List.range' lo (mid - lo) ++ List.range' mid (hi - mid) := by
      rw [show hi - lo = mid - lo + (hi - mid) by omega, ← List.range'_append_1,
        Nat.add_sub_cancel' hlo]
    have hfilter : (List.range' mid (hi - mid)).filter (getBit m'.bits) =
        (List.range' mid (hi - mid)).filter (getBit m.bits) := by
      apply List.filter_congr
      intro a ha
      rw [List.mem_range'_1] at ha
      exact hsame a ha.1 (by omega)
    rw [h₂.visited, h₁.visited, hfilter, hsplit, List.filter_append, List.append_assoc]
  · by_cases hlt : a < mid
    · rw [h₂.outside a (.inl hlt) (inArea_of_lt (by omega)), h₁.slots a hal hlt]
    · rw [h₂.slots a (by omega) hah, hsame a (by omega) hah]
  · have harea : inArea h (h.slot a) = true := hin
    have hge : h.oldGenerationEnd ≤ h.slot a := h.oldGenerationEnd_le.trans (inArea_iff.mp harea).1
    by_cases hlt : a < mid
    · exact h₂.kept _ (.inr (by omega)) (h₁.referenced a hal hlt hset hin)
    · exact h₂.referenced a (by omega) hah ((hsame a (by omega) hah).trans hset) hin
  · exact h₂.kept a (by omega) (h₁.kept a (by omega) hset)
  · rw [h₂.outside a (by omega) hout, h₁.outside a (by omega) hout]

theorem Scanned.marks (hscan : Scanned h lo hi m m') (hmarks : Marks h m' m'')
    (hhi : hi ≤ h.oldGenerationEnd) : Scanned h lo hi m m'' where
  visited := hmarks.trace.trans hscan.visited
  slots a hal hah := (hmarks.outside a (inArea_of_lt (by omega))).trans (hscan.slots a hal hah)
  referenced a hal hah hset hin := hmarks.set _ (hscan.referenced a hal hah hset hin)
  kept a ha hset := hmarks.set a (hscan.kept a ha hset)
  outside a ha hout := (hmarks.outside a hout).trans (hscan.outside a ha hout)

/-- The slots of the `n` lowest bits of a word. -/
theorem setBits_map (hn : n ≤ 32)
    (hw : ∀ j < 32, w.getLsbD j = (decide (j < n) && getBit m.bits (32 * k + j))) :
    (setBits w 32).map (32 * k + ·) =
      (List.range' (32 * k) (32 * k + n - 32 * k)).filter (getBit m.bits) := by
  have hhigh : ∀ j, n ≤ j → w.getLsbD j = false := by
    intro j hj
    by_cases hlt : j < 32
    · rw [hw j hlt, decide_eq_false (by omega), Bool.false_and]
    · exact BitVec.getLsbD_of_ge w j (by omega)
  rw [setBits_of_le hn hhigh, setBits, Nat.add_sub_cancel_left, List.range'_eq_map_range,
    List.filter_map]
  congr 1
  apply List.filter_congr
  intro j hj
  have hlt : j < n := List.mem_range.mp hj
  rw [hw j (by omega), decide_eq_true hlt, Bool.true_and]
  rfl

/-- **Step lemma.** The `n` lowest bits of a word are visited, and replaced by the valid ones. -/
theorem scanned_word (hn : n ≤ 32) (hend : 32 * k + n ≤ h.oldGenerationEnd)
    (hw : ∀ j < 32, w.getLsbD j = (decide (j < n) && getBit m.bits (32 * k + j)))
    (htrace : m'.trace = (markAndStackPointers h (32 * k) w m).2.trace)
    (hbits : ∀ a, getBit m'.bits a =
      if a / 32 = k ∧ a % 32 < n then (markAndStackPointers h (32 * k) w m).1.getLsbD (a % 32)
      else getBit (markAndStackPointers h (32 * k) w m).2.bits a) :
    Scanned h (32 * k) (32 * k + n) m m' := by
  obtain ⟨hvalid, hset, hout, href, htr⟩ := markAndStackPointers_spec h (32 * k) w m
  have hother : ∀ a, a < 32 * k ∨ 32 * k + n ≤ a →
      getBit m'.bits a = getBit (markAndStackPointers h (32 * k) w m).2.bits a := fun a ha => by
    rw [hbits, if_neg (by omega)]
  -- The word's own bits are read where they are.
  have hown : ∀ a, 32 * k ≤ a → a < 32 * k + n → w.getLsbD (a % 32) = getBit m.bits a := by
    intro a hal hah
    rw [hw _ (Nat.mod_lt a (by decide)), decide_eq_true (show a % 32 < n by omega), Bool.true_and,
      show 32 * k + a % 32 = a by omega]
  refine ⟨?_, fun a hal hah => ?_, fun a hal hah hbit hin => ?_, fun a ha hbit => ?_,
    fun a ha harea => ?_⟩
  · rw [htrace, htr, setBits_map hn hw]
  · rw [hbits, if_pos (by omega), hvalid _ (Nat.mod_lt a (by decide)), hown a hal hah,
      show 32 * k + a % 32 = a by omega]
  · have hge : h.oldGenerationEnd ≤ h.slot a :=
      h.oldGenerationEnd_le.trans (inArea_iff.mp hin).1
    have hslot : 32 * k + a % 32 = a := by omega
    rw [hother _ (.inr (by omega)), ← hslot]
    apply href _ (Nat.mod_lt a (by decide))
    · rw [hown a hal hah, hbit]
    · rw [hslot, hin]
  · rw [hother a ha]
    exact hset a hbit
  · rw [hother a ha]
    exact hout a harea

theorem scanned_clear (hclear : ∀ a, lo ≤ a → a < hi → getBit m.bits a = false) :
    Scanned h lo hi m m where
  visited := by
    rw [List.filter_eq_nil_iff.mpr, List.append_nil]
    intro a ha
    rw [List.mem_range'_1] at ha
    rw [hclear a ha.1 (by omega)]
    exact Bool.false_ne_true
  slots a hal hah := by rw [hclear a hal hah, Bool.false_and]
  referenced a hal hah hset := by
    rw [hclear a hal hah] at hset
    cases hset
  kept _ _ hset := hset
  outside _ _ _ := rfl

theorem getBit_word (words : ℕ → BitVec 32) (hn : n < 32) :
    getBit words (32 * k + n) = (words k).getLsbD n := by
  unfold getBit
  rw [show (32 * k + n) / 32 = k by omega, show (32 * k + n) % 32 = n by omega]

/-- **Step lemma.** The loop scans a whole word. -/
theorem markWord_scanned (hend : 32 * k + 32 ≤ h.oldGenerationEnd) (m : Marking) :
    Scanned h (32 * k) (32 * (k + 1)) m (markWord h m k) := by
  unfold markWord
  simp only
  by_cases hzero : m.bits k = 0#32
  · rw [if_neg (not_not_intro hzero)]
    apply scanned_clear
    intro a hal hah
    obtain ⟨j, rfl⟩ := Nat.exists_eq_add_of_le hal
    rw [getBit_word _ (by omega), hzero, BitVec.getLsbD_zero]
  · rw [if_pos hzero]
    refine scanned_word le_rfl hend (fun j hj => ?_) rfl fun a => ?_
    · rw [getBit_word _ hj, decide_eq_true hj, Bool.true_and]
    · have hiff : (a / 32 = k ∧ a % 32 < 32) ↔ a / 32 = k :=
        and_iff_left (Nat.mod_lt a (by decide))
      simp only [hiff]
      exact getBit_setWord _ k _ a

/-- **Step lemma.** The word at the boundary is scanned below the end of the old generation. -/
theorem markBoundaryWord_scanned (hk : k = h.oldGenerationEnd / 32) (m : Marking) :
    Scanned h (32 * k) h.oldGenerationEnd m (markBoundaryWord h m k) := by
  obtain ⟨n, hn⟩ : ∃ n, h.oldGenerationEnd = 32 * k + n :=
    ⟨h.oldGenerationEnd % 32, by rw [hk, Nat.div_add_mod]⟩
  unfold markBoundaryWord
  simp only
  rw [hn, Nat.add_sub_cancel_left]
  have hmask : ∀ j < 32, (m.bits k &&& rightBits n).getLsbD j =
      (decide (j < n) && getBit m.bits (32 * k + j)) := by
    intro j hj
    rw [BitVec.getLsbD_and, getLsbD_rightBits hj, getBit_word _ hj, Bool.and_comm]
  by_cases hzero : m.bits k &&& rightBits n = 0#32
  · rw [if_neg (not_not_intro hzero)]
    apply scanned_clear
    intro a hal hah
    obtain ⟨j, rfl⟩ := Nat.exists_eq_add_of_le hal
    rw [getBit_word _ (by omega)]
    exact (and_rightBits_eq_zero_iff (by omega)).mp hzero j (by omega)
  · rw [if_pos hzero]
    have hvalid := (markAndStackPointers_spec h (32 * k) (m.bits k &&& rightBits n) m).1
    have hword : Scanned h (32 * k) (32 * k + n) m
        { (markAndStackPointers h (32 * k) (m.bits k &&& rightBits n) m).2 with
          bits := setWord (markAndStackPointers h (32 * k) (m.bits k &&& rightBits n) m).2.bits k
            ((markAndStackPointers h (32 * k) (m.bits k &&& rightBits n) m).2.bits k &&&
              ~~~rightBits n |||
                (markAndStackPointers h (32 * k) (m.bits k &&& rightBits n) m).1) } := by
      refine scanned_word (by omega) (by omega) hmask rfl fun a => ?_
      have hj : a % 32 < 32 := Nat.mod_lt a (by decide)
      simp only
      rw [getBit_setWord]
      by_cases hak : a / 32 = k
      · rw [if_pos hak, BitVec.getLsbD_or, BitVec.getLsbD_and, BitVec.getLsbD_not,
          getLsbD_rightBits hj, decide_eq_true hj, Bool.true_and]
        by_cases hlow : a % 32 < n
        · rw [if_pos ⟨hak, hlow⟩, decide_eq_true hlow, Bool.not_true, Bool.and_false, Bool.false_or]
        · -- Above the boundary the word has what is marked by then.
          rw [if_neg fun hand => hlow hand.2, decide_eq_false hlow, Bool.not_false,
            Bool.and_true, hvalid _ hj, hmask _ hj, decide_eq_false hlow, Bool.false_and,
            Bool.false_and, Bool.or_false, getBit, hak]
      · rw [if_neg hak, if_neg fun hand => hak hand.1]
    split
    · exact hword.marks (continueMarkingFrom_marks _ _) (by omega)
    · exact hword

/-- **Run lemma.** The loop scans the words one after the other. -/
theorem foldl_markWord_scanned (first : ℕ) (hend : 32 * (first + n) ≤ h.oldGenerationEnd)
    (m : Marking) :
    Scanned h (32 * first) (32 * (first + n)) m ((List.range' first n).foldl (markWord h) m) := by
  induction n generalizing m with
  | zero => exact Scanned.refl m
  | succ n ih =>
    rw [List.range'_1_concat, List.foldl_append, List.foldl_cons, List.foldl_nil]
    exact (ih (by omega) m).trans (markWord_scanned (by omega) _) (by omega) (by omega) (by omega)

/-- **Main theorem.** `mark_remembered_set` visits the slots of the old generation whose bits are
set, once and in order; the bits are kept of those that point into the collection area; what they
point to is marked; and no mark is lost above the old generation, nor set outside the area. -/
theorem markRememberedSet_spec (h : Heap) (m : Marking) :
    (markRememberedSet h m).trace = m.trace ++
      (List.range' h.heapStart (h.oldGenerationEnd - h.heapStart)).filter (getBit m.bits) ∧
    (∀ a, h.heapStart ≤ a → a < h.oldGenerationEnd →
      getBit (markRememberedSet h m).bits a = (getBit m.bits a && inArea h (h.slot a))) ∧
    (∀ a, h.heapStart ≤ a → a < h.oldGenerationEnd → getBit m.bits a = true →
      inArea h (h.slot a) = true → getBit (markRememberedSet h m).bits (h.slot a) = true) ∧
    (∀ a, a < h.heapStart ∨ h.oldGenerationEnd ≤ a → getBit m.bits a = true →
      getBit (markRememberedSet h m).bits a = true) ∧
    (∀ a, a < h.heapStart ∨ h.oldGenerationEnd ≤ a → inArea h a = false →
      getBit (markRememberedSet h m).bits a = getBit m.bits a) := by
  have hstart : 32 * (h.heapStart / 32) = h.heapStart := Nat.mul_div_cancel' h.heapStart_aligned
  have hle := h.heapStart_le
  have hlast : h.heapStart / 32 + (h.oldGenerationEnd / 32 - h.heapStart / 32) =
      h.oldGenerationEnd / 32 := by omega
  have hwords := @foldl_markWord_scanned h (h.oldGenerationEnd / 32 - h.heapStart / 32)
    (h.heapStart / 32) (by omega) m
  rw [hlast, hstart] at hwords
  have hall : Scanned h h.heapStart h.oldGenerationEnd m (markRememberedSet h m) :=
    hwords.trans (markBoundaryWord_scanned rfl _) (by omega) (by omega) le_rfl
  exact ⟨hall.visited, hall.slots, hall.referenced, hall.kept, hall.outside⟩

end CldcVm.Memory.RememberedSet
