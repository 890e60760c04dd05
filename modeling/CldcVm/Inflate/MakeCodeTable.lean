import CldcVm.Inflate.QuickBits

/-!
# Building a code table

`Inflater::make_code_table` as a whole (`runtime/Inflate.cpp`, lines 566–734), and the lookup in
the table it builds. The lengths of a dynamic block come from the file, and nothing checks that the
codes of these lengths exist: too many short codes get past `2^15`, and `reverse_15bits` reads
`reverse5` behind its end for the first of them.

Results:

* `makeCodeTable_iff`: the tables are correct iff the codes fit or the allocation throws.
-/

namespace CldcVm.Inflate

open Lib Lib.CanonicalCode

/-! ## What a table is for -/

/-- The lookup finds the symbol whose codeword the following bits begin with, and its length, or an
error entry if there is none. -/
def Finds (codelen : List ℕ) (table : HuffmanCodeTable) : Prop :=
  ∀ inData, ∃ entry, getHuffmanEntry table inData = some entry ∧
    ∀ symbol bits, entry = some (symbol, bits) ↔
      IsCodeword codelen symbol inData ∧ bits = len codelen symbol

/-- A call that stays inside the arrays, and throws or gives a table that finds the codewords. -/
def Correct (codelen : List ℕ) : Option (Option HuffmanCodeTable) → Prop
  | none => False
  | some none => True
  | some (some table) => Finds codelen table

/-! ## Codes that fit -/

/-- No symbol has been put into the table yet. -/
theorem tableInv_start {codelen : List ℕ} {lay : Layout} (hlay : ValidLayout codelen lay) :
    TableInv codelen lay 0 0 []
      ⟨List.replicate lay.numEntries 0, lay.mainTableLength, lay.codes⟩ where
  length_eq := List.length_replicate
  next_eq := by simp
  nodup := List.nodup_nil
  mem_order p := by simp
  quick_long k p h := by simp at h
  quick_short p hp _ := by
    have hle : lay.mainTableLength ≤ lay.numEntries := by
      rw [hlay.numEntries_eq]
      exact Nat.le_add_right _ _
    rw [List.getElem?_replicate, if_pos (by omega)]
    rfl
  long k p h := by simp at h
  fresh index _ h := by rw [List.getElem?_replicate, if_pos h]

theorem codesAt_start {codelen : List ℕ} {lay : Layout}
    (hcodes : ∀ bits, 0 < bits → bits ≤ lay.maxCodeLen →
      lay.codes bits = firstStart codelen 15 bits) : CodesAt codelen lay 0 lay.codes := by
  intro bits h0 hle
  rw [hcodes bits h0 hle, List.take_zero, List.count_nil, Nat.zero_mul, Nat.add_zero]

section Calls

variable (c : CodeLengths) (heuristic allocates : Bool)

/-- **Main theorem**: codes that fit into 15 bits give a table that finds them. -/
theorem makeCodeTable_correct (hkraft : kraft c.codelen 15 ≤ 2 ^ 15) :
    Correct c.codelen (makeCodeTable heuristic allocates c.codelen c.maxQuickBits) := by
  unfold makeCodeTable
  cases allocates with
  | false => exact trivial
  | true =>
    have hlay := validLayout c heuristic hkraft
    have hsize : c.codelen.length ≤ 2 ^ 11 := by
      rcases c.sizes with h | h <;> omega
    obtain ⟨order, fill, hrun, hinv⟩ := insertCodes_spec hlay hkraft (List.drop_zero) (Nat.zero_le _)
      (tableInv_start hlay) (codesAt_start hlay.codes_eq)
    simp only [if_true]
    rw [hrun]
    exact fun inData => hinv.getHuffmanEntry hlay hkraft hsize inData

/-! ## Codes that do not fit -/

theorem layout_eq (codelen : List ℕ) (maxQuickBits : ℕ) :
    (layout heuristic codelen maxQuickBits).maxCodeLen = maxLen codelen ∧
      (layout heuristic codelen maxQuickBits).codes =
        firstCodes heuristic fun b => codelen.count b := by
  unfold layout
  simp only
  split_ifs
  · exact ⟨rfl, rfl⟩
  · exact ⟨rfl, rfl⟩

/-- A call that stays inside `reverse5` has codes that fit. -/
theorem kraft_le_of_makeCodeTable {table : Option HuffmanCodeTable}
    (h : makeCodeTable heuristic true c.codelen c.maxQuickBits = some table) :
    kraft c.codelen 15 ≤ 2 ^ 15 := by
  obtain ⟨hmax, hcodes⟩ := layout_eq heuristic c.codelen c.maxQuickBits
  unfold makeCodeTable at h
  simp only [if_true] at h
  obtain ⟨fill, hrun, -⟩ := Option.map_eq_some_iff.mp h
  apply kraft_le_of_start_lt
  intro i hi
  refine start_lt_of_insertCodes ?_ List.drop_zero ?_ hrun i (Nat.zero_le i) hi
  · rw [hmax]
    exact len_le_maxLen c.le_maxBits
  · apply codesAt_start
    intro bits h0 hle
    rw [hcodes]
    exact firstCodes_eq heuristic c.codelen h0 (hmax ▸ hle)

/-- **Main theorem**: the calls that are correct. -/
theorem makeCodeTable_iff :
    Correct c.codelen (makeCodeTable heuristic allocates c.codelen c.maxQuickBits) ↔
      kraft c.codelen 15 ≤ 2 ^ 15 ∨ allocates = false := by
  constructor
  · intro h
    cases allocates with
    | false => exact .inr rfl
    | true =>
      left
      cases hcall : makeCodeTable heuristic true c.codelen c.maxQuickBits with
      | none =>
        rw [hcall] at h
        exact h.elim
      | some table => exact kraft_le_of_makeCodeTable c heuristic hcall
  · rintro (hkraft | rfl)
    · exact makeCodeTable_correct c heuristic allocates hkraft
    · exact trivial

end Calls

/-- Three codes of one bit, as a dynamic block can ask for. -/
def threeShortCodes : CodeLengths := ⟨[1, 1, 1], 6, by decide, by decide⟩

/-- The third one is `2^15`, which is looked up behind the end of `reverse5`. -/
theorem not_correct_threeShortCodes :
    ¬ Correct threeShortCodes.codelen
      (makeCodeTable true true threeShortCodes.codelen threeShortCodes.maxQuickBits) := by
  have hcall : makeCodeTable true true threeShortCodes.codelen threeShortCodes.maxQuickBits =
      none := by
    decide
  rw [hcall]
  exact not_false

end CldcVm.Inflate
