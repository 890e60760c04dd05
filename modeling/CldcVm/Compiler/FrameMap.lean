import CldcVm.Compiler.CompressedFrame

/-!
# The map of a compressed frame

The pool of `emit_vsf` as a list of words: the locations of every register one after the
other, in the order of the frame, with a mark at the last word of each register.

Results:
* `holds_group`: where the words of a register are, and what they are.
* `forLocations_group`, `forRegisters_pool`: a decoder goes over exactly the locations that were
  mapped, register by register.
-/

namespace CldcVm.Compiler.CompressedFrame

open Lib
open Function (update update_of_ne update_self)

variable {locations : List MappedLocation}

/-! ## The words of a location -/

/-- The words of one location, without a mark. -/
def encodeLocation (index : ℕ) : List ℕ :=
  if index < 4096 then [index] else [4096 ||| index >>> 12, index &&& 0xcfff]

/-- The indices of the locations that are mapped to a register, in the order of the frame. -/
def registerIndices (locations : List MappedLocation) (r : ℕ) : List ℕ :=
  (locations.filter fun loc => loc.register.val == r).map MappedLocation.index

/-- The words of a register: those of its locations, the last one with the mark. -/
def markedWord (words : List ℕ) (k : ℕ) : Option ℕ :=
  words[k]?.map fun word => if k + 1 = words.length then word ||| 0x2000 else word

theorem length_encodeLocation (index : ℕ) : (encodeLocation index).length = locationSize index := by
  unfold encodeLocation locationSize
  split <;> rfl

theorem registerIndices_cons (loc : MappedLocation) (r : ℕ) : registerIndices (loc :: locations) r =
      if loc.register.val = r then loc.index :: registerIndices locations r
      else registerIndices locations r := by
  unfold registerIndices
  by_cases h : loc.register.val = r
  · simp [h]
  · simp [h]

theorem length_groupWords (locations : List MappedLocation) (r : ℕ) :
    ((registerIndices locations r).flatMap encodeLocation).length = registerSize locations r := by
  induction locations with
  | nil => rfl
  | cons loc locations ih =>
    rw [registerIndices_cons, registerSize_cons]
    by_cases h : loc.register.val = r
    · rw [if_pos h, if_pos h, List.flatMap_cons, List.length_append, length_encodeLocation, ih]
    · rw [if_neg h, if_neg h, ih, Nat.zero_add]

/-! ## The second pass -/

/-- The ranges of the pool that the registers fill do not overlap. -/
def RangesDisjoint (locations : List MappedLocation) (regLocation : ℕ → ℤ) : Prop :=
  ∀ r r', r ≠ r' → 0 < registerSize locations r → 0 < registerSize locations r' →
    regLocation r ≤ regLocation r' - registerSize locations r' ∨
      regLocation r' ≤ regLocation r - registerSize locations r

theorem fillLocation_words (pool : Pool) (loc : MappedLocation) :
    (∀ (k : ℕ) (word : ℕ), (encodeLocation loc.index)[k]? = some word →
      (fillLocation pool loc).words (pool.regLocation loc.register.val - 1 - k) = word) ∧
    (∀ j : ℤ, ¬(pool.regLocation loc.register.val - locationSize loc.index ≤ j ∧
        j < pool.regLocation loc.register.val) → (fillLocation pool loc).words j = pool.words j) ∧
    ∀ r, (fillLocation pool loc).regLocation r =
      pool.regLocation r - if loc.register.val = r then locationSize loc.index else 0 := by
  unfold fillLocation encodeLocation locationSize
  by_cases hsmall : loc.index < 4096
  · simp only [if_pos hsmall]
    refine ⟨fun k word hk => ?_, fun j hj => ?_, fun r => ?_⟩
    · match k with
      | 0 =>
        rw [show pool.regLocation loc.register.val - 1 - ((0 : ℕ) : ℤ) =
          pool.regLocation loc.register.val - 1 by omega, update_self]
        simpa using hk
      | k + 1 => simp at hk
    · rw [update_of_ne (by push_cast at hj; omega)]
    · by_cases hr : loc.register.val = r
      · subst hr
        simp
      · simp [hr, Ne.symm hr]
  · simp only [if_neg hsmall]
    refine ⟨fun k word hk => ?_, fun j hj => ?_, fun r => ?_⟩
    · match k with
      | 0 =>
        rw [show pool.regLocation loc.register.val - 1 - ((0 : ℕ) : ℤ) =
          pool.regLocation loc.register.val - 1 by omega, update_of_ne (by omega),
          update_self]
        simpa using hk
      | 1 =>
        rw [show pool.regLocation loc.register.val - 1 - ((1 : ℕ) : ℤ) =
          pool.regLocation loc.register.val - 1 - 1 by omega, update_self]
        simpa using hk
      | k + 2 => simp at hk
    · rw [update_of_ne (by push_cast at hj; omega),
        update_of_ne (by push_cast at hj; omega)]
    · by_cases hr : loc.register.val = r
      · subst hr
        simp only [update_self, if_pos]
        push_cast
        ring
      · simp [hr, Ne.symm hr]

theorem RangesDisjoint.tail {loc : MappedLocation} {pool : Pool}
    (h : RangesDisjoint (loc :: locations) pool.regLocation) :
    RangesDisjoint locations (fillLocation pool loc).regLocation := by
  intro r r' hne hpos hpos'
  have hreg := (fillLocation_words pool loc).2.2
  have hsize := fun r => @registerSize_cons locations loc r
  have hdisjoint := h r r' hne (by rw [hsize]; omega) (by rw [hsize]; omega)
  rw [hsize, hsize] at hdisjoint
  rw [hreg, hreg]
  push_cast at hdisjoint ⊢
  omega

/-- **Run lemma.** The second pass writes the words of each register below its position, from
above, and nothing else. -/
theorem fill_words (pool : Pool) (h : RangesDisjoint locations pool.regLocation) :
    (∀ r (k : ℕ) (word : ℕ), ((registerIndices locations r).flatMap encodeLocation)[k]? = some word →
      (locations.foldl fillLocation pool).words (pool.regLocation r - 1 - k) = word) ∧
    ∀ j : ℤ, (∀ r, ¬(pool.regLocation r - registerSize locations r ≤ j ∧ j < pool.regLocation r)) →
      (locations.foldl fillLocation pool).words j = pool.words j := by
  induction locations generalizing pool with
  | nil => exact ⟨fun r k word hk => by simp [registerIndices] at hk, fun _ _ => rfl⟩
  | cons loc locations ih =>
    obtain ⟨hwrite, hframe, hreg⟩ := fillLocation_words pool loc
    obtain ⟨hwords, hrest⟩ := ih (fillLocation pool loc) h.tail
    have hsize := fun r => @registerSize_cons locations loc r
    rw [List.foldl_cons]
    refine ⟨fun r k word hk => ?_, fun j hj => ?_⟩
    · rw [registerIndices_cons] at hk
      by_cases hr : loc.register.val = r
      · subst hr
        rw [if_pos rfl, List.flatMap_cons] at hk
        by_cases hlow : k < locationSize loc.index
        · -- The words of this location are in the range of its register, so that they stay.
          rw [List.getElem?_append_left (by rwa [length_encodeLocation])] at hk
          rw [hrest _ fun r => ?_, hwrite k word hk]
          rw [hreg]
          by_cases hr : loc.register.val = r
          · subst hr
            rw [if_pos rfl]
            omega
          · rw [if_neg hr]
            by_cases hpos : 0 < registerSize locations r
            · have hdisjoint := h loc.register.val r hr (by rw [hsize, if_pos rfl]; omega)
                (by rw [hsize]; omega)
              rw [hsize, hsize, if_pos rfl, if_neg hr] at hdisjoint
              push_cast at hdisjoint ⊢
              omega
            · omega
        · rw [List.getElem?_append_right (by rw [length_encodeLocation]; omega),
            length_encodeLocation] at hk
          have hword := hwords loc.register.val _ word hk
          rw [hreg, if_pos rfl] at hword
          rw [← hword]
          congr 1
          push_cast [Nat.cast_sub (Nat.le_of_not_lt hlow)]
          omega
      · rw [if_neg hr] at hk
        have hword := hwords r k word hk
        rw [hreg, if_neg hr] at hword
        rw [← hword]
        congr 1
        push_cast
        omega
    · rw [hrest j fun r => ?_, hframe j ?_]
      · have hnot := hj loc.register.val
        rw [hsize, if_pos rfl] at hnot
        push_cast at hnot
        omega
      · have hnot := hj r
        rw [hsize] at hnot
        rw [hreg]
        push_cast at hnot ⊢
        omega

theorem markLast_apply (regList : ℕ) (pool : Pool) (j : ℤ) : markLast regList pool j =
    if ∃ r < 16, regList.testBit r = true ∧ pool.regLocation r = j then pool.words j ||| 0x2000
    else pool.words j := by
  have hfold : ∀ n, (List.range n).foldl (fun (words : ℤ → ℕ) i =>
      if regList.testBit i then
        update words (pool.regLocation i) (words (pool.regLocation i) ||| 0x2000)
      else words) pool.words j =
      if ∃ r < n, regList.testBit r = true ∧ pool.regLocation r = j then pool.words j ||| 0x2000
      else pool.words j := by
    intro n
    induction n with
    | zero => simp
    | succ n ih =>
      have hexists : (∃ r < n + 1, regList.testBit r = true ∧ pool.regLocation r = j) ↔
          (∃ r < n, regList.testBit r = true ∧ pool.regLocation r = j) ∨
            (regList.testBit n = true ∧ pool.regLocation n = j) := by
        simp only [Nat.lt_succ_iff_lt_or_eq, or_and_right, exists_or, exists_eq_left]
      rw [List.range_succ, List.foldl_append, List.foldl_cons, List.foldl_nil]
      by_cases hlist : regList.testBit n = true
      · rw [if_pos hlist]
        by_cases hj : pool.regLocation n = j
        · rw [if_pos (hexists.mpr (.inr ⟨hlist, hj⟩)), ← hj, update_self, hj, ih]
          split
          · rw [Nat.or_assoc, Nat.or_self]
          · rfl
        · rw [update_of_ne (Ne.symm hj), ih]
          simp only [hexists, hj, and_false, or_false]
      · rw [if_neg hlist, ih]
        simp only [hexists, hlist, Bool.false_eq_true, false_and, or_false]
  exact hfold 16

/-! ## The pool -/

variable {r : ℕ}

theorem lt_of_registerSize_pos (h : 0 < registerSize locations r) : r < 15 := by
  by_contra hr
  have hzero := (registerSize_reserved locations).2.2 r (by omega)
  omega

theorem rangesDisjoint_sum (locations : List MappedLocation) :
    RangesDisjoint locations (sumLocations (countLocations locations)) := by
  have hordered : ∀ r r', r < r' → r' < 15 → sumLocations (countLocations locations) r' ≤
        sumLocations (countLocations locations) r - registerSize locations r := by
    intro r r' hlt hr'
    have hmono : groupStart locations (r + 1) ≤ groupStart locations r' :=
      groupStart_mono locations hlt
    rw [groupStart] at hmono
    rw [sumLocations_apply (by omega), sumLocations_apply (by omega)]
    omega
  intro r r' hne hpos hpos'
  obtain hlt | hgt := Nat.lt_or_gt_of_ne hne
  · exact .inr (hordered r r' hlt (lt_of_registerSize_pos hpos'))
  · exact .inl (hordered r' r hgt (lt_of_registerSize_pos hpos))

/-- A word is the last one of some group just if it is the last one of its own. -/
theorem exists_group_end_iff {k : ℕ} (hr : r < 16) (hk : k < registerSize locations r) :
    (∃ r' < 16, 0 < registerSize locations r' ∧
      groupStart locations (r' + 1) = groupStart locations r + k + 1) ↔
        k + 1 = registerSize locations r := by
  constructor
  · rintro ⟨r', -, hpos, hend⟩
    rw [groupStart] at hend
    obtain hlt | rfl | hgt := Nat.lt_trichotomy r' r
    · have hmono : groupStart locations (r' + 1) ≤ groupStart locations r :=
        groupStart_mono locations hlt
      rw [groupStart] at hmono
      omega
    · omega
    · have hmono : groupStart locations (r + 1) ≤ groupStart locations r' :=
        groupStart_mono locations hgt
      rw [groupStart] at hmono
      omega
  · intro hlast
    refine ⟨r, hr, by omega, ?_⟩
    rw [groupStart]
    omega

variable {position : ℕ}

/-- **Spec lemma.** The words of a register in the pool. -/
theorem holds_group {w : ℕ → ℕ} (hpool : Holds w position (poolWords locations))
    (hr : r < 16) (k word : ℕ)
    (hk : markedWord ((registerIndices locations r).flatMap encodeLocation) k = some word) :
    w (position + groupStart locations r + k) = word := by
  obtain ⟨raw, hraw, hmark⟩ := Option.map_eq_some_iff.mp hk
  have hlt : k < registerSize locations r := by
    rw [← length_groupWords]
    exact (List.getElem?_eq_some_iff.mp hraw).1
  have hend : groupStart locations (r + 1) ≤ groupStart locations 16 := groupStart_mono locations hr
  rw [groupStart] at hend
  set pool : Pool := ⟨sumLocations (countLocations locations), fun _ => 0⟩ with hpool_eq
  have hword := (fill_words pool (rangesDisjoint_sum locations)).1 r k raw hraw
  have hposition : pool.regLocation r - 1 - k = -((groupStart locations r + k : ℕ) + 1 : ℤ) := by
    show sumLocations (countLocations locations) r - 1 - k = _
    rw [sumLocations_apply hr.le]
    push_cast
    ring
  have hlast : (∃ r' < 16, (registerList locations).testBit r' = true ∧
      (locations.foldl fillLocation pool).regLocation r' =
        -((groupStart locations r + k : ℕ) + 1 : ℤ)) ↔ k + 1 = registerSize locations r := by
    rw [← exists_group_end_iff hr hlt]
    refine exists_congr fun r' => and_congr_right fun hr' => ?_
    rw [testBit_registerList, decide_eq_true_iff, fillLocation_regLocation]
    refine and_congr_right fun _ => ?_
    show sumLocations (countLocations locations) r' - registerSize locations r' = _ ↔ _
    rw [sumLocations_apply hr'.le, groupStart]
    omega
  have hget : (poolWords locations)[groupStart locations r + k]? = some word := by
    unfold poolWords
    simp only
    rw [List.getElem?_map, sumLocations_apply le_rfl, List.getElem?_range (by omega), Option.map_some,
      markLast_apply]
    rw [length_groupWords] at hmark
    rw [hposition] at hword
    simp only [← hpool_eq, hlast, hword, hmark]
  rw [Nat.add_assoc]
  exact hpool _ _ hget

/-! ## Decoding -/

section Decoding

open RelocationReader

variable {σ : Type} (w : ℕ → ℕ)

/-- `do { ... } while (!(*pool & Relocation::last_mask))` of `vsf_flush_do` and
`vsf_restore_do` (`VirtualStackFrame.cpp`, lines 3198–3209 and 3256–3267): every location of
one register. -/
def forLocations (f : ℕ → σ → σ) : (fuel position : ℕ) → σ → Option (σ × ℕ)
  | 0, _, _ => none
  | fuel + 1, position, s =>
    let location := w position &&& 0xcfff
    if (w position).testBit 12 then
      let s := f (location <<< 12 ||| (w (position + 1) &&& 0xcfff)) s
      if (w (position + 1)).testBit 13 then some (s, position + 2)
      else forLocations f fuel (position + 2) s
    else
      let s := f location s
      if (w position).testBit 13 then some (s, position + 1)
      else forLocations f fuel (position + 1) s

/-- The loop over the register list around it. -/
def forRegisters (f : ℕ → ℕ → σ → σ) (fuel regList : ℕ) :
    (registers : List ℕ) → (position : ℕ) → σ → Option (σ × ℕ)
  | [], position, s => some (s, position)
  | r :: registers, position, s =>
    if regList.testBit r then
      match forLocations w (f r) fuel position s with
      | none => none
      | some (s, position) => forRegisters f fuel regList registers position s
    else forRegisters f fuel regList registers position s

variable {w}

theorem testBit_locationMask (n : ℕ) :
    Nat.testBit 0xcfff n = (decide (n < 12) || decide (n = 14) || decide (n = 15)) := by
  by_cases hn : n < 16
  · interval_cases n <;> rfl
  · rw [Nat.testBit_lt_two_pow (lt_of_lt_of_le (by norm_num : 0xcfff < 2 ^ 16)
      (Nat.pow_le_pow_right (by norm_num) (by omega)))]
    simp only [decide_eq_false (show ¬n < 12 by omega), decide_eq_false (show ¬n = 14 by omega),
      decide_eq_false (show ¬n = 15 by omega), Bool.or_false]

theorem or_mark_and_locationMask (x : ℕ) : (x ||| 0x2000) &&& 0xcfff = x &&& 0xcfff := by
  rw [Nat.and_or_distrib_right, show 0x2000 &&& 0xcfff = 0 from rfl, Nat.or_zero]

variable {i : ℕ}

theorem small_and_locationMask (h : i < 4096) : i &&& 0xcfff = i := by
  apply Nat.eq_of_testBit_eq
  intro n
  rw [Nat.testBit_and, testBit_locationMask]
  by_cases hn : n < 12
  · simp [hn]
  · have hzero : i.testBit n = false := Nat.testBit_lt_two_pow (lt_of_lt_of_le h
      (show 2 ^ 12 ≤ 2 ^ n from Nat.pow_le_pow_right (by norm_num) (by omega)))
    rw [hzero, Bool.false_and]

theorem join_location (i : ℕ) : (i >>> 12) <<< 12 ||| (i &&& 0xcfff) = i := by
  apply Nat.eq_of_testBit_eq
  intro n
  rw [Nat.testBit_or, Nat.testBit_shiftLeft, Nat.testBit_shiftRight, Nat.testBit_and,
    testBit_locationMask]
  by_cases hn : n < 12
  · simp [hn, show ¬n ≥ 12 by omega]
  · rw [decide_eq_true (show n ≥ 12 by omega), Bool.true_and, Nat.add_sub_cancel' (by omega)]
    cases i.testBit n <;> simp

theorem upper_and_locationMask (h : i < 2 ^ 17) :
    (4096 ||| i >>> 12) &&& 0xcfff = i >>> 12 ∧ (4096 ||| i >>> 12).testBit 12 = true := by
  have hall : ∀ x < 32, (4096 ||| x) &&& 0xcfff = x ∧ (4096 ||| x).testBit 12 = true := by decide
  apply hall
  rw [Nat.shiftRight_eq_div_pow]
  omega

theorem testBit_mark (x : ℕ) : (x ||| 0x2000).testBit 13 = true ∧
    (x ||| 0x2000).testBit 12 = x.testBit 12 := by
  rw [Nat.testBit_or, Nat.testBit_or, show Nat.testBit 0x2000 13 = true by decide,
    show Nat.testBit 0x2000 12 = false by decide, Bool.or_true, Bool.or_false]
  exact ⟨rfl, rfl⟩

theorem markedWord_append (l l' : List ℕ) (k : ℕ) :
    markedWord (l ++ l') (l.length + k) = markedWord l' k := by
  rw [markedWord, markedWord, List.getElem?_append_right (by omega), Nat.add_sub_cancel_left,
    List.length_append]
  have hlast : l.length + k + 1 = l.length + l'.length ↔ k + 1 = l'.length := by omega
  simp only [hlast]

/-- The words at a position are those of some locations of a register. -/
def HoldsGroup (w : ℕ → ℕ) (position : ℕ) (is : List ℕ) : Prop :=
  ∀ k word, markedWord (is.flatMap encodeLocation) k = some word → w (position + k) = word

theorem flatMap_encodeLocation_ne_nil {is : List ℕ} (h : is ≠ []) :
    0 < (is.flatMap encodeLocation).length := by
  match is with
  | [] => exact absurd rfl h
  | i :: is =>
    have hpos := locationSize_pos i
    rw [List.flatMap_cons, List.length_append, length_encodeLocation]
    omega

theorem HoldsGroup.cons {position i : ℕ} {is : List ℕ} (h : HoldsGroup w position (i :: is)) :
    (∀ k word, (encodeLocation i)[k]? = some word → w (position + k) =
      if is = [] ∧ k + 1 = locationSize i then word ||| 0x2000 else word) ∧
      HoldsGroup w (position + locationSize i) is := by
  constructor
  · intro k word hk
    apply h
    have hlt : k < (encodeLocation i).length := (List.getElem?_eq_some_iff.mp hk).1
    rw [List.flatMap_cons, markedWord, List.getElem?_append_left hlt, hk, Option.map_some,
      List.length_append, length_encodeLocation]
    by_cases hnil : is = []
    · simp [hnil]
    · have hpos := flatMap_encodeLocation_ne_nil hnil
      rw [length_encodeLocation] at hlt
      rw [if_neg (by omega), if_neg (fun hand => hnil hand.1)]
  · intro k word hk
    rw [Nat.add_assoc]
    apply h
    rw [List.flatMap_cons, ← length_encodeLocation, markedWord_append, hk]

variable {fuel : ℕ}

/-- **Run lemma.** A decoder goes over the locations of a register in their order, and stops
behind the last one. -/
theorem forLocations_group (f : ℕ → σ → σ) {is : List ℕ} (hne : is ≠ [])
    (hlt : ∀ i ∈ is, i < 2 ^ 17) (h : HoldsGroup w position is) (hfuel : is.length ≤ fuel) (s : σ) :
    forLocations w f fuel position s =
      some (is.foldl (fun s i => f i s) s, position + (is.flatMap encodeLocation).length) := by
  induction is generalizing fuel position s with
  | nil => exact absurd rfl hne
  | cons i is ih =>
    obtain ⟨fuel, rfl⟩ : ∃ n, fuel = n + 1 := ⟨fuel - 1, by rw [List.length_cons] at hfuel; omega⟩
    obtain ⟨hfirst, hrest⟩ := h.cons
    rw [List.length_cons, Nat.add_le_add_iff_right] at hfuel
    rw [List.flatMap_cons, List.length_append, length_encodeLocation, List.foldl_cons]
    rw [forLocations]
    by_cases hsmall : i < 4096
    · have hsize : locationSize i = 1 := if_pos hsmall
      have hword := hfirst 0 i (by rw [encodeLocation, if_pos hsmall]; rfl)
      have hlow : i.testBit 12 = false := Nat.testBit_lt_two_pow hsmall
      rw [Nat.add_zero, hsize] at hword
      by_cases hnil : is = []
      · rw [if_pos ⟨hnil, rfl⟩] at hword
        simp only [hword, testBit_mark, hlow, or_mark_and_locationMask,
          small_and_locationMask hsmall, Bool.false_eq_true, if_false, if_true]
        simp [hnil, hsize]
      · rw [if_neg (fun hand => hnil hand.1)] at hword
        have hmark : i.testBit 13 = false := (unmarked_of_lt (by omega : i < 2 ^ 13)).1
        simp only [hword, hmark, hlow, small_and_locationMask hsmall, Bool.false_eq_true, if_false]
        rw [hsize] at hrest
        rw [ih hnil (fun j hj => hlt j (List.mem_cons_of_mem _ hj)) hrest hfuel, hsize,
          Nat.add_assoc]
    · have hsize : locationSize i = 2 := if_neg hsmall
      have hindex := hlt i List.mem_cons_self
      have hupper := hfirst 0 (4096 ||| i >>> 12) (by rw [encodeLocation, if_neg hsmall]; rfl)
      have hlower := hfirst 1 (i &&& 0xcfff) (by rw [encodeLocation, if_neg hsmall]; rfl)
      rw [Nat.add_zero, hsize, if_neg (by omega)] at hupper
      rw [hsize] at hlower
      obtain ⟨hlocation, hlarge⟩ := upper_and_locationMask hindex
      by_cases hnil : is = []
      · rw [if_pos ⟨hnil, rfl⟩] at hlower
        simp only [hupper, hlower, hlarge, hlocation, testBit_mark, or_mark_and_locationMask,
          Nat.and_assoc, Nat.and_self, join_location, if_true]
        simp [hnil, hsize]
      · rw [if_neg (fun hand => hnil hand.1)] at hlower
        simp only [hupper, hlower, hlarge, hlocation, (unmarked_lower i).1, Nat.and_assoc,
          Nat.and_self, join_location, if_true, Bool.false_eq_true, if_false]
        rw [hsize] at hrest
        rw [ih hnil (fun j hj => hlt j (List.mem_cons_of_mem _ hj)) hrest hfuel, hsize,
          Nat.add_assoc]

/-- The locations as a decoder goes over them: register by register. -/
def mapped (locations : List MappedLocation) (registers : List ℕ) : List (ℕ × ℕ) :=
  registers.flatMap fun r => (registerIndices locations r).map fun i => (r, i)

theorem mem_mapped {registers : List ℕ} : (r, i) ∈ mapped locations registers ↔
    r ∈ registers ∧ ∃ loc ∈ locations, loc.register.val = r ∧ loc.index = i := by
  simp only [mapped, registerIndices, List.mem_flatMap, List.mem_map, List.mem_filter,
    beq_iff_eq, Prod.mk.injEq]
  constructor
  · rintro ⟨r', hr', i', ⟨loc, ⟨hloc, hreg⟩, hindex⟩, rfl, rfl⟩
    exact ⟨hr', loc, hloc, hreg, hindex⟩
  · rintro ⟨hr, loc, hloc, hreg, hindex⟩
    exact ⟨r, hr, i, ⟨loc, ⟨hloc, hreg⟩, hindex⟩, rfl, rfl⟩

theorem registerIndices_lt (h : i ∈ registerIndices locations r) : i < 2 ^ 17 := by
  obtain ⟨loc, -, rfl⟩ := List.mem_map.mp h
  exact loc.index_lt

theorem registerIndices_eq_nil_iff :
    registerIndices locations r = [] ↔ registerSize locations r = 0 := by
  rw [← length_groupWords]
  constructor
  · intro h
    rw [h]
    rfl
  · intro h
    by_contra hne
    have hpos := flatMap_encodeLocation_ne_nil hne
    omega

/-- The registers that `reg_mask` leaves out have no locations. -/
theorem registerSize_of_not_mem {r : ℕ} (hr : r < 16) (h : r ∉ mapRegisters) :
    registerSize locations r = 0 := by
  obtain ⟨h5, h6, h15⟩ := registerSize_reserved locations
  have hreserved : r = 5 ∨ r = 6 ∨ r = 15 := by
    unfold mapRegisters at h
    simp only [List.mem_cons, List.not_mem_nil, or_false, not_or] at h
    omega
  obtain rfl | rfl | rfl := hreserved
  · exact h5
  · exact h6
  · exact h15 15 le_rfl

theorem length_registerIndices_le (locations : List MappedLocation) (r : ℕ) :
    (registerIndices locations r).length ≤ registerSize locations r := by
  rw [← length_groupWords]
  induction registerIndices locations r with
  | nil => exact le_rfl
  | cons i is ih =>
    have hpos := locationSize_pos i
    rw [List.flatMap_cons, List.length_append, length_encodeLocation, List.length_cons]
    omega

/-- **Run lemma.** A decoder goes over the groups of the pool. -/
theorem forRegisters_groups (f : ℕ → ℕ → σ → σ) {n : ℕ} (regList : ℕ)
    (hpool : Holds w position (poolWords locations)) (hfuel : groupStart locations 16 ≤ fuel)
    (hlist : ∀ r ∈ mapRegisters, regList.testBit r = decide (0 < registerSize locations r))
    (r : ℕ) (hr : r + n = 16) (s : σ) :
    forRegisters w f fuel regList ((List.range' r n).filter (· ∈ mapRegisters))
        (position + groupStart locations r) s =
      some ((mapped locations ((List.range' r n).filter (· ∈ mapRegisters))).foldl
        (fun s e => f e.1 e.2 s) s, position + groupStart locations 16) := by
  induction n generalizing r s with
  | zero =>
    obtain rfl : r = 16 := by omega
    rfl
  | succ n ih =>
    have hnext : position + groupStart locations (r + 1) =
        position + groupStart locations r + registerSize locations r := by
      rw [groupStart, Nat.add_assoc]
    rw [List.range'_succ, List.filter_cons]
    by_cases hmem : r ∈ mapRegisters
    · rw [if_pos (decide_eq_true hmem), forRegisters, hlist r hmem, mapped, List.flatMap_cons,
        List.foldl_append, List.foldl_map]
      by_cases hpos : 0 < registerSize locations r
      · have hne : registerIndices locations r ≠ [] := by
          rw [Ne, registerIndices_eq_nil_iff]
          omega
        have hmono : groupStart locations (r + 1) ≤ groupStart locations 16 :=
          groupStart_mono locations (by omega)
        rw [groupStart] at hmono
        have hlength := length_registerIndices_le locations r
        rw [if_pos (decide_eq_true hpos), forLocations_group (f r) hne
          (fun i hi => registerIndices_lt hi) (holds_group hpool (by omega)) (by omega),
          length_groupWords, ← hnext]
        exact ih (r + 1) (by omega) _
      · have hzero : registerSize locations r = 0 := by omega
        rw [if_neg (by simp [hzero]), registerIndices_eq_nil_iff.mpr hzero,
          show position + groupStart locations r = position + groupStart locations (r + 1) by omega,
          List.foldl_nil]
        exact ih (r + 1) (by omega) s
    · rw [if_neg (by simp [hmem])]
      have hzero := @registerSize_of_not_mem locations r (by omega) hmem
      rw [show position + groupStart locations r = position + groupStart locations (r + 1) by omega]
      exact ih (r + 1) (by omega) s

/-- **Spec lemma.** Over the pool of `emit_vsf` a decoder goes over all the locations that were
mapped. -/
theorem forRegisters_pool (f : ℕ → ℕ → σ → σ) {regList : ℕ}
    (hpool : Holds w position (poolWords locations)) (hfuel : groupStart locations 16 ≤ fuel)
    (hlist : ∀ r ∈ mapRegisters, regList.testBit r = decide (0 < registerSize locations r))
    (s : σ) : forRegisters w f fuel regList mapRegisters position s =
      some ((mapped locations mapRegisters).foldl (fun s e => f e.1 e.2 s) s,
        position + groupStart locations 16) :=
  forRegisters_groups (n := 16) f regList hpool hfuel hlist 0 rfl s

end Decoding

end CldcVm.Compiler.CompressedFrame
