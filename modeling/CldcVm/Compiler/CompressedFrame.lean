import CldcVm.Compiler.RelocationStream

/-!
# Compressed frames in the stream

`emit_vsf` groups the locations of a frame by their registers and marks the last
one of each register. The reader skips the groups of the registers in the list,
each up to its mark.

Result: `skipRegisters_payload`: the reader skips what `emit_vsf` has emitted.
-/

namespace CldcVm.Compiler.CompressedFrame

open Lib
open Function (update update_of_ne update_self)

variable {locations : List MappedLocation}

/-- The words that the locations of a register take. -/
def registerSize (locations : List MappedLocation) (r : ℕ) : ℕ :=
  ((locations.filter fun loc => loc.register.val == r).map fun loc => locationSize loc.index).sum

/-- The words that the registers before `r` take. -/
def groupStart (locations : List MappedLocation) : ℕ → ℕ
  | 0 => 0
  | r + 1 => groupStart locations r + registerSize locations r

theorem locationSize_pos (index : ℕ) : 0 < locationSize index := by
  unfold locationSize
  split_ifs <;> omega

theorem registerSize_cons (loc : MappedLocation) (r : ℕ) : registerSize (loc :: locations) r =
      (if loc.register.val = r then locationSize loc.index else 0) + registerSize locations r := by
  unfold registerSize
  rw [List.filter_cons]
  by_cases h : loc.register.val = r
  · simp [h]
  · simp [h]

theorem testBit_registerList (r : ℕ) :
    (registerList locations).testBit r = decide (0 < registerSize locations r) := by
  have hfold : ∀ n, (locations.foldl (fun (regList : ℕ) (loc : MappedLocation) =>
        regList ||| 2 ^ loc.register.val) n).testBit r =
      (n.testBit r || decide (0 < registerSize locations r)) := by
    induction locations with
    | nil => simp [registerSize]
    | cons loc locations ih =>
      intro n
      rw [List.foldl_cons, ih, Nat.testBit_or, Nat.testBit_two_pow, registerSize_cons, Bool.or_assoc]
      congr 1
      by_cases h : loc.register.val = r
      · have := locationSize_pos loc.index
        simp [h, this]
      · simp [h]
  unfold registerList
  rw [hfold]
  simp

/-! ## The positions of the groups -/

theorem countLocations_apply (r : ℕ) :
    countLocations locations (r + 1) = -registerSize locations r ∧ countLocations locations 0 = 0 := by
  have hfold : ∀ f : ℕ → ℤ, locations.foldl (fun (regLocation : ℕ → ℤ) (loc : MappedLocation) =>
        update regLocation (loc.register.val + 1)
          (regLocation (loc.register.val + 1) - locationSize loc.index)) f (r + 1) =
        f (r + 1) - registerSize locations r ∧
      locations.foldl (fun (regLocation : ℕ → ℤ) (loc : MappedLocation) =>
        update regLocation (loc.register.val + 1)
          (regLocation (loc.register.val + 1) - locationSize loc.index)) f 0 = f 0 := by
    induction locations with
    | nil => simp [registerSize]
    | cons loc locations ih =>
      intro f
      rw [List.foldl_cons, (ih _).1, (ih _).2, registerSize_cons,
        update_of_ne (Nat.succ_ne_zero _).symm]
      by_cases h : loc.register.val = r
      · rw [h, update_self, if_pos rfl]
        push_cast
        exact ⟨by ring, rfl⟩
      · rw [update_of_ne (fun he => h (Nat.succ.inj he).symm), if_neg h, Nat.zero_add]
        exact ⟨rfl, rfl⟩
  unfold countLocations
  rw [(hfold _).1, (hfold _).2]
  simp

variable {r : ℕ}

/-- After the loop, `reg_location` has the start of every group. -/
theorem sumLocations_apply (hr : r ≤ 16) :
    sumLocations (countLocations locations) r = -groupStart locations r := by
  have hfold : ∀ n ≤ 16, ∀ r, (List.range n).foldl (fun (regLocation : ℕ → ℤ) i =>
        update regLocation (i + 1) (regLocation (i + 1) + regLocation i))
        (countLocations locations) r =
      if r ≤ n then -(groupStart locations r : ℤ) else countLocations locations r := by
    intro n hn
    induction n with
    | zero =>
      intro r
      cases r with
      | zero => simpa [groupStart] using (countLocations_apply 0).2
      | succ r => simp
    | succ n ih =>
      intro r
      rw [List.range_succ, List.foldl_append, List.foldl_cons, List.foldl_nil]
      rcases Nat.lt_trichotomy r (n + 1) with hlt | rfl | hgt
      · rw [update_of_ne hlt.ne, ih (by omega), if_pos (by omega), if_pos (by omega)]
      · rw [update_self, ih (by omega), ih (by omega), if_neg (by omega), if_pos le_rfl,
          if_pos le_rfl, (countLocations_apply n).1]
        show _ = -((groupStart locations n + registerSize locations n : ℕ) : ℤ)
        push_cast
        ring
      · rw [update_of_ne hgt.ne', ih (by omega), if_neg (by omega), if_neg (by omega)]
  unfold sumLocations
  rw [hfold 16 le_rfl, if_pos hr]

/-! ## The words of the pool -/

/-- After the second pass, `reg_location` has the end of every group. -/
theorem fillLocation_regLocation (pool : Pool) (r : ℕ) :
    (locations.foldl fillLocation pool).regLocation r =
      pool.regLocation r - registerSize locations r := by
  induction locations generalizing pool with
  | nil => simp [registerSize]
  | cons loc locations ih =>
    have hstep : (fillLocation pool loc).regLocation r = pool.regLocation r -
        (if loc.register.val = r then locationSize loc.index else 0 : ℕ) := by
      unfold fillLocation locationSize
      by_cases h : loc.register.val = r
      · subst h
        rw [if_pos rfl]
        split_ifs
        · simp
        · simp only [update_self]
          push_cast
          ring
      · rw [if_neg h]
        split_ifs <;> simp [update_of_ne (Ne.symm h)]
    rw [List.foldl_cons, ih, hstep, registerSize_cons]
    push_cast
    ring

/-- A ushort without the mark. -/
def Unmarked (word : ℕ) : Prop := word.testBit 13 = false ∧ word < 2 ^ 16

theorem unmarked_of_lt {word : ℕ} (h : word < 2 ^ 13) : Unmarked word :=
  ⟨Nat.testBit_lt_two_pow h, by omega⟩

theorem unmarked_upper {index : ℕ} (h : index < 2 ^ 17) : Unmarked (4096 ||| index >>> 12) := by
  refine unmarked_of_lt (Nat.or_lt_two_pow (by norm_num) ?_)
  rw [Nat.shiftRight_eq_div_pow]
  omega

theorem unmarked_lower (index : ℕ) : Unmarked (index &&& 0xcfff) := by
  constructor
  · rw [Nat.testBit_and, show Nat.testBit 0xcfff 13 = false by decide, Bool.and_false]
  · exact Nat.and_lt_two_pow _ (by norm_num)

theorem Unmarked.update {words : ℤ → ℕ} (h : ∀ i, Unmarked (words i)) (j : ℤ) {word : ℕ}
    (hword : Unmarked word) (i : ℤ) : Unmarked (update words j word i) := by
  rcases eq_or_ne i j with rfl | hi
  · rwa [update_self]
  · rw [update_of_ne hi]
    exact h i

theorem unmarked_fillLocation (pool : Pool) (h : ∀ i, Unmarked (pool.words i)) (i : ℤ) :
    Unmarked ((locations.foldl fillLocation pool).words i) := by
  induction locations generalizing pool with
  | nil => exact h i
  | cons loc locations ih =>
    refine ih _ fun j => ?_
    unfold fillLocation
    split_ifs with hsmall
    · exact Unmarked.update h _ (unmarked_of_lt (by omega)) j
    · exact Unmarked.update (Unmarked.update h _ (unmarked_upper loc.index_lt)) _
        (unmarked_lower loc.index) j

theorem markLast_spec (regList : ℕ) (pool : Pool) (h : ∀ i, Unmarked (pool.words i)) (i : ℤ) :
    ((markLast regList pool i).testBit 13 = true ↔
        ∃ r < 16, regList.testBit r = true ∧ pool.regLocation r = i) ∧
      markLast regList pool i < 2 ^ 16 := by
  let mark (words : ℤ → ℕ) (r : ℕ) : ℤ → ℕ :=
    if regList.testBit r then
      update words (pool.regLocation r) (words (pool.regLocation r) ||| 0x2000)
    else words
  have hfold : ∀ n, (((List.range n).foldl mark pool.words i).testBit 13 = true ↔
          ∃ r < n, regList.testBit r = true ∧ pool.regLocation r = i) ∧
        (List.range n).foldl mark pool.words i < 2 ^ 16 := by
    intro n
    induction n with
    | zero =>
      obtain ⟨hbit, hlt⟩ := h i
      refine ⟨?_, hlt⟩
      simp [hbit]
    | succ n ih =>
      obtain ⟨hbit, hlt⟩ := ih
      have hexists : (∃ r < n + 1, regList.testBit r = true ∧ pool.regLocation r = i) ↔
          (∃ r < n, regList.testBit r = true ∧ pool.regLocation r = i) ∨
            (regList.testBit n = true ∧ pool.regLocation n = i) := by
        simp only [Nat.lt_succ_iff_lt_or_eq, or_and_right, exists_or, exists_eq_left]
      rw [List.range_succ, List.foldl_append, List.foldl_cons, List.foldl_nil, hexists]
      generalize (List.range n).foldl mark pool.words = words at hbit hlt
      simp only [mark]
      split_ifs with hlist
      · rcases eq_or_ne i (pool.regLocation n) with rfl | hi
        · rw [update_self, Nat.testBit_or, show Nat.testBit 0x2000 13 = true by decide,
            Bool.or_true]
          exact ⟨iff_of_true rfl (.inr ⟨hlist, rfl⟩), Nat.or_lt_two_pow hlt (by norm_num)⟩
        · rw [update_of_ne hi, hbit]
          exact ⟨⟨.inl, fun he => he.resolve_right fun hn => hi hn.2.symm⟩, hlt⟩
      · rw [hbit]
        exact ⟨⟨.inl, fun he => he.resolve_right fun hn => hlist hn.1⟩, hlt⟩
  exact hfold 16

theorem groupStart_mono (locations : List MappedLocation) : Monotone (groupStart locations) :=
  monotone_nat_of_le_succ fun _ => Nat.le_add_right _ _

theorem poolWords_spec (locations : List MappedLocation) {j : ℕ}
    (hj : j < groupStart locations 16) :
    ∃ word, (poolWords locations)[j]? = some word ∧ word < 2 ^ 16 ∧ (word.testBit 13 = true ↔
        ∃ r < 16, 0 < registerSize locations r ∧ groupStart locations (r + 1) = j + 1) := by
  let pool := locations.foldl fillLocation ⟨sumLocations (countLocations locations), fun _ => 0⟩
  have hunmarked : ∀ i, Unmarked (pool.words i) :=
    unmarked_fillLocation _ fun _ => unmarked_of_lt (by norm_num)
  obtain ⟨hbit, hlt⟩ := markLast_spec (registerList locations) pool hunmarked (-(j + 1 : ℤ))
  have hend : ∀ r < 16, pool.regLocation r = -(groupStart locations (r + 1) : ℤ) := by
    intro r hr
    rw [fillLocation_regLocation]
    simp only
    rw [sumLocations_apply hr.le]
    show _ = -((groupStart locations r + registerSize locations r : ℕ) : ℤ)
    push_cast
    ring
  refine ⟨markLast (registerList locations) pool (-(j + 1 : ℤ)), ?_, hlt, ?_⟩
  · unfold poolWords
    simp only
    rw [List.getElem?_map, sumLocations_apply le_rfl, List.getElem?_range (by omega)]
    rfl
  · rw [hbit]
    refine exists_congr fun r => and_congr_right fun hr => ?_
    rw [hend r hr, testBit_registerList, decide_eq_true_iff]
    exact and_congr_right fun _ => by omega

theorem length_poolWords (locations : List MappedLocation) :
    (poolWords locations).length = groupStart locations 16 := by
  unfold poolWords
  simp only
  rw [List.length_map, List.length_range, sumLocations_apply le_rfl]
  omega

/-! ## The first words -/

theorem registerSize_eq_zero (h : ∀ loc ∈ locations, loc.register.val ≠ r) :
    registerSize locations r = 0 := by
  unfold registerSize
  rw [List.filter_eq_nil_iff.mpr fun loc hloc => by simpa using h loc hloc]
  rfl

/-- No location is mapped to `gp`, `jsp` or `pc`. -/
theorem registerSize_reserved (locations : List MappedLocation) :
    registerSize locations 5 = 0 ∧ registerSize locations 6 = 0 ∧
      ∀ r ≥ 15, registerSize locations r = 0 := by
  refine ⟨registerSize_eq_zero fun loc _ => loc.register.property.2.1,
    registerSize_eq_zero fun loc _ => loc.register.property.2.2,
    fun r hr => registerSize_eq_zero fun loc _ => ?_⟩
  have := loc.register.property.1
  omega

theorem registerList_lt (locations : List MappedLocation) : registerList locations < 2 ^ 15 := by
  refine Nat.lt_pow_two_of_testBit _ fun i hi => ?_
  rw [testBit_registerList, (registerSize_reserved locations).2.2 i hi]
  rfl

/-- The difference of the stack pointers and its sign, above the register list. -/
def spBits (spDelta : ℤ) : ℕ :=
  if spDelta < 0 then 2 ^ 15 ||| min (-spDelta).toNat 3 <<< 5 else min spDelta.toNat 3 <<< 5

/-- The first word has the register list, and a second one follows where the
difference does not fit. -/
theorem spWords_eq (regList : ℕ) (spDelta : ℤ) :
    spWords regList spDelta = (regList ||| spBits spDelta) ::
      if 3 ≤ spDelta.natAbs then [spDelta.natAbs % 65536] else [] := by
  unfold spWords spBits
  split_ifs with h1 h2 h3 h4 h5 h6 h7
  all_goals first | omega | skip
  · rw [show min spDelta.toNat 3 = 3 by omega, show spDelta.toNat = spDelta.natAbs by omega]
  · rw [show min spDelta.toNat 3 = spDelta.toNat by omega]
  · rw [show min (-spDelta).toNat 3 = (-spDelta).toNat by omega, Nat.or_assoc]
  · rw [show min (-spDelta).toNat 3 = 3 by omega, Nat.or_assoc,
      show (-spDelta).toNat = spDelta.natAbs by omega]

/-- The reader finds the register list under `reg_mask`. -/
theorem testBit_spBits (spDelta : ℤ) (hr : r ∈ RelocationReader.mapRegisters) :
    (spBits spDelta).testBit r = false := by
  unfold spBits
  have hmin : ∀ n, min n 3 = 0 ∨ min n 3 = 1 ∨ min n 3 = 2 ∨ min n 3 = 3 := by omega
  split_ifs
  · rcases hmin (-spDelta).toNat with h | h | h | h <;> rw [h] <;> revert r <;> decide
  · rcases hmin spDelta.toNat with h | h | h | h <;> rw [h] <;> revert r <;> decide

/-- Both bits of `sp_mask` are set where a second word follows. -/
theorem testBit_spBits_mask (spDelta : ℤ) :
    ((spBits spDelta).testBit 5 && (spBits spDelta).testBit 6) = decide (3 ≤ spDelta.natAbs) := by
  unfold spBits
  rcases lt_or_ge spDelta.natAbs 3 with h | h
  · have hsmall : spDelta = -2 ∨ spDelta = -1 ∨ spDelta = 0 ∨ spDelta = 1 ∨ spDelta = 2 := by omega
    rcases hsmall with rfl | rfl | rfl | rfl | rfl <;> decide
  · rw [decide_eq_true h]
    split_ifs
    · rw [show min (-spDelta).toNat 3 = 3 by omega]
      decide
    · rw [show min spDelta.toNat 3 = 3 by omega]
      decide

theorem spBits_lt (spDelta : ℤ) : spBits spDelta < 65536 := by
  unfold spBits
  have hmin : ∀ n, min n 3 = 0 ∨ min n 3 = 1 ∨ min n 3 = 2 ∨ min n 3 = 3 := by omega
  split_ifs
  · rcases hmin (-spDelta).toNat with h | h | h | h <;> rw [h] <;> decide
  · rcases hmin spDelta.toNat with h | h | h | h <;> rw [h] <;> decide

theorem payload_lt (spDelta : ℤ) (locations : List MappedLocation) :
    ∀ word ∈ payload spDelta locations, word < 65536 := by
  intro word hword
  unfold payload at hword
  rw [List.mem_append, spWords_eq, List.mem_cons] at hword
  rcases hword with (rfl | hword) | hword
  · have hlist := registerList_lt locations
    exact Nat.or_lt_two_pow (n := 16) (by omega) (spBits_lt spDelta)
  · split_ifs at hword
    · rw [List.mem_singleton] at hword
      omega
    · cases hword
  · obtain ⟨j, hj, hget⟩ := List.mem_iff_getElem.mp hword
    rw [length_poolWords] at hj
    obtain ⟨word', hget', hlt, -⟩ := poolWords_spec locations hj
    have hsame : word' = word := (List.getElem?_eq_some_iff.mp hget').2.symm.trans hget
    rw [← hsame]
    exact hlt

/-! ## The reader over a frame -/

section Reader

open RelocationReader

variable {w : ℕ → ℕ}

variable {fuel position : ℕ}

/-- The loop stops behind the first mark. -/
theorem skipRegister_eq {n : ℕ} (hfuel : n < fuel)
    (hbefore : ∀ k < n, (w (position + k)).testBit 13 = false)
    (hlast : (w (position + n)).testBit 13 = true) :
    skipRegister w fuel position = some (position + n + 1) := by
  induction n generalizing fuel position with
  | zero =>
    obtain ⟨fuel, rfl⟩ : ∃ k, fuel = k + 1 := ⟨fuel - 1, by omega⟩
    unfold skipRegister
    rw [Nat.add_zero] at hlast ⊢
    rw [if_pos hlast]
  | succ n ih =>
    obtain ⟨fuel, rfl⟩ : ∃ k, fuel = k + 1 := ⟨fuel - 1, by omega⟩
    have hfirst := hbefore 0 (by omega)
    rw [Nat.add_zero] at hfirst
    unfold skipRegister
    rw [if_neg (by rw [hfirst]; decide), ih (by omega) ?_ ?_]
    · congr 1
      omega
    · intro k hk
      rw [Nat.add_assoc, Nat.add_comm 1]
      exact hbefore (k + 1) (by omega)
    · rw [Nat.add_assoc, Nat.add_comm 1]
      exact hlast

theorem skipRegister_group (hpool : Holds w position (poolWords locations))
    (hfuel : groupStart locations 16 ≤ fuel) (hr : r < 16) (hpos : 0 < registerSize locations r) :
    skipRegister w fuel (position + groupStart locations r) =
      some (position + groupStart locations (r + 1)) := by
  have hsucc : groupStart locations (r + 1) = groupStart locations r + registerSize locations r := rfl
  have hend : groupStart locations (r + 1) ≤ groupStart locations 16 := groupStart_mono locations hr
  have hword : ∀ k < registerSize locations r,
      (w (position + groupStart locations r + k)).testBit 13 = true ↔
        ∃ r' < 16, 0 < registerSize locations r' ∧
          groupStart locations (r' + 1) = groupStart locations r + k + 1 := by
    intro k hk
    obtain ⟨word, hget, -, hbit⟩ := poolWords_spec locations
      (j := groupStart locations r + k) (by omega)
    rw [Nat.add_assoc, hpool _ _ hget]
    exact hbit
  rw [skipRegister_eq (n := registerSize locations r - 1) (by omega) ?_ ?_]
  · congr 1
    omega
  · intro k hk
    rw [Bool.eq_false_iff]
    intro hmark
    obtain ⟨r', hr', hpos', hend'⟩ := (hword k (by omega)).mp hmark
    -- the groups before end at the start of this one, the other ones end behind it
    rcases lt_or_ge r' r with hlt | hge
    · have : groupStart locations (r' + 1) ≤ groupStart locations r := groupStart_mono locations hlt
      omega
    · have : groupStart locations (r + 1) ≤ groupStart locations (r' + 1) :=
        groupStart_mono locations (by omega)
      omega
  · exact (hword _ (by omega)).mpr ⟨r, hr, hpos, by omega⟩

/-- **Run lemma**: the registers of the list are skipped with their groups. -/
theorem skipRegisters_groups {n : ℕ} (regList : ℕ)
    (hpool : Holds w position (poolWords locations)) (hfuel : groupStart locations 16 ≤ fuel)
    (hlist : ∀ r ∈ mapRegisters, regList.testBit r = decide (0 < registerSize locations r))
    (r : ℕ) (hr : r + n = 16) :
    skipRegisters w fuel regList ((List.range' r n).filter (· ∈ mapRegisters))
      (position + groupStart locations r) = some (position + groupStart locations 16) := by
  induction n generalizing r with
  | zero =>
    obtain rfl : r = 16 := by omega
    rfl
  | succ n ih =>
    rw [List.range'_succ, List.filter_cons]
    split_ifs with hmem
    · rw [decide_eq_true_eq] at hmem
      unfold skipRegisters
      rw [hlist r hmem]
      rcases Nat.eq_zero_or_pos (registerSize locations r) with hzero | hpos
      · rw [hzero, if_neg (by decide), ← ih (r + 1) (by omega)]
        show _ = skipRegisters w fuel regList _
          (position + (groupStart locations r + registerSize locations r))
        rw [hzero]
        rfl
      · rw [if_pos (decide_eq_true hpos), skipRegister_group hpool hfuel (by omega) hpos]
        exact ih (r + 1) (by omega)
    · have hzero : registerSize locations r = 0 := by
        obtain ⟨h5, h6, h15⟩ := registerSize_reserved locations
        have hreserved : r = 5 ∨ r = 6 ∨ r = 15 := by
          rw [decide_eq_true_eq] at hmem
          unfold mapRegisters at hmem
          simp only [List.mem_cons, List.not_mem_nil, or_false, not_or] at hmem
          omega
        rcases hreserved with rfl | rfl | rfl
        · exact h5
        · exact h6
        · exact h15 15 le_rfl
      rw [← ih (r + 1) (by omega)]
      show _ = skipRegisters w fuel regList _
        (position + (groupStart locations r + registerSize locations r))
      rw [hzero]
      rfl

/-- The reader skips what `emit_vsf` has emitted. -/
theorem skipRegisters_payload {spDelta : ℤ} (h : Holds w (position + 1) (payload spDelta locations))
    (hfuel : (payload spDelta locations).length ≤ fuel) : advance w fuel .compressedVsf position =
      some (position + 1 + (payload spDelta locations).length) := by
  unfold payload at h hfuel ⊢
  obtain ⟨hsp, hpool⟩ := holds_append.mp h
  rw [spWords_eq] at hsp
  have hfirst : w (position + 1) = registerList locations ||| spBits spDelta := (holds_cons.mp hsp).1
  have hmask : ((w (position + 1)).testBit 5 && (w (position + 1)).testBit 6) =
      decide (3 ≤ spDelta.natAbs) := by
    obtain ⟨h5, h6, -⟩ := registerSize_reserved locations
    rw [hfirst, Nat.testBit_or, Nat.testBit_or, testBit_registerList, testBit_registerList, h5, h6,
      ← testBit_spBits_mask]
    simp
  have hlength : (position + if (w (position + 1)).testBit 5 && (w (position + 1)).testBit 6
      then 3 else 2) = position + 1 + (spWords (registerList locations) spDelta).length := by
    rw [hmask, spWords_eq]
    split_ifs with h1 h2 h3 <;> simp_all
  rw [List.length_append, length_poolWords] at hfuel ⊢
  have hrun := skipRegisters_groups (n := 16) (w (position + 1)) hpool
    (show groupStart locations 16 ≤ fuel by omega) (fun r hr => by
      rw [hfirst, Nat.testBit_or, testBit_spBits spDelta hr, Bool.or_false, testBit_registerList])
    0 rfl
  unfold advance
  rw [if_neg (by decide), if_neg (by decide), if_pos rfl]
  simp only
  rw [hlength, ← Nat.add_assoc, ← hrun]
  rfl

end Reader

end CldcVm.Compiler.CompressedFrame
