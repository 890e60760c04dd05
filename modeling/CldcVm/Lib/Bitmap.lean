import Mathlib.Data.BitVec

/-!
# Bitmaps

A set of numbers as an array of words, one bit a number. An access outside the array has no
result.

Results:

* `getBit_setBit`: setting a bit changes this bit alone.
* `Represents.setBit`: it adds its number to the set that the bitmap stands for.
* `mem_commonBits`: the bits two bitmaps have in common are the intersection of their sets.
-/

namespace CldcVm.Lib

/-- An array of words of 32 bits. -/
abbrev Bitmap := List (BitVec 32)

namespace Bitmap

/-- The bitmap without any bit set. -/
def empty (words : ℕ) : Bitmap := List.replicate words 0

/-- `map[i / 32] & (1 << i % 32)`. -/
def getBit (map : Bitmap) (i : ℕ) : Option Bool :=
  (map[i / 32]?).map fun word => word &&& BitVec.twoPow 32 (i % 32) != 0

/-- `map[i / 32] |= 1 << i % 32`. -/
def setBit (map : Bitmap) (i : ℕ) : Option Bitmap :=
  (map[i / 32]?).map fun word => map.set (i / 32) (word ||| BitVec.twoPow 32 (i % 32))

theorem and_twoPow_ne_zero (word : BitVec 32) {k : ℕ} (hk : k < 32) :
    (word &&& BitVec.twoPow 32 k != 0) = word.getLsbD k := by
  have htwo : BitVec.twoPow 32 k ≠ 0 := by
    intro hzero
    have hbit := congrArg (fun w : BitVec 32 => w.getLsbD k) hzero
    simp [hk] at hbit
  rw [BitVec.and_twoPow]
  cases word.getLsbD k with
  | false => simp
  | true => simpa using htwo

variable {map map' : Bitmap} {i j : ℕ}

theorem getBit_eq (map : Bitmap) (i : ℕ) :
    map.getBit i = (map[i / 32]?).map fun word => word.getLsbD (i % 32) := by
  unfold getBit
  congr 1
  funext word
  exact and_twoPow_ne_zero word (Nat.mod_lt i (by decide))

theorem setBit_isSome (h : i < 32 * map.length) : (map.setBit i).isSome := by
  unfold setBit
  rw [Option.isSome_map, List.getElem?_eq_getElem (by omega)]
  rfl

theorem setBit_eq_none (h : 32 * map.length ≤ i) : map.setBit i = none := by
  unfold setBit
  rw [List.getElem?_eq_none (by omega), Option.map_none]

theorem length_setBit (h : map.setBit i = some map') : map'.length = map.length := by
  obtain ⟨word, -, rfl⟩ := Option.map_eq_some_iff.mp h
  rw [List.length_set]

theorem getBit_setBit (h : map.setBit i = some map') (j : ℕ) :
    map'.getBit j = if j = i then some true else map.getBit j := by
  obtain ⟨word, hword, rfl⟩ := Option.map_eq_some_iff.mp h
  obtain ⟨hlt, hget⟩ := List.getElem?_eq_some_iff.mp hword
  rw [getBit_eq, getBit_eq, List.getElem?_set]
  by_cases hsame : i / 32 = j / 32
  · rw [if_pos hsame, if_pos (hsame ▸ hlt), ← hsame, hword, Option.map_some, Option.map_some,
      BitVec.getLsbD_or, BitVec.getLsbD_twoPow]
    have hmod : i % 32 < 32 := Nat.mod_lt i (by decide)
    by_cases hij : j = i
    · subst hij
      simp [hmod]
    · have hne : i % 32 ≠ j % 32 := by omega
      simp [hne, hij]
  · rw [if_neg hsame, if_neg (by rintro rfl; exact hsame rfl)]

/-! ## The set of a bitmap -/

/-- The bits that are set are those of the numbers in the set. -/
def Represents (map : Bitmap) (s : Finset ℕ) : Prop :=
  ∀ i < 32 * map.length, map.getBit i = some (decide (i ∈ s))

theorem represents_empty (words : ℕ) : Represents (empty words) ∅ := by
  intro i hi
  unfold empty at hi ⊢
  rw [List.length_replicate] at hi
  rw [getBit_eq, List.getElem?_replicate, if_pos (by omega), Option.map_some]
  simp

theorem Represents.setBit {s : Finset ℕ} (h : Represents map s) (hset : map.setBit i = some map') :
    Represents map' (insert i s) := by
  intro j hj
  rw [length_setBit hset] at hj
  rw [getBit_setBit hset, h j hj]
  split_ifs with hij
  · simp [hij]
  · simp [hij]

/-! ## Setting several bits -/

/-- The bits of the list are set one by one. -/
def setBits (map : Bitmap) (l : List ℕ) : Option Bitmap := l.foldlM setBit map

theorem setBits_append (map : Bitmap) (l l' : List ℕ) :
    map.setBits (l ++ l') = (map.setBits l).bind fun map' => map'.setBits l' :=
  List.foldlM_append

/-- As long as the bitmap has room, its numbers are added to the set; one number beyond it and
there is no result. -/
theorem setBits_spec {s : Finset ℕ} (h : Represents map s) (l : List ℕ) :
    if ∀ i ∈ l, i < 32 * map.length then
      ∃ map', map.setBits l = some map' ∧ map'.length = map.length ∧ Represents map' (s ∪ l.toFinset)
    else map.setBits l = none := by
  induction l generalizing map s with
  | nil =>
    rw [if_pos (by simp)]
    exact ⟨map, rfl, rfl, by simpa using h⟩
  | cons i l ih =>
    have hstep : map.setBits (i :: l) = (map.setBit i).bind fun map' => map'.setBits l := rfl
    rcases Nat.lt_or_ge i (32 * map.length) with hlt | hge
    · obtain ⟨map', hmap⟩ := Option.isSome_iff_exists.mp (setBit_isSome hlt)
      have hlen := length_setBit hmap
      have hrest := ih (h.setBit hmap)
      rw [hstep, hmap, Option.bind_some]
      rw [hlen] at hrest
      have hiff : (∀ k ∈ i :: l, k < 32 * map.length) ↔ ∀ k ∈ l, k < 32 * map.length := by
        simp [hlt]
      by_cases hall : ∀ k ∈ l, k < 32 * map.length
      · rw [if_pos hall] at hrest
        rw [if_pos (hiff.mpr hall)]
        obtain ⟨map'', hset, hlen', hrep⟩ := hrest
        refine ⟨map'', hset, hlen', ?_⟩
        convert hrep using 1
        ext k
        simp
      · rw [if_neg hall] at hrest
        rw [if_neg (fun h => hall (hiff.mp h))]
        exact hrest
    · rw [if_neg (fun hall => absurd (hall i List.mem_cons_self) (by omega)), hstep,
        setBit_eq_none hge, Option.bind_none]

/-! ## The common bits of two bitmaps -/

/-- The positions of the bits of a word, lowest first:
`for (; word; word >>= 1) { if (word & 1) …; offset++; }`. A word has `fuel` bits. -/
def bitOffsets : (fuel : ℕ) → (word : BitVec 32) → (offset : ℕ) → List ℕ
  | 0, _, _ => []
  | fuel + 1, word, offset =>
    if word = 0 then []
    else if word &&& 1 ≠ 0 then offset :: bitOffsets fuel (word >>> 1) (offset + 1)
    else bitOffsets fuel (word >>> 1) (offset + 1)

theorem and_one_ne_zero (word : BitVec 32) : word &&& 1 ≠ 0 ↔ word.getLsbD 0 = true := by
  have h := and_twoPow_ne_zero word (show 0 < 32 by decide)
  rw [← h]
  simp [BitVec.twoPow]

theorem mem_bitOffsets {fuel : ℕ} {word : BitVec 32} {offset k : ℕ} :
    k ∈ bitOffsets fuel word offset ↔
      offset ≤ k ∧ k < offset + fuel ∧ word.getLsbD (k - offset) = true := by
  induction fuel generalizing word offset with
  | zero =>
    simp only [bitOffsets, List.not_mem_nil, false_iff]
    omega
  | succ fuel ih =>
    have hshift : ∀ h : offset + 1 ≤ k,
        (word >>> 1).getLsbD (k - (offset + 1)) = word.getLsbD (k - offset) := by
      intro h
      rw [BitVec.getLsbD_ushiftRight]
      congr 1
      omega
    have hrest : k ∈ bitOffsets fuel (word >>> 1) (offset + 1) ↔
        offset + 1 ≤ k ∧ k < offset + (fuel + 1) ∧ word.getLsbD (k - offset) = true := by
      rw [ih]
      constructor
      · rintro ⟨h, hlt, hbit⟩
        exact ⟨h, by omega, hshift h ▸ hbit⟩
      · rintro ⟨h, hlt, hbit⟩
        exact ⟨h, by omega, (hshift h).symm ▸ hbit⟩
    rw [bitOffsets]
    split_ifs with hzero hone
    · simp [hzero]
    · rw [List.mem_cons, hrest]
      have hbit := (and_one_ne_zero word).mp hone
      constructor
      · rintro (rfl | ⟨h, hlt, hk⟩)
        · exact ⟨le_rfl, by omega, by rwa [Nat.sub_self]⟩
        · exact ⟨by omega, hlt, hk⟩
      · rintro ⟨h, hlt, hk⟩
        rcases Nat.eq_or_lt_of_le h with heq | hlt'
        · exact .inl heq.symm
        · exact .inr ⟨hlt', hlt, hk⟩
    · rw [hrest]
      have hbit : ¬ word.getLsbD 0 = true := fun h => hone ((and_one_ne_zero word).mpr h)
      constructor
      · rintro ⟨h, hlt, hk⟩
        exact ⟨by omega, hlt, hk⟩
      · rintro ⟨h, hlt, hk⟩
        rcases Nat.eq_or_lt_of_le h with heq | hlt'
        · rw [heq, Nat.sub_self] at hk
          exact absurd hk hbit
        · exact ⟨hlt', hlt, hk⟩

theorem nodup_bitOffsets (fuel : ℕ) (word : BitVec 32) (offset : ℕ) :
    (bitOffsets fuel word offset).Nodup := by
  induction fuel generalizing word offset with
  | zero => exact List.nodup_nil
  | succ fuel ih =>
    rw [bitOffsets]
    split_ifs with hzero hone
    · exact List.nodup_nil
    · rw [List.nodup_cons, mem_bitOffsets]
      exact ⟨by omega, ih _ _⟩
    · exact ih _ _

/-- The numbers whose bits are set in both bitmaps, in increasing order. -/
def commonBits (map map' : Bitmap) : List ℕ :=
  (List.range map.length).flatMap fun i =>
    (bitOffsets 32 (map.getD i 0 &&& map'.getD i 0) 0).map fun offset => i * 32 + offset

theorem getLsbD_getD_of_represents {s : Finset ℕ} (h : Represents map s) {k offset : ℕ}
    (hk : k < map.length) (hoffset : offset < 32) :
    (map.getD k 0).getLsbD offset = decide (k * 32 + offset ∈ s) := by
  have hbit := h (k * 32 + offset) (by omega)
  rw [getBit_eq, show (k * 32 + offset) / 32 = k by omega,
    show (k * 32 + offset) % 32 = offset by omega, List.getElem?_eq_getElem hk,
    Option.map_some] at hbit
  rw [List.getD_eq_getElem?_getD, List.getElem?_eq_getElem hk, Option.getD_some]
  exact Option.some.inj hbit

/-- **Spec lemma**: the common bits are the intersection of the two sets. -/
theorem mem_commonBits {s t : Finset ℕ} (h : Represents map s) (h' : Represents map' t)
    (hlen : map'.length = map.length) :
    i ∈ commonBits map map' ↔ i < 32 * map.length ∧ i ∈ s ∩ t := by
  unfold commonBits
  simp only [List.mem_flatMap, List.mem_range, List.mem_map, mem_bitOffsets, Finset.mem_inter]
  constructor
  · rintro ⟨k, hk, offset, ⟨-, hlt, hbit⟩, rfl⟩
    rw [BitVec.getLsbD_and, Bool.and_eq_true, Nat.sub_zero,
      getLsbD_getD_of_represents h hk (by omega),
      getLsbD_getD_of_represents h' (hlen ▸ hk) (by omega), decide_eq_true_eq,
      decide_eq_true_eq] at hbit
    exact ⟨by omega, hbit⟩
  · rintro ⟨hlt, hs, ht⟩
    have hsplit : i / 32 * 32 + i % 32 = i := by omega
    refine ⟨i / 32, by omega, i % 32, ⟨Nat.zero_le _, by omega, ?_⟩, hsplit⟩
    rw [BitVec.getLsbD_and, Bool.and_eq_true, Nat.sub_zero,
      getLsbD_getD_of_represents h (by omega) (by omega),
      getLsbD_getD_of_represents h' (by omega) (by omega), decide_eq_true_eq,
      decide_eq_true_eq, hsplit]
    exact ⟨hs, ht⟩

theorem nodup_commonBits (map map' : Bitmap) : (commonBits map map').Nodup := by
  unfold commonBits
  rw [List.nodup_flatMap]
  constructor
  · intro k _
    exact (nodup_bitOffsets _ _ _).map fun a b h => Nat.add_left_cancel h
  · refine List.nodup_range.imp fun {a b} hab => ?_
    -- two words have no number in common
    simp only [Function.onFun, List.Disjoint, List.mem_map, mem_bitOffsets]
    rintro x ⟨o, ⟨-, ho, -⟩, rfl⟩ ⟨o', ⟨-, ho', -⟩, heq⟩
    omega

end Bitmap

end CldcVm.Lib
