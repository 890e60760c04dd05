import CldcVm.Inflate.CodeTable
import CldcVm.Lib.BitStream

/-!
# The loop that fills a code table

The loop of `Inflater::make_code_table` over the symbols (`runtime/Inflate.cpp`,
lines 685–729), for a layout whose sizes are right (`ValidLayout`) and codes that fit into 15 bits.
`order` lists the prefixes that have got a long table, in the order of the tables.

Results:

* `strideFill_spec`: which entries an inner loop sets.
* `TableInv.longTableFor`, `TableInv.putQuick`, `TableInv.putLong`: what one symbol does.
* `insertCodes_spec`: after the loop every entry is the one of the codeword that its index begins
  with.
* `TableInv.getHuffmanEntry`: the lookup finds this codeword.
-/

namespace CldcVm.Inflate

open Lib Lib.CanonicalCode

/-! ## The tables of reversed bits -/

theorem reverse5_getElem? {c : ℕ} (h : c < 32) : reverse5[c]? = some (reverseBits 5 c) := by
  have key : ∀ c < 32, reverse5[c]? = some (reverseBits 5 c) := by decide +kernel
  exact key c h

theorem reverse15bits_eq {code : ℕ} (h : code < 2 ^ 15) :
    reverse15bits code = some (reverseBits 15 code) := by
  have hand : ∀ x : ℕ, x &&& 0x1f = x % 2 ^ 5 := fun x => Nat.and_two_pow_sub_one_eq_mod x 5
  have hlow : code % 2 ^ 5 < 32 := Nat.mod_lt _ (by decide)
  have hmiddle : code / 2 ^ 5 % 2 ^ 5 < 32 := Nat.mod_lt _ (by decide)
  have hhigh : code / 2 ^ 10 < 32 := by omega
  have hsplit : reverseBits 15 code =
      2 ^ 10 * reverseBits 5 code + (2 ^ 5 * reverseBits 5 (code / 2 ^ 5) +
        reverseBits 5 (code / 2 ^ 10)) := by
    rw [show 15 = 5 + 10 from rfl, reverseBits_add 5 10, show 10 = 5 + 5 from rfl,
      reverseBits_add 5 5]
    ring
  have hr0 := reverseBits_lt 5 (code / 2 ^ 10)
  have hr1 := reverseBits_lt 5 (code / 2 ^ 5)
  unfold reverse15bits
  simp only [hand, Nat.shiftRight_eq_div_pow, reverse5_getElem? hlow, reverse5_getElem? hmiddle,
    reverse5_getElem? hhigh, Option.bind_eq_bind, Option.bind_some, Option.pure_def,
    reverseBits_mod_two_pow]
  rw [hsplit, Nat.or_assoc, ← Nat.shiftLeft_add_eq_or_of_lt hr0, Nat.shiftLeft_eq _ 5,
    ← Nat.shiftLeft_add_eq_or_of_lt (by omega), Nat.shiftLeft_eq]
  congr 1
  ring

/-- A code of more than 15 bits is looked up outside the table. -/
theorem reverse15bits_eq_none {code : ℕ} (h : 2 ^ 15 ≤ code) : reverse15bits code = none := by
  have hlen : reverse5.length = 32 := rfl
  have hhigh : reverse5[code >>> 10]? = none := by
    rw [List.getElem?_eq_none]
    rw [hlen, Nat.shiftRight_eq_div_pow]
    omega
  unfold reverse15bits
  rw [hhigh]
  cases reverse5[code &&& 0x1f]? with
  | none => rfl
  | some a =>
    cases reverse5[(code >>> 5) &&& 0x1f]? with
    | none => rfl
    | some b => rfl

/-! ## The inner loops -/

/-- **Spec lemma**: the entries `j`, `j + stride`, … before the limit are set. -/
theorem strideFill_spec {huff base limit stride : ℕ} (hstride : 0 < stride) {fuel j : ℕ}
    {entries : List ℕ} (hfuel : limit ≤ j + fuel) (hlen : base + limit ≤ entries.length) :
    ∃ entries', strideFill huff base limit stride fuel j entries = some entries' ∧
      entries'.length = entries.length ∧ ∀ index, entries'[index]? =
        if base + j ≤ index ∧ index < base + limit ∧ (index - (base + j)) % stride = 0 then some huff
        else entries[index]? := by
  induction fuel generalizing j entries with
  | zero =>
    refine ⟨entries, rfl, rfl, fun index => ?_⟩
    rw [if_neg (by omega)]
  | succ fuel ih =>
    rw [strideFill]
    by_cases hj : j < limit
    · rw [if_pos hj, if_pos (by omega)]
      obtain ⟨entries', hfill, hlen', hget⟩ := @ih (j + stride) (entries.set (base + j) huff)
        (by omega) (by rw [List.length_set]; exact hlen)
      refine ⟨entries', hfill, hlen'.trans (List.length_set ..), fun index => ?_⟩
      rw [hget, List.getElem?_set]
      by_cases hin : index < base + limit
      · rcases Nat.lt_trichotomy index (base + j) with hlt | heq | hgt
        · rw [if_neg (by omega), if_neg (by omega), if_neg (by omega)]
        · subst heq
          rw [if_neg (by omega), if_pos rfl, if_pos (by omega),
            if_pos ⟨le_rfl, hin, by rw [Nat.sub_self, Nat.zero_mod]⟩]
        · -- the rest of the progression
          have hshift : base + (j + stride) ≤ index →
              (index - (base + (j + stride))) % stride = (index - (base + j)) % stride := by
            intro hle
            rw [show index - (base + j) = index - (base + (j + stride)) + stride by omega,
              Nat.add_mod_right]
          by_cases hle : base + (j + stride) ≤ index
          · rw [hshift hle]
            by_cases hmod : (index - (base + j)) % stride = 0
            · rw [if_pos ⟨hle, hin, hmod⟩, if_pos ⟨by omega, hin, hmod⟩]
            · rw [if_neg (fun h => hmod h.2.2), if_neg (by omega), if_neg (fun h => hmod h.2.2)]
          · rw [if_neg (by omega), if_neg (by omega), if_neg]
            rintro ⟨-, -, hmod⟩
            rw [Nat.mod_eq_of_lt (by omega)] at hmod
            omega
      · rw [if_neg (by omega), if_neg (by omega), if_neg (by omega)]
    · rw [if_neg hj]
      refine ⟨entries, rfl, rfl, fun index => ?_⟩
      rw [if_neg (by omega)]

theorem strideFill_residue {huff base limit stride c : ℕ} {entries : List ℕ} (hc : c < stride)
    (hlen : base + limit ≤ entries.length) :
    ∃ entries', strideFill huff base limit stride limit c entries = some entries' ∧
      entries'.length = entries.length ∧ (∀ k < limit, entries'[base + k]? =
        if k % stride = c then some huff else entries[base + k]?) ∧
      ∀ index, index < base ∨ base + limit ≤ index → entries'[index]? = entries[index]? := by
  obtain ⟨entries', hfill, hlen', hget⟩ :=
    @strideFill_spec huff base limit stride (by omega) limit c entries (by omega) hlen
  refine ⟨entries', hfill, hlen', fun k hk => ?_, fun index hindex => ?_⟩
  · rw [hget]
    by_cases hmod : k % stride = c
    · have hle : c ≤ k := hmod ▸ Nat.mod_le k stride
      have hzero : (base + k - (base + c)) % stride = 0 := by
        rw [show base + k - (base + c) = k - c by omega, ← hmod]
        exact Nat.sub_mod_eq_zero_of_mod_eq (Nat.mod_mod k stride).symm
      rw [if_pos hmod, if_pos ⟨by omega, by omega, hzero⟩]
    · rw [if_neg hmod, if_neg]
      rintro ⟨hle, -, hzero⟩
      apply hmod
      have hsplit : k = (base + k - (base + c)) + c := by omega
      rw [hsplit, Nat.add_mod, hzero, Nat.zero_add, Nat.mod_mod, Nat.mod_eq_of_lt hc]
  · rw [hget, if_neg (by omega)]

/-! ## What the entries are to be -/

/-- Sizes that are right for the lengths: the long tables have room for every prefix that is left,
and their distances fit into 15 bits. -/
structure ValidLayout (codelen : List ℕ) (lay : Layout) : Prop where
  maxCodeLen_le : lay.maxCodeLen ≤ 15
  len_le : ∀ i, len codelen i ≤ lay.maxCodeLen
  quickBits_le : lay.quickBits ≤ lay.maxCodeLen
  main_eq : lay.mainTableLength = 2 ^ lay.quickBits
  codes_eq : ∀ bits, 0 < bits → bits ≤ lay.maxCodeLen →
    lay.codes bits = firstStart codelen 15 bits
  longLength_eq : lay.quickBits < lay.maxCodeLen →
    lay.longTableLength = 2 ^ (lay.maxCodeLen - lay.quickBits)
  numLong_eq : lay.quickBits < lay.maxCodeLen → lay.numLongTables =
    2 ^ lay.quickBits - firstStart codelen 15 (lay.quickBits + 1) / 2 ^ (15 - lay.quickBits)
  numEntries_eq : lay.numEntries = lay.mainTableLength + lay.numLongTables * lay.longTableLength
  delta_le : lay.quickBits < lay.maxCodeLen →
    2 ^ lay.quickBits * 2 ^ (15 - lay.maxCodeLen) +
      (kraft codelen 15 - firstStart codelen 15 (lay.quickBits + 1)) ≤
      16382 * 2 ^ (15 - lay.maxCodeLen)

/-- The codeword of a symbol with its bits reversed: the lowest bits of a bit string that begins
with it. -/
def rev (codelen : List ℕ) (i : ℕ) : ℕ := reverseBits 15 (start codelen 15 i)

/-- The entry of the one among the first `i` symbols that has the property. -/
def cell (codelen : List ℕ) (P : ℕ → Bool) (i : ℕ) : ℕ :=
  ((List.range i).find? P).elim 0 fun j => huffOf j (len codelen j)

/-- The index `p` begins with the codeword of the symbol, which has quick bits only. -/
def shortMatch (codelen : List ℕ) (quickBits p j : ℕ) : Bool :=
  decide (0 < len codelen j) && decide (len codelen j ≤ quickBits) &&
    decide (p % 2 ^ len codelen j = rev codelen j)

/-- The index `x` begins with the codeword of the symbol, which has more bits. -/
def longMatch (codelen : List ℕ) (quickBits x j : ℕ) : Bool :=
  decide (quickBits < len codelen j) && decide (x % 2 ^ len codelen j = rev codelen j)

/-- The entry that leads to the `k`-th long table. -/
def longEntry (lay : Layout) (k : ℕ) : ℕ :=
  longMask + (headerSize + 2 * (lay.mainTableLength + k * lay.longTableLength))

/-- The entries after the first `i` symbols. The symbols before `i'` with more than the quick bits
have their long tables. -/
structure TableInv (codelen : List ℕ) (lay : Layout) (i i' : ℕ) (order : List ℕ) (fill : Fill) :
    Prop where
  length_eq : fill.entries.length = lay.numEntries
  next_eq : fill.nextLongTable = lay.mainTableLength + order.length * lay.longTableLength
  nodup : order.Nodup
  mem_order : ∀ p, p ∈ order ↔
    ∃ j < i', lay.quickBits < len codelen j ∧ rev codelen j % 2 ^ lay.quickBits = p
  quick_long : ∀ k p, order[k]? = some p → fill.entries[p]? = some (longEntry lay k)
  quick_short : ∀ p < lay.mainTableLength, p ∉ order →
    fill.entries[p]? = some (cell codelen (shortMatch codelen lay.quickBits p) i)
  long : ∀ k p, order[k]? = some p → ∀ s < lay.longTableLength,
    fill.entries[lay.mainTableLength + k * lay.longTableLength + s]? =
      some (cell codelen (longMatch codelen lay.quickBits (p + 2 ^ lay.quickBits * s)) i)
  fresh : ∀ index, fill.nextLongTable ≤ index → index < lay.numEntries →
    fill.entries[index]? = some 0

/-- The next code of each length after the first `i` symbols. -/
def CodesAt (codelen : List ℕ) (lay : Layout) (i : ℕ) (codes : ℕ → ℕ) : Prop :=
  ∀ bits, 0 < bits → bits ≤ lay.maxCodeLen →
    codes bits = firstStart codelen 15 bits + (codelen.take i).count bits * 2 ^ (15 - bits)

section Loop

variable {codelen : List ℕ} {lay : Layout} (hlay : ValidLayout codelen lay)
  (hkraft : kraft codelen 15 ≤ 2 ^ 15) {i j : ℕ}

/-! ## The codewords -/

include hlay in
theorem len_le_maxBits (i : ℕ) : len codelen i ≤ 15 := (hlay.len_le i).trans hlay.maxCodeLen_le

include hlay in
theorem isCodeword_iff (h0 : 0 < len codelen i) (x : ℕ) :
    IsCodeword codelen i x ↔ x % 2 ^ len codelen i = rev codelen i :=
  isCodeword_iff_mod h0 (len_le_maxBits hlay i)

include hlay in
theorem rev_lt (i : ℕ) : rev codelen i < 2 ^ len codelen i := by
  unfold rev
  rw [reverse_start (len_le_maxBits hlay i)]
  exact reverseBits_lt _ _

include hlay hkraft in
/-- No bit string begins with two codewords. -/
theorem rev_unique (hi : 0 < len codelen i) (hj : 0 < len codelen j) {x : ℕ}
    (hxi : x % 2 ^ len codelen i = rev codelen i) (hxj : x % 2 ^ len codelen j = rev codelen j) :
    i = j :=
  IsCodeword.unique hkraft (len_le_maxBits hlay) ((isCodeword_iff hlay hi x).mpr hxi)
    ((isCodeword_iff hlay hj x).mpr hxj)

include hlay hkraft in
/-- A short codeword is no prefix of another one. -/
theorem rev_mod_ne (hi : 0 < len codelen i) (hij : i ≠ j) (hj : 0 < len codelen j) :
    rev codelen j % 2 ^ len codelen i ≠ rev codelen i := by
  intro h
  exact hij (rev_unique hlay hkraft hi hj h (Nat.mod_eq_of_lt (rev_lt hlay j)))

theorem shortMatch_iff {q p : ℕ} : shortMatch codelen q p j = true ↔
    0 < len codelen j ∧ len codelen j ≤ q ∧ p % 2 ^ len codelen j = rev codelen j := by
  unfold shortMatch
  rw [Bool.and_eq_true, Bool.and_eq_true, decide_eq_true_eq, decide_eq_true_eq, decide_eq_true_eq,
    and_assoc]

theorem longMatch_iff {q x : ℕ} : longMatch codelen q x j = true ↔
    q < len codelen j ∧ x % 2 ^ len codelen j = rev codelen j := by
  unfold longMatch
  rw [Bool.and_eq_true, decide_eq_true_eq, decide_eq_true_eq]

/-- A long index in its two parts. -/
theorem add_mul_mod_eq_iff {q l p s r : ℕ} (hql : q ≤ l) (hp : p < 2 ^ q) :
    (p + 2 ^ q * s) % 2 ^ l = r ↔ p = r % 2 ^ q ∧ s % 2 ^ (l - q) = r / 2 ^ q := by
  have hmod : (p + 2 ^ q * s) % 2 ^ l = p + 2 ^ q * (s % 2 ^ (l - q)) := by
    rw [show l = q + (l - q) by omega, pow_add, Nat.mod_mul, Nat.add_mul_mod_self_left,
      Nat.mod_eq_of_lt hp, Nat.add_mul_div_left _ _ (Nat.two_pow_pos q), Nat.div_eq_of_lt hp,
      Nat.zero_add, Nat.add_sub_cancel_left]
  rw [hmod]
  constructor
  · rintro rfl
    rw [Nat.add_mul_mod_self_left, Nat.mod_eq_of_lt hp,
      Nat.add_mul_div_left _ _ (Nat.two_pow_pos q), Nat.div_eq_of_lt hp, Nat.zero_add]
    exact ⟨rfl, rfl⟩
  · rintro ⟨h0, h1⟩
    rw [h0, h1, Nat.mod_add_div]

/-! ## The entries -/

theorem cell_succ_of_not {P : ℕ → Bool} (h : P i = false) :
    cell codelen P (i + 1) = cell codelen P i := by
  unfold cell
  rw [List.range_succ, List.find?_append]
  cases (List.range i).find? P with
  | some j => rfl
  | none => simp [h]

theorem cell_eq_zero {P : ℕ → Bool} (h : ∀ j < i, P j = false) : cell codelen P i = 0 := by
  unfold cell
  rw [List.find?_eq_none.mpr fun j hj => by rw [h j (List.mem_range.mp hj)]; decide]
  rfl

theorem cell_succ_of_unique {P : ℕ → Bool} (h : P i = true) (hfirst : ∀ j < i, P j = false) :
    cell codelen P (i + 1) = huffOf i (len codelen i) := by
  have hnone : (List.range i).find? P = none :=
    List.find?_eq_none.mpr fun j hj => by rw [hfirst j (List.mem_range.mp hj)]; decide
  unfold cell
  rw [List.range_succ, List.find?_append, hnone]
  simp [h]

/-! ## The number of long tables -/

include hlay hkraft in
/-- Prefixes of long codewords come from the rest of the code space: there are no more of them
than long tables, and the last table is near enough. -/
theorem order_length_le (hquick : lay.quickBits < lay.maxCodeLen) {order : List ℕ}
    (hnodup : order.Nodup) (hmem : ∀ p ∈ order, ∃ j, lay.quickBits < len codelen j ∧
      rev codelen j % 2 ^ lay.quickBits = p) (hpos : 0 < order.length) :
    order.length ≤ lay.numLongTables ∧
      2 ^ lay.quickBits + (order.length - 1) * lay.longTableLength < 16382 := by
  have hmax := hlay.maxCodeLen_le
  set q := lay.quickBits with hq
  set unit := 2 ^ (15 - q) with hunit
  have hunit0 : 0 < unit := Nat.two_pow_pos _
  set first := firstStart codelen 15 (q + 1) with hfirst
  have hdvd : unit ∣ first := dvd_firstStart le_rfl
  have hstart : ∀ j, q < len codelen j →
      first ≤ start codelen 15 j ∧ start codelen 15 j < kraft codelen 15 := by
    intro j hj
    have hend := start_add_le_kraft (n := 15) (show 0 < len codelen j by omega)
      (len_le_maxBits hlay j)
    have hunit' := Nat.two_pow_pos (15 - len codelen j)
    exact ⟨(firstStart_mono hj).trans (Nat.le_add_right _ _), by omega⟩
  -- the prefixes, with the highest bit first, are an interval
  have hsub : order.toFinset ⊆
      (Finset.Icc (first / unit) ((kraft codelen 15 - 1) / unit)).image (reverseBits q) := by
    intro p hp
    obtain ⟨j, hj, rfl⟩ := hmem p (List.mem_toFinset.mp hp)
    have hbounds := hstart j hj
    refine Finset.mem_image.mpr ⟨start codelen 15 j / unit, ?_, ?_⟩
    · rw [Finset.mem_Icc]
      exact ⟨Nat.div_le_div_right hbounds.1, Nat.div_le_div_right (by omega)⟩
    · rw [rev, reverseBits_mod (by omega)]
  have hcard : order.length ≤ (kraft codelen 15 - 1) / unit + 1 - first / unit := by
    rw [← List.toFinset_card_of_nodup hnodup]
    refine (Finset.card_le_card hsub).trans (Finset.card_image_le.trans ?_)
    rw [Nat.card_Icc]
  obtain ⟨p, hp⟩ := List.exists_mem_of_length_pos hpos
  obtain ⟨j, hj, -⟩ := hmem p hp
  have hbounds := hstart j hj
  have hkraft0 : 0 < kraft codelen 15 := by omega
  have hspace : 2 ^ 15 = 2 ^ q * unit := by
    rw [hunit, ← pow_add, show q + (15 - q) = 15 by omega]
  constructor
  · have hlast : (kraft codelen 15 - 1) / unit < 2 ^ q := by
      rw [Nat.div_lt_iff_lt_mul hunit0, ← hspace]
      omega
    have hnum := hlay.numLong_eq hquick
    rw [← hq, ← hunit, ← hfirst] at hnum
    omega
  · have hscale : unit = lay.longTableLength * 2 ^ (15 - lay.maxCodeLen) := by
      rw [hlay.longLength_eq hquick, hunit, ← pow_add,
        show lay.maxCodeLen - q + (15 - lay.maxCodeLen) = 15 - q by omega]
    have hused : (order.length - 1) * unit + first ≤ kraft codelen 15 - 1 := by
      have hdiv := Nat.div_mul_cancel hdvd
      calc (order.length - 1) * unit + first
          = (order.length - 1 + first / unit) * unit := by rw [Nat.add_mul, hdiv]
        _ ≤ (kraft codelen 15 - 1) / unit * unit := Nat.mul_le_mul_right _ (by omega)
        _ ≤ kraft codelen 15 - 1 := Nat.div_mul_le_self _ _
    have hdelta := hlay.delta_le hquick
    rw [← hq, ← hfirst] at hdelta
    rw [hscale, ← Nat.mul_assoc] at hused
    refine Nat.lt_of_mul_lt_mul_right (a := 2 ^ (15 - lay.maxCodeLen)) ?_
    rw [Nat.add_mul]
    omega

/-! ## Distances of long tables -/

theorem longMask_and {d : ℕ} (h : d < 2 ^ 15) :
    (longMask + d) &&& longMask ≠ 0 ∧ (longMask + d) &&& 0x7fff = d := by
  constructor
  · have hand := two_pow_mul_add_and (a := 1) (b := 1) h (show 0 < 2 ^ 15 by decide)
    rw [Nat.mul_one, Nat.add_zero, Nat.and_zero, Nat.add_zero] at hand
    show (2 ^ 15 + d) &&& 2 ^ 15 ≠ 0
    rw [hand]
    decide
  · show (2 ^ 15 + d) &&& (2 ^ 15 - 1) = d
    rw [Nat.and_two_pow_sub_one_eq_mod, Nat.add_mod_left, Nat.mod_eq_of_lt h]

theorem and_longMask_of_lt {h : ℕ} (hlt : h < 2 ^ 15) : h &&& longMask = 0 := by
  have hand := two_pow_mul_add_and (a := 0) (b := 1) hlt (show 0 < 2 ^ 15 by decide)
  rw [Nat.mul_zero, Nat.zero_add, Nat.mul_one, Nat.add_zero, Nat.zero_and, Nat.mul_zero,
    Nat.zero_add, Nat.and_zero] at hand
  exact hand

theorem longMask_or {d : ℕ} (h : d < 2 ^ 15) : (longMask ||| d) % 2 ^ 16 = longMask + d := by
  have hor : longMask ||| d = longMask + d := by
    have hadd := Nat.two_pow_add_eq_or_of_lt h 1
    rw [Nat.mul_one] at hadd
    exact hadd.symm
  rw [hor, Nat.mod_eq_of_lt]
  unfold longMask
  omega

theorem entryIndex_header (k : ℕ) : entryIndex (headerSize + 2 * k) = some k := by
  unfold entryIndex headerSize
  rw [if_pos (by omega)]
  congr 1
  omega

include hlay hkraft in
/-- The distance of a long table in use fits into the entry. -/
theorem TableInv.delta_lt {i' : ℕ} {order : List ℕ} {fill : Fill}
    (h : TableInv codelen lay i i' order fill) (hquick : lay.quickBits < lay.maxCodeLen) {k : ℕ}
    (hk : k < order.length) :
    headerSize + 2 * (lay.mainTableLength + k * lay.longTableLength) < 2 ^ 15 := by
  have hbound := (order_length_le hlay hkraft hquick h.nodup (fun p hp => by
    obtain ⟨j, -, hj⟩ := (h.mem_order p).mp hp
    exact ⟨j, hj⟩) (by omega)).2
  have hle : k * lay.longTableLength ≤ (order.length - 1) * lay.longTableLength :=
    Nat.mul_le_mul_right _ (by omega)
  rw [hlay.main_eq]
  unfold headerSize
  omega

/-! ## One symbol -/

variable {order : List ℕ} {fill : Fill}

/-- A symbol without a codeword changes nothing. -/
theorem TableInv.skip (h : TableInv codelen lay i i order fill) (hlen : len codelen i = 0) :
    TableInv codelen lay (i + 1) (i + 1) order fill where
  length_eq := h.length_eq
  next_eq := h.next_eq
  nodup := h.nodup
  mem_order p := by
    rw [h.mem_order]
    constructor
    · rintro ⟨j, hj, hlong⟩
      exact ⟨j, by omega, hlong⟩
    · rintro ⟨j, hj, hlong, hp⟩
      have hne : j ≠ i := by
        rintro rfl
        omega
      exact ⟨j, by omega, hlong, hp⟩
  quick_long := h.quick_long
  quick_short p hp horder := by
    rw [h.quick_short p hp horder, cell_succ_of_not]
    simp [shortMatch, hlen]
  long k p hk s hs := by
    rw [h.long k p hk s hs, cell_succ_of_not]
    simp [longMatch, hlen]
  fresh := h.fresh

include hlay in
theorem prefix_lt_main (j : ℕ) : rev codelen j % 2 ^ lay.quickBits < lay.mainTableLength := by
  rw [hlay.main_eq]
  exact Nat.mod_lt _ (Nat.two_pow_pos _)

include hlay hkraft in
/-- **Step lemma** for a code of quick bits. -/
theorem TableInv.putQuick (h : TableInv codelen lay i i order fill) (h0 : 0 < len codelen i)
    (hle : len codelen i ≤ lay.quickBits) :
    ∃ entries, strideFill (huffOf i (len codelen i)) 0 lay.mainTableLength (2 ^ len codelen i)
        lay.mainTableLength (rev codelen i) fill.entries = some entries ∧
      TableInv codelen lay (i + 1) (i + 1) order { fill with entries := entries } := by
  have hroom : 0 + lay.mainTableLength ≤ fill.entries.length := by
    rw [h.length_eq, hlay.numEntries_eq]
    omega
  obtain ⟨entries, hfill, hlen, hset, hkeep⟩ := strideFill_residue (rev_lt hlay i) hroom
  refine ⟨entries, hfill, ⟨hlen.trans h.length_eq, h.next_eq, h.nodup, fun p => ?_,
    fun k p hk => ?_, fun p hp horder => ?_, fun k p hk s hs => ?_, fun index h1 h2 => ?_⟩⟩
  · rw [h.mem_order]
    constructor
    · rintro ⟨j, hj, hlong⟩
      exact ⟨j, by omega, hlong⟩
    · rintro ⟨j, hj, hlong, hp⟩
      have hne : j ≠ i := by
        rintro rfl
        omega
      exact ⟨j, by omega, hlong, hp⟩
  · -- the prefix of a longer code does not begin with this one
    obtain ⟨j, hj, hlong, rfl⟩ := (h.mem_order p).mp (List.mem_of_getElem? hk)
    have hmain := prefix_lt_main hlay j
    have hmod : rev codelen j % 2 ^ lay.quickBits % 2 ^ len codelen i ≠ rev codelen i := by
      rw [Nat.mod_mod_of_dvd _ (pow_dvd_pow 2 hle)]
      exact rev_mod_ne hlay hkraft h0 (by omega) (by omega)
    have hentry := hset _ hmain
    rw [Nat.zero_add, if_neg hmod] at hentry
    exact hentry.trans (h.quick_long k _ hk)
  · have hentry := hset p hp
    rw [Nat.zero_add, h.quick_short p hp horder] at hentry
    rw [hentry]
    by_cases hmod : p % 2 ^ len codelen i = rev codelen i
    · have hfirst : ∀ j < i, shortMatch codelen lay.quickBits p j = false := by
        intro j hj
        rw [← Bool.not_eq_true, shortMatch_iff]
        rintro ⟨hj0, -, hjmod⟩
        have := rev_unique hlay hkraft h0 hj0 hmod hjmod
        omega
      rw [if_pos hmod, cell_succ_of_unique (shortMatch_iff.mpr ⟨h0, hle, hmod⟩) hfirst]
    · have hnot : shortMatch codelen lay.quickBits p i = false := by
        rw [← Bool.not_eq_true, shortMatch_iff]
        exact fun hmatch => hmod hmatch.2.2
      rw [if_neg hmod, cell_succ_of_not hnot]
  · have hnot : longMatch codelen lay.quickBits (p + 2 ^ lay.quickBits * s) i = false := by
      rw [← Bool.not_eq_true, longMatch_iff]
      exact fun hmatch => absurd hmatch.1 (by omega)
    rw [cell_succ_of_not hnot, ← h.long k p hk s hs]
    exact hkeep _ (.inr (by omega))
  · rw [← h.fresh index h1 h2]
    have hnext := h.next_eq
    exact hkeep _ (.inr (by simp only at h1; omega))

include hlay hkraft in
theorem TableInv.order_le {i' : ℕ} (h : TableInv codelen lay i i' order fill)
    (hquick : lay.quickBits < lay.maxCodeLen) : order.length ≤ lay.numLongTables := by
  rcases Nat.eq_zero_or_pos order.length with hzero | hpos
  · omega
  · refine (order_length_le hlay hkraft hquick h.nodup (fun p hp => ?_) hpos).1
    obtain ⟨j, -, hj⟩ := (h.mem_order p).mp hp
    exact ⟨j, hj⟩

include hlay hkraft in
theorem TableInv.table_le {i' k : ℕ} (h : TableInv codelen lay i i' order fill)
    (hquick : lay.quickBits < lay.maxCodeLen) (hk : k < order.length) :
    lay.mainTableLength + k * lay.longTableLength + lay.longTableLength ≤ fill.nextLongTable ∧
      fill.nextLongTable ≤ lay.numEntries := by
  have horder := h.order_le hlay hkraft hquick
  have h1 : (k + 1) * lay.longTableLength ≤ order.length * lay.longTableLength :=
    Nat.mul_le_mul_right _ hk
  have h2 : order.length * lay.longTableLength ≤ lay.numLongTables * lay.longTableLength :=
    Nat.mul_le_mul_right _ horder
  rw [h.next_eq, hlay.numEntries_eq]
  rw [Nat.add_mul, Nat.one_mul] at h1
  omega

include hlay hkraft in
theorem TableInv.longTableFor_of_mem {k p : ℕ} (h : TableInv codelen lay i i order fill)
    (hquick : lay.quickBits < lay.maxCodeLen) (hk : order[k]? = some p) :
    longTableFor lay p fill = some (fill, lay.mainTableLength + k * lay.longTableLength) := by
  obtain ⟨hlt, -⟩ := List.getElem?_eq_some_iff.mp hk
  have hdelta := h.delta_lt hlay hkraft hquick hlt
  have hne : longEntry lay k ≠ 0 := by
    unfold longEntry longMask
    omega
  unfold longTableFor
  rw [h.quick_long k p hk]
  simp only [Option.bind_eq_bind, Option.bind_some, Option.pure_def]
  rw [if_neg hne, longEntry, (longMask_and hdelta).2, entryIndex_header, Option.bind_some]

include hlay hkraft in
theorem TableInv.longTableFor_of_notMem (h : TableInv codelen lay i i order fill)
    (hlong : lay.quickBits < len codelen i) (hnew : rev codelen i % 2 ^ lay.quickBits ∉ order) :
    ∃ fill', longTableFor lay (rev codelen i % 2 ^ lay.quickBits) fill =
        some (fill', lay.mainTableLength + order.length * lay.longTableLength) ∧
      TableInv codelen lay i (i + 1) (order ++ [rev codelen i % 2 ^ lay.quickBits]) fill' ∧
      fill'.codes = fill.codes := by
  have hquick : lay.quickBits < lay.maxCodeLen := hlong.trans_le (hlay.len_le i)
  set p := rev codelen i % 2 ^ lay.quickBits with hp
  have hmain : p < lay.mainTableLength := prefix_lt_main hlay i
  -- no short code and no long code before begins this prefix
  have hshort : ∀ j < i, shortMatch codelen lay.quickBits p j = false := by
    intro j hj
    rw [← Bool.not_eq_true, shortMatch_iff]
    rintro ⟨hj0, hjle, hjmod⟩
    rw [hp, Nat.mod_mod_of_dvd _ (pow_dvd_pow 2 hjle)] at hjmod
    exact rev_mod_ne hlay hkraft hj0 (by omega) (by omega) hjmod
  have hentry : fill.entries[p]? = some 0 := by
    rw [h.quick_short p hmain hnew, cell_eq_zero hshort]
  have hlength : (order ++ [p]).length = order.length + 1 := by simp
  have hnodup : (order ++ [p]).Nodup := by
    rw [List.nodup_append]
    refine ⟨h.nodup, List.nodup_singleton p, fun a ha b hb => ?_⟩
    rintro rfl
    rw [List.mem_singleton.mp hb] at ha
    exact hnew ha
  have hmem : ∀ p', p' ∈ order ++ [p] ↔
      ∃ j < i + 1, lay.quickBits < len codelen j ∧ rev codelen j % 2 ^ lay.quickBits = p' := by
    intro p'
    rw [List.mem_append, List.mem_singleton, h.mem_order]
    constructor
    · rintro (⟨j, hj, hlong', hp'⟩ | rfl)
      · exact ⟨j, by omega, hlong', hp'⟩
      · exact ⟨i, by omega, hlong, rfl⟩
    · rintro ⟨j, hj, hlong', hp'⟩
      rcases Nat.lt_succ_iff_lt_or_eq.mp hj with hlt | rfl
      · exact .inl ⟨j, hlt, hlong', hp'⟩
      · exact .inr hp'.symm
  have hbound := order_length_le hlay hkraft hquick hnodup (fun p' hp' => by
    obtain ⟨j, -, hj⟩ := (hmem p').mp hp'
    exact ⟨j, hj⟩) (by omega)
  rw [hlength, Nat.add_sub_cancel] at hbound
  have hdelta : headerSize + 2 * fill.nextLongTable < 2 ^ 15 := by
    rw [h.next_eq, hlay.main_eq]
    unfold headerSize
    omega
  have hnext : (order.length + 1) * lay.longTableLength =
      order.length * lay.longTableLength + lay.longTableLength := Nat.succ_mul _ _
  refine ⟨⟨fill.entries.set p (longMask + (headerSize + 2 * fill.nextLongTable)),
    fill.nextLongTable + lay.longTableLength, fill.codes⟩, ?_, ⟨?_, ?_, hnodup, hmem, ?_, ?_, ?_, ?_⟩,
    rfl⟩
  · unfold longTableFor
    rw [hentry]
    simp only [Option.bind_eq_bind, Option.bind_some, Option.pure_def]
    rw [if_pos True.intro, longMask_or hdelta, h.next_eq]
  · rw [List.length_set, h.length_eq]
  · simp only
    rw [h.next_eq, hlength, hnext, Nat.add_assoc]
  · intro k p' hk
    simp only
    rw [List.getElem?_set]
    rcases Nat.lt_or_ge k order.length with hlt | hge
    · rw [List.getElem?_append_left hlt] at hk
      have hne : p ≠ p' := by
        rintro rfl
        exact hnew (List.mem_of_getElem? hk)
      rw [if_neg hne]
      exact h.quick_long k p' hk
    · have hk' : k = order.length := by
        obtain ⟨hlt, -⟩ := List.getElem?_eq_some_iff.mp hk
        omega
      subst hk'
      rw [List.getElem?_append_right le_rfl, Nat.sub_self] at hk
      obtain rfl : p = p' := Option.some.inj hk
      obtain ⟨hlt, -⟩ := List.getElem?_eq_some_iff.mp hentry
      rw [if_pos rfl, if_pos hlt, longEntry, h.next_eq]
  · intro p' hp' hnot
    rw [List.mem_append, List.mem_singleton, not_or] at hnot
    simp only
    rw [List.getElem?_set, if_neg (Ne.symm hnot.2)]
    exact h.quick_short p' hp' hnot.1
  · intro k p' hk s hs
    simp only
    rw [List.getElem?_set, if_neg (by omega)]
    rcases Nat.lt_or_ge k order.length with hlt | hge
    · rw [List.getElem?_append_left hlt] at hk
      exact h.long k p' hk s hs
    · have hk' : k = order.length := by
        obtain ⟨hlt, -⟩ := List.getElem?_eq_some_iff.mp hk
        omega
      subst hk'
      rw [List.getElem?_append_right le_rfl, Nat.sub_self] at hk
      obtain rfl : p = p' := Option.some.inj hk
      have hnone : ∀ j < i, longMatch codelen lay.quickBits (p + 2 ^ lay.quickBits * s) j = false := by
        intro j hj
        rw [← Bool.not_eq_true, longMatch_iff]
        rintro ⟨hjlong, hjmod⟩
        have hparts := (add_mul_mod_eq_iff hjlong.le (hlay.main_eq ▸ hmain)).mp hjmod
        exact hnew ((h.mem_order p).mpr ⟨j, hj, hjlong, hparts.1.symm⟩)
      have hroom : (order.length + 1) * lay.longTableLength ≤
          lay.numLongTables * lay.longTableLength := Nat.mul_le_mul_right _ hbound.1
      rw [cell_eq_zero hnone, ← h.next_eq]
      refine h.fresh _ (Nat.le_add_right _ _) ?_
      rw [h.next_eq, hlay.numEntries_eq]
      omega
  · intro index h1 h2
    simp only at h1 ⊢
    rw [List.getElem?_set, if_neg (by have hn := h.next_eq; omega)]
    exact h.fresh index (by omega) h2

include hlay hkraft in
/-- **Step lemma** for the long table of a code. -/
theorem TableInv.longTableFor (h : TableInv codelen lay i i order fill)
    (hlong : lay.quickBits < len codelen i) :
    ∃ order' fill' k, longTableFor lay (rev codelen i % 2 ^ lay.quickBits) fill =
        some (fill', lay.mainTableLength + k * lay.longTableLength) ∧
      order'[k]? = some (rev codelen i % 2 ^ lay.quickBits) ∧
      TableInv codelen lay i (i + 1) order' fill' ∧ fill'.codes = fill.codes := by
  have hquick : lay.quickBits < lay.maxCodeLen := hlong.trans_le (hlay.len_le i)
  by_cases hmem : rev codelen i % 2 ^ lay.quickBits ∈ order
  · obtain ⟨k, hk⟩ := List.mem_iff_getElem?.mp hmem
    refine ⟨order, fill, k, h.longTableFor_of_mem hlay hkraft hquick hk, hk, { h with mem_order := ?_ },
      rfl⟩
    intro p
    rw [h.mem_order]
    constructor
    · rintro ⟨j, hj, hlong', hp⟩
      exact ⟨j, by omega, hlong', hp⟩
    · rintro ⟨j, hj, hlong', hp⟩
      rcases Nat.lt_succ_iff_lt_or_eq.mp hj with hlt | rfl
      · exact ⟨j, hlt, hlong', hp⟩
      · exact (h.mem_order p).mp (hp ▸ hmem)
  · obtain ⟨fill', htable, hinv, hcodes⟩ := h.longTableFor_of_notMem hlay hkraft hlong hmem
    refine ⟨_, fill', order.length, htable, ?_, hinv, hcodes⟩
    rw [List.getElem?_append_right le_rfl, Nat.sub_self]
    rfl

include hlay hkraft in
/-- **Step lemma** for a code of more bits: its entries in the long table. -/
theorem TableInv.putLong {k : ℕ} (h : TableInv codelen lay i (i + 1) order fill)
    (hlong : lay.quickBits < len codelen i)
    (hk : order[k]? = some (rev codelen i % 2 ^ lay.quickBits)) :
    ∃ entries, strideFill (huffOf i (len codelen i))
        (lay.mainTableLength + k * lay.longTableLength) lay.longTableLength
        (2 ^ (len codelen i - lay.quickBits)) lay.longTableLength
        (rev codelen i / 2 ^ lay.quickBits) fill.entries = some entries ∧
      TableInv codelen lay (i + 1) (i + 1) order { fill with entries := entries } := by
  have hquick : lay.quickBits < lay.maxCodeLen := hlong.trans_le (hlay.len_le i)
  obtain ⟨hklt, -⟩ := List.getElem?_eq_some_iff.mp hk
  have htable := h.table_le hlay hkraft hquick hklt
  have hlength := h.length_eq
  have hsuffix : rev codelen i / 2 ^ lay.quickBits < 2 ^ (len codelen i - lay.quickBits) := by
    rw [Nat.div_lt_iff_lt_mul (Nat.two_pow_pos _), ← pow_add,
      show len codelen i - lay.quickBits + lay.quickBits = len codelen i by omega]
    exact rev_lt hlay i
  obtain ⟨entries, hfill, hlen, hset, hkeep⟩ := @strideFill_residue (huffOf i (len codelen i))
    (lay.mainTableLength + k * lay.longTableLength) lay.longTableLength _ _ fill.entries hsuffix
    (by omega)
  refine ⟨entries, hfill, ⟨hlen.trans h.length_eq, h.next_eq, h.nodup, h.mem_order,
    fun k' p hk' => ?_, fun p hp horder => ?_, fun k' p hk' s hs => ?_, fun index h1 h2 => ?_⟩⟩
  · obtain ⟨j, -, -, rfl⟩ := (h.mem_order p).mp (List.mem_of_getElem? hk')
    have hmain := prefix_lt_main hlay j
    rw [← h.quick_long k' _ hk']
    exact hkeep _ (.inl (by omega))
  · have hnot : shortMatch codelen lay.quickBits p i = false := by
      rw [← Bool.not_eq_true, shortMatch_iff]
      exact fun hmatch => absurd hmatch.2.1 (by omega)
    rw [cell_succ_of_not hnot, ← h.quick_short p hp horder]
    exact hkeep _ (.inl (by omega))
  · have hp : p < 2 ^ lay.quickBits := by
      obtain ⟨j, -, -, rfl⟩ := (h.mem_order p).mp (List.mem_of_getElem? hk')
      exact Nat.mod_lt _ (Nat.two_pow_pos _)
    have hmatch : longMatch codelen lay.quickBits (p + 2 ^ lay.quickBits * s) i = true ↔
        p = rev codelen i % 2 ^ lay.quickBits ∧
          s % 2 ^ (len codelen i - lay.quickBits) = rev codelen i / 2 ^ lay.quickBits := by
      rw [longMatch_iff, add_mul_mod_eq_iff hlong.le hp, and_iff_right hlong]
    by_cases hsame : k' = k
    · subst hsame
      obtain rfl : p = rev codelen i % 2 ^ lay.quickBits := Option.some.inj (hk'.symm.trans hk)
      simp only
      rw [hset s hs, h.long k' _ hk' s hs]
      by_cases hmod : s % 2 ^ (len codelen i - lay.quickBits) = rev codelen i / 2 ^ lay.quickBits
      · have hi := hmatch.mpr ⟨rfl, hmod⟩
        have hfirst : ∀ j < i, longMatch codelen lay.quickBits
            (rev codelen i % 2 ^ lay.quickBits + 2 ^ lay.quickBits * s) j = false := by
          intro j hj
          rw [← Bool.not_eq_true, longMatch_iff]
          rintro ⟨hjlong, hjmod⟩
          have := rev_unique hlay hkraft (by omega) (by omega) (longMatch_iff.mp hi).2 hjmod
          omega
        rw [if_pos hmod, cell_succ_of_unique hi hfirst]
      · rw [if_neg hmod, cell_succ_of_not]
        rw [← Bool.not_eq_true, hmatch]
        exact fun hboth => hmod hboth.2
    · -- another table belongs to another prefix
      have hne : p ≠ rev codelen i % 2 ^ lay.quickBits := by
        rintro rfl
        exact hsame ((List.getElem?_inj (List.getElem?_eq_some_iff.mp hk').1 h.nodup).mp
          (hk'.trans hk.symm))
      have hnot : longMatch codelen lay.quickBits (p + 2 ^ lay.quickBits * s) i = false := by
        rw [← Bool.not_eq_true, hmatch]
        exact fun hboth => hne hboth.1
      rw [cell_succ_of_not hnot, ← h.long k' p hk' s hs]
      refine hkeep _ ?_
      rcases Nat.lt_or_gt_of_ne hsame with hlt | hgt
      · have hmul : (k' + 1) * lay.longTableLength ≤ k * lay.longTableLength :=
          Nat.mul_le_mul_right _ hlt
        rw [Nat.add_mul, Nat.one_mul] at hmul
        exact .inl (by omega)
      · have hmul : (k + 1) * lay.longTableLength ≤ k' * lay.longTableLength :=
          Nat.mul_le_mul_right _ hgt
        rw [Nat.add_mul, Nat.one_mul] at hmul
        exact .inr (by omega)
  · rw [← h.fresh index h1 h2]
    exact hkeep _ (.inr (by simp only at h1; omega))

include hlay hkraft in
/-- **Step lemma** of the loop over the symbols: the entries of one code. -/
theorem TableInv.putCode (h : TableInv codelen lay i i order fill) (h0 : 0 < len codelen i) :
    ∃ order' fill', putCode lay (huffOf i (len codelen i)) (len codelen i) (rev codelen i) fill =
        some fill' ∧
      TableInv codelen lay (i + 1) (i + 1) order' fill' ∧ fill'.codes = fill.codes := by
  by_cases hle : len codelen i ≤ lay.quickBits
  · obtain ⟨entries, hfill, hinv⟩ := h.putQuick hlay hkraft h0 hle
    refine ⟨order, { fill with entries := entries }, ?_, hinv, rfl⟩
    unfold Inflate.putCode
    rw [if_pos hle, hfill, Option.map_some]
  · obtain ⟨order', fill', k, htable, hk, hinv, hcodes⟩ := h.longTableFor hlay hkraft (by omega)
    obtain ⟨entries, hfill, hinv'⟩ := hinv.putLong hlay hkraft (by omega) hk
    refine ⟨order', { fill' with entries := entries }, ?_, hinv', hcodes⟩
    unfold Inflate.putCode
    rw [if_neg hle, Nat.and_two_pow_sub_one_eq_mod, htable, Option.bind_some]
    simp only
    rw [Nat.shiftRight_eq_div_pow, hfill, Option.map_some]

theorem len_eq_of_getElem? {bits : ℕ} (hi : codelen[i]? = some bits) : len codelen i = bits := by
  unfold len
  rw [List.getD_eq_getElem?_getD, hi, Option.getD_some]

theorem CodesAt.eq_start {codes : ℕ → ℕ} (h : CodesAt codelen lay i codes)
    (h0 : 0 < len codelen i) (hle : len codelen i ≤ lay.maxCodeLen) :
    codes (len codelen i) = start codelen 15 i := h _ h0 hle

theorem CodesAt.update {codes : ℕ → ℕ} (h : CodesAt codelen lay i codes) (h0 : 0 < len codelen i) :
    CodesAt codelen lay (i + 1) (Function.update codes (len codelen i)
      (codes (len codelen i) + 1 <<< (maxBits - len codelen i))) := by
  intro bits hbits hle
  rw [count_take_succ h0]
  by_cases heq : len codelen i = bits
  · subst heq
    rw [Function.update_self, h _ hbits hle, if_pos rfl, Nat.shiftLeft_eq, Nat.one_mul, Nat.add_mul,
      Nat.one_mul, Nat.add_assoc]
    rfl
  · rw [Function.update_of_ne (Ne.symm heq), h _ hbits hle, if_neg heq, Nat.add_zero]

theorem CodesAt.skip {codes : ℕ → ℕ} (h : CodesAt codelen lay i codes)
    (hi : codelen[i]? = some 0) : CodesAt codelen lay (i + 1) codes := by
  intro bits hbits hle
  have hne : ¬ (0 == bits) = true := by
    rw [beq_iff_eq]
    omega
  rw [h _ hbits hle, List.take_add_one, hi, Option.toList_some, List.count_append,
    List.count_singleton, if_neg hne, Nat.add_zero]

include hlay hkraft in
/-- **Step lemma**: one iteration of the loop over the symbols. -/
theorem TableInv.insertCode {bits : ℕ} (h : TableInv codelen lay i i order fill)
    (hcodes : CodesAt codelen lay i fill.codes) (hi : codelen[i]? = some bits) :
    ∃ order' fill', insertCode lay i bits fill = some fill' ∧
      TableInv codelen lay (i + 1) (i + 1) order' fill' ∧
      CodesAt codelen lay (i + 1) fill'.codes := by
  have hlen := len_eq_of_getElem? hi
  unfold Inflate.insertCode
  by_cases h0 : bits = 0
  · subst h0
    rw [if_pos rfl]
    exact ⟨order, fill, rfl, h.skip hlen, hcodes.skip hi⟩
  · rw [if_neg h0]
    subst hlen
    have hpos : 0 < len codelen i := Nat.pos_of_ne_zero h0
    have hcode := hcodes.eq_start hpos (hlay.len_le i)
    have hlt := start_lt hkraft hpos (len_le_maxBits hlay i)
    have hupdate := hcodes.update hpos
    rw [hcode] at hupdate ⊢
    rw [reverse15bits_eq hlt, Option.bind_some]
    have hinv : TableInv codelen lay i i order
        { fill with
          codes := Function.update fill.codes (len codelen i)
            (start codelen 15 i + 1 <<< (maxBits - len codelen i)) } :=
      ⟨h.length_eq, h.next_eq, h.nodup, h.mem_order, h.quick_long, h.quick_short, h.long, h.fresh⟩
    obtain ⟨order', fill', hput, hinv', hcodes'⟩ := hinv.putCode hlay hkraft hpos
    exact ⟨order', fill', hput, hinv', hcodes' ▸ hupdate⟩

include hlay hkraft in
/-- **Run lemma**: the loop over the symbols. -/
theorem insertCodes_spec {rest : List ℕ} (hrest : codelen.drop i = rest)
    (hle : i ≤ codelen.length) (h : TableInv codelen lay i i order fill)
    (hcodes : CodesAt codelen lay i fill.codes) :
    ∃ order' fill', insertCodes lay i rest fill = some fill' ∧
      TableInv codelen lay codelen.length codelen.length order' fill' := by
  induction rest generalizing i order fill with
  | nil =>
    have hend : i = codelen.length := Nat.le_antisymm hle (List.drop_eq_nil_iff.mp hrest)
    subst hend
    exact ⟨order, fill, rfl, h⟩
  | cons bits rest ih =>
    have hi : codelen[i]? = some bits := by
      have hget : (codelen.drop i)[0]? = some bits := by rw [hrest]; rfl
      rwa [List.getElem?_drop, Nat.add_zero] at hget
    obtain ⟨hlt, -⟩ := List.getElem?_eq_some_iff.mp hi
    have hrest' : codelen.drop (i + 1) = rest := by
      rw [← List.tail_drop, hrest, List.tail_cons]
    obtain ⟨order', fill', hstep, hinv, hcodes'⟩ := h.insertCode hlay hkraft hcodes hi
    obtain ⟨order'', fill'', hrun, hinv'⟩ := ih hrest' hlt hinv hcodes'
    refine ⟨order'', fill'', ?_, hinv'⟩
    rw [insertCodes, hstep, Option.bind_some, hrun]

/-! ## The lookup -/

/-- The symbol and the number of bits of an entry. -/
def decodeHuff (huff : ℕ) : Option (ℕ × ℕ) :=
  if huff = 0 then none else some (huff >>> 4, huff &&& 0xf)

/-- An entry is nothing, or the one of a symbol that has the property. -/
theorem cell_cases (codelen : List ℕ) (P : ℕ → Bool) (n : ℕ) :
    (cell codelen P n = 0 ∧ ∀ j < n, P j = false) ∨
      ∃ j < n, P j = true ∧ cell codelen P n = huffOf j (len codelen j) := by
  unfold cell
  cases hfind : (List.range n).find? P with
  | none =>
    refine .inl ⟨rfl, fun j hj => ?_⟩
    have hnot := List.find?_eq_none.mp hfind j (List.mem_range.mpr hj)
    exact (Bool.not_eq_true _).mp hnot
  | some j =>
    exact .inr ⟨j, List.mem_range.mp (List.mem_of_find?_eq_some hfind),
      List.find?_some hfind, rfl⟩

theorem huffOf_eq {symbol bits : ℕ} (hsymbol : symbol < 2 ^ 11) (hbits : bits < 2 ^ 4) :
    huffOf symbol bits = 2 ^ 4 * symbol + bits := by
  unfold huffOf
  rw [Nat.shiftLeft_eq, Nat.mod_eq_of_lt (by omega)]
  ring

theorem decodeHuff_huffOf {symbol bits : ℕ} (hsymbol : symbol < 2 ^ 11) (h0 : 0 < bits)
    (hbits : bits < 2 ^ 4) : decodeHuff (huffOf symbol bits) = some (symbol, bits) := by
  have hand : (2 ^ 4 * symbol + bits) &&& 0xf = bits := by
    show (2 ^ 4 * symbol + bits) &&& (2 ^ 4 - 1) = bits
    rw [Nat.and_two_pow_sub_one_eq_mod, Nat.mul_add_mod, Nat.mod_eq_of_lt hbits]
  unfold decodeHuff
  rw [huffOf_eq hsymbol hbits, if_neg (by omega), hand, Nat.shiftRight_eq_div_pow,
    Nat.mul_add_div (by decide), Nat.div_eq_of_lt hbits, Nat.add_zero]

include hlay in
/-- The entry of the symbols that `P` picks, where `P` picks the codewords the bits begin with. -/
theorem decodeHuff_cell (hsize : codelen.length ≤ 2 ^ 11) {P : ℕ → Bool} {inData : ℕ}
    (hP : ∀ j, IsCodeword codelen j inData ↔ P j = true)
    (hunique : ∀ i j, IsCodeword codelen i inData → IsCodeword codelen j inData → i = j) :
    cell codelen P codelen.length < 2 ^ 15 ∧ ∀ symbol bits,
      decodeHuff (cell codelen P codelen.length) = some (symbol, bits) ↔
        IsCodeword codelen symbol inData ∧ bits = len codelen symbol := by
  rcases cell_cases codelen P codelen.length with ⟨hzero, hnone⟩ | ⟨j, hj, hmatch, hcell⟩
  · have hnothing : decodeHuff 0 = none := rfl
    rw [hzero, hnothing]
    refine ⟨by decide, fun symbol bits => ⟨nofun, fun h => ?_⟩⟩
    have hsymbol := (hP symbol).mp h.1
    rw [hnone symbol h.1.1] at hsymbol
    cases hsymbol
  · have hword := (hP j).mpr hmatch
    have hbits : len codelen j < 2 ^ 4 := by
      have := len_le_maxBits hlay j
      omega
    rw [hcell, decodeHuff_huffOf (by omega) hword.2.1 hbits, huffOf_eq (by omega) hbits]
    refine ⟨by omega, fun symbol bits => ?_⟩
    rw [Option.some.injEq, Prod.mk.injEq]
    constructor
    · rintro ⟨rfl, rfl⟩
      exact ⟨hword, rfl⟩
    · rintro ⟨hword', rfl⟩
      obtain rfl := hunique j symbol hword hword'
      exact ⟨rfl, rfl⟩

theorem getHuffmanEntry_eq {table : HuffmanCodeTable} {inData huff : ℕ}
    (hquick : table.entries[inData % 2 ^ table.quickBits]? = some huff)
    (hmask : huff &&& longMask = 0) : getHuffmanEntry table inData = some (decodeHuff huff) := by
  unfold getHuffmanEntry
  rw [hquick]
  simp only [Option.bind_eq_bind, Option.bind_some, Option.pure_def, hmask]
  rfl

theorem getHuffmanEntry_eq_long {table : HuffmanCodeTable} {inData huff table2 huff' : ℕ}
    (hquick : table.entries[inData % 2 ^ table.quickBits]? = some huff)
    (hmask : huff &&& longMask ≠ 0) (hindex : entryIndex (huff &&& 0x7fff) = some table2)
    (hlong : table.entries[table2 + inData % 2 ^ table.maxCodeLen / 2 ^ table.quickBits]? =
      some huff') : getHuffmanEntry table inData = some (decodeHuff huff') := by
  unfold getHuffmanEntry
  rw [hquick]
  simp only [Option.bind_eq_bind, Option.bind_some, Option.pure_def]
  rw [if_pos hmask, hindex, Option.bind_some, Nat.shiftRight_eq_div_pow, hlong]
  rfl

include hlay hkraft in
/-- **Spec lemma** of `GET_HUFFMAN_ENTRY` on the table that the loop leaves. -/
theorem TableInv.getHuffmanEntry (hsize : codelen.length ≤ 2 ^ 11)
    (h : TableInv codelen lay codelen.length codelen.length order fill) (inData : ℕ) :
    ∃ entry, getHuffmanEntry ⟨lay.quickBits, lay.maxCodeLen, fill.entries⟩ inData = some entry ∧
      ∀ symbol bits, entry = some (symbol, bits) ↔
        IsCodeword codelen symbol inData ∧ bits = len codelen symbol := by
  have hunique : ∀ i j, IsCodeword codelen i inData → IsCodeword codelen j inData → i = j :=
    fun i j hi hj => hi.unique hkraft (len_le_maxBits hlay) hj
  set q := lay.quickBits with hq
  set p := inData % 2 ^ q with hp
  have hmain : p < lay.mainTableLength := by
    rw [hlay.main_eq]
    exact Nat.mod_lt _ (Nat.two_pow_pos _)
  -- whether a longer codeword begins with the quick bits
  by_cases hmem : p ∈ order
  · obtain ⟨k, hk⟩ := List.mem_iff_getElem?.mp hmem
    obtain ⟨hklt, -⟩ := List.getElem?_eq_some_iff.mp hk
    obtain ⟨j₀, -, hlong₀, hprefix₀⟩ := (h.mem_order p).mp hmem
    have hquick : q < lay.maxCodeLen := hlong₀.trans_le (hlay.len_le j₀)
    have hmask := longMask_and (h.delta_lt hlay hkraft hquick hklt)
    have hs : inData % 2 ^ lay.maxCodeLen / 2 ^ q < lay.longTableLength := by
      rw [hlay.longLength_eq hquick, Nat.div_lt_iff_lt_mul (Nat.two_pow_pos _), ← pow_add,
        ← hq, show lay.maxCodeLen - q + q = lay.maxCodeLen by omega]
      exact Nat.mod_lt _ (Nat.two_pow_pos _)
    have hjoin : p + 2 ^ q * (inData % 2 ^ lay.maxCodeLen / 2 ^ q) =
        inData % 2 ^ lay.maxCodeLen := by
      rw [hp, ← Nat.mod_mod_of_dvd inData (pow_dvd_pow 2 hquick.le), Nat.mod_add_div]
    have hentry := h.long k p hk _ hs
    rw [hjoin] at hentry
    have hP : ∀ j, IsCodeword codelen j inData ↔
        longMatch codelen q (inData % 2 ^ lay.maxCodeLen) j = true := by
      intro j
      rw [longMatch_iff, Nat.mod_mod_of_dvd _ (pow_dvd_pow 2 (hlay.len_le j))]
      constructor
      · intro hword
        refine ⟨?_, (isCodeword_iff hlay hword.2.1 inData).mp hword⟩
        by_contra hshort
        have hle : len codelen j ≤ q := by omega
        refine rev_mod_ne hlay hkraft hword.2.1 (j := j₀) (by rintro rfl; omega) (by omega) ?_
        rw [← (isCodeword_iff hlay hword.2.1 inData).mp hword,
          ← Nat.mod_mod_of_dvd _ (pow_dvd_pow 2 hle), hprefix₀, hp,
          Nat.mod_mod_of_dvd _ (pow_dvd_pow 2 hle)]
      · rintro ⟨hlong, hmod⟩
        exact (isCodeword_iff hlay (by omega) inData).mpr hmod
    have hcell := decodeHuff_cell hlay hsize hP hunique
    exact ⟨_, getHuffmanEntry_eq_long (h.quick_long k p hk) hmask.1
      (by rw [longEntry, hmask.2, entryIndex_header]) hentry, hcell.2⟩
  · have hP : ∀ j, IsCodeword codelen j inData ↔ shortMatch codelen q p j = true := by
      intro j
      rw [shortMatch_iff]
      constructor
      · intro hword
        have hmod := (isCodeword_iff hlay hword.2.1 inData).mp hword
        have hle : len codelen j ≤ q := by
          by_contra hlong
          refine hmem ((h.mem_order p).mpr ⟨j, hword.1, by omega, ?_⟩)
          rw [← hmod, Nat.mod_mod_of_dvd _ (pow_dvd_pow 2 (show q ≤ len codelen j by omega))]
        exact ⟨hword.2.1, hle, by rw [hp, Nat.mod_mod_of_dvd _ (pow_dvd_pow 2 hle), hmod]⟩
      · rintro ⟨h0, hle, hmod⟩
        rw [hp, Nat.mod_mod_of_dvd _ (pow_dvd_pow 2 hle)] at hmod
        exact (isCodeword_iff hlay h0 inData).mpr hmod
    have hcell := decodeHuff_cell hlay hsize hP hunique
    exact ⟨_, getHuffmanEntry_eq (h.quick_short p hmain hmem) (and_longMask_of_lt hcell.1), hcell.2⟩

end Loop

/-! ## Codes that do not fit -/

/-- What the loop does to the codes: it stops at one that is not below `2^15`. -/
theorem codes_of_insertCode {lay : Layout} {symbol bits : ℕ} {fill fill' : Fill}
    (h : insertCode lay symbol bits fill = some fill') :
    (bits = 0 ∧ fill' = fill) ∨ bits ≠ 0 ∧ fill.codes bits < 2 ^ 15 ∧
      fill'.codes = Function.update fill.codes bits (fill.codes bits + 1 <<< (maxBits - bits)) := by
  unfold insertCode at h
  by_cases h0 : bits = 0
  · rw [if_pos h0] at h
    exact .inl ⟨h0, (Option.some.inj h).symm⟩
  · rw [if_neg h0] at h
    obtain ⟨code, hcode, hput⟩ := Option.bind_eq_some_iff.mp h
    refine .inr ⟨h0, ?_, ?_⟩
    · by_contra hge
      rw [reverse15bits_eq_none (by omega)] at hcode
      cases hcode
    · unfold putCode at hput
      split_ifs at hput with hle
      · obtain ⟨entries, -, rfl⟩ := Option.map_eq_some_iff.mp hput
        rfl
      · obtain ⟨⟨fill₁, table⟩, htable, hrest⟩ := Option.bind_eq_some_iff.mp hput
        obtain ⟨entries, -, rfl⟩ := Option.map_eq_some_iff.mp hrest
        have hcodes : fill₁.codes = Function.update fill.codes bits
            (fill.codes bits + 1 <<< (maxBits - bits)) := by
          unfold longTableFor at htable
          obtain ⟨entry, -, htable⟩ := Option.bind_eq_some_iff.mp htable
          split_ifs at htable with hzero
          · obtain ⟨rfl, -⟩ := Prod.mk.inj (Option.some.inj htable)
            rfl
          · obtain ⟨index, -, htable⟩ := Option.bind_eq_some_iff.mp htable
            obtain ⟨rfl, -⟩ := Prod.mk.inj (Option.some.inj htable)
            rfl
        exact hcodes

/-- **Run lemma**: a loop that comes to its end has met codes below `2^15` only. -/
theorem start_lt_of_insertCodes {codelen : List ℕ} {lay : Layout}
    (hlen : ∀ i, len codelen i ≤ lay.maxCodeLen) {rest : List ℕ} {i : ℕ}
    {fill fill' : Fill} (hrest : codelen.drop i = rest)
    (hcodes : CodesAt codelen lay i fill.codes) (h : insertCodes lay i rest fill = some fill') :
    ∀ j, i ≤ j → 0 < len codelen j → start codelen 15 j < 2 ^ 15 := by
  induction rest generalizing i fill with
  | nil =>
    intro j hij h0
    have hge := List.drop_eq_nil_iff.mp hrest
    have hlt := lt_length_of_len_pos h0
    omega
  | cons bits rest ih =>
    intro j hij h0
    have hi : codelen[i]? = some bits := by
      have hget : (codelen.drop i)[0]? = some bits := by rw [hrest]; rfl
      rwa [List.getElem?_drop, Nat.add_zero] at hget
    have hrest' : codelen.drop (i + 1) = rest := by
      rw [← List.tail_drop, hrest, List.tail_cons]
    rw [insertCodes] at h
    obtain ⟨fill₁, hstep, hrun⟩ := Option.bind_eq_some_iff.mp h
    have hbits := len_eq_of_getElem? hi
    rcases codes_of_insertCode hstep with ⟨hzero, rfl⟩ | ⟨hne, hlt, hcodes₁⟩
    · have hij' : i ≠ j := by
        rintro rfl
        omega
      exact ih hrest' (hcodes.skip (hzero ▸ hi)) hrun j (by omega) h0
    · subst hbits
      have hpos : 0 < len codelen i := Nat.pos_of_ne_zero hne
      rcases Nat.eq_or_lt_of_le hij with rfl | hij
      · rwa [hcodes.eq_start hpos (hlen i)] at hlt
      · exact ih hrest' (hcodes₁ ▸ hcodes.update hpos) hrun j hij h0

end CldcVm.Inflate
