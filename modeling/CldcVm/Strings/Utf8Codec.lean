import CldcVm.Strings.CharacterStream

/-!
# Modified UTF-8

What the three scanners of `CharacterStream.cpp` and `ClassFileParser.cpp` accept, and what
the encoder makes.

Results:

* `codec_iff`: the codec does what modified UTF-8 asks of it exactly on the byte strings with
  no loose pair.
-/

namespace CldcVm.Strings

/-! ## Modified UTF-8 -/

/-- `0xxxxxxx`, without the null character. -/
def Single (b : UInt8) : Prop := 0 < b.toNat ∧ b.toNat < 0x80

/-- `10xxxxxx`. -/
def Continuation (b : UInt8) : Prop := 0x80 ≤ b.toNat ∧ b.toNat < 0xC0

/-- `110xxxxx`. -/
def LeadOfTwo (b : UInt8) : Prop := 0xC0 ≤ b.toNat ∧ b.toNat < 0xE0

/-- `1110xxxx`. -/
def LeadOfThree (b : UInt8) : Prop := 0xE0 ≤ b.toNat ∧ b.toNat < 0xF0

instance (b : UInt8) : Decidable (Single b) := inferInstanceAs (Decidable (_ ∧ _))

instance (b : UInt8) : Decidable (Continuation b) := inferInstanceAs (Decidable (_ ∧ _))

instance (b : UInt8) : Decidable (LeadOfTwo b) := inferInstanceAs (Decidable (_ ∧ _))

instance (b : UInt8) : Decidable (LeadOfThree b) := inferInstanceAs (Decidable (_ ∧ _))

/-- Each lead byte is followed by the right number of continuation bytes. -/
inductive WellFormed : List UInt8 → Prop
  | nil : WellFormed []
  | one {a : UInt8} {rest : List UInt8} : Single a → WellFormed rest → WellFormed (a :: rest)
  | two {a b : UInt8} {rest : List UInt8} : LeadOfTwo a → Continuation b → WellFormed rest →
      WellFormed (a :: b :: rest)
  | three {a b c : UInt8} {rest : List UInt8} : LeadOfThree a → Continuation b →
      Continuation c → WellFormed rest → WellFormed (a :: b :: c :: rest)

/-- A sequence of characters in which at least one is a loose pair: a lead byte of three bytes
and one continuation byte, before a byte that is none. -/
inductive WithLoosePair : List UInt8 → Prop
  | last {a b c : UInt8} {rest : List UInt8} : LeadOfThree a → Continuation b →
      ¬ Continuation c → WellFormed (c :: rest) → WithLoosePair (a :: b :: c :: rest)
  | pair {a b c : UInt8} {rest : List UInt8} : LeadOfThree a → Continuation b →
      ¬ Continuation c → WithLoosePair (c :: rest) → WithLoosePair (a :: b :: c :: rest)
  | one {a : UInt8} {rest : List UInt8} : Single a → WithLoosePair rest →
      WithLoosePair (a :: rest)
  | two {a b : UInt8} {rest : List UInt8} : LeadOfTwo a → Continuation b →
      WithLoosePair rest → WithLoosePair (a :: b :: rest)
  | three {a b c : UInt8} {rest : List UInt8} : LeadOfThree a → Continuation b →
      Continuation c → WithLoosePair rest → WithLoosePair (a :: b :: c :: rest)

theorem WithLoosePair.not_wellFormed {bytes : List UInt8} (h : WithLoosePair bytes) :
    ¬ WellFormed bytes := by
  induction h with
  | last ha hb hc _ | pair ha hb hc _ _ =>
    intro h
    unfold LeadOfThree at ha
    cases h with
    | one ha' _ => unfold Single at ha'; omega
    | two ha' _ _ => unfold LeadOfTwo at ha'; omega
    | three _ _ hc' _ => exact hc hc'
  | one ha _ ih =>
    intro h
    unfold Single at ha
    cases h with
    | one _ h => exact ih h
    | two ha' _ _ => unfold LeadOfTwo at ha'; omega
    | three ha' _ _ _ => unfold LeadOfThree at ha'; omega
  | two ha _ _ ih =>
    intro h
    unfold LeadOfTwo at ha
    cases h with
    | one ha' _ => unfold Single at ha'; omega
    | two _ _ h => exact ih h
    | three ha' _ _ _ => unfold LeadOfThree at ha'; omega
  | three ha _ _ _ ih =>
    intro h
    unfold LeadOfThree at ha
    cases h with
    | one ha' _ => unfold Single at ha'; omega
    | two ha' _ _ => unfold LeadOfTwo at ha'; omega
    | three _ _ _ h => exact ih h

/-! ## One scan -/

/-- The character that the scan finds at the head of the bytes that are left: its value, and
its size. -/
inductive Scans : List UInt8 → UInt16 → ℕ → Prop
  | one {a : UInt8} {rest : List UInt8} : Single a → Scans (a :: rest) a.toUInt16 1
  | two {a b : UInt8} {rest : List UInt8} : LeadOfTwo a → Continuation b →
      Scans (a :: b :: rest) (UInt16.ofNat (a.toNat % 32 * 64 + b.toNat % 64)) 2
  | three {a b c : UInt8} {rest : List UInt8} : LeadOfThree a → Continuation b →
      Continuation c → Scans (a :: b :: c :: rest)
        (UInt16.ofNat ((a.toNat % 16 * 64 + b.toNat % 64) * 64 + c.toNat % 64)) 3
  | pair {a b c : UInt8} {rest : List UInt8} : LeadOfThree a → Continuation b →
      ¬ Continuation c → Scans (a :: b :: c :: rest)
        (UInt16.ofNat (a.toNat % 16 * 64 + b.toNat % 64)) 2

set_option maxRecDepth 4000 in
/-- The test of the second and third byte. -/
theorem and_C0_eq_iff (b : UInt8) : b &&& 0xC0 = 0x80 ↔ Continuation b := by
  have h : ∀ n < 256, UInt8.ofNat n &&& 0xC0 = 0x80 ↔ 0x80 ≤ n ∧ n < 0xC0 := by decide
  have hb := h b.toNat b.toNat_lt
  rwa [UInt8.ofNat_toNat] at hb

theorem and_mask (b : UInt8) (k : ℕ) (hk : k < 8) :
    (b &&& UInt8.ofNat (2 ^ k - 1)).toNat = b.toNat % 2 ^ k := by
  have hpow : 2 ^ k - 1 < 256 := by
    have := Nat.pow_lt_pow_right (a := 2) (by omega) hk
    omega
  rw [UInt8.toNat_and, UInt8.toNat_ofNat_of_lt' (by simpa using hpow),
    Nat.and_two_pow_sub_one_eq_mod]

theorem and_3F (b : UInt8) : (b &&& 0x3F).toNat = b.toNat % 64 := and_mask b 6 (by omega)

theorem and_1F (b : UInt8) : (b &&& 0x1F).toNat = b.toNat % 32 := and_mask b 5 (by omega)

theorem and_0F (b : UInt8) : (b &&& 0x0F).toNat = b.toNat % 16 := and_mask b 4 (by omega)

variable {n : ℕ}

namespace Utf8Stream

variable (stream : Utf8Stream)

/-- The bytes from an index to the end of the stream. -/
def rest (index : ℕ) : List UInt8 := (stream.bytes.take stream.utf8End).drop index

theorem utf8End_le : stream.utf8End ≤ stream.bytes.length := stream.inBounds

theorem rest_cons {index : ℕ} (h : index < stream.utf8End) :
    stream.rest index = stream.byteAt index :: stream.rest (index + 1) := by
  have hlen := stream.utf8End_le
  rw [rest, List.drop_eq_getElem_cons (by simp; omega)]
  simp only [List.getElem_take, rest, byteAt]
  rw [List.getD_eq_getElem?_getD, List.getElem?_eq_getElem (by omega), Option.getD_some]

theorem rest_nil {index : ℕ} (h : stream.utf8End ≤ index) : stream.rest index = [] := by
  apply List.drop_eq_nil_of_le
  simp only [List.length_take]
  omega

theorem rest_add (index n : ℕ) : stream.rest (index + n) = (stream.rest index).drop n := by
  rw [rest, rest, List.drop_drop]

variable {a : UInt8}

theorem getNextJcharSlow_two (ha : LeadOfTwo a) (index : ℕ) : stream.getNextJcharSlow index a =
      if index < stream.utf8End ∧ Continuation (stream.byteAt index) then
        some (UInt16.ofNat (a.toNat % 32 * 64 + (stream.byteAt index).toNat % 64), index + 1)
      else none := by
  have hnibble : a.toNat >>> 4 = 0xC ∨ a.toNat >>> 4 = 0xD := by
    unfold LeadOfTwo at ha
    rw [Nat.shiftRight_eq_div_pow]
    omega
  rcases hnibble with h | h <;>
    simp only [getNextJcharSlow, h, and_C0_eq_iff, and_1F, and_3F, Nat.shiftLeft_eq,
      Nat.reducePow, ite_and]

/-- The first byte of a character of three bytes, or of a loose pair. -/
theorem getNextJcharSlow_three (ha : LeadOfThree a) (index : ℕ) : stream.getNextJcharSlow index a =
      if index + 1 < stream.utf8End ∧ Continuation (stream.byteAt index) then
        if Continuation (stream.byteAt (index + 1)) then
          some (UInt16.ofNat ((a.toNat % 16 * 64 + (stream.byteAt index).toNat % 64) * 64 +
            (stream.byteAt (index + 1)).toNat % 64), index + 2)
        else some (UInt16.ofNat (a.toNat % 16 * 64 + (stream.byteAt index).toNat % 64), index + 1)
      else none := by
  have hnibble : a.toNat >>> 4 = 0xE := by
    unfold LeadOfThree at ha
    rw [Nat.shiftRight_eq_div_pow]
    omega
  simp only [getNextJcharSlow, hnibble, and_C0_eq_iff, and_0F, and_3F, Nat.shiftLeft_eq,
    Nat.reducePow]
  by_cases hend : index + 1 < stream.utf8End
  · have hlt : index < stream.utf8End := by omega
    simp only [hend, hlt, if_true, and_true, true_and]
  · simp only [hend, and_false, false_and, if_false, ite_self]

/-- Any other byte that is not below 128 starts no character. -/
theorem getNextJcharSlow_other (h128 : 128 ≤ a.toNat) (h2 : ¬ LeadOfTwo a)
    (h3 : ¬ LeadOfThree a) (index : ℕ) : stream.getNextJcharSlow index a = none := by
  have hnibble : a.toNat >>> 4 = 0x8 ∨ a.toNat >>> 4 = 0x9 ∨ a.toNat >>> 4 = 0xA ∨
      a.toNat >>> 4 = 0xB ∨ a.toNat >>> 4 = 0xF := by
    have := a.toNat_lt
    unfold LeadOfTwo at h2
    unfold LeadOfThree at h3
    rw [Nat.shiftRight_eq_div_pow]
    omega
  rcases hnibble with h | h | h | h | h <;> simp only [getNextJcharSlow, h]

variable {stream}

theorem of_rest_eq_cons {index : ℕ} {bytes : List UInt8} (h : stream.rest index = a :: bytes) :
    index < stream.utf8End ∧ stream.byteAt index = a ∧ stream.rest (index + 1) = bytes := by
  have hlt : index < stream.utf8End := by
    by_contra hle
    rw [stream.rest_nil (by omega)] at h
    exact absurd h (by simp)
  rw [stream.rest_cons hlt] at h
  obtain ⟨hbyte, hbytes⟩ := List.cons.inj h
  exact ⟨hlt, hbyte, hbytes⟩

theorem getNextJchar_slow {index : ℕ} (hstart : stream.utf8Start ≤ index)
    (hend : index < stream.utf8End) (h : 128 ≤ (stream.byteAt index).toNat) :
    stream.getNextJchar index = stream.getNextJcharSlow (index + 1) (stream.byteAt index) := by
  have hzero : stream.byteAt index ≠ 0 := by
    intro hzero
    rw [hzero] at h
    exact absurd h (by decide)
  rw [getNextJchar, if_neg (by omega)]
  simp only [hzero, h, if_true, if_false]

theorem getNextJchar_single {index : ℕ} (hstart : stream.utf8Start ≤ index)
    (hend : index < stream.utf8End) (h : Single (stream.byteAt index)) :
    stream.getNextJchar index = some ((stream.byteAt index).toUInt16, index + 1) := by
  unfold Single at h
  have hzero : stream.byteAt index ≠ 0 := by
    intro hzero
    rw [hzero] at h
    exact absurd h.1 (by decide)
  rw [getNextJchar, if_neg (by omega)]
  simp only [hzero, if_false, if_neg (show ¬ 128 ≤ (stream.byteAt index).toNat by omega)]

theorem getNextJchar_of_scans {index : ℕ} {value : UInt16} (hstart : stream.utf8Start ≤ index)
    (h : Scans (stream.rest index) value n) :
    stream.getNextJchar index = some (value, index + n) := by
  generalize hrest : stream.rest index = bytes at h
  cases h with
  | one ha =>
    obtain ⟨hend, rfl, -⟩ := of_rest_eq_cons hrest
    exact getNextJchar_single hstart hend ha
  | two ha hb =>
    obtain ⟨hend, rfl, hrest'⟩ := of_rest_eq_cons hrest
    obtain ⟨hend', rfl, -⟩ := of_rest_eq_cons hrest'
    rw [getNextJchar_slow hstart hend (by unfold LeadOfTwo at ha; omega),
      stream.getNextJcharSlow_two ha, if_pos ⟨hend', hb⟩]
  | three ha hb hc =>
    obtain ⟨hend, rfl, hrest'⟩ := of_rest_eq_cons hrest
    obtain ⟨-, rfl, hrest''⟩ := of_rest_eq_cons hrest'
    obtain ⟨hend'', rfl, -⟩ := of_rest_eq_cons hrest''
    rw [getNextJchar_slow hstart hend (by unfold LeadOfThree at ha; omega),
      stream.getNextJcharSlow_three ha, if_pos ⟨hend'', hb⟩, if_pos hc]
  | pair ha hb hc =>
    obtain ⟨hend, rfl, hrest'⟩ := of_rest_eq_cons hrest
    obtain ⟨-, rfl, hrest''⟩ := of_rest_eq_cons hrest'
    obtain ⟨hend'', rfl, -⟩ := of_rest_eq_cons hrest''
    rw [getNextJchar_slow hstart hend (by unfold LeadOfThree at ha; omega),
      stream.getNextJcharSlow_three ha, if_pos ⟨hend'', hb⟩, if_neg hc]

theorem scans_of_getNextJchar {index index' : ℕ} {value : UInt16}
    (hstart : stream.utf8Start ≤ index) (h : stream.getNextJchar index = some (value, index')) :
    ∃ n, Scans (stream.rest index) value n ∧ index' = index + n := by
  have hend := (getNextJchar_lt h).1
  by_cases hsingle : Single (stream.byteAt index)
  · rw [getNextJchar_single hstart hend hsingle] at h
    obtain ⟨rfl, rfl⟩ := Prod.mk.inj (Option.some.inj h)
    exact ⟨1, stream.rest_cons hend ▸ .one hsingle, rfl⟩
  have h128 : 128 ≤ (stream.byteAt index).toNat := by
    by_contra hlt
    have hzero : stream.byteAt index = 0 := by
      unfold Single at hsingle
      apply UInt8.toNat_inj.mp
      show (stream.byteAt index).toNat = 0
      omega
    rw [getNextJchar, if_neg (by omega)] at h
    simp only [hzero, if_true] at h
    exact absurd h (by simp)
  rw [getNextJchar_slow hstart hend h128] at h
  by_cases h2 : LeadOfTwo (stream.byteAt index)
  · rw [stream.getNextJcharSlow_two h2] at h
    split_ifs at h with hb
    obtain ⟨rfl, rfl⟩ := Prod.mk.inj (Option.some.inj h)
    refine ⟨2, ?_, rfl⟩
    rw [stream.rest_cons hend, stream.rest_cons hb.1]
    exact .two h2 hb.2
  by_cases h3 : LeadOfThree (stream.byteAt index)
  · rw [stream.getNextJcharSlow_three h3] at h
    split_ifs at h with hb hc <;> obtain ⟨rfl, rfl⟩ := Prod.mk.inj (Option.some.inj h)
    · refine ⟨3, ?_, rfl⟩
      rw [stream.rest_cons hend, stream.rest_cons (by omega), stream.rest_cons hb.1]
      exact .three h3 hb.2 hc
    · refine ⟨2, ?_, rfl⟩
      rw [stream.rest_cons hend, stream.rest_cons (by omega), stream.rest_cons hb.1]
      exact .pair h3 hb.2 hc
  · rw [stream.getNextJcharSlow_other h128 h2 h3] at h
    exact absurd h (by simp)

end Utf8Stream

/-! ## The validity scan -/

/-- What the validity scan accepts. -/
def Accepted (bytes : List UInt8) : Prop := WellFormed bytes ∨ WithLoosePair bytes

theorem accepted_of_scans {bytes : List UInt8} {value : UInt16}
    (h : Scans bytes value n) (hrest : Accepted (bytes.drop n)) : Accepted bytes := by
  cases h with
  | one ha => exact hrest.imp (.one ha) (.one ha)
  | two ha hb => exact hrest.imp (.two ha hb) (.two ha hb)
  | three ha hb hc => exact hrest.imp (.three ha hb hc) (.three ha hb hc)
  | pair ha hb hc => exact .inr (hrest.elim (.last ha hb hc) (.pair ha hb hc))

theorem exists_scans_of_accepted {bytes : List UInt8} (h : Accepted bytes) (hne : bytes ≠ []) :
    ∃ value n, Scans bytes value n ∧ Accepted (bytes.drop n) := by
  rcases h with h | h
  · cases h with
    | nil => exact absurd rfl hne
    | one ha h => exact ⟨_, _, .one ha, .inl h⟩
    | two ha hb h => exact ⟨_, _, .two ha hb, .inl h⟩
    | three ha hb hc h => exact ⟨_, _, .three ha hb hc, .inl h⟩
  · cases h with
    | last ha hb hc h => exact ⟨_, _, .pair ha hb hc, .inl h⟩
    | pair ha hb hc h => exact ⟨_, _, .pair ha hb hc, .inr h⟩
    | one ha h => exact ⟨_, _, .one ha, .inr h⟩
    | two ha hb h => exact ⟨_, _, .two ha hb, .inr h⟩
    | three ha hb hc h => exact ⟨_, _, .three ha hb hc, .inr h⟩

namespace Utf8Stream

variable {stream : Utf8Stream}

/-- **Run lemma**: the loop of `length` accepts what is left exactly when it is a sequence of
characters. -/
theorem isSome_lengthFrom_iff {index : ℕ} (hstart : stream.utf8Start ≤ index) :
    (stream.lengthFrom index).isSome ↔ Accepted (stream.rest index) := by
  induction index using lengthFrom.induct stream with
  | case1 index hend hnone =>
    rw [lengthFrom, if_pos hend]
    split
    · simp only [Option.isSome_none, Bool.false_eq_true, false_iff]
      intro hacc
      obtain ⟨value, n, hscan, -⟩ := exists_scans_of_accepted hacc
        (by rw [stream.rest_cons hend]; exact List.cons_ne_nil _ _)
      rw [getNextJchar_of_scans hstart hscan] at hnone
      exact absurd hnone (by simp)
    · next heq => exact absurd (hnone.symm.trans heq) (by simp)
  | case2 index hend value index' hnext ih =>
    obtain ⟨n, hscan, rfl⟩ := scans_of_getNextJchar hstart hnext
    rw [lengthFrom, if_pos hend]
    split
    · next heq => exact absurd (hnext.symm.trans heq) (by simp)
    · next heq =>
      obtain ⟨rfl, rfl⟩ := Prod.mk.inj (Option.some.inj (hnext.symm.trans heq))
      rw [Option.isSome_map, ih (by omega), stream.rest_add]
      constructor
      · exact accepted_of_scans hscan
      · intro hacc
        obtain ⟨_, _, hscan', hrest⟩ := exists_scans_of_accepted hacc
          (by rw [stream.rest_cons hend]; exact List.cons_ne_nil _ _)
        rw [getNextJchar_of_scans hstart hscan'] at hnext
        have hsize := (Prod.mk.inj (Option.some.inj hnext)).2
        rwa [Nat.add_left_cancel hsize] at hrest
  | case3 index hend =>
    rw [lengthFrom, if_neg hend, stream.rest_nil (by omega)]
    simp only [Option.isSome_some, true_iff]
    exact .inl .nil

/-- The bytes of the stream. -/
def content (stream : Utf8Stream) : List UInt8 := stream.rest stream.utf8Start

theorem isValid_iff : stream.isValid = true ↔ Accepted stream.content :=
  isSome_lengthFrom_iff le_rfl

theorem isValid_iff_wellFormed_iff :
    (stream.isValid = true ↔ WellFormed stream.content) ↔ ¬ WithLoosePair stream.content := by
  rw [isValid_iff, Accepted]
  constructor
  · intro h hpair
    exact hpair.not_wellFormed (h.mp (.inr hpair))
  · intro h
    exact or_iff_left h

end Utf8Stream

/-! ## The fast path -/

set_option maxRecDepth 4000 in
/-- The test of the fast path. -/
theorem single_of_toInt8 {b : UInt8} (h : ¬ b.toInt8 ≤ 0) : Single b := by
  have hall : ∀ n < 256, ¬ (UInt8.ofNat n).toInt8 ≤ 0 → 0 < n ∧ n < 0x80 := by decide
  have hb := hall b.toNat b.toNat_lt
  rw [UInt8.ofNat_toNat] at hb
  exact hb h

theorem wellFormed_of_allPositive (stream : Utf8Stream) {p : ℕ}
    (hend : p + n = stream.utf8End) (h : allPositive stream.bytes p n = true) :
    WellFormed (stream.rest p) := by
  induction n generalizing p with
  | zero =>
    rw [stream.rest_nil (by omega)]
    exact .nil
  | succ n ih =>
    rw [allPositive] at h
    split_ifs at h with hpos
    rw [stream.rest_cons (by omega)]
    exact .one (single_of_toInt8 hpos) (ih (by omega) h)

theorem isValidUtf8InBuffer_eq (stream : Utf8Stream) :
    isValidUtf8InBuffer stream.bytes stream.utf8Start stream.utf8Length = stream.isValid := by
  rw [isValidUtf8InBuffer, dif_pos stream.inBounds]
  split_ifs with h
  · symm
    rw [Utf8Stream.isValid_iff]
    exact .inl (wellFormed_of_allPositive stream rfl h)
  · rfl

/-! ## The encoder -/

/-- The bytes of one character. -/
def encodeChar (ch : UInt16) : List UInt8 :=
  if ch ≠ 0 ∧ ch.toNat ≤ 0x7F then [UInt8.ofNat ch.toNat]
  else if ch.toNat ≤ 0x7FF then
    [UInt8.ofNat (ch.toNat >>> 6) ||| 0xC0, UInt8.ofNat (ch.toNat &&& 0x3F) ||| 0x80]
  else
    [UInt8.ofNat (ch.toNat >>> 12) ||| 0xE0, UInt8.ofNat ((ch.toNat >>> 6) &&& 0x3F) ||| 0x80,
      UInt8.ofNat (ch.toNat &&& 0x3F) ||| 0x80]

theorem length_encodeChar (ch : UInt16) : (encodeChar ch).length = UnicodeStream.utf8Size ch := by
  have hzero : ch ≠ 0 ↔ 1 ≤ ch.toNat := by
    rw [Ne, ← UInt16.toNat_inj]
    show ¬ ch.toNat = 0 ↔ _
    omega
  simp only [encodeChar, UnicodeStream.utf8Size, hzero]
  split_ifs <;> simp

theorem utf8Size_le (ch : UInt16) : UnicodeStream.utf8Size ch ≤ 3 := by
  unfold UnicodeStream.utf8Size
  split_ifs <;> omega

theorem take_set_succ {l : List UInt8} {index : ℕ} (h : index < l.length) (b : UInt8) :
    (l.set index b).take (index + 1) = l.take index ++ [b] := by
  rw [List.take_add_one, List.take_set_of_le le_rfl, List.getElem?_set_self h, Option.toList_some]

/-- **Step lemma**: `utf8_write` appends the bytes of its character to what is written. -/
theorem utf8Write_spec (array : List UInt8) (index : ℕ) (ch : UInt16)
    (h : index + 3 ≤ array.length) : (utf8Write array index ch).1.length = array.length ∧
    (utf8Write array index ch).2 = index + UnicodeStream.utf8Size ch ∧
    (utf8Write array index ch).1.take (utf8Write array index ch).2 =
      array.take index ++ encodeChar ch := by
  rw [← length_encodeChar]
  unfold utf8Write encodeChar
  split_ifs
  · exact ⟨by simp, rfl, take_set_succ (by omega) _⟩
  · refine ⟨by simp, rfl, ?_⟩
    simp only
    rw [take_set_succ (by simp; omega), take_set_succ (by omega), List.append_assoc]
    rfl
  · refine ⟨by simp, rfl, ?_⟩
    simp only
    rw [take_set_succ (by simp; omega), take_set_succ (by simp; omega),
      take_set_succ (by omega), List.append_assoc, List.append_assoc]
    rfl

/-- **Run lemma**: the loop appends the bytes of all the characters. -/
theorem utf8WriteAll_spec (array : List UInt8) (index : ℕ) (s : List UInt16)
    (h : index + s.length * 3 ≤ array.length) :
    (utf8WriteAll array index s).1.length = array.length ∧
    (utf8WriteAll array index s).2 = index + (s.flatMap encodeChar).length ∧
    (utf8WriteAll array index s).1.take (utf8WriteAll array index s).2 =
      array.take index ++ s.flatMap encodeChar := by
  induction s generalizing array index with
  | nil => simp [utf8WriteAll]
  | cons ch s ih =>
    rw [List.length_cons] at h
    obtain ⟨hlength, hindex, htake⟩ := utf8Write_spec array index ch (by omega)
    have hsize := utf8Size_le ch
    obtain ⟨hlength', hindex', htake'⟩ := ih (utf8Write array index ch).1
      (utf8Write array index ch).2 (by omega)
    rw [utf8WriteAll, List.flatMap_cons, List.length_append, length_encodeChar]
    refine ⟨hlength'.trans hlength, by simp only; omega, ?_⟩
    simp only
    rw [htake', htake, List.append_assoc]

theorem length_flatMap_encodeChar_le (s : List UInt16) :
    (s.flatMap encodeChar).length ≤ s.length * 3 := by
  induction s with
  | nil => simp
  | cons ch s ih =>
    have := utf8Size_le ch
    rw [List.flatMap_cons, List.length_append, length_encodeChar, List.length_cons]
    omega

/-- The encoder stays in its array: its guarantee. -/
theorem utf8Encode_spec (s : List UInt16) : (utf8Encode s).2 ≤ (utf8Encode s).1.length ∧
    (utf8Encode s).2 = (s.flatMap encodeChar).length ∧
    (utf8Encode s).1.take (utf8Encode s).2 = s.flatMap encodeChar := by
  obtain ⟨hlength, hindex, htake⟩ :=
    utf8WriteAll_spec (List.replicate (s.length * 3) 0) 0 s (by simp)
  have hle := length_flatMap_encodeChar_le s
  unfold utf8Encode
  refine ⟨?_, by rw [hindex, Nat.zero_add], htake⟩
  rw [hlength, hindex, List.length_replicate]
  omega

/-- The string that the encoder has written. -/
def encodedStream (s : List UInt16) : Utf8Stream where
  bytes := (utf8Encode s).1
  utf8Start := 0
  utf8Length := (utf8Encode s).2
  inBounds := by
    rw [Nat.zero_add]
    exact (utf8Encode_spec s).1

theorem rest_encodedStream (s : List UInt16) : (encodedStream s).rest 0 = s.flatMap encodeChar := by
  have hend : (encodedStream s).utf8End = (utf8Encode s).2 := Nat.zero_add _
  rw [Utf8Stream.rest, hend, List.drop_zero]
  exact (utf8Encode_spec s).2.2

/-- `utf8_length` counts the bytes of the characters. -/
theorem utf8Length_eq (chars : UnicodeStream) :
    chars.utf8Length = (chars.content.flatMap encodeChar).length := by
  obtain ⟨chars, start, length, inBounds⟩ := chars
  have hfold : ∀ n start result, start + n ≤ chars.length → (List.range' start n).foldl
        (fun result index => result + UnicodeStream.utf8Size (chars.getD index 0)) result =
      result + (((chars.drop start).take n).flatMap encodeChar).length := by
    intro n
    induction n with
    | zero => simp
    | succ n ih =>
      intro start result h
      rw [List.range'_succ, List.foldl_cons, ih (start + 1) _ (by omega),
        List.drop_eq_getElem_cons (show start < chars.length by omega), List.take_succ_cons,
        List.flatMap_cons, List.length_append, length_encodeChar, List.getD_eq_getElem?_getD,
        List.getElem?_eq_getElem (by omega), Option.getD_some]
      omega
  have h := hfold length start 0 inBounds
  rwa [Nat.zero_add] at h

/-! ## Decoding what was encoded -/

theorem toNat_or_80 (h : n < 64) : (UInt8.ofNat n ||| 0x80).toNat = 0x80 + n := by
  have hall : ∀ n < 64, (UInt8.ofNat n ||| 0x80).toNat = 0x80 + n := by decide
  exact hall n h

theorem toNat_or_C0 (h : n < 32) : (UInt8.ofNat n ||| 0xC0).toNat = 0xC0 + n := by
  have hall : ∀ n < 32, (UInt8.ofNat n ||| 0xC0).toNat = 0xC0 + n := by decide
  exact hall n h

theorem toNat_or_E0 (h : n < 16) : (UInt8.ofNat n ||| 0xE0).toNat = 0xE0 + n := by
  have hall : ∀ n < 16, (UInt8.ofNat n ||| 0xE0).toNat = 0xE0 + n := by decide
  exact hall n h

theorem scans_encodeChar (ch : UInt16) (rest : List UInt8) :
    Scans (encodeChar ch ++ rest) ch (UnicodeStream.utf8Size ch) := by
  have hlt := ch.toNat_lt
  rw [← length_encodeChar]
  have hsix : ch.toNat &&& 0x3F = ch.toNat % 64 := Nat.and_two_pow_sub_one_eq_mod _ 6
  have hmid : (ch.toNat >>> 6) &&& 0x3F = ch.toNat / 64 % 64 := by
    rw [Nat.shiftRight_eq_div_pow]
    exact Nat.and_two_pow_sub_one_eq_mod _ 6
  unfold encodeChar
  rw [hmid, hsix, Nat.shiftRight_eq_div_pow, Nat.shiftRight_eq_div_pow]
  split_ifs with h1 h2
  · have hpos : 0 < ch.toNat := by
      by_contra hzero
      apply h1.1
      apply UInt16.toNat_inj.mp
      show ch.toNat = 0
      omega
    have hbyte : (UInt8.ofNat ch.toNat).toNat = ch.toNat :=
      UInt8.toNat_ofNat_of_lt' (by show ch.toNat < 256; omega)
    have hvalue : (UInt8.ofNat ch.toNat).toUInt16 = ch := by
      apply UInt16.toNat_inj.mp
      rw [UInt8.toNat_toUInt16, hbyte]
    have hscan := @Scans.one _ rest (show Single (UInt8.ofNat ch.toNat) by
      unfold Single
      omega)
    rwa [hvalue] at hscan
  · have hhi := toNat_or_C0 (show ch.toNat / 2 ^ 6 < 32 by omega)
    have hlo := toNat_or_80 (show ch.toNat % 64 < 64 by omega)
    have hscan := @Scans.two _ _ rest
      (show LeadOfTwo (UInt8.ofNat (ch.toNat / 2 ^ 6) ||| 0xC0) by unfold LeadOfTwo; omega)
      (show Continuation (UInt8.ofNat (ch.toNat % 64) ||| 0x80) by unfold Continuation; omega)
    rw [hhi, hlo, show (0xC0 + ch.toNat / 2 ^ 6) % 32 * 64 + (0x80 + ch.toNat % 64) % 64 = ch.toNat
      by omega, UInt16.ofNat_toNat] at hscan
    exact hscan
  · have hhi := toNat_or_E0 (show ch.toNat / 2 ^ 12 < 16 by omega)
    have hmi := toNat_or_80 (show ch.toNat / 64 % 64 < 64 by omega)
    have hlo := toNat_or_80 (show ch.toNat % 64 < 64 by omega)
    have hscan := @Scans.three _ _ _ rest
      (show LeadOfThree (UInt8.ofNat (ch.toNat / 2 ^ 12) ||| 0xE0) by unfold LeadOfThree; omega)
      (show Continuation (UInt8.ofNat (ch.toNat / 64 % 64) ||| 0x80) by unfold Continuation; omega)
      (show Continuation (UInt8.ofNat (ch.toNat % 64) ||| 0x80) by unfold Continuation; omega)
    rw [hhi, hmi, hlo, show ((0xE0 + ch.toNat / 2 ^ 12) % 16 * 64 +
        (0x80 + ch.toNat / 64 % 64) % 64) * 64 + (0x80 + ch.toNat % 64) % 64 = ch.toNat
      by omega, UInt16.ofNat_toNat] at hscan
    exact hscan

namespace Utf8Stream

variable {stream : Utf8Stream}

/-- **Step lemma**: one scan over encoded characters. -/
theorem getNextJchar_encoded {index : ℕ} {ch : UInt16} {s : List UInt16}
    (hstart : stream.utf8Start ≤ index) (h : stream.rest index = (ch :: s).flatMap encodeChar) :
    stream.getNextJchar index = some (ch, index + UnicodeStream.utf8Size ch) ∧
    stream.rest (index + UnicodeStream.utf8Size ch) = s.flatMap encodeChar := by
  rw [List.flatMap_cons] at h
  constructor
  · apply getNextJchar_of_scans hstart
    rw [h]
    exact scans_encodeChar ch _
  · rw [stream.rest_add, h, ← length_encodeChar, List.drop_left]

/-- **Run lemma**: `length` counts the characters, and as many reads give them back. -/
theorem decode_encoded {index : ℕ} (s : List UInt16) (hstart : stream.utf8Start ≤ index)
    (h : stream.rest index = s.flatMap encodeChar) :
    stream.lengthFrom index = some s.length ∧ stream.readN s.length index = s.map some := by
  induction s generalizing index with
  | nil =>
    rw [lengthFrom, if_neg]
    · exact ⟨rfl, rfl⟩
    · intro hlt
      rw [stream.rest_cons hlt] at h
      exact absurd h (by simp)
  | cons ch s ih =>
    obtain ⟨hnext, hrest⟩ := getNextJchar_encoded hstart h
    obtain ⟨hlength, hread⟩ := ih (by omega) hrest
    constructor
    · rw [lengthFrom, if_pos (getNextJchar_lt hnext).1]
      split
      · next heq => exact absurd (hnext.symm.trans heq) (by simp)
      · next heq =>
        obtain ⟨rfl, rfl⟩ := Prod.mk.inj (Option.some.inj (hnext.symm.trans heq))
        rw [hlength, Option.map_some, List.length_cons]
    · rw [List.length_cons, readN, rawRead, hnext]
      simp only [hread, List.map_cons]

end Utf8Stream

theorem newString_encodedStream (s : List UInt16) : newString (encodedStream s) = s.map some := by
  obtain ⟨hlength, hread⟩ :=
    Utf8Stream.decode_encoded s (Nat.zero_le _) (rest_encodedStream s)
  rw [newString, Utf8Stream.length]
  show (encodedStream s).readN (((encodedStream s).lengthFrom 0).getD 0) 0 = _
  rw [hlength, Option.getD_some, hread]

/-! ## The codec -/

/-- **Main theorem**: the codec does what modified UTF-8 asks of it exactly on the byte strings
with no loose pair. -/
theorem codec_iff (chars : UnicodeStream) (stream : Utf8Stream) :
    (newString (encodedStream chars.content) = chars.content.map some ∧
      (encodedStream chars.content).utf8Length = chars.utf8Length ∧
      (stream.isValid = true ↔ WellFormed stream.content) ∧
      isValidUtf8InBuffer stream.bytes stream.utf8Start stream.utf8Length = stream.isValid) ↔
    ¬ WithLoosePair stream.content := by
  rw [← Utf8Stream.isValid_iff_wellFormed_iff]
  constructor
  · rintro ⟨-, -, h, -⟩
    exact h
  · intro h
    refine ⟨newString_encodedStream _, ?_, h, isValidUtf8InBuffer_eq stream⟩
    rw [utf8Length_eq]
    exact (utf8Encode_spec chars.content).2.1

/-- `E1 80 41`: the scan takes the first two bytes for a character, and accepts. -/
theorem isValid_not_wellFormed :
    let stream : Utf8Stream := ⟨[0xE1, 0x80, 0x41], 0, 3, by decide⟩
    stream.isValid = true ∧
      isValidUtf8InBuffer stream.bytes stream.utf8Start stream.utf8Length = true ∧
      ¬ WellFormed stream.content := by
  intro stream
  have hpair : WithLoosePair stream.content :=
    .last (by decide) (by decide) (by decide) (.one (by decide) .nil)
  have hvalid : stream.isValid = true := Utf8Stream.isValid_iff.mpr (.inr hpair)
  exact ⟨hvalid, (isValidUtf8InBuffer_eq stream).trans hvalid, hpair.not_wellFormed⟩

end CldcVm.Strings
