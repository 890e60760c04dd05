import Mathlib

/-!
# Class names

Models of `Signature::skip_simple_identifier`, `is_class_identifier_quick` and
`skip_class_identifier` (`handles/Signature.cpp`, lines 97–233) and of the UTF-8
reader they use (`utilities/CharacterStream.cpp`, lines 60–127).

Results:
* `scannersAgree_iff`: these names are the only ones on which the two differ.
-/

namespace CldcVm.Handles

/-- An ASCII character as a byte. -/
def byte (c : Char) : UInt8 := c.toNat.toUInt8

/-! ## Characters -/

/-- `letter_digit_table`, as `verify_tables` describes it: 1 for a letter, 2 for a
digit. -/
def letterDigitTable (ch : ℕ) : ℕ :=
  if '0'.toNat ≤ ch ∧ ch ≤ '9'.toNat then 2
  else if ('A'.toNat ≤ ch ∧ ch ≤ 'Z'.toNat) ∨ ('a'.toNat ≤ ch ∧ ch ≤ 'z'.toNat) ∨
    ch = '_'.toNat ∨ ch = '$'.toNat then 1
  else 0

/-- `is_letter`. -/
def isLetter (ch : ℕ) : Bool := ch > 127 || letterDigitTable ch == 1

/-- `is_letter_or_digit`. -/
def isLetterOrDigit (ch : ℕ) : Bool := ch > 127 || letterDigitTable ch != 0

/-- `(ch & 0xC0) == 0x80`. -/
def isContinuation (ch : UInt8) : Bool := ch.toNat &&& 0xC0 == 0x80

/-- `get_next_jchar_from_utf8` at the start of the bytes: the character and the
number of its bytes. -/
def nextJchar : List UInt8 → Option (ℕ × ℕ)
  | [] => none
  | ch1 :: rest =>
    if ch1.toNat = 0 then none
    else if ch1.toNat < 128 then some (ch1.toNat, 1)
    else if ch1.toNat / 16 = 0xC ∨ ch1.toNat / 16 = 0xD then
      match rest with
      | ch2 :: _ =>
        if isContinuation ch2 then
          some ((ch1.toNat &&& 0x1F) * 64 + (ch2.toNat &&& 0x3F), 2)
        else none
      | [] => none
    else if ch1.toNat / 16 = 0xE then
      match rest with
      | ch2 :: ch3 :: _ =>
        if isContinuation ch2 then
          if isContinuation ch3 then
            some (((ch1.toNat &&& 0x0F) * 64 + (ch2.toNat &&& 0x3F)) * 64 + (ch3.toNat &&& 0x3F), 3)
          else some ((ch1.toNat &&& 0x0F) * 64 + (ch2.toNat &&& 0x3F), 2)
        else none
      | _ => none
    else none

/-! ## Identifiers -/

/-- A byte that sends `skip_simple_identifier` to its slow path. -/
def suspicious (ch : UInt8) : Bool := ch.toNat > 127 || ch.toNat == 0

/-- The loop that finds the end of an identifier; `none` is the slow path. -/
def fastLoop : List UInt8 → (position : ℕ) → Option ℕ
  | [], position => some position
  | ch :: rest, position =>
    if suspicious ch then none
    else if letterDigitTable ch.toNat = 0 then some position
    else fastLoop rest (position + 1)

/-- The loop of the slow path; `position` advances in every iteration. -/
def slowLoop (symbol : List UInt8) : (fuel position : ℕ) → ℕ
  | 0, position => position
  | fuel + 1, position =>
    if position < symbol.length then
      match nextJchar (symbol.drop position) with
      | none => position
      | some (ch, n) =>
        if isLetterOrDigit ch then slowLoop symbol fuel (position + n) else position
    else position

def slowPath (symbol : List UInt8) (position : ℕ) : Option ℕ :=
  match nextJchar (symbol.drop position) with
  | none => none
  | some (ch, n) =>
    if isLetter ch then some (slowLoop symbol symbol.length (position + n)) else none

/-- `skip_simple_identifier` (lines 97–168). -/
def skipSimpleIdentifier (symbol : List UInt8) (position : ℕ) : Option ℕ :=
  if (symbol.take position).any suspicious then slowPath symbol position
  else
    match symbol.drop position with
    | [] => none
    | ch :: rest =>
      if suspicious ch then slowPath symbol position
      else if letterDigitTable ch.toNat ≠ 1 then none
      else
        match fastLoop rest (position + 1) with
        | none => slowPath symbol position
        | some position' => some position'

/-- `skip_class_identifier` (lines 220–233). -/
def skipClassIdentifier (symbol : List UInt8) : (fuel position : ℕ) → Option ℕ
  | 0, _ => none
  | fuel + 1, position =>
    match skipSimpleIdentifier symbol position with
    | none => none
    | some position =>
      if position ≥ symbol.length then some position
      else if symbol[position]? ≠ some (byte '/') then some position
      else skipClassIdentifier symbol fuel (position + 1)

/-- The loops of `is_class_identifier_quick`; `needLetter` at the head of the outer
one. -/
def quickLoop : (needLetter : Bool) → List UInt8 → Bool
  | _, [] => true
  | true, ch :: rest =>
    if ch.toNat > 127 then false
    else if letterDigitTable ch.toNat ≠ 1 then false
    else quickLoop false rest
  | false, ch :: rest =>
    if ch.toNat ≤ 127 then
      if letterDigitTable ch.toNat ≠ 0 then quickLoop false rest
      else if ch = byte '/' then quickLoop true rest
      else false
    else false

/-- `is_class_identifier_quick` (lines 173–218). -/
def isClassIdentifierQuick (symbol : List UInt8) : Bool := quickLoop true symbol

/-! ## The grammar of class names -/

/-- The bytes start with the characters; `rest` follows them. -/
inductive Reads : List UInt8 → List ℕ → List UInt8 → Prop
  | nil (rest : List UInt8) : Reads rest [] rest
  | cons {bytes rest : List UInt8} {ch n : ℕ} {chars : List ℕ} :
      nextJchar bytes = some (ch, n) → Reads (bytes.drop n) chars rest →
      Reads bytes (ch :: chars) rest

/-- A letter, and letters and digits after it. -/
def Identifier (chars : List ℕ) : Prop :=
  ∃ ch tail, chars = ch :: tail ∧ isLetter ch = true ∧ ∀ c ∈ tail, isLetterOrDigit c = true

/-- Identifiers with slashes between them, and perhaps one at the end. -/
inductive QualifiedName (trailing : Bool) : List UInt8 → Prop
  | last {bytes : List UInt8} {chars : List ℕ} :
      Reads bytes chars [] → Identifier chars → QualifiedName trailing bytes
  | slash {bytes : List UInt8} {chars : List ℕ} :
      trailing = true → Reads bytes chars [byte '/'] → Identifier chars →
      QualifiedName trailing bytes
  | qualified {bytes rest : List UInt8} {chars : List ℕ} :
      Reads bytes chars (byte '/' :: rest) → Identifier chars → QualifiedName trailing rest →
      QualifiedName trailing bytes

/-- A class name in the internal form. -/
def ClassName (name : List UInt8) : Prop := QualifiedName false name

/-! ## Reading -/

theorem nextJchar_ascii {ch : UInt8} (h : suspicious ch = false) (rest : List UInt8) :
    nextJchar (ch :: rest) = some (ch.toNat, 1) := by
  have hch : ¬ch.toNat > 127 ∧ ¬ch.toNat = 0 := by simpa [suspicious] using h
  unfold nextJchar
  simp only
  rw [if_neg hch.2, if_pos (by omega)]

theorem nextJchar_bounds {bytes : List UInt8} {ch n : ℕ} (h : nextJchar bytes = some (ch, n)) :
    0 < n ∧ n ≤ bytes.length := by
  unfold nextJchar at h
  split at h
  · cases h
  · split_ifs at h
    · cases h
      simp
    all_goals
      split at h
      · split_ifs at h <;> cases h <;> simp
      · cases h

theorem not_reads_nil {chars : List ℕ} {rest : List UInt8} (h : Reads [] chars rest) :
    chars = [] := by
  cases h with
  | nil => rfl
  | cons hnext _ => cases hnext

theorem Reads.exists_drop {bytes rest : List UInt8} {chars : List ℕ} (h : Reads bytes chars rest) :
    ∃ k ≤ bytes.length, rest = bytes.drop k := by
  induction h with
  | nil rest => exact ⟨0, Nat.zero_le _, rfl⟩
  | cons hnext _ ih =>
    obtain ⟨k, hk, rfl⟩ := ih
    have hn := (nextJchar_bounds hnext).2
    rw [List.length_drop] at hk
    exact ⟨_, by omega, List.drop_drop⟩

/-- The next character, if there is one, is no letter or digit. -/
def Stops (bytes : List UInt8) : Prop :=
  ∀ ch n, nextJchar bytes = some (ch, n) → isLetterOrDigit ch = false

theorem stops_nil : Stops [] := fun _ _ h => by cases h

theorem stops_slash (rest : List UInt8) : Stops (byte '/' :: rest) := by
  intro ch n h
  rw [nextJchar_ascii (by decide)] at h
  cases h
  decide

theorem Reads.unique {bytes rest rest' : List UInt8} {chars chars' : List ℕ}
    (h : Reads bytes chars rest) (hchars : ∀ c ∈ chars, isLetterOrDigit c = true)
    (hstop : Stops rest) (h' : Reads bytes chars' rest')
    (hchars' : ∀ c ∈ chars', isLetterOrDigit c = true) (hstop' : Stops rest') :
    chars = chars' ∧ rest = rest' := by
  induction h generalizing chars' with
  | nil rest =>
    cases h' with
    | nil => exact ⟨rfl, rfl⟩
    | cons hnext _ =>
      have hyes := hchars' _ List.mem_cons_self
      rw [hstop _ _ hnext] at hyes
      cases hyes
  | cons hnext _ ih =>
    cases h' with
    | nil =>
      have hyes := hchars _ List.mem_cons_self
      rw [hstop' _ _ hnext] at hyes
      cases hyes
    | cons hnext' hrest' =>
      obtain ⟨rfl, rfl⟩ := Prod.mk.inj (Option.some.inj (hnext.symm.trans hnext'))
      obtain ⟨rfl, rfl⟩ := ih (fun c hc => hchars c (List.mem_cons_of_mem _ hc)) hstop hrest'
        fun c hc => hchars' c (List.mem_cons_of_mem _ hc)
      exact ⟨rfl, rfl⟩

theorem isLetterOrDigit_of_isLetter {ch : ℕ} (h : isLetter ch = true) :
    isLetterOrDigit ch = true := by
  unfold isLetter at h
  unfold isLetterOrDigit
  rw [Bool.or_eq_true] at h ⊢
  refine h.imp_right fun h1 => ?_
  rw [beq_iff_eq] at h1
  rw [h1]
  rfl

theorem Identifier.lettersOrDigits {chars : List ℕ} (h : Identifier chars) :
    ∀ c ∈ chars, isLetterOrDigit c = true := by
  obtain ⟨ch, tail, rfl, hch, htail⟩ := h
  intro c hc
  rcases List.mem_cons.mp hc with rfl | hc
  · exact isLetterOrDigit_of_isLetter hch
  · exact htail c hc

/-! ## One identifier -/

variable {symbol : List UInt8}

theorem slowLoop_spec (symbol : List UInt8) (fuel position : ℕ)
    (hfuel : symbol.length ≤ position + fuel)
    (hposition : position ≤ symbol.length) :
    ∃ chars, Reads (symbol.drop position) chars (symbol.drop (slowLoop symbol fuel position)) ∧
      (∀ c ∈ chars, isLetterOrDigit c = true) ∧
      Stops (symbol.drop (slowLoop symbol fuel position)) ∧
      slowLoop symbol fuel position ≤ symbol.length := by
  induction fuel generalizing position with
  | zero =>
    have hend : symbol.drop position = [] := List.drop_eq_nil_of_le hfuel
    refine ⟨[], .nil _, nofun, ?_, hposition⟩
    show Stops (symbol.drop position)
    rw [hend]
    exact stops_nil
  | succ fuel ih =>
    unfold slowLoop
    split_ifs with hlt
    · cases hnext : nextJchar (symbol.drop position) with
      | none =>
        refine ⟨[], .nil _, nofun, fun ch n h => ?_, hposition⟩
        rw [hnext] at h
        cases h
      | some next =>
        obtain ⟨ch, n⟩ := next
        have hbounds := nextJchar_bounds hnext
        rw [List.length_drop] at hbounds
        simp only
        split_ifs with hletter
        · obtain ⟨chars, hreads, hchars, hrest⟩ := ih (position + n) (by omega) (by omega)
          rw [← List.drop_drop] at hreads
          refine ⟨ch :: chars, .cons hnext hreads, fun c hc => ?_, hrest⟩
          rcases List.mem_cons.mp hc with rfl | hc
          · exact hletter
          · exact hchars c hc
        · refine ⟨[], .nil _, nofun, fun ch' n' h => ?_, hposition⟩
          rw [hnext] at h
          cases h
          exact Bool.eq_false_iff.mpr hletter
    · refine ⟨[], .nil _, nofun, ?_, hposition⟩
      rw [List.drop_eq_nil_of_le (by omega)]
      exact stops_nil

theorem slowPath_eq_some_iff {position position' : ℕ} : slowPath symbol position = some position' ↔
      position' ≤ symbol.length ∧ Stops (symbol.drop position') ∧
        ∃ chars, Reads (symbol.drop position) chars (symbol.drop position') ∧ Identifier chars := by
  unfold slowPath
  cases hnext : nextJchar (symbol.drop position) with
  | none =>
    refine iff_of_false nofun ?_
    rintro ⟨-, -, chars, hreads, hid⟩
    obtain ⟨ch, tail, rfl, -, -⟩ := hid
    cases hreads with
    | cons hnext' _ =>
      rw [hnext] at hnext'
      cases hnext'
  | some next =>
    obtain ⟨ch, n⟩ := next
    have hbounds := nextJchar_bounds hnext
    rw [List.length_drop] at hbounds
    obtain ⟨tail, hreads, htail, hstops, hend⟩ := slowLoop_spec symbol symbol.length
      (position + n) (by omega) (by omega)
    rw [← List.drop_drop] at hreads
    simp only
    split_ifs with hletter
    · constructor
      · intro h
        cases h
        exact ⟨hend, hstops, ch :: tail, .cons hnext hreads, ch, tail, rfl, hletter, htail⟩
      · rintro ⟨hend', hstops', chars, hreads', hid⟩
        have hid₀ : Identifier (ch :: tail) := ⟨ch, tail, rfl, hletter, htail⟩
        have hsame := (Reads.unique (.cons hnext hreads) hid₀.lettersOrDigits hstops hreads'
          hid.lettersOrDigits hstops').2
        have hlength := congrArg List.length hsame
        rw [List.length_drop, List.length_drop] at hlength
        congr 1
        omega
    · refine iff_of_false nofun ?_
      rintro ⟨-, -, chars, hreads', ch', tail', rfl, hletter', -⟩
      cases hreads' with
      | cons hnext' _ =>
        rw [hnext] at hnext'
        cases hnext'
        exact hletter hletter'

theorem isLetter_ascii {ch : UInt8} (h : suspicious ch = false) :
    (isLetter ch.toNat = true ↔ letterDigitTable ch.toNat = 1) ∧
      (isLetterOrDigit ch.toNat = true ↔ letterDigitTable ch.toNat ≠ 0) := by
  have hch : ¬ch.toNat > 127 := by simpa [suspicious] using (Bool.or_eq_false_iff.mp h).1
  simp [isLetter, isLetterOrDigit, hch]

theorem fastLoop_eq {fuel position position' : ℕ} (hfuel : symbol.length ≤ position + fuel)
    (h : fastLoop (symbol.drop position) position = some position') :
    slowLoop symbol fuel position = position' := by
  induction fuel generalizing position with
  | zero =>
    rw [List.drop_eq_nil_of_le (by omega)] at h
    cases h
    rfl
  | succ fuel ih =>
    unfold slowLoop
    split_ifs with hlt
    · rw [List.drop_eq_getElem_cons hlt] at h ⊢
      unfold fastLoop at h
      split_ifs at h with hsuspicious hdigit
      · rw [Bool.not_eq_true] at hsuspicious
        cases h
        rw [nextJchar_ascii hsuspicious]
        simp only
        rw [if_neg fun hl => (isLetter_ascii hsuspicious).2.mp hl hdigit]
      · rw [Bool.not_eq_true] at hsuspicious
        rw [nextJchar_ascii hsuspicious]
        simp only
        rw [if_pos ((isLetter_ascii hsuspicious).2.mpr hdigit)]
        exact ih (by omega) h
    · rw [List.drop_eq_nil_of_le (by omega)] at h
      cases h
      rfl

theorem skipSimpleIdentifier_eq (symbol : List UInt8) (position : ℕ) :
    skipSimpleIdentifier symbol position = slowPath symbol position := by
  unfold skipSimpleIdentifier
  split_ifs with hbefore
  · rfl
  · split
    · next hnil =>
      unfold slowPath
      rw [hnil]
      rfl
    · next ch rest hcons =>
      split_ifs with hsuspicious hletter
      · rfl
      · rw [Bool.not_eq_true] at hsuspicious
        unfold slowPath
        rw [hcons, nextJchar_ascii hsuspicious]
        simp only
        rw [if_neg fun hl => hletter ((isLetter_ascii hsuspicious).1.mp hl)]
      · rw [Bool.not_eq_true] at hsuspicious
        rw [ne_eq, not_not] at hletter
        cases hfast : fastLoop rest (position + 1) with
        | none => rfl
        | some position' =>
          have hrest : rest = symbol.drop (position + 1) := by
            rw [← List.drop_drop, hcons]
            rfl
          rw [hrest] at hfast
          unfold slowPath
          rw [hcons, nextJchar_ascii hsuspicious]
          simp only
          rw [if_pos ((isLetter_ascii hsuspicious).1.mpr hletter), fastLoop_eq (by omega) hfast]

/-! ## Class names -/

theorem qualifiedName_iff {trailing : Bool} {bytes chars rest} (hreads : Reads bytes chars rest)
    (hid : Identifier chars) (hstops : Stops rest) :
    QualifiedName trailing bytes ↔ rest = [] ∨ ∃ rest', rest = byte '/' :: rest' ∧
        ((trailing = true ∧ rest' = []) ∨ QualifiedName trailing rest') := by
  have hsame {chars' rest'} (hreads' : Reads bytes chars' rest') (hid' : Identifier chars')
      (hstops' : Stops rest') : rest = rest' :=
    (hreads.unique hid.lettersOrDigits hstops hreads' hid'.lettersOrDigits hstops').2
  constructor
  · intro h
    cases h with
    | last hreads' hid' => exact .inl (hsame hreads' hid' stops_nil)
    | slash htrailing hreads' hid' =>
      exact .inr ⟨[], hsame hreads' hid' (stops_slash []), .inl ⟨htrailing, rfl⟩⟩
    | qualified hreads' hid' hrest =>
      exact .inr ⟨_, hsame hreads' hid' (stops_slash _), .inr hrest⟩
  · rintro (rfl | ⟨rest', rfl, ⟨htrailing, rfl⟩ | hrest⟩)
    · exact .last hreads hid
    · exact .slash htrailing hreads hid
    · exact .qualified hreads hid hrest

theorem QualifiedName.exists_identifier {trailing : Bool} {bytes : List UInt8}
    (h : QualifiedName trailing bytes) :
    ∃ chars rest, Reads bytes chars rest ∧ Identifier chars ∧ Stops rest := by
  cases h with
  | last hreads hid => exact ⟨_, _, hreads, hid, stops_nil⟩
  | slash _ hreads hid => exact ⟨_, _, hreads, hid, stops_slash _⟩
  | qualified hreads hid _ => exact ⟨_, _, hreads, hid, stops_slash _⟩

theorem not_className_nil : ¬ClassName [] := by
  intro h
  obtain ⟨chars, rest, hreads, ⟨ch, tail, rfl, -⟩, -⟩ := h.exists_identifier
  cases not_reads_nil hreads

/-- The slow check accepts exactly the class names. -/
theorem skipClassIdentifier_eq_length_iff {fuel position : ℕ}
    (hfuel : symbol.length < position + fuel) (hposition : position ≤ symbol.length) :
    skipClassIdentifier symbol fuel position = some symbol.length ↔
      ClassName (symbol.drop position) := by
  induction fuel generalizing position with
  | zero => omega
  | succ fuel ih =>
    unfold skipClassIdentifier
    rw [skipSimpleIdentifier_eq]
    cases hslow : slowPath symbol position with
    | none =>
      refine iff_of_false nofun fun hname => ?_
      obtain ⟨chars, rest, hreads, hid, hstops⟩ := hname.exists_identifier
      obtain ⟨k, hk, rfl⟩ := hreads.exists_drop
      rw [List.length_drop] at hk
      rw [List.drop_drop] at hreads hstops
      have hsome := slowPath_eq_some_iff.mpr ⟨by omega, hstops, chars, hreads, hid⟩
      rw [hslow] at hsome
      cases hsome
    | some position' =>
      obtain ⟨hend, hstops, chars, hreads, hid⟩ := slowPath_eq_some_iff.mp hslow
      have hlt : position < position' := by
        by_contra hge
        obtain ⟨ch, tail, rfl, -⟩ := hid
        cases hreads with
        | cons hnext hrest =>
          obtain ⟨k, -, hk⟩ := hrest.exists_drop
          have hbounds := nextJchar_bounds hnext
          have hlength := congrArg List.length hk
          simp only [List.length_drop] at hbounds hlength
          omega
      rw [show ClassName (symbol.drop position) ↔ _ from qualifiedName_iff hreads hid hstops]
      simp only
      split_ifs with hge hslash
      · rw [show position' = symbol.length by omega]
        exact iff_of_true rfl (.inl (List.drop_eq_nil_of_le le_rfl))
      · refine iff_of_false (fun h => hge (Option.some.inj h).ge) ?_
        rintro (hnil | ⟨rest', hrest', -⟩)
        · rw [List.drop_eq_nil_iff] at hnil
          exact hge hnil
        · have hget : (symbol.drop position')[0]? = some (byte '/') := by
            rw [hrest']
            rfl
          rw [List.getElem?_drop, Nat.add_zero] at hget
          exact hslash hget
      · rw [not_not] at hslash
        have hcons : symbol.drop position' = byte '/' :: symbol.drop (position' + 1) := by
          rw [List.drop_eq_getElem_cons (by omega)]
          rw [List.getElem?_eq_getElem (by omega)] at hslash
          rw [Option.some.inj hslash]
        rw [ih (by omega) (by omega), hcons]
        constructor
        · intro h
          exact .inr ⟨_, rfl, .inr h⟩
        · rintro (hnil | ⟨rest', hrest', ⟨hfalse, -⟩ | h⟩)
          · cases hnil
          · cases hfalse
          · obtain rfl := (List.cons.inj hrest').2
            exact h

/-! ## The quick check -/

/-- ASCII bytes, none of them zero. -/
def Ascii (bytes : List UInt8) : Prop := ∀ b ∈ bytes, suspicious b = false

/-- What may follow the letters and digits of an identifier. -/
def RestOfName (bytes : List UInt8) : Prop :=
  ∃ chars rest, Reads bytes chars rest ∧ (∀ c ∈ chars, isLetterOrDigit c = true) ∧
    (rest = [] ∨ ∃ rest', rest = byte '/' :: rest' ∧ (rest' = [] ∨ QualifiedName true rest'))

theorem RestOfName.cons {ch : UInt8} {bytes : List UInt8} (hch : suspicious ch = false)
    (hletter : isLetterOrDigit ch.toNat = true) : RestOfName (ch :: bytes) ↔ RestOfName bytes := by
  constructor
  · rintro ⟨chars, rest, hreads, hchars, hrest⟩
    cases hreads with
    | nil =>
      exfalso
      rcases hrest with hnil | ⟨rest', hcons, -⟩
      · cases hnil
      · obtain rfl := (List.cons.inj hcons).1
        revert hletter
        decide
    | cons hnext hreads =>
      rw [nextJchar_ascii hch] at hnext
      cases hnext
      exact ⟨_, _, hreads, fun c hc => hchars c (List.mem_cons_of_mem _ hc), hrest⟩
  · rintro ⟨chars, rest, hreads, hchars, hrest⟩
    refine ⟨ch.toNat :: chars, rest, .cons (nextJchar_ascii hch bytes) hreads, fun c hc => ?_, hrest⟩
    rcases List.mem_cons.mp hc with rfl | hc
    · exact hletter
    · exact hchars c hc

theorem RestOfName.of_stops {bytes : List UInt8} (hstops : Stops bytes) : RestOfName bytes ↔
      bytes = [] ∨ ∃ rest, bytes = byte '/' :: rest ∧ (rest = [] ∨ QualifiedName true rest) := by
  constructor
  · rintro ⟨chars, rest, hreads, hchars, hrest⟩
    cases hreads with
    | nil => exact hrest
    | cons hnext _ =>
      have hyes := hchars _ List.mem_cons_self
      rw [hstops _ _ hnext] at hyes
      cases hyes
  · intro h
    exact ⟨[], bytes, .nil bytes, nofun, h⟩

theorem qualifiedName_cons {ch : UInt8} {bytes : List UInt8} (hch : suspicious ch = false) :
    QualifiedName true (ch :: bytes) ↔ isLetter ch.toNat = true ∧ RestOfName bytes := by
  constructor
  · intro h
    obtain ⟨chars, rest, hreads, hid, hstops⟩ := h.exists_identifier
    have hparts := (qualifiedName_iff hreads hid hstops).mp h
    obtain ⟨c, tail, rfl, hletter, htail⟩ := hid
    cases hreads with
    | cons hnext hreads =>
      rw [nextJchar_ascii hch] at hnext
      cases hnext
      refine ⟨hletter, tail, rest, hreads, htail, hparts.imp_right ?_⟩
      rintro ⟨rest', rfl, h'⟩
      exact ⟨rest', rfl, h'.imp_left And.right⟩
  · rintro ⟨hletter, tail, rest, hreads, htail, hrest⟩
    have hstops : Stops rest := by
      rcases hrest with rfl | ⟨rest', rfl, -⟩
      · exact stops_nil
      · exact stops_slash rest'
    refine (qualifiedName_iff (.cons (nextJchar_ascii hch bytes) hreads)
      ⟨ch.toNat, tail, rfl, hletter, htail⟩ hstops).mpr (hrest.imp_right ?_)
    rintro ⟨rest', rfl, h'⟩
    exact ⟨rest', rfl, h'.imp_left fun hnil => ⟨rfl, hnil⟩⟩

theorem ascii_cons {ch : UInt8} {bytes : List UInt8} :
    Ascii (ch :: bytes) ↔ suspicious ch = false ∧ Ascii bytes := List.forall_mem_cons

theorem quickLoop_iff (bytes : List UInt8) :
    (quickLoop true bytes = true ↔ Ascii bytes ∧ (bytes = [] ∨ QualifiedName true bytes)) ∧
      (quickLoop false bytes = true ↔ Ascii bytes ∧ RestOfName bytes) := by
  induction bytes with
  | nil =>
    have hascii : Ascii [] := nofun
    refine ⟨iff_of_true rfl ⟨hascii, .inl rfl⟩, iff_of_true rfl ⟨hascii, ?_⟩⟩
    exact (RestOfName.of_stops stops_nil).mpr (.inl rfl)
  | cons ch rest ih =>
    obtain ⟨ihTrue, ihFalse⟩ := ih
    rw [ascii_cons]
    by_cases hch : suspicious ch = false
    · obtain ⟨hletter, hdigit⟩ := isLetter_ascii hch
      have hsmall : ¬ch.toNat > 127 := by simpa [suspicious] using (Bool.or_eq_false_iff.mp hch).1
      rw [and_iff_right hch, qualifiedName_cons hch, hletter]
      constructor
      · unfold quickLoop
        rw [if_neg hsmall]
        split_ifs with hone
        · refine iff_of_false nofun ?_
          rintro ⟨-, hnil | ⟨hyes, -⟩⟩
          · cases hnil
          · exact hone hyes
        · rw [ne_eq, not_not] at hone
          rw [ihFalse, or_iff_right nofun, and_iff_right hone]
      · unfold quickLoop
        rw [if_pos (by omega)]
        split_ifs with hzero hslash
        · rw [ihFalse, RestOfName.cons hch (hdigit.mpr hzero)]
        · subst hslash
          rw [ihTrue, RestOfName.of_stops (stops_slash rest)]
          refine and_congr_right fun _ => ⟨fun h => .inr ⟨rest, rfl, h⟩, ?_⟩
          rintro (hnil | ⟨rest', hcons, h⟩)
          · cases hnil
          · obtain rfl := (List.cons.inj hcons).2
            exact h
        · refine iff_of_false nofun ?_
          rintro ⟨-, h⟩
          have hstops : Stops (ch :: rest) := by
            intro c n hnext
            rw [nextJchar_ascii hch] at hnext
            cases hnext
            rw [Bool.eq_false_iff]
            exact fun hyes => hzero (hdigit.mp hyes)
          rcases (RestOfName.of_stops hstops).mp h with hnil | ⟨rest', hcons, -⟩
          · cases hnil
          · exact hslash (List.cons.inj hcons).1
    · have hstuck : quickLoop true (ch :: rest) = false ∧ quickLoop false (ch :: rest) = false := by
        have hlarge : ch.toNat > 127 ∨ ch = 0 := by
          rw [Bool.not_eq_false] at hch
          simpa [suspicious, ← UInt8.toNat_inj] using hch
        unfold quickLoop
        rcases hlarge with hlarge | rfl
        · rw [if_pos hlarge, if_neg (by omega)]
          exact ⟨rfl, rfl⟩
        · exact ⟨rfl, rfl⟩
      rw [hstuck.1, hstuck.2]
      exact ⟨iff_of_false nofun fun h => hch h.1.1, iff_of_false nofun fun h => hch h.1.1⟩

/-- The quick check accepts ASCII names that are empty, or class names with
perhaps a slash at the end. -/
theorem isClassIdentifierQuick_iff : isClassIdentifierQuick symbol = true ↔
      Ascii symbol ∧ (symbol = [] ∨ QualifiedName true symbol) := (quickLoop_iff symbol).1

/-! ## Quick and slow scanners -/

theorem Reads.exists_eq_append {bytes rest : List UInt8} {chars : List ℕ}
    (h : Reads bytes chars rest)
    (hascii : Ascii bytes) : ∃ pre, bytes = pre ++ rest ∧ chars = pre.map UInt8.toNat := by
  induction h with
  | nil rest => exact ⟨[], rfl, rfl⟩
  | @cons bytes rest ch n chars hnext hreads ih =>
    cases bytes with
    | nil => cases hnext
    | cons b bytes =>
      obtain ⟨hb, htail⟩ := ascii_cons.mp hascii
      rw [nextJchar_ascii hb] at hnext
      cases hnext
      obtain ⟨pre, hpre, hchars⟩ := ih htail
      refine ⟨b :: pre, ?_, ?_⟩
      · rw [List.cons_append, ← hpre]
        rfl
      · rw [List.map_cons, hchars]

theorem reads_append {pre : List UInt8} (hascii : Ascii pre) (rest : List UInt8) :
    Reads (pre ++ rest) (pre.map UInt8.toNat) rest := by
  induction pre with
  | nil => exact .nil rest
  | cons b pre ih =>
    obtain ⟨hb, htail⟩ := ascii_cons.mp hascii
    exact .cons (nextJchar_ascii hb _) (ih htail)

theorem ascii_append {a b : List UInt8} : Ascii (a ++ b) ↔ Ascii a ∧ Ascii b :=
  List.forall_mem_append

theorem ascii_slash : Ascii [byte '/'] := by
  intro b hb
  rw [List.mem_singleton.mp hb]
  decide

theorem qualifiedName_true_iff {bytes : List UInt8} (hascii : Ascii bytes) :
    QualifiedName true bytes ↔
      ClassName bytes ∨ ∃ name, ClassName name ∧ bytes = name ++ [byte '/'] := by
  constructor
  · intro h
    induction h with
    | last hreads hid => exact .inl (.last hreads hid)
    | slash _ hreads hid =>
      obtain ⟨pre, rfl, rfl⟩ := hreads.exists_eq_append hascii
      have hpre := reads_append (ascii_append.mp hascii).1 []
      rw [List.append_nil] at hpre
      exact .inr ⟨pre, .last hpre hid, rfl⟩
    | qualified hreads hid _ ih =>
      obtain ⟨pre, rfl, rfl⟩ := hreads.exists_eq_append hascii
      obtain ⟨hpre, htail⟩ := ascii_append.mp hascii
      rcases ih (ascii_cons.mp htail).2 with hname | ⟨name, hname, rfl⟩
      · exact .inl (.qualified hreads hid hname)
      · refine .inr ⟨pre ++ byte '/' :: name, ?_, ?_⟩
        · exact .qualified (reads_append hpre _) hid hname
        · rw [List.append_assoc, List.cons_append]
  · rintro (h | ⟨name, h, rfl⟩)
    · induction h with
      | last hreads hid => exact .last hreads hid
      | slash hfalse _ _ => cases hfalse
      | qualified hreads hid _ ih =>
        obtain ⟨pre, rfl, rfl⟩ := hreads.exists_eq_append hascii
        exact .qualified hreads hid (ih (ascii_cons.mp (ascii_append.mp hascii).2).2)
    · have hname := (ascii_append.mp hascii).1
      clear hascii
      induction h with
      | last hreads hid =>
        obtain ⟨pre, rfl, rfl⟩ := hreads.exists_eq_append hname
        rw [List.append_nil] at hname ⊢
        exact .slash rfl (reads_append hname _) hid
      | slash hfalse _ _ => cases hfalse
      | qualified hreads hid _ ih =>
        obtain ⟨pre, rfl, rfl⟩ := hreads.exists_eq_append hname
        obtain ⟨hpre, htail⟩ := ascii_append.mp hname
        rw [List.append_assoc, List.cons_append]
        exact .qualified (reads_append hpre _) hid (ih (ascii_cons.mp htail).2)

theorem ClassName.exists_last {bytes : List UInt8} (h : ClassName bytes) (hascii : Ascii bytes) :
    ∃ init b, bytes = init ++ [b] ∧ isLetterOrDigit b.toNat = true := by
  induction h with
  | last hreads hid =>
    obtain ⟨pre, rfl, rfl⟩ := hreads.exists_eq_append hascii
    have hdigits := hid.lettersOrDigits
    obtain ⟨ch, tail, hchars, -⟩ := hid
    have hne : pre ≠ [] := by
      rintro rfl
      cases hchars
    refine ⟨pre.dropLast, pre.getLast hne, ?_, ?_⟩
    · rw [List.append_nil, List.dropLast_append_getLast hne]
    · exact hdigits _ (List.mem_map_of_mem (List.getLast_mem hne))
  | slash hfalse _ _ => cases hfalse
  | @qualified bytes rest chars hreads hid _ ih =>
    obtain ⟨pre, rfl, rfl⟩ := hreads.exists_eq_append hascii
    obtain ⟨init, b, rfl, hb⟩ := ih (ascii_cons.mp (ascii_append.mp hascii).2).2
    exact ⟨pre ++ byte '/' :: init, b, by rw [List.append_assoc, List.cons_append], hb⟩

/-- The scanners agree on a name: the fast path finds the end of an identifier that the slow path
finds, from any position, and the slow check consumes a name that the quick check accepts. -/
def ScannersAgree (symbol : List UInt8) : Prop :=
  (∀ position, skipSimpleIdentifier symbol position = slowPath symbol position) ∧
    (isClassIdentifierQuick symbol = true →
      skipClassIdentifier symbol (symbol.length + 1) 0 = some symbol.length)

/-- **Main theorem**: the scanners agree on every name but the empty one and the ASCII class names
with a slash after them. -/
theorem scannersAgree_iff (symbol : List UInt8) :
    ScannersAgree symbol ↔
      symbol ≠ [] ∧ ∀ name, symbol = name ++ [byte '/'] → Ascii name → ¬ClassName name := by
  have hslow : skipClassIdentifier symbol (symbol.length + 1) 0 = some symbol.length ↔
      ClassName symbol :=
    skipClassIdentifier_eq_length_iff (by omega) (Nat.zero_le _)
  rw [ScannersAgree, and_iff_right (skipSimpleIdentifier_eq symbol), isClassIdentifierQuick_iff, hslow]
  constructor
  · intro h
    refine ⟨?_, ?_⟩
    · rintro rfl
      exact not_className_nil (h ⟨nofun, Or.inl rfl⟩)
    · rintro name rfl hname hclass
      have hascii := ascii_append.mpr ⟨hname, ascii_slash⟩
      have hloose := (qualifiedName_true_iff hascii).mpr (Or.inr ⟨name, hclass, rfl⟩)
      obtain ⟨init, b, hinit, hb⟩ := (h ⟨hascii, Or.inr hloose⟩).exists_last hascii
      obtain ⟨-, hlast⟩ := List.append_inj' hinit rfl
      obtain rfl := (List.cons.inj hlast).1
      revert hb
      decide
  · rintro ⟨hne, hslash⟩ ⟨hascii, hnil | hloose⟩
    · exact absurd hnil hne
    · rcases (qualifiedName_true_iff hascii).mp hloose with hclass | ⟨name, hclass, rfl⟩
      · exact hclass
      · exact absurd hclass (hslash name rfl (ascii_append.mp hascii).1)

/-- The quick check accepts the name of a class with a slash after it, the slow one does not. -/
theorem not_scannersAgree_slash : ¬ScannersAgree [byte 'a', byte '/'] := by
  intro h
  have hslow := h.2 (by decide)
  revert hslow
  decide

end CldcVm.Handles
