import Mathlib.Data.Nat.Bitwise
import Mathlib.Tactic

/-!
# Characters and character classes

Models of the character-class masks of `javax/microedition/io/URIParser.java` (lines
28–139 and 1038–1095) and of the case and digit functions of
`com/sun/cldc/i18n/uclc/DefaultCaseConverter.java` and `java/lang/Integer.java` that the
parser calls.

A Java `char` is its code, and an interval `[start, end)` of the input is the list of
its characters. A class is a pair of masks of 64 bits; bit 0 of the low mask says that
escapes are allowed (so that the character 0 is in each such class as well).

Results:

* `Mask.matchChar_ascii`: only characters below 128 are in a class;
* `matchChar_hexdig`, `matchChar_digit`: two classes as ranges;
* `toLowerCase_idem`, `toUpperChar_idem`, `toLowerChar_toUpperChar`: the case functions.
-/

namespace CldcVm.Uri

/-- A Java `String`, as the codes of its characters. -/
abbrev Text := List ℕ

scoped instance coeCharNat : Coe Char ℕ := ⟨Char.toNat⟩

/-- The text of a literal. -/
def text (s : List Char) : Text := s.map Char.toNat

/-! ## Masks -/

/-- A pair of a low and a high mask. -/
structure Mask where
  low : ℕ
  high : ℕ
deriving DecidableEq

/-- `lowMask(String chars)`. -/
def lowMask (chars : List Char) : ℕ :=
  chars.foldl (fun m c => if c.toNat < 64 then m ||| 1 <<< c.toNat else m) 0

/-- `highMask(String chars)`. -/
def highMask (chars : List Char) : ℕ :=
  chars.foldl
    (fun m c => if 64 ≤ c.toNat ∧ c.toNat < 128 then m ||| 1 <<< (c.toNat - 64) else m) 0

/-- The loop `for (int i = f; i <= l; i++)` of both range masks. -/
def bitsFromTo (f l : ℕ) : ℕ :=
  (List.range' f (l + 1 - f)).foldl (fun m i => m ||| 1 <<< i) 0

/-- `lowMask(char first, char last)`. -/
def lowMaskRange (first last : Char) : ℕ :=
  if first.toNat < 64 then bitsFromTo (min first.toNat 63) (min last.toNat 63) else 0

/-- `highMask(char first, char last)`. -/
def highMaskRange (first last : Char) : ℕ :=
  if 64 ≤ last.toNat then
    bitsFromTo (max (min first.toNat 127) 64 - 64) (max (min last.toNat 127) 64 - 64)
  else 0

namespace Mask

/-- The class of the given characters. -/
def ofChars (chars : List Char) : Mask := ⟨lowMask chars, highMask chars⟩

/-- The class of a range of characters. -/
def ofRange (first last : Char) : Mask := ⟨lowMaskRange first last, highMaskRange first last⟩

instance : OrOp Mask := ⟨fun m n => ⟨m.low ||| n.low, m.high ||| n.high⟩⟩

/-- `match`. -/
def matchChar (m : Mask) (c : ℕ) : Bool :=
  if c < 64 then m.low.testBit c else if c < 128 then m.high.testBit (c - 64) else false

/-- `(lowMask & L_PCT_ENCODED) != 0`. -/
def allowsEscapes (m : Mask) : Bool := m.low.testBit 0

end Mask

/-! ## The classes -/

/-- `DIGIT`. -/
def digitMask : Mask := Mask.ofRange '0' '9'

/-- `ALPHA`. -/
def alphaMask : Mask := Mask.ofRange 'A' 'Z' ||| Mask.ofRange 'a' 'z'

/-- `HEXDIG`. -/
def hexdigMask : Mask := digitMask ||| Mask.ofRange 'A' 'F' ||| Mask.ofRange 'a' 'f'

/-- `SUB_DELIMS`. -/
def subDelimsMask : Mask :=
  Mask.ofChars ['!', '$', '&', '\'', '(', ')', '*', '+', ',', ';', '=']

/-- `PCT_ENCODED`. -/
def pctEncodedMask : Mask := ⟨1, 0⟩

/-- `UNRESERVED`. -/
def unreservedMask : Mask := alphaMask ||| digitMask ||| Mask.ofChars ['-', '.', '_', '~']

/-- `PCHAR`. -/
def pcharMask : Mask :=
  unreservedMask ||| pctEncodedMask ||| subDelimsMask ||| Mask.ofChars [':', '@']

/-- `SCHEME`. -/
def schemeMask : Mask := alphaMask ||| digitMask ||| Mask.ofChars ['+', '-', '.']

/-- `QUERY`. -/
def queryMask : Mask := pcharMask ||| Mask.ofChars ['/', '?']

/-- `REGNAME`. -/
def regnameMask : Mask := unreservedMask ||| pctEncodedMask ||| subDelimsMask

/-- `PATH`. -/
def pathMask : Mask := pcharMask ||| Mask.ofChars ['/']

/-- `DOT`. -/
def dotMask : Mask := Mask.ofChars ['.']

/-- `USERINFO`. -/
def userinfoMask : Mask :=
  unreservedMask ||| pctEncodedMask ||| subDelimsMask ||| Mask.ofChars [':']

/-- `IPvFUTURE`. -/
def ipvFutureMask : Mask := unreservedMask ||| subDelimsMask ||| Mask.ofChars [':']

variable {m : Mask} {c : ℕ}

theorem Mask.matchChar_ascii (h : m.matchChar c = true) : c < 128 := by
  unfold Mask.matchChar at h
  split_ifs at h with h64 h128
  · omega
  · exact h128

theorem Mask.forall_of_ascii {P : ℕ → Prop}
    (h : ∀ c < 128, m.matchChar c = true → P c) (hc : m.matchChar c = true) : P c :=
  h c (Mask.matchChar_ascii hc) hc

/-- A class as a predicate that is false from 128 on. -/
theorem Mask.matchChar_iff {P : ℕ → Prop}
    (hsmall : ∀ c < 128, m.matchChar c = true ↔ P c) (hlarge : ∀ c, 128 ≤ c → ¬ P c)
    (c : ℕ) : m.matchChar c = true ↔ P c := by
  by_cases hc : c < 128
  · exact hsmall c hc
  · constructor
    · intro h
      exact absurd (Mask.matchChar_ascii h) hc
    · intro h
      exact absurd h (hlarge c (by omega))

theorem matchChar_digit (c : ℕ) : digitMask.matchChar c = true ↔ 48 ≤ c ∧ c ≤ 57 := by
  apply Mask.matchChar_iff
  · decide
  · omega

theorem matchChar_hexdig (c : ℕ) : hexdigMask.matchChar c = true ↔
    48 ≤ c ∧ c ≤ 57 ∨ 65 ≤ c ∧ c ≤ 70 ∨ 97 ≤ c ∧ c ≤ 102 := by
  apply Mask.matchChar_iff
  · decide
  · omega

/-! ## Letter case -/

/-- `isLowerCase`. -/
def isLowerCase (c : ℕ) : Bool :=
  (97 ≤ c && c ≤ 122) || (0xDF ≤ c && c ≤ 0xF6) || (0xF8 ≤ c && c ≤ 0xFF)

/-- `isUpperCase`. -/
def isUpperCase (c : ℕ) : Bool :=
  (65 ≤ c && c ≤ 90) || (0xC0 ≤ c && c ≤ 0xD6) || (0xD8 ≤ c && c ≤ 0xDE)

/-- `toLowerCase(char)`: `'a' - 'A'` is `0x20`. -/
def toLowerChar (c : ℕ) : ℕ := if isUpperCase c then c + 0x20 else c

/-- `toUpperCase(char)`. -/
def toUpperChar (c : ℕ) : ℕ := if isLowerCase c then c - 0x20 else c

/-- `toLowerCase()`. -/
def toLowerCase (s : Text) : Text := s.map toLowerChar

/-- `toUpperCase()`. -/
def toUpperCase (s : Text) : Text := s.map toUpperChar

theorem toLowerChar_idem (c : ℕ) : toLowerChar (toLowerChar c) = toLowerChar c := by
  simp only [toLowerChar, isUpperCase]
  grind

theorem toLowerChar_toUpperChar (hc : c < 128) : toLowerChar (toUpperChar c) = toLowerChar c := by
  simp only [toLowerChar, toUpperChar, isUpperCase, isLowerCase]
  grind

theorem toUpperChar_idem (hc : c < 128) : toUpperChar (toUpperChar c) = toUpperChar c := by
  simp only [toUpperChar, isLowerCase]
  grind

theorem toLowerCase_idem (s : Text) : toLowerCase (toLowerCase s) = toLowerCase s := by
  simp only [toLowerCase, List.map_map]
  apply List.map_congr_left
  intro c _
  exact toLowerChar_idem c

/-! ## Digits -/

/-- `isDigit`. -/
def isDigit (c : ℕ) : Bool := 48 ≤ c && c ≤ 57

/-- `Character.digit` for the radixes 10 and 16, `none` for -1: the letters of the upper
half of ISO Latin-1 count as letters here. -/
def charDigit (c : ℕ) (radix : ℕ) : Option ℕ :=
  if isDigit c then
    if c - 48 < radix then some (c - 48) else none
  else if isUpperCase c || isLowerCase c then
    if c % 32 + 9 < radix then some (c % 32 + 9) else none
  else none

/-- The loop of `Integer.parseInt` with radix 10: the accumulator is negative there, and
is shown by its absolute value here; `limit` is that of the code, negated. -/
def parseDigits (limit : ℕ) : (result : ℕ) → Text → Option ℕ
  | result, [] => some result
  | result, c :: rest =>
    match charDigit c 10 with
    | none => none
    | some digit =>
      if limit / 10 < result then none
      else if limit < result * 10 + digit then none
      else parseDigits limit (result * 10 + digit) rest

/-- `Integer.parseInt`, `none` for a `NumberFormatException`. -/
def parseInt (s : Text) : Option ℤ :=
  match s with
  | [] => none
  | c :: rest =>
    if c = '-' then
      if rest = [] then none else (parseDigits (2 ^ 31) 0 rest).map fun n => -Int.ofNat n
    else (parseDigits (2 ^ 31 - 1) 0 (c :: rest)).map Int.ofNat

/-- `digits[i]`, for the radixes up to 16. -/
def digitChar (i : ℕ) : ℕ := if i < 10 then 48 + i else 87 + i

/-- `Integer.toString` of a number that is not negative, and `Integer.toHexString`: the
digits from the last one on, before those that are there already. -/
def digitsBefore (radix : ℕ) : (fuel i : ℕ) → Text → Text
  | 0, _, buf => buf
  | fuel + 1, i, buf =>
    if i < radix then digitChar i :: buf
    else digitsBefore radix fuel (i / radix) (digitChar (i % radix) :: buf)

/-- `String.valueOf(int)`, of a number that is not negative. -/
def valueOf (i : ℕ) : Text := digitsBefore 10 32 i []

/-- `Integer.toHexString`. -/
def toHexString (i : ℕ) : Text := digitsBefore 16 32 i []

end CldcVm.Uri
