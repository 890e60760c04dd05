import CldcVm.Uri.Chars

/-!
# Numeric and textual addresses

Models of `numericToTextFormatIPv4`, `textToNumericFormatIPv4`, `numericToTextFormatIPv6`,
`textToNumericFormatIPv6`, `isIPv4MappedAddress` and `convertFromIPv4MappedAddress` of
`javax/microedition/io/URIParser.java` (lines 1067–1301).

A `byte[]` is the list of its bytes, as numbers from 0 to 255, and `null` is `none`. The
position `i` in the text is the rest of the text, and so is `curtok`. `bytesOfText` is
`textToNumericFormatIPv6` up to its last call, for the bytes of an IPv4-mapped address
as well.
-/

namespace CldcVm.Uri

/-! ## IPv4 -/

/-- `numericToTextFormatIPv4`. -/
def numericToTextFormatIPv4 (src : List ℕ) : Text :=
  valueOf (src.getD 0 0) ++ ['.'.toNat] ++ valueOf (src.getD 1 0) ++ ['.'.toNat] ++
    valueOf (src.getD 2 0) ++ ['.'.toNat] ++ valueOf (src.getD 3 0)

/-- The loop of `textToNumericFormatIPv4`. -/
def textToNumericIPv4From : Text → (dst : List ℕ) → (cur octets : ℕ) → (sawDigit : Bool) →
    Option (List ℕ)
  | [], dst, _, octets, _ => if octets < 4 then none else some dst
  | ch :: rest, dst, cur, octets, sawDigit =>
    if isDigit ch then
      let sum := dst.getD cur 0 * 10 + (charDigit ch 10).getD 0xff
      if 255 < sum then none
      else if sawDigit then textToNumericIPv4From rest (dst.set cur sum) cur octets true
      else if 4 < octets + 1 then none
      else textToNumericIPv4From rest (dst.set cur sum) cur (octets + 1) true
    else if ch = '.' ∧ sawDigit then
      if octets = 4 then none
      else textToNumericIPv4From rest (dst.set (cur + 1) 0) (cur + 1) octets false
    else none

/-- `textToNumericFormatIPv4`. -/
def textToNumericFormatIPv4 (src : Text) : Option (List ℕ) :=
  if src = [] then none else textToNumericIPv4From src (List.replicate 4 0) 0 0 false

/-! ## IPv6 -/

/-- `numericToTextFormatIPv6`. -/
def numericToTextFormatIPv6 (src : List ℕ) : Text :=
  (List.range 8).flatMap fun i =>
    toHexString (src.getD (2 * i) 0 * 256 + src.getD (2 * i + 1) 0) ++
      if i < 7 then [':'.toNat] else []

/-- The locals of `textToNumericFormatIPv6` that the loop leaves behind. -/
structure NumericState where
  colonp : Option ℕ
  dst : List ℕ
  j : ℕ
  sawXdigit : Bool
  val : ℕ

/-- `dst[j++] = (byte) ((val >> 8) & 0xff); dst[j++] = (byte) (val & 0xff);`. -/
def NumericState.putVal (st : NumericState) : NumericState :=
  { st with
    dst := (st.dst.set st.j (st.val / 256 % 256)).set (st.j + 1) (st.val % 256)
    j := st.j + 2 }

/-- The loop of `textToNumericFormatIPv6`; `val <<= 4` leaves the low four bits clear, so
that `|=` adds. -/
def textToNumericIPv6From : Text → (curtok : Text) → NumericState → Option NumericState
  | [], _, st => some st
  | ch :: rest, curtok, st =>
    match charDigit ch 16 with
    | some chval =>
      if 0xffff < st.val * 16 + chval then none
      else textToNumericIPv6From rest curtok
        { st with val := st.val * 16 + chval, sawXdigit := true }
    | none =>
      if ch = ':' then
        if st.sawXdigit = false then
          if st.colonp.isSome then none
          else textToNumericIPv6From rest rest { st with colonp := some st.j }
        else if rest = [] then none
        else if 16 < st.j + 2 then none
        else textToNumericIPv6From rest rest { st.putVal with sawXdigit := false, val := 0 }
      else if ch = '.' ∧ st.j + 4 ≤ 16 then
        match textToNumericFormatIPv4 curtok with
        | none => none
        | some v4addr => some
          { st with
            dst := (((st.dst.set st.j (v4addr.getD 0 0)).set (st.j + 1) (v4addr.getD 1 0)).set
              (st.j + 2) (v4addr.getD 2 0)).set (st.j + 3) (v4addr.getD 3 0)
            j := st.j + 4
            sawXdigit := false }
      else none

/-- The loop that moves the bytes behind a `::` to the end. -/
def moveBehindColons (colonp n : ℕ) (dst : List ℕ) : List ℕ :=
  (List.range' 1 n).foldl
    (fun dst i => (dst.set (16 - i) (dst.getD (colonp + n - i) 0)).set (colonp + n - i) 0) dst

/-- `textToNumericFormatIPv6` after the loop, up to the call of
`convertFromIPv4MappedAddress`. -/
def finishNumericIPv6 (st : NumericState) : Option (List ℕ) :=
  if st.sawXdigit ∧ 16 < st.j + 2 then none
  else
    let st := if st.sawXdigit then st.putVal else st
    match st.colonp with
    | some colonp =>
      if st.j = 16 then none else some (moveBehindColons colonp (st.j - colonp) st.dst)
    | none => if st.j = 16 then some st.dst else none

/-- `textToNumericFormatIPv6`, up to the call of `convertFromIPv4MappedAddress`. After a
leading colon alone in the text, the access to the next character throws. -/
def bytesOfText (src : Text) : Option (List ℕ) :=
  let st : NumericState := ⟨none, List.replicate 16 0, 0, false, 0⟩
  match src with
  | [] => none
  | ch :: rest =>
    if ch = ':' then
      if rest.head? = some ':'.toNat then
        (textToNumericIPv6From rest rest st).bind finishNumericIPv6
      else none
    else (textToNumericIPv6From src src st).bind finishNumericIPv6

/-- `isIPv4MappedAddress`. -/
def isIPv4MappedAddress (addr : List ℕ) : Bool :=
  if addr.length < 16 then false
  else (List.range 10).all (fun k => addr.getD k 0 == 0) &&
    addr.getD 10 0 == 0xff && addr.getD 11 0 == 0xff

/-- `convertFromIPv4MappedAddress`. -/
def convertFromIPv4MappedAddress (addr : List ℕ) : Option (List ℕ) :=
  if isIPv4MappedAddress addr then some ((addr.drop 12).take 4) else none

/-- `textToNumericFormatIPv6`. -/
def textToNumericFormatIPv6 (src : Text) : Option (List ℕ) :=
  (bytesOfText src).map fun dst => (convertFromIPv4MappedAddress dst).getD dst

end CldcVm.Uri
