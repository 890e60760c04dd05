import CldcVm.Uri.Addresses

/-!
# The parser of connection URIs

Models of the scan and parse methods of `javax/microedition/io/URIParser.java` (lines
141–1013), and of the constructor of the class.

Every scan and parse method takes an interval `[start, end)` of the input. Here it takes
the characters of the interval, and the position that it returns is given by the
characters from there to the end of the interval; a position not above `start` that
stands for a failure is `none`. What a method appends to `normalized` and the fields that
it sets are changes of an explicit state.
-/

namespace CldcVm.Uri

/-- What a constructor call throws: `fail(reason)`, with the text of the input behind the
reason; the exception of `canonicalIPv6Name`; a `NumberFormatException`. -/
inductive URIException where
  | illegalArgument (reason : String)
  | malformedIPv6Address
  | numberFormat
deriving DecidableEq, Repr

/-- `fail`. -/
def fail {α : Type} (reason : String) : Except URIException α :=
  .error (.illegalArgument reason)

/-- `failExpecting`. -/
def failExpecting {α : Type} (expected : String) : Except URIException α :=
  fail ("Expected " ++ expected)

/-- `PortRangeNormalizer`: both methods may store to the array of the range. -/
structure PortRangeNormalizer where
  normalize : (host : Option Text) → (portspec : Text) → ℤ × ℤ →
    Except URIException (Option Text × (ℤ × ℤ))
  normalizeRange : ℤ × ℤ → Except URIException (Option Text × (ℤ × ℤ))

/-- The arguments of the constructor beside the text. -/
structure Settings where
  portRangeNormalizer : Option PortRangeNormalizer
  pathNormalizer : Option (Text → Except URIException Text)
  normalizeAuthority : Bool

/-- The fields of a `URIParser`. -/
structure URIParser where
  scheme : Option Text := none
  fragment : Option Text := none
  userInfo : Option Text := none
  host : Option Text := none
  portrange : ℤ × ℤ := (0, 65535)
  portrangeString : Option Text := none
  path : Option Text := none
  query : Option Text := none
  schemeSpecificPart : Option Text := none
  normalized : Text := []
  ipv6byteCount : ℕ := 0
deriving DecidableEq

/-- `append`. -/
def URIParser.append (u : URIParser) (s : Text) : URIParser :=
  { u with normalized := u.normalized ++ s }

/-! ## Scanning -/

/-- `at(start, end, c)`. -/
def atChar (s : Text) (c : Char) : Bool := s.head? == some c.toNat

/-- `at(start, end, s)`. -/
def atString (s : Text) (t : List Char) : Bool := (text t).isPrefixOf s

/-- `scan(start, end, "", stop)`. -/
def scan (stop : List Char) (s : Text) : Text × Text := s.span fun c => !(text stop).contains c

/-- `scan(start, n, lowMask, highMask)`, with `scanEscape`. -/
def scanMask (m : Mask) : Text → Except URIException (Text × Text)
  | [] => .ok ([], [])
  | c :: rest =>
    if m.matchChar c then do
      let (s, p) ← scanMask m rest
      .ok (c :: s, p)
    else if m.allowsEscapes ∧ c = '%' then
      match rest with
      | a :: b :: rest =>
        if hexdigMask.matchChar a ∧ hexdigMask.matchChar b then do
          let (s, p) ← scanMask m rest
          .ok (c :: a :: b :: s, p)
        else fail "Malformed pct-encoded string"
      | _ => fail "Malformed pct-encoded string"
    else .ok ([], c :: rest)

/-- `checkChars`. -/
def checkChars (m : Mask) (what : String) (s : Text) : Except URIException Unit := do
  let (_, p) ← scanMask m s
  if p ≠ [] then fail ("Illegal character in " ++ what) else .ok ()

/-! ## The loop of `normalizePercentEncoded` -/

/-- The text that the loop builds: the stretches `[q, p)` between the triplets are copied
character by character here. -/
def upperTriplets : Text → Text
  | c :: a :: b :: rest =>
    if c = '%' ∧ hexdigMask.matchChar a ∧ hexdigMask.matchChar b then
      toUpperCase [c, a, b] ++ upperTriplets rest
    else c :: upperTriplets (a :: b :: rest)
  | s => s

/-- `normalizePercentEncoded`. -/
def normalizePercentEncoded (u : URIParser) : Except URIException URIParser :=
  let s := upperTriplets u.normalized
  if toUpperCase u.normalized ≠ toUpperCase s then
    fail "Internal parser error: normalization failed"
  else .ok { u with normalized := s }

/-! ## IPv4 addresses -/

/-- `scanByte`. -/
def scanByte (s : Text) : Except URIException (Option Text) := do
  let (d, q) ← scanMask digitMask s
  if d = [] then .ok none
  else match parseInt d with
    | none => .error .numberFormat
    | some value =>
      if 255 < value then .ok none
      else if valueOf value.toNat ≠ d then .ok none
      else .ok (some q)

/-- The body of the `for (;;)` of `scanIPv4Address`: `k` more bytes follow the next one;
false for a `break`. -/
def scanBytes : (k : ℕ) → Text → Except URIException Bool
  | k, p => do
    match ← scanByte p, k with
    | none, _ => .ok false
    | some q, 0 => .ok (q = [])
    | some q, k + 1 => if atChar q '.' then scanBytes k (q.drop 1) else .ok false

/-- `scanIPv4Address`. -/
def scanIPv4Address (s : Text) (strict : Bool) : Except URIException (Option Text) := do
  let (d, q) ← scanMask (digitMask ||| dotMask) s
  if d = [] ∨ strict ∧ q ≠ [] then .ok none
  else if ← scanBytes 3 d then .ok (some q)
  else fail "Malformed IPv4 address"

/-- `takeIPv4Address`. -/
def takeIPv4Address (s : Text) (expected : String) : Except URIException Text := do
  match ← scanIPv4Address s true with
  | some p => .ok p
  | none => failExpecting expected

/-- `parseIPv4Address`. -/
def parseIPv4Address (u : URIParser) (s : Text) : Option (URIParser × Text) :=
  match scanIPv4Address s false with
  | .error _ | .ok none => none
  | .ok (some p) =>
    if p ≠ [] ∧ ¬ atChar p ':' then none
    else
      let host := s.take (s.length - p.length)
      some ({ u with host := some host }.append host, p)

/-! ## Registered names -/

/-- `"localhost"`. -/
def localhost : Text := text ['l', 'o', 'c', 'a', 'l', 'h', 'o', 's', 't']

/-- `parseRegname`. -/
def parseRegname (cfg : Settings) (u : URIParser) (s : Text) :
    Except URIException (URIParser × Text) := do
  let (name, p) ← scanMask regnameMask s
  if p ≠ [] ∧ ¬ atChar p ':' then fail "Illegal character in hostname"
  else
    let host := toLowerCase name
    let host := if cfg.normalizeAuthority ∧ host = localhost then [] else host
    .ok ({ u with host := some host }.append host, p)

/-! ## IP literals -/

/-- `parseIPvFuture`: the host takes in the bracket before the interval, and the character
behind what was scanned, which is the other bracket at the end of the interval. -/
def parseIPvFuture (u : URIParser) (s : Text) : Except URIException (URIParser × Text) := do
  if ¬ atChar s 'v' ∧ ¬ atChar s 'V' then failExpecting "IPvFuture address"
  else
    let (version, p) ← scanMask hexdigMask (s.drop 1)
    if version = [] ∨ ¬ atChar p '.' then failExpecting "IPvFuture address"
    else
      let (address, q) ← scanMask ipvFutureMask (p.drop 1)
      if address = [] then failExpecting "IPvFuture address"
      else
        let behind := (q ++ [']'.toNat]).take 1
        .ok ({ u with host := some ('['.toNat :: s.take (s.length - q.length) ++ behind) }, q)

/-- `canonicalIPv6Name`: every `RuntimeException`, that of a `null` address as well, comes
out as one exception. -/
def canonicalIPv6Name (name : Text) : Except URIException Text :=
  match textToNumericFormatIPv6 name with
  | none => .error .malformedIPv6Address
  | some address =>
    if address.length = 4 then .ok (numericToTextFormatIPv4 address)
    else .ok (numericToTextFormatIPv6 address)

/-- The loop of `scanHexSeq`, from `p`, with the count of bytes. A round takes two
characters at least, so that the length of the interval is enough as `fuel`. -/
def scanHexSeqFrom : (fuel : ℕ) → Text → (byteCount : ℕ) → Except URIException (Text × ℕ)
  | 0, p, byteCount => .ok (p, byteCount)
  | fuel + 1, p, byteCount =>
    if ¬ atChar p ':' then .ok (p, byteCount)
    else if atChar (p.drop 1) ':' then .ok (p, byteCount)
    else do
      let (h, q) ← scanMask hexdigMask (p.drop 1)
      if h = [] then failExpecting "digits for an IPv6 address"
      else if atChar q '.' then .ok (p, byteCount)
      else if 4 < h.length then fail "IPv6 hexadecimal digit sequence too long"
      else scanHexSeqFrom fuel q (byteCount + 2)

/-- `scanHexSeq`. -/
def scanHexSeq (s : Text) (byteCount : ℕ) : Except URIException (Option Text × ℕ) := do
  let (h, q) ← scanMask hexdigMask s
  if h = [] then .ok (none, byteCount)
  else if atChar q '.' then .ok (none, byteCount)
  else if 4 < h.length then fail "IPv6 hexadecimal digit sequence too long"
  else do
    let (p, byteCount) ← scanHexSeqFrom q.length q (byteCount + 2)
    .ok (some p, byteCount)

/-- `scanHexPost`. -/
def scanHexPost (s : Text) (byteCount : ℕ) : Except URIException (Text × ℕ) := do
  if s = [] then .ok (s, byteCount)
  else
    match ← scanHexSeq s byteCount with
    | (some p, byteCount) =>
      if atChar p ':' then do
        let p ← takeIPv4Address (p.drop 1) "hex digits or IPv4 address"
        .ok (p, byteCount + 4)
      else .ok (p, byteCount)
    | (none, byteCount) => do
      let p ← takeIPv4Address s "hex digits or IPv4 address"
      .ok (p, byteCount + 4)

/-- The scan of `parseIPv6Address`: the position, `compressedZeros` and the count of
bytes. -/
def scanIPv6Address (s : Text) (byteCount : ℕ) : Except URIException (Text × Bool × ℕ) := do
  match ← scanHexSeq s byteCount with
  | (some p, byteCount) =>
    if atString p [':', ':'] then do
      let (p, byteCount) ← scanHexPost (p.drop 2) byteCount
      .ok (p, true, byteCount)
    else if atChar p ':' then do
      let p ← takeIPv4Address (p.drop 1) "IPv4 address"
      .ok (p, false, byteCount + 4)
    else .ok (p, false, byteCount)
  | (none, byteCount) =>
    if atString s [':', ':'] then do
      let (p, byteCount) ← scanHexPost (s.drop 2) byteCount
      .ok (p, true, byteCount)
    else .ok (s, false, byteCount)

/-- `parseIPv6Address`. -/
def parseIPv6Address (u : URIParser) (s : Text) : Except URIException (URIParser × Text) := do
  let (p, compressedZeros, byteCount) ← scanIPv6Address s u.ipv6byteCount
  if 16 < byteCount then fail "IPv6 address too long"
  else if compressedZeros = false ∧ byteCount < 16 then fail "IPv6 address too short"
  else if compressedZeros = true ∧ byteCount = 16 then fail "Malformed IPv6 address"
  else
    let name ← canonicalIPv6Name (s.take (s.length - p.length))
    let host := '['.toNat :: name ++ [']'.toNat]
    .ok ({ u with host := some host, ipv6byteCount := byteCount }.append host, p)

/-- `parseHost`. -/
def parseHost (cfg : Settings) (u : URIParser) (s : Text) :
    Except URIException (URIParser × Text) := do
  if atChar s '[' then
    let (literal, p) := scan [']'] (s.drop 1)
    if literal ≠ [] ∧ atChar p ']' then
      if atChar literal 'v' ∨ atChar literal 'V' then do
        let (u, q) ← parseIPvFuture u literal
        if q ≠ [] then fail "Malformed IPvFuture address" else .ok (u, p.drop 1)
      else do
        let (u, q) ← parseIPv6Address u literal
        if q ≠ [] then fail "Malformed IPv6 address" else .ok (u, p.drop 1)
    else failExpecting "closing bracket for IPv6 or IPvFuture address"
  else
    match parseIPv4Address u s with
    | some (u, p) => .ok (u, p)
    | none => parseRegname cfg u s

/-! ## Port ranges -/

/-- `String.valueOf(int)`. -/
def valueOfInt (i : ℤ) : Text :=
  if i < 0 then '-'.toNat :: valueOf (-i).toNat else valueOf i.toNat

/-- The statement `if (r > p) {..}` of `parsePortRange`, with `low` and `high`. -/
def parseLowPort (a b : Text) : Option (ℤ × ℤ) :=
  if a ≠ [] then (parseInt a).map fun low => (low, if b = [] then low else 65535)
  else some (0, 65535)

/-- The statement `if (r + 1 < n) {..}` of `parsePortRange`. -/
def parseHighPort (b : Text) (high : ℤ) : Option ℤ :=
  if 1 < b.length then parseInt (b.drop 1) else some high

/-- The `try` of `parsePortRange`, `none` for a `NumberFormatException`. -/
def parsePorts (s : Text) : Option (ℤ × ℤ) :=
  let (a, b) := scan ['-'] s
  (parseLowPort a b).bind fun ports =>
    (parseHighPort b ports.2).map fun high => (ports.1, high)

/-- The normalized text of a range that has no scheme-specific one. -/
def portRangeText (range : ℤ × ℤ) : Text :=
  if range.1 = range.2 then ':'.toNat :: valueOfInt range.1
  else ':'.toNat :: valueOfInt range.1 ++ '-'.toNat :: valueOfInt range.2

/-- `":0-65535"`. -/
def allPortsText : Text := text [':', '0', '-', '6', '5', '5', '3', '5']

/-- `parsePortRange`. -/
def parsePortRange (cfg : Settings) (u : URIParser) (s : Text) :
    Except URIException (URIParser × Text) := do
  let (spec, q) := scan ['/'] s
  let u := { u with portrangeString := some spec }
  let (norm, range) ←
    if spec = text [':', '*'] then .ok (some allPortsText, ((0 : ℤ), (65535 : ℤ)))
    else match cfg.portRangeNormalizer with
      | some normalizer => normalizer.normalize u.host spec (-1, -1)
      | none => .ok (none, (-1, -1))
  match norm with
  | some norm => .ok ({ u.append norm with portrange := range }, q)
  | none =>
    if atChar s ':' then
      match parsePorts (s.drop 1) with
      | none => fail "Malformed port range"
      | some (low, high) =>
        if low < 0 ∨ high < 0 ∨ high < low then fail "Invalid port range"
        else
          let (norm, range) ← match cfg.portRangeNormalizer with
            | some normalizer => normalizer.normalizeRange (low, high)
            | none => .ok (none, (low, high))
          .ok ({ u.append (norm.getD (portRangeText range)) with portrange := range }, q)
    else if spec ≠ [] then fail "Malformed port range"
    else .ok ({ u with portrange := range }, q)

/-! ## The parts of a URI -/

/-- `parseAuthority`. -/
def parseAuthority (cfg : Settings) (u : URIParser) (s : Text) :
    Except URIException (URIParser × Text) := do
  let (user, q) ← scanMask userinfoMask s
  let (u, p) ← if user ≠ [] ∧ atChar q '@' then
      parseHost cfg ({ u with userInfo := some user }.append (user ++ ['@'.toNat])) (q.drop 1)
    else parseHost cfg u s
  parsePortRange cfg u p

/-- The part of `parseHierarchical` for the authority, from the first character of it; the
characters behind it. -/
def parsePresentAuthority (cfg : Settings) (u : URIParser) (s : Text) :
    Except URIException (URIParser × Text) := do
  let (authority, q) := scan ['/'] s
  let (u, p) ← parseAuthority cfg (u.append (text ['/', '/'])) authority
  if p ≠ [] ∧ ¬ atChar (p ++ q) '/' then failExpecting "absolute or empty path"
  else .ok (u, p ++ q)

/-- The statement `if (normalizeAuthority || authorityPresent) {..}` of `parseHierarchical`. -/
def parseHierarchicalAuthority (cfg : Settings) (u : URIParser) (s : Text) :
    Except URIException (URIParser × Text) :=
  let authorityPresent := atString s ['/', '/']
  if cfg.normalizeAuthority ∨ authorityPresent then
    parsePresentAuthority cfg u (if authorityPresent then s.drop 2 else s)
  else .ok (u, s)

/-- `parseHierarchical`. -/
def parseHierarchical (cfg : Settings) (u : URIParser) (s : Text) :
    Except URIException URIParser := do
  let (u, p) ← parseHierarchicalAuthority cfg u s
  checkChars pathMask "path" p
  let path ← match cfg.pathNormalizer with
    | some normalizer => normalizer p
    | none => .ok p
  .ok ({ u with path := some path }.append path)

/-- `parseQuery`. -/
def parseQuery (u : URIParser) (s : Text) : Except URIException URIParser := do
  checkChars queryMask "query component" s
  .ok ({ u with query := some s }.append ('?'.toNat :: s))

/-- `parseFragment`. -/
def parseFragment (u : URIParser) (s : Text) : Except URIException URIParser := do
  checkChars queryMask "fragment component" s
  .ok ({ u with fragment := some s }.append ('#'.toNat :: s))

/-- The part of `parse` for the query; the characters behind it. -/
def parseQueryPart (u : URIParser) (s : Text) : Except URIException (URIParser × Text) := do
  if atChar s '?' then
    let (query, p) := scan ['#'] (s.drop 1)
    let u ← parseQuery u query
    .ok (u, p)
  else .ok (u, s)

/-- The part of `parse` for the fragment. -/
def parseFragmentPart (u : URIParser) (s : Text) : Except URIException URIParser :=
  if atChar s '#' then parseFragment u (s.drop 1) else .ok u

/-- The part of `parse` behind the hierarchical part. -/
def parseTail (u : URIParser) (ssp : ℕ) (p : Text) : Except URIException URIParser := do
  let (u, p) ← parseQueryPart u p
  let u ← parseFragmentPart u p
  normalizePercentEncoded { u with schemeSpecificPart := some (u.normalized.drop ssp) }

/-- `parse`, with the constructor. -/
def parse (cfg : Settings) (input : Text) : Except URIException URIParser := do
  let (scheme, p) := scan [':'] input
  if scheme ≠ [] ∧ atChar p ':' then
    checkChars alphaMask "scheme name" (scheme.take 1)
    checkChars schemeMask "scheme name" (scheme.drop 1)
    let u : URIParser := { scheme := some (toLowerCase scheme) }
    let u := u.append (toLowerCase scheme ++ [':'.toNat])
    let (hierarchical, p) := scan ['?', '#'] (p.drop 1)
    let u ← parseHierarchical cfg u hierarchical
    parseTail u (scheme.length + 1) p
  else failExpecting "scheme name"

end CldcVm.Uri
