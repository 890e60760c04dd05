import CldcVm.Uri.Authority

/-!
# The normalized text of a URI

`parse` builds, beside the fields, a normalized text. Here it is parsed again, in both
modes of the parser, without scheme-specific normalizers.

Results:

* `isCanonical_iff`: the normalized text gives the same URI back, up to the letter case of
  the digits of escapes, and is its own normalized text, if and only if the host is
  neither an IPvFuture address, which is not appended to it, nor an IPv4-mapped IPv6
  address, of which the brackets and the IPv4 address are appended;
* `not_isCanonical_ipvFuture`: the text `http://[v1.a]/`, for which it does not.
-/

namespace CldcVm.Uri

/-- The parser without scheme-specific normalizers. -/
def withoutNormalizers (normalizeAuthority : Bool) : Settings := ⟨none, none, normalizeAuthority⟩

/-- Equal fields, up to the letter case of the digits of escapes. -/
def SameField (s t : Option Text) : Prop := Option.Rel EscapeEq s t

/-- The normalized text is accepted, is its own normalized text, and gives the same scheme,
host, port range, path, query and fragment. -/
def IsCanonical (cfg : Settings) (u : URIParser) : Prop :=
  ∃ v, parse cfg u.normalized = .ok v ∧ v.normalized = u.normalized ∧ v.scheme = u.scheme ∧
    SameField u.host v.host ∧ v.portrange = u.portrange ∧ SameField u.path v.path ∧
    SameField u.query v.query ∧ SameField u.fragment v.fragment

/-- The authority of an input, where it is parsed. -/
def authorityText (normalizeAuthority : Bool) (input : Text) : Option Text :=
  let hierarchical := (scan ['?', '#'] ((scan [':'] input).2.drop 1)).1
  if atString hierarchical ['/', '/'] then some (scan ['/'] (hierarchical.drop 2)).1
  else if normalizeAuthority then some (scan ['/'] hierarchical).1
  else none

theorem SameField.refl (s : Option Text) : SameField s s := by
  cases s with
  | none => exact Option.Rel.none
  | some s => exact Option.Rel.some (EscapeEq.refl s)

theorem sameField_map_upperTriplets {s : Option Text} (h : ∀ x, s = some x → Escaped x) :
    SameField s (s.map upperTriplets) := by
  cases s with
  | none => exact Option.Rel.none
  | some s => exact Option.Rel.some (escapeEq_upperTriplets (h s rfl))

/-! ## Facts about the classes -/

theorem not_escape_path : pathMask.matchChar '%'.toNat = false := by decide

theorem not_escape_query : queryMask.matchChar '%'.toNat = false := by decide

theorem not_escape_alpha : alphaMask.matchChar '%'.toNat = false := by decide

theorem not_escape_scheme : schemeMask.matchChar '%'.toNat = false := by decide

variable {s : Text}

theorem Conforms.path_avoids (h : Conforms pathMask s) : Avoids ['?', '#'] s := by
  apply h.avoids
  · decide
  · decide

theorem Conforms.query_avoids (h : Conforms queryMask s) : Avoids ['#'] s := by
  apply h.avoids
  · decide
  · decide

theorem Conforms.toLowerCase {m : Mask} (hm : m.allowsEscapes = false)
    (hlower : ∀ c < 128, m.matchChar c = true → m.matchChar (toLowerChar c) = true)
    (h : Conforms m s) : Conforms m (toLowerCase s) := by
  apply conforms_of_forall
  intro c hc
  obtain ⟨d, hd, rfl⟩ := List.mem_map.mp hc
  have hmatch := h.forall_mem hm d hd
  exact hlower d (Mask.matchChar_ascii hmatch) hmatch

/-! ## The end of a parse -/

/-- The state after the query. -/
def withQuery (u : URIParser) : Option Text → URIParser
  | none => u
  | some query => { u with query := some query }.append ('?'.toNat :: query)

/-- The state after the fragment. -/
def withFragment (u : URIParser) : Option Text → URIParser
  | none => u
  | some fragment => { u with fragment := some fragment }.append ('#'.toNat :: fragment)

/-- The state of a parser at its end, from the state after the authority. -/
def finish (path : Text) (query fragment : Option Text) (ssp : ℕ) (u : URIParser) : URIParser :=
  let v := withFragment (withQuery ({ u with path := some path }.append path) query) fragment
  { v with
    schemeSpecificPart := some (v.normalized.drop ssp)
    normalized := upperTriplets v.normalized }

/-- The text of a query or a fragment. -/
def partText (c : Char) : Option Text → Text
  | none => []
  | some s => c.toNat :: s

theorem finish_normalized (path : Text) (query fragment : Option Text) (ssp : ℕ) (u : URIParser) :
    (finish path query fragment ssp u).normalized =
      upperTriplets (u.normalized ++ (path ++ (partText '?' query ++ partText '#' fragment))) := by
  cases query with
  | none =>
    cases fragment with
    | none => simp [finish, withQuery, withFragment, partText, URIParser.append]
    | some fragment => simp [finish, withQuery, withFragment, partText, URIParser.append]
  | some query =>
    cases fragment with
    | none => simp [finish, withQuery, withFragment, partText, URIParser.append]
    | some fragment => simp [finish, withQuery, withFragment, partText, URIParser.append]

/-- The end of a parse keeps the scheme, the host and the port range. -/
theorem finish_fields (path : Text) (query fragment : Option Text) (ssp : ℕ) (u : URIParser) :
    (finish path query fragment ssp u).scheme = u.scheme ∧
    (finish path query fragment ssp u).host = u.host ∧
    (finish path query fragment ssp u).portrange = u.portrange ∧
    (finish path query fragment ssp u).path = some path := by
  cases query with
  | none =>
    cases fragment with
    | none => exact ⟨rfl, rfl, rfl, rfl⟩
    | some fragment => exact ⟨rfl, rfl, rfl, rfl⟩
  | some query =>
    cases fragment with
    | none => exact ⟨rfl, rfl, rfl, rfl⟩
    | some fragment => exact ⟨rfl, rfl, rfl, rfl⟩

variable {u : URIParser}

theorem finish_query_fragment (path : Text) (query fragment : Option Text) (ssp : ℕ)
    (hquery : u.query = none) (hfragment : u.fragment = none) :
    (finish path query fragment ssp u).query = query ∧
    (finish path query fragment ssp u).fragment = fragment := by
  cases query with
  | none =>
    cases fragment with
    | none => exact ⟨hquery, hfragment⟩
    | some fragment => exact ⟨hquery, rfl⟩
  | some query =>
    cases fragment with
    | none => exact ⟨rfl, hfragment⟩
    | some fragment => exact ⟨rfl, rfl⟩

theorem partText_escaped (c : Char) (hc : c ≠ '%') {s : Option Text}
    (h : ∀ x, s = some x → Escaped x) : Escaped (partText c s) := by
  cases s with
  | none => exact Escaped.nil
  | some s =>
    refine Escaped.char ?_ (h s rfl)
    intro heq
    exact hc (Char.toNat_inj.mp heq)

theorem upperTriplets_partText (c : Char) (hc : c ≠ '%') (s : Option Text) :
    upperTriplets (partText c s) = partText c (s.map upperTriplets) := by
  cases s with
  | none => rfl
  | some s =>
    rw [partText, upperTriplets_cons]
    · rfl
    · intro heq
      exact hc (Char.toNat_inj.mp heq)

variable {path : Text} {v : URIParser}

/-- **Spec lemma** of `parseTail`. -/
theorem parseTail_eq_ok {p : Text} {ssp : ℕ}
    (h : parseTail ({ u with path := some path }.append path) ssp p = .ok v) :
    ∃ query fragment, (∀ x, query = some x → Conforms queryMask x) ∧
      (∀ x, fragment = some x → Conforms queryMask x) ∧ v = finish path query fragment ssp u := by
  obtain ⟨⟨u₁, p₁⟩, hquery, hrest⟩ := bind_eq_ok.mp h
  obtain ⟨u₂, hfragment, hnormal⟩ := bind_eq_ok.mp hrest
  rw [normalizePercentEncoded_eq] at hnormal
  have hq : ∃ query, (∀ x, query = some x → Conforms queryMask x) ∧
      u₁ = withQuery ({ u with path := some path }.append path) query := by
    rw [parseQueryPart] at hquery
    split at hquery
    · obtain ⟨u₃, hparse, heq⟩ := bind_eq_ok.mp hquery
      obtain ⟨rfl, -⟩ := Prod.mk.inj (Except.ok.inj heq)
      obtain ⟨_, hcheck, heq'⟩ := bind_eq_ok.mp hparse
      refine ⟨some _, ?_, (Except.ok.inj heq').symm⟩
      intro x hx
      rw [← Option.some.inj hx]
      exact (checkChars_eq_ok not_escape_query).mp hcheck
    · obtain ⟨rfl, -⟩ := Prod.mk.inj (Except.ok.inj hquery)
      exact ⟨none, by simp, rfl⟩
  obtain ⟨query, hconforms, rfl⟩ := hq
  rw [parseFragmentPart] at hfragment
  split at hfragment
  · obtain ⟨_, hcheck, heq⟩ := bind_eq_ok.mp hfragment
    obtain rfl := Except.ok.inj heq
    refine ⟨query, some _, hconforms, ?_, (Except.ok.inj hnormal).symm⟩
    intro x hx
    rw [← Option.some.inj hx]
    exact (checkChars_eq_ok not_escape_query).mp hcheck
  · obtain rfl := Except.ok.inj hfragment
    exact ⟨query, none, hconforms, by simp, (Except.ok.inj hnormal).symm⟩

variable {fragment query : Option Text}

theorem parseTail_text (hquery : ∀ x, query = some x → Conforms queryMask x)
    (hfragment : ∀ x, fragment = some x → Conforms queryMask x) (path : Text) (ssp : ℕ)
    (u : URIParser) : parseTail ({ u with path := some path }.append path) ssp
      (partText '?' query ++ partText '#' fragment) = .ok (finish path query fragment ssp u) := by
  have hbegins : BeginsIn ['#'] (partText '#' fragment) := by
    cases fragment with
    | none => exact beginsIn_nil _
    | some fragment => exact beginsIn_cons.mpr (by decide)
  have hpart : ∀ v : URIParser, parseQueryPart v (partText '?' query ++ partText '#' fragment) =
      .ok (withQuery v query, partText '#' fragment) := by
    intro v
    cases query with
    | none =>
      have hnot : atChar (partText '#' fragment) '?' = false := by
        cases fragment with
        | none => rfl
        | some fragment => rfl
      rw [partText, List.nil_append, parseQueryPart, hnot]
      rfl
    | some query =>
      have hscan := scan_append (hquery query rfl).query_avoids hbegins
      have hcheck := checkChars_of_conforms not_escape_query "query component" (hquery query rfl)
      rw [partText, List.cons_append, parseQueryPart]
      simp only [atChar_cons, beq_self_eq_true, if_true, List.drop_succ_cons, List.drop_zero,
        hscan, parseQuery, hcheck, ok_bind]
      rfl
  rw [parseTail, hpart, ok_bind]
  cases fragment with
  | none =>
    simp only [parseFragmentPart, partText, atChar_nil, Bool.false_eq_true, if_false, ok_bind,
      normalizePercentEncoded_eq]
    rfl
  | some fragment =>
    have hcheck := checkChars_of_conforms not_escape_query "fragment component"
      (hfragment fragment rfl)
    simp only [parseFragmentPart, partText, atChar_cons, beq_self_eq_true, if_true,
      List.drop_succ_cons, List.drop_zero, parseFragment, hcheck, ok_bind,
      normalizePercentEncoded_eq]
    rfl

/-! ## The parts of an accepted text -/

/-- The state after the scheme. -/
def start (scheme : Text) : URIParser :=
  { scheme := some scheme, normalized := scheme ++ [':'.toNat] }

/-- What the parse of the authority does: the cases of its result. -/
inductive AuthorityOutcome (normalizeAuthority : Bool) (input : Text) (u : URIParser)
    (path : Text) : URIParser → Prop
  | absent : authorityText normalizeAuthority input = none → normalizeAuthority = false →
      atString path ['/', '/'] = false →
      AuthorityOutcome normalizeAuthority input u path u
  | present {authority : Text} {u' : URIParser} :
      authorityText normalizeAuthority input = some authority → Avoids ['/'] authority →
      BeginsIn ['/'] path →
      parseAuthority (withoutNormalizers normalizeAuthority) (u.append (text ['/', '/']))
        authority = .ok (u', []) →
      AuthorityOutcome normalizeAuthority input u path u'

/-- **Spec lemma** of `parse`: the parts of an accepted text. -/
theorem parse_eq_ok {normalizeAuthority : Bool}
    (h : parse (withoutNormalizers normalizeAuthority) s = .ok u) :
    ∃ scheme path query fragment u₁, scheme ≠ [] ∧ Conforms alphaMask (scheme.take 1) ∧
      Conforms schemeMask (scheme.drop 1) ∧ Conforms pathMask path ∧
      (∀ x, query = some x → Conforms queryMask x) ∧
      (∀ x, fragment = some x → Conforms queryMask x) ∧
      AuthorityOutcome normalizeAuthority s (start (toLowerCase scheme)) path u₁ ∧
      u = finish path query fragment (scheme.length + 1) u₁ := by
  have hauthority : authorityText normalizeAuthority s =
      if atString (scan ['?', '#'] ((scan [':'] s).2.drop 1)).1 ['/', '/'] = true then
        some (scan ['/'] ((scan ['?', '#'] ((scan [':'] s).2.drop 1)).1.drop 2)).1
      else if normalizeAuthority = true then
        some (scan ['/'] (scan ['?', '#'] ((scan [':'] s).2.drop 1)).1).1
      else none := rfl
  rw [parse] at h
  generalize scan [':'] s = first at h hauthority
  obtain ⟨scheme, p⟩ := first
  dsimp only at h hauthority
  split at h
  · next hscheme =>
    obtain ⟨_, hfirst, h⟩ := bind_eq_ok.mp h
    obtain ⟨_, hothers, h⟩ := bind_eq_ok.mp h
    obtain ⟨u₂, hhier, htail⟩ := bind_eq_ok.mp h
    generalize scan ['?', '#'] (p.drop 1) = second at hhier htail hauthority
    obtain ⟨hierarchical, q⟩ := second
    dsimp only at hhier htail hauthority
    obtain ⟨⟨u₁, path⟩, houtcome, h⟩ := bind_eq_ok.mp hhier
    obtain ⟨_, hpath, h⟩ := bind_eq_ok.mp h
    obtain ⟨path', hpath', h⟩ := bind_eq_ok.mp h
    obtain rfl : path = path' := Except.ok.inj hpath'
    obtain rfl := Except.ok.inj h
    obtain ⟨query, fragment, hquery, hfragment, hv⟩ := parseTail_eq_ok htail
    refine ⟨scheme, path, query, fragment, u₁, hscheme.1,
      (checkChars_eq_ok not_escape_alpha).mp hfirst,
      (checkChars_eq_ok not_escape_scheme).mp hothers,
      (checkChars_eq_ok not_escape_path).mp hpath, hquery, hfragment, ?_, hv⟩
    have hstart : ({ scheme := some (toLowerCase scheme) } : URIParser).append
        (toLowerCase scheme ++ [':'.toNat]) = start (toLowerCase scheme) := by
      simp [URIParser.append, start]
    rw [hstart] at houtcome
    -- An authority is followed by the text from the next slash on.
    have hpresent : ∀ rest, authorityText normalizeAuthority s = some (scan ['/'] rest).1 →
        parsePresentAuthority (withoutNormalizers normalizeAuthority) (start (toLowerCase scheme))
          rest = .ok (u₁, path) →
        AuthorityOutcome normalizeAuthority s (start (toLowerCase scheme)) path u₁ := by
      intro rest htext hparse
      obtain ⟨-, havoids, hbegins⟩ := scan_spec ['/'] rest
      obtain ⟨⟨u₃, p₃⟩, hauth, hend⟩ := bind_eq_ok.mp hparse
      obtain ⟨-, -, -, -, -, -, rfl, -⟩ := parseAuthority_eq_ok rfl rfl havoids hauth
      dsimp only at hend
      rw [if_neg (by simp), List.nil_append] at hend
      obtain ⟨rfl, rfl⟩ := Prod.mk.inj (Except.ok.inj hend)
      exact AuthorityOutcome.present htext havoids hbegins hauth
    rw [parseHierarchicalAuthority] at houtcome
    by_cases hslashes : atString hierarchical ['/', '/'] = true
    · simp only [hslashes, or_true, if_true] at houtcome hauthority
      exact hpresent _ hauthority houtcome
    · simp only [hslashes, or_false, Bool.false_eq_true, if_false] at houtcome hauthority
      split at houtcome
      · next hmode =>
        have hmode' : normalizeAuthority = true := hmode
        rw [if_pos hmode'] at hauthority
        exact hpresent _ hauthority houtcome
      · next hmode =>
        have hmode' : ¬ normalizeAuthority = true := hmode
        rw [if_neg hmode'] at hauthority
        obtain ⟨rfl, rfl⟩ := Prod.mk.inj (Except.ok.inj houtcome)
        exact AuthorityOutcome.absent hauthority (by simpa using hmode') (by simpa using hslashes)
  · simp at h

/-! ## The text of normalized parts -/

/-- The text of an authority with its slashes. -/
def slashText : Option Text → Text
  | none => []
  | some authority => '/'.toNat :: '/'.toNat :: authority

/-- The parts of a normalized text; the authority as a whole. -/
structure NormalURI (normalizeAuthority : Bool) where
  scheme : Text
  authority : Option Text
  path : Text
  query : Option Text
  fragment : Option Text
  scheme_ne_nil : scheme ≠ []
  scheme_first : Conforms alphaMask (scheme.take 1)
  scheme_others : Conforms schemeMask (scheme.drop 1)
  scheme_lower : toLowerCase scheme = scheme
  authority_avoids : ∀ a, authority = some a → Avoids ['/', '?', '#'] a
  authority_absent : authority = none →
    normalizeAuthority = false ∧ atString path ['/', '/'] = false
  path_conforms : Conforms pathMask path
  path_begins : ∀ a, authority = some a → BeginsIn ['/'] path
  query_conforms : ∀ x, query = some x → Conforms queryMask x
  fragment_conforms : ∀ x, fragment = some x → Conforms queryMask x

namespace NormalURI

variable {normalizeAuthority : Bool} (c : NormalURI normalizeAuthority)

/-- The text of the parts. -/
def toText : Text :=
  c.scheme ++ ':'.toNat ::
    ((slashText c.authority ++ c.path) ++ (partText '?' c.query ++ partText '#' c.fragment))

theorem scheme_avoids : Avoids [':', '%'] c.scheme := by
  have hfirst := c.scheme_first.forall_mem (by decide)
  have hothers := c.scheme_others.forall_mem (by decide)
  intro x hx hmem
  have hall : ∀ x ∈ text [':', '%'], alphaMask.matchChar x = false ∧
      schemeMask.matchChar x = false := by decide
  rw [← List.take_append_drop 1 c.scheme] at hx
  rcases List.mem_append.mp hx with hx | hx
  · simpa [(hall x hmem).1] using hfirst x hx
  · simpa [(hall x hmem).2] using hothers x hx

theorem parse_toText_eq : parse (withoutNormalizers normalizeAuthority) c.toText = (do
    let u ← parseHierarchical (withoutNormalizers normalizeAuthority) (start c.scheme)
      (slashText c.authority ++ c.path)
    parseTail u (c.scheme.length + 1) (partText '?' c.query ++ partText '#' c.fragment)) := by
  have hscheme : scan [':'] c.toText = (c.scheme, ':'.toNat ::
      ((slashText c.authority ++ c.path) ++ (partText '?' c.query ++ partText '#' c.fragment))) :=
    scan_append (c.scheme_avoids.mono (by decide)) (beginsIn_cons.mpr (by decide))
  have hhier : scan ['?', '#'] ((slashText c.authority ++ c.path) ++
      (partText '?' c.query ++ partText '#' c.fragment)) =
      (slashText c.authority ++ c.path, partText '?' c.query ++ partText '#' c.fragment) := by
    apply scan_append
    · rw [avoids_append]
      refine ⟨?_, c.path_conforms.path_avoids⟩
      cases hauthority : c.authority with
      | none => exact avoids_nil _
      | some a =>
        have := c.authority_avoids a hauthority
        exact avoids_cons.mpr ⟨by decide, avoids_cons.mpr ⟨by decide, this.mono (by decide)⟩⟩
    · cases c.query with
      | some query => exact beginsIn_cons.mpr (by decide)
      | none =>
        cases c.fragment with
        | none => exact beginsIn_nil _
        | some fragment => exact beginsIn_cons.mpr (by decide)
  have hfirst := checkChars_of_conforms not_escape_alpha "scheme name" c.scheme_first
  have hothers := checkChars_of_conforms not_escape_scheme "scheme name" c.scheme_others
  have hstart : ({ scheme := some c.scheme } : URIParser).append (c.scheme ++ [':'.toNat]) =
      start c.scheme := by
    simp [URIParser.append, start]
  rw [parse, hscheme]
  simp only [List.drop_succ_cons, List.drop_zero, hhier, hfirst, hothers, ok_bind, c.scheme_lower,
    hstart]
  rw [if_pos ⟨c.scheme_ne_nil, rfl⟩]

theorem parseHierarchical_eq
    (h : parseHierarchicalAuthority (withoutNormalizers normalizeAuthority) (start c.scheme)
      (slashText c.authority ++ c.path) = .ok (u, c.path)) :
    parseHierarchical (withoutNormalizers normalizeAuthority) (start c.scheme)
      (slashText c.authority ++ c.path) = .ok ({ u with path := some c.path }.append c.path) := by
  have hcheck := checkChars_of_conforms not_escape_path "path" c.path_conforms
  rw [parseHierarchical, h, ok_bind]
  simp only [hcheck, ok_bind]
  rfl

theorem parseHierarchicalAuthority_some {a : Text} (ha : c.authority = some a) :
    parseHierarchicalAuthority (withoutNormalizers normalizeAuthority) (start c.scheme)
      (slashText c.authority ++ c.path) = (do
        let (u, p) ← parseAuthority (withoutNormalizers normalizeAuthority)
          ((start c.scheme).append (text ['/', '/'])) a
        if p ≠ [] ∧ ¬ atChar (p ++ c.path) '/' = true then
          failExpecting "absolute or empty path" else .ok (u, p ++ c.path)) := by
  have hslashes : atString ('/'.toNat :: '/'.toNat :: a ++ c.path) ['/', '/'] = true := rfl
  have havoids : Avoids ['/'] a := (c.authority_avoids a ha).mono (by decide)
  have hscan := scan_append havoids (c.path_begins a ha)
  rw [ha, slashText, parseHierarchicalAuthority]
  simp only [hslashes, or_true, if_true]
  simp only [List.cons_append, List.drop_succ_cons, List.drop_zero, parsePresentAuthority, hscan]

/-- **Main result** on normalized texts: their parse succeeds when that of the authority
does. -/
theorem parse_toText
    (h : ∀ a, c.authority = some a → parseAuthority (withoutNormalizers normalizeAuthority)
      ((start c.scheme).append (text ['/', '/'])) a = .ok (u, []))
    (habsent : c.authority = none → u = start c.scheme) :
    parse (withoutNormalizers normalizeAuthority) c.toText =
      .ok (finish c.path c.query c.fragment (c.scheme.length + 1) u) := by
  have hauthority : parseHierarchicalAuthority (withoutNormalizers normalizeAuthority)
      (start c.scheme) (slashText c.authority ++ c.path) = .ok (u, c.path) := by
    cases ha : c.authority with
    | some a =>
      have hsome := c.parseHierarchicalAuthority_some ha
      rw [ha] at hsome
      rw [hsome, h a ha, ok_bind]
      rfl
    | none =>
      obtain ⟨hmode, hslashes⟩ := c.authority_absent ha
      rw [slashText, List.nil_append, habsent ha, parseHierarchicalAuthority]
      simp [withoutNormalizers, hmode, hslashes]
  rw [c.parse_toText_eq, c.parseHierarchical_eq hauthority, ok_bind]
  exact parseTail_text c.query_conforms c.fragment_conforms _ _ _

theorem parseAuthority_of_parse_toText {a : Text} (ha : c.authority = some a)
    (h : parse (withoutNormalizers normalizeAuthority) c.toText = .ok v) :
    ∃ r, parseAuthority (withoutNormalizers normalizeAuthority)
      ((start c.scheme).append (text ['/', '/'])) a = .ok r := by
  rw [c.parse_toText_eq] at h
  obtain ⟨u, hhier, -⟩ := bind_eq_ok.mp h
  obtain ⟨r, hauthority, -⟩ := bind_eq_ok.mp hhier
  rw [c.parseHierarchicalAuthority_some ha] at hauthority
  obtain ⟨r', hparse, -⟩ := bind_eq_ok.mp hauthority
  exact ⟨r', hparse⟩

end NormalURI

/-! ## From an accepted text to its normalized text -/

theorem head?_upperTriplets (s : Text) : (upperTriplets s).head? = s.head? := by
  fun_cases upperTriplets s with
  | case1 c a b rest h =>
    obtain ⟨rfl, -, -⟩ := h
    rfl
  | case2 => rfl
  | case3 => rfl

theorem BeginsIn.upperTriplets {stop : List Char} (h : BeginsIn stop s) :
    BeginsIn stop (upperTriplets s) := by
  intro c hc
  rw [head?_upperTriplets] at hc
  exact h c hc

theorem atString_upperTriplets (s : Text) :
    atString (upperTriplets s) ['/', '/'] = atString s ['/', '/'] := by
  have hcons : ∀ (c : ℕ) (t : Text), atString (c :: t) ['/', '/'] =
      ('/'.toNat == c && (t.head? == some '/'.toNat)) := by
    intro c t
    cases t with
    | nil => simp [atString, text, List.isPrefixOf]
    | cons d t => simp [atString, text, List.isPrefixOf, BEq.comm]
  cases s with
  | nil => rfl
  | cons c t =>
    by_cases hc : c = '/'.toNat
    · rw [upperTriplets_cons (by rw [hc]; decide), hcons, hcons, head?_upperTriplets]
    · have hhead := head?_upperTriplets (c :: t)
      have hne : ('/'.toNat == c) = false := by
        rw [beq_eq_false_iff_ne]
        exact fun h => hc h.symm
      cases hupper : upperTriplets (c :: t) with
      | nil => simp [hupper] at hhead
      | cons d t' =>
        obtain rfl : d = c := by simpa [hupper] using hhead
        rw [hcons, hcons, hne]
        rfl

theorem upperTriplets_text {scheme : Text} (raw : Option Text)
    (hscheme : Avoids ['%'] scheme) (hraw : ∀ a, raw = some a → Escaped a) (hpath : Escaped path)
    (hquery : ∀ x, query = some x → Escaped x) :
    upperTriplets ((scheme ++ ':'.toNat :: slashText raw) ++
      (path ++ (partText '?' query ++ partText '#' fragment))) =
      scheme ++ ':'.toNat :: ((slashText (raw.map upperTriplets) ++ upperTriplets path) ++
        (partText '?' (query.map upperTriplets) ++ partText '#' (fragment.map upperTriplets))) := by
  have hslash : Escaped (slashText raw) ∧
      upperTriplets (slashText raw) = slashText (raw.map upperTriplets) := by
    cases raw with
    | none => exact ⟨Escaped.nil, rfl⟩
    | some a =>
      refine ⟨Escaped.char (by decide) (Escaped.char (by decide) (hraw a rfl)), ?_⟩
      rw [slashText, upperTriplets_cons (by decide), upperTriplets_cons (by decide)]
      rfl
  have hfirst : Escaped (scheme ++ ':'.toNat :: slashText raw) :=
    (escaped_of_avoids hscheme).append (Escaped.char (by decide) hslash.1)
  rw [upperTriplets_append hfirst, upperTriplets_append (escaped_of_avoids hscheme),
    upperTriplets_of_avoids hscheme, upperTriplets_cons (by decide), hslash.2,
    upperTriplets_append hpath, upperTriplets_append (partText_escaped '?' (by decide) hquery),
    upperTriplets_partText '?' (by decide), upperTriplets_partText '#' (by decide)]
  simp only [List.append_assoc, List.cons_append]

/-- The normalized parts, from those of an accepted text and the text that was appended for
the authority. -/
def normalURI {normalizeAuthority : Bool} {scheme path : Text} {query fragment : Option Text}
    (raw : Option Text) (hne : scheme ≠ []) (hfirst : Conforms alphaMask (scheme.take 1))
    (hothers : Conforms schemeMask (scheme.drop 1)) (hpath : Conforms pathMask path)
    (hquery : ∀ x, query = some x → Conforms queryMask x)
    (hfragment : ∀ x, fragment = some x → Conforms queryMask x)
    (hraw : ∀ a, raw = some a → Avoids ['/', '?', '#'] (upperTriplets a))
    (habsent : raw = none → normalizeAuthority = false ∧ atString path ['/', '/'] = false)
    (hbegins : ∀ a, raw = some a → BeginsIn ['/'] path) : NormalURI normalizeAuthority where
  scheme := toLowerCase scheme
  authority := raw.map upperTriplets
  path := upperTriplets path
  query := query.map upperTriplets
  fragment := fragment.map upperTriplets
  scheme_ne_nil := by simpa [toLowerCase] using hne
  scheme_first := by
    have := hfirst.toLowerCase (by decide) (by decide)
    rwa [toLowerCase, List.map_take] at this
  scheme_others := by
    have := hothers.toLowerCase (by decide) (by decide)
    rwa [toLowerCase, List.map_drop] at this
  scheme_lower := toLowerCase_idem scheme
  authority_avoids := by
    intro a ha
    obtain ⟨b, hb, rfl⟩ := Option.map_eq_some_iff.mp ha
    exact hraw b hb
  authority_absent := by
    intro h
    rw [atString_upperTriplets]
    exact habsent (Option.map_eq_none_iff.mp h)
  path_conforms := hpath.upperTriplets not_escape_path
  path_begins := by
    intro a ha
    obtain ⟨b, hb, -⟩ := Option.map_eq_some_iff.mp ha
    exact (hbegins b hb).upperTriplets
  query_conforms := by
    intro x hx
    obtain ⟨y, hy, rfl⟩ := Option.map_eq_some_iff.mp hx
    exact (hquery y hy).upperTriplets not_escape_query
  fragment_conforms := by
    intro x hx
    obtain ⟨y, hy, rfl⟩ := Option.map_eq_some_iff.mp hx
    exact (hfragment y hy).upperTriplets not_escape_query

/-- The fields that the parse of an authority leaves alone. -/
def SameRest (u v : URIParser) : Prop :=
  v.scheme = u.scheme ∧ v.query = u.query ∧ v.fragment = u.fragment

theorem withUser_rest (u : URIParser) (user : Option Text) :
    (withUser u user).normalized = u.normalized ++ userText user ∧
      SameRest u (withUser u user) := by
  cases user with
  | none => exact ⟨by simp [withUser, userText], rfl, rfl, rfl⟩
  | some user => exact ⟨rfl, rfl, rfl, rfl⟩

/-- What `parseHost` sets and appends, in each case. -/
theorem HostOutcome.cases_append {normalizeAuthority : Bool} {u' : URIParser}
    (h : HostOutcome normalizeAuthority u s u') :
    ∃ host t n, u' = ({ u with host := some host, ipv6byteCount := n } : URIParser).append t ∧
      (NormalHost normalizeAuthority host ∧ t = host ∧ ¬ IPvFutureHost s ∧ ¬ MappedHost s ∨
        IPvFutureHost s ∧ t = [] ∧ (∃ rest, host = '['.toNat :: rest) ∨
        MappedHost s ∧ ∃ addr, t = mappedText addr) := by
  cases h with
  | @normal host n hnormal hfuture hmapped =>
    exact ⟨host, host, n, rfl, .inl ⟨hnormal, rfl, hfuture, hmapped⟩⟩
  | ipvFuture rest hfuture =>
    refine ⟨'['.toNat :: rest, [], u.ipv6byteCount, ?_, .inr (.inl ⟨hfuture, rfl, rest, rfl⟩)⟩
    rw [append_nil]
  | @mapped addr n hmapped =>
    exact ⟨mappedText addr, mappedText addr, n, rfl, .inr (.inr ⟨hmapped, addr, rfl⟩)⟩

theorem isCanonical_finish {normalizeAuthority : Bool} {c : NormalURI normalizeAuthority} {ssp : ℕ}
    (raw : Option Text)
    (hpath : Escaped path) (hquery : ∀ x, query = some x → Escaped x)
    (hfragment : ∀ x, fragment = some x → Escaped x)
    (hcpath : c.path = upperTriplets path) (hcquery : c.query = query.map upperTriplets)
    (hcfragment : c.fragment = fragment.map upperTriplets)
    (hu : (finish path query fragment ssp u).normalized = c.toText)
    (hparse : parse (withoutNormalizers normalizeAuthority) c.toText =
      .ok (finish c.path c.query c.fragment (c.scheme.length + 1) v))
    (hv : v.normalized = c.scheme ++ ':'.toNat :: slashText raw)
    (hraw : ∀ a, raw = some a → Escaped a) (hauthority : c.authority = raw.map upperTriplets)
    (hrestu : SameRest (start c.scheme) u) (hrestv : SameRest (start c.scheme) v)
    (hhost : v.host = u.host) (hport : v.portrange = u.portrange) :
    IsCanonical (withoutNormalizers normalizeAuthority) (finish path query fragment ssp u) := by
  obtain ⟨huscheme, huquery, hufragment⟩ := hrestu
  obtain ⟨hvscheme, hvquery, hvfragment⟩ := hrestv
  have hfu := finish_fields path query fragment ssp u
  have hfv := finish_fields c.path c.query c.fragment (c.scheme.length + 1) v
  have hqu := finish_query_fragment path query fragment ssp huquery hufragment
  have hqv := finish_query_fragment c.path c.query c.fragment (c.scheme.length + 1) hvquery
    hvfragment
  rw [IsCanonical, hu]
  refine ⟨_, hparse, ?_, ?_, ?_, ?_, ?_, ?_, ?_⟩
  · have hcpath' : Escaped c.path := c.path_conforms.escaped not_escape_path
    have hcquery' : ∀ x, c.query = some x → Escaped x :=
      fun x hx => (c.query_conforms x hx).escaped not_escape_query
    have hidem : ∀ s : Option Text, (∀ x, s = some x → Escaped x) →
        (s.map upperTriplets).map upperTriplets = s.map upperTriplets := by
      intro s hs
      cases s with
      | none => rfl
      | some s => simp [upperTriplets_idem (hs s rfl)]
    rw [finish_normalized, hv,
      upperTriplets_text raw (c.scheme_avoids.mono (by decide)) hraw hcpath' hcquery', ← hauthority,
      hcpath, upperTriplets_idem hpath, hcquery, hidem query hquery,
      hcfragment, hidem fragment hfragment, NormalURI.toText, hcpath, hcquery, hcfragment]
  · rw [hfv.1, hfu.1, hvscheme, huscheme]
  · rw [hfv.2.1, hfu.2.1, hhost]
    exact SameField.refl _
  · rw [hfv.2.2.1, hfu.2.2.1, hport]
  · rw [hfv.2.2.2, hfu.2.2.2, hcpath]
    exact Option.Rel.some (escapeEq_upperTriplets hpath)
  · rw [hqv.1, hqu.1, hcquery]
    exact sameField_map_upperTriplets hquery
  · rw [hqv.2, hqu.2, hcfragment]
    exact sameField_map_upperTriplets hfragment

/-! ## The text that is appended for an authority -/

/-- The text that is appended for a user, for a host and for a port range. -/
def rawText (user : Option Text) (t : Text) (port : Option Port) : Text :=
  userText user ++ (t ++ portText port)

variable {user : Option Text}

theorem userText_escaped
    (h : ∀ x, user = some x → x ≠ [] ∧ Conforms userinfoMask x) : Escaped (userText user) := by
  cases user with
  | none => exact Escaped.nil
  | some user =>
    exact ((h user rfl).2.escaped not_escape_userinfo).append (Escaped.char (by decide) Escaped.nil)

variable {t : Text}

theorem rawText_escaped
    (huser : ∀ x, user = some x → x ≠ [] ∧ Conforms userinfoMask x) (ht : Escaped t)
    (port : Option Port) : Escaped (rawText user t port) :=
  (userText_escaped huser).append (ht.append (escaped_of_avoids (portText_avoids port)))

theorem upperTriplets_rawText
    (huser : ∀ x, user = some x → x ≠ [] ∧ Conforms userinfoMask x) (ht : Escaped t)
    (port : Option Port) : upperTriplets (rawText user t port) =
      userText (user.map upperTriplets) ++ (upperTriplets t ++ portText port) := by
  rw [rawText, upperTriplets_userText huser, upperTriplets_append ht,
    upperTriplets_of_avoids (portText_avoids port)]

theorem map_upperTriplets_conforms (huser : ∀ x, user = some x → x ≠ [] ∧ Conforms userinfoMask x) :
    ∀ x, user.map upperTriplets = some x → x ≠ [] ∧ Conforms userinfoMask x := by
  intro x hx
  obtain ⟨y, hy, rfl⟩ := Option.map_eq_some_iff.mp hx
  exact ⟨upperTriplets_ne_nil (huser y hy).1, (huser y hy).2.upperTriplets not_escape_userinfo⟩

theorem upperTriplets_rawText_avoids
    (huser : ∀ x, user = some x → x ≠ [] ∧ Conforms userinfoMask x) (ht : Escaped t)
    (havoids : Avoids ['/', '?', '#'] (upperTriplets t)) (port : Option Port) :
    Avoids ['/', '?', '#'] (upperTriplets (rawText user t port)) := by
  rw [upperTriplets_rawText huser ht, avoids_append, avoids_append]
  exact ⟨userText_avoids fun x hx => (map_upperTriplets_conforms huser x hx).2, havoids,
    (portText_conforms port).userinfo_avoids.mono (by decide)⟩

theorem authority_state (scheme : Text) (user : Option Text) (host t : Text) (n : ℕ)
    (spec : Option Text) (port : Option Port)
    (hu : u = { ({ withUser ((start scheme).append (text ['/', '/'])) user with
      host := some host, ipv6byteCount := n } : URIParser).append t with
        portrangeString := spec, portrange := rangeOf port }.append (portText port)) :
    u.normalized = scheme ++ ':'.toNat :: slashText (some (rawText user t port)) ∧
      SameRest (start scheme) u ∧ u.host = some host ∧ u.portrange = rangeOf port := by
  subst hu
  obtain ⟨hnormalized, hrest⟩ := withUser_rest ((start scheme).append (text ['/', '/'])) user
  refine ⟨?_, hrest, rfl, rfl⟩
  simp only [URIParser.append] at hnormalized ⊢
  rw [hnormalized]
  simp [start, text, slashText, rawText]

theorem NormalURI.parse_toText_authority {normalizeAuthority : Bool}
    (c : NormalURI normalizeAuthority) (a : NormalAuthority normalizeAuthority)
    (ha : c.authority = some a.toText) :
    ∃ n, parse (withoutNormalizers normalizeAuthority) c.toText =
      .ok (finish c.path c.query c.fragment (c.scheme.length + 1)
        (a.state ((start c.scheme).append (text ['/', '/'])) n)) := by
  have hcfg : (withoutNormalizers normalizeAuthority).portRangeNormalizer = none := rfl
  have hcount : ((start c.scheme).append (text ['/', '/'])).ipv6byteCount = 0 := rfl
  obtain ⟨n, hparse⟩ := parseAuthority_toText hcfg hcount a
  refine ⟨n, c.parse_toText ?_ ?_⟩
  · intro b hb
    rw [ha] at hb
    rw [← Option.some.inj hb]
    exact hparse
  · intro hnone
    rw [ha] at hnone
    simp at hnone

/-! ## The claim about normalization -/

/-- The host of an input, where an authority is parsed, is none of the two kinds that are
not normalized. -/
def HostNormalizes (normalizeAuthority : Bool) (input : Text) : Prop :=
  ∀ authority, authorityText normalizeAuthority input = some authority →
    ¬ IPvFutureHost (hostAndPort authority) ∧ ¬ MappedHost (hostAndPort authority)

/-- **Main theorem** on normalization, without scheme-specific normalizers: the normalized
text of an accepted text is accepted, normalizes to itself and gives the same URI, up to
the letter case of the digits of escapes, if and only if the host is neither an
IPvFuture address nor an IPv4-mapped IPv6 address. -/
theorem isCanonical_iff (normalizeAuthority : Bool) {s : Text} {u : URIParser}
    (h : parse (withoutNormalizers normalizeAuthority) s = .ok u) :
    IsCanonical (withoutNormalizers normalizeAuthority) u ↔
      HostNormalizes normalizeAuthority s := by
  obtain ⟨scheme, path, query, fragment, u₁, hne, hfirst, hothers, hpath, hquery, hfragment,
    hauthority, rfl⟩ := parse_eq_ok h
  have hpath' : Escaped path := hpath.escaped not_escape_path
  have hquery' : ∀ x, query = some x → Escaped x :=
    fun x hx => (hquery x hx).escaped not_escape_query
  have hfragment' : ∀ x, fragment = some x → Escaped x :=
    fun x hx => (hfragment x hx).escaped not_escape_query
  cases hauthority with
  | absent hnone hmode hslashes =>
    -- Without an authority there is no host.
    have hright : HostNormalizes normalizeAuthority s := by
      intro authority hsome
      rw [hnone] at hsome
      simp at hsome
    refine iff_of_true ?_ hright
    let c : NormalURI normalizeAuthority := normalURI none hne hfirst hothers hpath hquery
      hfragment (by simp) (fun _ => ⟨hmode, hslashes⟩) (by simp)
    have hscheme : Avoids ['%'] (toLowerCase scheme) := c.scheme_avoids.mono (by decide)
    have hparse := c.parse_toText (u := start c.scheme) (by intro a ha; simp [c, normalURI] at ha)
      (fun _ => rfl)
    apply isCanonical_finish (c := c) none hpath' hquery' hfragment' rfl rfl rfl ?_ hparse
      rfl (by simp) rfl ⟨rfl, rfl, rfl⟩ ⟨rfl, rfl, rfl⟩ rfl rfl
    rw [finish_normalized]
    exact upperTriplets_text none hscheme (by simp) hpath' hquery'
  | @present authority _ hsome havoids hbegins hparse =>
    obtain ⟨user, u₀, spec, port, huser, houtcome, -, rfl⟩ :=
      parseAuthority_eq_ok rfl rfl havoids hparse
    obtain ⟨host, t, n, rfl, hcases⟩ := houtcome.cases_append
    -- What was appended for the authority.
    have ht : Escaped t ∧ Avoids ['/', '?', '#'] (upperTriplets t) := by
      rcases hcases with ⟨hnormal, rfl, -, -⟩ | ⟨-, rfl, -⟩ | ⟨-, addr, rfl⟩
      · refine ⟨hnormal.escaped, ?_⟩
        rcases hnormal.name_or_literal with hname | ⟨literal, hliteral, hlit⟩
        · exact hname.regname_avoids.mono (by decide)
        · rw [hliteral, avoids_append, avoids_cons]
          exact ⟨⟨by decide, hlit.mono (by decide)⟩, by decide⟩
      · exact ⟨Escaped.nil, avoids_nil _⟩
      · have hmapped := mappedText_avoids addr
        have hplain : Avoids ['%'] (mappedText addr) := hmapped.mono (by decide)
        rw [upperTriplets_of_avoids hplain]
        exact ⟨escaped_of_avoids hplain, hmapped.mono (by decide)⟩
    obtain ⟨hnormalized, hrest, hhost, hport⟩ := authority_state (toLowerCase scheme) user host t n
      spec port rfl
    let c : NormalURI normalizeAuthority := normalURI (some (rawText user t port)) hne
      hfirst hothers hpath hquery hfragment
      (fun a ha => Option.some.inj ha ▸ upperTriplets_rawText_avoids huser ht.1 ht.2 port)
      (by simp) (fun _ _ => hbegins)
    have hscheme : Avoids ['%'] (toLowerCase scheme) := c.scheme_avoids.mono (by decide)
    have hraw : ∀ a, some (rawText user t port) = some a → Escaped a := by
      intro a ha
      rw [← Option.some.inj ha]
      exact rawText_escaped huser ht.1 port
    have hcauthority : c.authority = some (userText (user.map upperTriplets) ++
        (upperTriplets t ++ portText port)) := by
      rw [← upperTriplets_rawText huser ht.1]
      rfl
    have hfinish : ∀ u₁ : URIParser,
        u₁.normalized = toLowerCase scheme ++ ':'.toNat :: slashText (some (rawText user t port)) →
        (finish path query fragment (scheme.length + 1) u₁).normalized = c.toText := by
      intro u₁ hu₁
      rw [finish_normalized, hu₁]
      exact upperTriplets_text _ hscheme hraw hpath' hquery'
    have hleft := hfinish _ hnormalized
    rcases hcases with ⟨hnormal, rfl, hfuture, hmapped⟩ | ⟨hfuture, rfl, rest, rfl⟩ |
      ⟨hmapped, addr, rfl⟩
    · have hright : HostNormalizes normalizeAuthority s := by
        intro authority' hsome'
        rw [hsome] at hsome'
        rw [← Option.some.inj hsome']
        exact ⟨hfuture, hmapped⟩
      refine iff_of_true ?_ hright
      let a : NormalAuthority normalizeAuthority := ⟨user, t, port, huser, hnormal⟩
      obtain ⟨n', hparse'⟩ := c.parse_toText_authority a hcauthority
      obtain ⟨hv, hvrest, hvhost, hvport⟩ := authority_state c.scheme (user.map upperTriplets) t t
        n' (some (portText port)) port (u := a.state _ n') rfl
      apply isCanonical_finish (some (rawText (user.map upperTriplets) t port)) hpath' hquery'
        hfragment' rfl rfl rfl hleft hparse' hv ?_ ?_ hrest hvrest (hvhost.trans hhost.symm)
        (hvport.trans hport.symm)
      · intro b hb
        rw [← Option.some.inj hb]
        exact rawText_escaped (map_upperTriplets_conforms huser) ht.1 port
      · rw [hcauthority, Option.map_some, upperTriplets_rawText
          (map_upperTriplets_conforms huser) ht.1]
        congr 2
        cases user with
        | none => rfl
        | some user =>
          have := upperTriplets_idem ((huser user rfl).2.escaped not_escape_userinfo)
          simp [this]
    · refine iff_of_false ?_ (fun hright => (hright authority hsome).1 hfuture)
      -- The host is not in the normalized text, and its parse gives an empty one.
      rintro ⟨v, hv, -, -, hvhost, -⟩
      let a : NormalAuthority normalizeAuthority := ⟨user, [], port, huser,
        NormalHost.name Conforms.nil rfl (by rintro ⟨-, hnil⟩; revert hnil; decide)⟩
      obtain ⟨n', hparse'⟩ := c.parse_toText_authority a hcauthority
      rw [hleft, hparse'] at hv
      rw [← Except.ok.inj hv, (finish_fields _ _ _ _ _).2.1, (finish_fields _ _ _ _ _).2.1,
        hhost] at hvhost
      have hempty : (a.state ((start c.scheme).append (text ['/', '/'])) n').host = some [] := rfl
      rw [hempty] at hvhost
      cases hvhost with
      | some heq => cases heq
    · refine iff_of_false ?_ (fun hright => (hright authority hsome).2 hmapped)
      rintro ⟨v, hv, -⟩
      rw [hleft] at hv
      obtain ⟨r, hr⟩ := c.parseAuthority_of_parse_toText hcauthority hv
      rw [upperTriplets_of_avoids ((mappedText_avoids addr).mono (by decide))] at hr
      exact parseAuthority_mappedText_ne_ok _ rfl (map_upperTriplets_conforms huser) addr _ r hr

/-- The text `http://[v1.a]/`. -/
def ipvFutureInput : Text :=
  text ['h', 't', 't', 'p', ':', '/', '/', '[', 'v', '1', '.', 'a', ']', '/']

/-- The parse of it: the host is in its field only. -/
def ipvFutureParse : URIParser where
  scheme := some (text ['h', 't', 't', 'p'])
  host := some (text ['[', 'v', '1', '.', 'a', ']'])
  portrange := (-1, -1)
  portrangeString := some []
  path := some (text ['/'])
  schemeSpecificPart := some (text ['/', '/', '/'])
  normalized := text ['h', 't', 't', 'p', ':', '/', '/', '/']

/-- The main theorem on normalization, for `http://[v1.a]/`. -/
theorem isCanonical_iff_ipvFuture :
    IsCanonical (withoutNormalizers true) ipvFutureParse ↔ HostNormalizes true ipvFutureInput :=
  isCanonical_iff true (show parse (withoutNormalizers true) ipvFutureInput = .ok ipvFutureParse
    by decide)

/-- The normalized text of an accepted text may give another URI. -/
theorem not_isCanonical_ipvFuture :
    ¬ ∀ (s : Text) (u : URIParser), parse (withoutNormalizers true) s = .ok u →
      IsCanonical (withoutNormalizers true) u := by
  intro h
  obtain ⟨v, hv, -, -, hhost, -⟩ := h ipvFutureInput ipvFutureParse (by decide)
  have hparse : parse (withoutNormalizers true) ipvFutureParse.normalized =
      .ok { ipvFutureParse with host := some [] } := by decide
  rw [hparse] at hv
  rw [← Except.ok.inj hv] at hhost
  cases hhost with
  | some heq => cases heq

/-- The normalized text of `http://[::ffff:1.2.3.4]/` is not accepted. -/
example : parse (withoutNormalizers true)
    (text ['h', 't', 't', 'p', ':', '/', '/', '[', '1', '.', '2', '.', '3', '.', '4', ']', '/']) =
      .error (.illegalArgument "IPv6 address too short") := by decide

end CldcVm.Uri
