import CldcVm.Uri.Hosts

/-!
# Normalized authorities

What `parsePortRange` and `parseAuthority` accept and append to the normalized text, and
what they do with that text, without a scheme-specific normalizer.

Results:

* `parsePortRange_eq_ok`, `parsePortRange_portText`: the text of a port range gives the
  range back;
* `parseAuthority_eq_ok`: an accepted authority is a user, a host and a port range;
* `parseAuthority_toText`: the text of a normalized authority gives its parts back;
* `parseAuthority_mappedText_ne_ok`: the text of an authority with an IPv4-mapped address
  is refused.
-/

namespace CldcVm.Uri

/-! ## Port ranges -/

/-- A range of ports, as `parsePortRange` accepts it. -/
structure Port where
  low : ℕ
  high : ℕ
  low_le_high : low ≤ high
  high_le : high ≤ 2 ^ 31 - 1

/-- The field `portrange`, for a range or for no port. -/
def rangeOf : Option Port → ℤ × ℤ
  | none => (-1, -1)
  | some port => (port.low, port.high)

/-- The normalized text of a range. -/
def portText : Option Port → Text
  | none => []
  | some port => portRangeText (port.low, port.high)

theorem valueOfInt_natCast (n : ℕ) : valueOfInt n = valueOf n := by
  rw [valueOfInt, if_neg (by omega), Int.toNat_natCast]

theorem valueOf_avoids (n : ℕ) : Avoids ['/', '-', ':', '?', '#', '[', ']', '@', '%', '*']
    (valueOf n) := by
  intro c hc hmem
  have hall : ∀ c ∈ text ['/', '-', ':', '?', '#', '[', ']', '@', '%', '*'],
      digitMask.matchChar c = false := by decide
  have := forall_mem_valueOf n c hc
  simp [hall c hmem] at this

theorem valueOf_conforms (n : ℕ) : Conforms userinfoMask (valueOf n) := by
  apply conforms_of_forall
  intro c hc
  apply Mask.forall_of_ascii (m := digitMask) (P := fun c => userinfoMask.matchChar c = true) _
    (forall_mem_valueOf n c hc)
  decide

theorem portText_some (port : Port) : portText (some port) =
    if port.low = port.high then ':'.toNat :: valueOf port.low
    else ':'.toNat :: valueOf port.low ++ '-'.toNat :: valueOf port.high := by
  simp only [portText, portRangeText, valueOfInt_natCast, Nat.cast_inj]

theorem portText_beginsIn (port : Option Port) : BeginsIn [':'] (portText port) := by
  cases port with
  | none => exact beginsIn_nil _
  | some port =>
    rw [portText_some]
    split_ifs
    · exact beginsIn_cons.mpr (by decide)
    · exact beginsIn_cons.mpr (by decide)

theorem portText_conforms (port : Option Port) : Conforms userinfoMask (portText port) := by
  have hcolon : userinfoMask.matchChar ':'.toNat = true := by decide
  have hdash : userinfoMask.matchChar '-'.toNat = true := by decide
  cases port with
  | none => exact Conforms.nil
  | some port =>
    rw [portText_some]
    split_ifs
    · exact Conforms.char hcolon (valueOf_conforms _)
    · exact (Conforms.char hcolon (valueOf_conforms _)).append
        (Conforms.char hdash (valueOf_conforms _))

theorem portText_avoids (port : Option Port) : Avoids ['%'] (portText port) := by
  cases port with
  | none => exact avoids_nil _
  | some port =>
    have hlow : Avoids ['%'] (valueOf port.low) := (valueOf_avoids _).mono (by decide)
    have hhigh : Avoids ['%'] (valueOf port.high) := (valueOf_avoids _).mono (by decide)
    rw [portText_some]
    split_ifs
    · exact avoids_cons.mpr ⟨by decide, hlow⟩
    · exact avoids_append.mpr ⟨avoids_cons.mpr ⟨by decide, hlow⟩,
        avoids_cons.mpr ⟨by decide, hhigh⟩⟩

theorem parsePorts_portText (port : Port) :
    parsePorts ((portText (some port)).drop 1) = some ((port.low : ℤ), (port.high : ℤ)) := by
  have hlow := parseInt_valueOf (le_trans port.low_le_high port.high_le)
  have hhigh := parseInt_valueOf port.high_le
  have havoids : Avoids ['-'] (valueOf port.low) := (valueOf_avoids _).mono (by decide)
  rw [portText_some]
  split_ifs with heq
  · have hscan := scan_self havoids
    rw [← heq]
    simp only [List.drop_succ_cons, List.drop_zero, parsePorts, hscan, parseLowPort, parseHighPort,
      valueOf_ne_nil, ne_eq, not_false_eq_true, if_true, hlow]
    rfl
  · have hscan := scan_append havoids (b := '-'.toNat :: valueOf port.high)
      (beginsIn_cons.mpr (by decide))
    have hlength : 1 < ('-'.toNat :: valueOf port.high).length := by
      have := List.length_pos_iff.mpr (valueOf_ne_nil port.high)
      rw [List.length_cons]
      omega
    simp only [List.cons_append, List.drop_succ_cons, List.drop_zero, parsePorts, hscan,
      parseLowPort, parseHighPort, valueOf_ne_nil, ne_eq, not_false_eq_true, if_true, hlow,
      if_pos hlength, hhigh]
    rfl

variable {s : Text}

/-- The ports that are parsed are `int`s. -/
theorem parsePorts_le {low high : ℤ} (h : parsePorts s = some (low, high)) : high ≤ 2 ^ 31 - 1 := by
  obtain ⟨⟨low', high'⟩, hfirst, hrest⟩ := Option.bind_eq_some_iff.mp h
  obtain ⟨high'', hsecond, heq⟩ := Option.map_eq_some_iff.mp hrest
  obtain ⟨-, rfl⟩ := Prod.mk.inj heq
  have hhigh' : high' ≤ 2 ^ 31 - 1 := by
    rw [parseLowPort] at hfirst
    split at hfirst
    · obtain ⟨v, hv, heq⟩ := Option.map_eq_some_iff.mp hfirst
      have := parseInt_le hv
      obtain ⟨-, rfl⟩ := Prod.mk.inj heq
      split_ifs
      · exact this
      · decide
    · obtain ⟨-, rfl⟩ := Prod.mk.inj (Option.some.inj hfirst)
      decide
  rw [parseHighPort] at hsecond
  split at hsecond
  · exact parseInt_le hsecond
  · rw [← Option.some.inj hsecond]
    exact hhigh'

variable {cfg : Settings} {u u' : URIParser} {q : Text}

/-- **Spec lemma** of `parsePortRange`. -/
theorem parsePortRange_eq_ok (hcfg : cfg.portRangeNormalizer = none) (hs : Avoids ['/'] s)
    (h : parsePortRange cfg u s = .ok (u', q)) : q = [] ∧ BeginsIn [':'] s ∧ ∃ port : Option Port,
      u' = { u with portrangeString := some s, portrange := rangeOf port }.append
        (portText port) := by
  rw [parsePortRange, scan_self hs, hcfg] at h
  by_cases hall : s = text [':', '*']
  · simp only [if_pos hall, ok_bind] at h
    obtain ⟨rfl, rfl⟩ := Prod.mk.inj (Except.ok.inj h)
    refine ⟨rfl, ?_, some ⟨0, 65535, by decide, by decide⟩, ?_⟩
    · rw [hall]
      exact beginsIn_cons.mpr (by decide)
    · rfl
  · simp only [if_neg hall, ok_bind] at h
    by_cases hcolon : atChar s ':' = true
    · rw [if_pos hcolon] at h
      refine ⟨?_, beginsIn_singleton.mpr (.inr hcolon), ?_⟩
      all_goals
        split at h
        · simp at h
        · next low high hports =>
          have hle := parsePorts_le hports
          split at h
          · simp at h
          · next hvalid =>
            obtain ⟨rfl, rfl⟩ := Prod.mk.inj (Except.ok.inj h)
            first
              | rfl
              | refine ⟨some ⟨low.toNat, high.toNat, by omega, by omega⟩, ?_⟩
                have hlow : ((low.toNat : ℕ) : ℤ) = low := by omega
                have hhigh : ((high.toNat : ℕ) : ℤ) = high := by omega
                simp only [rangeOf, portText, hlow, hhigh]
                rfl
    · rw [if_neg hcolon] at h
      split at h
      · simp at h
      · next hnil =>
        obtain rfl : s = [] := by simpa using hnil
        obtain ⟨rfl, rfl⟩ := Prod.mk.inj (Except.ok.inj h)
        refine ⟨rfl, beginsIn_nil _, none, ?_⟩
        rw [portText, append_nil]
        rfl

/-- **Main result** on port ranges: the text of a range gives the range back. -/
theorem parsePortRange_portText (hcfg : cfg.portRangeNormalizer = none)
    (u : URIParser) (port : Option Port) : parsePortRange cfg u (portText port) =
      .ok ({ u with portrangeString := some (portText port), portrange := rangeOf port }.append
        (portText port), []) := by
  have hslash : Avoids ['/'] (portText port) := (portText_conforms port).userinfo_avoids.mono
    (by decide)
  rw [parsePortRange, scan_self hslash, hcfg]
  cases port with
  | none =>
    rw [portText, append_nil]
    rfl
  | some port =>
    have hstar : portText (some port) ≠ text [':', '*'] := by
      intro heq
      have hmem : '*'.toNat ∈ portText (some port) := by
        rw [heq]
        decide
      have hconforms : Avoids ['*'] (portText (some port)) := by
        rw [portText_some]
        have hlow : Avoids ['*'] (valueOf port.low) := (valueOf_avoids _).mono (by decide)
        have hhigh : Avoids ['*'] (valueOf port.high) := (valueOf_avoids _).mono (by decide)
        split_ifs
        · exact avoids_cons.mpr ⟨by decide, hlow⟩
        · exact avoids_append.mpr ⟨avoids_cons.mpr ⟨by decide, hlow⟩,
            avoids_cons.mpr ⟨by decide, hhigh⟩⟩
      exact hconforms _ hmem (by decide)
    have hcolon : atChar (portText (some port)) ':' = true := by
      rw [portText_some]
      split_ifs
      · rfl
      · rfl
    have hvalid : ¬ ((port.low : ℤ) < 0 ∨ (port.high : ℤ) < 0 ∨ (port.high : ℤ) < port.low) := by
      have := port.low_le_high
      omega
    simp only [if_neg hstar, ok_bind, if_pos hcolon, parsePorts_portText, if_neg hvalid]
    rfl

/-! ## Authorities -/

/-- The state after the user information. -/
def withUser (u : URIParser) : Option Text → URIParser
  | none => u
  | some user => { u with userInfo := some user }.append (user ++ ['@'.toNat])

/-- The normalized text of the user information. -/
def userText : Option Text → Text
  | none => []
  | some user => user ++ ['@'.toNat]

/-- The host and the port range of an authority. -/
def hostAndPort (authority : Text) : Text :=
  match scanMask userinfoMask authority with
  | .ok (user, q) => if user ≠ [] ∧ atChar q '@' then q.drop 1 else authority
  | .error _ => authority

/-- The parse of an authority behind its user information. -/
def parseHostAndPort (cfg : Settings) (u : URIParser) (s : Text) :
    Except URIException (URIParser × Text) := do
  let (u, p) ← parseHost cfg u s
  parsePortRange cfg u p

theorem parseAuthority_of_scan (cfg : Settings) (u : URIParser) {user : Text}
    (hscan : scanMask userinfoMask s = .ok (user, q)) :
    parseAuthority cfg u s = if user ≠ [] ∧ atChar q '@' = true then
        parseHostAndPort cfg (withUser u (some user)) (q.drop 1) else parseHostAndPort cfg u s := by
  rw [parseAuthority, hscan, ok_bind]
  dsimp only
  split_ifs
  · rfl
  · rfl

theorem parseAuthority_user (cfg : Settings) (u : URIParser) {user : Text} (hnil : user ≠ [])
    (hconforms : Conforms userinfoMask user) (s : Text) :
    parseAuthority cfg u (user ++ '@'.toNat :: s) =
      parseHostAndPort cfg (withUser u (some user)) s := by
  have hscan : scanMask userinfoMask (user ++ '@'.toNat :: s) = .ok (user, '@'.toNat :: s) :=
    scanMask_append not_escape_userinfo hconforms (stops_cons.mpr (by decide))
  rw [parseAuthority_of_scan cfg u hscan, if_pos ⟨hnil, rfl⟩]
  rfl

theorem parseAuthority_bracket (cfg : Settings) (u : URIParser) (s : Text) :
    parseAuthority cfg u ('['.toNat :: s) = parseHostAndPort cfg u ('['.toNat :: s) := by
  have hscan : scanMask userinfoMask ('['.toNat :: s) = .ok ([], '['.toNat :: s) :=
    scanMask_of_stops (stops_cons.mpr (by decide))
  rw [parseAuthority_of_scan cfg u hscan, if_neg (by simp)]

theorem parseAuthority_noUser (cfg : Settings) (u : URIParser)
    (hconforms : Conforms userinfoMask s) : parseAuthority cfg u s = parseHostAndPort cfg u s := by
  rw [parseAuthority_of_scan cfg u (scanMask_self not_escape_userinfo hconforms), if_neg (by simp)]

/-- What `parseHost` leaves is the end of its interval. -/
theorem parseHost_suffix {p : Text} (h : parseHost cfg u s = .ok (u', p)) : p <:+ s := by
  rcases parseHost_cases h with ⟨-, rfl, -⟩ | ⟨-, hparse⟩
  · obtain ⟨hsplit, -, -⟩ := scan_spec [']'] (s.drop 1)
    have hrest : (scan [']'] (s.drop 1)).2 <:+ s.drop 1 :=
      ⟨(scan [']'] (s.drop 1)).1, hsplit.symm⟩
    exact ((List.drop_suffix 1 _).trans hrest).trans (List.drop_suffix 1 s)
  · rcases hparse with hparse | hparse
    · obtain ⟨hsplit, havoids, hbegins⟩ := scan_spec [':'] s
      have hipv4 := parseIPv4Address_eq u havoids hbegins
      rw [← hsplit, hparse] at hipv4
      split_ifs at hipv4
      · obtain ⟨-, rfl⟩ := Prod.mk.inj (Option.some.inj hipv4)
        exact ⟨_, hsplit.symm⟩
    · obtain ⟨⟨name, q⟩, hscan, hrest⟩ := bind_eq_ok.mp hparse
      obtain ⟨hname, -, -⟩ := scanMask_eq_ok hscan
      dsimp only at hrest
      split at hrest
      · simp at hrest
      · obtain ⟨-, rfl⟩ := Prod.mk.inj (Except.ok.inj hrest)
        exact ⟨name, hname.symm⟩

theorem Avoids.suffix {stop : List Char} {p : Text} (h : Avoids stop s) (hp : p <:+ s) :
    Avoids stop p := fun c hc => h c (hp.subset hc)

/-- **Spec lemma** of the parse of a host and a port range. -/
theorem parseHostAndPort_eq_ok (hcfg : cfg.portRangeNormalizer = none) (hu : u.ipv6byteCount = 0)
    (hs : Avoids ['/'] s)
    (h : parseHostAndPort cfg u s = .ok (u', q)) :
    ∃ u₁ spec port, HostOutcome cfg.normalizeAuthority u s u₁ ∧ q = [] ∧
      u' = { u₁ with portrangeString := spec, portrange := rangeOf port }.append
        (portText port) := by
  obtain ⟨⟨u₁, p⟩, hhost, hport⟩ := bind_eq_ok.mp h
  obtain ⟨hq, -, port, hres⟩ :=
    parsePortRange_eq_ok hcfg (hs.suffix (parseHost_suffix hhost)) hport
  exact ⟨u₁, some p, port, parseHost_eq_ok hu hhost, hq, hres⟩

/-- **Spec lemma** of `parseAuthority`. -/
theorem parseAuthority_eq_ok (hcfg : cfg.portRangeNormalizer = none) (hu : u.ipv6byteCount = 0)
    (hs : Avoids ['/'] s)
    (h : parseAuthority cfg u s = .ok (u', q)) :
    ∃ user u₁ spec port, (∀ x, user = some x → x ≠ [] ∧ Conforms userinfoMask x) ∧
      HostOutcome cfg.normalizeAuthority (withUser u user) (hostAndPort s) u₁ ∧ q = [] ∧
      u' = { u₁ with portrangeString := spec, portrange := rangeOf port }.append
        (portText port) := by
  obtain ⟨⟨user, r⟩, hscan, -⟩ := bind_eq_ok.mp h
  obtain ⟨hsplit, hconforms, -⟩ := scanMask_eq_ok hscan
  rw [parseAuthority_of_scan cfg u hscan] at h
  split_ifs at h with huser
  · have hr : r <:+ s := ⟨user, hsplit.symm⟩
    obtain ⟨u₁, spec, port, hhost, hq, hres⟩ :=
      parseHostAndPort_eq_ok (u := withUser u (some user)) hcfg hu
        (hs.suffix ((List.drop_suffix 1 r).trans hr)) h
    refine ⟨some user, u₁, spec, port, ?_, ?_, hq, hres⟩
    · intro x hx
      rw [← Option.some.inj hx]
      exact ⟨huser.1, hconforms⟩
    · rw [hostAndPort, hscan]
      simp only [if_pos huser]
      exact hhost
  · obtain ⟨u₁, spec, port, hhost, hq, hres⟩ := parseHostAndPort_eq_ok hcfg hu hs h
    refine ⟨none, u₁, spec, port, by simp, ?_, hq, hres⟩
    rw [hostAndPort, hscan]
    simp only [if_neg huser]
    exact hhost

/-! ## Authorities from their texts -/

/-- The parts of an authority that is normalized. -/
structure NormalAuthority (normalizeAuthority : Bool) where
  userInfo : Option Text
  host : Text
  port : Option Port
  userInfo_conforms : ∀ user, userInfo = some user → user ≠ [] ∧ Conforms userinfoMask user
  host_normal : NormalHost normalizeAuthority host

/-- The normalized text. -/
def NormalAuthority.toText {normalizeAuthority : Bool} (a : NormalAuthority normalizeAuthority) :
    Text :=
  userText (a.userInfo.map upperTriplets) ++ (upperTriplets a.host ++ portText a.port)

/-- The state after the parse of an authority. -/
def NormalAuthority.state {normalizeAuthority : Bool} (a : NormalAuthority normalizeAuthority)
    (u : URIParser) (n : ℕ) : URIParser :=
  { { withUser u (a.userInfo.map upperTriplets) with
      host := some a.host, ipv6byteCount := n }.append a.host with
    portrangeString := some (portText a.port)
    portrange := rangeOf a.port }.append (portText a.port)

theorem upperTriplets_ne_nil (h : s ≠ []) : upperTriplets s ≠ [] := by
  fun_cases upperTriplets s
  · simp [toUpperCase]
  · simp
  · exact h

variable {user : Option Text}

theorem userText_avoids (h : ∀ x, user = some x → Conforms userinfoMask x) :
    Avoids ['/', '?', '#'] (userText user) := by
  cases user with
  | none => exact avoids_nil _
  | some user =>
    rw [userText, avoids_append]
    exact ⟨(h user rfl).userinfo_avoids.mono (by decide), by decide⟩

theorem upperTriplets_userText
    (h : ∀ x, user = some x → x ≠ [] ∧ Conforms userinfoMask x) (s : Text) :
    upperTriplets (userText user ++ s) = userText (user.map upperTriplets) ++ upperTriplets s := by
  cases user with
  | none => rfl
  | some user =>
    have hescaped := (h user rfl).2.escaped not_escape_userinfo
    rw [Option.map_some, userText, userText, List.append_assoc, upperTriplets_append hescaped,
      List.append_assoc, List.singleton_append, List.singleton_append,
      upperTriplets_cons (by decide)]

theorem ipv6byteCount_withUser (u : URIParser) (user : Option Text) :
    (withUser u user).ipv6byteCount = u.ipv6byteCount := by
  cases user with
  | none => rfl
  | some user => rfl

/-- **Main result** on authorities: the text of an authority gives its parts back. -/
theorem parseAuthority_toText (hcfg : cfg.portRangeNormalizer = none) (hu : u.ipv6byteCount = 0)
    (a : NormalAuthority cfg.normalizeAuthority) :
    ∃ n, parseAuthority cfg u a.toText = .ok (a.state u n, []) := by
  have hcount := ipv6byteCount_withUser u (a.userInfo.map upperTriplets)
  obtain ⟨n, hhost⟩ := parseHost_normalHost (hcount.trans hu) a.host_normal
    (portText_beginsIn a.port)
  have hrest : parseHostAndPort cfg (withUser u (a.userInfo.map upperTriplets))
      (upperTriplets a.host ++ portText a.port) = .ok (a.state u n, []) := by
    rw [parseHostAndPort, hhost, ok_bind]
    exact parsePortRange_portText hcfg _ a.port
  refine ⟨n, ?_⟩
  rw [NormalAuthority.toText]
  cases huser : a.userInfo with
  | some user =>
    rw [huser] at hrest
    obtain ⟨hnil, hconforms⟩ := a.userInfo_conforms user huser
    rw [Option.map_some, userText, List.append_assoc, List.singleton_append,
      parseAuthority_user cfg u (upperTriplets_ne_nil hnil)
        (hconforms.upperTriplets not_escape_userinfo)]
    exact hrest
  | none =>
    rw [huser] at hrest
    rw [Option.map_none, userText, List.nil_append]
    rcases a.host_normal.name_or_literal with hname | ⟨literal, hliteral, -⟩
    · rw [parseAuthority_noUser cfg u]
      · exact hrest
      · exact hname.regname_userinfo.append (portText_conforms a.port)
    · rw [hliteral] at hrest ⊢
      exact (parseAuthority_bracket cfg u _).trans hrest

theorem parseAuthority_mappedText_ne_ok (cfg : Settings) (hu : u.ipv6byteCount = 0)
    (huser : ∀ x, user = some x → x ≠ [] ∧ Conforms userinfoMask x) (addr : List ℕ) (p : Text)
    (r : URIParser × Text) :
    parseAuthority cfg u (userText user ++ (mappedText addr ++ p)) ≠ .ok r := by
  have hcount := ipv6byteCount_withUser u user
  have hrest : parseHostAndPort cfg (withUser u user) (mappedText addr ++ p) ≠ .ok r := by
    intro h
    obtain ⟨r', hhost, -⟩ := bind_eq_ok.mp h
    exact parseHost_mappedText_ne_ok cfg (hcount.trans hu) addr p r' hhost
  cases user with
  | some user =>
    obtain ⟨hnil, hconforms⟩ := huser user rfl
    rw [userText, List.append_assoc, List.singleton_append,
      parseAuthority_user cfg u hnil hconforms]
    exact hrest
  | none =>
    intro h
    exact hrest ((parseAuthority_bracket cfg u _).symm.trans h)

end CldcVm.Uri
