import CldcVm.Uri.AddressValue

/-!
# Normalized hosts

What `parseHost` accepts and appends to the normalized text, and what it does with that
text.

Results:

* `parseIPv4Address_eq`: `parseIPv4Address` looks at the text before a colon only;
* `parseHost_eq_ok`: the host is a name, an IPv6 address, an IPv4-mapped one, or an
  IPvFuture address, of which nothing is appended;
* `parseHost_normalHost`: the text of a name or of an IPv6 address that is not IPv4-mapped
  gives the host back;
* `parseHost_mappedText_ne_ok`: the text of an IPv4-mapped address is refused.
-/

namespace CldcVm.Uri

@[simp] theorem append_nil (u : URIParser) : u.append [] = u := by
  simp [URIParser.append]

/-! ## Facts about the classes -/

theorem not_escape_regname : regnameMask.matchChar '%'.toNat = false := by decide

theorem not_escape_userinfo : userinfoMask.matchChar '%'.toNat = false := by decide

variable {s : Text}

set_option maxRecDepth 2000 in
theorem Conforms.regname_userinfo (h : Conforms regnameMask s) : Conforms userinfoMask s := by
  apply h.mono
  · intro c hc
    apply Mask.forall_of_ascii (m := regnameMask) (P := fun c => userinfoMask.matchChar c = true)
      _ hc
    decide
  · intro _
    rfl

theorem Conforms.regname_avoids (h : Conforms regnameMask s) :
    Avoids [':', '/', '?', '#', '[', ']', '@'] s := by
  apply h.avoids
  · decide
  · decide

theorem Conforms.userinfo_avoids (h : Conforms userinfoMask s) :
    Avoids ['/', '?', '#', '[', ']', '@'] s := by
  apply h.avoids
  · decide
  · decide

set_option maxRecDepth 2000 in
theorem Conforms.regname_toLowerCase (h : Conforms regnameMask s) :
    Conforms regnameMask (toLowerCase s) := by
  have hhex : ∀ c, hexdigMask.matchChar c = true → hexdigMask.matchChar (toLowerChar c) = true := by
    intro c hc
    apply Mask.forall_of_ascii (m := hexdigMask) (P := fun c =>
      hexdigMask.matchChar (toLowerChar c) = true) _ hc
    decide
  induction h with
  | nil => exact Conforms.nil
  | char hc _ ih =>
    refine Conforms.char ?_ ih
    apply Mask.forall_of_ascii (m := regnameMask) (P := fun c =>
      regnameMask.matchChar (toLowerChar c) = true) _ hc
    decide
  | escape hm hx hy _ ih => exact Conforms.escape hm (hhex _ hx) (hhex _ hy) ih

/-! ## IPv4 addresses -/

/-- Digits and dots. -/
def IsDotted (s : Text) : Prop := ∀ c ∈ s, (digitMask ||| dotMask).matchChar c = true

instance (s : Text) : Decidable (IsDotted s) :=
  inferInstanceAs (Decidable (∀ c ∈ s, (digitMask ||| dotMask).matchChar c = true))

theorem not_escape_dotted : (digitMask ||| dotMask).matchChar '%'.toNat = false := by decide

theorem matchChar_dotted (c : ℕ) :
    (digitMask ||| dotMask).matchChar c = true ↔ 48 ≤ c ∧ c ≤ 57 ∨ c = 46 := by
  apply Mask.matchChar_iff
  · decide
  · omega

/-- What `scanIPv4Address` takes are digits and dots. -/
theorem scanIPv4Address_split {q : Text} (h : scanIPv4Address s false = .ok (some q)) :
    ∃ d, s = d ++ q ∧ IsDotted d := by
  obtain ⟨⟨d, r⟩, hscan, hrest⟩ := bind_eq_ok.mp h
  obtain ⟨hsplit, hd, -⟩ := scanMask_eq_ok hscan
  refine ⟨d, ?_, hd.forall_mem (by decide)⟩
  simp only [Bool.false_eq_true, false_and, or_false] at hrest
  split at hrest
  · simp at hrest
  · obtain ⟨b, -, hb⟩ := bind_eq_ok.mp hrest
    split at hb
    · obtain rfl : r = q := by simpa using hb
      exact hsplit
    · simp at hb

variable {h p : Text}

/-- **Spec lemma** of `parseIPv4Address`, on a text before a colon or the end. -/
theorem parseIPv4Address_eq (u : URIParser) (hh : Avoids [':'] h) (hp : BeginsIn [':'] p) :
    parseIPv4Address u (h ++ p) = if h ≠ [] ∧ IsDotted h ∧ scanBytes 3 h = .ok true then
        some ({ u with host := some h }.append h, p)
      else none := by
  by_cases hdotted : IsDotted h
  · have hscan : scanMask (digitMask ||| dotMask) (h ++ p) = .ok (h, p) := by
      apply scanMask_append not_escape_dotted (conforms_of_forall hdotted)
      intro c hc
      have hall : ∀ c ∈ text [':'], (digitMask ||| dotMask).matchChar c = false ∧
          ((digitMask ||| dotMask).allowsEscapes = true → c ≠ '%'.toNat) := by decide
      exact hall c (hp c hc)
    by_cases hnil : h = []
    · have haddress : scanIPv4Address (h ++ p) false = .ok none := by
        rw [scanIPv4Address, hscan, ok_bind]
        simp [hnil]
      rw [parseIPv4Address, haddress, if_neg (by simp [hnil])]
    · have haddress : scanIPv4Address (h ++ p) false =
          (scanBytes 3 h >>= fun b => if b = true then .ok (some p)
            else fail "Malformed IPv4 address") := by
        rw [scanIPv4Address, hscan, ok_bind]
        simp [hnil]
      rw [parseIPv4Address, haddress]
      cases hbytes : scanBytes 3 h with
      | error e =>
        rw [if_neg (by simp)]
        rfl
      | ok b =>
        cases b with
        | false =>
          rw [if_neg (by simp)]
          rfl
        | true =>
          have hnot : ¬ (p ≠ [] ∧ ¬ atChar p ':' = true) := by
            intro hboth
            rcases beginsIn_singleton.mp hp with hnil' | hat
            · exact hboth.1 hnil'
            · exact hboth.2 hat
          rw [if_pos ⟨hnil, hdotted, rfl⟩, ok_bind, if_pos rfl]
          simp only [if_neg hnot, List.length_append, Nat.add_sub_cancel, List.take_left']
  · rw [if_neg (by simp [hdotted])]
    -- The scan stops inside `h`, before a character that is not a colon.
    rw [parseIPv4Address]
    split
    · rfl
    · rfl
    · next q haddress =>
      have hq : q ≠ [] ∧ ¬ atChar q ':' = true := by
        obtain ⟨d, hsplit, hd⟩ := scanIPv4Address_split haddress
        rcases List.append_eq_append_iff.mp hsplit with ⟨a, rfl, -⟩ | ⟨c, rfl, rfl⟩
        · exact absurd (fun x hx => hd x (List.mem_append_left a hx)) hdotted
        · cases c with
          | nil => exact absurd (by simpa using hd) hdotted
          | cons x rest =>
            have hx := hh x (List.mem_append_right d List.mem_cons_self)
            exact ⟨by simp, by simpa [text] using hx⟩
      rw [if_pos hq]

/-! ## Hosts -/

/-- The text between the brackets of an IP literal. -/
def literalOf (s : Text) : Text := (scan [']'] (s.drop 1)).1

/-- The host is an IPvFuture address. -/
def IPvFutureHost (s : Text) : Prop :=
  atChar s '[' = true ∧ (atChar (literalOf s) 'v' = true ∨ atChar (literalOf s) 'V' = true)

/-- The host is an IPv6 address that is IPv4-mapped. -/
def MappedHost (s : Text) : Prop :=
  atChar s '[' = true ∧ (bytesOfText (literalOf s)).any isIPv4MappedAddress = true

/-- The hosts that are normalized: a name in lower case, other than the one that is left
out in connection URLs, and an IPv6 address that is not IPv4-mapped. -/
inductive NormalHost (normalizeAuthority : Bool) : Text → Prop
  | name {h : Text} : Conforms regnameMask h → toLowerCase h = h →
      ¬ (normalizeAuthority = true ∧ h = localhost) →
      NormalHost normalizeAuthority h
  | ipv6 {addr : List ℕ} : IsAddress addr → isIPv4MappedAddress addr = false →
      NormalHost normalizeAuthority ('['.toNat :: numericToTextFormatIPv6 addr ++ [']'.toNat])

/-- The host of an IPv4-mapped address. -/
def mappedText (addr : List ℕ) : Text :=
  '['.toNat :: numericToTextFormatIPv4 ((addr.drop 12).take 4) ++ [']'.toNat]

/-- What `parseHost` does, on an interval: the cases of its result. -/
inductive HostOutcome (normalizeAuthority : Bool) (u : URIParser) (s : Text) : URIParser → Prop
  | normal {h : Text} (n : ℕ) : NormalHost normalizeAuthority h → ¬ IPvFutureHost s →
      ¬ MappedHost s →
      HostOutcome normalizeAuthority u s ({ u with host := some h, ipv6byteCount := n }.append h)
  | ipvFuture (h : Text) : IPvFutureHost s →
      HostOutcome normalizeAuthority u s { u with host := some ('['.toNat :: h) }
  | mapped {addr : List ℕ} (n : ℕ) : MappedHost s → HostOutcome normalizeAuthority u s
      ({ u with host := some (mappedText addr), ipv6byteCount := n }.append (mappedText addr))

/-- A dotted text is a name that lower case does not change. -/
theorem IsDotted.normalHost (hh : IsDotted h) (normalizeAuthority : Bool) :
    NormalHost normalizeAuthority h := by
  have hmem : ∀ c ∈ h, regnameMask.matchChar c = true ∧ toLowerChar c = c := by
    intro c hc
    apply Mask.forall_of_ascii (m := digitMask ||| dotMask) (P := fun c =>
      regnameMask.matchChar c = true ∧ toLowerChar c = c) _ (hh c hc)
    decide
  apply NormalHost.name
  · exact conforms_of_forall fun c hc => (hmem c hc).1
  · rw [toLowerCase, List.map_congr_left fun c hc => (hmem c hc).2, List.map_id']
  · rintro ⟨-, rfl⟩
    revert hh
    decide

variable {addr : List ℕ}

theorem textToNumericFormatIPv6_of_mapped (h : Form s addr)
    (hmapped : isIPv4MappedAddress addr = true) :
    canonicalIPv6Name s = .ok (numericToTextFormatIPv4 ((addr.drop 12).take 4)) := by
  have hlength : ((addr.drop 12).take 4).length = 4 := by simp [h.isAddress.length]
  rw [canonicalIPv6Name, textToNumericFormatIPv6, bytesOfText_form h]
  simp only [Option.map_some, convertFromIPv4MappedAddress, hmapped, if_true, Option.getD_some,
    hlength]

theorem textToNumericFormatIPv6_of_not_mapped (h : Form s addr)
    (hmapped : isIPv4MappedAddress addr = false) :
    canonicalIPv6Name s = .ok (numericToTextFormatIPv6 addr) := by
  rw [canonicalIPv6Name, textToNumericFormatIPv6, bytesOfText_form h]
  simp [convertFromIPv4MappedAddress, hmapped, h.isAddress.length]

theorem canonicalIPv6Name_ok (h : Form s addr) : ∃ name, canonicalIPv6Name s = .ok name := by
  cases hmapped : isIPv4MappedAddress addr with
  | true => exact ⟨_, textToNumericFormatIPv6_of_mapped h hmapped⟩
  | false => exact ⟨_, textToNumericFormatIPv6_of_not_mapped h hmapped⟩

variable {u u' : URIParser}

/-- **Spec lemma** of `parseIPv6Address`, when it takes the interval as a whole. -/
theorem parseIPv6Address_eq_ok (hu : u.ipv6byteCount = 0)
    (h : parseIPv6Address u s = .ok (u', [])) :
    ∃ addr name n, Form s addr ∧ canonicalIPv6Name s = .ok name ∧
      u' = { u with host := some ('['.toNat :: name ++ [']'.toNat]), ipv6byteCount := n }.append
        ('['.toNat :: name ++ [']'.toNat]) := by
  obtain ⟨⟨p, compressed, n⟩, hscan, hrest⟩ := bind_eq_ok.mp h
  dsimp only at hrest
  split_ifs at hrest with hlong hshort hfull
  · simp at hrest
  · simp at hrest
  · simp at hrest
  · obtain ⟨name, hname, hres⟩ := bind_eq_ok.mp hrest
    obtain ⟨rfl, rfl⟩ := Prod.mk.inj (Except.ok.inj hres)
    rw [List.length_nil, Nat.sub_zero, List.take_length] at hname
    rw [hu] at hscan
    obtain ⟨addr, hform⟩ := scanIPv6Address_sound hscan ⟨hlong, hshort, hfull⟩
    exact ⟨addr, name, n, hform, hname, rfl⟩

theorem parseIPv6Address_of_form (hu : u.ipv6byteCount = 0) {name : Text} (h : Form s addr)
    (hname : canonicalIPv6Name s = .ok name) :
    ∃ n, parseIPv6Address u s =
      .ok ({ u with host := some ('['.toNat :: name ++ [']'.toNat]), ipv6byteCount := n }.append
        ('['.toNat :: name ++ [']'.toNat]), []) := by
  obtain ⟨c, n, hscan, hlong, hshort, hfull⟩ := scanIPv6Address_complete h
  refine ⟨n, ?_⟩
  rw [parseIPv6Address, hu, hscan, ok_bind]
  dsimp only
  rw [if_neg hlong, if_neg hshort, if_neg hfull, List.length_nil, Nat.sub_zero, List.take_length,
    hname, ok_bind]

variable {cfg : Settings}

/-- **Spec lemma** of `parseRegname`. -/
theorem parseRegname_eq_ok (h : parseRegname cfg u s = .ok (u', p)) :
    ∃ host, NormalHost cfg.normalizeAuthority host ∧
      u' = { u with host := some host }.append host := by
  obtain ⟨⟨name, q⟩, hscan, hrest⟩ := bind_eq_ok.mp h
  obtain ⟨-, hname, -⟩ := scanMask_eq_ok hscan
  dsimp only at hrest
  split at hrest
  · simp at hrest
  · obtain ⟨rfl, -⟩ := Prod.mk.inj (Except.ok.inj hrest)
    refine ⟨_, ?_, rfl⟩
    split_ifs with hlocal
    · apply NormalHost.name Conforms.nil rfl
      rintro ⟨-, hnil⟩
      revert hnil
      decide
    · exact NormalHost.name hname.regname_toLowerCase (toLowerCase_idem name) hlocal

/-- The cases of `parseHost`. -/
theorem parseHost_cases (h : parseHost cfg u s = .ok (u', p)) :
    atChar s '[' = true ∧ p = (scan [']'] (s.drop 1)).2.drop 1 ∧
        ((atChar (literalOf s) 'v' = true ∨ atChar (literalOf s) 'V' = true) ∧
            parseIPvFuture u (literalOf s) = .ok (u', []) ∨
          ¬ (atChar (literalOf s) 'v' = true ∨ atChar (literalOf s) 'V' = true) ∧
            parseIPv6Address u (literalOf s) = .ok (u', [])) ∨ ¬ atChar s '[' = true ∧
        (parseIPv4Address u s = some (u', p) ∨ parseRegname cfg u s = .ok (u', p)) := by
  rw [parseHost] at h
  by_cases hbracket : atChar s '[' = true
  · rw [if_pos hbracket] at h
    dsimp only at h
    split_ifs at h with hliteral hv
    · obtain ⟨⟨u₁, q⟩, hparse, hrest⟩ := bind_eq_ok.mp h
      dsimp only at hrest
      split_ifs at hrest with hq
      · simp at hrest
      · obtain ⟨rfl, rfl⟩ := Prod.mk.inj (Except.ok.inj hrest)
        rw [not_not.mp hq] at hparse
        exact .inl ⟨hbracket, rfl, .inl ⟨hv, hparse⟩⟩
    · obtain ⟨⟨u₁, q⟩, hparse, hrest⟩ := bind_eq_ok.mp h
      dsimp only at hrest
      split_ifs at hrest with hq
      · simp at hrest
      · obtain ⟨rfl, rfl⟩ := Prod.mk.inj (Except.ok.inj hrest)
        rw [not_not.mp hq] at hparse
        exact .inl ⟨hbracket, rfl, .inr ⟨hv, hparse⟩⟩
    · simp at h
  · rw [if_neg hbracket] at h
    refine .inr ⟨hbracket, ?_⟩
    split at h
    · next hipv4 => exact .inl (hipv4.trans (congrArg some (Except.ok.inj h)))
    · exact .inr h

/-- **Spec lemma** of `parseIPvFuture`. -/
theorem parseIPvFuture_eq_ok {q : Text} (h : parseIPvFuture u s = .ok (u', q)) :
    ∃ t, u' = { u with host := some ('['.toNat :: t) } := by
  rw [parseIPvFuture] at h
  split at h
  · simp at h
  · obtain ⟨⟨version, r⟩, -, h⟩ := bind_eq_ok.mp h
    dsimp only at h
    split at h
    · simp at h
    · obtain ⟨⟨address, r'⟩, -, h⟩ := bind_eq_ok.mp h
      dsimp only at h
      split at h
      · simp at h
      · obtain ⟨rfl, -⟩ : _ = u' ∧ r' = q := by simpa using h
        exact ⟨_, rfl⟩

/-- **Spec lemma** of `parseHost`. -/
theorem parseHost_eq_ok (hu : u.ipv6byteCount = 0)
    (h : parseHost cfg u s = .ok (u', p)) : HostOutcome cfg.normalizeAuthority u s u' := by
  rcases parseHost_cases h with ⟨hbracket, -, ⟨hv, hparse⟩ | ⟨hv, hparse⟩⟩ | ⟨hbracket, hparse⟩
  · obtain ⟨t, rfl⟩ := parseIPvFuture_eq_ok hparse
    exact HostOutcome.ipvFuture t ⟨hbracket, hv⟩
  · obtain ⟨addr, name, n, hform, hname, rfl⟩ := parseIPv6Address_eq_ok hu hparse
    have hbytes := bytesOfText_form hform
    cases hmapped : isIPv4MappedAddress addr with
    | true =>
      rw [textToNumericFormatIPv6_of_mapped hform hmapped] at hname
      obtain rfl := Except.ok.inj hname
      apply HostOutcome.mapped
      refine ⟨hbracket, ?_⟩
      rw [hbytes]
      exact hmapped
    | false =>
      rw [textToNumericFormatIPv6_of_not_mapped hform hmapped] at hname
      obtain rfl := Except.ok.inj hname
      apply HostOutcome.normal
      · exact NormalHost.ipv6 hform.isAddress hmapped
      · intro hfuture
        exact hv hfuture.2
      · intro hmapped'
        have hany := hmapped'.2
        rw [hbytes, Option.any_some, hmapped] at hany
        simp at hany
  · have hfuture : ¬ IPvFutureHost s := fun hf => hbracket hf.1
    have hmapped : ¬ MappedHost s := fun hm => hbracket hm.1
    rcases hparse with hparse | hparse
    · obtain ⟨hsplit, havoids, hbegins⟩ := scan_spec [':'] s
      have hipv4 := parseIPv4Address_eq u havoids hbegins
      rw [← hsplit, hparse] at hipv4
      split_ifs at hipv4 with hcond
      · obtain ⟨rfl, -⟩ := Prod.mk.inj (Option.some.inj hipv4)
        exact HostOutcome.normal u.ipv6byteCount (hcond.2.1.normalHost _) hfuture hmapped
    · obtain ⟨host, hhost, rfl⟩ := parseRegname_eq_ok hparse
      exact HostOutcome.normal u.ipv6byteCount hhost hfuture hmapped

/-! ## Hosts from their texts -/

theorem scan_literal {literal : Text} (hliteral : Avoids [']'] literal) (p : Text) :
    scan [']'] (literal ++ ']'.toNat :: p) = (literal, ']'.toNat :: p) :=
  scan_append hliteral (beginsIn_cons.mpr (by decide))

/-- `parseHost` on an IP literal that is not an IPvFuture address. -/
theorem parseHost_literal (cfg : Settings) (u : URIParser) {literal : Text}
    (hliteral : Avoids [']'] literal) (hnil : literal ≠ [])
    (hv : ¬ (atChar literal 'v' = true ∨ atChar literal 'V' = true)) (p : Text) :
    parseHost cfg u ('['.toNat :: literal ++ [']'.toNat] ++ p) = (do
      let (u, q) ← parseIPv6Address u literal
      if q ≠ [] then fail "Malformed IPv6 address" else .ok (u, p)) := by
  have hscan := scan_literal hliteral p
  rw [parseHost, List.cons_append, List.cons_append, List.append_assoc, List.singleton_append]
  simp only [atChar_cons, beq_self_eq_true, if_true, List.drop_succ_cons, List.drop_zero, hscan]
  rw [if_pos ⟨hnil, trivial⟩, if_neg hv]

/-- The text of an IPv6 address does not contain a separator other than a colon. -/
theorem numericToTextFormatIPv6_avoids (src : List ℕ) :
    Avoids ['/', '?', '#', '[', ']', '@', '%', 'v', 'V'] (numericToTextFormatIPv6 src) := by
  intro c hc hmem
  have hall : ∀ c ∈ text ['/', '?', '#', '[', ']', '@', '%', 'v', 'V'],
      hexdigMask.matchChar c = false ∧ c ≠ ':'.toNat := by decide
  obtain ⟨i, -, hi⟩ := List.mem_flatMap.mp hc
  rcases List.mem_append.mp hi with hhex | hcolon
  · exact Bool.false_ne_true ((hall c hmem).1.symm.trans (forall_mem_toHexString _ c hhex))
  · split_ifs at hcolon
    · exact (hall c hmem).2 (List.mem_singleton.mp hcolon)
    · simp at hcolon

theorem isDotted_numericToTextFormatIPv4 (src : List ℕ) :
    IsDotted (numericToTextFormatIPv4 src) := by
  have hdigits : ∀ n, IsDotted (valueOf n) := by
    intro n c hc
    rw [matchChar_dotted]
    exact .inl ((matchChar_digit c).mp (forall_mem_valueOf n c hc))
  have hdot : IsDotted ['.'.toNat] := by decide
  simp only [IsDotted, numericToTextFormatIPv4, List.forall_mem_append]
  exact ⟨⟨⟨⟨⟨⟨hdigits _, hdot⟩, hdigits _⟩, hdot⟩, hdigits _⟩, hdot⟩, hdigits _⟩

theorem IsDotted.avoids (h : IsDotted s) :
    Avoids ['/', '?', '#', '[', ']', '@', '%', 'v', 'V', ':'] s := by
  intro c hc hmem
  have hall : ∀ c ∈ text ['/', '?', '#', '[', ']', '@', '%', 'v', 'V', ':'],
      (digitMask ||| dotMask).matchChar c = false := by decide
  have := h c hc
  simp [hall c hmem] at this

theorem bracketed_avoids {literal : Text} (h : Avoids ['%'] literal) :
    Avoids ['%'] ('['.toNat :: literal ++ [']'.toNat]) := by
  rw [avoids_append, avoids_cons]
  exact ⟨⟨by decide, h⟩, by decide⟩

theorem NormalHost.escaped {normalizeAuthority : Bool}
    (hh : NormalHost normalizeAuthority h) : Escaped h := by
  cases hh with
  | name hconforms _ _ => exact hconforms.escaped not_escape_regname
  | ipv6 _ _ =>
    exact escaped_of_avoids (bracketed_avoids ((numericToTextFormatIPv6_avoids _).mono (by decide)))

theorem NormalHost.name_or_literal {normalizeAuthority : Bool}
    (hh : NormalHost normalizeAuthority h) : Conforms regnameMask (Uri.upperTriplets h) ∨
      ∃ literal, Uri.upperTriplets h = '['.toNat :: literal ++ [']'.toNat] ∧
        Avoids ['/', '?', '#', '%'] literal := by
  cases hh with
  | name hconforms _ _ => exact .inl (hconforms.upperTriplets not_escape_regname)
  | @ipv6 addr _ _ =>
    have havoids := numericToTextFormatIPv6_avoids addr
    exact .inr ⟨numericToTextFormatIPv6 addr,
      upperTriplets_of_avoids (bracketed_avoids (havoids.mono (by decide))),
      havoids.mono (by decide)⟩

theorem mappedText_avoids (addr : List ℕ) : Avoids ['/', '?', '#', '%'] (mappedText addr) := by
  have havoids := (isDotted_numericToTextFormatIPv4 ((addr.drop 12).take 4)).avoids
  rw [mappedText, avoids_append, avoids_cons]
  exact ⟨⟨by decide, havoids.mono (by decide)⟩, by decide⟩

theorem Avoids.atChar {stop : List Char} (h : Avoids stop s) {c : Char}
    (hc : c ∈ stop) : atChar s c = false := by
  cases s with
  | nil => rfl
  | cons d s =>
    rw [atChar_cons, beq_eq_false_iff_ne]
    rintro rfl
    exact h _ List.mem_cons_self (List.mem_map_of_mem hc)

theorem parseHost_mappedText_ne_ok (cfg : Settings) (hu : u.ipv6byteCount = 0)
    (addr : List ℕ) (p : Text) (r : URIParser × Text) :
    parseHost cfg u (mappedText addr ++ p) ≠ .ok r := by
  have havoids := (isDotted_numericToTextFormatIPv4 ((addr.drop 12).take 4)).avoids
  have hnil : numericToTextFormatIPv4 ((addr.drop 12).take 4) ≠ [] := by
    simp [numericToTextFormatIPv4]
  have hv : ¬ (atChar (numericToTextFormatIPv4 ((addr.drop 12).take 4)) 'v' = true ∨
      atChar (numericToTextFormatIPv4 ((addr.drop 12).take 4)) 'V' = true) := by
    rw [havoids.atChar (c := 'v') (by decide), havoids.atChar (c := 'V') (by decide)]
    decide
  intro h
  rw [mappedText, parseHost_literal cfg u (havoids.mono (by decide)) hnil hv] at h
  obtain ⟨⟨u₁, q⟩, hparse, hrest⟩ := bind_eq_ok.mp h
  dsimp only at hrest
  split_ifs at hrest with hq
  · simp at hrest
  · obtain rfl : q = [] := not_not.mp hq
    obtain ⟨b, -, -, hform, -⟩ := parseIPv6Address_eq_ok hu hparse
    exact havoids 58 hform.mem_colon (by decide)

/-- A dotted name is not changed by `normalizePercentEncoded`. -/
theorem eq_of_isDotted_upperTriplets (hlower : toLowerCase h = h)
    (hdotted : IsDotted (upperTriplets h)) : upperTriplets h = h := by
  have hmem : ∀ c ∈ upperTriplets h, toLowerChar c = c := by
    intro c hc
    apply Mask.forall_of_ascii (m := digitMask ||| dotMask) (P := fun c => toLowerChar c = c) _
      (hdotted c hc)
    decide
  calc
    upperTriplets h = toLowerCase (upperTriplets h) := by
      rw [toLowerCase, List.map_congr_left hmem, List.map_id']
    _ = toLowerCase h := toLowerCase_upperTriplets h
    _ = h := hlower

/-- **Main result** on hosts: the text of a normal host gives the host back. -/
theorem parseHost_normalHost (hu : u.ipv6byteCount = 0) (hh : NormalHost cfg.normalizeAuthority h)
    (hp : BeginsIn [':'] p) :
    ∃ n, parseHost cfg u (upperTriplets h ++ p) =
      .ok ({ u with host := some h, ipv6byteCount := n }.append h, p) := by
  cases hh with
  | name hconforms hlower hlocal =>
    refine ⟨u.ipv6byteCount, ?_⟩
    have hupper := hconforms.upperTriplets not_escape_regname
    have havoids := hupper.regname_avoids
    have hbracket : ¬ atChar (upperTriplets h ++ p) '[' = true := by
      cases hcase : upperTriplets h with
      | nil =>
        rw [List.nil_append]
        rcases beginsIn_singleton.mp hp with rfl | hat
        · simp
        · rw [atChar_eq_true hat]
          simp
      | cons c rest =>
        have := havoids.atChar (c := '[') (by decide)
        rw [hcase, atChar_cons] at this
        rw [List.cons_append, atChar_cons, this]
        decide
    have hscan : scanMask regnameMask (upperTriplets h ++ p) = .ok (upperTriplets h, p) := by
      apply scanMask_append not_escape_regname hupper
      intro c hc
      have hall : ∀ c ∈ text [':'], regnameMask.matchChar c = false ∧
          (regnameMask.allowsEscapes = true → c ≠ '%'.toNat) := by decide
      exact hall c (hp c hc)
    rw [parseHost, if_neg hbracket, parseIPv4Address_eq u (havoids.mono (by decide)) hp]
    split_ifs with hcond
    · rw [eq_of_isDotted_upperTriplets hlower hcond.2.1]
    · have hend : ¬ (p ≠ [] ∧ ¬ atChar p ':' = true) := by
        intro hboth
        rcases beginsIn_singleton.mp hp with hnil | hat
        · exact hboth.1 hnil
        · exact hboth.2 hat
      dsimp only
      rw [parseRegname, hscan, ok_bind]
      simp only [if_neg hend, toLowerCase_upperTriplets, hlower, if_neg hlocal]
  | @ipv6 addr haddr hmapped =>
    have havoids := numericToTextFormatIPv6_avoids addr
    have hplain := upperTriplets_of_avoids (bracketed_avoids (havoids.mono (by decide)))
    have hform := form_numericToTextFormatIPv6 haddr
    have hv : ¬ (atChar (numericToTextFormatIPv6 addr) 'v' = true ∨
        atChar (numericToTextFormatIPv6 addr) 'V' = true) := by
      rw [havoids.atChar (c := 'v') (by decide), havoids.atChar (c := 'V') (by decide)]
      decide
    obtain ⟨n, hparse⟩ := parseIPv6Address_of_form hu hform
      (textToNumericFormatIPv6_of_not_mapped hform hmapped)
    refine ⟨n, ?_⟩
    rw [hplain, parseHost_literal cfg u (havoids.mono (by decide)) hform.ne_nil hv, hparse, ok_bind]
    rfl

end CldcVm.Uri
