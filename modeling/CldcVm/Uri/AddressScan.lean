import CldcVm.Uri.AddressText

/-!
# The scan of IPv6 addresses

What the scans of `javax/microedition/io/URIParser.java` (lines 665–725 and 836–931) take,
in the terms of the grammar.

Results:

* `takeIPv4Address_iff`: the scan of an IPv4 address accepts `IPv4address`;
* `scanIPv6Address_sound`, `scanIPv6Address_complete`: the scan of an IPv6 address accepts
  groups, or groups around `::`, and its count is that of their bytes.
-/

namespace CldcVm.Uri

/-! ## IPv4 addresses -/

variable {s : Text}

/-- A `dec-octet` is the text of a byte. -/
theorem decOctet_iff {v : ℕ} : DecOctet s v ↔ v ≤ 255 ∧ s = valueOf v := by
  have hvalue : ∀ v ≤ 255, valueOf v = if v < 10 then [48 + v]
      else if v < 100 then [48 + v / 10, 48 + v % 10]
      else [48 + v / 100, 48 + v / 10 % 10, 48 + v % 10] := by decide +kernel
  constructor
  · intro h
    cases h <;>
    · refine ⟨by omega, ?_⟩
      rw [hvalue _ (by omega)]
      grind
  · rintro ⟨hv, rfl⟩
    rw [hvalue v hv]
    split_ifs with h1 h2
    · exact .one (by omega)
    · have htwo := @DecOctet.two (v / 10) (v % 10) (by omega) (by omega) (by omega)
      rwa [show v / 10 * 10 + v % 10 = v by omega] at htwo
    · rcases Nat.lt_or_ge v 200 with h200 | h200
      · have hlast := @DecOctet.hundred (v / 10 % 10) (v % 10) (by omega) (by omega)
        rw [show 100 + v / 10 % 10 * 10 + v % 10 = v by omega] at hlast
        rwa [show v / 100 = 1 by omega]
      · rw [show v / 100 = 2 by omega]
        rcases Nat.lt_or_ge v 250 with h250 | h250
        · have hlast := @DecOctet.twoHundred (v / 10 % 10) (v % 10) (by omega) (by omega)
          rwa [show 200 + v / 10 % 10 * 10 + v % 10 = v by omega] at hlast
        · have hlast := @DecOctet.last (v % 10) (by omega)
          rw [show 250 + v % 10 = v by omega] at hlast
          rwa [show v / 10 % 10 = 5 by omega]

/-- Bytes with dots between them, `k` of them behind the first one. -/
inductive Octets : ℕ → Text → List ℕ → Prop
  | last {s : Text} {a : ℕ} : DecOctet s a → Octets 0 s [a]
  | more {k : ℕ} {s t : Text} {a : ℕ} {b : List ℕ} : DecOctet s a → Octets k t b →
      Octets (k + 1) (s ++ 46 :: t) (a :: b)

variable {b : List ℕ}

theorem iPv4address_iff : IPv4address s b ↔ Octets 3 s b := by
  constructor
  · rintro ⟨hs, ht, hu, hv⟩
    exact .more hs (.more ht (.more hu (.last hv)))
  · intro h
    cases h with | more hs h => cases h with | more ht h => cases h with | more hu h =>
      cases h with | last hv => exact .mk hs ht hu hv

variable {q : Text}

/-- **Spec lemma** of `scanByte`. -/
theorem scanByte_eq_some : scanByte s = .ok (some q) ↔
    ∃ d v, DecOctet d v ∧ Stops digitMask q ∧ s = d ++ q := by
  constructor
  · intro h
    obtain ⟨⟨d, r⟩, hscan, hrest⟩ := bind_eq_ok.mp h
    obtain ⟨rfl, -, hstops⟩ := scanMask_eq_ok hscan
    dsimp only at hrest
    split_ifs at hrest with hd
    · simp at hrest
    · split at hrest
      · simp at hrest
      · next value hvalue =>
        split_ifs at hrest with hle htext
        · simp at hrest
        · simp at hrest
        · obtain rfl : r = q := by simpa using hrest
          exact ⟨d, value.toNat, decOctet_iff.mpr ⟨by omega, (not_not.mp htext).symm⟩, hstops, rfl⟩
  · rintro ⟨d, v, hd, hstops, rfl⟩
    obtain ⟨hv, rfl⟩ := decOctet_iff.mp hd
    have hscan := scanMask_append (by decide) (conforms_of_forall (forall_mem_valueOf v)) hstops
    rw [scanByte, hscan, ok_bind]
    simp only [valueOf_ne_nil, if_false]
    rw [parseInt_valueOf (by omega)]
    simp only [Int.toNat_natCast, ne_eq, not_true, if_false]
    rw [if_neg (by omega)]

variable {k : ℕ}

/-- One round of the loop of `scanIPv4Address`. -/
theorem scanBytes_eq_ok {r : Bool} (h : scanBytes k s = .ok r) : ∃ q, scanByte s = .ok q := by
  cases hbyte : scanByte s with
  | ok q => exact ⟨q, rfl⟩
  | error e =>
    have herror : scanBytes k s = .error e := by
      cases k <;>
      · delta scanBytes
        show (scanByte s >>= _) = _
        rw [hbyte]
        rfl
    rw [herror] at h
    cases h

theorem scanBytes_zero {q : Option Text} (h : scanByte s = .ok q) :
    scanBytes 0 s = .ok (q = some []) := by
  delta scanBytes
  show (scanByte s >>= _) = _
  rw [h]
  cases q <;> simp

theorem scanBytes_succ {q : Option Text} (h : scanByte s = .ok q) :
    scanBytes (k + 1) s = q.elim (.ok false)
      fun q => if atChar q '.' then scanBytes k (q.drop 1) else .ok false := by
  delta scanBytes
  show (scanByte s >>= _) = _
  rw [h]
  cases q <;> rfl

/-- **Spec lemma** of the loop of `scanIPv4Address`. -/
theorem scanBytes_iff : scanBytes k s = .ok true ↔ ∃ b, Octets k s b := by
  induction k generalizing s with
  | zero =>
    constructor
    · intro h
      obtain ⟨r, hbyte⟩ := scanBytes_eq_ok h
      rw [scanBytes_zero hbyte] at h
      obtain rfl : r = some [] := by simpa using h
      obtain ⟨d, v, hd, -, rfl⟩ := scanByte_eq_some.mp hbyte
      rw [List.append_nil]
      exact ⟨[v], .last hd⟩
    · rintro ⟨b, h⟩
      cases h with
      | @last s v hs =>
        have hbyte := scanByte_eq_some.mpr ⟨s, v, hs, stops_nil _, (List.append_nil s).symm⟩
        rw [scanBytes_zero hbyte, decide_eq_true rfl]
  | succ k ih =>
    constructor
    · intro h
      obtain ⟨r, hbyte⟩ := scanBytes_eq_ok h
      rw [scanBytes_succ hbyte] at h
      cases r with
      | none => simp at h
      | some q =>
        obtain ⟨d, v, hd, -, rfl⟩ := scanByte_eq_some.mp hbyte
        rw [Option.elim_some] at h
        split_ifs at h with hdot
        · obtain ⟨b, hb⟩ := ih.mp h
          rw [atChar_eq_true hdot]
          exact ⟨v :: b, .more hd hb⟩
        · simp at h
    · rintro ⟨b, h⟩
      cases h with
      | @more _ s t v b hs ht =>
        have hbyte : scanByte (s ++ 46 :: t) = .ok (some (46 :: t)) :=
          scanByte_eq_some.mpr ⟨s, v, hs, stops_cons.mpr (by decide), rfl⟩
        rw [scanBytes_succ hbyte, Option.elim_some, atChar_cons]
        exact ih.mpr ⟨b, ht⟩

theorem Octets.isDotted (h : Octets k s b) :
    ∀ c ∈ s, (digitMask ||| dotMask).matchChar c = true := by
  have hdigit : ∀ {s v}, DecOctet s v → ∀ c ∈ s, (digitMask ||| dotMask).matchChar c = true := by
    intro s v h c hc
    obtain ⟨-, rfl⟩ := decOctet_iff.mp h
    apply Mask.forall_of_ascii (m := digitMask) _ (forall_mem_valueOf v c hc)
    decide
  induction h with
  | last hs => exact hdigit hs
  | more hs _ ih =>
    exact List.forall_mem_append.mpr ⟨hdigit hs, List.forall_mem_cons.mpr ⟨by decide, ih⟩⟩

theorem IPv4address.split (h : IPv4address s b) : ∃ v t, v ≤ 255 ∧ s = valueOf v ++ 46 :: t := by
  obtain @⟨s, t, u, w, a, _, _, _, hs, -, -, -⟩ := h
  obtain ⟨ha, rfl⟩ := decOctet_iff.mp hs
  exact ⟨a, _, ha, rfl⟩

/-- **Main result** on the scan of an IPv4 address. -/
theorem takeIPv4Address_iff {p : Text} {expected : String} :
    takeIPv4Address s expected = .ok p ↔ p = [] ∧ ∃ b, IPv4address s b := by
  constructor
  · intro h
    obtain ⟨r, haddress, hrest⟩ := bind_eq_ok.mp h
    obtain ⟨⟨d, q⟩, hscan, htake⟩ := bind_eq_ok.mp haddress
    obtain ⟨rfl, -, -⟩ := scanMask_eq_ok hscan
    cases r with
    | none => simp at hrest
    | some p' =>
      obtain rfl : p' = p := by simpa using hrest
      dsimp only at htake
      split_ifs at htake with hd
      · simp at htake
      · obtain ⟨c, hbytes, hc⟩ := bind_eq_ok.mp htake
        split_ifs at hc with hcase
        · obtain rfl : q = p' := by simpa using hc
          rw [hcase] at hbytes
          obtain ⟨b, hb⟩ := scanBytes_iff.mp hbytes
          obtain rfl : q = [] := by
            by_contra hq
            exact hd (.inr ⟨rfl, hq⟩)
          rw [List.append_nil]
          exact ⟨rfl, b, iPv4address_iff.mpr hb⟩
        · simp at hc
  · rintro ⟨rfl, b, h⟩
    have hoctets := iPv4address_iff.mp h
    have hscan := scanMask_self (by decide) (conforms_of_forall hoctets.isDotted)
    have hnil : s ≠ [] := by
      obtain ⟨v, t, -, rfl⟩ := h.split
      simp
    rw [takeIPv4Address, scanIPv4Address, hscan, ok_bind]
    simp [hnil, scanBytes_iff.mpr ⟨b, hoctets⟩]

/-! ## Groups -/

variable {g : Text}

theorem isH16_of_scan (h : scanMask hexdigMask s = .ok (g, q)) (hnil : g ≠ [])
    (hle : ¬ 4 < g.length) : IsH16 g ∧ s = g ++ q := by
  obtain ⟨rfl, hconforms, -⟩ := scanMask_eq_ok h
  refine ⟨⟨hnil, by omega, ?_⟩, rfl⟩
  intro c hc
  exact (matchChar_hexdig c).mp (hconforms.forall_mem (by decide) c hc)

/-- The digits of an address end before a colon. -/
def AtColon (q : Text) : Prop := ∀ c, q.head? = some c → c = 58

theorem IsH16.scan (h : IsH16 g) (hq : AtColon q) : scanMask hexdigMask (g ++ q) = .ok (g, q) := by
  apply scanMask_append (by decide)
  · exact conforms_of_forall fun c hc => (matchChar_hexdig c).mpr (h.hexdig c hc)
  · intro c hc
    rw [hq c hc]
    decide

theorem IsH16.not_colon (h : IsH16 g) (t : Text) : atChar (g ++ t) ':' = false := by
  cases g with
  | nil => exact absurd rfl h.ne_nil
  | cons c g =>
    have hc := h.hexdig c List.mem_cons_self
    rw [List.cons_append, atChar_cons, beq_eq_false_iff_ne]
    rintro rfl
    have hcolon : ':'.toNat = 58 := rfl
    unfold Hexdig at hc
    omega

theorem AtColon.not_dot (h : AtColon q) : atChar q '.' = false := by
  cases q with
  | nil => rfl
  | cons c q =>
    rw [h c rfl]
    rfl

/-- What stands behind groups: nothing, `::`, or a colon and an IPv4 address. -/
inductive Behind : Text → Prop
  | nothing : Behind []
  | colons (t : Text) : Behind (58 :: 58 :: t)
  | ipv4 {v : Text} {b : List ℕ} : IPv4address v b → Behind (58 :: v)

theorem Behind.atColon (h : Behind q) (gs : List Text) : AtColon (colonsBefore gs ++ q) := by
  intro c hc
  cases gs with
  | nil => cases h <;> simp_all [colonsBefore]
  | cons g gs => simpa [colonsBefore, eq_comm] using hc

/-- A text that is not a group: nothing, a colon, or an IPv4 address. -/
theorem IPv4address.scan (h : IPv4address s b) :
    ∃ d t, scanMask hexdigMask s = .ok (d, 46 :: t) ∧ d ≠ [] := by
  obtain ⟨v, t, -, rfl⟩ := h.split
  refine ⟨valueOf v, t, ?_, valueOf_ne_nil v⟩
  apply scanMask_append (by decide)
  · apply conforms_of_forall
    intro c hc
    rw [matchChar_hexdig]
    exact .inl ((matchChar_digit c).mp (forall_mem_valueOf v c hc))
  · exact stops_cons.mpr (by decide)

variable {m n : ℕ}

/-- **Step lemma**: what the loop of `scanHexSeq` takes. -/
theorem scanHexSeqFrom_sound {fuel : ℕ} {p : Text} (h : scanHexSeqFrom fuel p n = .ok (q, m)) :
    ∃ gs, AllH16 gs ∧ p = colonsBefore gs ++ q ∧ m = n + 2 * gs.length := by
  have hnone : ∀ {p n}, (Except.ok (p, n) : Except URIException (Text × ℕ)) = .ok (q, m) →
      ∃ gs, AllH16 gs ∧ p = colonsBefore gs ++ q ∧ m = n + 2 * gs.length := by
    intro p n h
    obtain ⟨rfl, rfl⟩ := Prod.mk.inj (Except.ok.inj h)
    exact ⟨[], List.forall_mem_nil _, rfl, rfl⟩
  induction fuel generalizing p n with
  | zero => exact hnone h
  | succ fuel ih =>
    rw [scanHexSeqFrom] at h
    split_ifs at h with hcolon hcolons
    · exact hnone h
    · obtain ⟨⟨g, r⟩, hscan, hrest⟩ := bind_eq_ok.mp h
      dsimp only at hrest
      split_ifs at hrest with hg hdot hlong
      · simp at hrest
      · exact hnone hrest
      · simp at hrest
      · obtain ⟨hgroup, hsplit⟩ := isH16_of_scan hscan hg hlong
        obtain ⟨gs, hall, rfl, rfl⟩ := ih hrest
        refine ⟨g :: gs, allH16_cons.mpr ⟨hgroup, hall⟩, ?_, ?_⟩
        · rw [atChar_eq_true hcolon, hsplit, colonsBefore, List.cons_append, List.append_assoc]
          rfl
        · rw [List.length_cons]
          ring
    · exact hnone h

/-- **Run lemma**: the loop of `scanHexSeq` takes all groups. -/
theorem scanHexSeqFrom_complete {gs : List Text} (hall : AllH16 gs) (hq : Behind q)
    {fuel : ℕ} (hfuel : gs.length ≤ fuel) (n : ℕ) :
    scanHexSeqFrom fuel (colonsBefore gs ++ q) n = .ok (q, n + 2 * gs.length) := by
  induction gs generalizing fuel n with
  | nil =>
    cases fuel with
    | zero => rfl
    | succ fuel =>
      rw [colonsBefore, List.nil_append, scanHexSeqFrom]
      cases hq with
      | nothing => rfl
      | colons t => simp
      | @ipv4 v b hv =>
        obtain ⟨d, t, hscan, hd⟩ := hv.scan
        simp only [atChar_cons, List.drop_succ_cons, List.drop_zero, hscan, ok_bind, hd]
        simp
  | cons g gs ih =>
    obtain ⟨fuel, rfl⟩ : ∃ l, fuel = l + 1 := ⟨fuel - 1, by simp at hfuel; omega⟩
    obtain ⟨hg, hgs⟩ := allH16_cons.mp hall
    rw [colonsBefore, List.cons_append, List.append_assoc, scanHexSeqFrom]
    simp only [atChar_cons, List.drop_succ_cons, List.drop_zero, hg.not_colon,
      hg.scan (hq.atColon gs), ok_bind, hg.ne_nil, (hq.atColon gs).not_dot]
    rw [if_neg (by decide), if_neg (by decide), if_neg (by decide), if_neg (by decide),
      if_neg (by have := hg.length_le; omega),
      ih hgs (by simpa using hfuel), List.length_cons]
    congr 2
    ring

theorem scanHexSeq_sound {r : Option Text} (h : scanHexSeq s n = .ok (r, m)) : (r = none ∧ m = n) ∨
      ∃ p gs, r = some p ∧ gs ≠ [] ∧ AllH16 gs ∧ s = joinTexts gs ++ p ∧ m = n + 2 * gs.length := by
  obtain ⟨⟨g, q⟩, hscan, hrest⟩ := bind_eq_ok.mp h
  dsimp only at hrest
  split_ifs at hrest with hg hdot hlong
  · obtain ⟨rfl, rfl⟩ := Prod.mk.inj (Except.ok.inj hrest)
    exact .inl ⟨rfl, rfl⟩
  · obtain ⟨rfl, rfl⟩ := Prod.mk.inj (Except.ok.inj hrest)
    exact .inl ⟨rfl, rfl⟩
  · simp at hrest
  · obtain ⟨⟨p, k⟩, hloop, hres⟩ := bind_eq_ok.mp hrest
    obtain ⟨rfl, rfl⟩ := Prod.mk.inj (Except.ok.inj hres)
    obtain ⟨hgroup, rfl⟩ := isH16_of_scan hscan hg hlong
    obtain ⟨gs, hall, rfl, rfl⟩ := scanHexSeqFrom_sound hloop
    refine .inr ⟨p, g :: gs, rfl, List.cons_ne_nil _ _, allH16_cons.mpr ⟨hgroup, hall⟩, ?_, ?_⟩
    · rw [joinTexts, List.append_assoc]
    · rw [List.length_cons]
      ring

theorem scanHexSeq_complete {gs : List Text} (hnil : gs ≠ []) (hall : AllH16 gs)
    (hq : Behind q) (n : ℕ) :
    scanHexSeq (joinTexts gs ++ q) n = .ok (some q, n + 2 * gs.length) := by
  cases gs with
  | nil => exact absurd rfl hnil
  | cons g gs =>
    obtain ⟨hg, hgs⟩ := allH16_cons.mp hall
    have hfuel : gs.length ≤ (colonsBefore gs ++ q).length := by
      clear hall hgs hnil
      rw [List.length_append]
      induction gs with
      | nil => exact Nat.zero_le _
      | cons h gs ih =>
        rw [colonsBefore, List.length_cons, List.length_cons, List.length_append]
        omega
    rw [joinTexts, List.append_assoc, scanHexSeq, hg.scan (hq.atColon gs), ok_bind]
    dsimp only
    rw [if_neg hg.ne_nil, (hq.atColon gs).not_dot, if_neg (by decide),
      if_neg (by have := hg.length_le; omega), scanHexSeqFrom_complete hgs hq hfuel, ok_bind,
      List.length_cons]
    congr 2
    ring

theorem scanHexSeq_ipv4 (h : IPv4address s b) (n : ℕ) : scanHexSeq s n = .ok (none, n) := by
  obtain ⟨d, t, hscan, hd⟩ := h.scan
  rw [scanHexSeq, hscan, ok_bind]
  simp [hd]

/-- **Spec lemma** of `scanHexPost`. -/
theorem scanHexPost_iff : scanHexPost s n = .ok ([], m) ↔ ∃ k b, Tail s k b ∧ m = n + 2 * k := by
  constructor
  · intro h
    rw [scanHexPost] at h
    split_ifs at h with hs
    · obtain ⟨rfl, rfl⟩ := Prod.mk.inj (Except.ok.inj h)
      exact ⟨0, [], @Tail.groups [] (List.forall_mem_nil _), rfl⟩
    · obtain ⟨⟨r, k⟩, hseq, hrest⟩ := bind_eq_ok.mp h
      rcases scanHexSeq_sound hseq with ⟨rfl, rfl⟩ | ⟨p, gs, rfl, hnil, hall, rfl, rfl⟩
      · obtain ⟨p, htake, hres⟩ := bind_eq_ok.mp hrest
        obtain ⟨-, b, hb⟩ := takeIPv4Address_iff.mp htake
        obtain ⟨-, rfl⟩ := Prod.mk.inj (Except.ok.inj hres)
        exact ⟨2, b, @Tail.ipv4 [] _ _ (List.forall_mem_nil _) hb, rfl⟩
      · dsimp only at hrest
        split_ifs at hrest with hcolon
        · obtain ⟨q, htake, hres⟩ := bind_eq_ok.mp hrest
          obtain ⟨-, b, hb⟩ := takeIPv4Address_iff.mp htake
          obtain ⟨-, rfl⟩ := Prod.mk.inj (Except.ok.inj hres)
          refine ⟨gs.length + 2, bytesOf gs ++ b, ?_, by ring⟩
          rw [atChar_eq_true hcolon]
          exact (joinTexts_append_colon hnil _).symm ▸ Tail.ipv4 hall hb
        · obtain ⟨rfl, rfl⟩ := Prod.mk.inj (Except.ok.inj hrest)
          rw [List.append_nil]
          exact ⟨gs.length, bytesOf gs, .groups hall, rfl⟩
  · rintro ⟨k, b, h, rfl⟩
    have hne : ∀ {gs : List Text} {q : Text}, gs ≠ [] → AllH16 gs → joinTexts gs ++ q ≠ [] := by
      intro gs q hnil hall
      cases gs with
      | nil => exact absurd rfl hnil
      | cons g gs => simp [joinTexts, (allH16_cons.mp hall).1.ne_nil]
    cases h with
    | @groups gs hall =>
      rcases eq_or_ne gs [] with rfl | hnil
      · rfl
      · have hseq := scanHexSeq_complete hnil hall .nothing n
        have hs := hne hnil hall (q := [])
        rw [List.append_nil] at hseq hs
        rw [scanHexPost, if_neg hs, hseq]
        rfl
    | @ipv4 gs v b hall hv =>
      have htake : takeIPv4Address v "hex digits or IPv4 address" = .ok [] :=
        takeIPv4Address_iff.mpr ⟨rfl, b, hv⟩
      rcases eq_or_ne gs [] with rfl | hnil
      · obtain ⟨x, t, -, hsplit⟩ := hv.split
        have hs : v ≠ [] := by simp [hsplit]
        rw [colonsAfter, List.nil_append, scanHexPost, if_neg hs, scanHexSeq_ipv4 hv, ok_bind]
        dsimp only
        rw [htake, ok_bind]
        rfl
      · rw [← joinTexts_append_colon hnil, scanHexPost, if_neg (hne hnil hall),
          scanHexSeq_complete hnil hall (.ipv4 hv), ok_bind]
        simp only [atChar_cons, List.drop_succ_cons, List.drop_zero, htake, ok_bind]
        rw [if_pos (by decide), show n + 2 * gs.length + 4 = n + 2 * (gs.length + 2) by ring]

/-! ## IPv6 addresses -/

theorem IPv4address.not_colons {v : Text} (h : IPv4address v b) :
    atString (58 :: v) [':', ':'] = false := by
  obtain ⟨x, t, -, rfl⟩ := h.split
  have hdigits := forall_mem_valueOf x
  cases hvalue : valueOf x with
  | nil => exact absurd hvalue (valueOf_ne_nil x)
  | cons c cs =>
    have hc := (matchChar_digit c).mp (hdigits c (hvalue ▸ List.mem_cons_self))
    have hne : ¬ 58 = c := by omega
    simp [atString, text, List.isPrefixOf, hne]

theorem atString_colons (h : atString s [':', ':'] = true) : s = 58 :: 58 :: s.drop 2 := by
  obtain ⟨t, rfl⟩ := List.isPrefixOf_iff_prefix.mp h
  rfl

/-- What the conditions of `parseIPv6Address` say of `compressedZeros` and the count. -/
def CountFits (compressedZeros : Bool) (byteCount : ℕ) : Prop :=
  ¬ 16 < byteCount ∧ ¬ (compressedZeros = false ∧ byteCount < 16) ∧
    ¬ (compressedZeros = true ∧ byteCount = 16)

theorem scanIPv6Address_sound {c : Bool}
    (h : scanIPv6Address s 0 = .ok ([], c, m)) (hfits : CountFits c m) : ∃ b, Form s b := by
  have hcompressed : ∀ {gs : List Text} {t : Text} {n : ℕ}, AllH16 gs → n = 2 * gs.length →
      (scanHexPost t n >>= fun r => .ok (r.1, true, r.2)) =
        (.ok ([], c, m) : Except URIException (Text × Bool × ℕ)) →
      ∃ b, Form (joinTexts gs ++ 58 :: 58 :: t) b := by
    rintro gs t n hall rfl hres
    obtain ⟨⟨p, k⟩, hpost, hok⟩ := bind_eq_ok.mp hres
    obtain ⟨rfl, rfl, rfl⟩ : p = [] ∧ true = c ∧ k = m := by simpa using hok
    obtain ⟨k, b, htail, rfl⟩ := scanHexPost_iff.mp hpost
    have hle : gs.length + k ≤ 7 := by
      unfold CountFits at hfits
      simp only [true_and] at hfits
      omega
    exact ⟨_, .compressed hall htail hle⟩
  have hfull : ∀ {k : ℕ} {b : List ℕ}, Tail s k b → c = false → m = 2 * k → ∃ b, Form s b := by
    rintro k b htail rfl rfl
    have hk : k = 8 := by
      unfold CountFits at hfits
      simp only [true_and] at hfits
      omega
    exact ⟨b, .full (hk ▸ htail)⟩
  obtain ⟨⟨r, k⟩, hseq, hrest⟩ := bind_eq_ok.mp h
  rcases scanHexSeq_sound hseq with ⟨rfl, rfl⟩ | ⟨p, gs, rfl, hnil, hall, rfl, rfl⟩
  · dsimp only at hrest
    split_ifs at hrest with hcolons
    · rw [atString_colons hcolons]
      exact @hcompressed [] _ _ (List.forall_mem_nil _) rfl hrest
    · obtain ⟨rfl, rfl, rfl⟩ : s = [] ∧ false = c ∧ 0 = m := by simpa using hrest
      exact hfull (@Tail.groups [] (List.forall_mem_nil _)) rfl rfl
  · dsimp only at hrest
    split_ifs at hrest with hcolons hcolon
    · rw [atString_colons hcolons]
      exact hcompressed hall (by ring) hrest
    · obtain ⟨q, htake, hres⟩ := bind_eq_ok.mp hrest
      obtain ⟨-, b, hb⟩ := takeIPv4Address_iff.mp htake
      obtain ⟨-, rfl, rfl⟩ : q = [] ∧ false = c ∧ _ = m := by simpa using hres
      rw [atChar_eq_true hcolon] at hfull ⊢
      exact hfull ((joinTexts_append_colon hnil _).symm ▸ Tail.ipv4 hall hb) rfl (by ring)
    · obtain ⟨rfl, rfl, rfl⟩ : p = [] ∧ false = c ∧ _ = m := by simpa using hrest
      rw [List.append_nil] at hfull ⊢
      exact hfull (.groups hall) rfl (by ring)

theorem scanIPv6Address_complete (h : Form s b) :
    ∃ c m, scanIPv6Address s 0 = .ok ([], c, m) ∧ CountFits c m := by
  cases h with
  | full ht =>
    refine ⟨false, 16, ?_, by unfold CountFits; decide⟩
    generalize hk : 8 = k at ht
    cases ht with
    | @groups gs hall =>
      have hnil : gs ≠ [] := by
        rintro rfl
        cases hk
      have hseq := scanHexSeq_complete hnil hall .nothing 0
      rw [List.append_nil, ← hk] at hseq
      rw [scanIPv6Address, hseq]
      rfl
    | @ipv4 gs v b hall hv =>
      have hnil : gs ≠ [] := by
        rintro rfl
        cases hk
      have htake : takeIPv4Address v "IPv4 address" = .ok [] :=
        takeIPv4Address_iff.mpr ⟨rfl, b, hv⟩
      rw [← joinTexts_append_colon hnil, scanIPv6Address,
        scanHexSeq_complete hnil hall (.ipv4 hv), ok_bind]
      simp only [hv.not_colons, Bool.false_eq_true, if_false, atChar_cons, List.drop_succ_cons,
        List.drop_zero, htake, ok_bind]
      rw [if_pos (by decide), show 0 + 2 * gs.length + 4 = 16 by omega]
  | @compressed gs t n b hall ht hle =>
    have hpost : ∀ l, scanHexPost t l = .ok ([], l + 2 * n) :=
      fun l => scanHexPost_iff.mpr ⟨n, b, ht, rfl⟩
    refine ⟨true, 2 * gs.length + 2 * n, ?_, by unfold CountFits; simp; omega⟩
    rcases eq_or_ne gs [] with rfl | hnil
    · have hseq : scanHexSeq (58 :: 58 :: t) 0 = .ok (none, 0) := by
        rw [scanHexSeq, scanMask_of_stops (stops_cons.mpr (by decide))]
        rfl
      rw [joinTexts, List.nil_append, scanIPv6Address, hseq, ok_bind]
      simp [atString, text, List.isPrefixOf, hpost]
    · rw [scanIPv6Address, scanHexSeq_complete hnil hall (.colons t), ok_bind]
      simp [atString, text, List.isPrefixOf, hpost]

end CldcVm.Uri
