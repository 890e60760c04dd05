import CldcVm.Uri.AddressScan

/-!
# The value of IPv6 addresses

What the conversions of `javax/microedition/io/URIParser.java` (lines 1078–1241) make of a
text of the grammar.

Results:

* `textToNumericFormatIPv4_address`: an IPv4 address denotes its four bytes;
* `bytesOfText_form`: an IPv6 address denotes its bytes, with zeros for `::`.
-/

namespace CldcVm.Uri

/-! ## IPv4 addresses -/

/-- One digit of `textToNumericFormatIPv4`. -/
theorem textToNumericIPv4From_digit {dst : List ℕ} {cur octets d : ℕ} {saw : Bool} (hd : d ≤ 9)
    (hsum : dst.getD cur 0 * 10 + d ≤ 255) (hoctets : saw = true ∨ octets < 4) (rest : Text) :
    textToNumericIPv4From ((48 + d) :: rest) dst cur octets saw =
      textToNumericIPv4From rest (dst.set cur (dst.getD cur 0 * 10 + d)) cur
        (if saw then octets else octets + 1) true := by
  have hdigit : isDigit (48 + d) = true := by simp [isDigit]; omega
  have hvalue : (charDigit (48 + d) 10).getD 0xff = d := by
    rw [charDigit, if_pos hdigit, if_pos (by omega), Option.getD_some]
    omega
  rw [textToNumericIPv4From, if_pos hdigit]
  simp only [hvalue]
  rw [if_neg (by omega)]
  cases saw with
  | true => simp
  | false =>
    have hlt : octets < 4 := by simpa using hoctets
    rw [if_neg (by decide), if_neg (by omega)]
    simp

variable {s : Text} {p : List ℕ}

/-- The digits of a byte. -/
theorem DecOctet.textToNumeric {a : ℕ} (h : DecOctet s a) {z : List ℕ}
    {octets : ℕ} (hoctets : octets < 4) (rest : Text) :
    textToNumericIPv4From (s ++ rest) (p ++ 0 :: z) p.length octets false =
      textToNumericIPv4From rest (p ++ a :: z) p.length (octets + 1) true := by
  have hfirst : ∀ {d : ℕ} (rest : Text), d ≤ 9 →
      textToNumericIPv4From ((48 + d) :: rest) (p ++ 0 :: z) p.length octets false =
        textToNumericIPv4From rest (p ++ d :: z) p.length (octets + 1) true := by
    intro d rest hd
    rw [textToNumericIPv4From_digit hd (by simpa using by omega) (.inr hoctets)]
    simp
  have hlater : ∀ {v d : ℕ} (rest : Text), d ≤ 9 → v * 10 + d ≤ 255 →
      textToNumericIPv4From ((48 + d) :: rest) (p ++ v :: z) p.length (octets + 1)
          true =
        textToNumericIPv4From rest (p ++ (v * 10 + d) :: z) p.length (octets + 1)
          true := by
    intro v d rest hd hsum
    rw [textToNumericIPv4From_digit hd (by simpa using hsum) (.inl rfl)]
    simp
  cases h with
  | one ha => exact hfirst rest ha
  | two h1 ha hb => exact (hfirst _ ha).trans (hlater rest hb (by omega))
  | @hundred a b ha hb =>
    have hsum : 100 + a * 10 + b = (1 * 10 + a) * 10 + b := by ring
    rw [hsum]
    exact (hfirst (d := 1) _ (by decide)).trans
      ((hlater _ ha (by omega)).trans (hlater rest hb (by omega)))
  | @twoHundred a b ha hb =>
    have hsum : 200 + a * 10 + b = (2 * 10 + a) * 10 + b := by ring
    rw [hsum]
    exact (hfirst (d := 2) _ (by decide)).trans
      ((hlater _ (by omega) (by omega)).trans (hlater rest hb (by omega)))
  | @last b hb =>
    exact (hfirst (d := 2) _ (by decide)).trans
      ((hlater (d := 5) _ (by decide) (by decide)).trans (hlater rest (by omega) (by omega)))

variable {b : List ℕ}

/-- **Run lemma**: the loop of `textToNumericFormatIPv4` over bytes with dots. -/
theorem Octets.textToNumeric {k : ℕ} (h : Octets k s b) (hk : p.length + k = 3) :
    textToNumericIPv4From s (p ++ List.replicate (k + 1) 0) p.length p.length false =
      some (p ++ b) := by
  induction h generalizing p with
  | @last s a hs =>
    have hrun := hs.textToNumeric (p := p) (z := []) (show p.length < 4 by omega) []
    rw [List.append_nil] at hrun
    rw [List.replicate_one, hrun, textToNumericIPv4From, if_neg (by omega)]
  | @more k s t a b hs ht ih =>
    have hnext := ih (p := p ++ [a]) (by simp; omega)
    have hdigit : isDigit 46 = false := by decide
    rw [List.replicate_succ, hs.textToNumeric (by omega), textToNumericIPv4From, hdigit,
      if_neg (by decide), if_pos (by decide), if_neg (by omega)]
    simpa [List.replicate_succ] using hnext

/-- **Main result** on the value of an IPv4 address. -/
theorem textToNumericFormatIPv4_address (h : IPv4address s b) :
    textToNumericFormatIPv4 s = some b := by
  have hnil : s ≠ [] := by
    obtain ⟨v, t, -, rfl⟩ := h.split
    simp
  rw [textToNumericFormatIPv4, if_neg hnil]
  exact (iPv4address_iff.mp h).textToNumeric (p := []) rfl

/-! ## The loop over groups -/

/-- The state of the loop of `textToNumericFormatIPv6` after the bytes `p`. -/
def numericState (colonp : Option ℕ) (p : List ℕ) : NumericState :=
  ⟨colonp, p ++ List.replicate (16 - p.length) 0, p.length, false, 0⟩

theorem charDigit_hexdig {c : ℕ} (h : Hexdig c) :
    charDigit c 16 = some (hexdigValue c) ∧ hexdigValue c < 16 := by
  apply Mask.forall_of_ascii (m := hexdigMask) (P := fun c =>
    charDigit c 16 = some (hexdigValue c) ∧ hexdigValue c < 16) _ ((matchChar_hexdig c).mpr h)
  decide

variable {g : Text}

/-- The loop over hexadecimal digits leaves their value. -/
theorem textToNumericIPv6From_digits (hg : ∀ c ∈ g, Hexdig c) (hnil : g ≠ [])
    (rest t : Text) (st : NumericState) {i : ℕ} (hval : st.val < 16 ^ i) (hi : i + g.length ≤ 4) :
    textToNumericIPv6From (g ++ rest) t st = textToNumericIPv6From rest t { st with
        val := g.foldl (fun value c => value * 16 + hexdigValue c) st.val, sawXdigit := true } := by
  induction g generalizing st i with
  | nil => exact absurd rfl hnil
  | cons c g ih =>
    obtain ⟨hdigit, hlt⟩ := charDigit_hexdig (hg c List.mem_cons_self)
    rw [List.length_cons] at hi
    have hsum : st.val * 16 + hexdigValue c < 16 ^ (i + 1) := by
      rw [pow_succ]
      omega
    have hmax : 16 ^ (i + 1) ≤ 16 ^ 4 := Nat.pow_le_pow_right (by decide) (by omega)
    rw [List.cons_append, textToNumericIPv6From, hdigit]
    dsimp only
    rw [if_neg (by omega)]
    rcases eq_or_ne g [] with rfl | hne
    · rfl
    · exact ih (fun d hd => hg d (List.mem_cons_of_mem c hd)) hne _ hsum (by omega)

theorem IsH16.textToNumeric (h : IsH16 g) (rest t : Text) {st : NumericState}
    (hval : st.val = 0) : textToNumericIPv6From (g ++ rest) t st =
      textToNumericIPv6From rest t { st with val := hexValue g, sawXdigit := true } := by
  have hrun := textToNumericIPv6From_digits h.hexdig h.ne_nil rest t st (i := 0)
    (by rw [hval]; decide) (by simpa using h.length_le)
  rw [hval] at hrun
  exact hrun

theorem putVal_numericState (colonp : Option ℕ) (hp : p.length + 2 ≤ 16) (g : ℕ) :
    ({ numericState colonp p with val := g, sawXdigit := true } : NumericState).putVal =
      { numericState colonp (p ++ [g / 256 % 256, g % 256]) with
        val := g, sawXdigit := true } := by
  obtain ⟨n, hn⟩ : ∃ n, 16 - p.length = n + 2 := ⟨14 - p.length, by omega⟩
  have hn' : 16 - (p.length + 2) = n := by omega
  simp [numericState, NumericState.putVal, hn, hn', List.replicate_succ]

/-- What the method returns for the characters left, after the bytes `p`. -/
def numericRest (colonp : Option ℕ) (p : List ℕ) (s : Text) : Option (List ℕ) :=
  (textToNumericIPv6From s s (numericState colonp p)).bind finishNumericIPv6

variable {t : Text}

/-- **Step lemma**: a group and its colon. -/
theorem numericRest_colon (hg : IsH16 g) (ht : t ≠ []) (colonp : Option ℕ)
    (hp : p.length + 2 ≤ 16) :
    numericRest colonp p (g ++ 58 :: t) = numericRest colonp (p ++ groupBytes g) t := by
  have hcolon : charDigit 58 16 = none := by decide
  rw [numericRest, hg.textToNumeric _ _ rfl, textToNumericIPv6From, hcolon]
  dsimp only
  rw [if_pos (by decide), if_neg (by decide), if_neg ht, if_neg (by simpa [numericState] using hp),
    putVal_numericState colonp hp]
  rfl

/-- **Run lemma**: groups and their colons. -/
theorem numericRest_colonsAfter {gs : List Text} (hall : AllH16 gs) (ht : t ≠ [])
    (colonp : Option ℕ) (hp : p.length + 2 * gs.length ≤ 16) :
    numericRest colonp p (colonsAfter gs ++ t) = numericRest colonp (p ++ bytesOf gs) t := by
  induction gs generalizing p with
  | nil => rw [colonsAfter, List.nil_append, bytesOf, List.append_nil]
  | cons g gs ih =>
    obtain ⟨hg, hgs⟩ := allH16_cons.mp hall
    rw [List.length_cons] at hp
    have hne : colonsAfter gs ++ t ≠ [] := List.append_ne_nil_of_right_ne_nil _ ht
    rw [colonsAfter, List.append_assoc, List.cons_append, numericRest_colon hg hne colonp (by omega),
      ih hgs (by rw [List.length_append, groupBytes]; simp; omega), bytesOf, List.append_assoc]

theorem numericRest_group (hg : IsH16 g) (colonp : Option ℕ) (hp : p.length + 2 ≤ 16) :
    numericRest colonp p g = numericRest colonp (p ++ groupBytes g) [] := by
  have hrun := hg.textToNumeric [] g (show (numericState colonp p).val = 0 from rfl)
  rw [List.append_nil] at hrun
  rw [numericRest, hrun, textToNumericIPv6From, Option.bind_some, finishNumericIPv6,
    if_neg (by simpa [numericState] using hp)]
  simp only [if_true, putVal_numericState colonp hp]
  rw [numericRest, textToNumericIPv6From, Option.bind_some, finishNumericIPv6]
  simp [numericState, groupBytes]

theorem numericRest_ipv4 (h : IPv4address s b) (colonp : Option ℕ) (hp : p.length + 4 ≤ 16) :
    numericRest colonp p s = numericRest colonp (p ++ b) [] := by
  have hvalue := textToNumericFormatIPv4_address h
  obtain ⟨v, t, hv, hsplit⟩ := h.split
  have hhex : ∀ c ∈ valueOf v, Hexdig c :=
    fun c hc => .inl ((matchChar_digit c).mp (forall_mem_valueOf v c hc))
  have hlength : (valueOf v).length ≤ 3 :=
    length_digitsBefore (by decide) 3 32 v [] (by decide) (by omega)
  have hdot : charDigit 46 16 = none := by decide
  have hrun := textToNumericIPv6From_digits hhex (valueOf_ne_nil v) (46 :: t) s
    (numericState colonp p) (i := 0) (by simp [numericState]) (by omega)
  rw [← hsplit, textToNumericIPv6From, hdot] at hrun
  dsimp only at hrun
  rw [if_neg (by decide), if_pos ⟨by decide, by simpa [numericState] using hp⟩, hvalue] at hrun
  obtain ⟨a, c, d, e, rfl⟩ : ∃ a c d e, b = [a, c, d, e] := by
    cases h
    exact ⟨_, _, _, _, rfl⟩
  obtain ⟨n, hn⟩ : ∃ n, 16 - p.length = n + 4 := ⟨12 - p.length, by omega⟩
  have hn' : 16 - (p.length + 4) = n := by omega
  rw [numericRest, hrun, numericRest, textToNumericIPv6From, Option.bind_some, Option.bind_some]
  simp [finishNumericIPv6, numericState, hn, hn', List.replicate_succ]

/-- **Spec lemma** of the end of an address. -/
theorem Tail.numericRest {n : ℕ} (h : Tail t n b) (colonp : Option ℕ) (hp : p.length + 2 * n ≤ 16) :
    numericRest colonp p t = numericRest colonp (p ++ b) [] := by
  cases h with
  | @groups gs hall =>
    rcases List.eq_nil_or_concat gs with rfl | ⟨hs, g, rfl⟩
    · rw [bytesOf, List.append_nil]
      rfl
    · rw [List.concat_eq_append] at hall hp ⊢
      rw [List.length_append, List.length_singleton] at hp
      obtain ⟨hhs, hg⟩ := List.forall_mem_append.mp hall
      have hg := List.forall_mem_singleton.mp hg
      rw [← colonsAfter_append, numericRest_colonsAfter hhs hg.ne_nil colonp (by omega),
        numericRest_group hg colonp (by rw [List.length_append, length_bytesOf]; omega),
        bytesOf_append, bytesOf, bytesOf, List.append_nil, List.append_assoc]
  | @ipv4 gs s b hall hs =>
    have hne : s ≠ [] := by
      obtain ⟨v, u, -, rfl⟩ := hs.split
      simp
    rw [numericRest_colonsAfter hall hne colonp (by omega),
      numericRest_ipv4 hs colonp (by rw [List.length_append, length_bytesOf]; omega),
      List.append_assoc]

/-! ## The gap -/

/-- **Run lemma**: the loop moves the bytes behind `::` to the end. -/
theorem foldl_moveBehindColons {a b c : List ℕ} {k n : ℕ} (hn : n = b.length + c.length)
    (hlength : a.length + n + (k + 1) = 16) : (List.range' (c.length + 1) b.length).foldl
        (fun dst i => (dst.set (16 - i) (dst.getD (a.length + n - i) 0)).set (a.length + n - i) 0)
        (a ++ b ++ List.replicate (k + 1) 0 ++ c) = a ++ List.replicate (k + 1) 0 ++ (b ++ c) := by
  have hset : ∀ (p q : List ℕ) (x y : ℕ), (p ++ x :: q).set p.length y = p ++ y :: q := by simp
  induction b using List.reverseRecOn generalizing c with
  | nil => simp
  | append_singleton b x ih =>
    have hnext := ih (c := x :: c) (by simp at hn ⊢; omega)
    rw [List.length_cons] at hnext
    rw [List.length_append, List.length_singleton] at hn ⊢
    have hread : (a ++ (b ++ [x]) ++ List.replicate (k + 1) 0 ++ c).getD (a ++ b).length 0 = x := by
      simp
    have hmove : ((a ++ (b ++ [x]) ++ List.replicate (k + 1) 0 ++ c).set
        (a ++ b ++ x :: List.replicate k 0).length x).set (a ++ b).length 0 =
          a ++ b ++ List.replicate (k + 1) 0 ++ x :: c := by
      have hlist : a ++ (b ++ [x]) ++ List.replicate (k + 1) 0 ++ c =
          (a ++ b ++ x :: List.replicate k 0) ++ 0 :: c := by
        simp [List.replicate_succ']
      rw [hlist, hset, List.append_assoc (a ++ b), List.cons_append, hset]
      simp [List.replicate_succ]
    rw [List.range'_succ, List.foldl_cons,
      show a.length + n - (c.length + 1) = (a ++ b).length by rw [List.length_append]; omega, hread,
      show 16 - (c.length + 1) = (a ++ b ++ x :: List.replicate k 0).length by
        simp only [List.length_append, List.length_cons, List.length_replicate]; omega,
      hmove, hnext, List.append_assoc b, List.singleton_append]

/-- **Main result** on the gap. -/
theorem moveBehindColons_eq {a : List ℕ} (h : a.length + b.length < 16) :
    moveBehindColons a.length b.length
      (a ++ b ++ List.replicate (16 - (a ++ b).length) 0) = compress a b := by
  obtain ⟨k, hk⟩ : ∃ k, 16 - (a ++ b).length = k + 1 :=
    ⟨15 - (a ++ b).length, by rw [List.length_append]; omega⟩
  rw [List.length_append] at hk
  have hmove := @foldl_moveBehindColons a b [] k b.length rfl (by omega)
  rw [List.append_nil, List.append_nil] at hmove
  rw [moveBehindColons, compress, List.length_append, hk, Nat.sub_sub, hk]
  exact hmove

theorem numericRest_nil_none (h : b.length = 16) : numericRest none b [] = some b := by
  simp [numericRest, textToNumericIPv6From, finishNumericIPv6, numericState, h]

theorem numericRest_nil_some {a : List ℕ} (h : a.length + b.length < 16) :
    numericRest (some a.length) (a ++ b) [] = some (compress a b) := by
  rw [numericRest, textToNumericIPv6From, Option.bind_some, finishNumericIPv6]
  simp only [numericState, Bool.false_eq_true, false_and, if_false]
  rw [if_neg (by rw [List.length_append]; omega),
    show (a ++ b).length - a.length = b.length by simp, moveBehindColons_eq h]

/-! ## IPv6 addresses -/

theorem IPv4address.isByte (h : IPv4address s b) : b.length = 4 ∧ ∀ a ∈ b, a < 256 := by
  obtain ⟨hs, ht, hu, hv⟩ := h
  have := (decOctet_iff.mp hs).1
  have := (decOctet_iff.mp ht).1
  have := (decOctet_iff.mp hu).1
  have := (decOctet_iff.mp hv).1
  refine ⟨rfl, ?_⟩
  simp
  omega

theorem bytesOf_lt (gs : List Text) : ∀ a ∈ bytesOf gs, a < 256 := by
  induction gs with
  | nil => exact List.forall_mem_nil _
  | cons g gs ih =>
    have hg : ∀ a ∈ groupBytes g, a < 256 := by
      simp [groupBytes]
      omega
    exact List.forall_mem_append.mpr ⟨hg, ih⟩

theorem Tail.isByte {n : ℕ} (h : Tail t n b) : b.length = 2 * n ∧ ∀ a ∈ b, a < 256 := by
  cases h with
  | groups hall => exact ⟨length_bytesOf _, bytesOf_lt _⟩
  | ipv4 hall hs =>
    obtain ⟨hlength, hbytes⟩ := hs.isByte
    refine ⟨?_, List.forall_mem_append.mpr ⟨bytesOf_lt _, hbytes⟩⟩
    rw [List.length_append, length_bytesOf, hlength]
    ring

theorem Form.isAddress (h : Form s b) : IsAddress b := by
  cases h with
  | full ht => exact ⟨ht.isByte.1, ht.isByte.2⟩
  | @compressed gs t n b hall ht hle =>
    obtain ⟨hlength, hbytes⟩ := ht.isByte
    refine ⟨?_, ?_⟩
    · rw [compress, List.length_append, List.length_append, List.length_replicate, length_bytesOf]
      omega
    · refine List.forall_mem_append.mpr ⟨List.forall_mem_append.mpr ⟨bytesOf_lt gs, ?_⟩, hbytes⟩
      intro a ha
      rw [List.eq_of_mem_replicate ha]
      decide

theorem Form.mem_colon (h : Form s b) : 58 ∈ s := by
  cases h with
  | full ht =>
    generalize hn : 8 = n at ht
    cases ht with
    | @groups gs hall =>
      obtain _ | ⟨g, _ | ⟨k, gs⟩⟩ := gs
      · simp at hn
      · simp at hn
      · simp [joinTexts, colonsBefore]
    | @ipv4 gs s b hall hs =>
      cases gs with
      | nil => simp at hn
      | cons g gs => simp [colonsAfter]
  | compressed => simp

theorem Form.ne_nil (h : Form s b) : s ≠ [] :=
  List.ne_nil_of_mem h.mem_colon

/-- **Main result** on the value: an address denotes its bytes. -/
theorem bytesOfText_form (h : Form s b) : bytesOfText s = some b := by
  have hplain : ∀ {s : Text}, s ≠ [] → atChar s ':' = false →
      bytesOfText s = numericRest none [] s := by
    intro s hs hcolon
    cases s with
    | nil => exact absurd rfl hs
    | cons c s =>
      rw [atChar_cons, beq_eq_false_iff_ne] at hcolon
      rw [bytesOfText, if_neg hcolon]
      rfl
  have hgroup : ∀ {g : Text} (q : Text), IsH16 g →
      bytesOfText (g ++ q) = numericRest none [] (g ++ q) :=
    fun q hg => hplain (List.append_ne_nil_of_left_ne_nil hg.ne_nil q) (hg.not_colon q)
  cases h with
  | full ht =>
    have hvalue : numericRest none [] s = some b := by
      rw [ht.numericRest none (by simp), List.nil_append, numericRest_nil_none ht.isByte.1]
    obtain ⟨g, q, hg, rfl⟩ : ∃ g q, IsH16 g ∧ s = g ++ q := by
      generalize hn : 8 = n at ht
      cases ht with
      | @groups gs hall =>
        cases gs with
        | nil => cases hn
        | cons g gs => exact ⟨g, _, (allH16_cons.mp hall).1, rfl⟩
      | @ipv4 gs t b hall ht =>
        cases gs with
        | nil => cases hn
        | cons g gs => exact ⟨g, _, (allH16_cons.mp hall).1, List.append_assoc _ _ _⟩
    rw [hgroup q hg, hvalue]
  | @compressed gs t n b hall ht hle =>
    have hcolons : ∀ a : List ℕ, numericRest none a (58 :: t) = numericRest (some a.length) a t := by
      intro a
      rw [numericRest, textToNumericIPv6From]
      rfl
    have hvalue : numericRest none (bytesOf gs) (58 :: t) = some (compress (bytesOf gs) b) := by
      have hlength := ht.isByte.1
      rw [hcolons, ht.numericRest _ (by rw [length_bytesOf]; omega),
        numericRest_nil_some (by rw [length_bytesOf]; omega)]
    cases gs with
    | nil => exact hvalue
    | cons g gs =>
      have hg := hgroup (colonsBefore gs ++ 58 :: 58 :: t) (allH16_cons.mp hall).1
      rw [← List.append_assoc] at hg
      rw [← hvalue, joinTexts, hg]
      change numericRest none [] (joinTexts (g :: gs) ++ 58 :: 58 :: t) = _
      rw [joinTexts_append_colon (List.cons_ne_nil g gs),
        numericRest_colonsAfter hall (List.cons_ne_nil _ _) none (by simp at hle ⊢; omega),
        List.nil_append]

end CldcVm.Uri
