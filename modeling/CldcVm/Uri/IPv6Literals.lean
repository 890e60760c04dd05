import CldcVm.Uri.Hosts

/-!
# IPv6 literals

The host between brackets, from the parser (`javax/microedition/io/URIParser.java`, lines
836–931) to the bytes (lines 1078–1241).

Results:

* `parseHost_ipv6Literal`: a literal is accepted when it is an `IPv6address`, its bytes are
  those that the production gives it, and the text of 16 bytes is accepted and denotes them.
-/

namespace CldcVm.Uri

/-- The bytes of an address, the last four of one that is IPv4-mapped. -/
def numericAddress (b : List ℕ) : List ℕ :=
  if b.take 12 = List.replicate 10 0 ++ [0xff, 0xff] then b.drop 12 else b

theorem isIPv4MappedAddress_iff {b : List ℕ} (h : b.length = 16) :
    isIPv4MappedAddress b = true ↔ b.take 12 = List.replicate 10 0 ++ [0xff, 0xff] := by
  match b, h with
  | [_, _, _, _, _, _, _, _, _, _, _, _, _, _, _, _], _ =>
    simp [isIPv4MappedAddress, List.range_succ, List.replicate_succ, and_assoc]

/-- **Spec lemma** of `textToNumericFormatIPv6`. -/
theorem textToNumericFormatIPv6_address {s : Text} {b : List ℕ} (h : IPv6address s b) :
    textToNumericFormatIPv6 s = some (numericAddress b) := by
  have hform := iPv6address_iff.mp h
  have hlength := hform.isAddress.length
  rw [textToNumericFormatIPv6, bytesOfText_form hform, Option.map_some,
    convertFromIPv4MappedAddress, numericAddress]
  congr 1
  by_cases hmapped : isIPv4MappedAddress b = true
  · rw [if_pos hmapped, if_pos ((isIPv4MappedAddress_iff hlength).mp hmapped), Option.getD_some,
      List.take_of_length_le (by rw [List.length_drop]; omega)]
  · rw [if_neg hmapped, if_neg (mt (isIPv4MappedAddress_iff hlength).mpr hmapped), Option.getD_none]

/-- **Spec lemma** of `parseHost` on an address. -/
theorem parseHost_address (cfg : Settings) {u : URIParser} (hu : u.ipv6byteCount = 0) {x : Text}
    {b : List ℕ} (hx : Avoids [']'] x) (hv : ¬ (atChar x 'v' = true ∨ atChar x 'V' = true))
    (h : IPv6address x b) (rest : Text) :
    ∃ u', parseHost cfg u ('['.toNat :: x ++ [']'.toNat] ++ rest) = .ok (u', rest) := by
  have hform := iPv6address_iff.mp h
  obtain ⟨name, hname⟩ := canonicalIPv6Name_ok hform
  obtain ⟨n, hparse⟩ := parseIPv6Address_of_form hu hform hname
  rw [parseHost_literal cfg u hx hform.ne_nil hv, hparse, ok_bind]
  exact ⟨_, rfl⟩

/-- **Main theorem.** Between brackets, a text that does not begin with `v` or `V` is accepted
as a host exactly when it is an `IPv6address`; `textToNumericFormatIPv6` then returns the
bytes that the production gives it; and the text of 16 bytes is accepted again and denotes
them. -/
theorem parseHost_ipv6Literal (cfg : Settings) (u : URIParser) (hu : u.ipv6byteCount = 0)
    (rest : Text) :
    (∀ x, Avoids [']'] x → ¬ (atChar x 'v' = true ∨ atChar x 'V' = true) →
      ((∃ r, parseHost cfg u ('['.toNat :: x ++ [']'.toNat] ++ rest) = .ok r) ↔
        ∃ b, IPv6address x b) ∧
      ∀ b, IPv6address x b →
        (∃ u', parseHost cfg u ('['.toNat :: x ++ [']'.toNat] ++ rest) = .ok (u', rest)) ∧
          b.length = 16 ∧ textToNumericFormatIPv6 x = some (numericAddress b)) ∧
    ∀ addr, IsAddress addr → IPv6address (numericToTextFormatIPv6 addr) addr ∧
      textToNumericFormatIPv6 (numericToTextFormatIPv6 addr) = some (numericAddress addr) ∧
      ∃ u', parseHost cfg u
        ('['.toNat :: numericToTextFormatIPv6 addr ++ [']'.toNat] ++ rest) = .ok (u', rest) := by
  refine ⟨?_, ?_⟩
  · intro x hx hv
    have haccept := fun b (h : IPv6address x b) => parseHost_address cfg hu hx hv h rest
    refine ⟨⟨?_, ?_⟩, ?_⟩
    · rintro ⟨r, hparse⟩
      have hscan : literalOf ('['.toNat :: x ++ [']'.toNat] ++ rest) = x := by
        rw [literalOf, List.cons_append, List.cons_append, List.append_assoc, List.drop_succ_cons,
          List.drop_zero, List.singleton_append, scan_literal hx]
      have hcases := parseHost_cases hparse
      rw [hscan] at hcases
      rcases hcases with ⟨-, -, ⟨hfuture, -⟩ | ⟨-, hparse⟩⟩ | ⟨hbracket, -⟩
      · exact absurd hfuture hv
      · obtain ⟨b, -, -, hform, -⟩ := parseIPv6Address_eq_ok hu hparse
        exact ⟨b, iPv6address_iff.mpr hform⟩
      · exact absurd rfl hbracket
    · rintro ⟨b, h⟩
      obtain ⟨u', hparse⟩ := haccept b h
      exact ⟨_, hparse⟩
    · intro b h
      exact ⟨haccept b h, (iPv6address_iff.mp h).isAddress.length,
        textToNumericFormatIPv6_address h⟩
  · intro addr haddr
    have havoids := numericToTextFormatIPv6_avoids addr
    have h := iPv6address_iff.mpr (form_numericToTextFormatIPv6 haddr)
    refine ⟨h, textToNumericFormatIPv6_address h, ?_⟩
    apply parseHost_address cfg hu (havoids.mono (by decide)) _ h
    rw [havoids.atChar (c := 'v') (by decide), havoids.atChar (c := 'V') (by decide)]
    decide

/-- The text `::ffff:1.2.3.4` of an IPv4-mapped address, in a fresh parser. -/
theorem parseHost_ipv6Literal_mapped :
    ∃ u', parseHost ⟨none, none, false⟩ {} ('['.toNat :: text [':', ':', 'f', 'f', 'f', 'f', ':',
      '1', '.', '2', '.', '3', '.', '4'] ++ [']'.toNat] ++ []) = .ok (u', []) := by
  have hgroup : IsH16 (text ['f', 'f', 'f', 'f']) :=
    ⟨by decide, by decide, by unfold Hexdig; decide⟩
  have haddress : IPv6address (text [':', ':', 'f', 'f', 'f', 'f', ':', '1', '.', '2', '.', '3',
      '.', '4']) _ :=
    .compress1 (UpTo.none (k := 3)) (.succ hgroup .zero)
      (.ipv4 (.mk (.one (a := 1) (by decide)) (.one (a := 2) (by decide))
        (.one (a := 3) (by decide)) (.one (a := 4) (by decide))))
  exact (((parseHost_ipv6Literal ⟨none, none, false⟩ {} rfl []).1 _ (by decide) (by decide)).2 _
    haddress).1

end CldcVm.Uri
