import CldcVm.Uri.AddressGrammar

/-!
# Texts of numbers and addresses

Round trips between numbers and their texts: decimal ports, the groups of an IPv6
address, and the address itself.

Results:

* `parseInt_valueOf`: a decimal text denotes its number;
* `form_numericToTextFormatIPv6`: the text of 16 bytes is an IPv6 address that denotes them.
-/

namespace CldcVm.Uri

/-! ## Digits -/

variable {d radix : ℕ}

theorem charDigit_digitChar (hradix : radix ≤ 16) (hd : d < radix) :
    charDigit (digitChar d) radix = some d := by
  have hall : ∀ r ≤ 16, ∀ d < r, charDigit (digitChar d) r = some d := by decide
  exact hall radix hradix d hd

theorem matchChar_digit_digitChar (hd : d < 10) : digitMask.matchChar (digitChar d) = true := by
  have hall : ∀ d < 10, digitMask.matchChar (digitChar d) = true := by decide
  exact hall d hd

theorem matchChar_hexdig_digitChar (hd : d < 16) : hexdigMask.matchChar (digitChar d) = true := by
  have hall : ∀ d < 16, hexdigMask.matchChar (digitChar d) = true := by decide
  exact hall d hd

/-- The characters of `digitsBefore`, before the buffer. -/
theorem forall_mem_digitsBefore {P : ℕ → Prop} (hP : ∀ d < radix, P (digitChar d))
    (hradix : 0 < radix) (fuel i : ℕ) (buf : Text) (hbuf : ∀ c ∈ buf, P c) :
    ∀ c ∈ digitsBefore radix fuel i buf, P c := by
  induction fuel generalizing i buf with
  | zero => exact hbuf
  | succ fuel ih =>
    rw [digitsBefore]
    split_ifs with hi
    · exact List.forall_mem_cons.mpr ⟨hP i hi, hbuf⟩
    · apply ih
      exact List.forall_mem_cons.mpr ⟨hP _ (Nat.mod_lt i hradix), hbuf⟩

theorem digitsBefore_ne_nil (radix fuel i : ℕ) {buf : Text} (h : 0 < fuel ∨ buf ≠ []) :
    digitsBefore radix fuel i buf ≠ [] := by
  induction fuel generalizing i buf with
  | zero => simpa [digitsBefore] using h
  | succ fuel ih =>
    rw [digitsBefore]
    split_ifs with hi
    · simp
    · apply ih
      simp

/-- A number below `radix ^ k` has `k` digits at most. -/
theorem length_digitsBefore (hradix : 0 < radix) (k fuel i : ℕ) (buf : Text)
    (hk : 0 < k) (hi : i < radix ^ k) :
    (digitsBefore radix fuel i buf).length ≤ k + buf.length := by
  induction fuel generalizing k i buf with
  | zero => simp [digitsBefore]
  | succ fuel ih =>
    rw [digitsBefore]
    split_ifs with hlt
    · simp only [List.length_cons]
      omega
    · obtain ⟨k, rfl⟩ : ∃ l, k = l + 1 := ⟨k - 1, by omega⟩
      have hdiv : i / radix < radix ^ k := by
        rw [Nat.div_lt_iff_lt_mul hradix, ← pow_succ]
        exact hi
      have hpos : 0 < k := by
        rcases Nat.eq_zero_or_pos k with rfl | hpos
        · simp at hi
          omega
        · exact hpos
      have := ih k (i / radix) (digitChar (i % radix) :: buf) hpos hdiv
      rw [List.length_cons] at this
      omega

theorem forall_mem_valueOf (n : ℕ) : ∀ c ∈ valueOf n, digitMask.matchChar c = true := by
  refine forall_mem_digitsBefore (P := fun c => digitMask.matchChar c = true) ?_ (by decide) 32 n
    [] (by simp)
  intro d hd
  exact matchChar_digit_digitChar hd

theorem forall_mem_toHexString (n : ℕ) : ∀ c ∈ toHexString n, hexdigMask.matchChar c = true := by
  refine forall_mem_digitsBefore (P := fun c => hexdigMask.matchChar c = true) ?_ (by decide) 32 n
    [] (by simp)
  intro d hd
  exact matchChar_hexdig_digitChar hd

theorem valueOf_ne_nil (n : ℕ) : valueOf n ≠ [] := digitsBefore_ne_nil 10 32 n (.inl (by decide))

theorem toHexString_ne_nil (n : ℕ) : toHexString n ≠ [] :=
  digitsBefore_ne_nil 16 32 n (.inl (by decide))

variable {n : ℕ}

theorem toHexString_length (hn : n < 65536) : (toHexString n).length ≤ 4 :=
  length_digitsBefore (by decide) 4 32 n [] (by decide) (by simpa using hn)

/-! ## Decimal numbers -/

/-- The loop of `parseInt` over a decimal text leaves its number. -/
theorem parseDigits_digitsBefore {limit : ℕ} (fuel i : ℕ) (buf : Text) (hfuel : 0 < fuel)
    (hi : i < 10 ^ fuel) (hlimit : i ≤ limit) :
    parseDigits limit 0 (digitsBefore 10 fuel i buf) = parseDigits limit i buf := by
  induction fuel generalizing i buf with
  | zero => omega
  | succ fuel ih =>
    rw [digitsBefore]
    split_ifs with hlt
    · rw [parseDigits, charDigit_digitChar (by decide) hlt]
      simp only [Nat.not_lt_zero, if_false, Nat.zero_mul, Nat.zero_add]
      rw [if_neg (by omega)]
    · have hdiv : i / 10 < 10 ^ fuel := by
        rw [Nat.div_lt_iff_lt_mul (by decide), ← pow_succ]
        exact hi
      have hpos : 0 < fuel := by
        rcases Nat.eq_zero_or_pos fuel with rfl | hpos
        · omega
        · exact hpos
      rw [ih (i / 10) _ hpos hdiv (by omega), parseDigits,
        charDigit_digitChar (by decide) (Nat.mod_lt i (by decide))]
      have hsum : i / 10 * 10 + i % 10 = i := by omega
      simp only [hsum]
      rw [if_neg (by omega), if_neg (by omega)]

/-- A decimal text denotes its number. -/
theorem parseInt_valueOf (hn : n ≤ 2 ^ 31 - 1) : parseInt (valueOf n) = some (n : ℤ) := by
  have hdigits : parseDigits (2 ^ 31 - 1) 0 (valueOf n) = some n :=
    parseDigits_digitsBefore 32 n [] (by decide) (by omega) hn
  have hmem := forall_mem_valueOf n
  cases hvalue : valueOf n with
  | nil => exact absurd hvalue (valueOf_ne_nil n)
  | cons c rest =>
    rw [hvalue] at hdigits hmem
    have hc := (matchChar_digit c).mp (hmem c List.mem_cons_self)
    have hminus : ¬ c = '-'.toNat := by
      intro h
      have : '-'.toNat = 45 := rfl
      omega
    rw [parseInt, if_neg hminus, hdigits]
    rfl

theorem parseDigits_le {limit result : ℕ} {s : Text} (hresult : result ≤ limit)
    (h : parseDigits limit result s = some n) : n ≤ limit := by
  fun_induction parseDigits limit result s with
  | case1 result =>
    simp only [Option.some.injEq] at h
    omega
  | case2 => simp at h
  | case3 => simp at h
  | case4 => simp at h
  | case5 result c rest digit hdigit h1 h2 ih => exact ih (by omega) h

/-- `parseInt` returns an `int`. -/
theorem parseInt_le {s : Text} {v : ℤ} (h : parseInt s = some v) : v ≤ 2 ^ 31 - 1 := by
  cases s with
  | nil => simp [parseInt] at h
  | cons c rest =>
    rw [parseInt] at h
    split_ifs at h with hminus hrest
    · obtain ⟨n, hn, rfl⟩ := Option.map_eq_some_iff.mp h
      simp only [Int.ofNat_eq_natCast]
      omega
    · obtain ⟨n, hn, rfl⟩ := Option.map_eq_some_iff.mp h
      have := parseDigits_le (Nat.zero_le _) hn
      simp only [Int.ofNat_eq_natCast]
      omega

/-! ## The groups of an IPv6 address -/

/-- The groups of two bytes. -/
def groupsOf (src : List ℕ) : List ℕ :=
  (List.range 8).map fun i => src.getD (2 * i) 0 * 256 + src.getD (2 * i + 1) 0

/-- Sixteen bytes. -/
structure IsAddress (dst : List ℕ) : Prop where
  length : dst.length = 16
  byte : ∀ b ∈ dst, b < 256

theorem IsAddress.getD_lt {dst : List ℕ} (h : IsAddress dst) (k : ℕ) : dst.getD k 0 < 256 := by
  by_cases hk : k < dst.length
  · rw [List.getD_eq_getElem _ _ hk]
    exact h.byte _ (List.getElem_mem hk)
  · rw [List.getD_eq_default _ _ (by omega)]
    decide

variable {src : List ℕ}

theorem IsAddress.groupsOf_lt (h : IsAddress src) : ∀ g ∈ groupsOf src, g < 65536 := by
  intro g hg
  obtain ⟨i, -, rfl⟩ := List.mem_map.mp hg
  have h1 := h.getD_lt (2 * i)
  have h2 := h.getD_lt (2 * i + 1)
  omega

theorem IsAddress.flatMap_groupsOf (h : IsAddress src) :
    (groupsOf src).flatMap (fun g => [g / 256 % 256, g % 256]) = src := by
  have hpair : ∀ i, [(src.getD (2 * i) 0 * 256 + src.getD (2 * i + 1) 0) / 256 % 256,
      (src.getD (2 * i) 0 * 256 + src.getD (2 * i + 1) 0) % 256] =
      [src.getD (2 * i) 0, src.getD (2 * i + 1) 0] := by
    intro i
    have h1 := h.getD_lt (2 * i)
    have h2 := h.getD_lt (2 * i + 1)
    rw [show (src.getD (2 * i) 0 * 256 + src.getD (2 * i + 1) 0) / 256 % 256 =
      src.getD (2 * i) 0 by omega, show (src.getD (2 * i) 0 * 256 + src.getD (2 * i + 1) 0) % 256 =
      src.getD (2 * i + 1) 0 by omega]
  rw [groupsOf, List.flatMap_map]
  simp only [hpair]
  have hlength := h.length
  clear hpair h
  match src, hlength with
  | [_, _, _, _, _, _, _, _, _, _, _, _, _, _, _, _], _ => rfl

/-! ## The text of sixteen bytes -/

theorem hexValue_toHexString {g : ℕ} (hg : g < 65536) : hexValue (toHexString g) = g := by
  have hdigit : ∀ d < 16, hexdigValue (digitChar d) = d := by decide
  have hfold : ∀ fuel i (buf : Text), 0 < fuel → i < 16 ^ fuel →
      (digitsBefore 16 fuel i buf).foldl (fun value c => value * 16 + hexdigValue c) 0 =
        buf.foldl (fun value c => value * 16 + hexdigValue c) i := by
    intro fuel
    induction fuel with
    | zero => intro i buf hfuel; omega
    | succ fuel ih =>
      intro i buf _ hi
      rw [digitsBefore]
      split_ifs with hlt
      · rw [List.foldl_cons, hdigit i hlt, Nat.zero_mul, Nat.zero_add]
      · have hdiv : i / 16 < 16 ^ fuel := by
          rw [Nat.div_lt_iff_lt_mul (by decide), ← pow_succ]
          exact hi
        have hpos : 0 < fuel := by
          rcases Nat.eq_zero_or_pos fuel with rfl | hpos
          · omega
          · exact hpos
        rw [ih _ _ hpos hdiv, List.foldl_cons, hdigit _ (Nat.mod_lt i (by decide)),
          Nat.div_add_mod' i 16]
  exact hfold 32 g [] (by decide) (by omega)

theorem isH16_toHexString {g : ℕ} (hg : g < 65536) : IsH16 (toHexString g) :=
  ⟨toHexString_ne_nil g, toHexString_length hg,
    fun c hc => (matchChar_hexdig c).mp (forall_mem_toHexString g c hc)⟩

theorem numericToTextFormatIPv6_eq (src : List ℕ) :
    numericToTextFormatIPv6 src = joinTexts ((groupsOf src).map toHexString) := by
  simp [numericToTextFormatIPv6, groupsOf, joinTexts, colonsBefore, List.range_succ]

/-- **Main result**: the text of sixteen bytes is an address that denotes them. -/
theorem form_numericToTextFormatIPv6 (h : IsAddress src) :
    Form (numericToTextFormatIPv6 src) src := by
  have hbytes : ∀ gs : List ℕ, (∀ g ∈ gs, g < 65536) →
      bytesOf (gs.map toHexString) = gs.flatMap fun g => [g / 256 % 256, g % 256] := by
    intro gs hlt
    induction gs with
    | nil => rfl
    | cons g gs ih =>
      rw [List.forall_mem_cons] at hlt
      rw [List.map_cons, bytesOf, groupBytes, hexValue_toHexString hlt.1, ih hlt.2,
        List.flatMap_cons]
  have hall : AllH16 ((groupsOf src).map toHexString) := by
    intro t ht
    obtain ⟨g, hg, rfl⟩ := List.mem_map.mp ht
    exact isH16_toHexString (h.groupsOf_lt g hg)
  have htail := Tail.groups hall
  rw [hbytes _ h.groupsOf_lt, h.flatMap_groupsOf, ← numericToTextFormatIPv6_eq] at htail
  exact .full (by simpa [groupsOf] using htail)

end CldcVm.Uri
