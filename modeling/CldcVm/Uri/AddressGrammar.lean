import CldcVm.Uri.Scanning

/-!
# The grammar of IPv6 addresses

The production `IPv6address` of RFC 3986, which is quoted before `parseIPv6Address` in
`javax/microedition/io/URIParser.java` (lines 814–834), with the bytes that a text denotes.

Results:

* `iPv6address_iff`: an address is a sequence of eight groups, or two sequences of at most
  seven groups around `::`, where an IPv4 address counts as the two last groups.
-/

namespace CldcVm.Uri

/-! ## The productions -/

/-- `HEXDIG`, in both cases. -/
def Hexdig (c : ℕ) : Prop := (48 ≤ c ∧ c ≤ 57) ∨ (65 ≤ c ∧ c ≤ 70) ∨ (97 ≤ c ∧ c ≤ 102)

/-- The value of a `HEXDIG`. -/
def hexdigValue (c : ℕ) : ℕ := if c ≤ 57 then c - 48 else if c ≤ 70 then c - 55 else c - 87

/-- The value of hexadecimal digits. -/
def hexValue (s : Text) : ℕ := s.foldl (fun value c => value * 16 + hexdigValue c) 0

/-- The two bytes of a group. -/
def groupBytes (s : Text) : List ℕ := [hexValue s / 256 % 256, hexValue s % 256]

/-- `h16 = 1*4HEXDIG`. -/
structure IsH16 (s : Text) : Prop where
  ne_nil : s ≠ []
  length_le : s.length ≤ 4
  hexdig : ∀ c ∈ s, Hexdig c

/-- `dec-octet = DIGIT / %x31-39 DIGIT / "1" 2DIGIT / "2" %x30-34 DIGIT / "25" %x30-35`. -/
inductive DecOctet : Text → ℕ → Prop
  | one {a : ℕ} : a ≤ 9 → DecOctet [48 + a] a
  | two {a b : ℕ} : 1 ≤ a → a ≤ 9 → b ≤ 9 → DecOctet [48 + a, 48 + b] (a * 10 + b)
  | hundred {a b : ℕ} : a ≤ 9 → b ≤ 9 → DecOctet [49, 48 + a, 48 + b] (100 + a * 10 + b)
  | twoHundred {a b : ℕ} : a ≤ 4 → b ≤ 9 → DecOctet [50, 48 + a, 48 + b] (200 + a * 10 + b)
  | last {b : ℕ} : b ≤ 5 → DecOctet [50, 53, 48 + b] (250 + b)

/-- `IPv4address = dec-octet "." dec-octet "." dec-octet "." dec-octet`. -/
inductive IPv4address : Text → List ℕ → Prop
  | mk {s t u v : Text} {a b c d : ℕ} : DecOctet s a → DecOctet t b → DecOctet u c →
      DecOctet v d → IPv4address (s ++ 46 :: (t ++ 46 :: (u ++ 46 :: v))) [a, b, c, d]

/-- `n( h16 ":" )`. -/
inductive H16Colons : ℕ → Text → List ℕ → Prop
  | zero : H16Colons 0 [] []
  | succ {n : ℕ} {s t : Text} {b : List ℕ} : IsH16 s → H16Colons n t b →
      H16Colons (n + 1) (s ++ 58 :: t) (groupBytes s ++ b)

/-- `ls32 = ( h16 ":" h16 ) / IPv4address`. -/
inductive Ls32 : Text → List ℕ → Prop
  | h16 {s t : Text} : IsH16 s → IsH16 t → Ls32 (s ++ 58 :: t) (groupBytes s ++ groupBytes t)
  | ipv4 {s : Text} {b : List ℕ} : IPv4address s b → Ls32 s b

/-- `[ *k( h16 ":" ) h16 ]`. -/
inductive UpTo (k : ℕ) : Text → List ℕ → Prop
  | none : UpTo k [] []
  | some {n : ℕ} {s t : Text} {b : List ℕ} : n ≤ k → H16Colons n s b → IsH16 t →
      UpTo k (s ++ t) (b ++ groupBytes t)

/-- The bytes before and behind `::`, with zeros between them. -/
def compress (a b : List ℕ) : List ℕ := a ++ List.replicate (16 - a.length - b.length) 0 ++ b

/-- `IPv6address`, with the bytes that it denotes. -/
inductive IPv6address : Text → List ℕ → Prop
  | full {s t : Text} {b c : List ℕ} : H16Colons 6 s b → Ls32 t c → IPv6address (s ++ t) (b ++ c)
  | compress5 {s t : Text} {b c : List ℕ} : H16Colons 5 s b → Ls32 t c →
      IPv6address (58 :: 58 :: (s ++ t)) (compress [] (b ++ c))
  | compress4 {p s t : Text} {a b c : List ℕ} : UpTo 0 p a → H16Colons 4 s b → Ls32 t c →
      IPv6address (p ++ 58 :: 58 :: (s ++ t)) (compress a (b ++ c))
  | compress3 {p s t : Text} {a b c : List ℕ} : UpTo 1 p a → H16Colons 3 s b → Ls32 t c →
      IPv6address (p ++ 58 :: 58 :: (s ++ t)) (compress a (b ++ c))
  | compress2 {p s t : Text} {a b c : List ℕ} : UpTo 2 p a → H16Colons 2 s b → Ls32 t c →
      IPv6address (p ++ 58 :: 58 :: (s ++ t)) (compress a (b ++ c))
  | compress1 {p s t : Text} {a b c : List ℕ} : UpTo 3 p a → H16Colons 1 s b → Ls32 t c →
      IPv6address (p ++ 58 :: 58 :: (s ++ t)) (compress a (b ++ c))
  | compressLs32 {p t : Text} {a c : List ℕ} : UpTo 4 p a → Ls32 t c →
      IPv6address (p ++ 58 :: 58 :: t) (compress a c)
  | compressH16 {p t : Text} {a : List ℕ} : UpTo 5 p a → IsH16 t →
      IPv6address (p ++ 58 :: 58 :: t) (compress a (groupBytes t))
  | compressEnd {p : Text} {a : List ℕ} : UpTo 6 p a →
      IPv6address (p ++ [58, 58]) (compress a [])

/-! ## Sequences of groups -/

/-- The groups of a text. -/
def AllH16 (gs : List Text) : Prop := ∀ g ∈ gs, IsH16 g

/-- Each group with a colon behind it. -/
def colonsAfter : List Text → Text
  | [] => []
  | g :: gs => g ++ 58 :: colonsAfter gs

/-- Each group with a colon before it. -/
def colonsBefore : List Text → Text
  | [] => []
  | g :: gs => 58 :: (g ++ colonsBefore gs)

/-- The groups with colons between them. -/
def joinTexts : List Text → Text
  | [] => []
  | g :: gs => g ++ colonsBefore gs

/-- The bytes of groups. -/
def bytesOf : List Text → List ℕ
  | [] => []
  | g :: gs => groupBytes g ++ bytesOf gs

theorem allH16_cons {g : Text} {gs : List Text} : AllH16 (g :: gs) ↔ IsH16 g ∧ AllH16 gs :=
  List.forall_mem_cons

theorem bytesOf_append (gs hs : List Text) : bytesOf (gs ++ hs) = bytesOf gs ++ bytesOf hs := by
  induction gs with
  | nil => rfl
  | cons g gs ih => rw [List.cons_append, bytesOf, bytesOf, ih, List.append_assoc]

theorem length_bytesOf (gs : List Text) : (bytesOf gs).length = 2 * gs.length := by
  induction gs with
  | nil => rfl
  | cons g gs ih =>
    rw [bytesOf, List.length_append, ih, List.length_cons, groupBytes, List.length_cons,
      List.length_singleton]
    ring

theorem joinTexts_append_colon {gs : List Text} (h : gs ≠ []) (t : Text) :
    joinTexts gs ++ 58 :: t = colonsAfter gs ++ t := by
  have hbefore : ∀ gs : List Text, colonsBefore gs ++ 58 :: t = 58 :: (colonsAfter gs ++ t) := by
    intro gs
    induction gs with
    | nil => rfl
    | cons g gs ih =>
      rw [colonsBefore, colonsAfter, List.cons_append, List.append_assoc, ih, List.append_assoc,
        List.cons_append]
  cases gs with
  | nil => exact absurd rfl h
  | cons g gs =>
    rw [joinTexts, colonsAfter, List.append_assoc, hbefore, List.append_assoc, List.cons_append]

theorem colonsAfter_append (gs : List Text) (t : Text) :
    colonsAfter gs ++ t = joinTexts (gs ++ [t]) := by
  have hbefore : ∀ gs : List Text, 58 :: (colonsAfter gs ++ t) = colonsBefore (gs ++ [t]) := by
    intro gs
    induction gs with
    | nil => simp [colonsAfter, colonsBefore]
    | cons g gs ih =>
      rw [colonsAfter, List.cons_append, colonsBefore, ← ih, List.append_assoc, List.cons_append]
  cases gs with
  | nil => simp [colonsAfter, joinTexts, colonsBefore]
  | cons g gs =>
    rw [colonsAfter, List.cons_append, joinTexts, ← hbefore, List.append_assoc, List.cons_append]

theorem colonsAfter_concat (gs : List Text) (g t : Text) :
    colonsAfter (gs ++ [g]) ++ t = colonsAfter gs ++ (g ++ 58 :: t) := by
  induction gs with
  | nil => simp [colonsAfter]
  | cons h gs ih =>
    rw [List.cons_append, colonsAfter, colonsAfter, List.append_assoc, List.cons_append, ih,
      List.append_assoc, List.cons_append]

variable {n : ℕ} {s : Text} {b : List ℕ}

theorem h16Colons_iff : H16Colons n s b ↔
    ∃ gs, gs.length = n ∧ AllH16 gs ∧ s = colonsAfter gs ∧ b = bytesOf gs := by
  constructor
  · intro h
    induction h with
    | zero => exact ⟨[], rfl, List.forall_mem_nil _, rfl, rfl⟩
    | @succ n s t b hs _ ih =>
      obtain ⟨gs, hlength, hall, rfl, rfl⟩ := ih
      refine ⟨s :: gs, ?_, allH16_cons.mpr ⟨hs, hall⟩, rfl, rfl⟩
      rw [List.length_cons, hlength]
  · rintro ⟨gs, rfl, hall, rfl, rfl⟩
    induction gs with
    | nil => exact .zero
    | cons g gs ih =>
      rw [allH16_cons] at hall
      exact .succ hall.1 (ih hall.2)

theorem upTo_iff {k : ℕ} : UpTo k s b ↔
    ∃ gs, gs.length ≤ k + 1 ∧ AllH16 gs ∧ s = joinTexts gs ∧ b = bytesOf gs := by
  constructor
  · intro h
    cases h with
    | none => exact ⟨[], Nat.zero_le _, List.forall_mem_nil _, rfl, rfl⟩
    | @some n s t b hle hs ht =>
      obtain ⟨gs, rfl, hall, rfl, rfl⟩ := h16Colons_iff.mp hs
      refine ⟨gs ++ [t], ?_, ?_, colonsAfter_append gs t, ?_⟩
      · simp only [List.length_append, List.length_singleton]
        omega
      · exact List.forall_mem_append.mpr ⟨hall, List.forall_mem_singleton.mpr ht⟩
      · rw [bytesOf_append, bytesOf, bytesOf, List.append_nil]
  · rintro ⟨gs, hle, hall, rfl, rfl⟩
    rcases List.eq_nil_or_concat gs with rfl | ⟨hs, t, rfl⟩
    · exact .none
    · rw [List.concat_eq_append] at hle hall ⊢
      rw [← colonsAfter_append, bytesOf_append, bytesOf, bytesOf, List.append_nil]
      have hall := List.forall_mem_append.mp hall
      rw [List.length_append, List.length_singleton] at hle
      exact .some (by omega) (h16Colons_iff.mpr ⟨hs, rfl, hall.1, rfl, rfl⟩)
        (List.forall_mem_singleton.mp hall.2)

/-! ## Sequences that may end in an IPv4 address -/

/-- The groups at the end of an address, with their count. -/
inductive Tail : Text → ℕ → List ℕ → Prop
  | groups {gs : List Text} : AllH16 gs → Tail (joinTexts gs) gs.length (bytesOf gs)
  | ipv4 {gs : List Text} {s : Text} {b : List ℕ} : AllH16 gs → IPv4address s b →
      Tail (colonsAfter gs ++ s) (gs.length + 2) (bytesOf gs ++ b)

/-- An address: eight groups, or at most seven groups around `::`. -/
inductive Form : Text → List ℕ → Prop
  | full {t : Text} {b : List ℕ} : Tail t 8 b → Form t b
  | compressed {gs : List Text} {t : Text} {n : ℕ} {b : List ℕ} : AllH16 gs → Tail t n b →
      gs.length + n ≤ 7 → Form (joinTexts gs ++ 58 :: 58 :: t) (compress (bytesOf gs) b)

variable {t : Text}

/-- The last 32 bits apart. -/
theorem tail_iff : Tail t (n + 2) b ↔
    ∃ s u c d, H16Colons n s c ∧ Ls32 u d ∧ t = s ++ u ∧ b = c ++ d := by
  constructor
  · intro h
    generalize hn : n + 2 = m at h
    cases h with
    | @groups gs hall =>
      rcases List.eq_nil_or_concat gs with rfl | ⟨hs, u, rfl⟩
      · cases hn
      · rw [List.concat_eq_append, List.length_append, List.length_singleton] at hn
        rcases List.eq_nil_or_concat hs with rfl | ⟨is, s, rfl⟩
        · simp at hn
        · rw [List.concat_eq_append, List.concat_eq_append] at hall
          rw [List.concat_eq_append, List.length_append, List.length_singleton] at hn
          have hall := List.forall_mem_append.mp hall
          have hfirst := List.forall_mem_append.mp hall.1
          refine ⟨colonsAfter is, s ++ 58 :: u, bytesOf is, groupBytes s ++ groupBytes u,
            h16Colons_iff.mpr ⟨is, by omega, hfirst.1, rfl, rfl⟩,
            .h16 (List.forall_mem_singleton.mp hfirst.2) (List.forall_mem_singleton.mp hall.2),
            ?_, ?_⟩
          · rw [List.concat_eq_append, List.concat_eq_append, ← colonsAfter_append,
              colonsAfter_concat]
          · rw [List.concat_eq_append, List.concat_eq_append, bytesOf_append, bytesOf_append]
            simp [bytesOf]
    | @ipv4 gs s b hall hs =>
      exact ⟨colonsAfter gs, s, bytesOf gs, b, h16Colons_iff.mpr ⟨gs, by omega, hall, rfl, rfl⟩,
        .ipv4 hs, rfl, rfl⟩
  · rintro ⟨s, u, c, d, hs, hu, rfl, rfl⟩
    obtain ⟨gs, rfl, hall, rfl, rfl⟩ := h16Colons_iff.mp hs
    cases hu with
    | @h16 s t hs ht =>
      have hgroups : AllH16 (gs ++ [s] ++ [t]) :=
        List.forall_mem_append.mpr ⟨List.forall_mem_append.mpr
          ⟨hall, List.forall_mem_singleton.mpr hs⟩, List.forall_mem_singleton.mpr ht⟩
      have htail := Tail.groups hgroups
      rw [← colonsAfter_append, colonsAfter_concat, bytesOf_append, bytesOf_append] at htail
      simpa [bytesOf] using htail
    | ipv4 hu => exact .ipv4 hall hu

theorem Tail.zero (h : Tail t 0 b) : t = [] ∧ b = [] := by
  generalize hn : 0 = n at h
  cases h with
  | @groups gs hall =>
    obtain rfl := List.length_eq_zero_iff.mp hn.symm
    exact ⟨rfl, rfl⟩
  | ipv4 hall hs => cases hn

theorem Tail.one {t : Text} {b : List ℕ} (h : Tail t 1 b) : IsH16 t ∧ b = groupBytes t := by
  generalize hn : 1 = n at h
  cases h with
  | @groups gs hall =>
    obtain ⟨g, rfl⟩ := List.length_eq_one_iff.mp hn.symm
    rw [joinTexts, colonsBefore, bytesOf, bytesOf, List.append_nil, List.append_nil]
    exact ⟨List.forall_mem_singleton.mp hall, rfl⟩
  | ipv4 hall hs => omega

theorem tail_one (h : IsH16 t) : Tail t 1 (groupBytes t) := by
  have htail := @Tail.groups [t] (List.forall_mem_singleton.mpr h)
  simpa [joinTexts, colonsBefore, bytesOf] using htail

/-- Groups before `::` and the last 32 bits behind it. -/
theorem form_of_upTo {k : ℕ} {p : Text} {a c : List ℕ} (hp : UpTo k p a)
    (hs : H16Colons n s b) (ht : Ls32 t c) (hk : k + n ≤ 4) :
    Form (p ++ 58 :: 58 :: (s ++ t)) (compress a (b ++ c)) := by
  obtain ⟨gs, hle, hall, rfl, rfl⟩ := upTo_iff.mp hp
  exact .compressed hall (tail_iff.mpr ⟨s, t, b, c, hs, ht, rfl, rfl⟩) (by omega)

/-- **Main result.** The nine alternatives of the production. -/
theorem iPv6address_iff : IPv6address t b ↔ Form t b := by
  constructor
  · intro h
    cases h with
    | full hs ht => exact .full (tail_iff.mpr ⟨_, _, _, _, hs, ht, rfl, rfl⟩)
    | compress5 hs ht =>
      exact @Form.compressed [] _ _ _ (List.forall_mem_nil _)
        (tail_iff.mpr ⟨_, _, _, _, hs, ht, rfl, rfl⟩) (by decide)
    | compress4 hp hs ht => exact form_of_upTo hp hs ht (by decide)
    | compress3 hp hs ht => exact form_of_upTo hp hs ht (by decide)
    | compress2 hp hs ht => exact form_of_upTo hp hs ht (by decide)
    | compress1 hp hs ht => exact form_of_upTo hp hs ht (by decide)
    | compressLs32 hp ht => exact form_of_upTo hp .zero ht (by decide)
    | compressH16 hp ht =>
      obtain ⟨gs, hle, hall, rfl, rfl⟩ := upTo_iff.mp hp
      exact .compressed hall (tail_one ht) (by omega)
    | compressEnd hp =>
      obtain ⟨gs, hle, hall, rfl, rfl⟩ := upTo_iff.mp hp
      exact .compressed hall (@Tail.groups [] (List.forall_mem_nil _)) (by simpa using hle)
  · intro h
    cases h with
    | full ht =>
      obtain ⟨s, u, c, d, hs, hu, rfl, rfl⟩ := tail_iff.mp ht
      exact .full hs hu
    | @compressed gs t n b hall ht hle =>
      have hupTo : ∀ k, gs.length ≤ k + 1 → UpTo k (joinTexts gs) (bytesOf gs) :=
        fun k hk => upTo_iff.mpr ⟨gs, hk, hall, rfl, rfl⟩
      match n with
      | 0 =>
        obtain ⟨rfl, rfl⟩ := ht.zero
        exact .compressEnd (hupTo 6 (by omega))
      | 1 =>
        obtain ⟨hgroup, rfl⟩ := ht.one
        exact .compressH16 (hupTo 5 (by omega)) hgroup
      | n + 2 =>
        obtain ⟨s, u, c, d, hs, hu, rfl, rfl⟩ := tail_iff.mp ht
        match n with
        | 0 =>
          cases hs
          exact .compressLs32 (hupTo 4 (by omega)) hu
        | 1 => exact .compress1 (hupTo 3 (by omega)) hs hu
        | 2 => exact .compress2 (hupTo 2 (by omega)) hs hu
        | 3 => exact .compress3 (hupTo 1 (by omega)) hs hu
        | 4 => exact .compress4 (hupTo 0 (by omega)) hs hu
        | 5 =>
          obtain rfl := List.length_eq_zero_iff.mp (show gs.length = 0 by omega)
          exact .compress5 hs hu
        | n + 6 => omega

end CldcVm.Uri
