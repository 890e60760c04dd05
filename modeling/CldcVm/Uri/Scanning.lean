import CldcVm.Uri.Parser

/-!
# Scanned texts

What `scan(start, n, lowMask, highMask)` accepts, and what `normalizePercentEncoded` does
to it.

Results:

* `scanMask_eq_ok`, `scanMask_append`: the scan returns the longest run of characters of
  the class and of escapes;
* `upperTriplets_append`, `upperTriplets_idem`: the triplets of a concatenation, and of
  a text that is normalized;
* `normalizePercentEncoded_eq`: the check of `normalizePercentEncoded` never fails;
* `escapeEq_upperTriplets`: it changes the letter case of escape digits only.
-/

namespace CldcVm.Uri

/-- **Spec lemma** of sequencing: it succeeds when both parts do. -/
theorem bind_eq_ok {α β : Type} {x : Except URIException α} {f : α → Except URIException β}
    {r : β} : (x >>= f) = .ok r ↔ ∃ a, x = .ok a ∧ f a = .ok r := by
  cases x with
  | error e => simp [bind, Except.bind]
  | ok a => simp [bind, Except.bind]

@[simp] theorem ok_bind {α β : Type} (a : α) (f : α → Except URIException β) :
    ((Except.ok a : Except URIException α) >>= f) = f a := rfl

@[simp] theorem error_bind {α β : Type} (e : URIException) (f : α → Except URIException β) :
    ((Except.error e : Except URIException α) >>= f) = .error e := rfl

@[simp] theorem fail_ne_ok {α : Type} (reason : String) (a : α) : fail reason ≠ .ok a := by
  simp [fail]

@[simp] theorem failExpecting_ne_ok {α : Type} (expected : String) (a : α) :
    failExpecting expected ≠ .ok a := by
  simp [failExpecting]

/-! ## Scan to a stop character -/

/-- No character of the text is one of `stop`. -/
def Avoids (stop : List Char) (s : Text) : Prop := ∀ c ∈ s, c ∉ text stop

instance (stop : List Char) (s : Text) : Decidable (Avoids stop s) :=
  inferInstanceAs (Decidable (∀ c ∈ s, c ∉ text stop))

/-- The text is empty or begins with one of `stop`. -/
def BeginsIn (stop : List Char) (s : Text) : Prop := ∀ c, s.head? = some c → c ∈ text stop

theorem avoids_nil (stop : List Char) : Avoids stop [] := by simp [Avoids]

variable {stop : List Char} {s t : Text}

theorem avoids_append : Avoids stop (s ++ t) ↔ Avoids stop s ∧ Avoids stop t := by
  simp only [Avoids, List.forall_mem_append]

variable {c : ℕ}

theorem avoids_cons : Avoids stop (c :: s) ↔ c ∉ text stop ∧ Avoids stop s := by
  simp [Avoids]

theorem beginsIn_nil (stop : List Char) : BeginsIn stop [] := by simp [BeginsIn]

theorem beginsIn_cons : BeginsIn stop (c :: s) ↔ c ∈ text stop := by
  simp [BeginsIn]

theorem Avoids.mono {stop' : List Char} (h : Avoids stop' s)
    (hsub : stop.all stop'.contains = true) : Avoids stop s := by
  intro c hc hmem
  obtain ⟨d, hd, rfl⟩ := List.mem_map.mp hmem
  have hd' : d ∈ stop' := by simpa using List.all_eq_true.mp hsub d hd
  exact h _ hc (List.mem_map_of_mem hd')

variable {a b : Text}

/-- **Spec lemma** of `scan(start, end, "", stop)`. -/
theorem scan_eq (h : scan stop s = (a, b)) : s = a ++ b ∧ Avoids stop a ∧ BeginsIn stop b := by
  rw [scan, List.span_eq_takeWhile_dropWhile, Prod.mk.injEq] at h
  obtain ⟨rfl, rfl⟩ := h
  refine ⟨List.takeWhile_append_dropWhile.symm, ?_, ?_⟩
  · intro c hc
    have := List.all_eq_true.mp List.all_takeWhile c hc
    simpa using this
  · intro c hc
    have := List.head?_dropWhile_not (fun c => !(text stop).contains c) s
    rw [hc] at this
    simpa using this

theorem scan_spec (stop : List Char) (s : Text) :
    s = (scan stop s).1 ++ (scan stop s).2 ∧ Avoids stop (scan stop s).1 ∧
      BeginsIn stop (scan stop s).2 := scan_eq rfl

theorem scan_append (ha : Avoids stop a) (hb : BeginsIn stop b) : scan stop (a ++ b) = (a, b) := by
  rw [scan, List.span_eq_takeWhile_dropWhile]
  have hall : ∀ c ∈ a, (!(text stop).contains c) = true := by
    intro c hc
    have := ha c hc
    simpa using this
  rw [List.takeWhile_append_of_pos hall, List.dropWhile_append_of_pos hall]
  cases b with
  | nil => simp
  | cons c rest =>
    have := beginsIn_cons.mp hb
    simp [this]

theorem scan_self (ha : Avoids stop a) : scan stop a = (a, []) := by
  have := scan_append ha (beginsIn_nil stop)
  rwa [List.append_nil] at this

@[simp] theorem atChar_nil (c : Char) : atChar [] c = false := rfl

@[simp] theorem atChar_cons (d : ℕ) (s : Text) (c : Char) : atChar (d :: s) c = (d == c.toNat) := by
  simp [atChar]

theorem atChar_eq_true {c : Char} (h : atChar s c = true) : s = c.toNat :: s.drop 1 := by
  cases s with
  | nil => simp at h
  | cons d s => simpa using h

theorem beginsIn_singleton {a : Char} : BeginsIn [a] s ↔ s = [] ∨ atChar s a = true := by
  cases s with
  | nil => simp [BeginsIn]
  | cons c s => simp [BeginsIn, text]

/-! ## Scan of a class -/

/-- A run of characters of a class and of escapes, where the class allows them. -/
inductive Conforms (m : Mask) : Text → Prop
  | nil : Conforms m []
  | char {c : ℕ} {s : Text} : m.matchChar c = true → Conforms m s → Conforms m (c :: s)
  | escape {a b : ℕ} {s : Text} : m.allowsEscapes = true → hexdigMask.matchChar a = true →
      hexdigMask.matchChar b = true → Conforms m s → Conforms m ('%'.toNat :: a :: b :: s)

/-- A run of the class ends before the text. -/
def Stops (m : Mask) (s : Text) : Prop :=
  ∀ c, s.head? = some c → m.matchChar c = false ∧ (m.allowsEscapes = true → c ≠ '%'.toNat)

theorem stops_nil (m : Mask) : Stops m [] := by simp [Stops]

variable {m : Mask}

theorem stops_cons :
    Stops m (c :: s) ↔ m.matchChar c = false ∧ (m.allowsEscapes = true → c ≠ '%'.toNat) := by
  simp [Stops]

/-- **Spec lemma** of the scan of a class. -/
theorem scanMask_eq_ok (h : scanMask m s = .ok (a, b)) : s = a ++ b ∧ Conforms m a ∧ Stops m b := by
  fun_induction scanMask m s generalizing a b with
  | case1 =>
    obtain ⟨rfl, rfl⟩ : [] = a ∧ [] = b := by simpa using h
    exact ⟨rfl, Conforms.nil, stops_nil m⟩
  | case2 c rest hc ih =>
    obtain ⟨⟨a', b'⟩, hrest, heq⟩ := bind_eq_ok.mp h
    obtain ⟨rfl, rfl⟩ : c :: a' = a ∧ b' = b := by simpa using heq
    obtain ⟨rfl, hconforms, hstops⟩ := ih hrest
    exact ⟨rfl, Conforms.char hc hconforms, hstops⟩
  | case3 c hc hpct x y rest hhex ih =>
    obtain ⟨⟨a', b'⟩, hrest, heq⟩ := bind_eq_ok.mp h
    obtain ⟨rfl, rfl⟩ : c :: x :: y :: a' = a ∧ b' = b := by simpa using heq
    obtain ⟨rfl, hconforms, hstops⟩ := ih hrest
    refine ⟨rfl, ?_, hstops⟩
    rw [hpct.2]
    exact Conforms.escape hpct.1 hhex.1 hhex.2 hconforms
  | case4 c hc hpct x y rest hhex => simp at h
  | case5 c rest hc hpct hshort => simp at h
  | case6 c rest hc hpct =>
    obtain ⟨rfl, rfl⟩ : [] = a ∧ c :: rest = b := by simpa using h
    refine ⟨rfl, Conforms.nil, ?_⟩
    rw [stops_cons]
    refine ⟨by simpa using hc, ?_⟩
    intro hallows heq
    exact hpct ⟨hallows, heq⟩

theorem scanMask_cons (hc : m.matchChar c = true) (s : Text) : scanMask m (c :: s) = (do
      let (t, p) ← scanMask m s
      .ok (c :: t, p)) := by
  match s with
  | [] | [_] | _ :: _ :: _ => rw [scanMask.eq_def]; simp [hc]

theorem scanMask_of_stops (h : Stops m s) : scanMask m s = .ok ([], s) := by
  cases s with
  | nil => rfl
  | cons c s =>
    obtain ⟨hc, hpct⟩ := stops_cons.mp h
    have : ¬ (m.allowsEscapes = true ∧ c = '%'.toNat) := by
      intro hboth
      exact hpct hboth.1 hboth.2
    rw [scanMask.eq_def]
    simp only [hc, Bool.false_eq_true, if_false, if_neg this]

/-- The scan of a class returns a run of it with what follows. -/
theorem scanMask_append (hpct : m.matchChar '%'.toNat = false)
    (ha : Conforms m a) (hb : Stops m b) : scanMask m (a ++ b) = .ok (a, b) := by
  induction ha with
  | nil => exact scanMask_of_stops hb
  | char hc _ ih =>
    rw [List.cons_append, scanMask_cons hc, ih]
    rfl
  | escape hallows hx hy _ ih =>
    rw [List.cons_append, List.cons_append, List.cons_append, scanMask, hpct, if_neg (by decide),
      if_pos ⟨hallows, rfl⟩]
    simp only [hx, hy, and_self, if_true, ih, ok_bind]

theorem scanMask_self (hpct : m.matchChar '%'.toNat = false)
    (ha : Conforms m a) : scanMask m a = .ok (a, []) := by
  have := scanMask_append hpct ha (stops_nil m)
  rwa [List.append_nil] at this

/-- **Spec lemma** of `checkChars`. -/
theorem checkChars_eq_ok (hpct : m.matchChar '%'.toNat = false) {what : String} :
    checkChars m what s = .ok () ↔ Conforms m s := by
  constructor
  · intro h
    obtain ⟨⟨a, b⟩, hscan, hrest⟩ := bind_eq_ok.mp h
    obtain ⟨rfl, hconforms, -⟩ := scanMask_eq_ok hscan
    by_cases hb : b = []
    · rwa [hb, List.append_nil]
    · simp [hb] at hrest
  · intro h
    simp [checkChars, scanMask_self hpct h]

theorem checkChars_of_conforms (hpct : m.matchChar '%'.toNat = false) (what : String)
    (h : Conforms m s) : checkChars m what s = .ok () :=
  (checkChars_eq_ok hpct).mpr h

theorem Conforms.mono {m' : Mask} (h : Conforms m s)
    (hchars : ∀ c, m.matchChar c = true → m'.matchChar c = true)
    (hallows : m.allowsEscapes = true → m'.allowsEscapes = true) : Conforms m' s := by
  induction h with
  | nil => exact Conforms.nil
  | char hc _ ih => exact Conforms.char (hchars _ hc) ih
  | escape hm hx hy _ ih => exact Conforms.escape (hallows hm) hx hy ih

theorem Conforms.append (hs : Conforms m s) (ht : Conforms m t) : Conforms m (s ++ t) := by
  induction hs with
  | nil => exact ht
  | char hc _ ih => exact Conforms.char hc ih
  | escape hm hx hy _ ih => exact Conforms.escape hm hx hy ih

theorem conforms_of_forall (h : ∀ c ∈ s, m.matchChar c = true) : Conforms m s := by
  induction s with
  | nil => exact Conforms.nil
  | cons c s ih =>
    rw [List.forall_mem_cons] at h
    exact Conforms.char h.1 (ih h.2)

theorem Conforms.forall_mem (hm : m.allowsEscapes = false)
    (h : Conforms m s) : ∀ c ∈ s, m.matchChar c = true := by
  induction h with
  | nil => simp
  | char hc _ ih => exact List.forall_mem_cons.mpr ⟨hc, ih⟩
  | escape hallows _ _ _ _ => simp [hm] at hallows

/-- A run of a class avoids the characters that are in neither the class nor an escape. -/
theorem Conforms.avoids (h : Conforms m s) (hm : ∀ c ∈ text stop, m.matchChar c = false)
    (hhex : ∀ c ∈ text stop, hexdigMask.matchChar c = false ∧ c ≠ '%'.toNat) : Avoids stop s := by
  induction h with
  | nil => exact avoids_nil stop
  | char hc _ ih =>
    refine avoids_cons.mpr ⟨?_, ih⟩
    intro hmem
    simp [hm _ hmem] at hc
  | escape _ hx hy _ ih =>
    refine avoids_cons.mpr ⟨?_, avoids_cons.mpr ⟨?_, avoids_cons.mpr ⟨?_, ih⟩⟩⟩
    · intro hmem
      exact (hhex _ hmem).2 rfl
    · intro hmem
      simp [(hhex _ hmem).1] at hx
    · intro hmem
      simp [(hhex _ hmem).1] at hy

/-! ## Triplets -/

/-- Equality up to the letter case of the digits of escapes. -/
inductive EscapeEq : Text → Text → Prop
  | nil : EscapeEq [] []
  | char (c : ℕ) {s t : Text} : EscapeEq s t → EscapeEq (c :: s) (c :: t)
  | escape {a b a' b' : ℕ} {s t : Text} : hexdigMask.matchChar a = true →
      hexdigMask.matchChar b = true → toUpperChar a = toUpperChar a' →
      toUpperChar b = toUpperChar b' → EscapeEq s t →
      EscapeEq ('%'.toNat :: a :: b :: s) ('%'.toNat :: a' :: b' :: t)

theorem EscapeEq.refl (s : Text) : EscapeEq s s := by
  induction s with
  | nil => exact EscapeEq.nil
  | cons c s ih => exact EscapeEq.char c ih

/-- Every `%` of the text begins an escape. -/
inductive Escaped : Text → Prop
  | nil : Escaped []
  | char {c : ℕ} {s : Text} : c ≠ '%'.toNat → Escaped s → Escaped (c :: s)
  | escape {a b : ℕ} {s : Text} : hexdigMask.matchChar a = true →
      hexdigMask.matchChar b = true → Escaped s → Escaped ('%'.toNat :: a :: b :: s)

theorem Conforms.escaped (hpct : m.matchChar '%'.toNat = false) (h : Conforms m s) : Escaped s := by
  induction h with
  | nil => exact Escaped.nil
  | char hc _ ih =>
    refine Escaped.char ?_ ih
    rintro rfl
    exact Bool.false_ne_true (hpct.symm.trans hc)
  | escape _ hx hy _ ih => exact Escaped.escape hx hy ih

theorem escaped_of_avoids (h : Avoids ['%'] s) : Escaped s := by
  induction s with
  | nil => exact Escaped.nil
  | cons c s ih =>
    obtain ⟨hc, hs⟩ := avoids_cons.mp h
    exact Escaped.char (by simpa [text] using hc) (ih hs)

theorem Escaped.append (hs : Escaped s) (ht : Escaped t) : Escaped (s ++ t) := by
  induction hs with
  | nil => exact ht
  | char hc _ ih => exact Escaped.char hc ih
  | escape hx hy _ ih => exact Escaped.escape hx hy ih

@[simp] theorem upperTriplets_nil : upperTriplets [] = [] := rfl

theorem upperTriplets_cons (hc : c ≠ '%'.toNat) (s : Text) :
    upperTriplets (c :: s) = c :: upperTriplets s := by
  match s with
  | [] => rfl
  | [a] => rfl
  | a :: b :: rest =>
    rw [upperTriplets, if_neg]
    intro h
    exact hc h.1

theorem upperTriplets_escape {a b : ℕ} (ha : hexdigMask.matchChar a = true)
    (hb : hexdigMask.matchChar b = true) (s : Text) :
    upperTriplets ('%'.toNat :: a :: b :: s) =
      '%'.toNat :: toUpperChar a :: toUpperChar b :: upperTriplets s := by
  rw [upperTriplets, if_pos ⟨rfl, ha, hb⟩]
  rfl

theorem matchChar_hexdig_toUpperChar (h : hexdigMask.matchChar c = true) :
    hexdigMask.matchChar (toUpperChar c) = true := by
  apply Mask.forall_of_ascii (m := hexdigMask) (P := fun c =>
    hexdigMask.matchChar (toUpperChar c) = true) _ h
  decide

/-- The triplets of a concatenation, when no escape is cut. -/
theorem upperTriplets_append (hs : Escaped s) (t : Text) :
    upperTriplets (s ++ t) = upperTriplets s ++ upperTriplets t := by
  induction hs with
  | nil => rfl
  | char hc _ ih =>
    rw [List.cons_append, upperTriplets_cons hc, upperTriplets_cons hc, ih, List.cons_append]
  | escape hx hy _ ih =>
    simp only [List.cons_append]
    rw [upperTriplets_escape hx hy, upperTriplets_escape hx hy, ih]
    rfl

/-- A text without `%` stays. -/
theorem upperTriplets_of_avoids (h : Avoids ['%'] s) : upperTriplets s = s := by
  induction s with
  | nil => rfl
  | cons c s ih =>
    obtain ⟨hc, hs⟩ := avoids_cons.mp h
    rw [upperTriplets_cons (by simpa [text] using hc), ih hs]

theorem Conforms.upperTriplets (hpct : m.matchChar '%'.toNat = false)
    (h : Conforms m s) : Conforms m (upperTriplets s) := by
  induction h with
  | nil => exact Conforms.nil
  | char hc _ ih =>
    rw [upperTriplets_cons]
    · exact Conforms.char hc ih
    · rintro rfl
      exact Bool.false_ne_true (hpct.symm.trans hc)
  | escape hm hx hy _ ih =>
    rw [upperTriplets_escape hx hy]
    exact Conforms.escape hm (matchChar_hexdig_toUpperChar hx) (matchChar_hexdig_toUpperChar hy) ih

theorem upperTriplets_idem (h : Escaped s) : upperTriplets (upperTriplets s) = upperTriplets s := by
  induction h with
  | nil => rfl
  | char hc _ ih => rw [upperTriplets_cons hc, upperTriplets_cons hc, ih]
  | escape hx hy _ ih =>
    rw [upperTriplets_escape hx hy, upperTriplets_escape (matchChar_hexdig_toUpperChar hx)
      (matchChar_hexdig_toUpperChar hy), ih, toUpperChar_idem (Mask.matchChar_ascii hx),
      toUpperChar_idem (Mask.matchChar_ascii hy)]

theorem escapeEq_upperTriplets (h : Escaped s) : EscapeEq s (upperTriplets s) := by
  induction h with
  | nil => exact EscapeEq.nil
  | char hc _ ih =>
    rw [upperTriplets_cons hc]
    exact EscapeEq.char _ ih
  | escape hx hy _ ih =>
    rw [upperTriplets_escape hx hy]
    exact EscapeEq.escape hx hy (toUpperChar_idem (Mask.matchChar_ascii hx)).symm
      (toUpperChar_idem (Mask.matchChar_ascii hy)).symm ih

/-- A function of characters that does not see letter case does not see the
normalization. -/
theorem map_upperTriplets {f : ℕ → ℕ}
    (hf : ∀ c, hexdigMask.matchChar c = true → f (toUpperChar c) = f c) (s : Text) :
    (upperTriplets s).map f = s.map f := by
  have hpct : toUpperChar '%'.toNat = '%'.toNat := by decide
  fun_induction upperTriplets s with
  | case1 c a b rest h ih =>
    simp only [toUpperCase, List.map_cons, List.map_nil, List.cons_append, List.nil_append, ih,
      h.1, hpct, hf a h.2.1, hf b h.2.2]
  | case2 c a b rest h ih => simp only [List.map_cons, ih]
  | case3 s _ => rfl

/-- **Main result** on `normalizePercentEncoded`: its check never fails. -/
theorem normalizePercentEncoded_eq (u : URIParser) :
    normalizePercentEncoded u = .ok { u with normalized := upperTriplets u.normalized } := by
  have hupper : toUpperCase (upperTriplets u.normalized) = toUpperCase u.normalized := by
    apply map_upperTriplets
    intro c hc
    exact toUpperChar_idem (Mask.matchChar_ascii hc)
  simp [normalizePercentEncoded, hupper]

theorem toLowerCase_upperTriplets (s : Text) : toLowerCase (upperTriplets s) = toLowerCase s := by
  apply map_upperTriplets
  intro c hc
  exact toLowerChar_toUpperChar (Mask.matchChar_ascii hc)

end CldcVm.Uri
