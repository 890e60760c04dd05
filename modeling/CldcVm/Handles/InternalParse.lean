import CldcVm.Handles.Descriptor

/-!
# What the parser accepts

`Scan` describes the run of the parser over the types of a string. From the runs:

* `internalParse_method`, `internalParse_field`, `internalParse_outside`: the
  form of a string that is accepted, or read past its end;
* `internalParse_methodString`, `internalParse_fieldType`, `internalParse_pastEnd`:
  every string of these forms is treated so, unless a class resolution fails.
-/

namespace CldcVm.Handles

open ParseStream

variable {table : ClassTable}

/-! ## Encoded types -/

theorem encodeUshort_ge (value : ℕ) : 0x8080 ≤ encodeUshort value := by
  unfold encodeUshort
  exact Nat.right_le_or

theorem isSimpleTypeSymbol_lt {c : UInt8} (hc : c = byte 'V' ∨ isSimpleTypeSymbol c = true) :
    c.toNat < 128 := by
  rcases hc with rfl | hc
  · decide
  · rcases isSimpleTypeSymbol_cases hc with rfl | rfl | rfl | rfl | rfl | rfl | rfl | rfl <;> decide

variable {t : List UInt8}

theorem ClassOf.length_ne {dimension id : ℕ} (h : ClassOf table dimension t id)
    (hdimension : dimension = 0) : t.length ≠ 1 := by
  cases h with
  | simple hne => exact absurd hdimension hne
  | object => simp
  | objectArray hne => exact absurd hdimension hne
  | array _ hrest =>
    have hne : ∀ {dimension t id}, ClassOf table dimension t id → t.length ≠ 0 := by
      intro dimension t id h
      cases h <;> simp
    have := hne hrest
    rw [List.length_cons, List.length_append]
    omega

variable {type : ℕ}

theorem TypeOf.length_putType (h : TypeOf table t type) :
    (putType type).length = encodedSize t := by
  cases h with
  | basic hc =>
    unfold putType encodedSize
    rw [if_pos (isSimpleTypeSymbol_lt hc)]
    rfl
  | @reference t id hclass =>
    have hge := encodeUshort_ge id
    unfold putType encodedSize
    rw [if_neg (by omega), if_neg (hclass.length_ne rfl)]
    rfl

/-- Only `void` has the type `V`. -/
theorem TypeOf.void_iff (h : TypeOf table t type) : type = (byte 'V').toNat ↔ t = void := by
  cases h with
  | basic hc =>
    unfold void
    rw [UInt8.toNat_inj, List.cons.injEq, and_iff_left rfl]
  | @reference t id hclass =>
    have hge := encodeUshort_ge id
    refine iff_of_false (fun h => ?_) ?_
    · rw [h] at hge
      revert hge
      decide
    · rintro rfl
      exact hclass.length_ne rfl rfl

/-! ## Runs of the parser -/

/-- The stream with the close parenthesis noted. -/
def ParseStream.close (ps : ParseStream) : ParseStream :=
  { ps with closeParenPosition := ps.tokenCount, parameterWordCount := ps.tokenWordCount }

/-- The parser has read the types, and one close parenthesis at most. -/
inductive Scan (table : ClassTable) : ParseStream → List (List UInt8 × ℕ) → ParseStream → Prop
  | nil (ps : ParseStream) : Scan table ps [] ps
  | token {ps ps' : ParseStream} {t rest : List UInt8} {type : ℕ} {l : List (List UInt8 × ℕ)} :
      ps.rest = t ++ rest → ReturnDescriptor (Valid table) t → TypeOf table t type →
      Scan table (ps.after t rest) l ps' → Scan table ps ((t, type) :: l) ps'
  | close {ps ps' : ParseStream} {t rest : List UInt8} {type : ℕ} {l : List (List UInt8 × ℕ)} :
      ps.closeParenPosition = -1 → ps.rest = byte ')' :: (t ++ rest) →
      ReturnDescriptor (Valid table) t → TypeOf table t type →
      Scan table (ps.close.after t rest) l ps' → Scan table ps ((t, type) :: l) ps'

/-- The strings of the types. -/
def strings (l : List (List UInt8 × ℕ)) : List (List UInt8) := l.map Prod.fst

theorem strings_flatten_cons (p : List UInt8 × ℕ) (l : List (List UInt8 × ℕ)) :
    (strings (p :: l)).flatten = p.1 ++ (strings l).flatten := rfl

/-- The bytes of the types in the buffer. -/
def encoded (l : List (List UInt8 × ℕ)) : List UInt8 := (l.map fun p => putType p.2).flatten

/-- The last of the types. -/
def lastType : (type : ℕ) → List (List UInt8 × ℕ) → ℕ
  | type, [] => type
  | _, p :: l => lastType p.2 l

theorem map_eq_ok {α β : Type} {x : Except Failure α} {f : α → β} {b : β} :
    x.map f = .ok b ↔ ∃ a, x = .ok a ∧ f a = b := by
  cases x with
  | error e => exact iff_of_false nofun nofun
  | ok a =>
    constructor
    · intro h
      exact ⟨a, rfl, Except.ok.inj h⟩
    · rintro ⟨a', ha', rfl⟩
      cases ha'
      rfl

theorem map_eq_error {α β : Type} {x : Except Failure α} {f : α → β} {e : Failure} :
    x.map f = .error e ↔ x = .error e := by
  cases x with
  | error e' => exact ⟨fun h => congrArg _ (Except.error.inj h), fun h => congrArg _ (Except.error.inj h)⟩
  | ok a => exact iff_of_false nofun nofun

variable {ps ps' : ParseStream}

theorem next_none (h : ps.next table = .ok (none, ps')) : ps' = ps ∧ ps.rest = [] := by
  unfold ParseStream.next at h
  split at h
  · next hnil =>
    cases h
    exact ⟨rfl, hnil⟩
  · split_ifs at h
    · split at h
      · cases h
      · obtain ⟨found, -, hfound⟩ := map_eq_ok.mp h
        cases hfound
    · obtain ⟨found, -, hfound⟩ := map_eq_ok.mp h
      cases hfound

/-- A type that is found starts the stream, or follows the close parenthesis. -/
theorem next_some (h : ps.next table = .ok (some type, ps')) :
    ∃ t rest, ReturnDescriptor (Valid table) t ∧ TypeOf table t type ∧
      ((ps.rest = t ++ rest ∧ ps' = ps.after t rest) ∨
        (ps.closeParenPosition = -1 ∧ ps.rest = byte ')' :: (t ++ rest) ∧
          ps' = ps.close.after t rest)) := by
  unfold ParseStream.next at h
  split at h
  · cases h
  · next c rest hrest =>
    split_ifs at h with hparen hopen
    · subst hparen
      split at h
      · cases h
      · next c rest' =>
        obtain ⟨⟨type', ps''⟩, hfound, heq⟩ := map_eq_ok.mp h
        cases heq
        obtain ⟨t, htail, ht, htype, hps⟩ := nextToken_ok hfound
        refine ⟨t, ps''.rest, ht, htype, .inr ⟨hopen, ?_, hps⟩⟩
        rw [hrest, ← htail]
    · obtain ⟨⟨type', ps''⟩, hfound, heq⟩ := map_eq_ok.mp h
      cases heq
      obtain ⟨t, htail, ht, htype, hps⟩ := nextToken_ok hfound
      refine ⟨t, ps''.rest, ht, htype, .inl ⟨?_, hps⟩⟩
      rw [hrest, ← htail]

/-- The stream is read past its end behind a last close parenthesis. -/
theorem next_outside (h : ps.next table = .error .outside) :
    ps.closeParenPosition = -1 ∧ ps.rest = [byte ')'] := by
  unfold ParseStream.next at h
  split at h
  · cases h
  · next c rest hrest =>
    split_ifs at h with hparen hopen
    · subst hparen
      split at h
      · exact ⟨hopen, hrest⟩
      · exact absurd (map_eq_error.mp h) (nextToken_ne_outside _ _)
    · cases h
    · exact absurd (map_eq_error.mp h) (nextToken_ne_outside _ _)

theorem encoded_cons (p : List UInt8 × ℕ) (l : List (List UInt8 × ℕ)) :
    encoded (p :: l) = putType p.2 ++ encoded l := rfl

variable {fuel : ℕ} {out : List UInt8}

/-- **Run lemma**: the loop that ends at the end of the string. -/
theorem parseLoop_ok {type' : ℕ} {out' : List UInt8}
    (h : parseLoop table fuel ps out type = .ok (ps', out', type')) :
    ∃ l, Scan table ps l ps' ∧ ps'.rest = [] ∧ out' = out ++ encoded l ∧ type' = lastType type l ∧
      (l = [] ∨ out'.length < 512) := by
  induction fuel generalizing ps out type with
  | zero => cases h
  | succ fuel ih =>
    unfold parseLoop at h
    split at h
    · cases h
    · next hnext =>
      cases h
      obtain ⟨rfl, hnil⟩ := next_none hnext
      exact ⟨[], .nil _, hnil, (List.append_nil _).symm, rfl, .inl rfl⟩
    · next type₁ ps₁ hnext =>
      simp only at h
      split_ifs at h with hroom
      obtain ⟨l, hscan, hend, hout, htype, hlength⟩ := ih h
      obtain ⟨t, rest, ht, htype₁, hcases⟩ := next_some hnext
      refine ⟨(t, type₁) :: l, ?_, hend, ?_, htype, .inr ?_⟩
      · rcases hcases with ⟨hrest, rfl⟩ | ⟨hopen, hrest, rfl⟩
        · exact .token hrest ht htype₁ hscan
        · exact .close hopen hrest ht htype₁ hscan
      · rw [hout, encoded_cons, List.append_assoc]
      · rcases hlength with rfl | hlength
        · rw [hout, show encoded [] = [] from rfl, List.append_nil]
          omega
        · exact hlength

/-- **Run lemma**: the loop that reads past the end. -/
theorem parseLoop_outside (h : parseLoop table fuel ps out type = .error .outside) :
    ∃ l ps', Scan table ps l ps' ∧ ps'.closeParenPosition = -1 ∧ ps'.rest = [byte ')'] ∧
      (l = [] ∨ (out ++ encoded l).length < 512) := by
  induction fuel generalizing ps out type with
  | zero => cases h
  | succ fuel ih =>
    unfold parseLoop at h
    split at h
    · next e hnext =>
      cases h
      obtain ⟨hopen, hrest⟩ := next_outside hnext
      exact ⟨[], ps, .nil _, hopen, hrest, .inl rfl⟩
    · cases h
    · next type₁ ps₁ hnext =>
      simp only at h
      split_ifs at h with hroom
      obtain ⟨l, ps', hscan, hopen', hend, hlength⟩ := ih h
      obtain ⟨t, rest, ht, htype₁, hcases⟩ := next_some hnext
      refine ⟨(t, type₁) :: l, ps', ?_, hopen', hend, .inr ?_⟩
      · rcases hcases with ⟨hrest, rfl⟩ | ⟨hopen, hrest, rfl⟩
        · exact .token hrest ht htype₁ hscan
        · exact .close hopen hrest ht htype₁ hscan
      · rw [encoded_cons, ← List.append_assoc]
        rcases hlength with rfl | hlength
        · rw [show encoded [] = [] from rfl, List.append_nil]
          exact Nat.lt_of_add_lt_add_left hroom
        · exact hlength
      · cases h

/-! ## The string of a run -/

variable {l : List (List UInt8 × ℕ)}

theorem Scan.types (h : Scan table ps l ps') :
    ∀ p ∈ l, ReturnDescriptor (Valid table) p.1 ∧ TypeOf table p.1 p.2 := by
  induction h with
  | nil => exact nofun
  | token _ ht htype _ ih =>
    intro p hp
    rcases List.mem_cons.mp hp with rfl | hp
    · exact ⟨ht, htype⟩
    · exact ih p hp
  | close _ _ ht htype _ ih =>
    intro p hp
    rcases List.mem_cons.mp hp with rfl | hp
    · exact ⟨ht, htype⟩
    · exact ih p hp

theorem Scan.isMethodSignature
    (h : Scan table ps l ps') : ps'.isMethodSignature = ps.isMethodSignature := by
  induction h with
  | nil => rfl
  | token _ _ _ _ ih => exact ih
  | close _ _ _ _ _ ih => exact ih

theorem Scan.tokenCount (h : Scan table ps l ps') : ps'.tokenCount = ps.tokenCount + l.length := by
  induction h with
  | nil => rfl
  | @token _ _ _ _ _ l _ _ _ _ ih | @close _ _ _ _ _ l _ _ _ _ _ ih =>
    rw [ih, List.length_cons, Nat.add_comm l.length, ← Nat.add_assoc]
    rfl

theorem Scan.closed (h : Scan table ps l ps') (hclosed : ps.closeParenPosition ≠ -1) :
    ps.rest = (strings l).flatten ++ ps'.rest ∧ ps'.closeParenPosition = ps.closeParenPosition ∧
      ps'.parameterWordCount = ps.parameterWordCount := by
  induction h with
  | nil => exact ⟨rfl, rfl, rfl⟩
  | token hrest _ _ _ ih =>
    obtain ⟨htail, hposition, hwords⟩ := ih hclosed
    refine ⟨?_, hposition, hwords⟩
    rw [hrest, strings_flatten_cons, List.append_assoc, ← htail]
    rfl
  | close hopen => exact absurd hopen hclosed

theorem Scan.open (h : Scan table ps l ps') (hopen : ps.closeParenPosition = -1) :
    (ps.rest = (strings l).flatten ++ ps'.rest ∧ ps'.closeParenPosition = -1) ∨
      ∃ l₁ p l₂, l = l₁ ++ p :: l₂ ∧
        ps.rest = (strings l₁).flatten ++ byte ')' :: (p.1 ++ ((strings l₂).flatten ++ ps'.rest)) ∧
        ps'.closeParenPosition = (ps.tokenCount + l₁.length : ℕ) ∧
        ps'.parameterWordCount = ps.tokenWordCount + wordSizes (strings l₁) := by
  induction h with
  | nil => exact .inl ⟨rfl, hopen⟩
  | @token ps ps' t rest type l hrest _ _ _ ih =>
    rcases ih hopen with ⟨htail, hopen'⟩ | ⟨l₁, p, l₂, rfl, htail, hposition, hwords⟩
    · refine .inl ⟨?_, hopen'⟩
      rw [hrest, strings_flatten_cons, List.append_assoc, ← htail]
      rfl
    · refine .inr ⟨(t, type) :: l₁, p, l₂, rfl, ?_, ?_, ?_⟩
      · rw [hrest, strings_flatten_cons, List.append_assoc, ← htail]
        rfl
      · rw [hposition, List.length_cons]
        show ((ps.tokenCount + 1 + l₁.length : ℕ) : ℤ) = _
        congr 1
        omega
      · rw [hwords]
        show ps.tokenWordCount + wordSize t + _ = ps.tokenWordCount + (wordSize t + _)
        rw [Nat.add_assoc]
        rfl
  | @close ps ps' t rest type l _ hrest _ _ hscan _ =>
    obtain ⟨htail, hposition, hwords⟩ := hscan.closed (by
      show ((ps.tokenCount : ℕ) : ℤ) ≠ -1
      omega)
    refine .inr ⟨[], (t, type), l, rfl, ?_, ?_, ?_⟩
    · rw [hrest]
      show byte ')' :: (t ++ rest) = byte ')' :: (t ++ _)
      rw [← htail]
      rfl
    · rw [hposition]
      rfl
    · rw [hwords]
      rfl

/-! ## What is accepted -/

theorem length_encoded (h : ∀ p ∈ l, TypeOf table p.1 p.2) :
    (encoded l).length = encodedSizes (strings l) := by
  induction l with
  | nil => rfl
  | cons p l ih =>
    rw [encoded_cons, List.length_append, ih fun q hq => h q (List.mem_cons_of_mem p hq),
      (h p List.mem_cons_self).length_putType]
    rfl

theorem strings_append (l l' : List (List UInt8 × ℕ)) :
    strings (l ++ l') = strings l ++ strings l' :=
  List.map_append

theorem encoded_append (l l' : List (List UInt8 × ℕ)) :
    encoded (l ++ l') = encoded l ++ encoded l' := by
  unfold encoded
  rw [List.map_append, List.flatten_append]

theorem lastType_concat (type : ℕ) (l : List (List UInt8 × ℕ)) (p : List UInt8 × ℕ) :
    lastType type (l ++ [p]) = p.2 := by
  induction l generalizing type with
  | nil => rfl
  | cons q l ih => exact ih q.2

/-- The start of the stream: behind the open parenthesis of a method. -/
theorem init_cases (input : List UInt8) (hlength : 2 ≤ input.length) :
    (∃ tail, input = byte '(' :: tail ∧ ParseStream.init input =
          if 3 ≤ input.length then .ok ⟨tail, true, 0, 0, 0, -1⟩ else .error .classFormatError) ∨
      input.head? ≠ some (byte '(') ∧ ParseStream.init input = .ok ⟨input, false, 0, 0, 0, -1⟩ := by
  unfold ParseStream.init
  simp only
  by_cases hhead : input.head? = some (byte '(')
  · obtain ⟨tail, rfl⟩ := List.head?_eq_some_iff.mp hhead
    exact .inl ⟨tail, rfl, if_pos hhead⟩
  · exact .inr ⟨hhead, if_neg hhead⟩

variable {input : List UInt8}

/-- The body of `internal_parse` for strings of at least two bytes. -/
theorem internalParse_eq (hlength : 2 ≤ input.length) : internalParse table input =
      match ParseStream.init input with
      | .error e => .error e
      | .ok ps =>
        match parseLoop table 513 ps [] 0 with
        | .error e => .error e
        | .ok (ps, out, lastType) =>
          if ps.isMethodSignature then
            if ps.isValidMethodSignature ∧ ps.parameterWordCount ≤ 255 then
              .ok ⟨putEncodedUshort (encodeUshort ps.parameterWordCount) ++ putType lastType ++
                out.take (out.length - (putType lastType).length), true⟩
            else .error .classFormatError
          else if ps.tokenCount = 1 ∧ lastType ≠ (byte 'V').toNat then .ok ⟨out, false⟩
          else .error .classFormatError := by
  match input, hlength with
  | _ :: _ :: _, _ => rfl

variable {symbol : List UInt8}

theorem internalParse_singleton {isMethod : Bool}
    (hlength : input.length < 2) (h : internalParse table input = .ok ⟨symbol, isMethod⟩) :
    ∃ c, input = [c] ∧ isSimpleTypeSymbol c = true ∧ symbol = [c] ∧ isMethod = false := by
  match input, hlength with
  | [], _ => cases h
  | [c], _ =>
    unfold internalParse at h
    simp only at h
    split_ifs at h with hc
    cases h
    exact ⟨c, rfl, hc, rfl, rfl⟩

/-- The form of an accepted method string: `V` may be a parameter. -/
theorem internalParse_method (h : internalParse table input = .ok ⟨symbol, true⟩) :
    ∃ l p, input = methodString (strings l) p.1 ∧
      (∀ q ∈ l ++ [p], ReturnDescriptor (Valid table) q.1 ∧ TypeOf table q.1 q.2) ∧
      wordSizes (strings l) ≤ 255 ∧ encodedSizes (strings (l ++ [p])) < 512 ∧
      symbol = putEncodedUshort (encodeUshort (wordSizes (strings l))) ++ putType p.2 ++ encoded l := by
  by_cases hlength : 2 ≤ input.length
  · rw [internalParse_eq hlength] at h
    rcases init_cases input hlength with ⟨tail, rfl, hinit⟩ | ⟨-, hinit⟩
    · rw [hinit] at h
      split_ifs at h with hthree
      simp only at h
      split at h
      · cases h
      · next ps out type hloop =>
        obtain ⟨l, hscan, hend, hout, htype, hsize⟩ := parseLoop_ok hloop
        have hcount := hscan.tokenCount
        have hmethod : ps.isMethodSignature = true := hscan.isMethodSignature
        rw [hmethod, if_pos rfl] at h
        split_ifs at h with hvalid
        obtain ⟨hvalid, hwords⟩ := hvalid
        have hposition : (ps.tokenCount : ℤ) = ps.closeParenPosition + 1 := by
          simpa [isValidMethodSignature] using hvalid
        rcases hscan.open rfl with ⟨htail, hopen⟩ | ⟨l₁, p, l₂, rfl, htail, hclosed, hparameters⟩
        · -- without a close parenthesis, there is no token
          rw [hopen] at hposition
          have hnil : l = [] := List.eq_nil_of_length_eq_zero (by simp only at hcount; omega)
          rw [hnil, hend] at htail
          simp only at htail
          rw [htail] at hthree
          simp [strings] at hthree
        · have hnil : l₂ = [] := by
            refine List.eq_nil_of_length_eq_zero ?_
            rw [List.length_append, List.length_cons] at hcount
            simp only at hcount hclosed
            omega
          subst hnil
          rw [hend] at htail
          simp only at htail hparameters
          rw [show (strings ([] : List (List UInt8 × ℕ))).flatten ++ [] = [] from rfl,
            List.append_nil] at htail
          rw [Nat.zero_add] at hparameters
          rw [lastType_concat] at htype
          rw [List.nil_append, encoded_append] at hout
          refine ⟨l₁, p, ?_, hscan.types, hparameters ▸ hwords, ?_, ?_⟩
          · rw [htail]
            rfl
          · rw [← length_encoded fun q hq => (hscan.types q hq).2, encoded_append, ← hout]
            exact hsize.resolve_left (by simp)
          · cases h
            have hput : encoded [p] = putType p.2 := List.append_nil _
            rw [hparameters, htype, hout, hput, List.length_append, Nat.add_sub_cancel,
              List.take_left]
    · rw [hinit] at h
      simp only at h
      split at h
      · cases h
      · next ps out type hloop =>
        obtain ⟨l, hscan, -⟩ := parseLoop_ok hloop
        have hfield : ps.isMethodSignature = false := hscan.isMethodSignature
        rw [hfield, if_neg (by decide)] at h
        split_ifs at h
        all_goals cases h
  · obtain ⟨c, -, -, -, hfalse⟩ := internalParse_singleton (by omega) h
    cases hfalse

/-- The form of an accepted field string: it may follow a close parenthesis. -/
theorem internalParse_field (h : internalParse table input = .ok ⟨symbol, false⟩) :
    ∃ t type, (input = t ∨ input = byte ')' :: t) ∧ FieldDescriptor (Valid table) t ∧
      TypeOf table t type ∧ symbol = putType type := by
  by_cases hlength : 2 ≤ input.length
  · rw [internalParse_eq hlength] at h
    rcases init_cases input hlength with ⟨tail, rfl, hinit⟩ | ⟨-, hinit⟩
    · rw [hinit] at h
      split_ifs at h with hthree
      simp only at h
      split at h
      · cases h
      · next ps out type hloop =>
        obtain ⟨l, hscan, -⟩ := parseLoop_ok hloop
        have hmethod : ps.isMethodSignature = true := hscan.isMethodSignature
        rw [hmethod, if_pos rfl] at h
        split_ifs at h
        all_goals cases h
    · rw [hinit] at h
      simp only at h
      split at h
      · cases h
      · next ps out type hloop =>
        obtain ⟨l, hscan, hend, hout, htype, hsize⟩ := parseLoop_ok hloop
        have hcount := hscan.tokenCount
        have hfield : ps.isMethodSignature = false := hscan.isMethodSignature
        rw [hfield, if_neg (by decide)] at h
        split_ifs at h with hone
        obtain ⟨hone, hvoid⟩ := hone
        cases h
        obtain ⟨p, rfl⟩ : ∃ p, l = [p] := List.length_eq_one_iff.mp (by simp only at hcount; omega)
        obtain ⟨ht, htypeOf⟩ := hscan.types p List.mem_cons_self
        have hdescriptor : FieldDescriptor (Valid table) p.1 := by
          refine ht.resolve_left fun hv => hvoid ?_
          rw [htype]
          exact htypeOf.void_iff.mpr hv
        refine ⟨p.1, p.2, ?_, hdescriptor, htypeOf, ?_⟩
        · rcases hscan.open rfl with ⟨htail, -⟩ | ⟨l₁, q, l₂, hl, htail, -⟩
          · rw [hend] at htail
            refine .inl (htail.trans ?_)
            simp [strings]
          · have hlengths := congrArg List.length hl
            simp only [List.length_append, List.length_cons, List.length_nil] at hlengths
            obtain rfl : l₁ = [] := List.eq_nil_of_length_eq_zero (by omega)
            obtain rfl : l₂ = [] := List.eq_nil_of_length_eq_zero (by omega)
            cases hl
            rw [hend] at htail
            refine .inr (htail.trans ?_)
            simp [strings]
        · rw [hout, List.nil_append]
          exact List.append_nil _
  · obtain ⟨c, rfl, hc, rfl, -⟩ := internalParse_singleton (by omega) h
    refine ⟨[c], c.toNat, .inl rfl, ⟨0, by omega, .simple hc⟩, .basic (.inr hc), ?_⟩
    unfold putType
    rw [if_pos (isSimpleTypeSymbol_lt (.inr hc)), Nat.toUInt8_eq, UInt8.ofNat_toNat]

/-- The form of a string that is read past its end. -/
theorem internalParse_outside (h : internalParse table input = .error .outside) :
    ∃ ts, ts ≠ [] ∧ (∀ t ∈ ts, ReturnDescriptor (Valid table) t) ∧ encodedSizes ts < 512 ∧
      (input = byte '(' :: (ts.flatten ++ [byte ')']) ∨ input = ts.flatten ++ [byte ')']) := by
  have hstart : ∃ tail isMethod, 2 ≤ tail.length ∧ (input = byte '(' :: tail ∨ input = tail) ∧
      parseLoop table 513 ⟨tail, isMethod, 0, 0, 0, -1⟩ [] 0 = .error .outside := by
    have hlength : 2 ≤ input.length := by
      by_contra hshort
      match input with
      | [] => cases h
      | [c] =>
        unfold internalParse at h
        simp only at h
        split_ifs at h
        all_goals cases h
      | _ :: _ :: _ => simp at hshort
    rw [internalParse_eq hlength] at h
    rcases init_cases input hlength with ⟨tail, rfl, hinit⟩ | ⟨-, hinit⟩
    · rw [hinit] at h
      split_ifs at h with hthree
      · simp only at h
        refine ⟨tail, true, by simpa using hthree, .inl rfl, ?_⟩
        split at h
        · next hloop =>
          cases h
          exact hloop
        · split_ifs at h
          all_goals cases h
      · cases h
    · rw [hinit] at h
      simp only at h
      refine ⟨input, false, hlength, .inr rfl, ?_⟩
      split at h
      · next hloop =>
        cases h
        exact hloop
      · split_ifs at h
        all_goals cases h
  obtain ⟨tail, isMethod, htwo, hinput, hloop⟩ := hstart
  obtain ⟨l, ps', hscan, hopen', hend, hsize⟩ := parseLoop_outside hloop
  have hrest : tail = (strings l).flatten ++ [byte ')'] := by
    rcases hscan.open rfl with ⟨htail, -⟩ | ⟨l₁, p, l₂, -, -, hclosed, -⟩
    · rw [hend] at htail
      exact htail
    · rw [hclosed] at hopen'
      omega
  have hne : l ≠ [] := by
    rintro rfl
    rw [hrest] at htwo
    simp [strings] at htwo
  refine ⟨strings l, fun hnil => hne (List.map_eq_nil_iff.mp hnil), ?_, ?_, ?_⟩
  · intro t ht
    obtain ⟨p, hp, rfl⟩ := List.mem_map.mp ht
    exact (hscan.types p hp).1
  · rw [← length_encoded fun p hp => (hscan.types p hp).2]
    exact hsize.resolve_left hne
  · rw [← hrest]
    exact hinput

/-! ## What must be accepted -/

/-- The stream behind a list of types. -/
def ParseStream.afterAll (ps : ParseStream) (ts : List (List UInt8)) (rest : List UInt8) :
    ParseStream :=
  { ps with
    rest := rest
    tokenCount := ps.tokenCount + ts.length
    tokenWordCount := ps.tokenWordCount + wordSizes ts }

theorem afterAll_cons (ps : ParseStream) (t : List UInt8) (ts : List (List UInt8))
    (mid rest : List UInt8) : (ps.after t mid).afterAll ts rest = ps.afterAll (t :: ts) rest := by
  unfold ParseStream.after ParseStream.afterAll wordSizes
  simp only [List.length_cons, List.map_cons, List.sum_cons]
  congr 1
  · omega
  · omega

theorem next_token {rest : List UInt8} (ps : ParseStream)
    (ht : ReturnDescriptor (Valid table) t) (hrest : ps.rest = t ++ rest) :
    ps.next table = .error .pending ∨
      ∃ type, ps.next table = .ok (some type, ps.after t rest) ∧ TypeOf table t type := by
  obtain ⟨c, tail, rfl, hc, -⟩ := ht.exists_cons
  have hnext : ps.next table = (nextToken table c { ps with rest := tail ++ rest }).map fun found =>
        (some found.1, found.2) := by
    unfold ParseStream.next
    rw [hrest]
    exact if_neg hc
  rw [hnext]
  rcases nextToken_token { ps with rest := tail ++ rest } ht rfl with
    hpending | ⟨type, htype⟩
  · rw [hpending]
    exact .inl rfl
  · obtain ⟨t', ht', hdescriptor, htypeOf, -⟩ := nextToken_ok htype
    obtain ⟨rfl, -, -⟩ := ht.unique hdescriptor ht'
    rw [htype]
    exact .inr ⟨type, rfl, htypeOf⟩

theorem next_close {t : List UInt8} (ps : ParseStream) (rest : List UInt8)
    (ht : ReturnDescriptor (Valid table) t) (hopen : ps.closeParenPosition = -1)
    (hrest : ps.rest = byte ')' :: (t ++ rest)) : ps.next table = .error .pending ∨
      ∃ type, ps.next table = .ok (some type, ps.close.after t rest) ∧ TypeOf table t type := by
  obtain ⟨c, tail, rfl, hc, -⟩ := ht.exists_cons
  have hnext : ps.next table =
      (nextToken table c { ps.close with rest := tail ++ rest }).map fun found =>
        (some found.1, found.2) := by
    unfold ParseStream.next
    rw [hrest]
    simp only [List.cons_append]
    rw [if_pos trivial, if_pos hopen]
    rfl
  rw [hnext]
  rcases nextToken_token { ps.close with rest := tail ++ rest } ht rfl with
    hpending | ⟨type, htype⟩
  · rw [hpending]
    exact .inl rfl
  · obtain ⟨t', ht', hdescriptor, htypeOf, -⟩ := nextToken_ok htype
    obtain ⟨rfl, -, -⟩ := ht.unique hdescriptor ht'
    rw [htype]
    exact .inr ⟨type, rfl, htypeOf⟩

theorem parseLoop_next (fuel : ℕ) {type' : ℕ}
    (hnext : ps.next table = .ok (some type', ps')) (htype : TypeOf table t type')
    (hroom : out.length + encodedSize t < 512) :
    parseLoop table (fuel + 1) ps out type = parseLoop table fuel ps' (out ++ putType type') type' := by
  have hlength := htype.length_putType
  rw [parseLoop]
  simp only [hnext]
  rw [if_pos (by rw [List.length_append]; omega)]

theorem parseLoop_pending (hnext : ps.next table = .error .pending) :
    parseLoop table (fuel + 1) ps out type = .error .pending := by
  rw [parseLoop]
  simp only [hnext]

/-- **Run lemma**: a list of types for which there is room is read. -/
theorem parseLoop_types {ts : List (List UInt8)} (fuel type : ℕ) (ps : ParseStream)
    (rest out : List UInt8) (ht : ∀ t ∈ ts, ReturnDescriptor (Valid table) t)
    (hrest : ps.rest = ts.flatten ++ rest) (hroom : out.length + encodedSizes ts < 512) :
    parseLoop table (fuel + ts.length) ps out type = .error .pending ∨
      ∃ out' type', out'.length = out.length + encodedSizes ts ∧
        parseLoop table (fuel + ts.length) ps out type =
          parseLoop table fuel (ps.afterAll ts rest) out' type' := by
  induction ts generalizing ps out type with
  | nil =>
    refine .inr ⟨out, type, rfl, ?_⟩
    have hsame : ps.afterAll [] rest = ps := by
      unfold ParseStream.afterAll
      rw [show rest = ps.rest from hrest.symm]
      rfl
    rw [hsame]
    rfl
  | cons t ts ih =>
    have hsizes : encodedSizes (t :: ts) = encodedSize t + encodedSizes ts := rfl
    rw [List.flatten_cons, List.append_assoc] at hrest
    rw [hsizes] at hroom
    rw [List.length_cons, ← Nat.add_assoc]
    rcases next_token ps (ht t List.mem_cons_self) hrest with hpending | ⟨type', hnext, htype⟩
    · exact .inl (parseLoop_pending hpending)
    · have hlength := htype.length_putType
      rw [parseLoop_next _ hnext htype (by omega)]
      rcases ih type' (ps.after t (ts.flatten ++ rest)) (out ++ putType type')
        (fun t ht' => ht t (List.mem_cons_of_mem _ ht')) rfl
        (by rw [List.length_append]; omega) with hpending | ⟨out', type'', hout, hloop⟩
      · exact .inl hpending
      · refine .inr ⟨out', type'', ?_, ?_⟩
        · rw [hout, List.length_append, hsizes]
          omega
        · rw [hloop, afterAll_cons]

theorem length_le_encodedSizes (ts : List (List UInt8)) : ts.length ≤ encodedSizes ts := by
  induction ts with
  | nil => exact le_rfl
  | cons t ts ih =>
    have hsizes : encodedSizes (t :: ts) = encodedSize t + encodedSizes ts := rfl
    have hpos : 1 ≤ encodedSize t := by
      unfold encodedSize
      split_ifs <;> omega
    rw [hsizes, List.length_cons]
    omega

theorem encodedSizes_append (ts ts' : List (List UInt8)) :
    encodedSizes (ts ++ ts') = encodedSizes ts + encodedSizes ts' := by
  unfold encodedSizes
  rw [List.map_append, List.sum_append]

theorem parseLoop_end (hend : ps.rest = []) :
    parseLoop table (fuel + 1) ps out type = .ok (ps, out, type) := by
  have hnext : ps.next table = .ok (none, ps) := by
    unfold ParseStream.next
    rw [hend]
  rw [parseLoop]
  simp only [hnext]

/-- **Run lemma**: types, a close parenthesis and a type up to the end. -/
theorem parseLoop_closed {t : List UInt8} (ts : List (List UInt8)) (ps : ParseStream)
    (hts : ∀ t ∈ ts, ReturnDescriptor (Valid table) t) (ht : ReturnDescriptor (Valid table) t)
    (hopen : ps.closeParenPosition = -1) (hrest : ps.rest = ts.flatten ++ byte ')' :: t)
    (hroom : encodedSizes (ts ++ [t]) < 512) :
    parseLoop table 513 ps [] 0 = .error .pending ∨ ∃ out type, parseLoop table 513 ps [] 0 =
          .ok ((ps.afterAll ts (byte ')' :: t)).close.after t [], out, type) ∧
        TypeOf table t type := by
  rw [encodedSizes_append] at hroom
  have hsingle : encodedSizes [t] = encodedSize t := Nat.add_zero _
  have hpos := length_le_encodedSizes [t]
  have hlength := length_le_encodedSizes ts
  rw [hsingle, List.length_singleton] at hpos
  obtain ⟨fuel, hfuel⟩ : ∃ fuel, 513 = (fuel + 1 + 1) + ts.length :=
    ⟨511 - ts.length, by omega⟩
  rw [hfuel]
  rcases parseLoop_types (fuel + 1 + 1) 0 ps _ [] hts hrest
    (by rw [List.length_nil]; omega) with hpending | ⟨out', type', hout, hloop⟩
  · exact .inl hpending
  · rw [hloop]
    rcases next_close (ps.afterAll ts (byte ')' :: t)) [] ht hopen (by
      rw [List.append_nil]
      rfl) with hpending | ⟨type, hnext, htype⟩
    · exact .inl (parseLoop_pending hpending)
    · rw [parseLoop_next _ hnext htype (by rw [hout, List.length_nil]; omega), parseLoop_end rfl]
      exact .inr ⟨_, _, rfl, htype⟩

theorem internalParse_methodString {params : List (List UInt8)} {ret : List UInt8}
    (hparams : ∀ t ∈ params, ReturnDescriptor (Valid table) t)
    (hret : ReturnDescriptor (Valid table) ret) (hwords : wordSizes params ≤ 255)
    (hroom : encodedSizes (params ++ [ret]) < 512) :
    internalParse table (methodString params ret) = .error .pending ∨
      ∃ symbol, internalParse table (methodString params ret) = .ok ⟨symbol, true⟩ := by
  have hthree : 3 ≤ (methodString params ret).length := by
    have hne := List.length_pos_of_ne_nil hret.ne_nil
    unfold methodString
    rw [List.length_cons, List.length_append, List.length_cons]
    omega
  rw [internalParse_eq (by omega)]
  rcases init_cases (methodString params ret) (by omega) with ⟨tail, htail, hinit⟩ | ⟨hhead, -⟩
  · obtain rfl : _ = tail := (List.cons.inj htail).2
    rw [hinit, if_pos hthree]
    simp only
    rcases parseLoop_closed params ⟨_, true, 0, 0, 0, -1⟩ hparams hret rfl rfl hroom with
      hpending | ⟨out, type, hloop, htype⟩
    · rw [hpending]
      exact .inl rfl
    · generalize hps : ParseStream.after _ ret [] = ps at hloop
      have hmethod : ps.isMethodSignature = true := by
        rw [← hps]
        rfl
      have hvalid : ps.isValidMethodSignature = true ∧ ps.parameterWordCount ≤ 255 := by
        rw [← hps]
        refine ⟨?_, ?_⟩
        · unfold isValidMethodSignature
          rw [beq_iff_eq]
          show ((0 + params.length + 1 : ℕ) : ℤ) = ((0 + params.length : ℕ) : ℤ) + 1
          omega
        · show 0 + wordSizes params ≤ 255
          omega
      rw [hloop]
      simp only
      rw [if_pos hmethod, if_pos hvalid]
      exact .inr ⟨_, rfl⟩
  · exact absurd rfl hhead

/-- Every field type is accepted, also behind a close parenthesis. -/
theorem internalParse_fieldType {input t : List UInt8} (ht : FieldDescriptor (Valid table) t)
    (hinput : input = t ∨ input = byte ')' :: t) : internalParse table input = .error .pending ∨
      ∃ symbol, internalParse table input = .ok ⟨symbol, false⟩ := by
  have hreturn : ReturnDescriptor (Valid table) t := .inr ht
  obtain ⟨c, tail, hcons, -, hparen⟩ := hreturn.exists_cons
  have hvoid : t ≠ void := by
    obtain ⟨dimension, -, htype⟩ := ht
    obtain ⟨c', tail', rfl, hc'⟩ := htype.exists_cons
    exact fun hv => hc'.ne.2.2.1 (List.cons.inj hv).1
  have hsmall : encodedSizes [t] < 512 := by
    show encodedSize t + 0 < 512
    unfold encodedSize
    split_ifs <;> omega
  by_cases hlength : 2 ≤ input.length
  · have hloop : parseLoop table 513 ⟨input, false, 0, 0, 0, -1⟩ [] 0 = .error .pending ∨
        ∃ ps out type, parseLoop table 513 ⟨input, false, 0, 0, 0, -1⟩ [] 0 = .ok (ps, out, type) ∧
          ps.isMethodSignature = false ∧ ps.tokenCount = 1 ∧ TypeOf table t type := by
      rcases hinput with rfl | rfl
      · rcases next_token ⟨input, false, 0, 0, 0, -1⟩ hreturn
          (List.append_nil _).symm with hpending | ⟨type, hnext, htype⟩
        · exact .inl (parseLoop_pending hpending)
        · rw [parseLoop_next 512 hnext htype
            (by rw [List.length_nil, Nat.zero_add]; exact hsmall), parseLoop_end rfl]
          exact .inr ⟨_, _, _, rfl, rfl, rfl, htype⟩
      · rcases parseLoop_closed [] ⟨byte ')' :: t, false, 0, 0, 0, -1⟩ nofun hreturn
          rfl rfl hsmall with hpending | ⟨out, type, hloop, htype⟩
        · exact .inl hpending
        · exact .inr ⟨_, out, type, hloop, rfl, rfl, htype⟩
    rw [internalParse_eq hlength]
    rcases init_cases input hlength with ⟨tail', htail', -⟩ | ⟨-, hinit⟩
    · rcases hinput with rfl | rfl
      · rw [hcons] at htail'
        exact absurd (List.cons.inj htail').1 hparen
      · exact absurd (List.cons.inj htail').1 (by decide)
    · rw [hinit]
      simp only
      rcases hloop with hpending | ⟨ps, out, type, hloop, hfield, hone, htype⟩
      · rw [hpending]
        exact .inl rfl
      · rw [hloop]
        simp only
        rw [hfield, if_neg (by decide), if_pos ⟨hone, fun hv => hvoid (htype.void_iff.mp hv)⟩]
        exact .inr ⟨_, rfl⟩
  · rcases hinput with rfl | rfl
    · obtain ⟨dimension, -, htype⟩ := ht
      obtain rfl : tail = [] := List.eq_nil_of_length_eq_zero (by
        rw [hcons, List.length_cons] at hlength
        omega)
      subst hcons
      exact .inr ⟨[c], if_pos (htype.simple_of_singleton rfl)⟩
    · rw [hcons] at hlength
      simp at hlength

theorem internalParse_pastEnd {input : List UInt8} {ts : List (List UInt8)} (hne : ts ≠ [])
    (hts : ∀ t ∈ ts, ReturnDescriptor (Valid table) t) (hroom : encodedSizes ts < 512)
    (hinput : input = byte '(' :: (ts.flatten ++ [byte ')']) ∨ input = ts.flatten ++ [byte ')']) :
    internalParse table input = .error .pending ∨ internalParse table input = .error .outside := by
  obtain ⟨t, ts', rfl⟩ := List.exists_cons_of_ne_nil hne
  obtain ⟨c, tail, rfl, -, hparen⟩ := (hts t List.mem_cons_self).exists_cons
  have hloop : ∀ isMethod,
      parseLoop table 513 ⟨((c :: tail) :: ts').flatten ++ [byte ')'], isMethod, 0, 0, 0, -1⟩ [] 0 =
          .error .pending ∨
        parseLoop table 513 ⟨((c :: tail) :: ts').flatten ++ [byte ')'], isMethod, 0, 0, 0, -1⟩ [] 0 =
          .error .outside := by
    intro isMethod
    have hlength := length_le_encodedSizes ((c :: tail) :: ts')
    obtain ⟨fuel, hfuel⟩ : ∃ fuel, 513 = (fuel + 1) + ((c :: tail) :: ts').length :=
      ⟨512 - ((c :: tail) :: ts').length, by omega⟩
    rw [hfuel]
    rcases parseLoop_types (fuel + 1) 0
      ⟨((c :: tail) :: ts').flatten ++ [byte ')'], isMethod, 0, 0, 0, -1⟩ [byte ')'] [] hts rfl
      (by rw [List.length_nil]; omega) with hpending | ⟨out', type', -, hloop⟩
    · exact .inl hpending
    · rw [hloop]
      exact .inr rfl
  have hlength : 2 ≤ (((c :: tail) :: ts').flatten ++ [byte ')']).length := by
    rw [List.length_append, List.flatten_cons, List.length_append, List.length_cons,
      List.length_singleton]
    omega
  rcases hinput with rfl | rfl
  · have hthree : 3 ≤ (byte '(' :: (((c :: tail) :: ts').flatten ++ [byte ')'])).length := by
      rw [List.length_cons]
      omega
    rw [internalParse_eq (by omega)]
    rcases init_cases (byte '(' :: (((c :: tail) :: ts').flatten ++ [byte ')'])) (by omega) with
      ⟨tail', htail', hinit⟩ | ⟨hhead, -⟩
    · obtain rfl : _ = tail' := (List.cons.inj htail').2
      rw [hinit, if_pos hthree]
      rcases hloop true with hpending | houtside
      · simp only [hpending]
        exact .inl trivial
      · simp only [houtside]
        exact .inr trivial
    · exact absurd rfl hhead
  · rw [internalParse_eq hlength]
    rcases init_cases _ hlength with ⟨tail', htail', -⟩ | ⟨-, hinit⟩
    · exact absurd (List.cons.inj htail').1 hparen
    · rw [hinit]
      rcases hloop false with hpending | houtside
      · simp only [hpending]
        exact .inl trivial
      · simp only [houtside]
        exact .inr trivial

end CldcVm.Handles
