import CldcVm.Handles.TypeSymbol

/-!
# The grammar of descriptors

The field and method descriptors of class files, over a set of class names, and
what the parser makes of one type: `nextToken_ok` says that a token it finds is
a type of the grammar, and `nextToken_token` that it finds every one.
-/

namespace CldcVm.Handles

open ParseStream

/-! ## The grammar -/

/-- A field type of the given dimension. After a bracket, there may be a size. -/
inductive FieldType (name : List UInt8 → Prop) : (dimension : ℕ) → List UInt8 → Prop
  | simple {c : UInt8} : isSimpleTypeSymbol c = true → FieldType name 0 [c]
  | object {n : List UInt8} :
      byte ';' ∉ n → name n → FieldType name 0 (byte 'L' :: (n ++ [byte ';']))
  | array {digits t : List UInt8} {dimension : ℕ} :
      (∀ c ∈ digits, isDigit c = true) → FieldType name dimension t →
      FieldType name (dimension + 1) (byte '[' :: (digits ++ t))

/-- A field descriptor: an array has at most 255 dimensions. -/
def FieldDescriptor (name : List UInt8 → Prop) (t : List UInt8) : Prop :=
  ∃ dimension ≤ 255, FieldType name dimension t

def void : List UInt8 := [byte 'V']

/-- A return descriptor, and what the parser takes for a type. -/
def ReturnDescriptor (name : List UInt8 → Prop) (t : List UInt8) : Prop :=
  t = void ∨ FieldDescriptor name t

/-- The words that a type takes, as the parser counts. -/
def wordSize (t : List UInt8) : ℕ := if t = [byte 'J'] ∨ t = [byte 'D'] then 2 else 1

def wordSizes (ts : List (List UInt8)) : ℕ := (ts.map wordSize).sum

/-- The bytes that a type takes in its encoded form. -/
def encodedSize (t : List UInt8) : ℕ := if t.length = 1 then 1 else 2

def encodedSizes (ts : List (List UInt8)) : ℕ := (ts.map encodedSize).sum

/-- The string of a method with the parameters and the return type. -/
def methodString (params : List (List UInt8)) (ret : List UInt8) : List UInt8 :=
  byte '(' :: (params.flatten ++ byte ')' :: ret)

/-- A method descriptor: the parameters are field types of at most 255 words. -/
def MethodDescriptor (name : List UInt8 → Prop) (s : List UInt8) : Prop :=
  ∃ params ret, s = methodString params ret ∧ (∀ t ∈ params, FieldDescriptor name t) ∧
    ReturnDescriptor name ret ∧ wordSizes params ≤ 255

variable {name name' : List UInt8 → Prop} {dimension : ℕ} {t t' r r' : List UInt8}

theorem FieldType.mono (h : FieldType name dimension t) (hname : ∀ n, name n → name' n) :
    FieldType name' dimension t := by
  induction h with
  | simple hc => exact .simple hc
  | object hn h => exact .object hn (hname _ h)
  | array hdigits _ ih => exact .array hdigits ih

theorem ReturnDescriptor.mono (h : ReturnDescriptor name t) (hname : ∀ n, name n → name' n) :
    ReturnDescriptor name' t :=
  h.imp_right fun ⟨dimension, hle, ht⟩ => ⟨dimension, hle, ht.mono hname⟩

/-! ## Types are told apart by their prefixes -/

/-- The first byte of a field type. -/
def StartsType (c : UInt8) : Prop :=
  isSimpleTypeSymbol c = true ∨ c = byte 'L' ∨ c = byte '['

theorem FieldType.exists_cons (h : FieldType name dimension t) :
    ∃ c rest, t = c :: rest ∧ StartsType c := by
  cases h with
  | simple hc => exact ⟨_, _, rfl, .inl hc⟩
  | object => exact ⟨_, _, rfl, .inr (.inl rfl)⟩
  | array => exact ⟨_, _, rfl, .inr (.inr rfl)⟩

variable {c : UInt8}

theorem isSimpleTypeSymbol_cases (h : isSimpleTypeSymbol c = true) :
    c = byte 'Z' ∨ c = byte 'C' ∨ c = byte 'F' ∨ c = byte 'D' ∨ c = byte 'B' ∨ c = byte 'S' ∨
      c = byte 'I' ∨ c = byte 'J' := by
  unfold isSimpleTypeSymbol simpleTypeSymbolTable at h
  split_ifs at h <;> simp_all

theorem StartsType.ne (h : StartsType c) :
    c ≠ byte ')' ∧ c ≠ byte '(' ∧ c ≠ byte 'V' ∧ isDigit c = false := by
  rcases h with h | rfl | rfl
  · rcases isSimpleTypeSymbol_cases h with rfl | rfl | rfl | rfl | rfl | rfl | rfl | rfl <;> decide
  · decide
  · decide

theorem FieldType.simple_of_singleton (h : FieldType name dimension t) (ht : t = [c]) :
    isSimpleTypeSymbol c = true := by
  cases h with
  | simple hc =>
    cases ht
    exact hc
  | object => simp at ht
  | array _ hrest =>
    obtain ⟨c', tail, rfl, -⟩ := hrest.exists_cons
    simp at ht

theorem dropWhile_digits {digits : List UInt8} (hdigits : ∀ c ∈ digits, isDigit c = true)
    (h : FieldType name dimension t) : skipOptionalSize (digits ++ t ++ r) = t ++ r := by
  obtain ⟨c, rest, rfl, hc⟩ := h.exists_cons
  unfold skipOptionalSize
  rw [List.append_assoc, List.dropWhile_append_of_pos hdigits, List.cons_append,
    List.dropWhile_cons_of_neg (by rw [hc.ne.2.2.2]; decide)]

variable {n : List UInt8}

theorem scanClassName_eq_some_iff {bytes rest : List UInt8} :
    scanClassName bytes = some (n, rest) ↔ bytes = n ++ byte ';' :: rest ∧ byte ';' ∉ n := by
  induction bytes generalizing n with
  | nil =>
    refine iff_of_false nofun fun h => ?_
    cases n <;> cases h.1
  | cons c bytes ih =>
    unfold scanClassName
    split_ifs with hc
    · subst hc
      constructor
      · intro h
        cases h
        exact ⟨rfl, List.not_mem_nil⟩
      · rintro ⟨heq, hn⟩
        cases n with
        | nil =>
          cases heq
          rfl
        | cons c' n =>
          cases heq
          exact absurd List.mem_cons_self hn
    · rw [Option.map_eq_some_iff]
      constructor
      · rintro ⟨⟨n', rest'⟩, hscan, heq⟩
        cases heq
        obtain ⟨rfl, hn'⟩ := ih.mp hscan
        exact ⟨rfl, by simpa using ⟨fun h => hc h.symm, hn'⟩⟩
      · rintro ⟨heq, hn⟩
        cases n with
        | nil =>
          cases heq
          exact absurd rfl hc
        | cons c' n =>
          cases heq
          exact ⟨(n, rest), ih.mpr ⟨rfl, fun h => hn (List.mem_cons_of_mem _ h)⟩, rfl⟩

theorem scanClassName_append (hn : byte ';' ∉ n) (rest : List UInt8) :
    scanClassName (n ++ [byte ';'] ++ rest) = some (n, rest) :=
  scanClassName_eq_some_iff.mpr ⟨List.append_assoc _ _ _, hn⟩

/-- **Unique parsing**: a string starts with at most one field type. -/
theorem FieldType.unique {dimension' : ℕ} (h : FieldType name dimension t)
    (h' : FieldType name' dimension' t') (heq : t ++ r = t' ++ r') :
    t = t' ∧ r = r' ∧ FieldType (fun n => name n ∧ name' n) dimension t := by
  induction h generalizing t' dimension' with
  | simple hc =>
    cases h' with
    | simple hc' =>
      cases heq
      exact ⟨rfl, rfl, .simple hc⟩
    | object | array =>
      cases heq
      exact absurd hc (by decide)
  | object hn hname =>
    cases h' with
    | simple hc' =>
      cases heq
      exact absurd hc' (by decide)
    | object hn' hname' =>
      rw [List.cons_append, List.cons_append] at heq
      have hscan := congrArg scanClassName (List.cons.inj heq).2
      rw [scanClassName_append hn, scanClassName_append hn'] at hscan
      obtain ⟨rfl, rfl⟩ := Prod.mk.inj (Option.some.inj hscan)
      exact ⟨rfl, rfl, .object hn ⟨hname, hname'⟩⟩
    | array => exact absurd (List.cons.inj heq).1 (by decide)
  | array hdigits ht ih =>
    cases h' with
    | simple hc' =>
      cases heq
      exact absurd hc' (by decide)
    | object => exact absurd (List.cons.inj heq).1 (by decide)
    | array hdigits' ht' =>
      rw [List.cons_append, List.cons_append] at heq
      have hrest := (List.cons.inj heq).2
      have hskip := congrArg skipOptionalSize hrest
      rw [dropWhile_digits hdigits ht, dropWhile_digits hdigits' ht'] at hskip
      obtain ⟨rfl, rfl, hboth⟩ := ih ht' hskip
      rw [List.append_assoc, List.append_assoc] at hrest
      obtain rfl := List.append_cancel_right hrest
      exact ⟨rfl, rfl, .array hdigits hboth⟩

theorem ReturnDescriptor.unique (h : ReturnDescriptor name t) (h' : ReturnDescriptor name' t')
    (heq : t ++ r = t' ++ r') :
    t = t' ∧ r = r' ∧ ReturnDescriptor (fun n => name n ∧ name' n) t := by
  rcases h with rfl | ⟨dimension, hle, ht⟩ <;> rcases h' with rfl | ⟨dimension', hle', ht'⟩
  · exact ⟨rfl, List.append_cancel_left heq, .inl rfl⟩
  · obtain ⟨c, rest, rfl, hc⟩ := ht'.exists_cons
    exact absurd (List.cons.inj heq).1.symm hc.ne.2.2.1
  · obtain ⟨c, rest, rfl, hc⟩ := ht.exists_cons
    exact absurd (List.cons.inj heq).1 hc.ne.2.2.1
  · obtain ⟨rfl, rfl, hboth⟩ := ht.unique ht' heq
    exact ⟨rfl, rfl, .inr ⟨dimension, hle, hboth⟩⟩

theorem ReturnDescriptor.ne_nil (h : ReturnDescriptor name t) : t ≠ [] := by
  rcases h with rfl | ⟨dimension, -, ht⟩
  · exact nofun
  · obtain ⟨c, rest, rfl, -⟩ := ht.exists_cons
    exact nofun

theorem ReturnDescriptor.exists_cons (h : ReturnDescriptor name t) :
    ∃ c rest, t = c :: rest ∧ c ≠ byte ')' ∧ c ≠ byte '(' := by
  rcases h with rfl | ⟨dimension, -, ht⟩
  · exact ⟨_, _, rfl, by decide⟩
  · obtain ⟨c, rest, rfl, hc⟩ := ht.exists_cons
    exact ⟨c, rest, rfl, hc.ne.1, hc.ne.2.1⟩

/-- A list of types before a parenthesis, or before the end, is unique. -/
theorem flatten_unique {ts ts' : List (List UInt8)} (h : ∀ t ∈ ts, ReturnDescriptor name t)
    (h' : ∀ t ∈ ts', ReturnDescriptor name' t) (hr : ∀ c rest, r = c :: rest → c = byte ')')
    (hr' : ∀ c rest, r' = c :: rest → c = byte ')') (heq : ts.flatten ++ r = ts'.flatten ++ r') :
    ts = ts' ∧ r = r' := by
  induction ts generalizing ts' with
  | nil =>
    cases ts' with
    | nil => exact ⟨rfl, heq⟩
    | cons t' ts' =>
      obtain ⟨c, rest, rfl, hc, -⟩ := (h' _ List.mem_cons_self).exists_cons
      exact absurd (hr c _ heq) hc
  | cons t ts ih =>
    cases ts' with
    | nil =>
      obtain ⟨c, rest, rfl, hc, -⟩ := (h _ List.mem_cons_self).exists_cons
      exact absurd (hr' c _ heq.symm) hc
    | cons t' ts' =>
      rw [List.flatten_cons, List.flatten_cons, List.append_assoc, List.append_assoc] at heq
      obtain ⟨rfl, hrest, -⟩ := (h t List.mem_cons_self).unique (h' t' List.mem_cons_self) heq
      obtain ⟨rfl, rfl⟩ := ih (fun t ht => h t (List.mem_cons_of_mem _ ht))
        (fun t ht => h' t (List.mem_cons_of_mem _ ht)) hrest
      exact ⟨rfl, rfl⟩

theorem methodString_unique {params params' : List (List UInt8)} {ret ret' : List UInt8}
    (h : ∀ t ∈ params, ReturnDescriptor name t) (h' : ∀ t ∈ params', ReturnDescriptor name' t)
    (heq : methodString params ret = methodString params' ret') :
    params = params' ∧ ret = ret' := by
  have hparen : ∀ (ret : List UInt8) (c : UInt8) (rest : List UInt8),
      byte ')' :: ret = c :: rest → c = byte ')' := fun ret c rest h => (List.cons.inj h).1.symm
  obtain ⟨rfl, hret⟩ := flatten_unique h h' (hparen ret) (hparen ret') (List.cons.inj heq).2
  exact ⟨rfl, (List.cons.inj hret).2⟩

/-! ## The types of the tokens -/

variable {table : ClassTable}

/-- The parser takes the name for a class name. -/
def Valid (table : ClassTable) (n : List UInt8) : Prop := isValidClassName table n = true

/-- The class id of a type after `dimension` brackets. -/
inductive ClassOf (table : ClassTable) : (dimension : ℕ) → List UInt8 → ℕ → Prop
  | simple {c : UInt8} {dimension id : ℕ} :
      dimension ≠ 0 → table.typeArray (simpleTypeSymbolTable c) dimension = some id →
      ClassOf table dimension [c] id
  | object {n : List UInt8} {id : ℕ} :
      table.semiResolve n = some id → ClassOf table 0 (byte 'L' :: (n ++ [byte ';'])) id
  | objectArray {n : List UInt8} {dimension classId id : ℕ} :
      dimension ≠ 0 → table.semiResolve n = some classId →
      table.instanceArray classId dimension = some id →
      ClassOf table dimension (byte 'L' :: (n ++ [byte ';'])) id
  | array {digits t : List UInt8} {dimension id : ℕ} :
      (∀ c ∈ digits, isDigit c = true) → ClassOf table (dimension + 1) t id →
      ClassOf table dimension (byte '[' :: (digits ++ t)) id

/-- What `next` returns for a type: a basic type stands for itself, and the other
ones for their class ids. -/
inductive TypeOf (table : ClassTable) : List UInt8 → ℕ → Prop
  | basic {c : UInt8} : c = byte 'V' ∨ isSimpleTypeSymbol c = true → TypeOf table [c] c.toNat
  | reference {t : List UInt8} {id : ℕ} : ClassOf table 0 t id → TypeOf table t (encodeUshort id)

theorem getClass_ok {bytes rest : List UInt8} {id : ℕ} (h : getClass table bytes = .ok (id, rest)) :
    ∃ n, bytes = n ++ [byte ';'] ++ rest ∧ byte ';' ∉ n ∧ Valid table n ∧
      table.semiResolve n = some id := by
  unfold getClass at h
  split at h
  · cases h
  · next n rest' hscan =>
    obtain ⟨rfl, hn⟩ := scanClassName_eq_some_iff.mp hscan
    split_ifs at h with hvalid
    split at h
    · cases h
    · next hresolve =>
      cases h
      refine ⟨n, ?_, hn, hvalid, hresolve⟩
      rw [List.append_assoc]
      rfl

/-- A name that is valid is found, unless its resolution fails. -/
theorem getClass_append (hn : byte ';' ∉ n) (hvalid : Valid table n) (rest : List UInt8) :
    getClass table (n ++ [byte ';'] ++ rest) = match table.semiResolve n with
      | none => .error .pending
      | some id => .ok (id, rest) := by
  unfold getClass
  rw [scanClassName_append hn]
  exact if_pos hvalid

theorem getClass_ne_outside (bytes : List UInt8) : getClass table bytes ≠ .error .outside := by
  unfold getClass
  split
  · exact nofun
  · split_ifs
    · split <;> exact nofun
    · exact nofun

theorem getArrayClass_ok {count : ℕ} {bytes rest : List UInt8} {id : ℕ} (hcount : count ≤ 255)
    (h : getArrayClass table count bytes = .ok (id, rest)) :
    ∃ digits t dimension, bytes = digits ++ t ++ rest ∧ (∀ c ∈ digits, isDigit c = true) ∧
      FieldType (Valid table) dimension t ∧ dimension < count ∧
      ClassOf table (256 - count) t id := by
  induction count generalizing bytes with
  | zero => cases h
  | succ count ih =>
    have hdimension : 256 - (count + 1) = 255 - count := by omega
    have hsplit := List.takeWhile_append_dropWhile (p := isDigit) (l := bytes)
    have hdigits : ∀ c ∈ bytes.takeWhile isDigit, isDigit c = true :=
      fun c hc => List.mem_takeWhile_imp hc
    rw [hdimension]
    unfold getArrayClass at h
    simp only at h
    split at h
    · cases h
    · next c rest' hskip =>
      rw [show bytes.dropWhile isDigit = c :: rest' from hskip] at hsplit
      split_ifs at h with hobject harray hsimple
      · subst hobject
        split at h
        · cases h
        · next hclass =>
          split at h
          · cases h
          · next hid =>
            cases h
            obtain ⟨n, rfl, hn, hvalid, hresolve⟩ := getClass_ok hclass
            refine ⟨_, byte 'L' :: (n ++ [byte ';']), 0, ?_, hdigits, .object hn hvalid, by omega,
              .objectArray (by omega) hresolve hid⟩
            rw [List.append_assoc]
            exact hsplit.symm
      · subst harray
        obtain ⟨digits, t, dimension, rfl, hinner, ht, hlt, hclass⟩ := ih (by omega) h
        refine ⟨_, byte '[' :: (digits ++ t), dimension + 1, ?_, hdigits, .array hinner ht, by omega,
          .array hinner ?_⟩
        · rw [List.append_assoc]
          exact hsplit.symm
        · rw [show 255 - count + 1 = 256 - count by omega]
          exact hclass
      · split at h
        · cases h
        · next hid =>
          cases h
          refine ⟨_, [c], 0, ?_, hdigits, .simple ?_, by omega, .simple (by omega) hid⟩
          · rw [List.append_assoc]
            exact hsplit.symm
          · simpa [isSimpleTypeSymbol] using hsimple

/-- An array type within the limit is found, unless a resolution fails. -/
theorem getArrayClass_append {count dimension : ℕ} {digits : List UInt8}
    (hdigits : ∀ c ∈ digits, isDigit c = true) (ht : FieldType (Valid table) dimension t)
    (hlt : dimension < count) (rest : List UInt8) :
    getArrayClass table count (digits ++ t ++ rest) = .error .pending ∨
      ∃ id, getArrayClass table count (digits ++ t ++ rest) = .ok (id, rest) := by
  induction ht generalizing count digits with
  | @simple c hc =>
    obtain ⟨count, rfl⟩ : ∃ k, count = k + 1 := ⟨count - 1, by omega⟩
    have hskip : skipOptionalSize (digits ++ [c] ++ rest) = c :: rest :=
      dropWhile_digits hdigits (FieldType.simple hc : FieldType (Valid table) 0 [c])
    have hsymbol : simpleTypeSymbolTable c ≠ 0 := by simpa [isSimpleTypeSymbol] using hc
    unfold getArrayClass
    simp only [hskip]
    rw [if_neg, if_neg, if_pos hsymbol]
    · cases table.typeArray _ (255 - count) with
      | none => exact .inl rfl
      | some id => exact .inr ⟨id, rfl⟩
    · rintro rfl
      exact absurd hc (by decide)
    · rintro rfl
      exact absurd hc (by decide)
  | object hn hvalid =>
    obtain ⟨count, rfl⟩ : ∃ k, count = k + 1 := ⟨count - 1, by omega⟩
    unfold getArrayClass
    simp only
    rw [dropWhile_digits hdigits (.object hn hvalid)]
    simp only [List.cons_append]
    rw [if_pos trivial, getClass_append hn hvalid]
    cases table.semiResolve _ with
    | none => exact .inl rfl
    | some classId =>
      simp only
      cases table.instanceArray classId (255 - count) with
      | none => exact .inl rfl
      | some id => exact .inr ⟨id, rfl⟩
  | array hinner ht ih =>
    obtain ⟨count, rfl⟩ : ∃ k, count = k + 1 := ⟨count - 1, by omega⟩
    unfold getArrayClass
    simp only
    rw [dropWhile_digits hdigits (.array hinner ht)]
    simp only [List.cons_append]
    rw [if_neg (by decide), if_pos trivial]
    exact ih hinner (by omega)

theorem getArrayClass_ne_outside (count : ℕ) (bytes : List UInt8) :
    getArrayClass table count bytes ≠ .error .outside := by
  induction count generalizing bytes with
  | zero => exact nofun
  | succ count ih =>
    unfold getArrayClass
    simp only
    split
    · exact nofun
    · next c rest _ =>
      split_ifs
      · split
        · next e he =>
          intro h
          cases h
          exact getClass_ne_outside _ he
        · split <;> exact nofun
      · exact ih rest
      · split <;> exact nofun
      · exact nofun

/-- The stream behind a token. -/
def ParseStream.after (ps : ParseStream) (t rest : List UInt8) : ParseStream :=
  { ps with
    rest := rest
    tokenCount := ps.tokenCount + 1
    tokenWordCount := ps.tokenWordCount + wordSize t }

theorem nextToken_ok {ps ps' : ParseStream} {type : ℕ}
    (h : nextToken table c ps = .ok (type, ps')) :
    ∃ t, c :: ps.rest = t ++ ps'.rest ∧ ReturnDescriptor (Valid table) t ∧ TypeOf table t type ∧
      ps' = ps.after t ps'.rest := by
  unfold nextToken at h
  simp only at h
  split_ifs at h with hbasic htwo hobject harray
  · cases h
    refine ⟨[c], rfl, ?_, .basic hbasic, ?_⟩
    · refine hbasic.imp (fun hv => by rw [hv, void]) fun hs => ⟨0, by omega, .simple hs⟩
    · have hsize : wordSize [c] = 2 := by
        unfold wordSize
        rw [if_pos (by simpa using htwo)]
      unfold ParseStream.after
      rw [hsize]
  · cases h
    refine ⟨[c], rfl, ?_, .basic hbasic, ?_⟩
    · refine hbasic.imp (fun hv => by rw [hv, void]) fun hs => ⟨0, by omega, .simple hs⟩
    · have hsize : wordSize [c] = 1 := by
        unfold wordSize
        rw [if_neg (by simpa using htwo)]
      unfold ParseStream.after
      rw [hsize]
  · subst hobject
    split at h
    · cases h
    · next id rest hclass =>
      cases h
      obtain ⟨n, hrest, hn, hvalid, hresolve⟩ := getClass_ok hclass
      refine ⟨byte 'L' :: (n ++ [byte ';']), by rw [hrest]; rfl, .inr ⟨0, by omega, .object hn hvalid⟩,
        .reference (.object hresolve), ?_⟩
      unfold ParseStream.after wordSize
      rw [if_neg (by simp [byte])]
  · subst harray
    split at h
    · cases h
    · next id rest hclass =>
      cases h
      obtain ⟨digits, t, dimension, hrest, hdigits, ht, hlt, hof⟩ := getArrayClass_ok le_rfl hclass
      refine ⟨byte '[' :: (digits ++ t), by rw [hrest]; rfl,
        .inr ⟨dimension + 1, by omega, .array hdigits ht⟩, .reference (.array hdigits hof), ?_⟩
      unfold ParseStream.after wordSize
      rw [if_neg (by simp [byte])]

theorem nextToken_ne_outside (c : UInt8) (ps : ParseStream) :
    nextToken table c ps ≠ .error .outside := by
  unfold nextToken
  simp only
  split_ifs
  · exact nofun
  · exact nofun
  · split
    · next e he =>
      intro h
      cases h
      exact getClass_ne_outside _ he
    · exact nofun
  · split
    · next e he =>
      intro h
      cases h
      exact getArrayClass_ne_outside _ _ he
    · exact nofun
  · exact nofun

theorem nextToken_basic (ps : ParseStream) (hc : c = byte 'V' ∨ isSimpleTypeSymbol c = true) :
    nextToken table c ps = .ok (c.toNat, ps.after [c] ps.rest) := by
  unfold nextToken ParseStream.after wordSize
  simp only
  rw [if_pos hc]
  split_ifs with htwo hsize hsize
  · rfl
  · exact absurd (by simpa using htwo) hsize
  · exact absurd (by simpa using hsize) htwo
  · rfl

theorem nextToken_token {rest : List UInt8} (ps : ParseStream)
    (ht : ReturnDescriptor (Valid table) t) (hrest : c :: ps.rest = t ++ rest) :
    nextToken table c ps = .error .pending ∨
      ∃ type, nextToken table c ps = .ok (type, ps.after t rest) := by
  rcases ht with rfl | ⟨dimension, hle, ht⟩
  · cases hrest
    exact .inr ⟨_, nextToken_basic ps (.inl rfl)⟩
  cases ht with
  | simple hc =>
    cases hrest
    exact .inr ⟨_, nextToken_basic ps (.inr hc)⟩
  | object hn hvalid =>
    rw [List.cons_append] at hrest
    obtain ⟨rfl, htail⟩ := List.cons.inj hrest
    unfold nextToken ParseStream.after wordSize
    simp only
    rw [if_neg (by decide), if_pos trivial, htail, getClass_append hn hvalid, if_neg (by simp [byte])]
    cases table.semiResolve _ with
    | none => exact .inl rfl
    | some id => exact .inr ⟨_, rfl⟩
  | array hdigits ht =>
    rw [List.cons_append] at hrest
    obtain ⟨rfl, htail⟩ := List.cons.inj hrest
    unfold nextToken ParseStream.after wordSize
    simp only
    rw [if_neg (by decide), if_neg (by decide), if_pos trivial, htail, if_neg (by simp [byte])]
    rcases getArrayClass_append hdigits ht (show _ < 255 by omega) rest with hpending | ⟨id, hid⟩
    · rw [hpending]
      exact .inl rfl
    · rw [hid]
      exact .inr ⟨_, rfl⟩

end CldcVm.Handles
