import CldcVm.Handles.InternalParse

/-!
# The parser and the grammar

Where `internal_parse` meets the grammar of descriptors, whatever the classes of
the VM are: on every string but those of `Flawed`.

Result: `meets_iff`.
-/

namespace CldcVm.Handles

open ParseStream

/-! ## Names -/

/-- Two bytes that may be the encoding of a class id. -/
def TypeCode (n : List UInt8) : Prop :=
  ∃ hibyte lobyte : UInt8, n = [hibyte, lobyte] ∧ 128 ≤ hibyte.toNat ∧ 128 ≤ lobyte.toNat

/-- A name that the parser takes for a class name, at least in some state of the
symbol table: it may be empty or end in a slash, or be an encoded class id. -/
def LooseName (n : List UInt8) : Prop :=
  n = [] ∨ (Ascii n ∧ QualifiedName true n) ∨ ClassName n ∨ TypeCode n

variable {table : ClassTable} {n : List UInt8}

theorem quick_simple {c : UInt8} (hc : isSimpleTypeSymbol c = true) :
    isClassIdentifierQuick [c] = true := by
  rcases isSimpleTypeSymbol_cases hc with rfl | rfl | rfl | rfl | rfl | rfl | rfl | rfl <;> rfl

theorem isValidFieldType_cases (h : isValidFieldType table n = true) :
    (∃ c, n = [c] ∧ isSimpleTypeSymbol c = true) ∨
      ∃ hibyte lobyte, n = [hibyte, lobyte] ∧ 128 ≤ hibyte.toNat ∧ 128 ≤ lobyte.toNat ∧
        table.isFieldType (decodeUshort hibyte lobyte) = true := by
  unfold isValidFieldType at h
  split at h
  · exact .inl ⟨_, rfl, h⟩
  · rw [Bool.and_eq_true, Bool.and_eq_true, decide_eq_true_eq, decide_eq_true_eq] at h
    exact .inr ⟨_, _, rfl, h.1.1, h.1.2, h.2⟩
  · cases h

theorem skipClassIdentifier_iff :
    (skipClassIdentifier n (n.length + 1) 0 == some n.length) = true ↔ ClassName n := by
  rw [beq_iff_eq, skipClassIdentifier_eq_length_iff (by omega) (Nat.zero_le _)]
  rfl

theorem valid_loose (h : Valid table n) : LooseName n := by
  unfold Valid isValidClassName at h
  split_ifs at h with hquick hfield hone
  · obtain ⟨hascii, hname⟩ := isClassIdentifierQuick_iff.mp hquick
    exact hname.imp_right fun hname => .inl ⟨hascii, hname⟩
  · rcases isValidFieldType_cases hfield with ⟨c, rfl, hc⟩ | ⟨hibyte, lobyte, rfl, -⟩
    · exact absurd (quick_simple hc) hquick
    · cases hone
  · rcases isValidFieldType_cases hfield with ⟨c, rfl, -⟩ | ⟨hibyte, lobyte, rfl, hhi, hlo, -⟩
    · exact absurd rfl hone
    · exact .inr (.inr (.inr ⟨hibyte, lobyte, rfl, hhi, hlo⟩))
  · exact .inr (.inr (.inl (skipClassIdentifier_iff.mp h)))

theorem valid_of_className (hname : ClassName n) (hcode : ¬TypeCode n) : Valid table n := by
  unfold Valid isValidClassName
  split_ifs with hquick hfield hone
  · rfl
  · rfl
  · rcases isValidFieldType_cases hfield with ⟨c, rfl, -⟩ | ⟨hibyte, lobyte, rfl, hhi, hlo, -⟩
    · exact absurd rfl hone
    · exact absurd ⟨hibyte, lobyte, rfl, hhi, hlo⟩ hcode
  · exact skipClassIdentifier_iff.mpr hname

theorem not_quick_typeCode (h : TypeCode n) : isClassIdentifierQuick n = false := by
  obtain ⟨hibyte, lobyte, rfl, hhi, -⟩ := h
  rw [Bool.eq_false_iff]
  intro hquick
  have hascii := (isClassIdentifierQuick_iff.mp hquick).1 hibyte List.mem_cons_self
  have : ¬hibyte.toNat > 127 := by simpa [suspicious] using (Bool.or_eq_false_iff.mp hascii).1
  omega

theorem valid_typeCode {hibyte lobyte : UInt8} (hhi : 128 ≤ hibyte.toNat) (hlo : 128 ≤ lobyte.toNat)
    (hfield : table.isFieldType (decodeUshort hibyte lobyte) = true) :
    Valid table [hibyte, lobyte] ↔ table.isInstanceClass (decodeUshort hibyte lobyte) = false := by
  have hvalid : isValidFieldType table [hibyte, lobyte] = true := by
    show (decide _ && decide _ && table.isFieldType (decodeUshort hibyte lobyte)) = true
    rw [hfield, decide_eq_true hhi, decide_eq_true hlo]
    rfl
  unfold Valid isValidClassName
  rw [if_neg (by rw [not_quick_typeCode ⟨hibyte, lobyte, rfl, hhi, hlo⟩]; decide), if_pos hvalid,
    if_neg (by simp)]
  show (!table.isInstanceClass (decodeUshort hibyte lobyte)) = true ↔ _
  rw [Bool.not_eq_eq_eq_not, Bool.not_true]

/-! ## Class tables -/

/-- Every code is a field type, and class `classId` is the only instance class. -/
def looseTable (classId : ℕ) (h : classId < 2 ^ 14) : ClassTable where
  semiResolve _ := some classId
  instanceArray _ _ := some (if classId = 0 then 1 else 0)
  typeArray _ _ := some (if classId = 0 then 1 else 0)
  isInstanceClass id := id == classId
  isFieldType _ := true
  semiResolve_instance := by
    rintro name id ⟨⟩
    exact Or.inl (beq_self_eq_true _)
  semiResolve_lt := by
    rintro name id ⟨⟩
    exact h
  instanceArray_lt := by
    rintro _ _ id ⟨⟩
    split_ifs <;> norm_num
  typeArray_lt := by
    rintro _ _ id ⟨⟩
    split_ifs <;> norm_num
  instanceArray_array := by
    rintro _ _ id ⟨⟩
    split_ifs <;> simp <;> omega
  typeArray_array := by
    rintro _ _ id ⟨⟩
    split_ifs <;> simp <;> omega

/-- Every code is a field type, and class 0 is the only array class. -/
def strictTable : ClassTable where
  semiResolve _ := some 1
  instanceArray _ _ := some 0
  typeArray _ _ := some 0
  isInstanceClass id := id != 0
  isFieldType _ := true
  semiResolve_instance := by
    rintro name id ⟨⟩
    exact Or.inl rfl
  semiResolve_lt := by
    rintro name id ⟨⟩
    norm_num
  instanceArray_lt := by
    rintro _ _ id ⟨⟩
    norm_num
  typeArray_lt := by
    rintro _ _ id ⟨⟩
    norm_num
  instanceArray_array := by
    rintro _ _ id ⟨⟩
    rfl
  typeArray_array := by
    rintro _ _ id ⟨⟩
    rfl

theorem valid_looseTable {classId : ℕ} {h : classId < 2 ^ 14} (hname : LooseName n)
    (hcode : ∀ hibyte lobyte, n = [hibyte, lobyte] → decodeUshort hibyte lobyte ≠ classId) :
    Valid (looseTable classId h) n := by
  by_cases htype : TypeCode n
  · obtain ⟨hibyte, lobyte, rfl, hhi, hlo⟩ := htype
    exact (valid_typeCode hhi hlo rfl).mpr (beq_eq_false_iff_ne.mpr (hcode hibyte lobyte rfl))
  · have hquick : ∀ {n}, Ascii n → (n = [] ∨ QualifiedName true n) →
        Valid (looseTable classId h) n := by
      intro n hascii hname
      exact if_pos (isClassIdentifierQuick_iff.mpr ⟨hascii, hname⟩)
    rcases hname with rfl | ⟨hascii, hname⟩ | hname | hcode
    · exact hquick nofun (.inl rfl)
    · exact hquick hascii (.inr hname)
    · exact valid_of_className hname htype
    · exact absurd hcode htype

/-- In `strictTable`, no code of a class is valid that is a class name as well. -/
theorem not_typeCode_of_valid_strictTable (hvalid : Valid strictTable n) (hname : ClassName n) :
    ¬TypeCode n := by
  rintro ⟨hibyte, lobyte, rfl, hhi, hlo⟩
  have harray := (valid_typeCode hhi hlo rfl).mp hvalid
  have hzero : decodeUshort hibyte lobyte = 0 := by
    by_contra hne
    have hinstance : strictTable.isInstanceClass (decodeUshort hibyte lobyte) = true :=
      bne_iff_ne.mpr hne
    rw [hinstance] at harray
    cases harray
  have hhizero : hibyte.toNat &&& 0x7f = 0 := by
    have hshift := (Nat.or_eq_zero_iff.mp hzero).1
    rw [Nat.shiftLeft_eq] at hshift
    omega
  have hhi' : hibyte.toNat = 128 := by
    rw [show (0x7f : ℕ) = 2 ^ 7 - 1 by norm_num, Nat.and_two_pow_sub_one_eq_mod] at hhizero
    have := hibyte.toNat_lt
    omega
  -- the byte 0x80 starts no character
  obtain ⟨chars, rest, hreads, ⟨ch, tail, rfl, -⟩, -⟩ := hname.exists_identifier
  cases hreads with
  | cons hnext _ =>
    unfold nextJchar at hnext
    simp [hhi'] at hnext

/-! ## Resolutions that do not fail -/

/-- The resolution of a class never fails. -/
structure Total (table : ClassTable) : Prop where
  semiResolve : ∀ n, table.semiResolve n ≠ none
  instanceArray : ∀ classId dimension, table.instanceArray classId dimension ≠ none
  typeArray : ∀ index dimension, table.typeArray index dimension ≠ none

theorem total_looseTable (classId : ℕ) (h : classId < 2 ^ 14) : Total (looseTable classId h) :=
  ⟨fun _ => nofun, fun _ _ => nofun, fun _ _ => nofun⟩

theorem total_strictTable : Total strictTable :=
  ⟨fun _ => nofun, fun _ _ => nofun, fun _ _ => nofun⟩

theorem Total.getClass (h : Total table) (bytes : List UInt8) :
    getClass table bytes ≠ .error .pending := by
  unfold ParseStream.getClass
  split
  · exact nofun
  · split_ifs
    · split
      · next hnone => exact absurd hnone (h.semiResolve _)
      · exact nofun
    · exact nofun

theorem Total.getArrayClass (h : Total table) (count : ℕ) (bytes : List UInt8) :
    getArrayClass table count bytes ≠ .error .pending := by
  induction count generalizing bytes with
  | zero => rintro ⟨⟩
  | succ count ih =>
    unfold ParseStream.getArrayClass
    simp only
    split
    · rintro ⟨⟩
    · split_ifs
      · split
        · next e he =>
          intro hp
          cases hp
          exact h.getClass _ he
        · split
          · next hnone => exact absurd hnone (h.instanceArray _ _)
          · rintro ⟨⟩
      · exact ih _
      · split
        · next hnone => exact absurd hnone (h.typeArray _ _)
        · rintro ⟨⟩
      · rintro ⟨⟩

theorem Total.nextToken (h : Total table) (c : UInt8) (ps : ParseStream) :
    nextToken table c ps ≠ .error .pending := by
  unfold ParseStream.nextToken
  simp only
  split_ifs
  · exact nofun
  · exact nofun
  · split
    · next e he =>
      intro hp
      cases hp
      exact h.getClass _ he
    · exact nofun
  · split
    · next e he =>
      intro hp
      cases hp
      exact h.getArrayClass _ _ he
    · exact nofun
  · exact nofun

theorem Total.next (h : Total table) (ps : ParseStream) : ps.next table ≠ .error .pending := by
  unfold ParseStream.next
  split
  · exact nofun
  · split_ifs
    · split
      · exact nofun
      · exact fun hp => h.nextToken _ _ (map_eq_error.mp hp)
    · exact nofun
    · exact fun hp => h.nextToken _ _ (map_eq_error.mp hp)

theorem Total.parseLoop (h : Total table) (fuel type : ℕ) (ps : ParseStream) (out : List UInt8) :
    parseLoop table fuel ps out type ≠ .error .pending := by
  induction fuel generalizing ps out type with
  | zero => exact nofun
  | succ fuel ih =>
    unfold Handles.parseLoop
    split
    · next e he =>
      intro hp
      cases hp
      exact h.next _ he
    · exact nofun
    · simp only
      split_ifs
      · exact ih _ _ _
      · exact nofun

theorem Total.internalParse (h : Total table) (input : List UInt8) :
    internalParse table input ≠ .error .pending := by
  unfold Handles.internalParse
  split
  · exact nofun
  · split_ifs <;> exact nofun
  · split
    · next e he =>
      unfold ParseStream.init at he
      simp only at he
      split_ifs at he
      cases he
      exact nofun
    · split
      · next e he =>
        intro hp
        cases hp
        exact h.parseLoop _ _ _ _ he
      · split_ifs <;> exact nofun

/-! ## The claim of the grammar and its exceptions -/

/-- A method string of which the parser makes a signature: `V` may be a parameter. -/
structure MethodForm (name : List UInt8 → Prop) (params : List (List UInt8)) (ret s : List UInt8) :
    Prop where
  string : s = methodString params ret
  paramTypes : ∀ t ∈ params, ReturnDescriptor name t
  returnType : ReturnDescriptor name ret
  words : wordSizes params ≤ 255
  room : encodedSizes (params ++ [ret]) < 512

/-- The parser meets the grammar on a string: it accepts descriptors only, as what
they are, rejects none of them, and stays inside the string. A parse that ends
with the exception of a class resolution neither accepts nor rejects. -/
def Meets (table : ClassTable) (s : List UInt8) : Prop :=
  match internalParse table s with
  | .ok parsed =>
    if parsed.isMethodSignature then MethodDescriptor ClassName s else FieldDescriptor ClassName s
  | .error .classFormatError => ¬FieldDescriptor ClassName s ∧ ¬MethodDescriptor ClassName s
  | .error .pending => True
  | .error .outside => False

/-- The string ends in its only close parenthesis, behind at least one type. -/
def PastEnd (s : List UInt8) : Prop :=
  ∃ ts, ts ≠ [] ∧ (∀ t ∈ ts, ReturnDescriptor LooseName t) ∧ encodedSizes ts < 512 ∧
    (s = byte '(' :: (ts.flatten ++ [byte ')']) ∨ s = ts.flatten ++ [byte ')'])

/-- A field type behind a close parenthesis. -/
def StrayParen (s : List UInt8) : Prop :=
  ∃ t, FieldDescriptor LooseName t ∧ s = byte ')' :: t

/-- A method string with the parameter `V`. -/
def VoidParameter (s : List UInt8) : Prop :=
  ∃ params ret, MethodForm LooseName params ret s ∧ void ∈ params

/-- A descriptor but for its class names, of which one is empty, ends in a slash or
is an encoded class id. -/
def BadName (s : List UInt8) : Prop :=
  (FieldDescriptor LooseName s ∧ ¬FieldDescriptor ClassName s) ∨
    ∃ params ret, MethodForm LooseName params ret s ∧ void ∉ params ∧ ¬MethodDescriptor ClassName s

/-- A descriptor with a class name that may be an encoded class id. -/
def CodeName (s : List UInt8) : Prop :=
  (FieldDescriptor ClassName s ∧ ¬FieldDescriptor (fun n => ClassName n ∧ ¬TypeCode n) s) ∨
    (MethodDescriptor ClassName s ∧ ¬MethodDescriptor (fun n => ClassName n ∧ ¬TypeCode n) s)

/-- A method descriptor whose encoded types fill the 512 bytes of the buffer: 255
parameters and the return type are classes or arrays. -/
def FullBuffer (s : List UInt8) : Prop :=
  ∃ params ret, s = methodString params ret ∧ (∀ t ∈ params, FieldDescriptor ClassName t) ∧
    ReturnDescriptor ClassName ret ∧ wordSizes params ≤ 255 ∧
    512 ≤ encodedSizes (params ++ [ret])

/-- The string is of none of these kinds. -/
structure Flawless (s : List UInt8) : Prop where
  pastEnd : ¬PastEnd s
  strayParen : ¬StrayParen s
  voidParameter : ¬VoidParameter s
  badName : ¬BadName s
  codeName : ¬CodeName s
  fullBuffer : ¬FullBuffer s

/-! ## Tables for loose names -/

variable {name : List UInt8 → Prop} {t : List UInt8}

theorem ReturnDescriptor.exists_names (h : ReturnDescriptor name t) :
    ∃ ns : List (List UInt8), ns.length ≤ 1 ∧ ReturnDescriptor (fun n => name n ∧ n ∈ ns) t := by
  rcases h with rfl | ⟨dimension, hle, ht⟩
  · exact ⟨[], Nat.zero_le _, .inl rfl⟩
  · suffices h : ∃ ns : List (List UInt8), ns.length ≤ 1 ∧
        FieldType (fun n => name n ∧ n ∈ ns) dimension t by
      obtain ⟨ns, hlength, h⟩ := h
      exact ⟨ns, hlength, .inr ⟨dimension, hle, h⟩⟩
    clear hle
    induction ht with
    | simple hc => exact ⟨[], Nat.zero_le _, .simple hc⟩
    | object hn hname => exact ⟨[_], le_rfl, .object hn ⟨hname, List.mem_cons_self⟩⟩
    | array hdigits _ ih =>
      obtain ⟨ns, hlength, h⟩ := ih
      exact ⟨ns, hlength, .array hdigits h⟩

theorem exists_names {ts : List (List UInt8)} (h : ∀ t ∈ ts, ReturnDescriptor name t) :
    ∃ ns : List (List UInt8), ns.length ≤ ts.length ∧
      ∀ t ∈ ts, ReturnDescriptor (fun n => name n ∧ n ∈ ns) t := by
  induction ts with
  | nil => exact ⟨[], le_rfl, nofun⟩
  | cons t ts ih =>
    obtain ⟨ns, hlength, hts⟩ := ih fun t' ht' => h t' (List.mem_cons_of_mem t ht')
    obtain ⟨ns', hlength', ht⟩ := (h t List.mem_cons_self).exists_names
    refine ⟨ns' ++ ns, ?_, ?_⟩
    · rw [List.length_append, List.length_cons]
      omega
    · intro t' ht'
      rcases List.mem_cons.mp ht' with rfl | ht'
      · exact ht.mono fun n hn => ⟨hn.1, List.mem_append_left _ hn.2⟩
      · exact (hts t' ht').mono fun n hn => ⟨hn.1, List.mem_append_right _ hn.2⟩

/-- The code of a name of two bytes. -/
def codeOf : List UInt8 → ℕ
  | [hibyte, lobyte] => decodeUshort hibyte lobyte
  | _ => 0

/-- There are more class ids than names in a string of few types. -/
theorem exists_looseTable {ts : List (List UInt8)} (h : ∀ t ∈ ts, ReturnDescriptor LooseName t)
    (hroom : encodedSizes ts < 512) :
    ∃ table, Total table ∧ ∀ t ∈ ts, ReturnDescriptor (Valid table) t := by
  obtain ⟨ns, hlength, hts⟩ := exists_names h
  have hcount := length_le_encodedSizes ts
  obtain ⟨classId, hid, hfresh⟩ : ∃ i ∈ Finset.range (2 ^ 14), i ∉ (ns.map codeOf).toFinset := by
    refine Finset.exists_mem_notMem_of_card_lt_card ?_
    have hcard := List.toFinset_card_le (ns.map codeOf)
    rw [List.length_map] at hcard
    rw [Finset.card_range]
    omega
  refine ⟨looseTable classId (Finset.mem_range.mp hid), total_looseTable _ _, fun t ht => ?_⟩
  refine (hts t ht).mono fun n hn => valid_looseTable hn.1 ?_
  rintro hibyte lobyte rfl hcode
  exact hfresh (List.mem_toFinset.mpr (List.mem_map.mpr ⟨_, hn.2, hcode⟩))

/-! ## On flawless strings, the parser meets the grammar -/

variable {s : List UInt8}

theorem FieldDescriptor.exists_cons
    (h : FieldDescriptor name t) : ∃ c rest, t = c :: rest ∧ StartsType c := by
  obtain ⟨dimension, -, ht⟩ := h
  exact ht.exists_cons

theorem FieldDescriptor.mono {name' : List UInt8 → Prop}
    (h : FieldDescriptor name t) (hname : ∀ n, name n → name' n) : FieldDescriptor name' t := by
  obtain ⟨dimension, hle, ht⟩ := h
  exact ⟨dimension, hle, ht.mono hname⟩

theorem not_fieldDescriptor_void : ¬FieldDescriptor name void := by
  intro h
  obtain ⟨c, rest, hcons, hc⟩ := h.exists_cons
  exact hc.ne.2.2.1 (List.cons.inj hcons).1.symm

/-- A type other than `V` is a field type. -/
theorem ReturnDescriptor.fieldDescriptor
    (h : ReturnDescriptor name t) (hvoid : t ≠ void) : FieldDescriptor name t :=
  h.resolve_left hvoid

theorem meets_of_flawless (h : Flawless s) (table : ClassTable) : Meets table s := by
  unfold Meets
  split
  · next parsed hparse =>
    obtain ⟨symbol, isMethod⟩ := parsed
    cases isMethod with
    | true =>
      rw [if_pos rfl]
      obtain ⟨l, p, hs, htypes, hwords, hroom, -⟩ := internalParse_method hparse
      have hloose : ∀ q ∈ l ++ [p], ReturnDescriptor LooseName q.1 := fun q hq =>
        (htypes q hq).1.mono fun n => valid_loose
      have hform : MethodForm LooseName (strings l) p.1 s := by
        refine ⟨hs, fun t ht => ?_, hloose p (List.mem_append_right _ List.mem_cons_self), hwords, ?_⟩
        · obtain ⟨q, hq, rfl⟩ := List.mem_map.mp ht
          exact hloose q (List.mem_append_left _ hq)
        · rw [strings_append] at hroom
          exact hroom
      by_contra hmethod
      by_cases hvoid : void ∈ strings l
      · exact h.voidParameter ⟨_, _, hform, hvoid⟩
      · exact h.badName (.inr ⟨_, _, hform, hvoid, hmethod⟩)
    | false =>
      rw [if_neg Bool.false_ne_true]
      obtain ⟨t, type, hs, ht, -⟩ := internalParse_field hparse
      have hloose : FieldDescriptor LooseName t := ht.mono fun n => valid_loose
      rcases hs with rfl | rfl
      · by_contra hfield
        exact h.badName (.inl ⟨hloose, hfield⟩)
      · exact absurd ⟨t, hloose, rfl⟩ h.strayParen
  · next hparse =>
    refine ⟨fun hfield => ?_, fun hmethod => ?_⟩
    · have hplain : FieldDescriptor (fun n => ClassName n ∧ ¬TypeCode n) s := by
        by_contra hcode
        exact h.codeName (.inl ⟨hfield, hcode⟩)
      rcases internalParse_fieldType (hplain.mono fun n hn => valid_of_className hn.1 hn.2)
        (.inl rfl) with hpending | ⟨symbol, hok⟩
      · rw [hparse] at hpending
        cases hpending
      · rw [hparse] at hok
        cases hok
    · have hplain : MethodDescriptor (fun n => ClassName n ∧ ¬TypeCode n) s := by
        by_contra hcode
        exact h.codeName (.inr ⟨hmethod, hcode⟩)
      obtain ⟨params, ret, rfl, hparams, hret, hwords⟩ := hplain
      have hroom : encodedSizes (params ++ [ret]) < 512 := by
        by_contra hfull
        exact h.fullBuffer ⟨params, ret, rfl, fun t ht => (hparams t ht).mono fun n hn => hn.1,
          hret.mono fun n hn => hn.1, hwords, Nat.le_of_not_lt hfull⟩
      have hvalid : ∀ t ∈ params, ReturnDescriptor (Valid table) t := fun t ht =>
        .inr ((hparams t ht).mono fun n hn => valid_of_className hn.1 hn.2)
      rcases internalParse_methodString hvalid
        (hret.mono fun n hn => valid_of_className hn.1 hn.2) hwords hroom with
        hpending | ⟨symbol, hok⟩
      · rw [hparse] at hpending
        cases hpending
      · rw [hparse] at hok
        cases hok
  · trivial
  · next hparse =>
    obtain ⟨ts, hne, hts, hroom, hs⟩ := internalParse_outside hparse
    exact h.pastEnd ⟨ts, hne, fun t ht => (hts t ht).mono fun n => valid_loose, hroom, hs⟩

/-! ## On the other strings, it does not -/

variable {params : List (List UInt8)}

theorem startsType_methodString
    {ret : List UInt8} : ¬FieldDescriptor name (methodString params ret) := by
  intro h
  obtain ⟨c, rest, hcons, hc⟩ := h.exists_cons
  exact hc.ne.2.1 (List.cons.inj hcons).1.symm

theorem not_fieldDescriptor_paren : ¬FieldDescriptor name (byte ')' :: t) := by
  intro h
  obtain ⟨c, rest, hcons, hc⟩ := h.exists_cons
  exact hc.ne.1 (List.cons.inj hcons).1.symm

variable {symbol : List UInt8}

theorem Meets.of_field (h : Meets table s)
    (hparse : internalParse table s = .ok ⟨symbol, false⟩) : FieldDescriptor ClassName s := by
  unfold Meets at h
  rw [hparse] at h
  exact h

theorem Meets.of_method (h : Meets table s)
    (hparse : internalParse table s = .ok ⟨symbol, true⟩) : MethodDescriptor ClassName s := by
  unfold Meets at h
  rw [hparse] at h
  exact h

/-- A descriptor is accepted, if the parser meets the grammar and resolutions do
not fail. -/
theorem Meets.exists_ok (h : Meets table s) (htotal : Total table)
    (hs : FieldDescriptor ClassName s ∨ MethodDescriptor ClassName s) :
    ∃ parsed, internalParse table s = .ok parsed := by
  cases hparse : internalParse table s with
  | ok parsed => exact ⟨parsed, rfl⟩
  | error e =>
    unfold Meets at h
    rw [hparse] at h
    cases e with
    | classFormatError => exact absurd hs (not_or.mpr h)
    | pending => exact absurd hparse (htotal.internalParse s)
    | outside => exact h.elim

theorem not_meets_of_pastEnd (h : PastEnd s) : ∃ table, ¬Meets table s := by
  obtain ⟨ts, hne, hts, hroom, hs⟩ := h
  obtain ⟨table, htotal, hvalid⟩ := exists_looseTable hts hroom
  refine ⟨table, fun hmeets => ?_⟩
  unfold Meets at hmeets
  rcases internalParse_pastEnd hne hvalid hroom hs with hpending | houtside
  · exact htotal.internalParse s hpending
  · rw [houtside] at hmeets
    exact hmeets

theorem exists_ok_fieldType {t : List UInt8} (ht : FieldDescriptor LooseName t)
    (hs : s = t ∨ s = byte ')' :: t) :
    ∃ table symbol, internalParse table s = .ok ⟨symbol, false⟩ := by
  have hroom : encodedSizes [t] < 512 := by
    show encodedSize t + 0 < 512
    unfold encodedSize
    split_ifs <;> omega
  have hloose : ∀ t' ∈ [t], ReturnDescriptor LooseName t' := fun t' ht' =>
    .inr (List.mem_singleton.mp ht' ▸ ht)
  obtain ⟨table, htotal, hvalid⟩ := exists_looseTable hloose hroom
  have hfield : FieldDescriptor (Valid table) t :=
    (hvalid t List.mem_cons_self).fieldDescriptor fun hv => not_fieldDescriptor_void (hv ▸ ht)
  rcases internalParse_fieldType hfield hs with hpending | ⟨symbol, hok⟩
  · exact absurd hpending (htotal.internalParse s)
  · exact ⟨table, symbol, hok⟩

theorem MethodForm.exists_ok {ret : List UInt8} (h : MethodForm LooseName params ret s) :
    ∃ table symbol, internalParse table s = .ok ⟨symbol, true⟩ := by
  have htypes : ∀ t ∈ params ++ [ret], ReturnDescriptor LooseName t := by
    intro t ht
    rcases List.mem_append.mp ht with ht | ht
    · exact h.paramTypes t ht
    · exact List.mem_singleton.mp ht ▸ h.returnType
  obtain ⟨table, htotal, hvalid⟩ := exists_looseTable htypes h.room
  obtain rfl := h.string
  rcases internalParse_methodString (fun t ht => hvalid t (List.mem_append_left _ ht))
    (hvalid ret (List.mem_append_right _ List.mem_cons_self)) h.words h.room with
    hpending | ⟨symbol, hok⟩
  · exact absurd hpending (htotal.internalParse _)
  · exact ⟨table, symbol, hok⟩

/-- A descriptor that `strictTable` accepts has no encoded class id for a name. -/
theorem not_meets_of_codeName (h : CodeName s) : ¬Meets strictTable s := by
  intro hmeets
  have hboth : ∀ n, ClassName n ∧ Valid strictTable n → ClassName n ∧ ¬TypeCode n := fun n hn =>
    ⟨hn.1, not_typeCode_of_valid_strictTable hn.2 hn.1⟩
  rcases h with ⟨hfield, hcode⟩ | ⟨hmethod, hcode⟩
  · obtain ⟨⟨symbol, isMethod⟩, hok⟩ := hmeets.exists_ok total_strictTable (.inl hfield)
    cases isMethod with
    | true =>
      obtain ⟨l, p, rfl, -⟩ := internalParse_method hok
      exact startsType_methodString hfield
    | false =>
      obtain ⟨t, type, hs, ⟨dimension', -, ht⟩, -⟩ := internalParse_field hok
      rcases hs with rfl | rfl
      · obtain ⟨dimension, hle, hclass⟩ := hfield
        exact hcode ⟨dimension, hle, (hclass.unique (r := []) ht rfl).2.2.mono hboth⟩
      · exact not_fieldDescriptor_paren hfield
  · obtain ⟨⟨symbol, isMethod⟩, hok⟩ := hmeets.exists_ok total_strictTable (.inr hmethod)
    obtain ⟨params, ret, rfl, hparams, hret, hwords⟩ := hmethod
    cases isMethod with
    | true =>
      obtain ⟨l, p, hs, htypes, -⟩ := internalParse_method hok
      have hvalid : ∀ t ∈ strings l, ReturnDescriptor (Valid strictTable) t := by
        intro t ht
        obtain ⟨q, hq, rfl⟩ := List.mem_map.mp ht
        exact (htypes q (List.mem_append_left _ hq)).1
      obtain ⟨rfl, rfl⟩ := methodString_unique (fun t ht => .inr (hparams t ht)) hvalid hs
      refine hcode ⟨_, _, rfl, fun t ht => ?_, ?_, hwords⟩
      · obtain ⟨-, -, ht'⟩ := ReturnDescriptor.unique (.inr (hparams t ht)) (hvalid t ht)
          (r := []) rfl
        refine (ht'.mono hboth).fieldDescriptor fun hv => ?_
        exact not_fieldDescriptor_void (hv ▸ hparams t ht)
      · obtain ⟨-, -, hret'⟩ := hret.unique (htypes p (List.mem_append_right _ List.mem_cons_self)).1
          (r := []) rfl
        exact hret'.mono hboth
    | false =>
      obtain ⟨t, type, hs, ht, -⟩ := internalParse_field hok
      rcases hs with rfl | hs
      · exact startsType_methodString ht
      · exact absurd (List.cons.inj hs).1 (by decide)

theorem not_meets_of_fullBuffer (h : FullBuffer s) : ¬Meets strictTable s := by
  intro hmeets
  obtain ⟨params, ret, rfl, hparams, hret, hwords, hfull⟩ := h
  obtain ⟨⟨symbol, isMethod⟩, hok⟩ := hmeets.exists_ok total_strictTable
    (.inr ⟨params, ret, rfl, hparams, hret, hwords⟩)
  cases isMethod with
  | true =>
    obtain ⟨l, p, hs, htypes, -, hroom, -⟩ := internalParse_method hok
    have hvalid : ∀ t ∈ strings l, ReturnDescriptor (Valid strictTable) t := by
      intro t ht
      obtain ⟨q, hq, rfl⟩ := List.mem_map.mp ht
      exact (htypes q (List.mem_append_left _ hq)).1
    obtain ⟨rfl, rfl⟩ := methodString_unique (fun t ht => .inr (hparams t ht)) hvalid hs
    rw [strings_append] at hroom
    exact absurd hroom hfull.not_gt
  | false =>
    obtain ⟨t, type, hs, ht, -⟩ := internalParse_field hok
    rcases hs with rfl | hs
    · exact startsType_methodString ht
    · exact absurd (List.cons.inj hs).1 (by decide)

/-- **Main theorem**: whatever the classes of the VM are, the parser meets the
grammar of descriptors on a string if and only if the string is flawless. -/
theorem meets_iff (s : List UInt8) : (∀ table, Meets table s) ↔ Flawless s := by
  refine ⟨fun h => ?_, fun h table => meets_of_flawless h table⟩
  refine {
    pastEnd := fun hp => ?_
    strayParen := fun ⟨t, ht, hs⟩ => ?_
    voidParameter := fun ⟨params, ret, hform, hvoid⟩ => ?_
    badName := fun hbad => ?_
    codeName := fun hcode => not_meets_of_codeName hcode (h _)
    fullBuffer := fun hfull => not_meets_of_fullBuffer hfull (h _) }
  · obtain ⟨table, hnot⟩ := not_meets_of_pastEnd hp
    exact hnot (h table)
  · obtain ⟨table, symbol, hok⟩ := exists_ok_fieldType ht (Or.inr hs)
    exact not_fieldDescriptor_paren (hs ▸ (h table).of_field hok)
  · obtain ⟨table, symbol, hok⟩ := hform.exists_ok
    obtain ⟨params', ret', hs, hparams', -⟩ := (h table).of_method hok
    obtain ⟨rfl, -⟩ := methodString_unique hform.paramTypes (fun t ht => Or.inr (hparams' t ht))
      (hform.string.symm.trans hs)
    exact not_fieldDescriptor_void (hparams' void hvoid)
  · rcases hbad with ⟨ht, hnot⟩ | ⟨params, ret, hform, -, hnot⟩
    · obtain ⟨table, symbol, hok⟩ := exists_ok_fieldType ht (Or.inl rfl)
      exact hnot ((h table).of_field hok)
    · obtain ⟨table, symbol, hok⟩ := hform.exists_ok
      exact hnot ((h table).of_method hok)

/-- `(V)V` is accepted, but is no method descriptor. -/
theorem not_meets_voidParameter :
    internalParse strictTable [byte '(', byte 'V', byte ')', byte 'V'] =
        .ok ⟨[0x80, 0x81, byte 'V', byte 'V'], true⟩ ∧
      ¬Meets strictTable [byte '(', byte 'V', byte ')', byte 'V'] := by
  have hok : internalParse strictTable [byte '(', byte 'V', byte ')', byte 'V'] =
      .ok ⟨[0x80, 0x81, byte 'V', byte 'V'], true⟩ := by decide
  refine ⟨hok, fun h => ?_⟩
  unfold Meets at h
  rw [hok] at h
  obtain ⟨params, ret, hs, hparams, -⟩ := h
  have hvoid : ∀ t ∈ [void], ReturnDescriptor LooseName t := fun t ht =>
    Or.inl (List.mem_singleton.mp ht)
  have hs' : methodString [void] void = methodString params ret := hs
  obtain ⟨rfl, -⟩ := methodString_unique hvoid (fun t ht => Or.inr (hparams t ht)) hs'
  obtain ⟨c, rest, hcons, hc⟩ := (hparams void List.mem_cons_self).exists_cons
  exact hc.ne.2.2.1 (List.cons.inj hcons).1.symm

end CldcVm.Handles
