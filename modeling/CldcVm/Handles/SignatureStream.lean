import CldcVm.Handles.ParseGrammar
import CldcVm.Verifier.Method

/-!
# Signatures as streams

Model of `SignatureStream` (`handles/Signature.{hpp,cpp}`, lines 235–279), which
iterates over the encoded signature that `internal_parse` has made.

Result: `roundTrips_iff`: for an accepted method string, the stream yields the
declared types if and only if no parameter is `V`.
-/

namespace CldcVm.Handles

open Verifier (BasicType)

/-! ## The stream -/

/-- `word_size_for` (`utilities/GlobalDefinitions.cpp`, lines 127–144). -/
def wordSizeFor : BasicType → ℕ
  | .long | .double => 2
  | .void => 0
  | _ => 1

/-- `primitive_field_basic_type_for`; `none` is `T_ILLEGAL` or a literal that is not
in the table. -/
def primitiveFieldBasicTypeFor (chr : UInt8) : Option BasicType :=
  if chr = byte 'B' then some .byte
  else if chr = byte 'C' then some .char
  else if chr = byte 'D' then some .double
  else if chr = byte 'F' then some .float
  else if chr = byte 'I' then some .int
  else if chr = byte 'J' then some .long
  else if chr = byte 'S' then some .short
  else if chr = byte 'V' then some .void
  else if chr = byte 'Z' then some .boolean
  else none

/-- `SignatureStream`. The class id is not set before the first parameter that has
one. -/
structure SignatureStream where
  signature : List UInt8
  numParamWords : ℕ
  numParamWordsProcessed : ℕ
  currentClassId : Option ℕ
  wordIndex : ℕ
  position : ℕ
  type : BasicType
  fast : Bool
  isReturnType : Bool

namespace SignatureStream

variable (table : ClassTable)

/-- The type that a byte of the signature starts, with its class id, and its size in
bytes; `none` where the signature ends, or has no such type. -/
def typeAt (signature : List UInt8) (position : ℕ) (fast : Bool) :
    Option (BasicType × Option ℕ × ℕ) :=
  match signature[position]? with
  | none => none
  | some chr =>
    if chr.toNat < 0x80 then
      match primitiveFieldBasicTypeFor chr with
      | none => none
      | some type => some (type, none, 1)
    else
      match signature[position + 1]? with
      | none => none
      | some lobyte =>
        let classId := decodeUshort chr lobyte
        some (if !fast && !table.isInstanceClass classId then .array else .object, some classId, 2)

/-- `next` (lines 254–279). The return type is at position 2. -/
def next (ss : SignatureStream) : Option SignatureStream :=
  let ss := { ss with wordIndex := ss.wordIndex + wordSizeFor ss.type }
  if ss.numParamWordsProcessed < ss.numParamWords then
    match typeAt table ss.signature ss.position ss.fast with
    | none => none
    | some (type, classId, size) =>
      some { ss with
        type := type
        currentClassId := classId.orElse fun _ => ss.currentClassId
        position := ss.position + size
        numParamWordsProcessed := ss.numParamWordsProcessed + wordSizeFor type }
  else
    match typeAt table ss.signature 2 ss.fast with
    | none => none
    | some (type, _, _) =>
      some { ss with
        isReturnType := true
        type := type
        numParamWordsProcessed := ss.numParamWordsProcessed + 1 }

/-- The constructor (lines 235–252). -/
def create (signature : List UInt8) (isStatic fast : Bool) : Option SignatureStream :=
  match signature with
  | hibyte :: lobyte :: returnType :: _ =>
    let ss : SignatureStream :=
      { signature := signature
        numParamWords := decodeUshort hibyte lobyte
        numParamWordsProcessed := 0
        currentClassId := none
        wordIndex := 0
        position := 2 + if returnType.toNat < 0x80 then 1 else 2
        type := if isStatic then .void else .object
        fast := fast
        isReturnType := false }
    if isStatic then ss.next table else some ss
  | _ => none

/-- `eos`. -/
def eos (ss : SignatureStream) : Bool := ss.numParamWordsProcessed > ss.numParamWords

end SignatureStream

/-- What a user of the stream sees: the basic type, and the class id of a reference. -/
structure StreamItem where
  type : BasicType
  classId : Option ℕ
deriving DecidableEq, Repr

namespace SignatureStream

variable (table : ClassTable)

/-- The current item. -/
def item (ss : SignatureStream) : StreamItem :=
  ⟨ss.type, if ss.type = .object ∨ ss.type = .array then ss.currentClassId else none⟩

/-- The loop of the users: the items up to the end, and the stream there, which is at
the return type. -/
def iterate : (fuel : ℕ) → SignatureStream → Option (List StreamItem × SignatureStream)
  | 0, _ => none
  | fuel + 1, ss =>
    if ss.eos then some ([], ss)
    else
      match ss.next table with
      | none => none
      | some ss' => (iterate fuel ss').map fun found => (ss.item :: found.1, found.2)

end SignatureStream

/-! ## Declared types -/

/-- The basic type and the class id that a type declares. -/
inductive Declares (table : ClassTable) (fast : Bool) : List UInt8 → StreamItem → Prop
  | basic {c : UInt8} {type : BasicType} :
      primitiveFieldBasicTypeFor c = some type → Declares table fast [c] ⟨type, none⟩
  | object {n : List UInt8} {id : ℕ} :
      table.semiResolve n = some id →
      Declares table fast (byte 'L' :: (n ++ [byte ';']))
        ⟨if fast || table.isInstanceClass id then .object else .array, some id⟩
  | array {t : List UInt8} {id : ℕ} :
      ClassOf table 0 (byte '[' :: t) id →
      Declares table fast (byte '[' :: t) ⟨if fast then .object else .array, some id⟩

/-- The stream over a signature yields the parameters, behind the receiver of a
method that is not static, and ends at the return type; the word count is the
sum of the sizes of the parameters. -/
def Streams (table : ClassTable) (signature : List UInt8) (params : List (List UInt8))
    (ret : List UInt8) : Prop :=
  ∀ isStatic fast, ∃ ss fuel items paramItems final returnItem,
    SignatureStream.create table signature isStatic fast = some ss ∧
    ss.iterate table fuel = some (items, final) ∧
    List.Forall₂ (Declares table fast) params paramItems ∧
    items = (if isStatic then [] else [⟨.object, none⟩]) ++ paramItems ∧
    ss.numParamWords = (paramItems.map fun i => wordSizeFor i.type).sum ∧
    final.isReturnType = true ∧ final.type = returnItem.type ∧
    Declares table fast ret returnItem ∧
    ∀ classId, returnItem.classId = some classId →
      ∃ hibyte lobyte, signature[2]? = some hibyte ∧ signature[3]? = some lobyte ∧
        decodeUshort hibyte lobyte = classId

/-- The encoded signature of an accepted string stands for what it declares. -/
def RoundTrips (table : ClassTable) (s signature : List UInt8) : Prop :=
  ∃ params ret, s = methodString params ret ∧
    (∀ t ∈ params, ReturnDescriptor (fun _ => True) t) ∧ Streams table signature params ret

/-- The string of a method with the parameter `V`. -/
def HasVoidParameter (s : List UInt8) : Prop :=
  ∃ params ret, s = methodString params ret ∧
    (∀ t ∈ params, ReturnDescriptor (fun _ => True) t) ∧ void ∈ params

variable {table : ClassTable}

/-! ## Reading encoded types -/

variable {id : ℕ} {t : List UInt8}

theorem ClassOf.lt {dimension : ℕ} (h : ClassOf table dimension t id) : id < 2 ^ 14 := by
  induction h with
  | simple _ hid => exact table.typeArray_lt hid
  | object hid => exact table.semiResolve_lt hid
  | objectArray _ _ hid => exact table.instanceArray_lt hid
  | array _ _ ih => exact ih

theorem ClassOf.isArray {dimension : ℕ} (h : ClassOf table dimension t id)
    (hdimension : dimension ≠ 0) : table.isInstanceClass id = false := by
  induction h with
  | simple _ hid => exact table.typeArray_array hid
  | object => exact absurd rfl hdimension
  | objectArray _ _ hid => exact table.instanceArray_array hid
  | array _ _ ih => exact ih (Nat.succ_ne_zero _)

theorem encodeUshort_or (x y : ℕ) : encodeUshort (x ||| y) = encodeUshort x ||| encodeUshort y := by
  unfold encodeUshort
  rw [Nat.and_or_distrib_right, Nat.and_or_distrib_right, Nat.shiftLeft_or_distrib]
  ac_nf

/-- The two bytes of an encoding: seven bits of the value each. -/
theorem encodeUshort_bytes {a b : ℕ} (ha : a < 128) (hb : b < 128) :
    encodeUshort (128 * a + b) >>> 8 = a + 128 ∧ encodeUshort (128 * a + b) &&& 0xff = b + 128 := by
  have hhigh : ∀ a < 128, encodeUshort (128 * a) >>> 8 = a + 128 ∧
      encodeUshort (128 * a) &&& 0xff = 128 := by decide
  have hlow : ∀ b < 128, encodeUshort b >>> 8 = 128 ∧ encodeUshort b &&& 0xff = b + 128 := by decide
  have hor : ∀ c < 128, (c + 128) ||| 128 = c + 128 ∧ 128 ||| (c + 128) = c + 128 := by
    decide
  have hsplit : 128 * a + b = 128 * a ||| b := Nat.two_pow_add_eq_or_of_lt (i := 7) hb a
  rw [hsplit, encodeUshort_or, Nat.shiftRight_or_distrib, Nat.and_or_distrib_right]
  rw [(hhigh a ha).1, (hhigh a ha).2, (hlow b hb).1, (hlow b hb).2]
  exact ⟨(hor a ha).1, (hor b hb).2⟩

theorem decodeUshort_encodeUshort {value : ℕ} (h : value < 2 ^ 14) :
    ∃ hibyte lobyte, putEncodedUshort (encodeUshort value) = [hibyte, lobyte] ∧
      128 ≤ hibyte.toNat ∧ decodeUshort hibyte lobyte = value := by
  have ha : value / 128 < 128 := by omega
  have hb : value % 128 < 128 := by omega
  obtain ⟨hhigh, hlow⟩ := encodeUshort_bytes ha hb
  rw [Nat.div_add_mod] at hhigh hlow
  have hbyte : ∀ c < 128, (c + 128).toUInt8.toNat = c + 128 ∧ (c + 128) &&& 0x7f = c := by decide
  refine ⟨_, _, rfl, ?_, ?_⟩
  · rw [hhigh, (hbyte _ ha).1]
    omega
  · rw [hhigh, hlow, decodeUshort, (hbyte _ ha).1, (hbyte _ hb).1, (hbyte _ ha).2, (hbyte _ hb).2,
      Nat.shiftLeft_eq, Nat.mul_comm]
    exact (Nat.two_pow_add_eq_or_of_lt (i := 7) hb _).symm.trans (Nat.div_add_mod value 128)

theorem putType_basic {c : UInt8} (hc : c = byte 'V' ∨ isSimpleTypeSymbol c = true) :
    putType c.toNat = [c] := by
  unfold putType
  rw [if_pos (isSimpleTypeSymbol_lt hc), Nat.toUInt8_eq, UInt8.ofNat_toNat]

theorem putType_reference (h : id < 2 ^ 14) :
    ∃ hibyte lobyte, putType (encodeUshort id) = [hibyte, lobyte] ∧ 128 ≤ hibyte.toNat ∧
      decodeUshort hibyte lobyte = id := by
  have hge := encodeUshort_ge id
  obtain ⟨hibyte, lobyte, hput, hhi, hdecode⟩ := decodeUshort_encodeUshort h
  refine ⟨hibyte, lobyte, ?_, hhi, hdecode⟩
  unfold putType
  rw [if_neg (by omega), hput]

theorem getElem?_of_drop {signature rest : List UInt8} {b : UInt8} {position : ℕ}
    (h : signature.drop position = b :: rest) : signature[position]? = some b := by
  have hdrop : (signature.drop position)[0]? = signature[position + 0]? := List.getElem?_drop
  rw [h] at hdrop
  exact hdrop.symm

theorem primitiveFieldBasicTypeFor_isSome {c : UInt8}
    (hc : c = byte 'V' ∨ isSimpleTypeSymbol c = true) :
    ∃ type, primitiveFieldBasicTypeFor c = some type := by
  rcases hc with rfl | hc
  · exact ⟨.void, by decide⟩
  · rcases isSimpleTypeSymbol_cases hc with rfl | rfl | rfl | rfl | rfl | rfl | rfl | rfl
    · exact ⟨.boolean, by decide⟩
    · exact ⟨.char, by decide⟩
    · exact ⟨.float, by decide⟩
    · exact ⟨.double, by decide⟩
    · exact ⟨.byte, by decide⟩
    · exact ⟨.short, by decide⟩
    · exact ⟨.int, by decide⟩
    · exact ⟨.long, by decide⟩

variable {type : ℕ}

/-- **Decoder lemma**: where an encoded type stands, the stream reads what the type
declares. -/
theorem typeAt_putType {signature rest : List UInt8} {position : ℕ}
    (h : TypeOf table t type) (fast : Bool)
    (hdrop : signature.drop position = putType type ++ rest) :
    ∃ item, Declares table fast t item ∧ SignatureStream.typeAt table signature position fast =
        some (item.type, item.classId, (putType type).length) := by
  unfold SignatureStream.typeAt
  cases h with
  | @basic c hc =>
    have hlt := isSimpleTypeSymbol_lt hc
    obtain ⟨type, htype⟩ := primitiveFieldBasicTypeFor_isSome hc
    rw [putType_basic hc] at hdrop ⊢
    refine ⟨⟨type, none⟩, .basic htype, ?_⟩
    rw [getElem?_of_drop hdrop]
    simp only
    rw [if_pos hlt, htype]
    rfl
  | @reference t id hclass =>
    obtain ⟨hibyte, lobyte, hput, hhi, hdecode⟩ := putType_reference hclass.lt
    rw [hput] at hdrop ⊢
    have hsecond : signature[position + 1]? = some lobyte := by
      have hdrop' : signature.drop (position + 1) = lobyte :: rest := by
        rw [← List.drop_drop, hdrop]
        rfl
      exact getElem?_of_drop hdrop'
    rw [getElem?_of_drop hdrop]
    simp only
    rw [if_neg (by omega), hsecond]
    simp only
    rw [hdecode]
    cases hclass with
    | simple hne => exact absurd rfl hne
    | objectArray hne => exact absurd rfl hne
    | object hid =>
      refine ⟨_, .object hid, ?_⟩
      cases fast <;> cases table.isInstanceClass id <;> rfl
    | array hdigits hrest =>
      have harray := hrest.isArray (Nat.succ_ne_zero 0)
      refine ⟨_, .array (.array hdigits hrest), ?_⟩
      rw [harray]
      cases fast <;> rfl

/-- The words that the stream counts for a type. -/
def streamedSize (t : List UInt8) : ℕ := if t = void then 0 else wordSize t

def streamedSizes (ts : List (List UInt8)) : ℕ := (ts.map streamedSize).sum

theorem streamedSize_of_two_le (h : 2 ≤ t.length) : streamedSize t = 1 := by
  have hne : ∀ c, t ≠ [c] := by
    rintro c rfl
    exact absurd h (by simp)
  unfold streamedSize wordSize
  rw [if_neg (show t ≠ void from hne _), if_neg (not_or.mpr ⟨hne _, hne _⟩)]

variable {fast : Bool}

theorem Declares.wordSizeFor_eq {item : StreamItem}
    (h : Declares table fast t item) : wordSizeFor item.type = streamedSize t := by
  cases h with
  | basic htype =>
    unfold primitiveFieldBasicTypeFor at htype
    split_ifs at htype <;> cases htype <;> subst_vars <;> decide
  | object =>
    rw [streamedSize_of_two_le (by simp)]
    split_ifs <;> rfl
  | array hclass =>
    have hlength := hclass.length_ne rfl
    rw [List.length_cons] at hlength
    rw [streamedSize_of_two_le (by rw [List.length_cons]; omega)]
    split_ifs <;> rfl

theorem Declares.classId_iff {item : StreamItem} (h : Declares table fast t item) :
    (item.type = .object ∨ item.type = .array) ↔ item.classId ≠ none := by
  cases h with
  | basic htype =>
    unfold primitiveFieldBasicTypeFor at htype
    split_ifs at htype <;> cases htype <;> decide
  | object =>
    refine iff_of_true ?_ nofun
    simp only
    split_ifs
    · exact .inl rfl
    · exact .inr rfl
  | array =>
    refine iff_of_true ?_ nofun
    simp only
    split_ifs
    · exact .inl rfl
    · exact .inr rfl

/-! ## Counting words

The parser counts one word for a parameter `V`, and the stream none. -/

theorem streamedSize_le (t : List UInt8) : streamedSize t ≤ wordSize t := by
  unfold streamedSize
  split_ifs <;> omega

theorem streamedSize_pos (h : t ≠ void) : 0 < streamedSize t := by
  unfold streamedSize wordSize
  rw [if_neg h]
  split_ifs <;> omega

theorem streamedSizes_le (ts : List (List UInt8)) : streamedSizes ts ≤ wordSizes ts := by
  induction ts with
  | nil => exact le_rfl
  | cons t ts ih => exact Nat.add_le_add (streamedSize_le t) ih

variable {ts : List (List UInt8)}

theorem streamedSizes_eq (h : void ∉ ts) : streamedSizes ts = wordSizes ts := by
  unfold streamedSizes wordSizes
  congr 1
  apply List.map_congr_left
  intro t ht
  refine if_neg ?_
  rintro rfl
  exact h ht

theorem streamedSizes_lt (h : void ∈ ts) : streamedSizes ts < wordSizes ts := by
  induction ts with
  | nil => exact absurd h List.not_mem_nil
  | cons t ts ih =>
    rcases List.mem_cons.mp h with rfl | h
    · have hle := streamedSizes_le ts
      show 0 + streamedSizes ts < 1 + wordSizes ts
      omega
    · exact Nat.add_lt_add_of_le_of_lt (streamedSize_le t) (ih h)

/-! ## Runs of the stream -/

variable {l : List (List UInt8 × ℕ)}

namespace SignatureStream

/-- The stream behind a parameter. -/
def after (ss : SignatureStream) (item : StreamItem) (size : ℕ) : SignatureStream :=
  { ss with
    wordIndex := ss.wordIndex + wordSizeFor ss.type
    type := item.type
    currentClassId := item.classId.orElse fun _ => ss.currentClassId
    position := ss.position + size
    numParamWordsProcessed := ss.numParamWordsProcessed + wordSizeFor item.type }

theorem after_item {item : StreamItem} (ss : SignatureStream)
    (size : ℕ) (h : Declares table fast t item) : (ss.after item size).item = item := by
  have hiff := h.classId_iff
  obtain ⟨type, classId⟩ := item
  unfold after SignatureStream.item
  simp only at hiff ⊢
  cases classId with
  | none => rw [if_neg (by rw [hiff]; exact fun hne => hne rfl)]
  | some id =>
    rw [if_pos (hiff.mpr nofun)]
    rfl

variable {ss : SignatureStream}

/-- **Step lemma**: while words are left, the stream reads the next parameter. -/
theorem next_parameter {rest : List UInt8}
    (htype : TypeOf table t type) (hdrop : ss.signature.drop ss.position = putType type ++ rest)
    (hleft : ss.numParamWordsProcessed < ss.numParamWords) : ∃ item, Declares table ss.fast t item ∧
      ss.next table = some (ss.after item (putType type).length) ∧
      (ss.after item (putType type).length).signature.drop
        (ss.after item (putType type).length).position = rest := by
  obtain ⟨item, hitem, hat⟩ := typeAt_putType htype ss.fast hdrop
  refine ⟨item, hitem, ?_, ?_⟩
  · unfold next
    simp only
    rw [if_pos hleft, hat]
    rfl
  · show ss.signature.drop (ss.position + _) = rest
    rw [← List.drop_drop, hdrop, List.drop_left]

/-- The stream at the return type. -/
def atReturn (ss : SignatureStream) (type : BasicType) : SignatureStream :=
  { ss with
    wordIndex := ss.wordIndex + wordSizeFor ss.type
    isReturnType := true
    type := type
    numParamWordsProcessed := ss.numParamWordsProcessed + 1 }

/-- **Step lemma**: when no words are left, the stream goes to the return type. -/
theorem next_return {rest : List UInt8}
    (htype : TypeOf table t type) (hdrop : ss.signature.drop 2 = putType type ++ rest)
    (hdone : ss.numParamWordsProcessed = ss.numParamWords) :
    ∃ item, Declares table ss.fast t item ∧ ss.next table = some (ss.atReturn item.type) ∧
      ∀ classId, item.classId = some classId →
        ∃ hibyte lobyte, ss.signature[2]? = some hibyte ∧ ss.signature[3]? = some lobyte ∧
          decodeUshort hibyte lobyte = classId := by
  obtain ⟨item, hitem, hat⟩ := typeAt_putType htype ss.fast hdrop
  refine ⟨item, hitem, ?_, ?_⟩
  · unfold next
    simp only
    rw [if_neg (by omega), hat]
    rfl
  · intro classId hid
    unfold typeAt at hat
    split at hat
    · cases hat
    · next hibyte hhi =>
      split_ifs at hat
      · split at hat
        · cases hat
        · have hids := congrArg (fun o => o.map fun q => q.2.1) hat
          simp [hid] at hids
      · split at hat
        · cases hat
        · next lobyte hlo =>
          refine ⟨hibyte, lobyte, hhi, hlo, ?_⟩
          have hids := congrArg (fun o => o.map fun q => q.2.1) hat
          simpa [hid] using hids

theorem atReturn_eos (type : BasicType)
    (hdone : ss.numParamWordsProcessed = ss.numParamWords) : (ss.atReturn type).eos = true := by
  show decide (ss.numParamWordsProcessed + 1 > ss.numParamWords) = true
  rw [decide_eq_true_eq]
  omega

theorem not_eos (h : ss.numParamWordsProcessed ≤ ss.numParamWords) : ¬ ss.eos = true := by
  show ¬ decide (ss.numParamWordsProcessed > ss.numParamWords) = true
  rw [decide_eq_true_eq]
  omega

/-- **Run lemma**: where the words that are left are those of the types that follow, the
stream yields the types. -/
theorem iterate_types {returnRest : List UInt8}
    (ss : SignatureStream) (hl : ∀ p ∈ l, TypeOf table p.1 p.2) (hvoid : void ∉ strings l)
    (hdrop : ss.signature.drop ss.position = encoded l) (htype : TypeOf table t type)
    (hreturn : ss.signature.drop 2 = putType type ++ returnRest)
    (hwords : ss.numParamWordsProcessed + streamedSizes (strings l) = ss.numParamWords) :
    ∃ items returnItem final, ss.iterate table (l.length + 2) = some (ss.item :: items, final) ∧
      List.Forall₂ (Declares table ss.fast) (strings l) items ∧
      Declares table ss.fast t returnItem ∧ final.isReturnType = true ∧
      final.type = returnItem.type ∧ ∀ classId, returnItem.classId = some classId →
        ∃ hibyte lobyte, ss.signature[2]? = some hibyte ∧ ss.signature[3]? = some lobyte ∧
          decodeUshort hibyte lobyte = classId := by
  induction l generalizing ss with
  | nil =>
    obtain ⟨item, hitem, hnext, hid⟩ := next_return htype hreturn hwords
    refine ⟨[], item, ss.atReturn item.type, ?_, .nil, hitem, rfl, rfl, hid⟩
    rw [iterate, if_neg (not_eos (le_of_eq hwords)), hnext]
    simp only
    rw [iterate, if_pos (atReturn_eos _ hwords)]
    rfl
  | cons p l ih =>
    have hpos := streamedSize_pos (Ne.symm (List.ne_of_not_mem_cons hvoid))
    have hsizes : streamedSizes (strings (p :: l)) = streamedSize p.1 + streamedSizes (strings l) :=
      rfl
    rw [hsizes] at hwords
    obtain ⟨item, hitem, hnext, hrest⟩ :=
      next_parameter (hl p List.mem_cons_self) hdrop (by omega)
    obtain ⟨items, returnItem, final, hiterate, hitems, hfinal⟩ :=
      ih (ss.after item (putType p.2).length) (fun q hq => hl q (List.mem_cons_of_mem p hq))
        (List.not_mem_of_not_mem_cons hvoid) hrest hreturn (by
          show ss.numParamWordsProcessed + wordSizeFor item.type + _ = ss.numParamWords
          rw [hitem.wordSizeFor_eq]
          omega)
    rw [after_item ss _ hitem] at hiterate
    refine ⟨item :: items, returnItem, final, ?_, .cons hitem hitems, hfinal⟩
    rw [List.length_cons, iterate, if_neg (not_eos (by omega)), hnext]
    simp only
    rw [hiterate]
    rfl

/-- **Run lemma**: where more words are left than those of the types that follow, the
stream reads past the end of the signature. -/
theorem iterate_none (fuel : ℕ) (ss : SignatureStream)
    (hl : ∀ p ∈ l, TypeOf table p.1 p.2) (hdrop : ss.signature.drop ss.position = encoded l)
    (hwords : ss.numParamWordsProcessed + streamedSizes (strings l) < ss.numParamWords) :
    ss.iterate table fuel = none := by
  induction fuel generalizing ss l with
  | zero => rfl
  | succ fuel ih =>
    rw [iterate, if_neg (not_eos (by omega))]
    cases l with
    | nil =>
      have hend : ss.signature[ss.position]? = none :=
        List.getElem?_eq_none (List.drop_eq_nil_iff.mp hdrop)
      have hnext : ss.next table = none := by
        unfold next typeAt
        simp only
        rw [if_pos (by omega), hend]
      rw [hnext]
    | cons p l =>
      have hsizes : streamedSizes (strings (p :: l)) =
          streamedSize p.1 + streamedSizes (strings l) := rfl
      rw [hsizes] at hwords
      obtain ⟨item, hitem, hnext, hrest⟩ :=
        next_parameter (hl p List.mem_cons_self) hdrop (by omega)
      rw [hnext]
      simp only
      rw [ih (ss.after item (putType p.2).length) (fun q hq => hl q (List.mem_cons_of_mem p hq))
        hrest (by
          show ss.numParamWordsProcessed + wordSizeFor item.type + _ < ss.numParamWords
          rw [hitem.wordSizeFor_eq]
          omega)]
      rfl

end SignatureStream

/-! ## The round trip -/

/-- The encoded signature of the parsed types. -/
def encodedSignature (l : List (List UInt8 × ℕ)) (p : List UInt8 × ℕ) : List UInt8 :=
  putEncodedUshort (encodeUshort (wordSizes (strings l))) ++ putType p.2 ++ encoded l

theorem putType_head (h : TypeOf table t type) : ∃ c tail, putType type = c :: tail ∧
      (if c.toNat < 0x80 then 1 else 2) = (putType type).length := by
  cases h with
  | @basic c hc =>
    refine ⟨c, [], putType_basic hc, ?_⟩
    rw [if_pos (isSimpleTypeSymbol_lt hc), putType_basic hc]
    rfl
  | @reference t id hclass =>
    obtain ⟨hibyte, lobyte, hput, hhi, -⟩ := putType_reference hclass.lt
    refine ⟨hibyte, [lobyte], hput, ?_⟩
    rw [if_neg (by omega), hput]
    rfl

variable {p : List UInt8 × ℕ}

theorem create_encodedSignature
    (hp : TypeOf table p.1 p.2) (hwords : wordSizes (strings l) ≤ 255) (isStatic fast : Bool) :
    ∃ ss : SignatureStream, SignatureStream.create table (encodedSignature l p) isStatic fast =
        (if isStatic then ss.next table else some ss) ∧
      ss.signature = encodedSignature l p ∧ ss.fast = fast ∧
      ss.numParamWords = wordSizes (strings l) ∧ ss.numParamWordsProcessed = 0 ∧
      ss.signature.drop ss.position = encoded l ∧ ss.signature.drop 2 = putType p.2 ++ encoded l ∧
      (isStatic = false → ss.item = ⟨.object, none⟩) := by
  obtain ⟨hibyte, lobyte, hput, -, hdecode⟩ :=
    decodeUshort_encodeUshort (show wordSizes (strings l) < 2 ^ 14 by omega)
  obtain ⟨c, tail, hc, hsize⟩ := putType_head hp
  have hsignature : encodedSignature l p = hibyte :: lobyte :: c :: (tail ++ encoded l) := by
    unfold encodedSignature
    rw [hput, hc]
    rfl
  unfold SignatureStream.create
  rw [hsignature]
  refine ⟨_, rfl, rfl, rfl, hdecode, rfl, ?_, ?_, ?_⟩
  · show (hibyte :: lobyte :: c :: (tail ++ encoded l)).drop
      (2 + if c.toNat < 0x80 then 1 else 2) = encoded l
    rw [hsize, hc, ← List.drop_drop, show (hibyte :: lobyte :: c :: (tail ++ encoded l)).drop 2 =
      c :: tail ++ encoded l from rfl, List.drop_left]
  · rw [hc]
    rfl
  · rintro rfl
    rfl

theorem sum_wordSizeFor {items : List StreamItem}
    (h : List.Forall₂ (Declares table fast) ts items) :
    (items.map fun i => wordSizeFor i.type).sum = streamedSizes ts := by
  induction h with
  | nil => rfl
  | cons hitem _ ih =>
    rw [List.map_cons, List.sum_cons, ih, hitem.wordSizeFor_eq]
    rfl

/-- Without a parameter `V`, the stream yields what is declared. -/
theorem streams_encodedSignature (hl : ∀ q ∈ l, TypeOf table q.1 q.2) (hp : TypeOf table p.1 p.2)
    (hwords : wordSizes (strings l) ≤ 255) (hvoid : void ∉ strings l) :
    Streams table (encodedSignature l p) (strings l) p.1 := by
  intro isStatic fast
  obtain ⟨ss, hcreate, hsignature, rfl, hnum, hprocessed, hdrop, hreturn, hitem⟩ :=
    create_encodedSignature hp hwords isStatic fast
  have hsizes := streamedSizes_eq hvoid
  cases isStatic with
  | false =>
    obtain ⟨items, returnItem, final, hiterate, hitems, hret, hfinal, htype, hid⟩ :=
      SignatureStream.iterate_types ss hl hvoid hdrop hp hreturn (by omega)
    rw [hitem rfl] at hiterate
    rw [hsignature] at hid
    refine ⟨ss, _, _, items, final, returnItem, hcreate, hiterate, hitems, rfl, ?_, hfinal, htype,
      hret, hid⟩
    rw [sum_wordSizeFor hitems, hnum, hsizes]
  | true =>
    cases l with
    | nil =>
      have hdone : ss.numParamWordsProcessed = ss.numParamWords := hprocessed.trans hnum.symm
      obtain ⟨item, hret, hnext, hid⟩ := SignatureStream.next_return hp hreturn hdone
      rw [hsignature] at hid
      refine ⟨ss.atReturn item.type, 1, _, [], ss.atReturn item.type, item, hcreate.trans hnext, ?_,
        .nil, rfl, hnum, rfl, rfl, hret, hid⟩
      rw [SignatureStream.iterate, if_pos (SignatureStream.atReturn_eos _ hdone)]
      rfl
    | cons q l =>
      have hsplit : streamedSizes (strings (q :: l)) =
          streamedSize q.1 + streamedSizes (strings l) := rfl
      have hpos := streamedSize_pos (Ne.symm (List.ne_of_not_mem_cons hvoid))
      obtain ⟨item, hitem', hnext, hrest⟩ :=
        SignatureStream.next_parameter (hl q List.mem_cons_self) hdrop (by omega)
      obtain ⟨items, returnItem, final, hiterate, hitems, hret, hfinal, htype, hid⟩ :=
        SignatureStream.iterate_types (ss.after item (putType q.2).length)
          (fun q' hq' => hl q' (List.mem_cons_of_mem q hq')) (List.not_mem_of_not_mem_cons hvoid)
          hrest hp hreturn (by
            show ss.numParamWordsProcessed + wordSizeFor item.type + _ = ss.numParamWords
            rw [hitem'.wordSizeFor_eq]
            omega)
      rw [SignatureStream.after_item ss _ hitem'] at hiterate
      have hall : List.Forall₂ (Declares table ss.fast) (strings (q :: l)) (item :: items) :=
        .cons hitem' hitems
      refine ⟨ss.after item (putType q.2).length, _, _, item :: items, final, returnItem,
        hcreate.trans hnext, hiterate, hall, rfl, ?_, hfinal, htype, hret, ?_⟩
      · rw [sum_wordSizeFor hall, hsizes]
        exact hnum
      · intro classId hclassId
        rw [← hsignature]
        exact hid classId hclassId

/-- With a parameter `V`, it never gets to the return type. -/
theorem not_streams_encodedSignature
    (hl : ∀ q ∈ l, TypeOf table q.1 q.2) (hp : TypeOf table p.1 p.2)
    (hwords : wordSizes (strings l) ≤ 255) (hvoid : void ∈ strings l)
    (params : List (List UInt8)) (ret : List UInt8) :
    ¬ Streams table (encodedSignature l p) params ret := by
  intro h
  obtain ⟨ss', fuel, items, paramItems, final, returnItem, hcreate', hiterate, -⟩ := h false false
  obtain ⟨ss, hcreate, hsignature, -, hnum, hprocessed, hdrop, -⟩ :=
    create_encodedSignature hp hwords false false
  have hlt := streamedSizes_lt hvoid
  obtain rfl : ss = ss' := Option.some.inj (hcreate.symm.trans hcreate')
  rw [SignatureStream.iterate_none fuel ss hl hdrop (by omega)] at hiterate
  cases hiterate

/-- **Main theorem**: the encoded signature of an accepted method string stands for what
the string declares, if and only if no parameter is `V`. -/
theorem roundTrips_iff (table : ClassTable) (s symbol : List UInt8)
    (h : internalParse table s = .ok ⟨symbol, true⟩) :
    RoundTrips table s symbol ↔ ¬ HasVoidParameter s := by
  obtain ⟨l, p, rfl, htypes, hwords, -, rfl⟩ := internalParse_method h
  have hl : ∀ q ∈ l, TypeOf table q.1 q.2 := fun q hq => (htypes q (List.mem_append_left _ hq)).2
  have hp := (htypes p (List.mem_append_right _ List.mem_cons_self)).2
  have hstrings : ∀ t ∈ strings l, ReturnDescriptor (fun _ => True) t := by
    intro t ht
    obtain ⟨q, hq, rfl⟩ := List.mem_map.mp ht
    exact (htypes q (List.mem_append_left _ hq)).1.mono fun _ _ => trivial
  constructor
  · rintro ⟨params, ret, -, -, hstreams⟩ ⟨params', ret', heq, hparams', hvoid⟩
    obtain ⟨rfl, -⟩ := methodString_unique hstrings hparams' heq
    exact not_streams_encodedSignature hl hp hwords hvoid params ret hstreams
  · intro hvoid
    refine ⟨strings l, p.1, rfl, hstrings, streams_encodedSignature hl hp hwords fun hmem => ?_⟩
    exact hvoid ⟨strings l, p.1, rfl, hstrings, hmem⟩

/-- The signature of `(I[LA;)V` goes round. -/
theorem roundTrips_intArray :
    RoundTrips strictTable
      (methodString [[byte 'I'], [byte '[', byte 'L', byte 'A', byte ';']] void)
      [0x80, 0x82, byte 'V', byte 'I', 0x80, 0x80] := by
  refine (roundTrips_iff strictTable _ _ (by decide)).mpr ?_
  rintro ⟨params, ret, heq, hparams, hvoid⟩
  have hobject : FieldType (fun _ => True) 0 [byte 'L', byte 'A', byte ';'] :=
    .object (n := [byte 'A']) (by decide) trivial
  have harray : FieldType (fun _ => True) 1 (byte '[' :: ([] ++ [byte 'L', byte 'A', byte ';'])) :=
    .array nofun hobject
  have htypes : ∀ t ∈ [[byte 'I'], [byte '[', byte 'L', byte 'A', byte ';']],
      ReturnDescriptor (fun _ => True) t := by
    intro t ht
    rcases List.mem_pair.mp ht with rfl | rfl
    · exact Or.inr ⟨0, by omega, .simple (by decide)⟩
    · exact Or.inr ⟨1, by omega, harray⟩
  obtain ⟨rfl, -⟩ := methodString_unique htypes hparams heq
  exact absurd hvoid (by decide)

/-- The signature of `(V)V` has the word count 1, and the stream over it does not
end. -/
theorem not_roundTrips_voidParameter :
    internalParse strictTable (methodString [void] void) =
        .ok ⟨[0x80, 0x81, byte 'V', byte 'V'], true⟩ ∧
      ¬ RoundTrips strictTable (methodString [void] void) [0x80, 0x81, byte 'V', byte 'V'] := by
  refine ⟨by decide, ?_⟩
  rintro ⟨params, ret, -, -, hstreams⟩
  have htype : TypeOf strictTable void (byte 'V').toNat := .basic (Or.inl rfl)
  have hencoded : [0x80, 0x81, byte 'V', byte 'V'] =
      encodedSignature [(void, (byte 'V').toNat)] (void, (byte 'V').toNat) := by decide
  rw [hencoded] at hstreams
  refine not_streams_encodedSignature ?_ htype (by decide) List.mem_cons_self params ret hstreams
  intro q hq
  rw [List.mem_singleton.mp hq]
  exact htype

end CldcVm.Handles
