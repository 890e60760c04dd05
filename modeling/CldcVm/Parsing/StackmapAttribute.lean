import CldcVm.Lib.Comp
import CldcVm.Verifier.Method

/-!
# The `StackMap` attribute

Model of `ClassFileParser::parse_stackmaps` and of the branch of `parse_code_attributes` that
calls it (`runtime/ClassFileParser.cpp`, lines 739–831 and 1221–1243). The arrays of a stack map
are allocated before its types are read; a write outside them is an error of its own here.

`EncodesMap` says which bytes of the attribute describe a stack map of the verifier, and
`recorded` which two arrays stand for it.

Results:

* `parseStackmaps_spec`: the parser raises an error, or records stack maps that fit the frame,
  and reports the bytes it has read.
-/

namespace CldcVm.Parsing

open Lib Comp
open Verifier (StackMap StackMapKind Symbol VerificationType Slot slotsOf)

/-- The errors of the parser; `arrayBounds` is a write outside an array. -/
inductive ParseError
  | truncatedClassFile | badStackmapSize | badStackmapType | badConstantpoolIndex
  | badStackmapAttributeSize | outOfMemory
  | arrayBounds
deriving DecidableEq, Repr

/-- A member of `ClassFileParser`; the state is `_bufptr`, counted from the base of the
buffer. -/
abbrev Parse (α : Type) := Comp ℕ ParseError α

/-! ## Reading the buffer -/

variable (bytes : List UInt8)

/-- `get_u1`. -/
def getU1 : Parse ℕ := fun bufptr =>
  match bytes[bufptr]? with
  | some b => .ok (b.toNat, bufptr + 1)
  | none => .error .truncatedClassFile

/-- `get_u2`. -/
def getU2 : Parse ℕ := do
  let high ← getU1 bytes
  let low ← getU1 bytes
  pure (2 ^ 8 * high + low)

/-! ## The constant pool and the arrays of a stack map -/

/-- An entry of the constant pool, as far as `parse_stackmaps` looks into it. -/
inductive PoolEntry
  | unresolvedClass (name : Symbol)
  | other
deriving DecidableEq, Repr

/-- The checks of an index of a class (lines 806–811), and `unresolved_klass_at`. -/
def unresolvedKlassAt (cp : List PoolEntry) (classIndex : ℕ) : Option Symbol :=
  if classIndex = 0 then none
  else
    match cp[classIndex]? with
    | some (.unresolvedClass name) => some name
    | _ => none

/-- `stackmap_scalars` and `stackmap_classes`. -/
structure StackmapArrays where
  scalars : List ℤ
  classes : List (Option Symbol)
deriving DecidableEq, Repr

/-- `new_int_array(temp_size)` and `new_obj_array(temp_size)`. -/
def newArrays (tempSize : ℕ) : StackmapArrays :=
  ⟨List.replicate tempSize 0, List.replicate tempSize none⟩

/-- `stackmap_scalars().int_at_put`. -/
def putScalar (arrays : StackmapArrays) (index : ℕ) (value : ℤ) : Parse StackmapArrays :=
  if index < arrays.scalars.length then
    pure { arrays with scalars := arrays.scalars.set index value }
  else throw .arrayBounds

/-- `stackmap_classes().obj_at_put`. -/
def putClass (arrays : StackmapArrays) (index : ℕ) (name : Symbol) : Parse StackmapArrays :=
  if index < arrays.classes.length then
    pure { arrays with classes := arrays.classes.set index (some name) }
  else throw .arrayBounds

/-- `ENCODE_NEWOBJECT`, as a `jint`. -/
def encodeNewObject (pc : ℕ) : ℤ := Int.bmod (pc % 2 ^ 16 * 2 ^ 16 + 0x1000 : ℕ) (2 ^ 32)

/-- The number that stands for a tag. -/
def tagValue : StackMapKind → ℤ
  | .bogus => 0
  | .integer => 1
  | .float => 2
  | .double => 3
  | .long => 4
  | .null => 5
  | .initObject => 6
  | .object => 7
  | .newObject bci => encodeNewObject bci
  | .long2 => 9
  | .double2 => 10

/-! ## `parse_stackmaps` -/

/-- The variables of the loop over the types; `size_delta` counts the second slots. -/
structure MapState where
  arrays : StackmapArrays
  index : ℕ
  sizeDelta : ℕ

section Parser

variable (cp : List PoolEntry) (codeLength : ℕ)

/-- `stackmap_scalars().int_at_put(index++, value)`. -/
def MapState.push (st : MapState) (value : ℤ) : Parse MapState := do
  let arrays ← putScalar st.arrays st.index value
  pure { st with arrays := arrays, index := st.index + 1 }

/-- The second slot of a `Long` or `Double` (lines 795–803). -/
def pushSecond (j maxSize stackType : ℕ) (st : MapState) : Parse MapState :=
  if stackType = 4 ∨ stackType = 3 then
    if j + st.sizeDelta + 1 ≥ maxSize then throw .badStackmapSize
    else do
      let st ← st.push (if stackType = 4 then 9 else 10)
      pure { st with sizeDelta := st.sizeDelta + 1 }
  else pure st

/-- The case of `ITEM_Object` (lines 804–815). -/
def pushObject (st : MapState) : Parse MapState := do
  let classIndex ← getU2 bytes
  match unresolvedKlassAt cp classIndex with
  | none => throw .badConstantpoolIndex
  | some name => do
    let arrays ← putScalar st.arrays st.index (tagValue .object)
    let arrays ← putClass arrays st.index name
    pure { st with arrays := arrays, index := st.index + 1 }

/-- The case of `ITEM_NewObject` (lines 782–788). -/
def pushNewObject (st : MapState) : Parse MapState := do
  let newInstr ← getU2 bytes
  if newInstr ≥ codeLength then throw .badStackmapType
  else st.push (encodeNewObject newInstr)

/-- One type of a list: the `j`th of its types (lines 773–818). -/
def parseType (j maxSize : ℕ) (st : MapState) : Parse MapState := do
  let stackType ← getU1 bytes
  if j + st.sizeDelta ≥ maxSize then throw .badStackmapSize
  else if stackType = 8 then pushNewObject bytes codeLength st
  else if stackType < 7 then do
    let st ← st.push stackType
    pushSecond j maxSize stackType st
  else if stackType = 7 then pushObject bytes cp st
  else throw .badStackmapType

/-- The loop over the types of a list, with `n` types to go. The size is written again after
each type. -/
def parseTypesLoop (size sizeIndex maxSize : ℕ) : (n : ℕ) → MapState → Parse MapState
  | 0, st => pure st
  | n + 1, st => do
    let st ← parseType bytes cp codeLength (size - (n + 1)) maxSize st
    let arrays ← putScalar st.arrays sizeIndex (size + st.sizeDelta : ℕ)
    parseTypesLoop size sizeIndex maxSize n { st with arrays := arrays }

/-- One turn of the loop of lines 761–821: the locals, or the stack. -/
def parseTypes (maxSize : ℕ) (arrays : StackmapArrays) (index : ℕ) :
    Parse (StackmapArrays × ℕ) := do
  let size ← getU2 bytes
  let st ← parseTypesLoop bytes cp codeLength size index maxSize size ⟨arrays, index + 1, 0⟩
  pure (st.arrays, st.index)

/-- One stack map (lines 748–825); `allocates` says whether its arrays can be allocated. -/
def parseStackmap (maxStack frameSize : ℕ) (allocates : Bool) : Parse StackmapArrays :=
  if allocates then do
    let stackmapOffset ← getU2 bytes
    let arrays ← putScalar (newArrays (maxStack + frameSize + 4)) 0 stackmapOffset
    let (arrays, index) ← parseTypes bytes cp codeLength frameSize arrays 1
    let (arrays, _) ← parseTypes bytes cp codeLength maxStack arrays index
    pure arrays
  else throw .outOfMemory

/-- The loop over the stack maps. -/
def parseStackmapsLoop (maxStack frameSize : ℕ) (allocates : ℕ → Bool) :
    (n : ℕ) → Parse (List StackmapArrays)
  | 0 => pure []
  | n + 1 => do
    let arrays ← parseStackmap bytes cp codeLength maxStack frameSize (allocates n)
    let rest ← parseStackmapsLoop maxStack frameSize allocates n
    pure (arrays :: rest)

/-- `parse_stackmaps`: the stack maps, and the number of bytes it reports. -/
def parseStackmaps (maxStack frameSize : ℕ) (allocates : ℕ → Bool) (numStackmaps : ℕ) :
    Parse (List StackmapArrays × ℕ) := do
  let startpos ← get
  let stackmaps ← parseStackmapsLoop bytes cp codeLength maxStack frameSize allocates numStackmaps
  let endpos ← get
  pure (stackmaps, endpos - startpos + 2)

/-- The branch of the `StackMap` attribute in `parse_code_attributes`; the array of all maps is
allocated before the maps. -/
def parseStackmapAttribute (maxStack maxLocals : ℕ) (allocates : ℕ → Bool)
    (attributeLength : ℕ) : Parse (List StackmapArrays) := do
  let numStackmaps ← getU2 bytes
  if allocates numStackmaps then do
    let (stackmaps, stackmapAttributeLength) ←
      parseStackmaps bytes cp codeLength maxStack maxLocals allocates numStackmaps
    if stackmapAttributeLength ≠ attributeLength then throw .badStackmapAttributeSize
    else pure stackmaps
  else throw .outOfMemory

/-! ## The attribute and the arrays of a stack map -/

/-- A `u2` of the class file. -/
def u2 (n : ℕ) : List UInt8 := [UInt8.ofNat (n / 2 ^ 8), UInt8.ofNat n]

/-- The bytes of the attribute that stand for a type. -/
inductive EncodesType : VerificationType → List UInt8 → Prop
  | bogus : EncodesType .bogus [0]
  | integer : EncodesType .integer [1]
  | float : EncodesType .float [2]
  | double : EncodesType .double [3]
  | long : EncodesType .long [4]
  | null : EncodesType .null [5]
  | initObject : EncodesType .initObject [6]
  | object {classIndex : ℕ} {klass : Symbol} : classIndex < 2 ^ 16 →
      unresolvedKlassAt cp classIndex = some klass →
      EncodesType (.object klass) (7 :: u2 classIndex)
  | newObject {bci : ℕ} : bci < 2 ^ 16 → bci < codeLength →
      EncodesType (.newObject bci) (8 :: u2 bci)

/-- The bytes of the types of a list, without their count. -/
inductive EncodesTypes : List VerificationType → List UInt8 → Prop
  | nil : EncodesTypes [] []
  | snoc {types : List VerificationType} {enc : List UInt8} {type : VerificationType}
      {enc' : List UInt8} : EncodesTypes types enc → EncodesType cp codeLength type enc' →
      EncodesTypes (types ++ [type]) (enc ++ enc')

/-- The bytes of a stack map. -/
structure EncodesMap (map : StackMap) (enc : List UInt8) : Prop where
  split : ∃ locals stack, EncodesTypes cp codeLength map.locals locals ∧
    EncodesTypes cp codeLength map.stack stack ∧
    enc = u2 map.offset ++ (u2 map.locals.length ++ locals) ++ (u2 map.stack.length ++ stack)
  offset_lt : map.offset < 2 ^ 16
  locals_lt : map.locals.length < 2 ^ 16
  stack_lt : map.stack.length < 2 ^ 16

/-- The stack maps that an attribute holds, and their bytes. -/
inductive EncodesMaps : List StackMap → List UInt8 → Prop
  | nil : EncodesMaps [] []
  | cons {map : StackMap} {enc : List UInt8} {maps : List StackMap} {rest : List UInt8} :
      EncodesMap cp codeLength map enc → EncodesMaps maps rest →
      EncodesMaps (map :: maps) (enc ++ rest)

end Parser

/-- The entries of the two arrays for a slot. -/
def slotCell (slot : Slot) : ℤ × Option Symbol := (tagValue slot.tag, slot.klass)

/-- The entries for a list of types: the number of its slots, and the slots. -/
def listCells (types : List VerificationType) : List (ℤ × Option Symbol) :=
  (((slotsOf types).length : ℤ), none) :: (slotsOf types).map slotCell

/-- The entries for a stack map. -/
def mapCells (map : StackMap) : List (ℤ × Option Symbol) :=
  ((map.offset : ℤ), none) :: listCells map.locals ++ listCells map.stack

/-- Two arrays of `tempSize` entries that begin with the given ones. -/
def arraysOf (tempSize : ℕ) (cells : List (ℤ × Option Symbol)) : StackmapArrays :=
  ⟨cells.map Prod.fst ++ List.replicate (tempSize - cells.length) 0,
    cells.map Prod.snd ++ List.replicate (tempSize - cells.length) none⟩

/-- The arrays that stand for a stack map of a method. -/
def recorded (maxStack frameSize : ℕ) (map : StackMap) : StackmapArrays :=
  arraysOf (maxStack + frameSize + 4) (mapCells map)

/-! ## Reading -/

/-- The bytes from `pos` to `pos'`. -/
def Consumes (bytes : List UInt8) (pos pos' : ℕ) (enc : List UInt8) : Prop :=
  bytes.drop pos = enc ++ bytes.drop pos' ∧ pos' = pos + enc.length

theorem Consumes.refl (bytes : List UInt8) (pos : ℕ) : Consumes bytes pos pos [] := ⟨rfl, rfl⟩

theorem Consumes.trans {bytes : List UInt8} {pos pos' pos'' : ℕ} {enc enc' : List UInt8}
    (h : Consumes bytes pos pos' enc) (h' : Consumes bytes pos' pos'' enc') :
    Consumes bytes pos pos'' (enc ++ enc') := by
  refine ⟨?_, ?_⟩
  · rw [h.1, h'.1, List.append_assoc]
  · rw [h'.2, h.2, List.length_append, Nat.add_assoc]

/-- From `pos`, the member returns with `Q`, or raises an error; it writes nowhere outside an
array. -/
def Returns {α : Type} (pos : ℕ) (Q : α → ℕ → Prop) (x : Parse α) : Prop :=
  Triple (fun bufptr => bufptr = pos) (fun e => e ≠ .arrayBounds) Q x

theorem Returns.bind {α β : Type} {pos : ℕ} {Q : α → ℕ → Prop} {S : β → ℕ → Prop} {x : Parse α}
    {f : α → Parse β} (hx : Returns pos Q x) (hf : ∀ a pos', Q a pos' → Returns pos' S (f a)) :
    Returns pos S (x >>= f) :=
  Triple.bind hx fun a pos' hQ => hf a pos' hQ pos' rfl

theorem Returns.pure {α : Type} {pos : ℕ} {Q : α → ℕ → Prop} {a : α} (h : Q a pos) :
    Returns pos Q (pure a) :=
  Triple.pure fun _ hs => hs ▸ h

theorem Returns.throw {α : Type} {pos : ℕ} {Q : α → ℕ → Prop} {e : ParseError}
    (h : e ≠ .arrayBounds) : Returns pos Q (throw e) :=
  Triple.throw h

theorem Returns.get_bind {α : Type} {pos : ℕ} {Q : α → ℕ → Prop} {f : ℕ → Parse α}
    (h : Returns pos Q (f pos)) : Returns pos Q (get >>= f) := by
  rintro _ rfl
  exact h _ rfl

theorem getU1_spec (pos : ℕ) :
    Returns pos (fun v pos' => ∃ b, Consumes bytes pos pos' [b] ∧ v = b.toNat) (getU1 bytes) := by
  rintro _ rfl
  rename_i pos
  unfold getU1
  rcases hb : bytes[pos]? with _ | b
  · exact fun h => by cases h
  · refine ⟨b, ⟨?_, rfl⟩, rfl⟩
    obtain ⟨hlt, rfl⟩ := List.getElem?_eq_some_iff.mp hb
    exact List.drop_eq_getElem_cons hlt

theorem getU2_spec (pos : ℕ) :
    Returns pos (fun v pos' => Consumes bytes pos pos' (u2 v) ∧ v < 2 ^ 16) (getU2 bytes) := by
  refine (getU1_spec bytes pos).bind ?_
  rintro _ pos₁ ⟨high, hhigh, rfl⟩
  refine (getU1_spec bytes pos₁).bind ?_
  rintro _ pos₂ ⟨low, hlow, rfl⟩
  have h1 := high.toNat_lt
  have h2 := low.toNat_lt
  have hu2 : u2 (2 ^ 8 * high.toNat + low.toNat) = [high] ++ [low] := by
    have hdiv : (2 ^ 8 * high.toNat + low.toNat) / 2 ^ 8 = high.toNat := by omega
    unfold u2
    rw [hdiv, UInt8.ofNat_toNat]
    have hlow : UInt8.ofNat (2 ^ 8 * high.toNat + low.toNat) = low := by
      apply UInt8.toNat.inj
      rw [UInt8.toNat_ofNat']
      omega
    rw [hlow]
    rfl
  apply Returns.pure
  refine ⟨?_, by omega⟩
  rw [hu2]
  exact hhigh.trans hlow

/-! ## Writing -/

section Writing

variable {tempSize : ℕ} {cells : List (ℤ × Option Symbol)}

theorem set_padded {α : Type} (l : List α) (d v : α) (h : l.length < tempSize) :
    (l ++ List.replicate (tempSize - l.length) d).set l.length v =
      (l ++ [v]) ++ List.replicate (tempSize - (l ++ [v]).length) d := by
  obtain ⟨n, hn⟩ : ∃ n, tempSize - l.length = n + 1 := ⟨tempSize - l.length - 1, by omega⟩
  have hn' : tempSize - (l ++ [v]).length = n := by
    rw [List.length_append, List.length_singleton]
    omega
  rw [hn, hn', List.set_append_right _ _ le_rfl, Nat.sub_self, List.replicate_succ,
    List.set_cons_zero, List.append_assoc, List.singleton_append]

theorem length_scalars (h : cells.length ≤ tempSize) :
    (arraysOf tempSize cells).scalars.length = tempSize := by
  simp only [arraysOf, List.length_append, List.length_map, List.length_replicate]
  omega

theorem length_classes (h : cells.length ≤ tempSize) :
    (arraysOf tempSize cells).classes.length = tempSize := by
  simp only [arraysOf, List.length_append, List.length_map, List.length_replicate]
  omega

theorem newArrays_eq (tempSize : ℕ) : newArrays tempSize = arraysOf tempSize [] := by
  simp [newArrays, arraysOf]

/-- The next entry is written. -/
theorem putScalar_push (value : ℤ) (h : cells.length < tempSize) :
    putScalar (arraysOf tempSize cells) cells.length value =
      pure (arraysOf tempSize (cells ++ [(value, none)])) := by
  have hset := @set_padded tempSize ℤ (cells.map Prod.fst) 0 value (by simpa using h)
  have hpad : List.replicate (tempSize - cells.length) (none : Option Symbol) =
      none :: List.replicate (tempSize - (cells.length + 1)) none := by
    rw [← List.replicate_succ]
    congr 1
    omega
  rw [List.length_append, List.length_map, List.length_singleton] at hset
  unfold putScalar
  rw [if_pos (by rwa [length_scalars h.le])]
  unfold arraysOf
  simp only [hset, hpad, List.map_append, List.map_cons, List.map_nil, List.length_append,
    List.length_singleton, List.append_assoc, List.singleton_append]

theorem putClass_last (value : ℤ) (name : Symbol) (h : cells.length < tempSize) :
    putClass (arraysOf tempSize (cells ++ [(value, none)])) cells.length name =
      pure (arraysOf tempSize (cells ++ [(value, some name)])) := by
  have hlength : (cells ++ [(value, (none : Option Symbol))]).length ≤ tempSize := by
    rw [List.length_append, List.length_singleton]
    omega
  unfold putClass
  rw [if_pos (by rwa [length_classes hlength])]
  unfold arraysOf
  simp

theorem putScalar_set (old value : ℤ) (rest : List (ℤ × Option Symbol))
    (h : (cells ++ (old, none) :: rest).length ≤ tempSize) :
    putScalar (arraysOf tempSize (cells ++ (old, none) :: rest)) cells.length value =
      pure (arraysOf tempSize (cells ++ (value, none) :: rest)) := by
  unfold putScalar
  rw [length_scalars h, if_pos (by rw [List.length_append, List.length_cons] at h; omega)]
  unfold arraysOf
  simp

end Writing

/-! ## The types -/

section Types

variable (cp : List PoolEntry) (codeLength : ℕ)

/-- The arrays hold the entries so far, and `index` is behind the last one. -/
def Filled (tempSize : ℕ) (cells : List (ℤ × Option Symbol)) (st : MapState) : Prop :=
  st.arrays = arraysOf tempSize cells ∧ st.index = cells.length

variable {cp codeLength} {tempSize : ℕ} {cells : List (ℤ × Option Symbol)} {st : MapState}

theorem Filled.push (h : Filled tempSize cells st) (value : ℤ) (hlt : cells.length < tempSize) :
    st.push value = pure { st with
      arrays := arraysOf tempSize (cells ++ [(value, none)]), index := st.index + 1 } := by
  unfold MapState.push
  rw [h.1, h.2, putScalar_push value hlt]
  rfl

theorem Filled.next (cells : List (ℤ × Option Symbol)) (cell : ℤ × Option Symbol) (delta : ℕ)
    (h : Filled tempSize cells st) : Filled tempSize (cells ++ [cell])
      { arrays := arraysOf tempSize (cells ++ [cell]), index := st.index + 1,
        sizeDelta := delta } := by
  refine ⟨rfl, ?_⟩
  show st.index + 1 = _
  rw [h.2, List.length_append, List.length_singleton]

theorem encodesType_single {b : UInt8} (hb : b.toNat < 7) (h3 : b.toNat ≠ 3) (h4 : b.toNat ≠ 4) :
    ∃ type, EncodesType cp codeLength type [b] ∧
      type.slots.map slotCell = [((b.toNat : ℤ), none)] := by
  obtain h | h | h | h | h :
      b.toNat = 0 ∨ b.toNat = 1 ∨ b.toNat = 2 ∨ b.toNat = 5 ∨ b.toNat = 6 := by omega
  · obtain rfl : b = 0 := UInt8.toNat.inj h
    exact ⟨.bogus, .bogus, rfl⟩
  · obtain rfl : b = 1 := UInt8.toNat.inj h
    exact ⟨.integer, .integer, rfl⟩
  · obtain rfl : b = 2 := UInt8.toNat.inj h
    exact ⟨.float, .float, rfl⟩
  · obtain rfl : b = 5 := UInt8.toNat.inj h
    exact ⟨.null, .null, rfl⟩
  · obtain rfl : b = 6 := UInt8.toNat.inj h
    exact ⟨.initObject, .initObject, rfl⟩

theorem encodesType_double {b : UInt8} (hb : b.toNat = 4 ∨ b.toNat = 3) :
    ∃ type, EncodesType cp codeLength type [b] ∧ type.slots.map slotCell =
      [((b.toNat : ℤ), none)] ++ [((if b.toNat = 4 then 9 else 10 : ℤ), none)] := by
  obtain h | h := hb
  · obtain rfl : b = 4 := UInt8.toNat.inj h
    exact ⟨.long, .long, rfl⟩
  · obtain rfl : b = 3 := UInt8.toNat.inj h
    exact ⟨.double, .double, rfl⟩

/-- What reading a type does: the entries of its slots are added, within the limit. -/
def TypeRead (cp : List PoolEntry) (codeLength tempSize j maxSize pos : ℕ)
    (cells : List (ℤ × Option Symbol)) (st st' : MapState) (pos' : ℕ) : Prop :=
  ∃ type enc, EncodesType cp codeLength type enc ∧ Consumes bytes pos pos' enc ∧
    Filled tempSize (cells ++ type.slots.map slotCell) st' ∧
    st'.sizeDelta + 1 = st.sizeDelta + type.slots.length ∧ j + 1 + st'.sizeDelta ≤ maxSize

variable {j maxSize pos pos' : ℕ}

theorem pushNewObject_spec (h : Filled tempSize cells st) (hlt : cells.length < tempSize)
    (hj : j + st.sizeDelta < maxSize) (htag : Consumes bytes pos pos' [8]) :
    Returns pos' (TypeRead bytes cp codeLength tempSize j maxSize pos cells st)
      (pushNewObject bytes codeLength st) := by
  refine (getU2_spec bytes pos').bind ?_
  rintro newInstr pos₁ ⟨hread, hu2⟩
  split_ifs with hout
  · exact .throw (by simp)
  · rw [h.push _ hlt]
    refine .pure ⟨.newObject newInstr, 8 :: u2 newInstr, .newObject hu2 (not_le.mp hout),
      htag.trans hread, Filled.next cells _ _ h, rfl, ?_⟩
    show j + 1 + st.sizeDelta ≤ maxSize
    omega

theorem pushObject_spec (h : Filled tempSize cells st) (hlt : cells.length < tempSize)
    (hj : j + st.sizeDelta < maxSize) (htag : Consumes bytes pos pos' [7]) :
    Returns pos' (TypeRead bytes cp codeLength tempSize j maxSize pos cells st)
      (pushObject bytes cp st) := by
  refine (getU2_spec bytes pos').bind ?_
  rintro classIndex pos₁ ⟨hread, hu2⟩
  rcases hklass : unresolvedKlassAt cp classIndex with _ | name
  · exact .throw (by simp)
  · simp only
    rw [h.1, h.2, putScalar_push _ hlt, pure_bind, putClass_last _ _ hlt, pure_bind, ← h.2]
    refine .pure ⟨.object name, 7 :: u2 classIndex, .object hu2 hklass,
      htag.trans hread, Filled.next cells _ _ h, rfl, ?_⟩
    show j + 1 + st.sizeDelta ≤ maxSize
    omega

/-- After the first slot of a tag below `ITEM_Object`. -/
theorem pushSecond_spec {b : UInt8} (h : Filled tempSize cells st)
    (hroom : cells.length + (maxSize - (j + st.sizeDelta)) ≤ tempSize)
    (hj : j + st.sizeDelta < maxSize) (h7 : b.toNat < 7) (htag : Consumes bytes pos pos' [b]) :
    Returns pos' (TypeRead bytes cp codeLength tempSize j maxSize pos cells st)
      (pushSecond j maxSize b.toNat { st with
        arrays := arraysOf tempSize (cells ++ [((b.toNat : ℤ), none)])
        index := st.index + 1 }) := by
  have hfirst := Filled.next cells ((b.toNat : ℤ), none) st.sizeDelta h
  unfold pushSecond
  by_cases hdouble : b.toNat = 4 ∨ b.toNat = 3
  · rw [if_pos hdouble]
    obtain ⟨type, htype, hslots⟩ := @encodesType_double cp codeLength b hdouble
    have hlength := congrArg List.length hslots
    simp only [List.length_map, List.length_append, List.length_singleton] at hlength
    by_cases hsecond : j + st.sizeDelta + 1 ≥ maxSize
    · rw [if_pos hsecond]
      exact .throw (by simp)
    · rw [if_neg hsecond,
        hfirst.push _ (by rw [List.length_append, List.length_singleton]; omega), pure_bind]
      refine .pure ⟨type, [b], htype, htag, ?_, ?_, ?_⟩
      · rw [hslots, ← List.append_assoc]
        exact Filled.next _ _ _ hfirst
      · rw [hlength]
      · show j + 1 + (st.sizeDelta + 1) ≤ maxSize
        omega
  · rw [if_neg hdouble]
    obtain ⟨h4, h3⟩ := not_or.mp hdouble
    obtain ⟨type, htype, hslots⟩ := @encodesType_single cp codeLength b h7 h3 h4
    have hlength := congrArg List.length hslots
    rw [List.length_map, List.length_singleton] at hlength
    refine .pure ⟨type, [b], htype, htag, ?_, ?_, ?_⟩
    · rw [hslots]
      exact hfirst
    · rw [hlength]
    · show j + 1 + st.sizeDelta ≤ maxSize
      omega

/-- **Step lemma**: one type of a list. -/
theorem parseType_spec (h : Filled tempSize cells st)
    (hroom : cells.length + (maxSize - (j + st.sizeDelta)) ≤ tempSize) :
    Returns pos (TypeRead bytes cp codeLength tempSize j maxSize pos cells st)
      (parseType bytes cp codeLength j maxSize st) := by
  refine (getU1_spec bytes pos).bind ?_
  rintro _ pos₁ ⟨b, hread, rfl⟩
  split_ifs with hsize h8 h7 h7'
  · exact .throw (by simp)
  · obtain rfl : b = 8 := UInt8.toNat.inj h8
    exact pushNewObject_spec bytes h (by omega) (by omega) hread
  · rw [h.push _ (by omega), pure_bind]
    exact pushSecond_spec bytes h (by omega) (by omega) h7 hread
  · obtain rfl : b = 7 := UInt8.toNat.inj h7'
    exact pushObject_spec bytes h (by omega) (by omega) hread
  · exact .throw (by simp)

/-- What reading a list of types does: it fits the limit, and its entries are added. -/
def TypesRead (cp : List PoolEntry) (codeLength tempSize maxSize start size : ℕ)
    (head : List (ℤ × Option Symbol)) (st' : MapState) (pos' : ℕ) : Prop :=
  ∃ types enc, EncodesTypes cp codeLength types enc ∧ types.length = size ∧
    Consumes bytes start pos' enc ∧ (slotsOf types).length ≤ maxSize ∧
    Filled tempSize (head ++ listCells types) st'

theorem slotsOf_snoc (types : List VerificationType) (type : VerificationType) :
    slotsOf (types ++ [type]) = slotsOf types ++ type.slots := by
  simp [slotsOf]

/-- **Run lemma**: the loop over the types. The entry before the types holds the final number
of slots only after the last of them. -/
theorem parseTypesLoop_spec {start size n : ℕ} {head : List (ℤ × Option Symbol)} {x : ℤ}
    {types : List VerificationType} {enc : List UInt8}
    (henc : EncodesTypes cp codeLength types enc) (hread : Consumes bytes start pos enc)
    (hsize : types.length + n = size)
    (hdelta : st.sizeDelta + types.length = (slotsOf types).length)
    (hle : (slotsOf types).length ≤ maxSize)
    (hfilled : Filled tempSize (head ++ (x, none) :: (slotsOf types).map slotCell) st)
    (hx : n = 0 → x = (slotsOf types).length) (hroom : head.length + 1 + maxSize ≤ tempSize) :
    Returns pos (TypesRead bytes cp codeLength tempSize maxSize start size head)
      (parseTypesLoop bytes cp codeLength size head.length maxSize n st) := by
  induction n generalizing pos st x types enc with
  | zero =>
    refine .pure ⟨types, enc, henc, hsize, hread, hle, ?_⟩
    rw [listCells, ← hx rfl]
    exact hfilled
  | succ n ih =>
    have hj : size - (n + 1) = types.length := by omega
    have hcells : (head ++ (x, none) :: (slotsOf types).map slotCell).length =
        head.length + 1 + (slotsOf types).length := by
      simp only [List.length_append, List.length_cons, List.length_map]
      omega
    rw [parseTypesLoop, hj]
    refine (parseType_spec bytes hfilled (by omega)).bind ?_
    rintro st' pos' ⟨type, enc', htype, hread', hfilled', hdelta', hlimit⟩
    have hslots : (slotsOf (types ++ [type])).length =
        (slotsOf types).length + type.slots.length := by
      rw [slotsOf_snoc, List.length_append]
    have hlength : (types ++ [type]).length = types.length + 1 := by
      rw [List.length_append, List.length_singleton]
    rw [List.append_assoc, List.cons_append, ← List.map_append, ← slotsOf_snoc] at hfilled'
    rw [hfilled'.1, putScalar_set _ _ _ (by
      simp only [List.length_append, List.length_cons, List.length_map]
      omega), pure_bind]
    refine ih (henc.snoc htype) (hread.trans hread') (by omega) (by simp only; omega) (by omega)
      ⟨rfl, ?_⟩ (fun hn => ?_)
    · show st'.index = _
      rw [hfilled'.2]
      simp only [List.length_append, List.length_cons]
    · push_cast
      omega

theorem parseTypes_spec {head : List (ℤ × Option Symbol)}
    (hroom : head.length + 1 + maxSize ≤ tempSize) :
    Returns pos (fun result pos' => ∃ types enc, EncodesTypes cp codeLength types enc ∧
        types.length < 2 ^ 16 ∧ Consumes bytes pos pos' (u2 types.length ++ enc) ∧
        (slotsOf types).length ≤ maxSize ∧
        result = (arraysOf tempSize (head ++ listCells types), (head ++ listCells types).length))
      (parseTypes bytes cp codeLength maxSize (arraysOf tempSize head) head.length) := by
  have hzero : arraysOf tempSize head = arraysOf tempSize (head ++ [(0, none)]) := by
    obtain ⟨n, hn⟩ : ∃ n, tempSize - head.length = n + 1 := ⟨tempSize - head.length - 1, by omega⟩
    have hn' : tempSize - (head ++ [((0 : ℤ), (none : Option Symbol))]).length = n := by
      rw [List.length_append, List.length_singleton]
      omega
    unfold arraysOf
    rw [hn, hn']
    simp [List.replicate_succ]
  refine (getU2_spec bytes pos).bind ?_
  rintro size pos₁ ⟨hread, hsize⟩
  have hloop : Returns pos₁ (TypesRead bytes cp codeLength tempSize maxSize pos₁ size head)
      (parseTypesLoop bytes cp codeLength size head.length maxSize size
        ⟨arraysOf tempSize head, head.length + 1, 0⟩) := by
    refine parseTypesLoop_spec bytes (x := 0) .nil (.refl bytes pos₁) (by simp) rfl
      (by simp [slotsOf]) ⟨hzero, ?_⟩ (fun _ => rfl) hroom
    simp [slotsOf]
  refine hloop.bind ?_
  rintro st pos₂ ⟨types, enc, henc, rfl, hread', hle, hfilled⟩
  refine .pure ⟨types, enc, henc, hsize, hread.trans hread', hle, ?_⟩
  rw [hfilled.1, hfilled.2]

end Types

/-! ## The attribute -/

section Attribute

variable (cp : List PoolEntry) (codeLength maxStack frameSize : ℕ)

/-- The stack map fits the frame of the method. -/
def FitsFrame (map : StackMap) : Prop :=
  map.localSlots.length ≤ frameSize ∧ map.stackSlots.length ≤ maxStack

theorem parseStackmap_spec (allocates : Bool) (pos : ℕ) :
    Returns pos (fun arrays pos' => ∃ map enc, EncodesMap cp codeLength map enc ∧
        Consumes bytes pos pos' enc ∧ FitsFrame maxStack frameSize map ∧
        arrays = recorded maxStack frameSize map)
      (parseStackmap bytes cp codeLength maxStack frameSize allocates) := by
  unfold parseStackmap
  split_ifs
  · refine (getU2_spec bytes pos).bind ?_
    rintro offset pos₁ ⟨hoffset, hoffset_lt⟩
    rw [newArrays_eq, show (0 : ℕ) = ([] : List (ℤ × Option Symbol)).length from rfl,
      putScalar_push _ (by simp), pure_bind]
    have hfirst : ([((offset : ℤ), (none : Option Symbol))]).length + 1 + frameSize ≤
        maxStack + frameSize + 4 := by
      rw [List.length_singleton]
      omega
    refine (parseTypes_spec bytes hfirst).bind ?_
    rintro ⟨arrays, index⟩ pos₂ ⟨locals, encLocals, hlocals, hlocals_lt, hread, hle, heq⟩
    obtain ⟨rfl, rfl⟩ := Prod.mk.inj heq
    have hhead : ([((offset : ℤ), none)] ++ listCells locals).length + 1 + maxStack ≤
        maxStack + frameSize + 4 := by
      simp only [listCells, List.length_append, List.length_cons, List.length_map, List.length_nil]
      omega
    refine (parseTypes_spec bytes hhead).bind ?_
    rintro ⟨arrays, index⟩ pos₃ ⟨stack, encStack, hstack, hstack_lt, hread', hle', heq'⟩
    obtain ⟨rfl, rfl⟩ := Prod.mk.inj heq'
    exact .pure ⟨⟨offset, locals, stack⟩, _,
      ⟨⟨encLocals, encStack, hlocals, hstack, rfl⟩, hoffset_lt, hlocals_lt, hstack_lt⟩,
      (hoffset.trans hread).trans hread', ⟨hle, hle'⟩, rfl⟩
  · exact .throw (by simp)

/-- What a run over `n` stack maps records: maps that fit the frame, from the bytes read. -/
def Recorded (start n : ℕ) (stackmaps : List StackmapArrays) (pos' : ℕ) : Prop :=
  ∃ maps enc, EncodesMaps cp codeLength maps enc ∧ maps.length = n ∧
    Consumes bytes start pos' enc ∧ (∀ map ∈ maps, FitsFrame maxStack frameSize map) ∧
    stackmaps = maps.map (recorded maxStack frameSize)

theorem parseStackmapsLoop_spec (allocates : ℕ → Bool) (n pos : ℕ) :
    Returns pos (Recorded bytes cp codeLength maxStack frameSize pos n)
      (parseStackmapsLoop bytes cp codeLength maxStack frameSize allocates n) := by
  induction n generalizing pos with
  | zero =>
    exact .pure ⟨[], [], .nil, rfl, .refl bytes pos, fun _ h => absurd h List.not_mem_nil, rfl⟩
  | succ n ih =>
    refine (parseStackmap_spec bytes cp codeLength maxStack frameSize (allocates n) pos).bind ?_
    rintro _ pos₁ ⟨map, enc, hmap, hread, hfits, rfl⟩
    refine (ih pos₁).bind ?_
    rintro _ pos₂ ⟨maps, rest, hmaps, hlength, hread', hall, rfl⟩
    refine .pure ⟨map :: maps, enc ++ rest, .cons hmap hmaps, by rw [List.length_cons, hlength],
      hread.trans hread', ?_, rfl⟩
    rintro map' hmem
    obtain rfl | hmem := List.mem_cons.mp hmem
    · exact hfits
    · exact hall map' hmem

/-- **Main theorem**: for any bytes, constant pool and frame, `parse_stackmaps` raises an error
and writes nowhere outside its arrays, or it records as many stack maps as it is asked
for. Their bytes are those it has read, their locals fit `frame_size` and their stack
`max_stack` words; the number it reports is that of these bytes and the two of the count
before them. The caller has then read the attribute to its end. -/
theorem parseStackmaps_spec (allocates : ℕ → Bool) (pos : ℕ) :
    (∀ n, Returns pos (fun result pos' =>
        Recorded bytes cp codeLength maxStack frameSize pos n result.1 pos' ∧
          result.2 = pos' - pos + 2)
      (parseStackmaps bytes cp codeLength maxStack frameSize allocates n)) ∧
    (∀ attributeLength, Returns pos (fun stackmaps pos' =>
        (∃ n, Recorded bytes cp codeLength maxStack frameSize (pos + 2) n stackmaps pos') ∧
          pos' = pos + attributeLength)
      (parseStackmapAttribute bytes cp codeLength maxStack frameSize allocates
        attributeLength)) := by
  have hmaps : ∀ n pos, Returns pos (fun result pos' =>
      Recorded bytes cp codeLength maxStack frameSize pos n result.1 pos' ∧
        result.2 = pos' - pos + 2)
      (parseStackmaps bytes cp codeLength maxStack frameSize allocates n) := by
    intro n pos
    refine .get_bind ?_
    refine (parseStackmapsLoop_spec bytes cp codeLength maxStack frameSize allocates n pos).bind ?_
    intro stackmaps pos' hrecorded
    exact .get_bind (.pure ⟨hrecorded, rfl⟩)
  refine ⟨fun n => hmaps n pos, fun attributeLength => ?_⟩
  refine (getU2_spec bytes pos).bind ?_
  rintro n pos₁ ⟨hcount, -⟩
  have hpos₁ : pos₁ = pos + 2 := hcount.2
  refine Triple.ite (fun _ => ?_) fun _ => .throw (by simp)
  refine (hmaps n pos₁).bind ?_
  rintro ⟨stackmaps, reported⟩ pos₂ ⟨hrecorded, hreported⟩
  have hreported' : reported = pos₂ - pos₁ + 2 := hreported
  refine Triple.ite (fun _ => .throw (by simp)) fun hsame => ?_
  obtain ⟨maps, enc, hrest⟩ := hrecorded
  have hend := hrest.2.2.1.2
  subst hpos₁
  exact Returns.pure ⟨⟨n, maps, enc, hrest⟩, by omega⟩

end Attribute

end CldcVm.Parsing
