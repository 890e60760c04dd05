import CldcVm.References.Handle

/-!
# The registry of global references

Model of the registration of strong, weak and soft references (`memory/ObjectHeap.cpp`, lines
1000–1152 and 1198–1400; `handles/WeakRefArray.*`, `handles/SoftRefArray.*`).

Each task has one array for each type of reference. The first element of an array is for null
references. An allocation may fail.

Results:

* `run_sound`: in a run that meets the condition of `Meets` at each step, the handles that are in
  use are different, each is decoded to its type, owner and referent, a registration that fails
  changes nothing, and a slot that has been freed is used again.
* `not_sound_nullWeak`: a weak handle of null is given out after another one has been
  unregistered, and is decoded to the mark of a free slot.
-/

namespace CldcVm.References

/-! ## Reference arrays -/

/-- The address of an object of the heap, or null. -/
structure Referent where
  address : Word
  aligned : address &&& 3 = 0
  below : address ≠ 0xFFFFFFFC
deriving DecidableEq

def Referent.IsNull (referent : Referent) : Prop := referent.address = 0

instance (referent : Referent) : Decidable referent.IsNull :=
  inferInstanceAs (Decidable (referent.address = 0))

def Referent.null : Referent := ⟨0, by decide, by decide⟩

/-- `WeakRefArray::unused` and `SoftRefArray::unused`; in an array of strong references, `NULL`. -/
def unused : ReferenceType → Word
  | .strong => 0
  | .weak => -1
  | .soft => -1

/-- What `obj_at_put` writes: a soft reference starts with the highest counter. -/
def encode : ReferenceType → Word → Word
  | .strong, obj => obj
  | .weak, obj => obj
  | .soft, obj => obj ||| 3

/-- `Universe::new_obj_array`, `WeakRefArray::create` and `SoftRefArray::create`. -/
def create : ReferenceType → ℕ → List Word
  | .strong, length => List.replicate length 0
  | .weak, length => 0 :: List.replicate length (-1)
  | .soft, length => 0 :: List.replicate length (-1)

/-- `ObjArray::obj_at_clear`, `WeakRefArray::remove` and `SoftRefArray::remove`. -/
def remove : ReferenceType → List Word → ℕ → List Word
  | .strong, array, index => array.set index 0
  | .weak, array, index => array.set index (unused .weak)
  | .soft, array, index => array.set index (encode .soft (unused .soft))

/-- `SoftRefArray::get_value`. -/
def getValue (obj : Word) : Word := obj &&& ~~~3

/-! ## The registry -/

/-- `TaskContext::current_task_id`, as `get_reference_array` wants it. -/
structure TaskId where
  value : Word
  pos : 0 < value.toNat
  lt : value.toNat < maxTasks
deriving DecidableEq

/-- The arrays of all tasks; `none` is an array that has not been allocated. -/
abbrev Registry := ReferenceType → Word → Option (List Word)

/-- `set_reference_array`. -/
def setReferenceArray (registry : Registry) (type : ReferenceType) (owner : Word)
    (array : List Word) : Registry :=
  fun type' owner' => if type' = type ∧ owner' = owner then some array else registry type' owner'

/-- The `switch` of `get_reference_array`. -/
def referenceTypeOf (code : Word) : ReferenceType :=
  if code = ReferenceType.weak.code then .weak
  else if code = ReferenceType.soft.code then .soft
  else .strong

/-- `get_reference_array`, for a handle. -/
def getReferenceArray (registry : Registry) (refIndex : Word) : Option (List Word) :=
  registry (referenceTypeOf (getReferenceType refIndex)) (getReferenceOwner refIndex)

/-- `decode_reference`, and the read of the slot. -/
def decodeReference (registry : Registry) (refIndex : Word) : Option Word := do
  let array ← getReferenceArray registry refIndex
  array[(getReferenceIndex refIndex).toNat]?

/-- `get_global_ref_object`. -/
def getGlobalRefObject (registry : Registry) (refIndex : Word) : Option Word :=
  (decodeReference registry refIndex).map getValue

/-! ## Registering -/

/-- Whether the two allocations that a registration may ask for succeed. -/
structure Outcome where
  create : Bool
  grow : Bool

/-- The loop from index 1 on. -/
def firstUnused (type : ReferenceType) (array : List Word) : ℕ :=
  1 + (array.drop 1).findIdx fun obj => obj = unused type

/-- The array of twice the length, after the copy. -/
def grown (type : ReferenceType) (array : List Word) : List Word :=
  array ++ (create type (array.length * 2)).drop array.length

/-- The middle part of `register_*_reference`: the array and the index, or a failed
allocation. -/
def place (type : ReferenceType) (outcome : Outcome) (referent : Referent) (array : List Word) :
    Option (List Word × ℕ) :=
  if referent.IsNull then some (array, 0)
  else if firstUnused type array ≥ array.length then
    if outcome.grow then
      some ((grown type array).set (firstUnused type array) (encode type referent.address),
        firstUnused type array)
    else none
  else some (array.set (firstUnused type array) (encode type referent.address),
    firstUnused type array)

/-- The array of the task, or a new one. -/
def currentArray (registry : Registry) (type : ReferenceType) (owner : Word) (outcome : Outcome) :
    Option (List Word) :=
  match registry type owner with
  | some array => some array
  | none => if outcome.create then some (create type 16) else none

/-- The body of `register_strong_reference`, `register_weak_reference` and
`register_soft_reference`. -/
def registerReference (type : ReferenceType) (registry : Registry) (owner : TaskId)
    (referent : Referent) (outcome : Outcome) : Registry × Word :=
  match (currentArray registry type owner.value outcome).bind (place type outcome referent) with
  | none => (registry, -1)
  | some (array, index) =>
    (setReferenceArray registry type owner.value array,
      makeReference type.code owner.value (BitVec.ofNat 32 index))

/-- `register_strong_reference` (lines 1198–1234). -/
def registerStrongReference := registerReference .strong

/-- `register_weak_reference` (lines 1236–1274). -/
def registerWeakReference := registerReference .weak

/-- `register_soft_reference` (lines 1277–1315). -/
def registerSoftReference := registerReference .soft

/-- `register_global_ref_object` (lines 1347–1360). -/
def registerGlobalRefObject (type : ReferenceType) (registry : Registry) (owner : TaskId)
    (referent : Referent) (outcome : Outcome) : Registry × Word :=
  match type with
  | .weak => registerWeakReference registry owner referent outcome
  | .soft => registerSoftReference registry owner referent outcome
  | .strong => registerStrongReference registry owner referent outcome

/-- `unregister_global_ref_object` (lines 1362–1376), and `unregister_*_reference`. -/
def unregisterGlobalRefObject (registry : Registry) (refIndex : Word) : Registry :=
  match getReferenceArray registry refIndex with
  | none => registry
  | some array =>
    setReferenceArray registry (referenceTypeOf (getReferenceType refIndex))
      (getReferenceOwner refIndex)
      (remove (referenceTypeOf (getReferenceType refIndex)) array
        (getReferenceIndex refIndex).toNat)

/-! ## Runs -/

/-- A handle that has been given out. -/
structure Registration where
  handle : Word
  type : ReferenceType
  owner : TaskId
  referent : Referent
deriving DecidableEq

/-- The registry, and the handles in use. -/
structure State where
  registry : Registry
  live : List Registration

def State.initial : State := ⟨fun _ _ => none, []⟩

inductive Operation
  | register (type : ReferenceType) (owner : TaskId) (referent : Referent) (outcome : Outcome)
  | unregister (handle : Word)

def step (s : State) : Operation → State
  | .register type owner referent outcome =>
    let result := registerGlobalRefObject type s.registry owner referent outcome
    if result.2 = -1 then ⟨result.1, s.live⟩
    else ⟨result.1, ⟨result.2, type, owner, referent⟩ :: s.live⟩
  | .unregister handle =>
    ⟨unregisterGlobalRefObject s.registry handle, s.live.filter fun r => r.handle ≠ handle⟩

def run (s : State) (operations : List Operation) : State := operations.foldl step s

/-- The handles in use are different, and each is decoded to what has been registered. -/
structure Sound (s : State) : Prop where
  distinct : (s.live.map Registration.handle).Nodup
  type : ∀ r ∈ s.live, getReferenceType r.handle = r.type.code
  owner : ∀ r ∈ s.live, getReferenceOwner r.handle = r.owner.value
  referent : ∀ r ∈ s.live, getGlobalRefObject s.registry r.handle = some r.referent.address

/-- The condition on a step. A null reference gets the first element of the array, which has to
be as it was created and not in use; another one gets an element whose index has 24 bits. A
handle is unregistered while it is in use. -/
def Meets (s : State) : Operation → Prop
  | .register type owner referent _ =>
    if referent.IsNull then
      (∀ r ∈ s.live, r.type = type → r.owner = owner → ¬ r.referent.IsNull) ∧
        ∀ array, s.registry type owner.value = some array → array[0]? = some 0
    else ∀ array, s.registry type owner.value = some array → firstUnused type array < 2 ^ 24
  | .unregister handle => ∃ r ∈ s.live, r.handle = handle

instance (s : State) : (operation : Operation) → Decidable (Meets s operation)
  | .register type owner _ _ =>
    haveI : Decidable (∀ array, s.registry type owner.value = some array → array[0]? = some 0) :=
      inferInstanceAs (Decidable (∀ array ∈ s.registry type owner.value, array[0]? = some 0))
    haveI : Decidable (∀ array, s.registry type owner.value = some array →
        firstUnused type array < 2 ^ 24) :=
      inferInstanceAs (Decidable (∀ array ∈ s.registry type owner.value,
        firstUnused type array < 2 ^ 24))
    inferInstanceAs (Decidable (ite _ _ _))
  | .unregister handle => inferInstanceAs (Decidable (∃ r ∈ s.live, r.handle = handle))

/-- Every step of the run meets the condition. -/
def AllMeet (s : State) : List Operation → Prop
  | [] => True
  | operation :: operations => Meets s operation ∧ AllMeet (step s operation) operations

instance decidableAllMeet :
    (s : State) → (operations : List Operation) → Decidable (AllMeet s operations)
  | _, [] => isTrue trivial
  | s, operation :: operations =>
    haveI := decidableAllMeet (step s operation) operations
    inferInstanceAs (Decidable (_ ∧ _))

/-! ## Slots -/

theorem and_three_add (obj : Word) : obj = (obj &&& 3) ||| (obj &&& ~~~3) := by
  rw [← BitVec.and_or_distrib_left, show (3 : Word) ||| ~~~3 = BitVec.allOnes 32 from rfl,
    BitVec.and_allOnes]

theorem getValue_of_aligned {obj : Word} (h : obj &&& 3 = 0) : getValue obj = obj := by
  have := and_three_add obj
  rw [h] at this
  exact (this.trans BitVec.zero_or).symm

theorem getValue_encode (type : ReferenceType) (referent : Referent) :
    getValue (encode type referent.address) = referent.address := by
  cases type with
  | strong => exact getValue_of_aligned referent.aligned
  | weak => exact getValue_of_aligned referent.aligned
  | soft =>
    have h := getValue_of_aligned referent.aligned
    rw [getValue] at h
    rw [encode, getValue, BitVec.and_or_distrib_right, h]
    exact BitVec.or_zero

theorem encode_ne_unused {referent : Referent} (type : ReferenceType) (h : ¬ referent.IsNull) :
    encode type referent.address ≠ unused type := by
  intro heq
  have hvalue := getValue_encode type referent
  rw [heq] at hvalue
  cases type with
  | strong => exact h (by rw [Referent.IsNull, ← hvalue]; rfl)
  | weak => exact referent.below (by rw [← hvalue]; rfl)
  | soft => exact referent.below (by rw [← hvalue]; rfl)

theorem remove_eq (type : ReferenceType) (array : List Word) (index : ℕ) :
    remove type array index = array.set index (unused type) := by
  cases type <;> rfl

theorem one_le_firstUnused (type : ReferenceType) (array : List Word) :
    1 ≤ firstUnused type array := by
  unfold firstUnused
  omega

theorem firstUnused_le {type : ReferenceType} {array : List Word} (h : 0 < array.length) :
    firstUnused type array ≤ array.length := by
  have : (array.drop 1).findIdx (fun obj => obj = unused type) ≤ (array.drop 1).length :=
    List.findIdx_le_length
  rw [List.length_drop] at this
  unfold firstUnused
  omega

theorem getElem?_firstUnused {type : ReferenceType} {array : List Word}
    (h : firstUnused type array < array.length) :
    array[firstUnused type array]? = some (unused type) := by
  unfold firstUnused at h ⊢
  have hlt : (array.drop 1).findIdx (fun obj => obj = unused type) < (array.drop 1).length := by
    rw [List.length_drop]
    omega
  have hget := @List.findIdx_getElem _ _ (array.drop 1) hlt
  rw [decide_eq_true_eq] at hget
  rw [← List.getElem?_drop, List.getElem?_eq_getElem hlt, hget]

variable {array : List Word}

/-- The loop does not go past a free slot. -/
theorem firstUnused_le_of_unused {type : ReferenceType} {j : ℕ} (hj : 1 ≤ j)
    (h : array[j]? = some (unused type)) : firstUnused type array ≤ j := by
  unfold firstUnused
  have hdrop : (array.drop 1)[j - 1]? = some (unused type) := by
    rw [List.getElem?_drop, Nat.add_sub_cancel' hj, h]
  obtain ⟨hlt, hget⟩ := List.getElem?_eq_some_iff.mp hdrop
  have hle : (array.drop 1).findIdx (fun obj => obj = unused type) ≤ j - 1 := by
    by_contra hnot
    have hbefore : j - 1 < (array.drop 1).findIdx fun obj => obj = unused type := by omega
    have := List.not_of_lt_findIdx hbefore
    rw [hget] at this
    exact absurd this (by simp)
  omega

theorem length_create (type : ReferenceType) (length : ℕ) :
    length ≤ (create type length).length := by
  cases type <;> simp [create]

theorem length_grown (type : ReferenceType) (h : 0 < array.length) :
    array.length < (grown type array).length := by
  have := length_create type (array.length * 2)
  rw [grown, List.length_append, List.length_drop]
  omega

theorem getElem?_grown {type : ReferenceType} {array : List Word} {j : ℕ} (h : j < array.length) :
    (grown type array)[j]? = array[j]? := by
  rw [grown, List.getElem?_append_left h]

/-- **Spec lemma** for the middle part of a registration. -/
theorem place_spec {type : ReferenceType} {outcome : Outcome} {referent : Referent}
    {array' : List Word} {index : ℕ} (hpos : 0 < array.length)
    (h : place type outcome referent array = some (array', index)) :
    array.length ≤ array'.length ∧ (∀ j < array.length, j ≠ index → array'[j]? = array[j]?) ∧
      (referent.IsNull ∧ index = 0 ∧ array' = array ∨
        ¬ referent.IsNull ∧ index = firstUnused type array ∧
          array'[index]? = some (encode type referent.address)) := by
  have hle := @firstUnused_le type array hpos
  unfold place at h
  split_ifs at h with hnull hfull hgrow
  · obtain ⟨rfl, rfl⟩ := Prod.mk.inj (Option.some.inj h)
    exact ⟨le_rfl, fun _ _ _ => rfl, .inl ⟨hnull, rfl, rfl⟩⟩
  · obtain ⟨rfl, rfl⟩ := Prod.mk.inj (Option.some.inj h)
    have hlt := length_grown type hpos
    refine ⟨by rw [List.length_set]; omega, fun j hj hne => ?_, .inr ⟨hnull, rfl, ?_⟩⟩
    · rw [List.getElem?_set_ne hne.symm, getElem?_grown hj]
    · rw [List.getElem?_set_self (by omega)]
  · obtain ⟨rfl, rfl⟩ := Prod.mk.inj (Option.some.inj h)
    refine ⟨by rw [List.length_set], fun j _ hne => ?_, .inr ⟨hnull, rfl, ?_⟩⟩
    · rw [List.getElem?_set_ne hne.symm]
    · rw [List.getElem?_set_self (by omega)]

/-! ## The invariant -/

/-- The index of the slot of a handle. -/
def Registration.index (r : Registration) : ℕ := (getReferenceIndex r.handle).toNat

/-- What the slot of a handle holds. -/
def Registration.stored (r : Registration) : Word :=
  if r.referent.IsNull then 0 else encode r.type r.referent.address

/-- The slot of a handle is in the array, and holds the referent. -/
structure Holds (registry : Registry) (r : Registration) : Prop where
  index_lt : r.index < 2 ^ 24
  handle : r.handle = makeReference r.type.code r.owner.value (BitVec.ofNat 32 r.index)
  index_zero : r.index = 0 ↔ r.referent.IsNull
  slot : ∃ array, registry r.type r.owner.value = some array ∧ array[r.index]? = some r.stored

/-- Two handles for the same array have different slots. -/
def Apart (r r' : Registration) : Prop :=
  r.type = r'.type → r.owner = r'.owner → r.index ≠ r'.index

/-- What holds between two steps. -/
structure Inv (s : State) : Prop where
  array_pos : ∀ type owner array, s.registry type owner = some array → 0 < array.length
  holds : ∀ r ∈ s.live, Holds s.registry r
  apart : s.live.Pairwise Apart

theorem inv_initial : Inv State.initial := by
  constructor
  · intro type owner array h
    exact absurd h (by simp [State.initial])
  · intro r hr
    exact absurd hr List.not_mem_nil
  · exact List.Pairwise.nil

variable {s : State}

section Decode

variable {registry : Registry} {r : Registration}

theorem TaskId.ext {a b : TaskId} (h : a.value = b.value) : a = b := by
  cases a
  cases b
  simp_all

theorem toNat_ofNat_of_lt {index : ℕ} (h : index < 2 ^ 24) :
    (BitVec.ofNat 32 index).toNat = index := by
  rw [BitVec.toNat_ofNat]
  omega

theorem Holds.type (h : Holds registry r) : getReferenceType r.handle = r.type.code := by
  have hindex := h.index_lt
  rw [← toNat_ofNat_of_lt hindex] at hindex
  rw [h.handle]
  exact getReferenceType_makeReference r.type.code_lt r.owner.lt hindex

theorem Holds.owner (h : Holds registry r) : getReferenceOwner r.handle = r.owner.value := by
  have hindex := h.index_lt
  rw [← toNat_ofNat_of_lt hindex] at hindex
  rw [h.handle]
  exact getReferenceOwner_makeReference r.type.code_lt r.type.code_ne r.owner.lt hindex

@[simp] theorem referenceTypeOf_code (type : ReferenceType) : referenceTypeOf type.code = type := by
  cases type <;> decide

theorem Holds.getReferenceArray (h : Holds registry r) :
    getReferenceArray registry r.handle = registry r.type r.owner.value := by
  rw [References.getReferenceArray, h.type, h.owner, referenceTypeOf_code]

theorem getValue_stored (r : Registration) : getValue r.stored = r.referent.address := by
  unfold Registration.stored
  split_ifs with hnull
  · rw [hnull]
    rfl
  · exact getValue_encode r.type r.referent

theorem Holds.referent (h : Holds registry r) :
    getGlobalRefObject registry r.handle = some r.referent.address := by
  obtain ⟨array, harray, hslot⟩ := h.slot
  have hread : decodeReference registry r.handle = array[r.index]? := by
    rw [decodeReference, h.getReferenceArray, harray]
    rfl
  rw [getGlobalRefObject, hread, hslot, Option.map_some, getValue_stored]

theorem Inv.sound (h : Inv s) : Sound s := by
  refine ⟨?_, fun r hr => (h.holds r hr).type, fun r hr => (h.holds r hr).owner,
    fun r hr => (h.holds r hr).referent⟩
  refine List.pairwise_map.mpr (h.apart.imp_of_mem fun {r r'} hr hr' hapart heq => ?_)
  have htype : r.type = r'.type := by
    apply ReferenceType.code_inj
    rw [← (h.holds r hr).type, ← (h.holds r' hr').type, heq]
  have howner : r.owner = r'.owner := by
    apply TaskId.ext
    rw [← (h.holds r hr).owner, ← (h.holds r' hr').owner, heq]
  exact hapart htype howner (by rw [Registration.index, Registration.index, heq])

end Decode

/-! ## Steps -/

section Step

variable {registry : Registry} {type : ReferenceType} {owner : TaskId} {referent : Referent}
  {outcome : Outcome}

theorem setReferenceArray_self (array : List Word) (owner : Word) :
    setReferenceArray registry type owner array type owner = some array :=
  if_pos ⟨rfl, rfl⟩

theorem setReferenceArray_of_ne {owner owner' : Word} {type' : ReferenceType}
    (h : ¬ (type' = type ∧ owner' = owner)) :
    setReferenceArray registry type owner array type' owner' = registry type' owner' :=
  if_neg h

theorem setReferenceArray_pos {array' : List Word} {owner owner' : Word} {type' : ReferenceType}
    (hpos : ∀ type owner array, registry type owner = some array → 0 < array.length)
    (harray : 0 < array.length)
    (h : setReferenceArray registry type owner array type' owner' = some array') :
    0 < array'.length := by
  by_cases hsame : type' = type ∧ owner' = owner
  · rw [setReferenceArray, if_pos hsame] at h
    obtain rfl := Option.some.inj h
    exact harray
  · rw [setReferenceArray_of_ne hsame] at h
    exact hpos _ _ _ h

theorem currentArray_of_some {owner : Word} (h : registry type owner = some array) :
    currentArray registry type owner outcome = some array := by
  rw [currentArray, h]

theorem registerGlobalRefObject_eq : registerGlobalRefObject type registry owner referent outcome =
      registerReference type registry owner referent outcome := by
  cases type <;> rfl

theorem currentArray_pos {owner : Word}
    (hpos : ∀ array, registry type owner = some array → 0 < array.length)
    (h : currentArray registry type owner outcome = some array) : 0 < array.length := by
  unfold currentArray at h
  split at h
  · next array' heq =>
    obtain rfl := Option.some.inj h
    exact hpos _ heq
  · split_ifs at h
    obtain rfl := Option.some.inj h
    have := length_create type 16
    omega

/-- What a registration does: it fails and changes nothing, or it places the referent. -/
theorem registerReference_cases (type : ReferenceType) (registry : Registry) (owner : TaskId)
    (referent : Referent) (outcome : Outcome) :
    registerReference type registry owner referent outcome = (registry, -1) ∨
      ∃ array array' index, currentArray registry type owner.value outcome = some array ∧
        place type outcome referent array = some (array', index) ∧
        registerReference type registry owner referent outcome =
          (setReferenceArray registry type owner.value array',
            makeReference type.code owner.value (BitVec.ofNat 32 index)) := by
  unfold registerReference
  cases hcurrent : currentArray registry type owner.value outcome with
  | none => exact .inl rfl
  | some array =>
    rw [Option.bind_some]
    cases hplace : place type outcome referent array with
    | none => exact .inl rfl
    | some placed =>
      obtain ⟨array', index⟩ := placed
      exact .inr ⟨array, array', index, rfl, hplace, rfl⟩

theorem makeReference_ne {index : ℕ} (h : index < 2 ^ 24) :
    makeReference type.code owner.value (BitVec.ofNat 32 index) ≠ -1 := by
  intro heq
  have hindex := toNat_ofNat_of_lt h
  have hvalue := toNat_makeReference type.code_lt owner.lt (hindex.trans_lt h)
  rw [heq, hindex] at hvalue
  have howner := owner.lt
  have htype := type.code_lt
  simp only [maxTasks, logMaxTasks] at howner
  rw [show (-1 : Word).toNat = 2 ^ 32 - 1 from rfl] at hvalue
  omega

theorem create_zero (type : ReferenceType) : (create type 16)[0]? = some 0 := by
  cases type <;> rfl

/-- What the condition says about the array that a registration uses, new or not. -/
theorem meets_currentArray (hmeets : Meets s (.register type owner referent outcome))
    (h : currentArray s.registry type owner.value outcome = some array) :
    (referent.IsNull → array[0]? = some 0) ∧
      (¬ referent.IsNull → firstUnused type array < 2 ^ 24) := by
  unfold currentArray at h
  split at h
  · next array' heq =>
    obtain rfl := Option.some.inj h
    simp only [Meets] at hmeets
    split_ifs at hmeets with hnull
    · exact ⟨fun _ => hmeets.2 _ heq, fun hnot => absurd hnull hnot⟩
    · exact ⟨fun hnot => absurd hnot hnull, fun _ => hmeets _ heq⟩
  · split_ifs at h
    obtain rfl := Option.some.inj h
    refine ⟨fun _ => create_zero type, fun _ => ?_⟩
    have hfree : (create type 16)[1]? = some (unused type) := by cases type <;> rfl
    have hle := firstUnused_le_of_unused le_rfl hfree
    omega

/-- The slot that a registration takes is not the one of a handle in use. -/
theorem index_fresh {s : State} {array array' : List Word} {index : ℕ} (hinv : Inv s)
    (hmeets : Meets s (.register type owner referent outcome))
    (hcurrent : currentArray s.registry type owner.value outcome = some array)
    (hplace : place type outcome referent array = some (array', index)) {r : Registration}
    (hr : r ∈ s.live) (htype : r.type = type) (howner : r.owner = owner) :
    r.index ≠ index ∧ array[r.index]? = some r.stored := by
  have hholds := hinv.holds r hr
  obtain ⟨array₀, harray, hslot⟩ := hholds.slot
  rw [htype, howner] at harray
  rw [currentArray_of_some harray] at hcurrent
  obtain rfl := Option.some.inj hcurrent
  refine ⟨?_, hslot⟩
  obtain ⟨-, -, hcases⟩ := place_spec (hinv.array_pos _ _ _ harray) hplace
  rcases hcases with ⟨hnull, rfl, -⟩ | ⟨-, rfl, -⟩
  · -- The first element is not in use.
    simp only [Meets] at hmeets
    rw [if_pos hnull] at hmeets
    exact fun hzero => hmeets.1 r hr htype howner (hholds.index_zero.mp hzero)
  · intro heq
    obtain ⟨hlt, -⟩ := List.getElem?_eq_some_iff.mp hslot
    rw [heq, getElem?_firstUnused (heq ▸ hlt)] at hslot
    have hnot : ¬ r.referent.IsNull := by
      rw [← hholds.index_zero]
      have := one_le_firstUnused type array₀
      omega
    rw [Registration.stored, if_neg hnot, htype] at hslot
    exact encode_ne_unused type hnot (Option.some.inj hslot).symm

/-- **Step lemma** for a registration. -/
theorem Inv.register (hinv : Inv s) (hmeets : Meets s (.register type owner referent outcome)) :
    Inv (step s (.register type owner referent outcome)) := by
  simp only [step, registerGlobalRefObject_eq]
  rcases registerReference_cases type s.registry owner referent outcome with
    hfail | ⟨array, array', index, hcurrent, hplace, heq⟩
  · rw [hfail, if_pos rfl]
    exact hinv
  · have hpos := currentArray_pos (fun array h => hinv.array_pos _ _ array h) hcurrent
    obtain ⟨hlength, hkeep, hcases⟩ := place_spec hpos hplace
    have harray := meets_currentArray hmeets hcurrent
    have hindex : index < 2 ^ 24 := by
      rcases hcases with ⟨-, rfl, -⟩ | ⟨hnot, rfl, -⟩
      · norm_num
      · exact harray.2 hnot
    rw [heq, if_neg (makeReference_ne hindex)]
    have hfresh := fun r hr => @index_fresh type owner referent outcome s array array' index hinv
      hmeets hcurrent hplace r hr
    set new : Registration :=
      ⟨makeReference type.code owner.value (BitVec.ofNat 32 index), type, owner, referent⟩
      with hnew
    have hnewIndex : new.index = index := by
      have hnat := toNat_ofNat_of_lt hindex
      rw [Registration.index, hnew]
      show (getReferenceIndex _).toNat = index
      rw [getReferenceIndex_makeReference type.code_lt owner.lt (hnat.trans_lt hindex), hnat]
    show Inv ⟨setReferenceArray s.registry type owner.value array', new :: s.live⟩
    refine ⟨?_, List.forall_mem_cons.mpr ⟨⟨?_, ?_, ?_, ?_⟩, ?_⟩,
      List.pairwise_cons.mpr ⟨?_, hinv.apart⟩⟩
    · exact fun _ _ _ h => setReferenceArray_pos hinv.array_pos (by omega) h
    · rwa [hnewIndex]
    · rw [hnewIndex]
    · rw [hnewIndex]
      rcases hcases with ⟨hnull, rfl, -⟩ | ⟨hnot, rfl, -⟩
      · exact iff_of_true rfl hnull
      · have := one_le_firstUnused type array
        exact iff_of_false (by omega) hnot
    · refine ⟨array', setReferenceArray_self _ _, ?_⟩
      rw [hnewIndex, Registration.stored]
      rcases hcases with ⟨hnull, rfl, rfl⟩ | ⟨hnot, rfl, hslot⟩
      · rw [if_pos hnull]
        exact harray.1 hnull
      · rw [if_neg hnot]
        exact hslot
    · intro r hr
      have hholds := hinv.holds r hr
      refine ⟨hholds.index_lt, hholds.handle, hholds.index_zero, ?_⟩
      by_cases hsame : r.type = type ∧ r.owner.value = owner.value
      · obtain ⟨htype, howner⟩ := hsame
        obtain ⟨hne, hslot⟩ := hfresh r hr htype (TaskId.ext howner)
        obtain ⟨hlt, -⟩ := List.getElem?_eq_some_iff.mp hslot
        refine ⟨array', ?_, by rw [hkeep _ hlt hne, hslot]⟩
        rw [htype, howner]
        exact setReferenceArray_self _ _
      · obtain ⟨array₀, h, hslot⟩ := hholds.slot
        exact ⟨array₀, (setReferenceArray_of_ne hsame).trans h, hslot⟩
    · intro r hr htype howner hsame
      exact (hfresh r hr htype.symm howner.symm).1 (by rw [← hsame, hnewIndex])

/-- What `unregister_global_ref_object` does to the array of a handle in use. -/
theorem Holds.unregister {r : Registration} (h : Holds registry r) :
    ∃ array, registry r.type r.owner.value = some array ∧ array[r.index]? = some r.stored ∧
      unregisterGlobalRefObject registry r.handle = setReferenceArray registry r.type r.owner.value
          (array.set r.index (unused r.type)) := by
  obtain ⟨array, harray, hslot⟩ := h.slot
  refine ⟨array, harray, hslot, ?_⟩
  rw [unregisterGlobalRefObject, h.getReferenceArray, harray]
  simp only [h.type, h.owner, referenceTypeOf_code, remove_eq]
  rfl

/-- **Step lemma** for the end of a registration. -/
theorem Inv.unregister (hinv : Inv s) {handle : Word}
    (hmeets : Meets s (.unregister handle)) : Inv (step s (.unregister handle)) := by
  obtain ⟨r, hr, rfl⟩ := hmeets
  have hholds := hinv.holds r hr
  obtain ⟨array, harray, hslot, heq⟩ := hholds.unregister
  show Inv ⟨unregisterGlobalRefObject s.registry r.handle, _⟩
  rw [heq]
  refine ⟨?_, ?_, hinv.apart.filter _⟩
  · have hpos := hinv.array_pos _ _ _ harray
    exact fun _ _ _ h => setReferenceArray_pos hinv.array_pos (by rwa [List.length_set]) h
  · intro r' hr'
    obtain ⟨hmem, hne⟩ := List.mem_filter.mp hr'
    have hholds' := hinv.holds r' hmem
    refine ⟨hholds'.index_lt, hholds'.handle, hholds'.index_zero, ?_⟩
    obtain ⟨array', harray', hslot'⟩ := hholds'.slot
    by_cases hsame : r'.type = r.type ∧ r'.owner.value = r.owner.value
    · obtain ⟨htype, howner⟩ := hsame
      -- The slot is another one, since the handle is.
      have hindex : r.index ≠ r'.index := by
        intro hindex
        rw [decide_eq_true_eq] at hne
        exact hne (by rw [hholds'.handle, hholds.handle, htype, howner, hindex])
      rw [htype, howner, harray] at harray'
      obtain rfl := Option.some.inj harray'
      refine ⟨array.set r.index (unused r.type), ?_, ?_⟩
      · rw [htype, howner]
        exact setReferenceArray_self _ _
      · rw [List.getElem?_set_ne hindex, hslot']
    · exact ⟨array', (setReferenceArray_of_ne hsame).trans harray', hslot'⟩

/-- **Step lemma.** -/
theorem Inv.step {s : State} (hinv : Inv s) {operation : Operation}
    (hmeets : Meets s operation) : Inv (step s operation) := by
  cases operation with
  | register type owner referent outcome => exact hinv.register hmeets
  | unregister handle => exact hinv.unregister hmeets

/-- **Run lemma.** -/
theorem Inv.run (hinv : Inv s) {operations : List Operation}
    (h : AllMeet s operations) : Inv (run s operations) := by
  induction operations generalizing s with
  | nil => exact hinv
  | cons operation operations ih => exact ih (hinv.step h.1) h.2

theorem registerReference_fail (hinv : Inv s)
    (hmeets : Meets s (.register type owner referent outcome))
    (h : (registerGlobalRefObject type s.registry owner referent outcome).2 = -1) :
    (registerGlobalRefObject type s.registry owner referent outcome).1 = s.registry := by
  rw [registerGlobalRefObject_eq] at h ⊢
  rcases registerReference_cases type s.registry owner referent outcome with
    hfail | ⟨array, array', index, hcurrent, hplace, heq⟩
  · rw [hfail]
  · have hpos := currentArray_pos (fun array h => hinv.array_pos _ _ array h) hcurrent
    obtain ⟨-, -, hcases⟩ := place_spec hpos hplace
    have harray := meets_currentArray hmeets hcurrent
    rw [heq] at h
    refine absurd h (makeReference_ne ?_)
    rcases hcases with ⟨-, rfl, -⟩ | ⟨hnot, rfl, -⟩
    · norm_num
    · exact harray.2 hnot

/-- The slot of a handle that has been unregistered is used again before a later one, and without
an allocation. -/
theorem registerReference_reuse (hinv : Inv s) {r : Registration} (hr : r ∈ s.live)
    (hnull : ¬ r.referent.IsNull) (hnot : ¬ referent.IsNull) :
    (registerGlobalRefObject r.type (unregisterGlobalRefObject s.registry r.handle) r.owner referent
        outcome).2 ≠ -1 ∧ (getReferenceIndex (registerGlobalRefObject r.type
        (unregisterGlobalRefObject s.registry r.handle) r.owner referent outcome).2).toNat ≤
          r.index := by
  have hholds := hinv.holds r hr
  obtain ⟨array, harray, hslot, heq⟩ := hholds.unregister
  obtain ⟨hlt, -⟩ := List.getElem?_eq_some_iff.mp hslot
  have hone : 1 ≤ r.index := by
    have := hholds.index_zero
    by_contra hzero
    exact hnull (this.mp (by omega))
  set freed := array.set r.index (unused r.type) with hfreed
  have hfree : freed[r.index]? = some (unused r.type) := List.getElem?_set_self hlt
  have hle := firstUnused_le_of_unused hone hfree
  have hlength : freed.length = array.length := List.length_set
  have hindexLt := hholds.index_lt
  have hindex : firstUnused r.type freed < 2 ^ 24 := by omega
  have hplace : place r.type outcome referent freed =
      some (freed.set (firstUnused r.type freed) (encode r.type referent.address),
        firstUnused r.type freed) := by
    rw [place, if_neg hnot, if_neg (by omega)]
  rw [registerGlobalRefObject_eq, heq, registerReference,
    currentArray_of_some (setReferenceArray_self _ _), Option.bind_some, hplace]
  refine ⟨makeReference_ne hindex, ?_⟩
  have hnat := toNat_ofNat_of_lt hindex
  show (getReferenceIndex (makeReference _ _ _)).toNat ≤ r.index
  rw [getReferenceIndex_makeReference r.type.code_lt r.owner.lt (hnat.trans_lt hindex), hnat]
  exact hle

end Step

/-! ## Runs from the start -/

/-- **Main theorem**: in a run whose steps meet the condition, the handles in use are right, a
registration that fails changes nothing, and the slot of a handle is used again after its
end. -/
theorem run_sound (operations : List Operation) (h : AllMeet .initial operations) :
    Sound (run .initial operations) ∧
      (∀ type owner referent outcome,
        Meets (run .initial operations) (.register type owner referent outcome) →
          (registerGlobalRefObject type (run .initial operations).registry owner referent
            outcome).2 = -1 →
          (registerGlobalRefObject type (run .initial operations).registry owner referent
            outcome).1 = (run .initial operations).registry) ∧
      ∀ r ∈ (run .initial operations).live, ¬ r.referent.IsNull →
        ∀ (referent : Referent) outcome, ¬ referent.IsNull →
          let result := registerGlobalRefObject r.type
            (unregisterGlobalRefObject (run .initial operations).registry r.handle) r.owner referent
            outcome
          result.2 ≠ -1 ∧ (getReferenceIndex result.2).toNat ≤ r.index := by
  have hinv := inv_initial.run h
  refine ⟨hinv.sound, fun _ _ _ _ => registerReference_fail hinv, ?_⟩
  exact fun r hr hnull _ _ hnot => registerReference_reuse hinv hr hnull hnot

def firstTask : TaskId := ⟨1, by decide, by decide⟩

def anObject : Referent := ⟨0x1000, by decide, by decide⟩

/-- Two weak references, the first of which is unregistered. -/
theorem run_sound_weak :
    Sound (run .initial
      [.register .weak firstTask anObject ⟨true, true⟩,
        .register .weak firstTask .null ⟨true, true⟩, .unregister 0x8D]) :=
  (run_sound _ (by decide)).1

/-- A weak handle of null is given out, unregistered and given out again: it is then decoded to the
mark of a free slot, without its last two bits. -/
theorem not_sound_nullWeak :
    let s := run .initial
      [.register .weak firstTask .null ⟨true, true⟩, .unregister 0x0D,
        .register .weak firstTask .null ⟨true, true⟩]
    s.live = [⟨0x0D, .weak, firstTask, .null⟩] ∧
      getGlobalRefObject s.registry 0x0D = some 0xFFFFFFFC ∧ ¬ Sound s := by
  have hlive : (run .initial
      [.register .weak firstTask .null ⟨true, true⟩, .unregister 0x0D,
        .register .weak firstTask .null ⟨true, true⟩]).live =
      [⟨0x0D, .weak, firstTask, .null⟩] := by decide
  have hvalue : getGlobalRefObject (run .initial
      [.register .weak firstTask .null ⟨true, true⟩, .unregister 0x0D,
        .register .weak firstTask .null ⟨true, true⟩]).registry 0x0D = some 0xFFFFFFFC := by
    decide
  refine ⟨hlive, hvalue, fun hsound => ?_⟩
  have hnull := hsound.referent ⟨0x0D, .weak, firstTask, .null⟩ (by rw [hlive]; simp)
  exact absurd (hvalue.symm.trans hnull) (by decide)

end CldcVm.References
