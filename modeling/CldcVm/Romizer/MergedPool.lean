import Mathlib.Data.BitVec

/-!
# The merged constant pool

`ConstantPoolRewriter` (`share/ROM/ConstantPoolRewriter.cpp`): `get_merged_pool_entry` with the
table in which it looks up the entries (lines 917–1396), and the classes whose entries it is asked
for: the predicted size of the pool (lines 81–93), its allocation (lines 128–140), the symbols and
strings of the embedded tables (lines 174–236), and the check that `rewrite_class` makes (lines
296–333).

A pool is a row of 32-bit words with a tag for each; a reference takes one word. What a class asks
for in the course of its rewriting is a list of entries of its own pool and of others: the methods
that throw an error where an interface is not implemented keep the pool of the interface
(`ClassFileParser::new_lazy_error_method`). An allocation that fails ends the run and is left out.
-/

namespace CldcVm.Romizer

/-! ## Tags -/

/-- The types of a field, in the order of their tags. -/
inductive FieldType
  | boolean | char | float | double | byte | short | int | long | object | array
deriving DecidableEq

/-- The number of a type within its family of tags. -/
def FieldType.number : FieldType → ℕ
  | boolean => 0
  | char => 1
  | float => 2
  | double => 3
  | byte => 4
  | short => 5
  | int => 6
  | long => 7
  | object => 8
  | array => 9

/-- `ConstantTag`. A method with no type returns void. -/
inductive Tag
  | invalid | utf8 | unicode | integer | float | long | double | klass | string | fieldref
  | methodref | interfaceMethodref | nameAndType | unresolvedClass | classIndex | unresolvedString
  | stringIndex
  | resolvedFieldref (isStatic : Bool) (type : FieldType)
  | resolvedStaticMethod
  | resolvedVirtualMethod (type : Option FieldType)
  | resolvedInterfaceMethod (type : Option FieldType)
  | resolvedUncommonInterfaceMethod | resolvedFinalUncommonInterfaceMethod
deriving DecidableEq

/-- The number of the tag (`share/utilities/ConstantTag.hpp`). -/
def Tag.value : Tag → ℕ
  | invalid => 0
  | utf8 => 1
  | unicode => 2
  | integer => 3
  | float => 4
  | long => 5
  | double => 6
  | klass => 7
  | string => 8
  | fieldref => 9
  | methodref => 10
  | interfaceMethodref => 11
  | nameAndType => 12
  | unresolvedClass => 13
  | classIndex => 14
  | unresolvedString => 15
  | stringIndex => 16
  | resolvedFieldref false type => 17 + type.number
  | resolvedFieldref true type => 27 + type.number
  | resolvedStaticMethod => 37
  | resolvedVirtualMethod type => 38 + (type.map FieldType.number).getD 10
  | resolvedInterfaceMethod type => 49 + (type.map FieldType.number).getD 10
  | resolvedUncommonInterfaceMethod => 60
  | resolvedFinalUncommonInterfaceMethod => 61

/-- The number of slots of an entry. -/
def Tag.width (tag : Tag) : ℕ := if tag = .long ∨ tag = .double then 2 else 1

/-! ## Pools -/

/-- `ConstantPool`. -/
structure ConstantPool where
  length : ℕ
  tagAt : ℕ → Tag
  value32At : ℕ → BitVec 32

/-- `value64_at`, on a processor that has the low word first. -/
def ConstantPool.value64At (pool : ConstantPool) (i : ℕ) : BitVec 64 :=
  pool.value32At (i + 1) ++ pool.value32At i

/-- What is copied and compared: a reference, 64 bits or 32 bits. -/
inductive Value
  | oop (ref : BitVec 32)
  | long (bits : BitVec 64)
  | int (bits : BitVec 32)
deriving DecidableEq

/-- The value of an entry, by the cases of `store_hash_entry` and `find_stored_hash_entry`; none
where these should not be reached. -/
def ConstantPool.valueAt (pool : ConstantPool) (i : ℕ) : Option Value :=
  match pool.tagAt i with
  | .utf8 | .string | .resolvedStaticMethod | .resolvedFinalUncommonInterfaceMethod =>
    some (.oop (pool.value32At i))
  | .long | .double => some (.long (pool.value64At i))
  | .resolvedFieldref _ _ | .resolvedInterfaceMethod _ | .resolvedVirtualMethod _
  | .resolvedUncommonInterfaceMethod | .invalid | .integer | .klass | .float =>
    some (.int (pool.value32At i))
  | .unicode | .fieldref | .methodref | .interfaceMethodref | .nameAndType | .unresolvedClass
  | .classIndex | .unresolvedString | .stringIndex => none

/-- An entry: its tag and its value. -/
abbrev Entry := Tag × Value

def ConstantPool.entryAt (pool : ConstantPool) (i : ℕ) : Option Entry :=
  (pool.valueAt i).map (pool.tagAt i, ·)

/-- The slots of an entry. -/
def Entry.width (e : Entry) : ℕ := e.1.width

/-! ## Hash codes -/

/-- What the hash codes read of the heap: the hash of a symbol and of a string, the name of a method
and that of a class. -/
structure Heap where
  symbolHash : BitVec 32 → BitVec 32
  stringHash : BitVec 32 → BitVec 32
  methodName : BitVec 32 → BitVec 32
  className : BitVec 16 → BitVec 32

/-- The high and the low half of a word. -/
def highHalf (value32 : BitVec 32) : BitVec 16 := (value32 >>> 16).truncate 16

def lowHalf (value32 : BitVec 32) : BitVec 16 := value32.truncate 16

/-- `(type ^ x) ^ 0x1a2b3c4d`. -/
def mixHash (tag : Tag) (x : BitVec 32) : BitVec 32 :=
  (BitVec.ofNat 32 tag.value ^^^ x) ^^^ 0x1a2b3c4d

/-- `hashcode_for_method_ref`. -/
def hashcodeForMethodRef (heap : Heap) (tag : Tag) (value32 : BitVec 32) : BitVec 32 :=
  mixHash tag ((lowHalf value32).zeroExtend 32) ^^^
    heap.symbolHash (heap.className (highHalf value32))

/-- `hashcode_for_field_ref`. -/
def hashcodeForFieldRef (heap : Heap) (tag : Tag) (value32 : BitVec 32) : BitVec 32 :=
  mixHash tag ((highHalf value32).zeroExtend 32) ^^^
    heap.symbolHash (heap.className (lowHalf value32))

/-- `compute_hashcode`; a long and a double have the hash of their first word. -/
def computeHashcode (heap : Heap) (pool : ConstantPool) (i : ℕ) : Option (BitVec 32) :=
  match pool.tagAt i with
  | .utf8 => some (heap.symbolHash (pool.value32At i))
  | .string => some (heap.stringHash (pool.value32At i))
  | .resolvedStaticMethod | .resolvedFinalUncommonInterfaceMethod =>
    some (heap.symbolHash (heap.methodName (pool.value32At i)))
  | .resolvedFieldref isStatic type =>
    some (hashcodeForFieldRef heap (.resolvedFieldref isStatic type) (pool.value32At i))
  | .resolvedInterfaceMethod type =>
    some (hashcodeForMethodRef heap (.resolvedInterfaceMethod type) (pool.value32At i))
  | .resolvedVirtualMethod type =>
    some (hashcodeForMethodRef heap (.resolvedVirtualMethod type) (pool.value32At i))
  | .resolvedUncommonInterfaceMethod =>
    some (hashcodeForMethodRef heap .resolvedUncommonInterfaceMethod (pool.value32At i))
  | .invalid => some (mixHash .invalid (pool.value32At i))
  | .long => some (mixHash .long (pool.value32At i))
  | .double => some (mixHash .double (pool.value32At i))
  | .integer => some (mixHash .integer (pool.value32At i))
  | .klass => some (mixHash .klass (pool.value32At i))
  | .float => some (mixHash .float (pool.value32At i))
  | .unicode | .fieldref | .methodref | .interfaceMethodref | .nameAndType | .unresolvedClass
  | .classIndex | .unresolvedString | .stringIndex => none

/-- `NUM_BUCKETS`. -/
def numBuckets : ℕ := 1024

/-! ## Merging -/

/-- An element of the lookup table: the type, the index in the merged pool, and the value. -/
structure HashEntry where
  type : Tag
  index : ℕ
  value : Value
deriving DecidableEq

/-- `ConstantPoolRewriter`, as far as the merged pool goes. -/
structure Rewriter where
  predictedMergedPoolSize : ℕ
  mergedPool : ConstantPool
  mergedEntriesCount : ℕ
  entryLookupTable : ℕ → List HashEntry

/-- `find_stored_hash_entry`, in the list of a bucket. -/
def findStoredHashEntry (pool : ConstantPool) (i : ℕ) (bucket : List HashEntry) : Option ℕ :=
  (bucket.find? fun info => info.type = pool.tagAt i ∧ some info.value = pool.valueAt i).map
    HashEntry.index

/-- The value put into a pool. -/
def ConstantPool.put (pool : ConstantPool) (i : ℕ) (tag : Tag) (value : Value) : ConstantPool where
  length := pool.length
  tagAt := Function.update pool.tagAt i tag
  value32At :=
    match value with
    | .oop ref => Function.update pool.value32At i ref
    | .int bits => Function.update pool.value32At i bits
    | .long bits =>
      Function.update (Function.update pool.value32At i (bits.truncate 32)) (i + 1)
        ((bits >>> 32).truncate 32)

/-- `store_hash_entry`. -/
def storeHashEntry (tag : Tag) (value : Value) (hash newIndex : ℕ) (st : Rewriter) : Rewriter :=
  { st with
    mergedPool := st.mergedPool.put newIndex tag value
    entryLookupTable := Function.update st.entryLookupTable hash
      (⟨tag, newIndex, value⟩ :: st.entryLookupTable hash) }

/-- `get_merged_pool_entry`: the answer is cut to 16 bits. -/
def getMergedPoolEntry (heap : Heap) (pool : ConstantPool) (i : ℕ) (st : Rewriter) :
    Option (ℕ × Rewriter) :=
  match computeHashcode heap pool i, pool.valueAt i with
  | some hashcode, some value =>
    let hash := hashcode.toNat % numBuckets
    match findStoredHashEntry pool i (st.entryLookupTable hash) with
    | some newIndex => some (newIndex % 2 ^ 16, st)
    | none =>
      let newIndex := st.mergedEntriesCount
      let st := { st with mergedEntriesCount := newIndex + (pool.tagAt i).width }
      some (newIndex % 2 ^ 16, storeHashEntry (pool.tagAt i) value hash newIndex st)
  | _, _ => none

/-! ## Classes -/

/-- An index that an entry has: the slots of the entry are in the pool, the index is not the second
slot of another entry, and the entry has been resolved. -/
structure ConstantPool.IsEntry (pool : ConstantPool) (i : ℕ) : Prop where
  inside : i + (pool.tagAt i).width ≤ pool.length
  first : ∀ j, i = j + 1 → (pool.tagAt j).width = 1
  resolved : (pool.valueAt i).isSome

/-- An entry that is asked for in the rewriting of a class with this pool: one of the pool, or one
of another. -/
inductive Request (constants : ConstantPool)
  | own (i : ℕ) (h : constants.IsEntry i)
  | other (pool : ConstantPool) (i : ℕ) (h : pool.IsEntry i)

def Request.pool {constants : ConstantPool} : Request constants → ConstantPool
  | own _ _ => constants
  | other pool _ _ => pool

def Request.index {constants : ConstantPool} : Request constants → ℕ
  | own i _ => i
  | other _ i _ => i

/-- A class: whether it is rewritten, its pool, and what is asked for in its rewriting. -/
structure SystemClass where
  optimizable : Bool
  constants : ConstantPool
  requests : List (Request constants)

/-- A call of `get_merged_pool_entry` with its answer. -/
structure Call where
  pool : ConstantPool
  index : ℕ
  answer : ℕ

/-- The rewriter, with the calls since the last allocation of the merged pool. -/
structure Session where
  rewriter : Rewriter
  calls : List Call

def Session.call (heap : Heap) (pool : ConstantPool) (i : ℕ) (s : Session) : Option Session :=
  (getMergedPoolEntry heap pool i s.rewriter).map fun r => ⟨r.2, s.calls ++ [⟨pool, i, r.1⟩]⟩

/-- The calls that a list of entries makes. -/
def Session.callAll (heap : Heap) : List (ConstantPool × ℕ) → Session → Option Session
  | [], s => some s
  | r :: rs, s => (s.call heap r.1 r.2).bind (Session.callAll heap rs)

/-- `allocate_merged_pool`; the pool that it takes the place of has been cut to its entries. -/
def allocateMergedPool (size : ℕ) : Session where
  rewriter :=
    { predictedMergedPoolSize := size
      mergedPool := ⟨size, fun _ => .invalid, fun _ => 0⟩
      mergedEntriesCount := 1
      entryLookupTable := fun _ => [] }
  calls := []

/-- The session in which a class is rewritten: this one, or a new one if the pool of the class may
not fit; none if it is too big for any. -/
def Session.roomFor (constants : ConstantPool) (s : Session) : Option Session :=
  let size := s.rewriter.predictedMergedPoolSize
  if constants.length + s.rewriter.mergedEntriesCount > size then
    if constants.length + 1 > size then none else some (allocateMergedPool size)
  else some s

/-- What the class asks for. -/
def SystemClass.asks (c : SystemClass) : List (ConstantPool × ℕ) :=
  c.requests.map fun r => (r.pool, r.index)

/-! ## The run -/

/-- The pool of one entry that `stream_hashtable` makes for a symbol or a string. -/
def fakePool (tag : Tag) (ref : BitVec 32) : ConstantPool where
  length := 2
  tagAt := fun i => if i = 1 then tag else .invalid
  value32At := fun i => if i = 1 then ref else 0

/-- What `rewrite` works on: the classes, the symbols and strings of the hash tables, and whether
these are to be embedded. -/
structure Image where
  classes : List SystemClass
  symbols : List (BitVec 32)
  strings : List (BitVec 32)
  embeddedROMHashTables : Bool

/-- The entries of the embedded tables, the symbols first. -/
def Image.streamed (image : Image) : List (ConstantPool × ℕ) :=
  image.symbols.map (fun ref => (fakePool .utf8 ref, 1)) ++
    image.strings.map fun ref => (fakePool .string ref, 1)

/-- The size that `initialize` predicts. -/
def Image.predictedSize (image : Image) : ℕ :=
  min ((image.classes.map (·.constants.length)).sum + image.symbols.length +
    image.strings.length + 1) 0xFFF0

/-- The run of `rewrite`: the entries that are still asked for, the classes that are still to come,
and the session. -/
structure Config where
  todo : List (ConstantPool × ℕ)
  classes : List SystemClass
  session : Session

/-- `initialize` and `init_embedded_hashtables`: the tables are streamed if they fit. -/
def Image.start (image : Image) : Config :=
  let session := allocateMergedPool image.predictedSize
  let tableCount := image.symbols.length + image.strings.length
  let fits := tableCount ≠ 0 ∧
    tableCount + session.rewriter.mergedEntriesCount ≤ session.rewriter.predictedMergedPoolSize
  ⟨if image.embeddedROMHashTables ∧ fits then image.streamed else [], image.classes, session⟩

/-- `rewrite_class`, up to what the class asks for: a class that is not optimizable is left. -/
def beginClass (c : SystemClass) (cs : List SystemClass) (s : Session) : Config :=
  if c.optimizable then
    match s.roomFor c.constants with
    | some s' => ⟨c.asks, cs, s'⟩
    | none => ⟨[], cs, s⟩
  else ⟨[], cs, s⟩

/-- The next call, or the next class. -/
def Config.step (heap : Heap) : Config → Option Config
  | ⟨r :: rs, cs, s⟩ => (s.call heap r.1 r.2).map fun s' => ⟨rs, cs, s'⟩
  | ⟨[], c :: cs, s⟩ => some (beginClass c cs s)
  | ⟨[], [], _⟩ => none

/-- The states that the run comes to. -/
def Image.Reaches (heap : Heap) (image : Image) (k : Config) : Prop :=
  Relation.ReflTransGen (fun k k' => k.step heap = some k') image.start k

end CldcVm.Romizer
