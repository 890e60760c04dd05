import CldcVm.Bytecodes.Data
import CldcVm.Lib.LinkedChain

/-!
# Hash tables

`java/util/Hashtable.java` (lines 108–439): the chains of entries, their growth, and the
enumerations. Entries are nodes in memory, whose `next` fields are written in place. The loops take
`fuel`, and so does the recursion of `put`.

Keys have an equality and hash codes of their own. Where an array or an entry is allocated, the
memory may refuse it (`OutOfMemoryError`).
-/

namespace CldcVm.Hashing

/-- `equals` and `hashCode` of keys, which are consistent. -/
class JavaKey (K : Type) where
  equals : K → K → Bool
  hashCode : K → BitVec 32
  refl : ∀ k, equals k k = true
  symm : ∀ k k', equals k k' = true → equals k' k = true
  trans : ∀ k k' k'', equals k k' = true → equals k' k'' = true → equals k k'' = true
  hash : ∀ k k', equals k k' = true → hashCode k = hashCode k'

/-- `equals` of values. -/
class JavaValue (V : Type) where
  equals : V → V → Bool

/-- What is thrown. -/
inductive Thrown
  | nullPointerException
  | illegalArgumentException
  | noSuchElementException
  | negativeArraySizeException
  | arrayIndexOutOfBoundsException
  | outOfMemoryError
deriving DecidableEq

/-- What the memory grants in one operation: arrays of a length, and entries. No array is longer
than `0x08000000` (`Universe::generic_allocate_array`). -/
structure Memory where
  array : ℕ → Bool
  entry : Bool
  limit : ∀ n, array n = true → n ≤ 0x08000000

/-- A node. -/
abbrev Ref := ℕ

variable {K V : Type}

/-- `HashtableEntry`. -/
structure HashtableEntry (K V : Type) where
  hash : BitVec 32
  key : K
  value : V
  next : Option Ref

/-- `Hashtable`: the entries in memory, of which those from `fresh` on are free, and the fields. -/
structure Hashtable (K V : Type) where
  entries : Ref → Option (HashtableEntry K V)
  fresh : Ref
  table : List (Option Ref)
  count : ℕ
  threshold : ℤ

/-- `new HashtableEntry[length]`. -/
def newTable (memory : Memory) (length : ℤ) : Except Thrown (List (Option Ref)) :=
  if length < 0 then .error .negativeArraySizeException
  else if memory.array length.toNat then .ok (List.replicate length.toNat none)
  else .error .outOfMemoryError

/-- `(int)((capacity * loadFactorPercent) / 100)`. -/
def thresholdFor (capacity : ℤ) : ℤ := (jint (capacity * 75)).tdiv 100

/-- `Hashtable(int)`. -/
def Hashtable.new (memory : Memory) (initialCapacity : ℤ) : Except Thrown (Hashtable K V) :=
  if initialCapacity < 0 then .error .illegalArgumentException
  else
    let capacity := if initialCapacity = 0 then 1 else initialCapacity
    match newTable memory capacity with
    | .error e => .error e
    | .ok table => .ok ⟨fun _ => none, 0, table, 0, thresholdFor capacity⟩

/-- `(hash & 0x7FFFFFFF) % tab.length`. -/
def indexFor (hash : BitVec 32) (length : ℕ) : ℕ := hash.toNat % 2 ^ 31 % length

/-- `tab[index]`. -/
def Hashtable.bucket (s : Hashtable K V) (index : ℕ) : Option Ref := s.table.getD index none

section Keys

variable [JavaKey K]

/-- The loop of `containsKey`, `get`, `put` and `remove`: the entry with the key, and the one before
it. -/
def findEntry (entries : Ref → Option (HashtableEntry K V)) (key : K) :
    (fuel : ℕ) → (e prev : Option Ref) → Option (Option (Option Ref × Ref))
  | 0, _, _ => none
  | _ + 1, none, _ => some none
  | fuel + 1, some e, prev =>
    match entries e with
    | none => none
    | some entry =>
      if entry.hash = JavaKey.hashCode key ∧ JavaKey.equals entry.key key = true then
        some (some (prev, e))
      else findEntry entries key fuel entry.next (some e)

/-- The search of a key in its bucket. -/
def Hashtable.find (s : Hashtable K V) (key : K) (fuel : ℕ) :
    Option (Option (Option Ref × Ref)) :=
  findEntry s.entries key fuel (s.bucket (indexFor (JavaKey.hashCode key) s.table.length)) none

/-- `containsKey`. -/
def Hashtable.containsKey (s : Hashtable K V) (key : K) (fuel : ℕ) : Option Bool :=
  (s.find key fuel).map Option.isSome

/-- `get`. -/
def Hashtable.get (s : Hashtable K V) (key : K) (fuel : ℕ) : Option (Option V) :=
  (s.find key fuel).map fun found =>
    found.bind fun (_, e) => (s.entries e).map HashtableEntry.value

end Keys

/-! ## Growth -/

/-- The inner loop of `rehash`: the entries of one chain are put into the new table. -/
def relink (fuel : ℕ) (old : Option Ref) (entries : Ref → Option (HashtableEntry K V))
    (table : List (Option Ref)) :
    Option ((Ref → Option (HashtableEntry K V)) × List (Option Ref)) :=
  match fuel, old with
  | 0, _ => none
  | _ + 1, none => some (entries, table)
  | fuel + 1, some e =>
    match entries e with
    | none => none
    | some entry =>
      let index := indexFor entry.hash table.length
      relink fuel entry.next
        (Function.update entries e (some { entry with next := table.getD index none }))
        (table.set index (some e))

/-- The outer loop of `rehash`, from bucket `i - 1` down. -/
def relinkAll (fuel : ℕ) (oldTable : List (Option Ref)) :
    (i : ℕ) → (Ref → Option (HashtableEntry K V)) → List (Option Ref) →
      Option ((Ref → Option (HashtableEntry K V)) × List (Option Ref))
  | 0, entries, table => some (entries, table)
  | i + 1, entries, table =>
    match relink fuel (oldTable.getD i none) entries table with
    | none => none
    | some (entries, table) => relinkAll fuel oldTable i entries table

/-- `rehash`, with the new capacity. -/
def Hashtable.rehashTo (s : Hashtable K V) (memory : Memory) (fuel : ℕ) (newCapacity : ℤ) :
    Option (Except Thrown (Hashtable K V)) :=
  match newTable memory newCapacity with
  | .error e => some (.error e)
  | .ok table =>
    match relinkAll fuel s.table s.table.length s.entries table with
    | none => none
    | some (entries, table) => some (.ok { s with
        entries := entries
        table := table
        threshold := thresholdFor newCapacity })

/-- `rehash`. -/
def Hashtable.rehash (s : Hashtable K V) (memory : Memory) (fuel : ℕ) :
    Option (Except Thrown (Hashtable K V)) :=
  s.rehashTo memory fuel (jint (jint (s.table.length * 2) + 1))

/-! ## Changes -/

variable [JavaKey K]

/-- What one call of `put` comes to: an answer, or another call after the table has grown. -/
inductive PutStep (K V : Type)
  | done (answer : Except Thrown (Option V)) (s : Hashtable K V)
  | again (s : Hashtable K V)

/-- `put`, up to its call of itself. -/
def Hashtable.putOnce (s : Hashtable K V) (memory : Memory) (key : K) (value : V) (fuel : ℕ) :
    Option (PutStep K V) :=
  match s.find key fuel with
  | none => none
  | some (some (_, e)) =>
    (s.entries e).map fun entry =>
      .done (.ok (some entry.value))
        { s with entries := Function.update s.entries e (some { entry with value := value }) }
  | some none =>
    if s.threshold ≤ s.count then
      match s.rehash memory fuel with
      | none => none
      | some (.error e) => some (.done (.error e) s)
      | some (.ok s) => some (.again s)
    else if memory.entry then
      let hash := JavaKey.hashCode key
      let index := indexFor hash s.table.length
      some (.done (.ok none)
        { s with
          entries := Function.update s.entries s.fresh (some ⟨hash, key, value, s.bucket index⟩)
          fresh := s.fresh + 1
          table := s.table.set index (some s.fresh)
          count := s.count + 1 })
    else some (.done (.error .outOfMemoryError) s)

/-- `put`, of a value that is not null. -/
def Hashtable.put (s : Hashtable K V) (memory : Memory) (key : K) (value : V) :
    (fuel : ℕ) → Option (Except Thrown (Option V) × Hashtable K V)
  | 0 => none
  | fuel + 1 =>
    match s.putOnce memory key value (fuel + 1) with
    | none => none
    | some (.done answer s) => some (answer, s)
    | some (.again s) => s.put memory key value fuel

/-- `remove`. -/
def Hashtable.remove (s : Hashtable K V) (key : K) (fuel : ℕ) :
    Option (Option V × Hashtable K V) :=
  match s.find key fuel with
  | none => none
  | some none => some (none, s)
  | some (some (prev, e)) =>
    match s.entries e, prev with
    | none, _ => none
    | some entry, some p =>
      (s.entries p).map fun before =>
        (some entry.value,
          { s with
            entries := Function.update s.entries p (some { before with next := entry.next })
            count := s.count - 1 })
    | some entry, none =>
      let index := indexFor (JavaKey.hashCode key) s.table.length
      some (some entry.value,
        { s with
          table := s.table.set index entry.next
          count := s.count - 1 })

omit [JavaKey K] in
/-- `clear`. -/
def Hashtable.clear (s : Hashtable K V) : Hashtable K V :=
  { s with
    table := List.replicate s.table.length none
    count := 0 }

/-! ## All entries -/

section Values

omit [JavaKey K]

variable [JavaValue V]

/-- The inner loop of `contains`. -/
def chainContains (entries : Ref → Option (HashtableEntry K V)) (value : V) :
    (fuel : ℕ) → Option Ref → Option Bool
  | 0, _ => none
  | _ + 1, none => some false
  | fuel + 1, some e =>
    match entries e with
    | none => none
    | some entry =>
      if JavaValue.equals entry.value value = true then some true
      else chainContains entries value fuel entry.next

/-- The outer loop of `contains`, from bucket `i - 1` down. -/
def Hashtable.containsFrom (s : Hashtable K V) (value : V) (fuel : ℕ) : (i : ℕ) → Option Bool
  | 0 => some false
  | i + 1 =>
    match chainContains s.entries value fuel (s.bucket i) with
    | none => none
    | some true => some true
    | some false => s.containsFrom value fuel i

/-- `contains`, of a value that is not null. -/
def Hashtable.contains (s : Hashtable K V) (value : V) (fuel : ℕ) : Option Bool :=
  s.containsFrom value fuel s.table.length

end Values

/-! ## Enumerations -/

/-- `HashtableEnumerator`, of keys or of elements. -/
structure Enumerator where
  index : ℤ
  entry : Option Ref

/-- `keys`, `elements`. -/
def Hashtable.enumerator (s : Hashtable K V) : Enumerator := ⟨s.table.length, none⟩

/-- The loops of `hasMoreElements` and `nextElement`, which go down from bucket `i - 1` to the next
chain; they leave `index` at -1 if there is none. -/
def nextChain (table : List (Option Ref)) : (i : ℕ) → Except Thrown Enumerator
  | 0 => .ok ⟨-1, none⟩
  | i + 1 =>
    match table[i]? with
    | none => .error .arrayIndexOutOfBoundsException
    | some none => nextChain table i
    | some (some e) => .ok ⟨i, some e⟩

/-- The enumerator at its next entry, if it has none. -/
def Enumerator.advance (table : List (Option Ref)) (s : Enumerator) : Except Thrown Enumerator :=
  if s.entry.isSome then .ok s
  else if 0 < s.index then nextChain table s.index.toNat
  else .ok ⟨jint (s.index - 1), none⟩

/-- A call of an enumerator. -/
inductive Call
  | hasMoreElements
  | nextElement
deriving DecidableEq

/-- What a call of an enumerator answers: whether there are more, an element, or an exception. -/
inductive Answer (E : Type)
  | more (b : Bool)
  | element (x : E)
  | thrown (e : Thrown)

/-- `hasMoreElements` and `nextElement`; `get` is the key or the value of an entry. An access
outside the table is left with the index decremented. -/
def Enumerator.call {E : Type} (s : Hashtable K V) (get : HashtableEntry K V → E)
    (enumerator : Enumerator) : Call → Answer E × Enumerator
  | .hasMoreElements =>
    match enumerator.advance s.table with
    | .error e => (.thrown e, ⟨enumerator.index - 1, none⟩)
    | .ok enumerator => (.more enumerator.entry.isSome, enumerator)
  | .nextElement =>
    match enumerator.advance s.table with
    | .error e => (.thrown e, ⟨enumerator.index - 1, none⟩)
    | .ok enumerator =>
      match enumerator.entry.bind s.entries with
      | none => (.thrown .noSuchElementException, enumerator)
      | some entry => (.element (get entry), { enumerator with entry := entry.next })

/-- Some calls. -/
def Enumerator.calls {E : Type} (s : Hashtable K V) (get : HashtableEntry K V → E) :
    List Call → Enumerator → List (Answer E)
  | [], _ => []
  | call :: calls, enumerator =>
    let (answer, enumerator) := enumerator.call s get call
    answer :: enumerator.calls s get calls

/-! ## Operations -/

/-- An operation; a key or a value may be null. Enumerations are made with the calls they get, which
nothing comes between. -/
inductive Op (K V : Type)
  | put (key : Option K) (value : Option V)
  | get (key : Option K)
  | remove (key : Option K)
  | containsKey (key : Option K)
  | contains (value : Option V)
  | size
  | clear
  | keys (calls : List Call)
  | elements (calls : List Call)

/-- What an operation returns or throws. -/
inductive Result (K V : Type)
  | value (v : Option V)
  | bool (b : Bool)
  | size (n : ℕ)
  | done
  | keys (answers : List (Answer K))
  | elements (answers : List (Answer V))
  | thrown (e : Thrown)

/-- An operation on a table. -/
def Hashtable.execute [JavaValue V] (s : Hashtable K V) (memory : Memory) (fuel : ℕ) :
    Op K V → Option (Result K V × Hashtable K V)
  | .put (some key) (some value) =>
    (s.put memory key value fuel).map fun (r, s) =>
      match r with
      | .ok old => (.value old, s)
      | .error e => (.thrown e, s)
  | .get (some key) => (s.get key fuel).map fun v => (.value v, s)
  | .remove (some key) => (s.remove key fuel).map fun (v, s) => (.value v, s)
  | .containsKey (some key) => (s.containsKey key fuel).map fun b => (.bool b, s)
  | .contains (some value) => (s.contains value fuel).map fun b => (.bool b, s)
  | .put _ _ | .get none | .remove none | .containsKey none | .contains none =>
    some (.thrown .nullPointerException, s)
  | .size => some (.size s.count, s)
  | .clear => some (.done, s.clear)
  | .keys calls => some (.keys (s.enumerator.calls s HashtableEntry.key calls), s)
  | .elements calls => some (.elements (s.enumerator.calls s HashtableEntry.value calls), s)

end CldcVm.Hashing
