import CldcVm.Lib.Probing
import Mathlib.Data.Nat.Bitwise

/-!
# The symbol table

`SymbolTable::symbol_for` (SymbolTable.cpp:49-198) looks a byte string up in the ROM and then in the
table of the heap, and enters a new symbol at the hole the search has come to. A string of up to six
bytes is compared as one or two words, which hold the 16 bits of the length, the bytes, and zeros.

`symbolFor` is one call, `run` a sequence of calls in which the memory may run out at any time. Both
have no result where a probe loop would go on beyond the table.
-/

namespace CldcVm.Symbols

open Probing

/-- The bytes of a symbol. -/
abbrev Text := List UInt8

/-- `SymbolTable::hash`. -/
def hash (s : Text) : ℕ :=
  s.foldl (fun value chr => (31 * value + chr.toNat) % 2 ^ 32) 0

/-- The byte at the index, zero beyond the end. -/
def byteAt (s : Text) (i : ℕ) : ℕ := (s.getD i 0).toNat

/-- `blob.ints[0]`: the length as a `jushort`, and the first two bytes. -/
def blob0 (s : Text) : ℕ := s.length % 2 ^ 16 + 2 ^ 16 * (byteAt s 0 + 2 ^ 8 * byteAt s 1)

/-- `blob.ints[1]`: the next four bytes. -/
def blob1 (s : Text) : ℕ :=
  byteAt s 2 + 2 ^ 8 * byteAt s 3 + 2 ^ 16 * byteAt s 4 + 2 ^ 24 * byteAt s 5

/-- A symbol of the heap: which object it is, its bytes, and the word behind the object. The rest of
its last word has been cleared by `ObjectHeap::allocate`. -/
structure SymbolDesc where
  id : ℕ
  utf8 : Text
  behind : ℕ
deriving DecidableEq

/-- `SymbolDesc::header_size()`. -/
def headerSize : ℕ := 6

/-- `body[0]`, the first word after the header of the object. -/
def SymbolDesc.body0 (d : SymbolDesc) : ℕ := blob0 d.utf8

/-- `body[1]`, which is not a word of the object where the symbol ends with the word before. -/
def SymbolDesc.body1 (d : SymbolDesc) : ℕ :=
  if headerSize + d.utf8.length ≤ 8 then d.behind else blob1 d.utf8

/-- `SymbolDesc::matches` (SymbolDesc.hpp:60-63), with the `jushort` length of the symbol. -/
def matchesText (s old : Text) : Bool :=
  s.length == old.length % 2 ^ 16 && s == old.take s.length

/-- The comparison of the loop that `symbol_for` enters for a string of this length. -/
def comparison (s : Text) (old : SymbolDesc) : Bool :=
  if 0 < s.length ∧ s.length ≤ 6 then
    if s.length ≤ 2 then blob0 s == old.body0
    else blob0 s == old.body0 && blob1 s == old.body1
  else matchesText s old.utf8

/-! ## Symbols in ROM -/

/-- A symbol: one of the ROM, by its place in the table of an image, or an object of the heap. -/
inductive SymbolRef
  | rom (image bucket index : ℕ)
  | heap (id : ℕ)
deriving DecidableEq

/-- The search of one image: the first match in the bucket of the hash value. -/
def bucketFor (buckets : List (List Text)) (s : Text) : Option (ℕ × ℕ) :=
  if 0 < buckets.length then
    ((buckets.getD (hash s % buckets.length) []).findIdx? (matchesText s)).map
      fun index => (hash s % buckets.length, index)
  else none

/-- `ROM::symbol_for` (ROM.cpp:962-1022): the image of the system, then the other ones. -/
def romSymbolFor (s : Text) : (images : List (List (List Text))) → (image : ℕ) → Option SymbolRef
  | [], _ => none
  | buckets :: images, image =>
    match bucketFor buckets s with
    | some (bucket, index) => some (.rom image bucket index)
    | none => romSymbolFor s images (image + 1)

/-! ## The table -/

structure SymbolTable where
  length : ℕ
  slot : ℕ → Option SymbolDesc

namespace SymbolTable

/-- `SymbolTable::initialize`. -/
def init (size : ℕ) : SymbolTable := ⟨size, empty⟩

def mask (t : SymbolTable) : ℕ := t.length - 1

/-- `index ++; index &= mask`. -/
def next (t : SymbolTable) (index : ℕ) : ℕ := (index + 1) &&& t.mask

/-- `obj_at_put`. -/
def put (t : SymbolTable) (index : ℕ) (symbol : SymbolDesc) : SymbolTable :=
  { t with slot := Function.update t.slot index (some symbol) }

/-- The search for a hit from the slot of the hash value on. -/
def search (t : SymbolTable) (hit : SymbolDesc → Bool) (s : Text) : Option (Probe SymbolDesc) :=
  probe t.slot hit t.next (hash s &&& t.mask) t.length (hash s &&& t.mask)

/-- `SymbolTable::insert`: no result where the `GUARANTEE` fails. -/
def insert (t : SymbolTable) (symbol : SymbolDesc) : Option SymbolTable :=
  match t.search (fun _ => false) symbol.utf8 with
  | some (.hole index) => some (t.put index symbol)
  | _ => none

/-- The body of the loop of `grow_and_replace_symbol_table`. -/
def move (t new : SymbolTable) (i : ℕ) : Option SymbolTable :=
  match t.slot i with
  | none => some new
  | some symbol => new.insert symbol

/-- `SymbolTable::grow_and_replace_symbol_table`, where `allocated` says whether there is memory for
the new table. -/
def growAndReplaceSymbolTable (t : SymbolTable) (allocated : Bool) : Option SymbolTable :=
  if allocated then (List.range t.length).foldlM t.move (init (t.length * 2)) else some t

/-- `SymbolTable::desired_max_symbol_count`. -/
def desiredMaxSymbolCount (t : SymbolTable) : ℕ := t.length / 4

/-- The end of `symbol_for`: the table grows where it holds more symbols than it should. -/
def growIfNeeded (t : SymbolTable) (newCount : ℕ) (allocated : Bool) : Option SymbolTable :=
  if newCount > t.desiredMaxSymbolCount then t.growAndReplaceSymbolTable allocated else some t

end SymbolTable

/-- The table of a task, its `symbol_table_count`, and how many symbols have been created. -/
structure State where
  table : SymbolTable
  count : ℕ
  created : ℕ

/-- A call of `symbol_for`. The last two fields say what memory is left: for a new symbol, with the
word that will be behind it, and for a larger table. -/
structure Call where
  text : Text
  checkOnly : Bool
  newSymbol : Option ℕ
  newTable : Bool
deriving DecidableEq

inductive Return
  | symbol (ref : SymbolRef)
  | null
  | outOfMemory
deriving DecidableEq

/-- The end of `SymbolTable::symbol_for`: a new symbol at the hole. -/
def enter (st : State) (c : Call) (index : ℕ) : Option (Return × State) :=
  match c.newSymbol with
  | none => some (.outOfMemory, st)
  | some behind => do
    let symbol : SymbolDesc := ⟨st.created, c.text, behind⟩
    let table := st.table.put index symbol
    let newCount := st.count + 1
    let grown ← table.growIfNeeded newCount c.newTable
    return (.symbol (.heap symbol.id), ⟨grown, newCount, st.created + 1⟩)

/-- `SymbolTable::symbol_for`: no result where a loop has not ended within the table. -/
def symbolFor (images : List (List (List Text))) (st : State) (c : Call) :
    Option (Return × State) :=
  if c.text.length > 0xfff0 then some (.outOfMemory, st)
  else
    match romSymbolFor c.text images 0 with
    | some oldSym => some (.symbol oldSym, st)
    | none =>
      match st.table.search (comparison c.text) c.text with
      | none => none
      | some (.found old) => some (.symbol (.heap old.id), st)
      | some (.hole index) => if c.checkOnly then some (.null, st) else enter st c index
      | some .full => if c.checkOnly then some (.null, st) else some (.outOfMemory, st)

/-- A run of calls: what they return. -/
def run (images : List (List (List Text))) : State → List Call → Option (List Return × State)
  | st, [] => some ([], st)
  | st, c :: calls => do
    let (r, st) ← symbolFor images st c
    let (returns, st) ← run images st calls
    return (r :: returns, st)

/-- The state of a new task, with a table of `2 ^ k` slots. -/
def initial (k : ℕ) : State := ⟨.init (2 ^ k), 0, 0⟩

end CldcVm.Symbols
