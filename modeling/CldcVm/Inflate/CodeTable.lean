import CldcVm.Lib.CanonicalCode

/-!
# The Huffman code tables of the inflater

`Inflater::make_code_table` (`runtime/Inflate.cpp`, lines 566–734) builds a table with two levels
from an array of code lengths, and `GET_HUFFMAN_ENTRY` (`runtime/Inflate.hpp`, lines 100–113) looks
a symbol up by the bits that follow. The quick table is indexed by the next `quickBits` bits; for
a longer code it holds the distance of a long table, indexed by the bits after these.

The number of quick bits is the one the caller asks for, or with `EnableLookupTableSizeHeuristic`
the one that minimises the number of entries. All arithmetic is unsigned, modulo `2^32`; the counts
and codes are far from it (`CodeLengths`), the sizes of the tables are not if there are too many
codes, so these are reduced. An access outside an array has no result.
-/

namespace CldcVm.Inflate

open Lib.CanonicalCode

/-! ## Model of the C++ code -/

/-- `MAX_BITS`. -/
def maxBits : ℕ := 15

/-- `Inflater::reverse5`. -/
def reverse5 : List ℕ :=
  [ 0x0, 0x10, 0x8, 0x18, 0x4, 0x14, 0xc, 0x1c,
    0x2, 0x12, 0xa, 0x1a, 0x6, 0x16, 0xe, 0x1e,
    0x1, 0x11, 0x9, 0x19, 0x5, 0x15, 0xd, 0x1d,
    0x3, 0x13, 0xb, 0x1b, 0x7, 0x17, 0xf, 0x1f ]

/-- `reverse_15bits`. -/
def reverse15bits (code : ℕ) : Option ℕ := do
  let high ← reverse5[code &&& 0x1f]?
  let middle ← reverse5[(code >>> 5) &&& 0x1f]?
  let low ← reverse5[code >>> 10]?
  return high <<< 10 ||| middle <<< 5 ||| low

/-- `HuffmanCodeTable`: its header, and its entries after the header of 4 bytes. -/
structure HuffmanCodeTable where
  quickBits : ℕ
  maxCodeLen : ℕ
  entries : List ℕ
deriving DecidableEq, Repr

/-- `sizeof(HuffmanCodeTableHeader)`. -/
def headerSize : ℕ := 4

/-- `HUFFINFO_LONG_MASK`. -/
def longMask : ℕ := 0x8000

/-- The index of the entry `delta` bytes after the start of the table. -/
def entryIndex (delta : ℕ) : Option ℕ :=
  if headerSize ≤ delta ∧ delta % 2 = 0 then some ((delta - headerSize) / 2) else none

/-- `GET_HUFFMAN_ENTRY`: the symbol and the number of bits, nothing for an error entry. `inData`
are the bits that follow. -/
def getHuffmanEntry (table : HuffmanCodeTable) (inData : ℕ) : Option (Option (ℕ × ℕ)) := do
  let huff ← table.entries[inData % 2 ^ table.quickBits]?
  let huff ←
    if huff &&& longMask ≠ 0 then
      (entryIndex (huff &&& 0x7fff)).bind fun table2 =>
        table.entries[table2 + (inData % 2 ^ table.maxCodeLen) >>> table.quickBits]?
    else some huff
  return if huff = 0 then none else some (huff >>> 4, huff &&& 0xf)

/-- The codes of a loop over the lengths: the next code and, for each length, its first one. -/
structure Scan where
  code : ℕ
  codes : ℕ → ℕ

/-- The iteration for the length `bits`, lines 632–641 and 613–620. -/
def Scan.next (count : ℕ → ℕ) (bits : ℕ) (s : Scan) : Scan where
  codes := Function.update s.codes bits s.code
  code := if count bits ≠ 0 then s.code + count bits <<< (maxBits - bits) else s.code

/-- After the iterations for the lengths 1 to `bits`. -/
def scanAfter (count : ℕ → ℕ) : (bits : ℕ) → Scan
  | 0 => ⟨0, fun _ => 0⟩
  | bits + 1 => (scanAfter count bits).next count (bits + 1)

/-- `maxCodeLen`: the greatest length up to `bits` that occurs. -/
def maxCodeLenUpTo (count : ℕ → ℕ) : (bits : ℕ) → ℕ
  | 0 => 0
  | bits + 1 => if count (bits + 1) ≠ 0 then bits + 1 else maxCodeLenUpTo count bits

/-- The difference of two unsigned numbers. -/
def usub (a b : ℕ) : ℕ := (2 ^ 32 + a - b) % 2 ^ 32

/-- `tableSize` of the heuristic for `bits` quick bits, lines 622–625; `code` is the code after
the iteration. -/
def heuristicSize (code maxCodeLen bits : ℕ) : ℕ :=
  ((usub (2 ^ maxBits) code >>> (maxBits - bits)) <<< (maxCodeLen - bits) % 2 ^ 32 + 2 ^ bits) % 2 ^ 32

/-- `optQuickBits` and `optTableSize`, lines 627–630, after the iterations for 1 to `bits`. -/
def optimumAfter (count : ℕ → ℕ) (maxCodeLen : ℕ) : (bits : ℕ) → ℕ × ℕ
  | 0 => (0, 0)
  | bits + 1 =>
    let optimum := optimumAfter count maxCodeLen bits
    let tableSize := heuristicSize (scanAfter count (bits + 1)).code maxCodeLen (bits + 1)
    if optimum.1 = 0 ∨ tableSize < optimum.2 then (bits + 1, tableSize) else optimum

/-- The lengths of the tables, and the first codes. -/
structure Layout where
  quickBits : ℕ
  maxCodeLen : ℕ
  mainTableLength : ℕ
  numLongTables : ℕ
  longTableLength : ℕ
  codes : ℕ → ℕ

/-- The number of quick bits before the lengths of the tables are computed, lines 594–645. -/
def chooseQuickBits (heuristic : Bool) (count : ℕ → ℕ) (maxQuickBits : ℕ) : ℕ :=
  if heuristic then (optimumAfter count (maxCodeLenUpTo count maxBits)
    (maxCodeLenUpTo count maxBits)).1
  else maxQuickBits

/-- The first codes: the heuristic stops at the greatest length. -/
def firstCodes (heuristic : Bool) (count : ℕ → ℕ) : ℕ → ℕ :=
  (scanAfter count (if heuristic then maxCodeLenUpTo count maxBits else maxBits)).codes

/-- The sizes of the table, lines 583–664. -/
def layout (heuristic : Bool) (codelen : List ℕ) (maxQuickBits : ℕ) : Layout :=
  let count := fun bits => codelen.count bits
  let maxCodeLen := maxCodeLenUpTo count maxBits
  let quickBits := chooseQuickBits heuristic count maxQuickBits
  let codes := firstCodes heuristic count
  if maxCodeLen ≤ quickBits then ⟨maxCodeLen, maxCodeLen, 2 ^ maxCodeLen, 0, 0, codes⟩
  else ⟨quickBits, maxCodeLen, 2 ^ quickBits,
    usub (2 ^ maxBits) (codes (quickBits + 1)) >>> (maxBits - quickBits),
    2 ^ (maxCodeLen - quickBits), codes⟩

/-- The number of entries that the array of `tableSize` bytes has room for, lines 669–676. -/
def Layout.numEntries (lay : Layout) : ℕ :=
  ((headerSize + (lay.mainTableLength + lay.numLongTables * lay.longTableLength) * 2) % 2 ^ 32 -
    headerSize) / 2

/-- The state of the loop over the symbols: the entries, the index that `nextLongTable` points to,
and the next code of each length. -/
structure Fill where
  entries : List ℕ
  nextLongTable : ℕ
  codes : ℕ → ℕ

/-- `for (; j < limit; j += stride) table[j] = huff`, where `table` starts at the index `base`. -/
def strideFill (huff base limit stride : ℕ) : (fuel : ℕ) → (j : ℕ) → List ℕ → Option (List ℕ)
  | 0, _, entries => some entries
  | fuel + 1, j, entries =>
    if j < limit then
      if base + j < entries.length then
        strideFill huff base limit stride fuel (j + stride) (entries.set (base + j) huff)
      else none
    else some entries

/-- `huff` of a symbol. -/
def huffOf (symbol bits : ℕ) : ℕ := (symbol <<< 4 + bits) % 2 ^ 16

/-- The long table for a prefix, lines 708–722: the state with the table allocated, if it was not,
and the index where the table starts. -/
def longTableFor (lay : Layout) (prefixCode : ℕ) (fill : Fill) : Option (Fill × ℕ) := do
  let entry ← fill.entries[prefixCode]?
  if entry = 0 then
    let delta := headerSize + 2 * fill.nextLongTable
    return ({ fill with
      entries := fill.entries.set prefixCode ((longMask ||| delta) % 2 ^ 16)
      nextLongTable := fill.nextLongTable + lay.longTableLength }, fill.nextLongTable)
  else
    let thisLongTable ← entryIndex (entry &&& 0x7fff)
    return (fill, thisLongTable)

/-- The entries of a code of `bits` bits, lines 696–728; `code` is reversed. -/
def putCode (lay : Layout) (huff bits code : ℕ) (fill : Fill) : Option Fill :=
  if bits ≤ lay.quickBits then
    (strideFill huff 0 lay.mainTableLength (2 ^ bits) lay.mainTableLength code fill.entries).map
      fun entries => { fill with entries := entries }
  else
    (longTableFor lay (code &&& (2 ^ lay.quickBits - 1)) fill).bind fun (fill, thisLongTable) =>
      (strideFill huff thisLongTable lay.longTableLength (2 ^ (bits - lay.quickBits))
        lay.longTableLength (code >>> lay.quickBits) fill.entries).map
        fun entries => { fill with entries := entries }

/-- The body of the loop over the symbols, lines 685–729. -/
def insertCode (lay : Layout) (symbol bits : ℕ) (fill : Fill) : Option Fill :=
  if bits = 0 then some fill
  else
    (reverse15bits (fill.codes bits)).bind fun code =>
      putCode lay (huffOf symbol bits) bits code { fill with
        codes := Function.update fill.codes bits (fill.codes bits + 1 <<< (maxBits - bits)) }

/-- The loop over the symbols from `symbol` on. -/
def insertCodes (lay : Layout) : (symbol : ℕ) → List ℕ → Fill → Option Fill
  | _, [], fill => some fill
  | symbol, bits :: rest, fill => (insertCode lay symbol bits fill).bind
      (insertCodes lay (symbol + 1) rest)

/-- `make_code_table`. The inner result is missing if the allocation throws. -/
def makeCodeTable (heuristic allocates : Bool) (codelen : List ℕ) (maxQuickBits : ℕ) :
    Option (Option HuffmanCodeTable) :=
  let lay := layout heuristic codelen maxQuickBits
  if allocates then
    (insertCodes lay 0 codelen
      ⟨List.replicate lay.numEntries 0, lay.mainTableLength, lay.codes⟩).map
      fun fill => some ⟨lay.quickBits, lay.maxCodeLen, fill.entries⟩
  else some none

end CldcVm.Inflate
