import Mathlib.Data.List.Basic
import Mathlib.Tactic.Ring

/-!
# Finding an entry of a JAR file

Model of `JarFileParser::find_entry` and of the entry cache (`runtime/JarFileParser.cpp`, lines
1058–1156 and 1175–1290), with `ENABLE_JAR_ENTRY_CACHE`. The file is the list of its bytes; the
allocations of the cache may fail.

Results:

* `findEntryLoop_uncached`: without the cache, the loop finds the first entry of the central
  directory with the name.
* `directory_split`: the directory goes on where an entry ends.
-/

namespace CldcVm.Jar

abbrev Bytes := List UInt8

/-! ## Headers -/

/-- `CH`, `SH` and `LG` (`runtime/JarFileInfo.hpp`, lines 60–62). -/
def ch (b : Bytes) (n : ℕ) : ℕ := (b.getD n 0).toNat

def sh (b : Bytes) (n : ℕ) : ℕ := ch b n + 2 ^ 8 * ch b (n + 1)

def lg (b : Bytes) (n : ℕ) : ℕ := sh b n + 2 ^ 16 * sh b (n + 2)

/-- `CENHDRSIZ`. -/
def cenHdrSiz : ℕ := 46

/-- `CENSIG`: `P`, `K`, 1, 2. -/
def cenSig : ℕ := 0x50 + 2 ^ 8 * 0x4B + 2 ^ 16 * 1 + 2 ^ 24 * 2

def cenLen (b : Bytes) : ℕ := lg b 24

def cenNam (b : Bytes) : ℕ := sh b 28

def cenExt (b : Bytes) : ℕ := sh b 30

def cenCom (b : Bytes) : ℕ := sh b 32

/-- `MAX_ENTRY_NAME`. -/
def maxEntryName : ℕ := 256

/-- `MaxJarCacheEntryCount`. -/
def maxJarCacheEntryCount : ℕ := 256

/-- `skip_bytes` (lines 1236–1237). -/
def skipBytes (header : Bytes) : ℕ := cenHdrSiz + cenNam header + cenExt header + cenCom header

/-- `seek` and `get_bytes`: the bytes that are there. -/
def getBytes (file : Bytes) (offset length : ℕ) : Bytes := (file.drop offset).take length

/-! ## The parser -/

/-- A line of the entry cache: a central header, and the name that follows it. -/
structure CacheLine where
  header : Bytes
  name : Bytes
deriving DecidableEq

/-- The part of `JarFileParser` that `find_entry` uses: the lines in use of the entry cache, the
length of its array (0 when there is none), and the fields of `raw_current_entry`. -/
structure JarFileParser where
  entryCache : List CacheLine
  capacity : ℕ
  centralHeader : Bytes
  length : ℕ
  nextCenOffset : ℕ

/-- Whether the two allocations of an insertion succeed. -/
structure Outcome where
  array : Bool
  line : Bool

/-- `find_entry_from_cache` (lines 1058–1086). -/
def findEntryFromCache (parser : JarFileParser) (matchName : Bytes) : Option JarFileParser :=
  (parser.entryCache.find? fun line => line.name = matchName).map fun line =>
    { parser with centralHeader := line.header, length := cenLen line.header }

/-- Part (1) of `add_current_entry_to_cache0` (lines 1117–1133). -/
def expand (outcome : Outcome) (parser : JarFileParser) : Option JarFileParser :=
  let oldSize := parser.entryCache.length
  if oldSize = parser.capacity then
    let newSize := min (oldSize * 5 / 4 + 20) maxJarCacheEntryCount
    if newSize ≤ oldSize then none
    else if outcome.array then some { parser with capacity := newSize }
    else none
  else some parser

/-- `add_current_entry_to_cache0` (lines 1108–1156). -/
def addCurrentEntryToCache0 (outcome : Outcome) (parser : JarFileParser) (name : Bytes) :
    JarFileParser × Bool :=
  match expand outcome parser with
  | none => (parser, false)
  | some parser =>
    if outcome.line then
      ({ parser with entryCache := parser.entryCache ++ [⟨parser.centralHeader, name⟩] }, true)
    else (parser, false)

/-- `add_current_entry_to_cache` (lines 1089–1106): a directory is not cached. -/
def addCurrentEntryToCache (outcome : Outcome) (parser : JarFileParser) (name : Bytes) :
    JarFileParser × Bool :=
  if name.length > 1 ∧ name.getLast? = some 0x2F then (parser, false)
  else addCurrentEntryToCache0 outcome parser name

/-- Part (2) of the loop body (lines 1240–1275): the parser, `found` and `nextCenOffset`; `none`
when the name cannot be read. -/
def examine (useEntryCache : Bool) (file : Bytes) (matchName : Option Bytes) (outcome : Outcome)
    (parser : JarFileParser) (offset nextCenOffset : ℕ) :
    Option (JarFileParser × Bool × ℕ) :=
  match matchName with
  | none => some (parser, true, offset)
  | some name =>
    let nameLen := cenNam parser.centralHeader
    if (useEntryCache || decide (nameLen = name.length)) ∧ nameLen ≤ maxEntryName then
      let foundName := getBytes file (offset + cenHdrSiz) nameLen
      if foundName.length ≠ nameLen then none
      else if useEntryCache then
        let added := addCurrentEntryToCache outcome parser foundName
        some (added.1, decide (foundName = name),
          if added.2 then offset + skipBytes parser.centralHeader else nextCenOffset)
      else some (parser, decide (foundName = name), nextCenOffset)
    else some (parser, false, nextCenOffset)

/-- The header at an offset, if there is one. -/
def isHeader (header : Bytes) : Bool := header.length = cenHdrSiz ∧ lg header 0 = cenSig

theorem lt_of_isHeader {file : Bytes} {offset : ℕ}
    (h : isHeader (getBytes file offset cenHdrSiz) = true) : offset + cenHdrSiz ≤ file.length := by
  simp only [isHeader, decide_eq_true_eq] at h
  have := h.1
  simp only [getBytes, List.length_take, List.length_drop, cenHdrSiz] at this ⊢
  omega

/-- The `while` loop (lines 1196–1289). The outcome of an insertion is the one for the offset of
the entry. -/
def findEntryLoop (useEntryCache : Bool) (file : Bytes) (matchName : Option Bytes)
    (memory : ℕ → Outcome) (parser : JarFileParser) (offset nextCenOffset : ℕ) :
    JarFileParser × Bool :=
  let header := getBytes file offset cenHdrSiz
  if _h : isHeader header then
    match examine useEntryCache file matchName (memory offset)
        { parser with centralHeader := header } offset nextCenOffset with
    | none => ({ parser with centralHeader := header }, false)
    | some (parser, found, nextCenOffset) =>
      if found then
        ({ parser with length := cenLen parser.centralHeader, nextCenOffset := nextCenOffset },
          true)
      else
        findEntryLoop useEntryCache file matchName memory parser (offset + skipBytes header)
          nextCenOffset
  else ({ parser with centralHeader := header }, false)
termination_by file.length - offset
decreasing_by
  have := lt_of_isHeader _h
  simp only [skipBytes, cenHdrSiz] at *
  omega

/-- `find_entry` (lines 1175–1290). -/
def findEntry (useEntryCache : Bool) (file : Bytes) (matchName : Option Bytes)
    (memory : ℕ → Outcome) (parser : JarFileParser) : JarFileParser × Bool :=
  match (if useEntryCache then matchName.bind (findEntryFromCache parser) else none) with
  | some parser => (parser, true)
  | none =>
    findEntryLoop useEntryCache file matchName memory parser parser.nextCenOffset
      parser.nextCenOffset

/-- The answer of a call: the header of the entry and its length. -/
def answer (result : JarFileParser × Bool) : Option (Bytes × ℕ) :=
  if result.2 then some (result.1.centralHeader, result.1.length) else none

/-! ## The central directory -/

/-- An entry of the directory; it has a name if the name is short enough and inside the file. -/
structure Entry where
  offset : ℕ
  header : Bytes
  name : Option Bytes
  next : ℕ
deriving DecidableEq

/-- The name after a header. -/
def readName (file : Bytes) (offset : ℕ) (header : Bytes) : Option Bytes :=
  let name := getBytes file (offset + cenHdrSiz) (cenNam header)
  if cenNam header ≤ maxEntryName ∧ name.length = cenNam header then some name else none

/-- The entries from an offset on. -/
def directory (file : Bytes) (offset : ℕ) : List Entry :=
  let header := getBytes file offset cenHdrSiz
  if _h : isHeader header then
    ⟨offset, header, readName file offset header, offset + skipBytes header⟩ ::
      directory file (offset + skipBytes header)
  else []
termination_by file.length - offset
decreasing_by
  have := lt_of_isHeader _h
  simp only [skipBytes, cenHdrSiz] at *
  omega

/-- The first entry with a name. -/
def first (entries : List Entry) (name : Bytes) : Option Entry :=
  entries.find? fun entry => entry.name = some name

/-- What a call has to answer for an entry. -/
def Entry.answer (entry : Entry) : Bytes × ℕ := (entry.header, cenLen entry.header)

section Loop

variable {useEntryCache : Bool} {file : Bytes} {matchName : Option Bytes} {memory : ℕ → Outcome}
  {parser : JarFileParser} {offset nextCenOffset : ℕ}

theorem directory_of_header (h : isHeader (getBytes file offset cenHdrSiz) = true) :
    directory file offset = ⟨offset, getBytes file offset cenHdrSiz,
        readName file offset (getBytes file offset cenHdrSiz),
        offset + skipBytes (getBytes file offset cenHdrSiz)⟩ ::
      directory file (offset + skipBytes (getBytes file offset cenHdrSiz)) := by
  rw [directory, dif_pos h]

theorem directory_of_not_header (h : isHeader (getBytes file offset cenHdrSiz) = false) :
    directory file offset = [] := by
  rw [directory, dif_neg (by simp [h])]

theorem findEntryLoop_of_header (h : isHeader (getBytes file offset cenHdrSiz) = true) :
    findEntryLoop useEntryCache file matchName memory parser offset nextCenOffset =
      match examine useEntryCache file matchName (memory offset)
          { parser with centralHeader := getBytes file offset cenHdrSiz } offset nextCenOffset with
      | none => ({ parser with centralHeader := getBytes file offset cenHdrSiz }, false)
      | some (parser, found, nextCenOffset) =>
        if found then
          ({ parser with length := cenLen parser.centralHeader, nextCenOffset := nextCenOffset },
            true)
        else
          findEntryLoop useEntryCache file matchName memory parser
            (offset + skipBytes (getBytes file offset cenHdrSiz)) nextCenOffset := by
  rw [findEntryLoop, dif_pos h]

theorem findEntryLoop_of_not_header (h : isHeader (getBytes file offset cenHdrSiz) = false) :
    findEntryLoop useEntryCache file matchName memory parser offset nextCenOffset =
      ({ parser with centralHeader := getBytes file offset cenHdrSiz }, false) := by
  rw [findEntryLoop, dif_neg (by simp [h])]

theorem directory_of_cut {header : Bytes}
    (h : (getBytes file (offset + cenHdrSiz) (cenNam header)).length ≠ cenNam header) :
    directory file (offset + skipBytes header) = [] := by
  refine directory_of_not_header ?_
  rw [Bool.eq_false_iff]
  intro hheader
  have := lt_of_isHeader hheader
  simp only [getBytes, List.length_take, List.length_drop, skipBytes, cenHdrSiz] at h this
  omega

theorem length_of_readName {header name : Bytes} (h : readName file offset header = some name) :
    name.length = cenNam header ∧ cenNam header ≤ maxEntryName := by
  unfold readName at h
  simp only at h
  split_ifs at h with hboth
  obtain rfl := Option.some.inj h
  exact ⟨hboth.2, hboth.1⟩

theorem directory_induction {P : ℕ → Prop}
    (hend : ∀ offset, isHeader (getBytes file offset cenHdrSiz) = false → P offset)
    (hnext : ∀ offset, isHeader (getBytes file offset cenHdrSiz) = true →
      P (offset + skipBytes (getBytes file offset cenHdrSiz)) → P offset) (offset : ℕ) :
    P offset := by
  induction hmeasure : file.length - offset using Nat.strong_induction_on
    generalizing offset with
  | _ measure ih =>
    cases h : isHeader (getBytes file offset cenHdrSiz) with
    | false => exact hend offset h
    | true =>
      refine hnext offset h (ih _ ?_ _ rfl)
      have hbound := lt_of_isHeader h
      simp only [skipBytes, cenHdrSiz] at *
      omega

/-- **Spec lemma** for the loop without the cache. -/
theorem findEntryLoop_uncached {name : Bytes} (parser : JarFileParser) (offset nextCenOffset : ℕ) :
    answer (findEntryLoop false file (some name) memory parser offset nextCenOffset) =
      (first (directory file offset) name).map Entry.answer := by
  induction offset using directory_induction generalizing parser with
  | hend offset h =>
    rw [findEntryLoop_of_not_header h, directory_of_not_header h]
    rfl
  | hnext offset h ih =>
    rw [findEntryLoop_of_header h, directory_of_header h]
    set header := getBytes file offset cenHdrSiz with hheader
    by_cases hread : cenNam header = name.length ∧ cenNam header ≤ maxEntryName
    · have hshort : name.length ≤ maxEntryName := hread.1 ▸ hread.2
      simp only [examine, hread.1, hshort, Bool.false_or, decide_true, and_self, if_true,
        Bool.false_eq_true, if_false]
      by_cases hcut : (getBytes file (offset + cenHdrSiz) name.length).length = name.length
      · have hname : readName file offset header =
            some (getBytes file (offset + cenHdrSiz) name.length) := by
          rw [readName, hread.1, if_pos ⟨hread.1 ▸ hread.2, hcut⟩]
        rw [hname]
        by_cases heq : getBytes file (offset + cenHdrSiz) name.length = name
        · simp [heq, first, answer, Entry.answer]
        · simp only [hcut, ne_eq, not_true_eq_false, if_false, heq, decide_false,
            Bool.false_eq_true, first]
          rw [ih, List.find?_cons_of_neg (by simpa using heq)]
          rfl
      · rw [← hread.1] at hcut
        have hname : readName file offset header = none := by
          rw [readName, if_neg fun hboth => hcut hboth.2]
        rw [hname, directory_of_cut hcut]
        rw [hread.1] at hcut
        simp [hcut, first, answer]
    · have hexamine : examine false file (some name) (memory offset)
          { parser with centralHeader := header } offset nextCenOffset =
            some ({ parser with centralHeader := header }, false, nextCenOffset) := by
        unfold examine
        simp only [Bool.false_or, decide_eq_true_eq, hread, if_false]
      have hother : ¬ readName file offset header = some name := by
        intro hname
        obtain ⟨hlength, hshort⟩ := length_of_readName hname
        exact hread ⟨hlength.symm, hshort⟩
      rw [hexamine]
      simp only [Bool.false_eq_true, if_false, first]
      rw [ih, List.find?_cons_of_neg (by simpa using hother)]
      rfl

theorem findEntry_uncached {name : Bytes} :
    answer (findEntry false file (some name) memory parser) =
      (first (directory file parser.nextCenOffset) name).map Entry.answer := by
  exact findEntryLoop_uncached parser parser.nextCenOffset parser.nextCenOffset

theorem directory_split {before after : List Entry} {entry : Entry}
    (h : directory file offset = before ++ entry :: after) : after = directory file entry.next := by
  induction before generalizing offset with
  | nil =>
    cases hheader : isHeader (getBytes file offset cenHdrSiz) with
    | false =>
      rw [directory_of_not_header hheader] at h
      exact absurd h (by simp)
    | true =>
      rw [directory_of_header hheader, List.nil_append] at h
      obtain ⟨rfl, rfl⟩ := List.cons.inj h
      rfl
  | cons first before ih =>
    cases hheader : isHeader (getBytes file offset cenHdrSiz) with
    | false =>
      rw [directory_of_not_header hheader] at h
      exact absurd h (by simp)
    | true =>
      rw [directory_of_header hheader, List.cons_append] at h
      exact ih (List.cons.inj h).2

end Loop

end CldcVm.Jar
