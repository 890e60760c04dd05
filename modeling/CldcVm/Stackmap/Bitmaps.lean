import CldcVm.Stackmap.StackmapList

/-!
# Writing and reading the bitmaps

The two writers and the two readers of the bits of a compressed stackmap
(StackmapGenerator.cpp:51-262). Writer and reader meet in the stream of bits:
bit `p` is the one of local `p`, or of the stack slot that comes after the locals there.

Results:

* `writeShortMap_spec`, `writeLongMap_spec`: the bits written are the references of the stackmap.
* `readMap_eq`: what the readers make of the bits of an entry.
* `readMap_of_encodes`: an entry is read as the stackmap it stands for.
-/

namespace CldcVm.Stackmap

open Lib

/-! ## Writing a short map -/

/-- One iteration of the loops of `write_short_map` (StackmapGenerator.cpp:63-69),
acting on `(bitmap, bit)`. -/
def writeShortBit (kind : ℕ) (s : ℕ × ℕ) : ℕ × ℕ :=
  (if convertToStackmaptag kind = .obj then (s.1 ||| s.2) % 2 ^ 16 else s.1, (s.2 <<< 1) % 2 ^ 16)

/-- A loop over `count` types of the array from index `i` on. -/
def writeShortBits (base : List ℕ) : (count i : ℕ) → ℕ × ℕ → ℕ × ℕ
  | 0, _, s => s
  | count + 1, i, s => writeShortBits base count (i + 1) (writeShortBit (base.getD i 0) s)

/-- `StackmapGenerator::write_short_map` (StackmapGenerator.cpp:52-85). -/
def writeShortMap (base : List ℕ) : ℕ :=
  let locals := base.getD 1 0
  let stack := base.getD (locals + 2) 0
  (writeShortBits base stack (locals + 3) (writeShortBits base locals 2 (0, 1))).1

/-- `n` bits of a short map are written. -/
def ShortWritten (reference : ℕ → Bool) (n : ℕ) (s : ℕ × ℕ) : Prop :=
  Collects s.1 n reference ∧ s.2 = 2 ^ n % 2 ^ 16

variable {i : ℕ} {stackmap : VerifierStackmap}

section Short

variable {reference : ℕ → Bool} {n : ℕ} {kind : ℕ}

theorem collects_or_mod {bits : ℕ} {f : ℕ → Bool} (h : Collects bits n f) (hn : n < 16)
    (hkind : convertToStackmaptag kind = .obj ↔ f n = true) :
    Collects (if convertToStackmaptag kind = .obj then (bits ||| 2 ^ n) % 2 ^ 16 else bits)
      (n + 1) f := by
  have hpush := h.push
  have hpow : 2 ^ (n + 1) ≤ 2 ^ 16 := Nat.pow_le_pow_right (by omega) hn
  by_cases hobj : convertToStackmaptag kind = .obj
  · have hlt := hpush.lt_two_pow
    rw [if_pos (hkind.mp hobj)] at hpush hlt
    rwa [if_pos hobj, Nat.mod_eq_of_lt (lt_of_lt_of_le hlt hpow)]
  · rw [if_neg fun hf => hobj (hkind.mpr hf)] at hpush
    rwa [if_neg hobj]

theorem two_pow_shiftLeft_mod (n : ℕ) : (2 ^ n <<< 1) % 2 ^ 16 = 2 ^ (n + 1) % 2 ^ 16 := by
  rw [Nat.shiftLeft_eq, pow_one, ← pow_succ]

/-- **Step lemma** of the writer of short maps. -/
theorem ShortWritten.step {s : ℕ × ℕ} (h : ShortWritten reference n s) (hn : n < 16)
    (hkind : convertToStackmaptag kind = .obj ↔ reference n = true) :
    ShortWritten reference (n + 1) (writeShortBit kind s) := by
  obtain ⟨hbitmap, hbit⟩ := h
  have hpow : 2 ^ n % 2 ^ 16 = 2 ^ n :=
    Nat.mod_eq_of_lt (Nat.pow_lt_pow_right (by omega) hn)
  rw [hpow] at hbit
  rw [writeShortBit, hbit]
  exact ⟨collects_or_mod hbitmap hn hkind, two_pow_shiftLeft_mod n⟩

/-- **Run lemma** of the writer of short maps. -/
theorem ShortWritten.run {base : List ℕ} {count : ℕ} {s : ℕ × ℕ}
    (h : ShortWritten reference n s) (hcount : n + count ≤ 16) (hkinds : ∀ k < count,
      convertToStackmaptag (base.getD (i + k) 0) = .obj ↔ reference (n + k) = true) :
    ShortWritten reference (n + count) (writeShortBits base count i s) := by
  induction count generalizing n i s with
  | zero => exact h
  | succ count ih =>
    have hstep := h.step (by omega) (hkinds 0 (by omega))
    have hrest : ∀ k < count,
        convertToStackmaptag (base.getD (i + 1 + k) 0) = .obj ↔ reference (n + 1 + k) = true := by
      intro k hk
      rw [add_right_comm i, add_right_comm n]
      exact hkinds (k + 1) (by omega)
    have hrun := ih hstep (by omega) hrest
    rwa [add_right_comm, add_assoc] at hrun

/-- **Spec lemma** of `write_short_map`. -/
theorem writeShortMap_spec (hslots : stackmap.slots ≤ 16) :
    Collects (writeShortMap stackmap.toArray) stackmap.slots stackmap.isReference := by
  have hstart : ShortWritten stackmap.isReference 0 (0, 1) := ⟨Collects.zero _, rfl⟩
  have hlocals : ∀ k < stackmap.locals.length,
      convertToStackmaptag (stackmap.toArray.getD (2 + k) 0) = .obj ↔
        stackmap.isReference (0 + k) = true := by
    intro k hk
    rw [add_comm 2, zero_add]
    exact stackmap.toArray_getD_local hk
  have hafter := hstart.run (by unfold VerifierStackmap.slots at hslots; omega) hlocals
  rw [zero_add] at hafter
  have hstack : ∀ k < stackmap.stack.length,
      convertToStackmaptag (stackmap.toArray.getD (stackmap.locals.length + 3 + k) 0) = .obj ↔
        stackmap.isReference (stackmap.locals.length + k) = true :=
    fun k hk => stackmap.toArray_getD_stack hk
  have hend := hafter.run hslots hstack
  rw [writeShortMap, stackmap.toArray_getD_one]
  simp only [stackmap.toArray_getD_stackHeight]
  exact hend.1

end Short

/-! ## Writing a long map -/

/-- `bits_per_longmap_entry` (StackmapGenerator.cpp:30). -/
def bitsPerLongmapEntry : ℕ := 16

/-- `Universe::new_short_array`, which fails when the heap is full. -/
def newShortArray (allocates : Bool) (length : ℕ) : Option (List ℕ) :=
  if allocates then some (List.replicate length 0) else none

/-- The locals of `write_long_map`. -/
structure LongWriter where
  bitmap : List ℕ
  bitmapIndex : ℕ
  bmpBits : ℕ
  bit : ℕ

/-- One iteration of the loops of `write_long_map`
(StackmapGenerator.cpp:106-118). -/
def writeLongBit (kind : ℕ) (w : LongWriter) : LongWriter :=
  let bmpBits :=
    if convertToStackmaptag kind = .obj then (w.bmpBits ||| w.bit) % 2 ^ 16 else w.bmpBits
  let bit := (w.bit <<< 1) % 2 ^ 16
  if bit = 0 then ⟨w.bitmap.set w.bitmapIndex bmpBits, w.bitmapIndex + 1, 0, 1⟩
  else ⟨w.bitmap, w.bitmapIndex, bmpBits, bit⟩

/-- A loop over `count` types of the array from index `i` on. -/
def writeLongBits (base : List ℕ) : (count i : ℕ) → LongWriter → LongWriter
  | 0, _, w => w
  | count + 1, i, w => writeLongBits base count (i + 1) (writeLongBit (base.getD i 0) w)

/-- `array_max`: the shorts of a long map, with its three attributes. -/
def arrayMax (locals stack : ℕ) : ℕ :=
  (locals + stack + bitsPerLongmapEntry - 1) / bitsPerLongmapEntry + 3

/-- The last, unfinished short is written too if there is one. -/
def flush (w : LongWriter) (arrayMax : ℕ) : List ℕ :=
  if w.bitmapIndex < arrayMax then w.bitmap.set w.bitmapIndex w.bmpBits else w.bitmap

/-- `StackmapGenerator::write_long_map` (StackmapGenerator.cpp:88-139). -/
def writeLongMap (allocates : Bool) (base : List ℕ) : Option (List ℕ) :=
  let locals := base.getD 1 0
  let stack := base.getD (locals + 2) 0
  (newShortArray allocates (arrayMax locals stack)).map fun bitmap =>
    flush (writeLongBits base stack (locals + 3) (writeLongBits base locals 2 ⟨bitmap, 3, 0, 1⟩))
      (arrayMax locals stack)

/-- `n` bits of a long map of `length` shorts are written: those of the full shorts are in the
array, the others in `bmp_bits`. -/
structure LongWritten (reference : ℕ → Bool) (length n : ℕ) (w : LongWriter) : Prop where
  length : w.bitmap.length = length
  index : w.bitmapIndex = 3 + n / 16
  bit : w.bit = 2 ^ (n % 16)
  pending : Collects w.bmpBits (n % 16) fun i => reference (16 * (n / 16) + i)
  written : ∀ p < 16 * (n / 16), streamBit 16 w.bitmap (3 * 16 + p) = reference p

section Long

variable {reference : ℕ → Bool} {length n : ℕ} {kind : ℕ} {w : LongWriter}

/-- A short that is put after the full ones. -/
theorem streamBit_set_pending {bitmap : List ℕ} {bits k : ℕ}
    (hpending : Collects bits k fun i => reference (16 * (n / 16) + i)) (hk : k ≤ 16)
    (hindex : 3 + n / 16 < bitmap.length)
    (hwritten : ∀ p < 16 * (n / 16), streamBit 16 bitmap (3 * 16 + p) = reference p) :
    ∀ p < 16 * (n / 16) + k,
      streamBit 16 (bitmap.set (3 + n / 16) bits) (3 * 16 + p) = reference p := by
  intro p hp
  by_cases hfull : p < 16 * (n / 16)
  · rw [streamBit_set_of_ne (by omega)]
    exact hwritten p hfull
  · have hposition : 3 * 16 + p = 16 * (3 + n / 16) + (p - 16 * (n / 16)) := by omega
    have hreference : 16 * (n / 16) + (p - 16 * (n / 16)) = p := by omega
    rw [hposition, streamBit_set_self hindex (by omega), hpending.testBit_of_lt (by omega),
      hreference]

/-- **Step lemma** of the writer of long maps. -/
theorem LongWritten.step (h : LongWritten reference length n w) (hn : 3 + n / 16 < length)
    (hkind : convertToStackmaptag kind = .obj ↔ reference n = true) :
    LongWritten reference length (n + 1) (writeLongBit kind w) := by
  have hmod : n % 16 < 16 := Nat.mod_lt n (by omega)
  have hkind' : convertToStackmaptag kind = .obj ↔ reference (16 * (n / 16) + n % 16) = true := by
    rwa [Nat.div_add_mod]
  have hpending := collects_or_mod h.pending hmod hkind'
  rw [writeLongBit, h.bit]
  by_cases hfull : n % 16 = 15
  · -- the short is full: it goes into the array
    have hdiv : (n + 1) / 16 = n / 16 + 1 := by omega
    have hnext : (n + 1) % 16 = 0 := by omega
    have hbit : (2 ^ (n % 16) <<< 1) % 2 ^ 16 = 0 := by rw [hfull]; rfl
    have hindex : 3 + n / 16 < w.bitmap.length := by rwa [h.length]
    simp only [hbit, if_true]
    exact {
      length := by rw [List.length_set]; exact h.length
      index := by
        have hindexOld := h.index
        show w.bitmapIndex + 1 = 3 + (n + 1) / 16
        omega
      bit := by rw [hnext]; rfl
      pending := by rw [hnext]; exact Collects.zero _
      written := by
        rw [hdiv, h.index]
        intro p hp
        exact streamBit_set_pending hpending (by omega) hindex h.written p (by omega) }
  · have hdiv : (n + 1) / 16 = n / 16 := by omega
    have hnext : (n + 1) % 16 = n % 16 + 1 := by omega
    have hbit : (2 ^ (n % 16) <<< 1) % 2 ^ 16 = 2 ^ (n % 16 + 1) := by
      rw [two_pow_shiftLeft_mod]
      exact Nat.mod_eq_of_lt (Nat.pow_lt_pow_right (by omega) (by omega))
    have hne : 2 ^ (n % 16 + 1) ≠ 0 := (Nat.two_pow_pos _).ne'
    simp only [hbit, if_neg hne]
    exact {
      length := h.length
      index := by rw [hdiv]; exact h.index
      bit := by rw [hnext]
      pending := by rw [hdiv, hnext]; exact hpending
      written := by rw [hdiv]; exact h.written }

/-- **Run lemma** of the writer of long maps. -/
theorem LongWritten.run {base : List ℕ} {count : ℕ} (h : LongWritten reference length n w)
    (hcount : n + count ≤ 16 * (length - 3)) (hkinds : ∀ k < count,
      convertToStackmaptag (base.getD (i + k) 0) = .obj ↔ reference (n + k) = true) :
    LongWritten reference length (n + count) (writeLongBits base count i w) := by
  induction count generalizing n i w with
  | zero => exact h
  | succ count ih =>
    have hstep := h.step (by omega) (hkinds 0 (by omega))
    have hrest : ∀ k < count,
        convertToStackmaptag (base.getD (i + 1 + k) 0) = .obj ↔ reference (n + 1 + k) = true := by
      intro k hk
      rw [add_right_comm i, add_right_comm n]
      exact hkinds (k + 1) (by omega)
    have hrun := ih hstep (by omega) hrest
    rwa [add_right_comm, add_assoc] at hrun

theorem LongWritten.flush_spec (h : LongWritten reference length n w)
    (hlength : length = arrayMax n 0) : (flush w length).length = length ∧
      ∀ p < n, streamBit 16 (flush w length) (3 * 16 + p) = reference p := by
  rw [arrayMax, bitsPerLongmapEntry] at hlength
  rw [flush, h.index]
  by_cases hindex : 3 + n / 16 < length
  · have hbits := streamBit_set_pending h.pending (Nat.mod_lt n (by omega)).le
      (by rwa [h.length]) h.written
    rw [if_pos hindex]
    exact ⟨by rw [List.length_set]; exact h.length, fun p hp => hbits p (by omega)⟩
  · rw [if_neg hindex]
    exact ⟨h.length, fun p hp => h.written p (by omega)⟩

/-- **Spec lemma** of `write_long_map`. -/
theorem writeLongMap_spec {allocates : Bool} {bitmap : List ℕ}
    (h : writeLongMap allocates stackmap.toArray = some bitmap) : 3 ≤ bitmap.length ∧
      ∀ p < stackmap.slots, streamBit 16 bitmap (3 * 16 + p) = stackmap.isReference p := by
  have hmax : arrayMax stackmap.locals.length stackmap.stack.length = arrayMax stackmap.slots 0 := rfl
  rw [writeLongMap, stackmap.toArray_getD_one] at h
  simp only [stackmap.toArray_getD_stackHeight, hmax, Option.map_eq_some_iff] at h
  obtain ⟨zeros, hzeros, rfl⟩ := h
  rw [newShortArray] at hzeros
  split_ifs at hzeros
  rw [← Option.some.inj hzeros]
  have hroom : stackmap.slots ≤ 16 * (arrayMax stackmap.slots 0 - 3) := by
    unfold arrayMax bitsPerLongmapEntry
    omega
  have hstart : LongWritten stackmap.isReference (arrayMax stackmap.slots 0) 0
      ⟨List.replicate (arrayMax stackmap.slots 0) 0, 3, 0, 1⟩ := {
    length := List.length_replicate
    index := rfl
    bit := rfl
    pending := Collects.zero _
    written := fun p hp => absurd hp (Nat.not_lt_zero p) }
  have hlocals : ∀ k < stackmap.locals.length,
      convertToStackmaptag (stackmap.toArray.getD (2 + k) 0) = .obj ↔
        stackmap.isReference (0 + k) = true := by
    intro k hk
    rw [add_comm 2, zero_add]
    exact stackmap.toArray_getD_local hk
  have hafter := hstart.run (by unfold VerifierStackmap.slots at hroom ⊢; omega) hlocals
  rw [zero_add] at hafter
  have hstack : ∀ k < stackmap.stack.length,
      convertToStackmaptag (stackmap.toArray.getD (stackmap.locals.length + 3 + k) 0) = .obj ↔
        stackmap.isReference (stackmap.locals.length + k) = true :=
    fun k hk => stackmap.toArray_getD_stack hk
  have hend := hafter.run hroom hstack
  obtain ⟨hlength, hbits⟩ := hend.flush_spec rfl
  refine ⟨?_, hbits⟩
  rw [hlength]
  exact Nat.le_add_left 3 _

theorem writeLongMap_isSome (base : List ℕ) : ∃ bitmap, writeLongMap true base = some bitmap :=
  ⟨_, rfl⟩

end Long

/-! ## Reading -/

/-- The bytes of the gc stackmap. -/
abbrev GcStackmap := ℕ → ℕ

/-- What the readers store for a bit. -/
def itemOf (reference : Bool) : ℕ :=
  if reference then VerifierType.object.code else VerifierType.integer.code

/-- `StackmapGenerator::read_bitmap_internal`
(StackmapGenerator.cpp:144-163), with the bits that are left. -/
def readBitmapInternal (bmpBits : ℕ) (gcStackmap : GcStackmap) (arrayIndex : ℕ) :
    (bitsCount : ℕ) → ℕ × GcStackmap
  | 0 => (bmpBits, gcStackmap)
  | bitsCount + 1 =>
    readBitmapInternal (bmpBits >>> 1)
      (Function.update gcStackmap arrayIndex (itemOf (bmpBits &&& 0x1 != 0))) (arrayIndex + 1)
      bitsCount

/-- The loops that complete the list of locals
(StackmapGenerator.cpp:179-181, 231-233). -/
def completeLocals (gcStackmap : GcStackmap) (stackmapIndex : ℕ) : (count : ℕ) → GcStackmap
  | 0 => gcStackmap
  | count + 1 =>
    completeLocals (Function.update gcStackmap stackmapIndex VerifierType.bogus.code)
      (stackmapIndex + 1) count

/-- `StackmapGenerator::read_short_map` (StackmapGenerator.cpp:166-187). -/
def readShortMap (e : MapEntry) (maxLocals : ℕ) (gcStackmap : GcStackmap) : GcStackmap :=
  let locals := e.getLocals
  let afterLocals := readBitmapInternal e.getShortMap gcStackmap 0 locals
  let completed := completeLocals afterLocals.2 locals (maxLocals - locals)
  (readBitmapInternal afterLocals.1 completed maxLocals e.getStackHeight).2

/-- The locals of `read_long_map`. -/
structure LongReader where
  bitmapIndex : ℕ
  stackmapIndex : ℕ
  bmpBits : ℕ
  gcStackmap : GcStackmap

/-- `bmp_bits = bitmap_base[bitmap_index++]`, and `count` bits of it are read. -/
def readLongEntry (base : List ℕ) (count : ℕ) (r : LongReader) : LongReader :=
  let read := readBitmapInternal (base.getD r.bitmapIndex 0) r.gcStackmap r.stackmapIndex count
  ⟨r.bitmapIndex + 1, r.stackmapIndex + count, read.1, read.2⟩

/-- The loops over `full_entries`
(StackmapGenerator.cpp:215-219, 246-250). -/
def readFullEntries (base : List ℕ) : (fullEntries : ℕ) → LongReader → LongReader
  | 0, r => r
  | fullEntries + 1, r =>
    readFullEntries base fullEntries (readLongEntry base bitsPerLongmapEntry r)

/-- The full entries of `count` bits and then the `spillovers`
(StackmapGenerator.cpp:213-227, 244-258). -/
def readEntries (base : List ℕ) (count : ℕ) (r : LongReader) : LongReader :=
  let full := readFullEntries base (count / bitsPerLongmapEntry) r
  if count % bitsPerLongmapEntry > 0 then readLongEntry base (count % bitsPerLongmapEntry) full
  else full

/-- `bits_left_after_locals`. -/
def bitsLeftAfterLocals (locals : ℕ) : ℕ :=
  if locals % bitsPerLongmapEntry > 0 then bitsPerLongmapEntry - locals % bitsPerLongmapEntry else 0

/-- The stack of `read_long_map` (StackmapGenerator.cpp:236-259). -/
def readLongStack (base : List ℕ) (locals stack : ℕ) (r : LongReader) : LongReader :=
  if bitsLeftAfterLocals locals > 0 then
    let readCount :=
      if bitsLeftAfterLocals locals > stack then stack else bitsLeftAfterLocals locals
    let read := readBitmapInternal r.bmpBits r.gcStackmap r.stackmapIndex readCount
    readEntries base (stack - readCount)
      ⟨r.bitmapIndex, r.stackmapIndex + readCount, read.1, read.2⟩
  else readEntries base stack r

/-- `StackmapGenerator::read_long_map` (StackmapGenerator.cpp:190-262). -/
def readLongMap (e : MapEntry) (maxLocals : ℕ) (gcStackmap : GcStackmap) : GcStackmap :=
  let base := e.getLongMap
  let locals := e.getLocals
  let stack := e.getStackHeight
  let start : LongReader := ⟨3, 0, 0, gcStackmap⟩
  let afterLocals := if locals > 0 then readEntries base locals start else start
  let completed := completeLocals afterLocals.gcStackmap afterLocals.stackmapIndex (maxLocals - locals)
  let beforeStack : LongReader := ⟨afterLocals.bitmapIndex,
    afterLocals.stackmapIndex + (maxLocals - locals), afterLocals.bmpBits, completed⟩
  (if stack > 0 then readLongStack base locals stack beforeStack else beforeStack).gcStackmap

/-- How `generate_stackmap` reads an entry
(StackmapGenerator.cpp:559-567). -/
def readMap (e : MapEntry) (maxLocals : ℕ) (gcStackmap : GcStackmap) : GcStackmap :=
  if e.isShortMap then readShortMap e maxLocals gcStackmap else readLongMap e maxLocals gcStackmap

/-! ### What the readers leave behind -/

/-- `count` bytes from `index` on are those of `f`. -/
def fill (gcStackmap : GcStackmap) (index count : ℕ) (f : ℕ → ℕ) : GcStackmap := fun slot =>
  if index ≤ slot ∧ slot < index + count then f (slot - index) else gcStackmap slot

section Fill

variable {gcStackmap : GcStackmap} {index count : ℕ} {f g : ℕ → ℕ}

@[simp] theorem fill_zero : fill gcStackmap index 0 f = gcStackmap := by
  funext slot
  rw [fill, if_neg (by omega)]

theorem fill_congr (h : ∀ k < count, f k = g k) :
    fill gcStackmap index count f = fill gcStackmap index count g := by
  funext slot
  rw [fill, fill]
  split_ifs with hslot
  · exact h _ (by omega)
  · rfl

theorem fill_fill (more : ℕ) :
    fill (fill gcStackmap index count f) (index + count) more (fun k => f (count + k)) =
      fill gcStackmap index (count + more) f := by
  funext slot
  simp only [fill]
  by_cases hfirst : index ≤ slot ∧ slot < index + count
  · rw [if_neg (by omega), if_pos hfirst, if_pos (by omega)]
  · rw [if_neg hfirst]
    by_cases hsecond : index + count ≤ slot ∧ slot < index + count + more
    · rw [if_pos hsecond, if_pos (by omega), show count + (slot - (index + count)) = slot - index
        by omega]
    · rw [if_neg hsecond, if_neg (by omega)]

theorem fill_update (value : ℕ) (hvalue : f 0 = value) :
    fill (Function.update gcStackmap index value) (index + 1) count (fun k => f (1 + k)) =
      fill gcStackmap index (count + 1) f := by
  have hupdate : Function.update gcStackmap index value = fill gcStackmap index 1 f := by
    funext slot
    rw [Function.update_apply, fill]
    by_cases hslot : slot = index
    · rw [if_pos hslot, if_pos (by omega), hslot, Nat.sub_self, hvalue]
    · rw [if_neg hslot, if_neg (by omega)]
  rw [hupdate, fill_fill, add_comm 1]

end Fill

section Readers

variable {gcStackmap : GcStackmap} {base : List ℕ}

theorem readBitmapInternal_eq (bmpBits : ℕ) (gcStackmap : GcStackmap) (arrayIndex bitsCount : ℕ) :
    readBitmapInternal bmpBits gcStackmap arrayIndex bitsCount = (bmpBits >>> bitsCount,
        fill gcStackmap arrayIndex bitsCount fun k => itemOf (bmpBits.testBit k)) := by
  induction bitsCount generalizing bmpBits gcStackmap arrayIndex with
  | zero => rw [readBitmapInternal, fill_zero, Nat.shiftRight_zero]
  | succ bitsCount ih =>
    have hbit : (bmpBits &&& 0x1 != 0) = bmpBits.testBit 0 := by
      rw [Nat.testBit_zero, Nat.and_one_is_mod]
      rcases Nat.mod_two_eq_zero_or_one bmpBits with h | h <;> rw [h] <;> rfl
    have hrest : (fun k => itemOf ((bmpBits >>> 1).testBit k)) =
        fun k => itemOf (bmpBits.testBit (1 + k)) := by
      funext k
      rw [Nat.testBit_shiftRight]
    have hfill := @fill_update gcStackmap arrayIndex bitsCount (fun k => itemOf (bmpBits.testBit k))
      (itemOf (bmpBits &&& 0x1 != 0)) (by rw [hbit])
    rw [readBitmapInternal, ih, hrest, hfill, ← Nat.shiftRight_add, add_comm 1]

theorem completeLocals_eq (gcStackmap : GcStackmap) (stackmapIndex count : ℕ) :
    completeLocals gcStackmap stackmapIndex count =
      fill gcStackmap stackmapIndex count fun _ => VerifierType.bogus.code := by
  induction count generalizing gcStackmap stackmapIndex with
  | zero => rw [completeLocals, fill_zero]
  | succ count ih =>
    rw [completeLocals, ih]
    exact @fill_update gcStackmap stackmapIndex count (fun _ => VerifierType.bogus.code) _ rfl

/-- What a stackmap of given sizes and bits is read as. -/
def expansion (locals stack maxLocals : ℕ) (reference : ℕ → Bool) (gcStackmap : GcStackmap) :
    GcStackmap :=
  fill (fill (fill gcStackmap 0 locals fun p => itemOf (reference p)) locals (maxLocals - locals)
    fun _ => VerifierType.bogus.code) maxLocals stack fun q => itemOf (reference (locals + q))

theorem expansion_congr {locals stack maxLocals : ℕ} {f g : ℕ → Bool}
    (h : ∀ p < locals + stack, f p = g p) :
    expansion locals stack maxLocals f gcStackmap = expansion locals stack maxLocals g gcStackmap := by
  have hlocals := @fill_congr gcStackmap 0 locals (fun p => itemOf (f p)) (fun p => itemOf (g p))
    fun k hk => congrArg itemOf (h k (by omega))
  rw [expansion, expansion, hlocals]
  exact fill_congr fun k hk => congrArg itemOf (h (locals + k) (by omega))

theorem readShortMap_eq (e : MapEntry) (maxLocals : ℕ) (gcStackmap : GcStackmap) :
    readShortMap e maxLocals gcStackmap =
      expansion e.getLocals e.getStackHeight maxLocals e.getShortMap.testBit gcStackmap := by
  have hshift : (fun k => itemOf ((e.getShortMap >>> e.getLocals).testBit k)) =
      fun k => itemOf (e.getShortMap.testBit (e.getLocals + k)) := by
    funext k
    rw [Nat.testBit_shiftRight]
  simp only [readShortMap, readBitmapInternal_eq, completeLocals_eq, hshift]
  rfl

/-- The bits of the map of a long map. -/
def longBit (base : List ℕ) (p : ℕ) : Bool := streamBit 16 base (3 * 16 + p)

theorem longBit_eq {a : ℕ} (hi : i < 16) :
    longBit base (16 * a + i) = (base.getD (3 + a) 0).testBit i := by
  rw [longBit, show 3 * 16 + (16 * a + i) = 16 * (3 + a) + i by omega, streamBit_mul_add hi]

theorem readLongEntry_eq {r : LongReader} {a count : ℕ} (hindex : r.bitmapIndex = 3 + a)
    (hcount : count ≤ 16) : readLongEntry base count r = ⟨3 + (a + 1), r.stackmapIndex + count,
      base.getD (3 + a) 0 >>> count,
      fill r.gcStackmap r.stackmapIndex count fun k => itemOf (longBit base (16 * a + k))⟩ := by
  have hbits := @fill_congr r.gcStackmap r.stackmapIndex count
    (fun k => itemOf ((base.getD (3 + a) 0).testBit k))
    (fun k => itemOf (longBit base (16 * a + k)))
    fun k hk => congrArg itemOf (longBit_eq (by omega)).symm
  rw [readLongEntry, hindex, readBitmapInternal_eq, hbits, add_assoc]

/-- **Run lemma** of the loop over full entries. -/
theorem readFullEntries_eq {r : LongReader} {a fullEntries : ℕ} (hindex : r.bitmapIndex = 3 + a) :
    (readFullEntries base fullEntries r).bitmapIndex = 3 + (a + fullEntries) ∧
    (readFullEntries base fullEntries r).stackmapIndex = r.stackmapIndex + 16 * fullEntries ∧
    (readFullEntries base fullEntries r).gcStackmap =
      fill r.gcStackmap r.stackmapIndex (16 * fullEntries)
        fun k => itemOf (longBit base (16 * a + k)) := by
  induction fullEntries generalizing r a with
  | zero => exact ⟨hindex, rfl, fill_zero.symm⟩
  | succ fullEntries ih =>
    have hentry := @readLongEntry_eq base r a bitsPerLongmapEntry hindex le_rfl
    rw [readFullEntries, hentry]
    obtain ⟨hnext, hslot, hfill⟩ := @ih ⟨3 + (a + 1), r.stackmapIndex + bitsPerLongmapEntry,
      base.getD (3 + a) 0 >>> bitsPerLongmapEntry,
      fill r.gcStackmap r.stackmapIndex bitsPerLongmapEntry
        fun k => itemOf (longBit base (16 * a + k))⟩ (a + 1) rfl
    have hshift : (fun k => itemOf (longBit base (16 * (a + 1) + k))) =
        fun k => itemOf (longBit base (16 * a + (16 + k))) := by
      funext k
      rw [show 16 * (a + 1) + k = 16 * a + (16 + k) by omega]
    refine ⟨hnext.trans (by omega), hslot.trans ?_, hfill.trans ?_⟩
    · show r.stackmapIndex + 16 + 16 * fullEntries = r.stackmapIndex + 16 * (fullEntries + 1)
      omega
    · rw [hshift, show 16 * (fullEntries + 1) = 16 + 16 * fullEntries by omega]
      exact @fill_fill r.gcStackmap r.stackmapIndex 16
        (fun k => itemOf (longBit base (16 * a + k))) (16 * fullEntries)

/-- **Spec lemma** of the full entries and the spillovers: `count` bits are read, and the unread
bits of the last entry are left. -/
theorem readEntries_eq {r : LongReader} {a count : ℕ} (hindex : r.bitmapIndex = 3 + a) :
    (readEntries base count r).bitmapIndex = 3 + (a + (count + 15) / 16) ∧
    (readEntries base count r).stackmapIndex = r.stackmapIndex + count ∧
    (readEntries base count r).gcStackmap =
      fill r.gcStackmap r.stackmapIndex count (fun k => itemOf (longBit base (16 * a + k))) ∧
    (0 < count % 16 → (readEntries base count r).bmpBits =
      base.getD (3 + (a + count / 16)) 0 >>> (count % 16)) := by
  obtain ⟨hfullIndex, hfullSlot, hfullFill⟩ :=
    @readFullEntries_eq base r a (count / bitsPerLongmapEntry) hindex
  rw [readEntries]
  by_cases hspill : 0 < count % bitsPerLongmapEntry
  · have hmod : count % bitsPerLongmapEntry < 16 := Nat.mod_lt count (by decide)
    have hshift : (fun k => itemOf (longBit base (16 * (a + count / bitsPerLongmapEntry) + k))) =
        fun k => itemOf (longBit base (16 * a + (16 * (count / bitsPerLongmapEntry) + k))) := by
      funext k
      rw [mul_add, add_assoc]
    have hsplit : 16 * (count / bitsPerLongmapEntry) + count % bitsPerLongmapEntry = count :=
      Nat.div_add_mod count 16
    rw [if_pos hspill, readLongEntry_eq hfullIndex hmod.le, hfullSlot, hfullFill, hshift]
    refine ⟨?_, ?_, ?_, fun _ => rfl⟩
    · unfold bitsPerLongmapEntry at hspill ⊢
      show 3 + (a + count / 16 + 1) = 3 + (a + (count + 15) / 16)
      omega
    · exact (add_assoc _ _ _).trans (congrArg (r.stackmapIndex + ·) hsplit)
    · refine (@fill_fill r.gcStackmap r.stackmapIndex _
        (fun k => itemOf (longBit base (16 * a + k))) _).trans ?_
      rw [hsplit]
  · have hzero : count % 16 = 0 := Nat.eq_zero_of_not_pos hspill
    have hsplit : 16 * (count / bitsPerLongmapEntry) = count := by
      unfold bitsPerLongmapEntry
      omega
    rw [if_neg hspill, hfullIndex, hfullSlot, hfullFill, hsplit]
    refine ⟨?_, rfl, rfl, fun hpos => absurd hpos (by omega)⟩
    unfold bitsPerLongmapEntry
    omega

/-- **Spec lemma** of the stack: first the bits that the locals left in their last entry, then the
entries after it. -/
theorem readLongStack_eq {r : LongReader} {locals stack : ℕ}
    (hindex : r.bitmapIndex = 3 + (locals + 15) / 16)
    (hbits : 0 < locals % 16 → r.bmpBits = base.getD (3 + locals / 16) 0 >>> (locals % 16)) :
    (readLongStack base locals stack r).gcStackmap =
      fill r.gcStackmap r.stackmapIndex stack fun q => itemOf (longBit base (locals + q)) := by
  by_cases hspill : 0 < locals % 16
  · have hleft : bitsLeftAfterLocals locals = 16 - locals % 16 := if_pos hspill
    have hpos : bitsLeftAfterLocals locals > 0 := by omega
    rw [readLongStack, if_pos hpos, hleft, hbits hspill]
    obtain ⟨readCount, hread⟩ : ∃ readCount,
        (if 16 - locals % 16 > stack then stack else 16 - locals % 16) = readCount := ⟨_, rfl⟩
    simp only [hread, readBitmapInternal_eq]
    have hcount : readCount ≤ stack ∧ readCount ≤ 16 - locals % 16 ∧
        (readCount = stack ∨ readCount = 16 - locals % 16) := by
      split_ifs at hread <;> omega
    obtain ⟨hstack, hroom, hcase⟩ := hcount
    -- the bits that are left are those of the first stack slots
    have hfirst := @fill_congr r.gcStackmap r.stackmapIndex readCount
      (fun k => itemOf ((base.getD (3 + locals / 16) 0 >>> (locals % 16)).testBit k))
      (fun k => itemOf (longBit base (locals + k))) (by
        intro k hk
        have hposition : locals + k = 16 * (locals / 16) + (locals % 16 + k) := by omega
        rw [Nat.testBit_shiftRight, hposition, longBit_eq (by omega)])
    obtain ⟨-, -, hrest, -⟩ := @readEntries_eq base ⟨r.bitmapIndex, r.stackmapIndex + readCount,
        base.getD (3 + locals / 16) 0 >>> (locals % 16) >>> readCount,
        fill r.gcStackmap r.stackmapIndex readCount
          fun k => itemOf (longBit base (locals + k))⟩ ((locals + 15) / 16) (stack - readCount) hindex
    have hsecond := @fill_congr
      (fill r.gcStackmap r.stackmapIndex readCount fun k => itemOf (longBit base (locals + k)))
      (r.stackmapIndex + readCount) (stack - readCount)
      (fun k => itemOf (longBit base (16 * ((locals + 15) / 16) + k)))
      (fun k => itemOf (longBit base (locals + (readCount + k)))) (by
        intro k hk
        have hposition : 16 * ((locals + 15) / 16) + k = locals + (readCount + k) := by omega
        rw [hposition])
    rw [hfirst, hrest, hsecond]
    refine (@fill_fill r.gcStackmap r.stackmapIndex readCount
      (fun q => itemOf (longBit base (locals + q))) (stack - readCount)).trans ?_
    rw [Nat.add_sub_cancel' hstack]
  · have hleft : bitsLeftAfterLocals locals = 0 := if_neg hspill
    have haligned : 16 * ((locals + 15) / 16) = locals := by omega
    obtain ⟨-, -, hrest, -⟩ := @readEntries_eq base r ((locals + 15) / 16) stack hindex
    rw [readLongStack, if_neg (by omega), hrest, haligned]

variable {e : MapEntry}

theorem readLongMap_eq {maxLocals : ℕ} (hmax : e.getLocals ≤ maxLocals) (gcStackmap : GcStackmap) :
    readLongMap e maxLocals gcStackmap =
      expansion e.getLocals e.getStackHeight maxLocals (longBit e.getLongMap) gcStackmap := by
  obtain ⟨afterLocals, hafter⟩ : ∃ afterLocals,
      (if e.getLocals > 0 then readEntries e.getLongMap e.getLocals ⟨3, 0, 0, gcStackmap⟩
        else ⟨3, 0, 0, gcStackmap⟩) = afterLocals := ⟨_, rfl⟩
  have hspec : afterLocals.bitmapIndex = 3 + (e.getLocals + 15) / 16 ∧
      afterLocals.stackmapIndex = e.getLocals ∧
      afterLocals.gcStackmap =
        fill gcStackmap 0 e.getLocals (fun p => itemOf (longBit e.getLongMap p)) ∧
      (0 < e.getLocals % 16 → afterLocals.bmpBits =
        e.getLongMap.getD (3 + e.getLocals / 16) 0 >>> (e.getLocals % 16)) := by
    by_cases hpos : e.getLocals > 0
    · have hentries :=
        @readEntries_eq e.getLongMap ⟨3, 0, 0, gcStackmap⟩ 0 e.getLocals rfl
      rw [if_pos hpos] at hafter
      simp only [mul_zero, zero_add] at hentries
      rwa [hafter] at hentries
    · have hzero : e.getLocals = 0 := by omega
      rw [if_neg hpos] at hafter
      rw [← hafter, hzero, fill_zero]
      exact ⟨rfl, rfl, rfl, fun h => absurd h (by decide)⟩
  obtain ⟨hindex, hslot, hfill, hbits⟩ := hspec
  have hnext : e.getLocals + (maxLocals - e.getLocals) = maxLocals := Nat.add_sub_cancel' hmax
  simp only [readLongMap, hafter, completeLocals_eq, hfill, hslot, hnext]
  by_cases hstack : e.getStackHeight > 0
  · rw [if_pos hstack]
    exact @readLongStack_eq e.getLongMap ⟨afterLocals.bitmapIndex, maxLocals, afterLocals.bmpBits, _⟩
      e.getLocals e.getStackHeight hindex hbits
  · have hzero : e.getStackHeight = 0 := by omega
    rw [if_neg hstack, expansion, hzero, fill_zero]

theorem readMap_eq {maxLocals : ℕ} (hmax : e.getLocals ≤ maxLocals) (gcStackmap : GcStackmap) :
    readMap e maxLocals gcStackmap =
      expansion e.getLocals e.getStackHeight maxLocals e.bit gcStackmap := by
  rw [readMap]
  split_ifs with hshort
  · have hbit : e.bit = e.getShortMap.testBit := by
      funext p
      rw [MapEntry.bit, if_pos hshort]
    rw [readShortMap_eq, hbit]
  · have hbit : e.bit = longBit e.getLongMap := by
      funext p
      rw [MapEntry.bit, if_neg hshort, longBit]
    rw [readLongMap_eq hmax, hbit]

theorem readMap_of_encodes {maxLocals : ℕ}
    (h : e.Encodes stackmap) (hmax : stackmap.locals.length ≤ maxLocals) (gcStackmap : GcStackmap) :
    readMap e maxLocals gcStackmap =
      expansion stackmap.locals.length stackmap.stack.length maxLocals stackmap.isReference
        gcStackmap := by
  rw [readMap_eq (by rwa [h.locals]), h.locals, h.stackHeight]
  exact expansion_congr h.bit

end Readers

/-! ### The slots of an expansion -/

section Expansion

variable {locals stack maxLocals : ℕ} {reference : ℕ → Bool} {gcStackmap : GcStackmap}

theorem convertToStackmaptag_itemOf (reference : Bool) :
    convertToStackmaptag (itemOf reference) = .obj ↔ reference = true := by
  cases reference <;> decide

theorem expansion_local {slot : ℕ} (h : slot < locals) (hmax : locals ≤ maxLocals) :
    expansion locals stack maxLocals reference gcStackmap slot = itemOf (reference slot) := by
  simp only [expansion, fill]
  rw [if_neg (by omega), if_neg (by omega), if_pos (by omega), Nat.sub_zero]

theorem expansion_unmentioned {slot : ℕ} (h : locals ≤ slot) (hslot : slot < maxLocals) :
    expansion locals stack maxLocals reference gcStackmap slot = VerifierType.bogus.code := by
  simp only [expansion, fill]
  rw [if_neg (by omega), if_pos (by omega)]

theorem expansion_stack {q : ℕ} (h : q < stack) :
    expansion locals stack maxLocals reference gcStackmap (maxLocals + q) =
      itemOf (reference (locals + q)) := by
  simp only [expansion, fill]
  rw [if_pos (by omega), Nat.add_sub_cancel_left]

end Expansion

end CldcVm.Stackmap
