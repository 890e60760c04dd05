import CldcVm.Bytecodes.Data

/-!
# String buffers and the strings made from them

`java/lang/StringBuffer.java` and `String(StringBuffer)` (`java/lang/String.java`, line 269): arrays
of characters in memory, a buffer that writes to one of them, and strings that share it. A buffer
that has given its array away is `shared`.

`append` and `insert` of an object, a boolean or a number are those of the string that
`String.valueOf` gives.
-/

namespace CldcVm.StringBuffers

/-- `char`. -/
abbrev Jchar := BitVec 16

/-- An array, which is not longer than `0x08000000` (`Universe::generic_allocate_array`). -/
abbrev CharArray := { l : List Jchar // l.length ≤ 0x08000000 }

/-- What the memory grants in one operation: arrays of a length, and the object of a string. -/
structure Memory where
  array : ℕ → Bool
  string : Bool
  limit : ∀ n, array n = true → n ≤ 0x08000000

/-- What is thrown. -/
inductive Thrown
  | stringIndexOutOfBounds
  | indexOutOfBounds
  | negativeArraySize
  | outOfMemoryError
deriving DecidableEq

/-- How an operation ends; an unchecked copy outside of an array corrupts the memory. -/
inductive Outcome
  | done
  | thrown (e : Thrown)
  | corrupted
deriving DecidableEq

/-- `String`: its array and its length (the offset is 0). -/
structure JavaString where
  value : ℕ
  count : ℕ

/-- The arrays in memory, of which those from `fresh` on are free; the fields of the buffer; and the
strings that have been made from it. -/
structure Machine where
  arrays : ℕ → List Jchar
  fresh : ℕ
  value : ℕ
  count : ℕ
  shared : Bool
  strings : List JavaString

/-- `value`. -/
def Machine.chars (m : Machine) : List Jchar := m.arrays m.value

/-- `value.length`. -/
def Machine.capacity (m : Machine) : ℕ := m.chars.length

/-- The array of the buffer is written. -/
def Machine.setChars (m : Machine) (chars : List Jchar) : Machine :=
  { m with arrays := Function.update m.arrays m.value chars }

/-- An array is allocated and becomes that of the buffer. -/
def Machine.useNew (m : Machine) (chars : List Jchar) : Machine :=
  { m with
    arrays := Function.update m.arrays m.fresh chars
    fresh := m.fresh + 1
    value := m.fresh
    shared := false }

/-- Two steps, the second one only if the first one has been done. -/
def andThen (r : Outcome × Machine) (next : Machine → Outcome × Machine) : Outcome × Machine :=
  match r with
  | (.done, m) => next m
  | r => r

/-! ## Copies -/

/-- `len` characters of one array take the place of those of another one. -/
def blit (src : List Jchar) (srcPos : ℕ) (dst : List Jchar) (dstPos len : ℕ) : List Jchar :=
  dst.take dstPos ++ (src.drop srcPos).take len ++ dst.drop (dstPos + len)

/-- The ranges of a copy are inside the arrays. -/
def InRange (src dst : List Jchar) (srcPos dstPos len : ℤ) : Prop :=
  0 ≤ srcPos ∧ 0 ≤ dstPos ∧ 0 ≤ len ∧ srcPos + len ≤ src.length ∧ dstPos + len ≤ dst.length

instance (src dst : List Jchar) (srcPos dstPos len : ℤ) :
    Decidable (InRange src dst srcPos dstPos len) :=
  inferInstanceAs (Decidable (0 ≤ srcPos ∧ 0 ≤ dstPos ∧ 0 ≤ len ∧ srcPos + len ≤ src.length ∧
    dstPos + len ≤ dst.length))

/-- A copy into the array of the buffer, which fails outside of the arrays. -/
def Machine.copyInto (m : Machine) (failure : Outcome) (src : List Jchar) (srcPos dstPos len : ℤ) :
    Outcome × Machine :=
  if InRange src m.chars srcPos dstPos len then
    (.done, m.setChars (blit src srcPos.toNat m.chars dstPos.toNat len.toNat))
  else (failure, m)

/-- `JVM.unchecked_char_arraycopy`. -/
def Machine.uncheckedCopy (m : Machine) : List Jchar → ℤ → ℤ → ℤ → Outcome × Machine :=
  m.copyInto .corrupted

/-- `System.arraycopy`. -/
def Machine.systemCopy (m : Machine) : List Jchar → ℤ → ℤ → ℤ → Outcome × Machine :=
  m.copyInto (.thrown .indexOutOfBounds)

/-- A new array of the buffer, with the characters of the buffer. -/
def Machine.reallocate (m : Machine) (memory : Memory) (length : ℤ) : Outcome × Machine :=
  if length < 0 then (.thrown .negativeArraySize, m)
  else if ¬ memory.array length.toNat then (.thrown .outOfMemoryError, m)
  else if InRange m.chars (List.replicate length.toNat 0) 0 0 m.count then
    (.done, m.useNew (blit m.chars 0 (List.replicate length.toNat 0) 0 m.count))
  else (.corrupted, m)

/-- `copy`. -/
def Machine.copy (m : Machine) (memory : Memory) : Outcome × Machine :=
  m.reallocate memory m.capacity

/-- `if (shared) copy()`. -/
def Machine.unshare (m : Machine) (memory : Memory) : Outcome × Machine :=
  if m.shared then m.copy memory else (.done, m)

/-- `expandCapacity`. -/
def Machine.expandCapacity (m : Machine) (memory : Memory) (minimumCapacity : ℤ) :
    Outcome × Machine :=
  let newCapacity := jint (jint (m.capacity + 1) * 2)
  m.reallocate memory
    (if newCapacity < 0 then 2 ^ 31 - 1
      else if minimumCapacity > newCapacity then minimumCapacity
      else newCapacity)

/-- `if (newcount > value.length) expandCapacity(newcount)`. -/
def Machine.reserve (m : Machine) (memory : Memory) (newcount : ℤ) : Outcome × Machine :=
  if newcount > m.capacity then m.expandCapacity memory newcount else (.done, m)

/-- `reserve`, else `if (shared) copy()`. -/
def Machine.reserveOwn (m : Machine) (memory : Memory) (newcount : ℤ) : Outcome × Machine :=
  if newcount > m.capacity then m.expandCapacity memory newcount else m.unshare memory

/-- `count = newcount`. -/
def Machine.setCount (m : Machine) (newcount : ℤ) : Outcome × Machine :=
  (.done, { m with count := newcount.toNat })

/-! ## Operations -/

/-- A string that is given to `append` or `insert`: a string that shares no array with the buffer,
or one that has been made from it. A string that is not there is null. -/
inductive Str
  | literal (chars : CharArray)
  | obtained (i : ℕ)

/-- The characters of `null`. -/
def nullChars : CharArray := ⟨[110, 117, 108, 108], by decide⟩

/-- The characters of a string as they are now. -/
def Machine.charsOf (m : Machine) (s : JavaString) : List Jchar := (m.arrays s.value).take s.count

/-- The characters that `getChars` finds. -/
def Machine.resolve (m : Machine) : Str → List Jchar
  | .literal chars => chars.1
  | .obtained i =>
    match m.strings[i]? with
    | some s => m.charsOf s
    | none => nullChars.1

/-- The methods of a buffer. -/
inductive Op
  | appendString (str : Str)
  | appendChars (str : CharArray)
  | appendRange (str : CharArray) (offset len : ℤ)
  | appendChar (c : Jchar)
  | insertString (offset : ℤ) (str : Str)
  | insertChars (offset : ℤ) (str : CharArray)
  | insertChar (offset : ℤ) (c : Jchar)
  | delete (start stop : ℤ)
  | deleteCharAt (index : ℤ)
  | setCharAt (index : ℤ) (ch : Jchar)
  | setLength (newLength : ℤ)
  | reverse
  | ensureCapacity (minimumCapacity : ℤ)
  | toString

/-- `append(String)`. -/
def Machine.appendString (m : Machine) (memory : Memory) (str : Str) : Outcome × Machine :=
  let len : ℤ := (m.resolve str).length
  let newcount := jint (m.count + len)
  andThen (m.reserve memory newcount) fun m =>
    andThen (m.systemCopy (m.resolve str) 0 m.count len) fun m => m.setCount newcount

/-- `append(char[])`. -/
def Machine.appendChars (m : Machine) (memory : Memory) (str : List Jchar) : Outcome × Machine :=
  let newcount := jint (m.count + str.length)
  andThen (m.reserve memory newcount) fun m =>
    andThen (m.uncheckedCopy str 0 m.count str.length) fun m => m.setCount newcount

/-- `append(char[], int, int)`. -/
def Machine.appendRange (m : Machine) (memory : Memory) (str : List Jchar) (offset len : ℤ) :
    Outcome × Machine :=
  let newcount := jint (m.count + len)
  andThen (m.reserve memory newcount) fun m =>
    andThen (m.systemCopy str offset m.count len) fun m => m.setCount newcount

/-- `append(char)`. -/
def Machine.appendChar (m : Machine) (memory : Memory) (c : Jchar) : Outcome × Machine :=
  let newcount := jint (m.count + 1)
  andThen (m.reserve memory newcount) fun m =>
    (.done, { m.setChars (m.chars.set m.count c) with count := m.count + 1 })

/-- `insert(int, String)`. -/
def Machine.insertString (m : Machine) (memory : Memory) (offset : ℤ) (str : Str) :
    Outcome × Machine :=
  if offset < 0 ∨ offset > m.count then (.thrown .stringIndexOutOfBounds, m)
  else
    let len : ℤ := (m.resolve str).length
    let newcount := jint (m.count + len)
    andThen (m.reserveOwn memory newcount) fun m =>
      andThen (m.uncheckedCopy m.chars offset (offset + len) (m.count - offset)) fun m =>
        andThen (m.systemCopy (m.resolve str) 0 offset len) fun m => m.setCount newcount

/-- `insert(int, char[])`. -/
def Machine.insertChars (m : Machine) (memory : Memory) (offset : ℤ) (str : List Jchar) :
    Outcome × Machine :=
  if offset < 0 ∨ offset > m.count then (.thrown .stringIndexOutOfBounds, m)
  else
    let newcount := jint (m.count + str.length)
    andThen (m.reserveOwn memory newcount) fun m =>
      andThen (m.uncheckedCopy m.chars offset (offset + str.length) (m.count - offset)) fun m =>
        andThen (m.uncheckedCopy str 0 offset str.length) fun m => m.setCount newcount

/-- `insert(int, char)`: the copy checks the offset. -/
def Machine.insertChar (m : Machine) (memory : Memory) (offset : ℤ) (c : Jchar) :
    Outcome × Machine :=
  let newcount := jint (m.count + 1)
  andThen (m.reserveOwn memory newcount) fun m =>
    andThen (m.systemCopy m.chars offset (jint (offset + 1)) (jint (m.count - offset))) fun m =>
      andThen (.done, m.setChars (m.chars.set offset.toNat c)) fun m => m.setCount newcount

/-- `delete`. -/
def Machine.delete (m : Machine) (memory : Memory) (start stop : ℤ) : Outcome × Machine :=
  if start < 0 then (.thrown .stringIndexOutOfBounds, m)
  else
    let stop := if stop > m.count then (m.count : ℤ) else stop
    if start > stop then (.thrown .stringIndexOutOfBounds, m)
    else
      let len := stop - start
      if len > 0 then
        andThen (m.unshare memory) fun m =>
          andThen (m.uncheckedCopy m.chars (start + len) start (m.count - stop)) fun m =>
            m.setCount (m.count - len)
      else (.done, m)

/-- `deleteCharAt`. -/
def Machine.deleteCharAt (m : Machine) (memory : Memory) (index : ℤ) : Outcome × Machine :=
  if index < 0 ∨ index ≥ m.count then (.thrown .stringIndexOutOfBounds, m)
  else
    andThen (m.unshare memory) fun m =>
      andThen (m.uncheckedCopy m.chars (index + 1) index (m.count - index - 1)) fun m =>
        m.setCount (m.count - 1)

/-- `setCharAt`. -/
def Machine.setCharAt (m : Machine) (memory : Memory) (index : ℤ) (ch : Jchar) :
    Outcome × Machine :=
  if index < 0 ∨ index ≥ m.count then (.thrown .stringIndexOutOfBounds, m)
  else andThen (m.unshare memory) fun m => (.done, m.setChars (m.chars.set index.toNat ch))

/-- The loop of `setLength`: zeros up to the new length. -/
def fillZeros : (k : ℕ) → (count : ℕ) → List Jchar → List Jchar
  | 0, _, chars => chars
  | k + 1, count, chars => fillZeros k (count + 1) (chars.set count 0)

/-- `setLength`. -/
def Machine.setLength (m : Machine) (memory : Memory) (newLength : ℤ) : Outcome × Machine :=
  if newLength < 0 then (.thrown .stringIndexOutOfBounds, m)
  else
    andThen (m.reserve memory newLength) fun m =>
      if m.count < newLength then
        andThen (m.unshare memory) fun m =>
          (.done, { m.setChars (fillZeros (newLength.toNat - m.count) m.count m.chars) with
            count := newLength.toNat })
      else
        let m := { m with count := newLength.toNat }
        if m.shared then
          if newLength > 0 then m.copy memory
          else if memory.array 16 then (.done, m.useNew (List.replicate 16 0))
          else (.thrown .outOfMemoryError, m)
        else (.done, m)

/-- The loop of `reverse`, from position `j - 1` down. -/
def swapFrom (n : ℕ) : (j : ℕ) → List Jchar → List Jchar
  | 0, chars => chars
  | j + 1, chars =>
    let temp := chars.getD j 0
    swapFrom n j ((chars.set j (chars.getD (n - j) 0)).set (n - j) temp)

/-- `reverse`: `j` starts at `(n - 1) >> 1`. -/
def Machine.reverse (m : Machine) (memory : Memory) : Outcome × Machine :=
  andThen (m.unshare memory) fun m =>
    (.done, m.setChars (swapFrom (m.count - 1) (m.count / 2) m.chars))

/-- `ensureCapacity`. -/
def Machine.ensureCapacity (m : Machine) (memory : Memory) (minimumCapacity : ℤ) :
    Outcome × Machine :=
  m.reserve memory minimumCapacity

/-- `toString`: `new String(this)`. -/
def Machine.makeString (m : Machine) (memory : Memory) : Outcome × Machine :=
  if memory.string then
    (.done, { m with
      shared := true
      strings := m.strings ++ [⟨m.value, m.count⟩] })
  else (.thrown .outOfMemoryError, m)

/-- A method is called. -/
def Machine.execute (m : Machine) (memory : Memory) : Op → Outcome × Machine
  | .appendString str => m.appendString memory str
  | .appendChars str => m.appendChars memory str.1
  | .appendRange str offset len => m.appendRange memory str.1 offset len
  | .appendChar c => m.appendChar memory c
  | .insertString offset str => m.insertString memory offset str
  | .insertChars offset str => m.insertChars memory offset str.1
  | .insertChar offset c => m.insertChar memory offset c
  | .delete start stop => m.delete memory start stop
  | .deleteCharAt index => m.deleteCharAt memory index
  | .setCharAt index ch => m.setCharAt memory index ch
  | .setLength newLength => m.setLength memory newLength
  | .reverse => m.reverse memory
  | .ensureCapacity minimumCapacity => m.ensureCapacity memory minimumCapacity
  | .toString => m.makeString memory

/-- `StringBuffer(int)`: a buffer in a memory with other arrays. -/
def Machine.new (memory : Memory) (length : ℤ) : Except Thrown Machine :=
  if length < 0 then .error .negativeArraySize
  else if memory.array length.toNat then
    .ok ⟨fun _ => List.replicate length.toNat 0, 1, 0, 0, false, []⟩
  else .error .outOfMemoryError

end CldcVm.StringBuffers
