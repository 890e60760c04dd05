import CldcVm.Lib.Words

/-!
# The private memory pool

Models of `JVM_InitializeMemory`, `jvmMallocImpl`, `jvmCallocImpl`, `jvmReallocImpl` and
`jvmFreeImpl` (`vm/os/utilities/JVM_Malloc.cpp`, lines 308–870), without `REPORT_LEVEL`:
a header has 8 bytes, and there are no head guards.

Pointers are natural numbers and NULL is 0. The pool lies in an address space that it
does not wrap around; `unsigned int` has 32 bits. The loops take fuel, and the models
return `none` without it. What is only printed is left out.
-/

namespace CldcVm.Malloc

open Lib

/-- `sizeof(_JvmMemHdr)`. -/
def headerSize : ℕ := 8

/-- `MAGIC`. -/
def magicNumber : ℕ := 0xCAFE

/-- Counting up to the next multiple of four, as `(x & ALIGNMENT) != 0` does. -/
def alignUp (n : ℕ) : ℕ := n + (4 - n % 4) % 4

/-- `jvm_tag_malloc` and `jvm_trash_malloc`. -/
structure Config where
  tag : Bool
  trash : Bool
deriving DecidableEq, Repr

/-- `guardSize`. -/
def Config.guardSize (c : Config) : ℕ := if c.tag then 4 else 0

/-- The chunk of memory that `JVM_InitializeMemory` gets: there is room for a header. -/
structure Pool where
  memory : ℕ
  size : ℕ
  size_lt : size < 2 ^ 31
  room : alignUp memory + headerSize ≤ memory + size

namespace Pool

variable (pool : Pool)

/-- `JvmMemoryStart`. -/
def start : ℕ := alignUp pool.memory

/-- `JvmMemoryEnd`: the last place for a header. -/
def last : ℕ := pool.memory + pool.size - headerSize

/-- The end of the chunk. -/
def limit : ℕ := pool.memory + pool.size

end Pool

/-! ## Headers -/

/-- `magic`. -/
def magicAt (m : Memory) (p : ℕ) : ℕ := readWord m 2 p

/-- `free`. -/
def freeAt (m : Memory) (p : ℕ) : Byte := m (p + 2)

/-- `size`. -/
def sizeAt (m : Memory) (p : ℕ) : ℕ := readWord m 4 (p + 4)

/-- Where the header of the next block is. -/
def nextAt (m : Memory) (p : ℕ) : ℕ := p + (sizeAt m p + headerSize)

def setMagic (m : Memory) (p : ℕ) : Memory := writeWord m 2 p magicNumber

def setFree (m : Memory) (p : ℕ) (free : Byte) : Memory := Function.update m (p + 2) free

def setSize (m : Memory) (p size : ℕ) : Memory := writeWord m 4 (p + 4) size

/-- `JVM_InitializeMemory`: one free block. -/
def initializeMemory (pool : Pool) (m : Memory) : Memory :=
  setSize (setFree (setMagic m pool.start) pool.start 1) pool.start
    (pool.limit - pool.start - headerSize)

/-! ## Allocation -/

section

variable (c : Config) (pool : Pool)

/-- The coalescing of a free block with the free blocks after it. -/
def coalesce : (fuel : ℕ) → Memory → (p : ℕ) → Option Memory
  | 0, _, _ => none
  | fuel + 1, m, p =>
    if freeAt m p = 1 then
      if nextAt m p < pool.last ∧ freeAt m (nextAt m p) = 1 ∧
          magicAt m (nextAt m p) = magicNumber then
        coalesce fuel (setSize m p (sizeAt m p + (sizeAt m (nextAt m p) + headerSize))) p
      else some m
    else some m

/-- `nextHdr`: what is left of a block becomes a block of its own. -/
def splitBlock (m : Memory) (p num : ℕ) : Memory :=
  let next := p + num + headerSize
  setSize (setSize (setFree (setMagic m next) next 1) next (sizeAt m p - num - headerSize)) p num

/-- The tail guard. -/
def tagBlock (m : Memory) (p : ℕ) : Memory :=
  write m (p + headerSize + sizeAt m p - 4) [0x01, 0xcd, 0x02, 0xef]

/-- The block is used from now on; `size` is the number of bytes for the caller. -/
def useBlock (m : Memory) (p size : ℕ) : Memory :=
  let m := setFree m p 0
  let m := if c.tag then tagBlock m p else m
  if c.trash then memset m (p + headerSize) 0xab size else m

/-- The allocation of a free block that is large enough. -/
def allocateBlock (m : Memory) (p num size : ℕ) : Memory :=
  if num + headerSize + 4 < sizeAt m p then useBlock c (splitBlock m p num) p size
  else useBlock c m p ((sizeAt m p + 2 ^ 32 - c.guardSize) % 2 ^ 32)

/-- The search for a free slot. -/
def findSlot (num size : ℕ) : (fuel : ℕ) → Memory → (p : ℕ) → Option (ℕ × Memory)
  | 0, _, _ => none
  | fuel + 1, m, p =>
    if p < pool.last then
      if magicAt m p ≠ magicNumber then some (0, m)
      else
        match coalesce pool fuel m p with
        | none => none
        | some m =>
          if freeAt m p = 1 ∧ num ≤ sizeAt m p then
            some (p + headerSize, allocateBlock c m p num size)
          else findSlot num size fuel m (nextAt m p)
    else some (0, m)

/-- `jvmMallocImpl`. -/
def mallocImpl (m : Memory) (size : BitVec 32) : Option (ℕ × Memory) :=
  let size := alignUp size.toNat % 2 ^ 32
  findSlot c pool ((size + c.guardSize) % 2 ^ 32) size (pool.size + 1) m pool.start

/-- `jvmCallocImpl`. -/
def callocImpl (m : Memory) (nelem elsize : BitVec 32) : Option (ℕ × Memory) :=
  match mallocImpl c pool m (nelem * elsize) with
  | none => none
  | some (loc, m) => some (loc, if loc = 0 then m else memset m loc 0 (nelem * elsize).toNat)

/-- `jvmFreeImpl`. -/
def freeImpl (m : Memory) (ptr : ℕ) : Memory :=
  if ptr = 0 then m
  else if pool.last < ptr ∨ ptr < pool.start then m
  else
    let p := ptr - headerSize
    let m := if magicAt m p = magicNumber ∧ freeAt m p = 0 then setFree m p 1 else m
    if c.trash ∧ sizeAt m p < 1024 then memset m ptr 0xaf (sizeAt m p) else m

/-- The branch of `jvmReallocImpl` for another size: the contents are moved. -/
def moveBlock (m : Memory) (ptr : ℕ) (size : BitVec 32) : Option (ℕ × Memory) :=
  match mallocImpl c pool m size with
  | none => none
  | some (newPtr, m) =>
    if newPtr = 0 then some (0, m)
    else
      let count := min (sizeAt m (ptr - headerSize)) size.toNat
      some (newPtr, freeImpl c pool (memcpy m newPtr ptr count) ptr)

/-- `jvmReallocImpl`. -/
def reallocImpl (m : Memory) (ptr : ℕ) (size : BitVec 32) : Option (ℕ × Memory) :=
  if ptr = 0 ∧ size = 0 then some (0, m)
  else if ptr = 0 then mallocImpl c pool m size
  else if sizeAt m (ptr - headerSize) = size.toNat then some (ptr, m)
  else if size = 0 then some (0, freeImpl c pool m ptr)
  else moveBlock c pool m ptr size

end

end CldcVm.Malloc
