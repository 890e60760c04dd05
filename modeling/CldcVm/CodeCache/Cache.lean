import CldcVm.Lib.Lanes

/-!
# The cache of compiled methods

Model of `CompiledMethodCache.{hpp,cpp}`: the map of the compiled methods with their weights
and execution sensors, the locks of the methods that are in use, the timer tick, and the two
ways in which entries are removed, by weight (`evict_zero_weight`) and by mark
(`cleanup_unmarked`). Both remove by one loop that moves the entries that are kept down.

A compiled method is its address in the compiler area, and `NULL` is the address 0. The words
of four weights are `unsigned long` on the 32-bit targets (`BytesPerDWord`). The sizes are
byte counts of one heap, so that the sums are exact. Under `ENABLE_CODE_PATCHING` the cache
also records the patched method.
-/

namespace CldcVm.CodeCache

open Lib

/-- `MaxMethods`, that is `method_execution_sensor_size`. -/
def maxMethods : ℕ := 512

/-- `WeightMask`, `1 << WeightBits`. -/
def weightMask : BitVec 32 := 1#32 <<< 6

/-- `ChargeBits`. -/
def chargeBits : ℕ := 4

/-- `LockMask`, `1 << LockBit`. -/
def lockMask : Byte := 1#8 <<< 7

/-- `InitCharge`, `1 << ChargeBits`. -/
def initCharge : Byte := 1#8 <<< 4

/-- What the cache reads of the heap: the compiler area and the sizes of its objects. -/
structure Area where
  compilerAreaStart : ℕ
  compilerAreaTop : ℕ
  /-- `object_size` of the compiled method at an address. -/
  objectSize : ℕ → ℕ

/-- `CompiledMethodCache`, with what it changes in the compiled methods. -/
structure Cache where
  weights : Memory
  /-- `_method_execution_sensor`: compiled code clears the byte of its method. -/
  sensor : Memory
  map : ℕ → ℕ
  /-- The index of the last entry, `-1` for an empty cache. -/
  upb : ℤ
  lastOld : ℤ
  size : ℤ
  patchedMethod : Option ℕ
  /-- The cache index that is stored in the compiled method at an address. -/
  cacheIndex : ℕ → ℕ
  /-- The compiled methods whose code `free` has unlinked, in this order. -/
  freed : List ℕ

/-- A frame of a Java stack, as `lock_unevictable` reads it. -/
inductive Frame where
  | entry (isFirst : Bool)
  | interpreted
  | compiled (compiledMethod : ℕ)

/-- Where compiled methods are referred to. -/
structure Roots where
  /-- `handle->obj()` of every handle. -/
  handles : List ℕ
  /-- Is the class of the object `compiled_method_class`? -/
  isCompiledMethod : ℕ → Bool
  /-- The method that is being compiled, or `NULL`. -/
  current : ℕ
  /-- The frames of every thread, from the top. -/
  threads : List (List Frame)

/-- `has_index`. -/
def Area.hasIndex (area : Area) (p : ℕ) : Bool :=
  area.compilerAreaStart ≤ p && p < area.compilerAreaTop

/-- The number of entries, `upb + 1`. -/
def Cache.count (c : Cache) : ℕ := (c.upb + 1).toNat

/-- `insert` (lines 145–164). -/
def Cache.insert (area : Area) (p : ℕ) (c : Cache) : Cache :=
  let i := (c.upb + 1).toNat
  { c with
    upb := c.upb + 1
    cacheIndex := Function.update c.cacheIndex p i
    weights := Function.update c.weights i initCharge
    sensor := Function.update c.sensor i 0xFF#8
    map := Function.update c.map i p
    size := c.size + area.objectSize p }

/-- `init` (lines 166–176); `method_execution_sensor_reset` sets every sensor. -/
def init (cacheIndex : ℕ → ℕ) : Cache where
  weights := fun _ => 0
  sensor := fun _ => 0xFF#8
  map := fun _ => 0
  upb := -1
  lastOld := -1
  size := 0
  patchedMethod := none
  cacheIndex := cacheIndex
  freed := []

/-- `on_promotion`. -/
def onPromotion (c : Cache) : Cache := { c with lastOld := c.upb }

/-! ## Words of weights -/

/-- The number of words from `DWordFloor( upb )` down to 0; there is none when `upb` is
negative, for `x & -4` is then negative too. -/
def dwords (upb : ℤ) : ℕ := (upb / 4 + 1).toNat

/-- `for( int i = DWordFloor( upb ); i >= 0; i -= BytesPerDWord )` with a word that is
replaced. -/
def forDWords (f : BitVec 32 → BitVec 32) : (words : ℕ) → Memory → Memory
  | 0, m => m
  | k + 1, m => forDWords f k (writeQuad m (4 * k) (f (readQuad m (4 * k))))

/-- `unlock` (lines 248–255). -/
def unlock (c : Cache) : Cache :=
  { c with
    weights := forDWords (· &&& ~~~quadMask (lockMask.setWidth 32)) (dwords c.upb) c.weights }

/-- `degrade` (lines 279–288): shift right by quads, under `WeightMask-1`. -/
def degrade (c : Cache) : Cache :=
  { c with
    weights := forDWords (fun x => (x >>> 1) &&& quadMask (weightMask - 1)) (dwords c.upb) c.weights }

/-- The word of a timer tick: the charge of the methods whose sensor is clear. -/
def charge (q x : BitVec 32) : BitVec 32 := ((~~~q &&& quadMask 1) <<< chargeBits) + x

/-- The loop of `on_timer_tick` (lines 312–319) on the weights, the sensors and `overflow`. -/
def chargeDWords : (words : ℕ) → Memory × Memory × BitVec 32 → Memory × Memory × BitVec 32
  | 0, s => s
  | k + 1, (w, q, overflow) =>
    let x := charge (readQuad q (4 * k)) (readQuad w (4 * k))
    chargeDWords k (writeQuad w (4 * k) x, writeQuad q (4 * k) (-1), overflow ||| x)

/-- `on_timer_tick` (lines 290–328), without the indirect sensor update. -/
def onTimerTick (c : Cache) : Cache :=
  let (w, q, overflow) := chargeDWords (dwords c.upb) (c.weights, c.sensor, 0)
  let c := { c with weights := w, sensor := q }
  if overflow &&& quadMask weightMask ≠ 0 then degrade c else c

/-! ## Locks -/

/-- `lock( p )` (lines 85–98). -/
def lock (area : Area) (p : ℕ) (c : Cache) : Cache :=
  if area.hasIndex p then
    { c with
      weights := Function.update c.weights (c.cacheIndex p) (c.weights (c.cacheIndex p) ||| lockMask) }
  else c

/-- The frames of one thread, up to the first entry frame. -/
def lockFrames (area : Area) : List Frame → Cache → Cache
  | [], c => c
  | .entry isFirst :: frames, c => if isFirst then c else lockFrames area frames c
  | .interpreted :: frames, c => lockFrames area frames c
  | .compiled p :: frames, c => lockFrames area frames (lock area p c)

/-- Is the compiled method of a handle locked? -/
def Roots.locks (roots : Roots) (p : ℕ) : Bool :=
  p != 0 && roots.isCompiledMethod p && p != roots.current

/-- `lock_unevictable` (lines 210–245). -/
def lockUnevictable (area : Area) (roots : Roots) (c : Cache) : Cache :=
  let c := (roots.handles.filter roots.locks).foldl (fun c p => lock area p c) c
  roots.threads.foldl (fun c frames => lockFrames area frames c) c

/-! ## Removing entries -/

/-- `compute_threshold` (lines 428–436). -/
def computeThreshold (c : Cache) : ℕ := if 0 ≤ c.lastOld then c.map c.lastOld.toNat else 0

/-- The last of the first entries, so many of them, that is not above `threshold`. -/
def lastNotAbove (map : ℕ → ℕ) (threshold : ℕ) : ℕ → ℤ
  | 0 => -1
  | i + 1 => if map i > threshold then lastNotAbove map threshold i else i

/-- `compute_last_old` (lines 510–519). -/
def computeLastOld (threshold : ℕ) (c : Cache) : Cache :=
  { c with lastOld := lastNotAbove c.map threshold (min c.lastOld c.upb + 1).toNat }

/-- An entry that is kept, moved to `dst`. -/
def moveEntry (src dst : ℕ) (c : Cache) : Cache :=
  { c with
    weights := Function.update c.weights dst (c.weights src)
    sensor := Function.update c.sensor dst (c.sensor src)
    map := Function.update c.map dst (c.map src)
    cacheIndex := Function.update c.cacheIndex (c.map src) dst }

/-- An entry that is removed; `free` unlinks the code of its method. -/
def dropEntry (area : Area) (src : ℕ) (c : Cache) : Cache :=
  { c with
    size := c.size - area.objectSize (c.map src)
    freed := c.freed ++ [c.map src] }

/-- `for(;; src++ )`: the first of the next `left` entries that is not kept. -/
def skipKept (keep : Cache → ℕ → Bool) (c : Cache) : (left src : ℕ) → Option ℕ
  | 0, _ => none
  | left + 1, src => if keep c src then skipKept keep c left (src + 1) else some src

/-- `for( ; src <= upb; src++ )`: the entries that are kept move down, the next one to `next`,
which is `dst + 1`. -/
def compactEntries (area : Area) (keep : Cache → ℕ → Bool) :
    (left src next : ℕ) → Cache → ℕ × Cache
  | 0, _, next, c => (next, c)
  | left + 1, src, next, c =>
    if keep c src then compactEntries area keep left (src + 1) (next + 1) (moveEntry src next c)
    else compactEntries area keep left (src + 1) next (dropEntry area src c)

/-- The common part of `evict_zero_weight` and `cleanup_unmarked`: the entries that `keep`
does not hold of are removed, and `patch` is what becomes of the patched method. -/
def removeEntries (area : Area) (keep : Cache → ℕ → Bool) (patch : Cache → Option ℕ) (c : Cache) :
    Cache :=
  match skipKept keep c c.count 0 with
  | none => c     -- No methods freed, no need to continue
  | some src =>
    let threshold := computeThreshold c
    let (next, c) :=
      compactEntries area keep (c.count - src) src src { c with patchedMethod := patch c }
    computeLastOld threshold { c with upb := (next : ℤ) - 1 }

/-- The patched method in `evict_zero_weight` (lines 455–465). -/
def patchZeroWeight (c : Cache) : Option ℕ :=
  match c.patchedMethod with
  | none => none
  | some p => if c.weights (c.cacheIndex p) = 0 then none else some p

/-- `evict_zero_weight` (lines 438–486). -/
def evictZeroWeight (area : Area) (c : Cache) : Cache :=
  removeEntries area (fun c i => c.weights i != 0) patchZeroWeight c

/-- The patched method in `cleanup_unmarked` (lines 580–589). -/
def patchUnmarked (marked : ℕ → Bool) (c : Cache) : Option ℕ :=
  match c.patchedMethod with
  | none => none
  | some p => if marked p then none else some p

/-- `cleanup_unmarked` (lines 552–617); `marked` looks at the Java method of the compiled one. -/
def cleanupUnmarked (area : Area) (marked : ℕ → Bool) (c : Cache) : Cache :=
  removeEntries area (fun c i => marked (c.map i)) (patchUnmarked marked) c

/-- `evict_underweight` (lines 488–498). -/
def evictUnderweight (area : Area) (roots : Roots) (c : Cache) : Cache × ℤ :=
  let oldSize := c.size
  let c := unlock (evictZeroWeight area (lockUnevictable area roots c))
  (c, oldSize - c.size)

/-- `smart_evict_underweight` (lines 500–508). -/
def smartEvictUnderweight (area : Area) (roots : Roots) (c : Cache) : Cache × ℤ :=
  if (List.range c.count).any (fun i => c.weights i == 0) then evictUnderweight area roots c
  else (c, 0)

/-- `alloc` (lines 257–277); `none` is `UndefIndex`. -/
def alloc (area : Area) (roots : Roots) (c : Cache) : Cache × Option ℤ :=
  if c.upb = maxMethods - 1 then
    let (c, evicted) := smartEvictUnderweight area roots c
    if evicted = 0 then (c, none) else (c, some (c.upb + 1))
  else (c, some (c.upb + 1))

/-! ## Eviction by size -/

/-- The first pass of `evict`: the sizes of the unlocked methods by weight, from the entry
before `i` down. -/
def histogramm (area : Area) (c : Cache) : (i : ℕ) → (ℕ → ℤ) → (ℕ → ℤ)
  | 0, h => h
  | i + 1, h =>
    let weight := (c.weights i).toNat
    histogramm area c i
      (if c.weights i &&& lockMask = 0 then
        Function.update h weight (h weight + area.objectSize (c.map i))
      else h)

/-- The cut-off weight and what is left of the size; `left` weights of the histogram are still
to be looked at. -/
def findCutoff (h : ℕ → ℤ) : (left weight : ℕ) → (size : ℤ) → ℕ × ℤ
  | 0, weight, size => (weight, size)
  | left + 1, weight, size =>
    if h weight ≥ size then (weight, size)
    else findCutoff h left (weight + 1) (size - h weight)

/-- The second pass of `evict`: weights up to the cut-off weight are set to zero. -/
def sweep (area : Area) (map : ℕ → ℕ) (cutoff : ℕ) : (i : ℕ) → Memory × ℤ → Memory × ℤ
  | 0, s => s
  | i + 1, (w, size) =>
    let weight := (w i).toNat
    if weight < cutoff then sweep area map cutoff i (Function.update w i 0, size)
    else if weight = cutoff ∧ size > 0 then
      sweep area map cutoff i (Function.update w i 0, size - area.objectSize (map i))
    else sweep area map cutoff i (w, size)

/-- `HistogrammSize`, `1 << WeightBits`. -/
def histogrammSize : ℕ := 64

/-- `evict` (lines 332–413). The size has to be positive. -/
def evict (area : Area) (roots : Roots) (requested : ℤ) (c : Cache) : Cache × ℤ :=
  if c.upb < 0 then (c, 0)
  else
    let c := lockUnevictable area roots c
    let h := histogramm area c c.count fun _ => 0
    let (cutoff, size) := findCutoff h histogrammSize 0 requested
    let (w, size) := sweep area c.map cutoff c.count (c.weights, size)
    let c := unlock (evictZeroWeight area { c with weights := w })
    (c, requested - size)

end CldcVm.CodeCache
