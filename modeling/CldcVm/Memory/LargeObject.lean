import CldcVm.Lib.BitScan
import CldcVm.Lib.Blocks

/-!
# The area of the large objects

Model of `memory/LargeObject.cpp` (lines 46–361) with `ENABLE_LIB_IMAGES`. Large objects lie one
after the other below the end of the heap, the header of each, a word with its size and its mark,
just below an aligned body. `compact` disposes of the marked ones: it lists where live and dead
objects alternate, replaces the beginnings of the gaps by the distances that the live objects
before them go up, updates the pointers, and moves the live intervals from the last one down.

Addresses and distances count words of four bytes, sizes count bytes. The interval table lies in
memory that is free meanwhile and is kept apart. Its dump and its restoration are left out.

Results:
* `moveInterval_mem`, `moveInterval_bit`: what moving one interval does.
* `updateRoots_apply`: which slots the first visit updates.
* `compactTable_slides`: what `compact(table_beg, table_end)` does with a table of intervals.
-/

namespace CldcVm.Memory.LargeObject

open Lib

/-- The words of memory, the table with one bit for each, and `_large_object_area_bottom`. -/
structure State where
  mem : ℤ → ℤ
  bits : ℤ → BitVec 32
  bottom : ℤ

/-- Where the free memory lies that the interval table takes. -/
structure Bounds where
  inlineAllocationTop : ℤ
  compilerAreaStart : ℤ
  heapTop : ℤ
  heapLimit : ℤ

/-- The slots that are visited for pointers outside the area. -/
structure Roots where
  /-- The slots of the objects of the heap, and whether the object is an instance class or an
  array class. -/
  heapSlots : List (ℤ × Bool)
  /-- Weak references, soft references and roots. -/
  rootSlots : List ℤ
  /-- The class infos of the classes in the class lists. -/
  classInfoSlots : List ℤ
  /-- `obj->is_class_info()`. -/
  isClassInfo : ℤ → Bool

/-- `LargeObject::end()`. -/
def Bounds.areaEnd (b : Bounds) : ℤ := b.heapTop - 1

/-- The bit of a word. -/
def bit (bits : ℤ → BitVec 32) (a : ℤ) : Bool := (bits (a / 32)).getLsbD (a % 32).toNat

/-- `marked(x)`. -/
def marked (x : ℤ) : Bool := x % 2 = 1

/-- `unmark(x)`. -/
def unmark (x : ℤ) : ℤ := x - x % 2

/-! ## Pointers to moving objects -/

/-- What `is_moving` and `delta` read: the beginnings of the live intervals at the even indices of
the table, their distances at the odd ones, and the index of the last distance. -/
structure Moving where
  bottom : ℤ
  currentLimit : ℤ
  table : ℕ → ℤ
  last : ℕ

/-- `is_moving`. -/
def isMoving (m : Moving) (p : ℤ) : Bool := m.bottom ≤ p && p < m.currentLimit

/-- `do { q -= 2; } while( q[-1] > p )`. The first interval begins at the bottom, so that the loop
goes no further. -/
def deltaFrom (table : ℕ → ℤ) (p : ℤ) : (q : ℕ) → ℤ
  | q + 2 => if table (q + 1) > p then deltaFrom table p q else table (q + 2)
  | q => table q

/-- `delta`. -/
def delta (m : Moving) (p : ℤ) : ℤ := deltaFrom m.table p m.last

/-- `update_pointer`. -/
def updatePointer (m : Moving) (mem : ℤ → ℤ) (p : ℤ) : ℤ → ℤ :=
  let obj := mem p
  if isMoving m obj then Function.update mem p (obj + delta m obj) else mem

/-- `update_pointer_in_instance_class`. -/
def updatePointerInInstanceClass (roots : Roots) (m : Moving) (mem : ℤ → ℤ) (p : ℤ) : ℤ → ℤ :=
  let obj := mem p
  if isMoving m obj && !roots.isClassInfo obj then Function.update mem p (obj + delta m obj)
  else mem

/-- `update_pointers`, and then the weak and soft references and the roots. -/
def updateRoots (roots : Roots) (m : Moving) (mem : ℤ → ℤ) : ℤ → ℤ :=
  let mem := roots.heapSlots.foldl (fun mem slot =>
    if slot.2 then updatePointerInInstanceClass roots m mem slot.1
    else updatePointer m mem slot.1) mem
  roots.rootSlots.foldl (updatePointer m) mem

/-- `update_classinfo_pointers`. -/
def updateClassInfoPointers (roots : Roots) (m : Moving) (mem : ℤ → ℤ) : ℤ → ℤ :=
  roots.classInfoSlots.foldl (updatePointer m) mem

/-! ## Moving an interval -/

/-- The pointers of one word of the table are relocated. -/
def relocateWord (m : Moving) (p : ℤ) (bitword : BitVec 32) (mem : ℤ → ℤ) : ℤ → ℤ :=
  forBits (fun i mem => updatePointer m mem (p + i)) 32 bitword 0 mem

/-- `move(dst, beg, end)`: the interior pointers are relocated, then the bits and the objects are
moved. -/
def moveInterval (m : Moving) (dst beg fin : ℤ) (s : State) : State :=
  let bitBeg := (beg + 1) / 32
  let bitEnd := (fin + 1) / 32
  let mem := (List.range (bitEnd - bitBeg).toNat).foldl (fun mem (k : ℕ) =>
    relocateWord m (beg + 1 + 32 * k) (s.bits (bitBeg + k)) mem) s.mem
  { s with
    bits := memmove s.bits ((dst + 1) / 32) bitBeg (bitEnd - bitBeg)
    mem := memmove mem dst beg (fin - beg) }

/-! ## The interval table -/

/-- `do … while( (p -= 2) > table_beg )`, from the index `p` down. -/
def forPairs {σ : Type*} (body : ℕ → σ → σ) : (p : ℕ) → σ → σ
  | p + 2, s => forPairs body p (body (p + 2) s)
  | 1, s => body 1 s
  | 0, s => s

/-- `delta += DISTANCE( p[0], p[1] ); p[0] = delta;`. -/
def offsetStep (p : ℕ) (s : ℤ × (ℕ → ℤ)) : ℤ × (ℕ → ℤ) :=
  let delta := s.1 + (s.2 (p + 1) - s.2 p)
  (delta, Function.update s.2 p delta)

/-- The body of the loop that moves the objects. -/
def moveStep (m : Moving) (p : ℕ) (s : ℤ × State) : ℤ × State :=
  let offset := m.table p
  let dead := m.table (p + 1) + (s.1 - offset)
  let live := m.table (p - 1)
  (offset, moveInterval m (live + offset) live dead s.2)

/-- What is set up from a table of `n` entries: the beginning of the last gap, and the distances
in place of the beginnings of the gaps. -/
def setup (bottom : ℤ) (table : ℕ → ℤ) (n : ℕ) : Moving where
  bottom := bottom
  currentLimit := table (n - 2)
  table := (forPairs offsetStep (n - 2) (0, table)).2
  last := n - 2

/-- `compact(table_beg, table_end)`, for a table of `n` entries. -/
def compactTable (roots : Roots) (table : ℕ → ℤ) (n : ℕ) (s : State) : State :=
  let m := setup s.bottom table n
  let s := { s with mem := updateRoots roots m s.mem }
  let (delta, s) := forPairs (moveStep m) (n - 2) (0, s)
  { s with
    bottom := s.bottom + delta
    mem := updateClassInfoPointers roots m s.mem }

/-- `*table++ = obj`, unless the table overflows. -/
def push (room : ℕ) (table : List ℤ) (obj : ℤ) : Option (List ℤ) :=
  if table.length < room then some (table ++ [obj]) else none

/-- The loop that fills the interval table and clears the marks. -/
def fill (room : ℕ) (limit : ℤ) :
    (fuel : ℕ) → (mem : ℤ → ℤ) → (obj : ℤ) → (currentMark : Bool) → (table : List ℤ) →
      Option ((ℤ → ℤ) × List ℤ)
  | 0, _, _, _, _ => none
  | fuel + 1, mem, obj, currentMark, table =>
    if obj < limit then
      let size := mem obj
      let mark := marked size
      (if mark ≠ currentMark then push room table obj else some table).bind fun table =>
        let mem := if mark then Function.update mem obj (unmark size) else mem
        fill room limit fuel mem (obj + unmark size / 4) mark table
    else (if currentMark then push room table obj else some table).map fun table => (mem, table)

/-- The entries that the free memory has room for. -/
def Bounds.room (b : Bounds) : ℕ :=
  (if b.heapLimit - b.heapTop > b.compilerAreaStart - b.inlineAllocationTop then
    b.heapLimit - b.heapTop else b.compilerAreaStart - b.inlineAllocationTop).toNat

/-- `compact()`. Sizes are positive, so that no more steps are made than the area has words. -/
def compact (b : Bounds) (roots : Roots) (s : State) : Option State :=
  (fill b.room b.areaEnd ((b.areaEnd - s.bottom).toNat + 1) s.mem s.bottom true []).map
    fun (mem, table) =>
      let s := { s with
        mem := mem
        bottom := table.getD 0 0 }
      if table.length = 1 then s else compactTable roots (fun i => table.getD i 0) table.length s

/-- `move(delta, limit)`. Its third entry is never set: the second one is set twice. -/
def move (roots : Roots) (uninitialised : ℤ) (delta limit : ℤ) (s : State) : State :=
  if delta = 0 then s
  else if s.bottom = limit then { s with bottom := s.bottom + delta }
  else compactTable roots (fun i => [s.bottom, limit + delta, uninitialised].getD i 0) 3 s

/-! ## The loops over the table -/

section Table

variable {σ : Type*} {k : ℕ} {L D O : ℕ → ℤ} {i j : ℕ} {p a : ℤ}

/-- **Run lemma.** What holds above the last pair and is kept by every step holds at the end. -/
theorem forPairs_induction {body : ℕ → σ → σ} (P : ℕ → σ → Prop) {s : σ} (hk : 0 < k)
    (hstart : P k s) (hstep : ∀ i < k, ∀ s, P (i + 1) s → P i (body (2 * i + 1) s)) :
    P 0 (forPairs body (2 * k - 1) s) := by
  induction k generalizing s with
  | zero => exact absurd hk (Nat.lt_irrefl 0)
  | succ k ih =>
    have hfirst : P k (body (2 * k + 1) s) := hstep k k.lt_succ_self s hstart
    by_cases hzero : k = 0
    · subst hzero
      exact hfirst
    · rw [show 2 * (k + 1) - 1 = 2 * k - 1 + 2 by omega, forPairs,
        show 2 * k - 1 + 2 = 2 * k + 1 by omega]
      exact ih (by omega) hfirst fun i hi => hstep i (by omega)

/-- Live intervals from `L i` to `D i`, the last one from `L k` on, and the distance `O i` that
each has to go up. -/
structure Alternating (k : ℕ) (L D O : ℕ → ℤ) : Prop where
  live : ∀ i < k, L i < D i
  dead : ∀ i < k, D i < L (i + 1)
  last : O k = 0
  offset : ∀ i < k, O i = L (i + 1) - D i + O (i + 1)
  aligned_live : ∀ i ≤ k, 32 ∣ L i + 1
  aligned_dead : ∀ i < k, 32 ∣ D i + 1

namespace Alternating

variable (h : Alternating k L D O)
include h

theorem le_of_le (hij : i ≤ j) (hj : j ≤ k) : L i ≤ L j := by
  induction j, hij using Nat.le_induction with
  | base => exact le_rfl
  | succ j hij ih =>
    have hlive := h.live j (by omega)
    have hdead := h.dead j (by omega)
    have hle := ih (by omega)
    omega

theorem dead_le (hij : i < j) (hj : j ≤ k) : D i < L j :=
  (h.dead i (by omega)).trans_le (h.le_of_le hij hj)

theorem offset_nonneg (hi : i ≤ k) : 0 ≤ O i := by
  induction hi using Nat.decreasingInduction with
  | self => exact h.last.ge
  | of_succ i hi ih =>
    have hdead := h.dead i hi
    have hoffset := h.offset i hi
    omega

theorem place_end (hi : i < k) : D i + O i = L (i + 1) + O (i + 1) := by
  have hoffset := h.offset i hi
  omega

theorem place_le (hij : i ≤ j) (hj : j ≤ k) : L i + O i ≤ L j + O j := by
  induction j, hij using Nat.le_induction with
  | base => exact le_rfl
  | succ j hij ih =>
    have hlive := h.live j (by omega)
    have hend := h.place_end (show j < k by omega)
    have hle := ih (by omega)
    omega

theorem aligned_offset (hi : i ≤ k) : 32 ∣ O i := by
  induction hi using Nat.decreasingInduction with
  | self => exact h.last ▸ dvd_zero 32
  | of_succ i hi ih =>
    have hdead := h.aligned_dead i hi
    have hlive := h.aligned_live (i + 1) hi
    have hoffset := h.offset i hi
    omega

end Alternating

/-- The table with the addresses. -/
def IsTable (table : ℕ → ℤ) (k : ℕ) (L D : ℕ → ℤ) : Prop :=
  (∀ i ≤ k, table (2 * i) = L i) ∧ ∀ i < k, table (2 * i + 1) = D i

/-- **Run lemma.** The first loop replaces the beginnings of the gaps by the distances. -/
theorem offsets_isTable (h : Alternating k L D O) (hk : 0 < k) {table : ℕ → ℤ}
    (htable : IsTable table k L D) :
    IsTable (forPairs offsetStep (2 * k - 1) (0, table)).2 k L O := by
  have hrun := @forPairs_induction _ k offsetStep (fun i (s : ℤ × (ℕ → ℤ)) =>
    s.1 = O i ∧ (∀ j ≤ k, s.2 (2 * j) = L j) ∧ (∀ j < i, s.2 (2 * j + 1) = D j) ∧
      ∀ j < k, i ≤ j → s.2 (2 * j + 1) = O j) (0, table) hk
    ⟨h.last.symm, htable.1, htable.2, fun j hj hge => absurd hj (by omega)⟩ ?_
  · exact ⟨hrun.2.1, fun i hi => hrun.2.2.2 i hi (Nat.zero_le i)⟩
  · rintro i hi ⟨d, t⟩ ⟨hd, hlive, hdead, hoffset⟩
    simp only at hd hlive hdead hoffset
    have hnew : d + (t (2 * i + 1 + 1) - t (2 * i + 1)) = O i := by
      rw [hd, hdead i (Nat.lt_succ_self i), show 2 * i + 1 + 1 = 2 * (i + 1) by ring,
        hlive (i + 1) hi, h.offset i hi]
      ring
    simp only [offsetStep, hnew]
    refine ⟨trivial, fun j hj => ?_, fun j hj => ?_, fun j hj hij => ?_⟩
    · rw [Function.update_of_ne (by omega)]
      exact hlive j hj
    · rw [Function.update_of_ne (by omega)]
      exact hdead j (by omega)
    · by_cases hji : j = i
      · rw [hji, Function.update_self]
      · rw [Function.update_of_ne (by omega)]
        exact hoffset j hj (by omega)

/-- **Spec lemma.** The search finds the distance of the interval that begins last. -/
theorem deltaFrom_eq (h : Alternating k L D O) {table : ℕ → ℤ} (htable : IsTable table k L O)
    (hj : j < k) (hij : i ≤ j) (hlow : L i ≤ p) (hhigh : p < L (i + 1)) :
    deltaFrom table p (2 * j + 1) = O i := by
  induction j with
  | zero =>
    obtain rfl : i = 0 := by omega
    exact htable.2 0 hj
  | succ j ih =>
    rw [show 2 * (j + 1) + 1 = 2 * j + 1 + 2 by ring, deltaFrom,
      show 2 * j + 1 + 1 = 2 * (j + 1) by ring, htable.1 (j + 1) hj.le]
    by_cases hi : i = j + 1
    · subst hi
      rw [if_neg (not_lt.mpr hlow)]
      exact htable.2 (j + 1) hj
    · have hle := h.le_of_le (show i + 1 ≤ j + 1 by omega) hj.le
      rw [if_pos (by omega)]
      exact ih (by omega) (by omega)

end Table

/-! ## One interval -/

/-- A pointer as it is updated. -/
def reloc (m : Moving) (v : ℤ) : ℤ := if isMoving m v then v + delta m v else v

theorem updatePointer_eq (m : Moving) : updatePointer m = modifyAt fun _ => reloc m := by
  funext mem p
  unfold updatePointer modifyAt reloc
  simp only
  split
  · rfl
  · exact (Function.update_eq_self p mem).symm

section Interval

variable {m : Moving} {mem : ℤ → ℤ} {a dst beg fin : ℤ} {n : ℕ} {s : State}

theorem bit_word {q : ℤ} {j : ℕ} (bits : ℤ → BitVec 32) (hj : j < 32) :
    bit bits (32 * q + j) = (bits q).getLsbD j := by
  unfold bit
  rw [show (32 * q + j) / 32 = q by omega, show ((32 * q + j) % 32).toNat = j by omega]

/-- The slots of a word whose bits are set are relocated, each once. -/
theorem relocateWord_apply (m : Moving) (p : ℤ) (w : BitVec 32) (mem : ℤ → ℤ) (a : ℤ) :
    relocateWord m p w mem a =
      if p ≤ a ∧ w.getLsbD (a - p).toNat = true then reloc m (mem a) else mem a := by
  have hnodup : ((setBits w 32).map fun j : ℕ => p + j).Nodup := by
    refine List.Nodup.map (fun i j hij => ?_) (List.nodup_range.filter _)
    omega
  have hmem : a ∈ (setBits w 32).map (fun j : ℕ => p + j) ↔
      p ≤ a ∧ w.getLsbD (a - p).toNat = true := by
    rw [List.mem_map]
    constructor
    · rintro ⟨j, hj, rfl⟩
      rw [add_sub_cancel_left, Int.toNat_natCast]
      exact ⟨by omega, (List.mem_filter.mp hj).2⟩
    · rintro ⟨hle, hset⟩
      refine ⟨(a - p).toNat, List.mem_filter.mpr ⟨?_, hset⟩, by omega⟩
      exact List.mem_range.mpr (BitVec.lt_of_getLsbD hset)
  have hfold := foldl_modifyAt (fun _ => reloc m) mem hnodup a
  rw [List.foldl_map] at hfold
  unfold relocateWord
  rw [forBits_eq _ (fun j hj => BitVec.getLsbD_of_ge w j hj) 0 mem]
  simp only [updatePointer_eq, Nat.zero_add]
  rw [hfold]
  simp only [hmem]

/-- **Run lemma.** The slots of the first `n` words are relocated. -/
theorem foldl_relocateWord (m : Moving) (bits : ℤ → BitVec 32) (mem : ℤ → ℤ) (q : ℤ) (n : ℕ)
    (a : ℤ) :
    (List.range n).foldl (fun mem (k : ℕ) => relocateWord m (32 * q + 32 * k) (bits (q + k)) mem)
      mem a =
      if 32 * q ≤ a ∧ a < 32 * (q + n) ∧ bit bits a = true then reloc m (mem a) else mem a := by
  induction n with
  | zero =>
    rw [List.range_zero, List.foldl_nil, if_neg fun hand => ?_]
    have hlow := hand.1
    have hhigh := hand.2.1
    push_cast at hhigh
    omega
  | succ n ih =>
    rw [List.range_succ, List.foldl_append, List.foldl_cons, List.foldl_nil, relocateWord_apply, ih]
    by_cases hword : a / 32 = q + n
    · -- The slot is in the last word, which the words before leave alone.
      obtain ⟨j, hj, rfl⟩ : ∃ j < 32, a = 32 * (q + n) + (j : ℕ) :=
        ⟨(a % 32).toNat, by omega, by omega⟩
      have hbefore : ¬(32 * q ≤ 32 * (q + n) + (j : ℤ) ∧ 32 * (q + n) + (j : ℤ) < 32 * (q + n) ∧
          bit bits (32 * (q + n) + j) = true) := fun hand => by
        have hlt := hand.2.1
        omega
      have hslot : (32 * q + 32 * n ≤ 32 * (q + n) + (j : ℤ) ∧
          (bits (q + n)).getLsbD (32 * (q + n) + (j : ℤ) - (32 * q + 32 * n)).toNat = true) ↔
          (32 * q ≤ 32 * (q + n) + (j : ℤ) ∧ 32 * (q + n) + (j : ℤ) < 32 * (q + ((n + 1 : ℕ) : ℤ)) ∧
            bit bits (32 * (q + n) + j) = true) := by
        rw [bit_word bits hj, show (32 * (q + n) + (j : ℤ) - (32 * q + 32 * n)).toNat = j by omega]
        push_cast
        exact ⟨fun hand => ⟨by omega, by omega, hand.2⟩, fun hand => ⟨by omega, hand.2.2⟩⟩
      simp only [if_neg hbefore, hslot]
    · have hother : ¬(32 * q + 32 * n ≤ a ∧
          (bits (q + n)).getLsbD (a - (32 * q + 32 * n)).toNat = true) := fun hand => by
        have hlt := BitVec.lt_of_getLsbD hand.2
        have hle := hand.1
        omega
      have hrange : (32 * q ≤ a ∧ a < 32 * (q + ((n + 1 : ℕ) : ℤ)) ∧ bit bits a = true) ↔
          (32 * q ≤ a ∧ a < 32 * (q + n) ∧ bit bits a = true) := by
        push_cast
        exact ⟨fun hand => ⟨hand.1, by omega, hand.2.2⟩, fun hand => ⟨hand.1, by omega, hand.2.2⟩⟩
      rw [if_neg hother]
      simp only [hrange]

/-- A word of an interval before it is moved. -/
def relocated (m : Moving) (s : State) (beg fin a : ℤ) : ℤ :=
  if beg < a ∧ a ≤ fin ∧ bit s.bits a = true then reloc m (s.mem a) else s.mem a

/-- **Spec lemma.** The words that an interval has are relocated and moved. -/
theorem moveInterval_mem (hbeg : 32 ∣ beg + 1) (hfin : 32 ∣ fin + 1) (hle : beg ≤ fin) (a : ℤ) :
    (moveInterval m dst beg fin s).mem a =
      if dst ≤ a ∧ a < dst + (fin - beg) then relocated m s beg fin (beg + (a - dst))
      else relocated m s beg fin a := by
  obtain ⟨q, hq⟩ := hbeg
  obtain ⟨r, hr⟩ := hfin
  have hrelocated : (List.range ((fin + 1) / 32 - (beg + 1) / 32).toNat).foldl
      (fun mem (k : ℕ) => relocateWord m (beg + 1 + 32 * k) (s.bits ((beg + 1) / 32 + k)) mem)
      s.mem = relocated m s beg fin := by
    funext a
    have hrange : (32 * q ≤ a ∧ a < 32 * (q + (((fin + 1) / 32 - q).toNat : ℤ)) ∧
        bit s.bits a = true) ↔ (beg < a ∧ a ≤ fin ∧ bit s.bits a = true) :=
      ⟨fun hand => ⟨by omega, by omega, hand.2.2⟩, fun hand => ⟨by omega, by omega, hand.2.2⟩⟩
    rw [show (beg + 1) / 32 = q by omega, hq, foldl_relocateWord, relocated]
    simp only [hrange]
  unfold moveInterval
  simp only [hrelocated]
  rfl

/-- **Spec lemma.** The bits of an interval are moved. -/
theorem moveInterval_bit (hbeg : 32 ∣ beg + 1) (hfin : 32 ∣ fin + 1) (hdst : 32 ∣ dst + 1) (a : ℤ) :
    bit (moveInterval m dst beg fin s).bits a =
      if dst < a ∧ a ≤ dst + (fin - beg) then bit s.bits (beg + (a - dst)) else bit s.bits a := by
  obtain ⟨q, hq⟩ := hbeg
  obtain ⟨r, hr⟩ := hfin
  obtain ⟨t, ht⟩ := hdst
  unfold moveInterval bit memmove
  simp only
  rw [show (dst + 1) / 32 = t by omega, show (beg + 1) / 32 = q by omega,
    show (fin + 1) / 32 = r by omega]
  by_cases hin : t ≤ a / 32 ∧ a / 32 < t + (r - q)
  · rw [if_pos hin, if_pos (by omega), show (beg + (a - dst)) / 32 = q + (a / 32 - t) by omega,
      show (beg + (a - dst)) % 32 = a % 32 by omega]
  · rw [if_neg hin, if_neg (by omega)]

end Interval

/-! ## The intervals one after the other -/

section Intervals

variable {k i j : ℕ} {L D O : ℕ → ℤ} {m : Moving} {s s₀ : State} {table : ℕ → ℤ} {v : ℤ}

/-- The state after the live intervals from the `i`th on have been moved. -/
structure Slid (k : ℕ) (L D O : ℕ → ℤ) (m : Moving) (s₀ : State) (i : ℕ) (s : State) : Prop where
  bottom : s.bottom = s₀.bottom
  words : ∀ j, i ≤ j → j < k → ∀ a, L j ≤ a → a < D j → s.mem (a + O j) =
    if L j < a ∧ bit s₀.bits a = true then reloc m (s₀.mem a) else s₀.mem a
  bits : ∀ j, i ≤ j → j < k → ∀ a, L j < a → a ≤ D j →
    bit s.bits (a + O j) = bit s₀.bits a
  mem_frame : ∀ a, a < L i ∨ L k ≤ a → s.mem a = s₀.mem a
  bits_frame : ∀ a, a ≤ L i ∨ L k < a → bit s.bits a = bit s₀.bits a

/-- **Step lemma.** An interval goes where the next one begins, and what is still to be moved is
left alone. -/
theorem Slid.step (h : Alternating k L D O) (hi : i < k) (hs : Slid k L D O m s₀ (i + 1) s) :
    Slid k L D O m s₀ i (moveInterval m (L i + O i) (L i) (D i) s) := by
  have hlive := h.live i hi
  have hdead := h.dead i hi
  have hend := h.place_end hi
  have hup := h.offset_nonneg hi.le
  have hlast := h.last
  have hplace := h.place_le (show i + 1 ≤ k from hi) le_rfl
  have hbeg := h.aligned_live i hi.le
  have hfin := h.aligned_dead i hi
  have hdst : 32 ∣ L i + O i + 1 := by
    have := h.aligned_offset hi.le
    omega
  have hmem := fun a => @moveInterval_mem m (L i + O i) _ _ s hbeg hfin hlive.le a
  have hbit := fun a => @moveInterval_bit m _ _ _ s hbeg hfin hdst a
  refine ⟨hs.bottom, fun j hij hj a hal hah => ?_, fun j hij hj a hal hah => ?_, fun a ha => ?_,
    fun a ha => ?_⟩
  · by_cases hji : j = i
    · subst hji
      rw [hmem, if_pos (by omega), show L j + (a + O j - (L j + O j)) = a by ring, relocated,
        hs.mem_frame a (.inl (by omega)), hs.bits_frame a (.inl (by omega))]
      have hiff : (L j < a ∧ a ≤ D j ∧ bit s₀.bits a = true) ↔ (L j < a ∧ bit s₀.bits a = true) :=
        ⟨fun hand => ⟨hand.1, hand.2.2⟩, fun hand => ⟨hand.1, hah.le, hand.2⟩⟩
      simp only [hiff]
    · have hbefore := h.place_le (show i + 1 ≤ j by omega) hj.le
      have habove := h.le_of_le (show i + 1 ≤ j by omega) hj.le
      have hupj := h.offset_nonneg hj.le
      rw [hmem, if_neg (by omega), relocated, if_neg fun hand => absurd hand.2.1 (by omega)]
      exact hs.words j (by omega) hj a hal hah
  · by_cases hji : j = i
    · subst hji
      rw [hbit, if_pos (by omega), show L j + (a + O j - (L j + O j)) = a by ring]
      exact hs.bits_frame a (.inl (by omega))
    · have hbefore := h.place_le (show i + 1 ≤ j by omega) hj.le
      rw [hbit, if_neg (by omega)]
      exact hs.bits j (by omega) hj a hal hah
  · have hle := h.le_of_le (show i + 1 ≤ k from hi) le_rfl
    rw [hmem, if_neg (by omega), relocated,
      if_neg fun hand => absurd (And.intro hand.1 hand.2.1) (by omega)]
    exact hs.mem_frame a (by omega)
  · have hle := h.le_of_le (show i + 1 ≤ k from hi) le_rfl
    rw [hbit, if_neg (by omega)]
    exact hs.bits_frame a (by omega)

/-- **Run lemma.** The last loop moves every live interval before the last gap. -/
theorem moves_slid (h : Alternating k L D O) (hk : 0 < k) (htable : IsTable m.table k L O)
    (s : State) : (forPairs (moveStep m) (2 * k - 1) (0, s)).1 = O 0 ∧
      Slid k L D O m s 0 (forPairs (moveStep m) (2 * k - 1) (0, s)).2 := by
  have hstart : Slid k L D O m s k s :=
    ⟨rfl, fun j hij hj => absurd hj (by omega), fun j hij hj => absurd hj (by omega),
      fun _ _ => rfl, fun _ _ => rfl⟩
  refine forPairs_induction (fun i (t : ℤ × State) => t.1 = O i ∧ Slid k L D O m s i t.2) hk
    ⟨h.last.symm, hstart⟩ ?_
  rintro i hi ⟨d, t⟩ ⟨hd, ht⟩
  simp only at hd ht
  have hdead : L (i + 1) + (d - O i) = D i := by
    have hend := h.place_end hi
    omega
  simp only [moveStep]
  rw [htable.2 i hi, show 2 * i + 1 + 1 = 2 * (i + 1) by ring, htable.1 (i + 1) hi,
    show 2 * i + 1 - 1 = 2 * i by omega, htable.1 i hi.le, hdead]
  exact ⟨rfl, ht.step h hi⟩

/-- What is set up from the table. -/
structure IsSetup (k : ℕ) (L D O : ℕ → ℤ) (m : Moving) : Prop where
  positive : 0 < k
  alternating : Alternating k L D O
  bottom : m.bottom = L 0
  limit : m.currentLimit = D (k - 1)
  table : IsTable m.table k L O
  last : m.last = 2 * k - 1

theorem setup_isSetup (h : Alternating k L D O) (hk : 0 < k) (htable : IsTable table k L D) :
    IsSetup k L D O (setup (L 0) table (2 * k + 1)) := by
  refine ⟨hk, h, rfl, ?_, offsets_isTable h hk htable, rfl⟩
  have hlimit := htable.2 (k - 1) (by omega)
  rwa [show 2 * (k - 1) + 1 = 2 * k + 1 - 2 by omega] at hlimit

/-- **Spec lemma.** A pointer into an interval goes up with it. -/
theorem IsSetup.reloc_eq (h : IsSetup k L D O m) (hi : i < k) (hlow : L i ≤ v) (hhigh : v < D i) :
    reloc m v = v + O i := by
  have hdead := h.alternating.dead i hi
  have hfirst := h.alternating.le_of_le (Nat.zero_le i) hi.le
  have hlimit : D i ≤ D (k - 1) := by
    by_cases hlast : i = k - 1
    · rw [hlast]
    · have hle := h.alternating.le_of_le (show i + 1 ≤ k - 1 by omega) (by omega)
      have hlive := h.alternating.live (k - 1) (by omega)
      omega
  have hmoving : isMoving m v = true := by
    rw [isMoving, Bool.and_eq_true, decide_eq_true_iff, decide_eq_true_iff, h.bottom, h.limit]
    omega
  rw [reloc, if_pos hmoving, delta, h.last, show 2 * k - 1 = 2 * (k - 1) + 1 by omega,
    deltaFrom_eq h.alternating h.table (by omega) (by omega) hlow (by omega)]

/-- **Spec lemma.** A pointer to a place outside the moving intervals stays. -/
theorem IsSetup.reloc_outside (h : IsSetup k L D O m) (hv : v < L 0 ∨ D (k - 1) ≤ v) :
    reloc m v = v := by
  rw [reloc, if_neg]
  rw [isMoving, Bool.and_eq_true, decide_eq_true_iff, decide_eq_true_iff, h.bottom, h.limit]
  omega

end Intervals

/-! ## The registered pointers -/

/-- The slots outside the area whose pointers are updated. -/
def Roots.slots (roots : Roots) : List ℤ :=
  roots.heapSlots.map Prod.fst ++ roots.rootSlots ++ roots.classInfoSlots

/-- What the visits to the slots rely on: none is visited twice, all are outside the area, and the
class infos that are skipped at first are those of the classes in the class lists. -/
structure Registered (roots : Roots) (mem : ℤ → ℤ) (lo hi : ℤ) : Prop where
  nodup : (roots.heapSlots.map Prod.fst ++ roots.rootSlots).Nodup
  classInfo_nodup : roots.classInfoSlots.Nodup
  outside : ∀ p ∈ roots.slots, p < lo ∨ hi ≤ p
  listed : ∀ p, (p, true) ∈ roots.heapSlots → roots.isClassInfo (mem p) = true →
    p ∈ roots.classInfoSlots
  classInfo : ∀ p ∈ roots.classInfoSlots, roots.isClassInfo (mem p) = true ∧
    (p, false) ∉ roots.heapSlots ∧ p ∉ roots.rootSlots

section Registered

variable {roots : Roots} {m : Moving} {mem mem' : ℤ → ℤ} {lo hi lo' hi' p a : ℤ}

/-- The slots are still registered when only the area has changed, or when it is smaller. -/
theorem Registered.congr (h : Registered roots mem lo hi) (hlo : lo ≤ lo') (hhi : hi' ≤ hi)
    (hmem : ∀ a, a < lo ∨ hi ≤ a → mem' a = mem a) : Registered roots mem' lo' hi' := by
  have hslot : ∀ p ∈ roots.slots, mem' p = mem p := fun p hp => hmem p (h.outside p hp)
  refine ⟨h.nodup, h.classInfo_nodup, fun p hp => ?_, fun p hp hinfo => ?_, fun p hp => ?_⟩
  · have hout := h.outside p hp
    omega
  · have hmem : p ∈ roots.slots :=
      List.mem_append_left _ (List.mem_append_left _ (List.mem_map_of_mem hp))
    rw [hslot p hmem] at hinfo
    exact h.listed p hp hinfo
  · rw [hslot p (List.mem_append_right _ hp)]
    exact h.classInfo p hp

theorem foldl_heapSlots (hnodup : (roots.heapSlots.map Prod.fst).Nodup) (a : ℤ) :
    roots.heapSlots.foldl (fun mem slot =>
      if slot.2 then updatePointerInInstanceClass roots m mem slot.1
      else updatePointer m mem slot.1) mem a =
      if a ∈ roots.heapSlots.map Prod.fst then
        if (a, true) ∈ roots.heapSlots ∧ roots.isClassInfo (mem a) = true then mem a
        else reloc m (mem a)
      else mem a := by
  have hfold := foldl_modifyAt (fun a v =>
    if (a, true) ∈ roots.heapSlots ∧ roots.isClassInfo v = true then v else reloc m v) mem hnodup a
  rw [← hfold, List.foldl_map]
  refine congrFun (List.foldl_ext _ _ mem ?_) a
  rintro mem ⟨p, inClass⟩ hp
  have hclass : (p, true) ∈ roots.heapSlots ↔ inClass = true := by
    constructor
    · intro htrue
      have hinj := List.inj_on_of_nodup_map hnodup htrue hp rfl
      exact (Prod.ext_iff.mp hinj).2.symm
    · rintro rfl
      exact hp
  cases inClass with
  | false =>
    have hfalse : ¬((p, true) ∈ roots.heapSlots ∧ roots.isClassInfo (mem p) = true) :=
      fun hand => Bool.false_ne_true (hclass.mp hand.1)
    rw [if_neg Bool.false_ne_true, updatePointer_eq, modifyAt, modifyAt, if_neg hfalse]
  | true =>
    simp only [updatePointerInInstanceClass, modifyAt, hp, true_and, if_true, reloc]
    by_cases hinfo : roots.isClassInfo (mem p) = true
    · rw [if_pos hinfo, hinfo, Bool.not_true, Bool.and_false, if_neg Bool.false_ne_true,
        Function.update_eq_self]
    · rw [if_neg hinfo, Bool.eq_false_iff.mpr hinfo, Bool.not_false, Bool.and_true]
      split
      · rfl
      · exact (Function.update_eq_self p mem).symm

/-- **Spec lemma.** The first visit updates all slots but those of the class lists. -/
theorem updateRoots_apply (h : Registered roots mem lo hi) (a : ℤ) : updateRoots roots m mem a =
      if a ∈ roots.slots ∧ a ∉ roots.classInfoSlots then reloc m (mem a) else mem a := by
  obtain ⟨hheap, hroot, hdisjoint⟩ := List.nodup_append.mp h.nodup
  have hheapSlots := @foldl_heapSlots roots m mem hheap a
  unfold updateRoots
  rw [updatePointer_eq] at hheapSlots ⊢
  rw [foldl_modifyAt (fun _ => reloc m) _ hroot a, hheapSlots]
  by_cases hr : a ∈ roots.rootSlots
  · have hnotHeap : a ∉ roots.heapSlots.map Prod.fst := fun ha => hdisjoint a ha a hr rfl
    have hnotInfo : a ∉ roots.classInfoSlots := fun ha => (h.classInfo a ha).2.2 hr
    have hslot : a ∈ roots.slots := List.mem_append_left _ (List.mem_append_right _ hr)
    rw [if_pos hr, if_neg hnotHeap, if_pos ⟨hslot, hnotInfo⟩]
  · rw [if_neg hr]
    by_cases hh : a ∈ roots.heapSlots.map Prod.fst
    · have hslot : a ∈ roots.slots := List.mem_append_left _ (List.mem_append_left _ hh)
      rw [if_pos hh]
      by_cases hinfo : a ∈ roots.classInfoSlots
      · have hskip : (a, true) ∈ roots.heapSlots := by
          obtain ⟨⟨p, inClass⟩, hp, rfl⟩ := List.mem_map.mp hh
          cases inClass with
          | false => exact absurd hp (h.classInfo p hinfo).2.1
          | true => exact hp
        rw [if_pos ⟨hskip, (h.classInfo a hinfo).1⟩, if_neg fun hand => hand.2 hinfo]
      · rw [if_neg fun hand => hinfo (h.listed a hand.1 hand.2), if_pos ⟨hslot, hinfo⟩]
    · have hiff : a ∉ roots.slots ∨ a ∈ roots.classInfoSlots := by
        by_contra hnot
        push Not at hnot
        obtain hmem | hinfo := List.mem_append.mp hnot.1
        · exact (List.mem_append.mp hmem).elim hh hr
        · exact hnot.2 hinfo
      rw [if_neg hh, if_neg fun hand => hiff.elim (fun hnot => hnot hand.1) hand.2]

theorem updateClassInfoPointers_apply (h : Registered roots mem' lo hi) (a : ℤ) :
    updateClassInfoPointers roots m mem a =
      if a ∈ roots.classInfoSlots then reloc m (mem a) else mem a := by
  unfold updateClassInfoPointers
  rw [updatePointer_eq]
  exact foldl_modifyAt (fun _ => reloc m) mem h.classInfo_nodup a

end Registered

/-! ## The table is compacted -/

section CompactTable

variable {k : ℕ} {L D O : ℕ → ℤ} {roots : Roots} {table : ℕ → ℤ} {s : State} {e : ℤ}

/-- The state after the intervals have been moved and the pointers updated. -/
structure Slides (k : ℕ) (L D O : ℕ → ℤ) (roots : Roots) (m : Moving) (s s' : State) : Prop where
  bottom : s'.bottom = L 0 + O 0
  words : ∀ i < k, ∀ a, L i ≤ a → a < D i → s'.mem (a + O i) =
    if L i < a ∧ bit s.bits a = true then reloc m (s.mem a) else s.mem a
  bits : ∀ i < k, ∀ a, L i < a → a ≤ D i → bit s'.bits (a + O i) = bit s.bits a
  mem_frame : ∀ a, a < L 0 ∨ L k ≤ a → a ∉ roots.slots → s'.mem a = s.mem a
  bits_frame : ∀ a, a ≤ L 0 ∨ L k < a → bit s'.bits a = bit s.bits a
  slots : ∀ p ∈ roots.slots, s'.mem p = reloc m (s.mem p)

/-- **Spec lemma.** What `compact(table_beg, table_end)` does. -/
theorem compactTable_slides (h : Alternating k L D O) (hk : 0 < k) (htable : IsTable table k L D)
    (hroots : Registered roots s.mem (L 0) (L k)) (hbottom : s.bottom = L 0) :
    Slides k L D O roots (setup (L 0) table (2 * k + 1)) s
      (compactTable roots table (2 * k + 1) s) := by
  have hsetup := setup_isSetup h hk htable
  unfold compactTable
  simp only [hbottom]
  rw [show 2 * k + 1 - 2 = 2 * k - 1 by omega]
  generalize setup (L 0) table (2 * k + 1) = m at hsetup ⊢
  obtain ⟨hdelta, hslid⟩ :=
    moves_slid h hk hsetup.table ⟨updateRoots roots m s.mem, s.bits, L 0⟩
  generalize forPairs (moveStep m) (2 * k - 1)
    (0, ⟨updateRoots roots m s.mem, s.bits, L 0⟩) = t at hdelta hslid ⊢
  -- A word of the area is no slot.
  have harea : ∀ a, L 0 ≤ a → a < L k → a ∉ roots.slots := fun a hal hah hmem => by
    have hout := hroots.outside a hmem
    omega
  have hinfo : ∀ a, a ∉ roots.slots → a ∉ roots.classInfoSlots := fun a ha hmem =>
    ha (List.mem_append_right _ hmem)
  have hfirst : ∀ a, a ∉ roots.slots → updateRoots roots m s.mem a = s.mem a := fun a ha => by
    rw [updateRoots_apply hroots, if_neg fun hand => ha hand.1]
  have hlast : ∀ a, a ∉ roots.slots → updateClassInfoPointers roots m t.2.mem a = t.2.mem a :=
    fun a ha => by rw [updateClassInfoPointers_apply hroots, if_neg (hinfo a ha)]
  refine ⟨?_, fun i hi a hal hah => ?_, fun i hi a hal hah => hslid.bits i i.zero_le hi a hal hah,
    fun a ha hslot => ?_, hslid.bits_frame, fun p hp => ?_⟩
  · show t.2.bottom + t.1 = L 0 + O 0
    rw [hslid.bottom, hdelta]
  · have hfrom := h.le_of_le i.zero_le hi.le
    have hend := h.place_end hi
    have hto := h.place_le (show i + 1 ≤ k from hi) le_rfl
    have hup := h.offset_nonneg hi.le
    have hdead := h.dead_le hi le_rfl
    have hzero := h.last
    have hwords := hslid.words i i.zero_le hi a hal hah
    simp only [hfirst a (harea a (by omega) (by omega))] at hwords
    exact (hlast _ (harea _ (by omega) (by omega))).trans hwords
  · exact ((hlast a hslot).trans (hslid.mem_frame a ha)).trans (hfirst a hslot)
  · have hmem : t.2.mem p = updateRoots roots m s.mem p :=
      hslid.mem_frame p (hroots.outside p hp)
    refine (updateClassInfoPointers_apply hroots p).trans ?_
    rw [hmem, updateRoots_apply hroots]
    by_cases hclass : p ∈ roots.classInfoSlots
    · rw [if_pos hclass, if_neg fun hand => hand.2 hclass]
    · rw [if_neg hclass, if_pos ⟨hp, hclass⟩]

end CompactTable

end CldcVm.Memory.LargeObject
