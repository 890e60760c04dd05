import CldcVm.Lib.Tiling
import CldcVm.Malloc.Pool

/-!
# The blocks of the pool

The headers tile the pool, and the operations on headers rearrange the tiles.

Results: `coalesce_spec`, `splitBlock_spec`, `useBlock_spec`, `findSlot_spec`: what is in
the pool after a search: the used blocks and their contents, and the new one.
-/

namespace CldcVm.Malloc

open Lib

/-- What a header says of its block. -/
structure Block where
  free : Bool
  size : ℕ
deriving DecidableEq, Repr

/-- The length of a block with its header. -/
def Block.length (b : Block) : ℕ := b.size + headerSize

theorem Block.length_pos (b : Block) : 0 < b.length := Nat.succ_pos _

@[simp] theorem Block.length_mk (free : Bool) (size : ℕ) :
    (⟨free, size⟩ : Block).length = size + headerSize := rfl

/-- There is a valid header of the block at `p`. -/
structure HeaderAt (m : Memory) (p : ℕ) (b : Block) : Prop where
  magic : magicAt m p = magicNumber
  free : freeAt m p = if b.free then 1 else 0
  size : sizeAt m p = b.size

/-- The blocks are at `p`, one after the other, up to `e`. -/
abbrev BlocksAt (m : Memory) (p : ℕ) (bs : List Block) (e : ℕ) : Prop :=
  Tiles Block.length (HeaderAt m) p bs e

/-- There is a used block of `n` bytes with its header at `q`. -/
def Used (p : ℕ) (bs : List Block) (q n : ℕ) : Prop :=
  (q, (⟨false, n⟩ : Block)) ∈ placed Block.length p bs

variable {c : Config} {pool : Pool} {m m' : Memory} {p q n e num size : ℕ} {b : Block}
variable {bs : List Block}

/-! ## Headers -/

theorem HeaderAt.congr (h : HeaderAt m p b)
    (heq : ∀ a, p ≤ a → a < p + headerSize → m' a = m a) : HeaderAt m' p b := by
  have hheader : headerSize = 8 := rfl
  refine ⟨?_, ?_, ?_⟩
  · rw [← h.magic]
    exact readWord_congr fun i hi => heq _ (by omega) (by omega)
  · rw [← h.free]
    exact heq _ (by omega) (by omega)
  · rw [← h.size]
    exact readWord_congr fun i hi => heq _ (by omega) (by omega)

theorem BlocksAt.congr (h : BlocksAt m p bs e) (heq : ∀ q b, (q, b) ∈ placed Block.length p bs →
      ∀ a, q ≤ a → a < q + headerSize → m' a = m a) : BlocksAt m' p bs e :=
  Tiles.congr h fun q b hmem hat => hat.congr (heq q b hmem)

/-- The blocks are still there if nothing has changed from `p` on. -/
theorem BlocksAt.congr_of_le (h : BlocksAt m p bs e) (heq : ∀ a, p ≤ a → m' a = m a) :
    BlocksAt m' p bs e :=
  h.congr fun _ _ hmem a ha _ => heq a ((le_of_mem_placed hmem).trans ha)

theorem BlocksAt.le (h : BlocksAt m p bs e) : p ≤ e := by
  rw [Tiles.end_eq h]
  exact Nat.le_add_right _ _

theorem setFree_of_ne {free : Byte} {a : ℕ} (h : a ≠ p + 2) : setFree m p free a = m a :=
  Function.update_of_ne h _ _

theorem HeaderAt.setSize (h : HeaderAt m p b) (hsize : size < 2 ^ 32) :
    HeaderAt (setSize m p size) p ⟨b.free, size⟩ := by
  refine ⟨?_, ?_, readWord_writeWord hsize⟩
  · rw [← h.magic]
    exact readWord_congr fun i hi => writeWord_of_lt (by omega)
  · rw [← h.free]
    exact writeWord_of_lt (by omega)

theorem HeaderAt.setFree (h : HeaderAt m p b) (free : Bool) :
    HeaderAt (setFree m p (if free then 1 else 0)) p ⟨free, b.size⟩ := by
  refine ⟨?_, Function.update_self _ _ _, ?_⟩
  · rw [← h.magic]
    exact readWord_congr fun i hi => setFree_of_ne (by omega)
  · rw [← h.size]
    exact readWord_congr fun i hi => setFree_of_ne (by omega)

theorem headerAt_new (m : Memory) (p : ℕ) (hsize : size < 2 ^ 32) :
    HeaderAt (setSize (Malloc.setFree (setMagic m p) p 1) p size) p ⟨true, size⟩ := by
  refine ⟨?_, ?_, readWord_writeWord hsize⟩
  · have hmagic : magicAt (setMagic m p) p = magicNumber := readWord_writeWord (by decide)
    rw [← hmagic]
    refine readWord_congr fun i hi => ?_
    rw [Malloc.setSize, writeWord_of_lt (by omega), setFree_of_ne (by omega)]
  · rw [freeAt, Malloc.setSize, writeWord_of_lt (by omega)]
    exact Function.update_self _ _ _

theorem newHeader_of_not_mem {a : ℕ} (h : a < p ∨ p + headerSize ≤ a) :
    setSize (setFree (setMagic m p) p 1) p size a = m a := by
  have hheader : headerSize = 8 := rfl
  rcases h with h | h
  · rw [setSize, writeWord_of_lt (by omega), setFree_of_ne (by omega), setMagic,
      writeWord_of_lt (by omega)]
  · rw [setSize, writeWord_of_ge (by omega), setFree_of_ne (by omega), setMagic,
      writeWord_of_ge (by omega)]

theorem setSize_of_not_mem {a : ℕ} (h : a < p + 4 ∨ p + headerSize ≤ a) :
    setSize m p size a = m a := by
  have hheader : headerSize = 8 := rfl
  exact h.elim writeWord_of_lt fun h => writeWord_of_ge (by omega)

/-! ## Coalescing -/

theorem used_cons : Used p (b :: bs) q n ↔
    (q = p ∧ b = ⟨false, n⟩) ∨ Used (p + b.length) bs q n := by
  rw [Used, placed, List.mem_cons, Prod.mk.injEq, eq_comm (b := b)]
  rfl

theorem used_cons_free : Used p (⟨true, size⟩ :: bs) q n ↔ Used (p + (size + headerSize)) bs q n := by
  refine ⟨fun h => ?_, List.mem_cons_of_mem _⟩
  rcases List.mem_cons.mp h with heq | hmem
  · cases heq
  · exact hmem

theorem used_cons_used : Used p (⟨false, size⟩ :: bs) q n ↔
    (q = p ∧ n = size) ∨ Used (p + (size + headerSize)) bs q n := by
  rw [Used, placed, List.mem_cons, Prod.mk.injEq, Block.mk.injEq, eq_self, true_and]
  rfl

/-- The bytes, with the headers, of the free blocks from `p` on up to the first used one. The
allocator does not look at a header that is not before `JvmMemoryEnd`. -/
def freeRun (pool : Pool) : (p : ℕ) → List Block → ℕ
  | _, [] => 0
  | p, b :: bs => if p < pool.last ∧ b.free = true then b.length + freeRun pool (p + b.length) bs else 0

/-- Somewhere there is a run of free blocks that makes a block of `num` bytes. -/
def Room (pool : Pool) (num : ℕ) : (p : ℕ) → List Block → Prop
  | _, [] => False
  | p, b :: bs => num + headerSize ≤ freeRun pool p (b :: bs) ∨ Room pool num (p + b.length) bs

theorem freeRun_merge {size₁ : ℕ} (hlast : p < pool.last)
    (hnext : p + (size + headerSize) < pool.last) :
    freeRun pool p (⟨true, size⟩ :: ⟨true, size₁⟩ :: bs) =
      freeRun pool p (⟨true, size + (size₁ + headerSize)⟩ :: bs) := by
  have hplace : p + (size + headerSize) + (size₁ + headerSize) =
      p + (size + (size₁ + headerSize) + headerSize) := by omega
  simp only [freeRun, Block.length_mk, hlast, hnext, and_self, if_true, hplace]
  omega

theorem room_merge {size₁ : ℕ} (hlast : p < pool.last)
    (hnext : p + (size + headerSize) < pool.last) :
    Room pool num p (⟨true, size + (size₁ + headerSize)⟩ :: bs) ↔
      Room pool num p (⟨true, size⟩ :: ⟨true, size₁⟩ :: bs) := by
  have hplace : p + (size + headerSize) + (size₁ + headerSize) =
      p + (size + (size₁ + headerSize) + headerSize) := by omega
  have hmerge : freeRun pool p (⟨true, size⟩ :: ⟨true, size₁⟩ :: bs) =
      freeRun pool p (⟨true, size + (size₁ + headerSize)⟩ :: bs) := freeRun_merge hlast hnext
  -- the run from the second block on is a part of the run from the first one on
  have hshorter : freeRun pool (p + (size + headerSize)) (⟨true, size₁⟩ :: bs) ≤
      freeRun pool p (⟨true, size⟩ :: ⟨true, size₁⟩ :: bs) := by
    have hrun : freeRun pool p (⟨true, size⟩ :: ⟨true, size₁⟩ :: bs) =
        size + headerSize + freeRun pool (p + (size + headerSize)) (⟨true, size₁⟩ :: bs) :=
      if_pos ⟨hlast, rfl⟩
    omega
  rw [Room, Room, Room, Block.length_mk, Block.length_mk, Block.length_mk, hplace, ← hmerge]
  constructor
  · rintro (h | h)
    · exact .inl h
    · exact .inr (.inr h)
  · rintro (h | h | h)
    · exact .inl h
    · exact .inl (h.trans hshorter)
    · exact .inr h

/-- **Run lemma**: the free blocks after a free block become a part of it. -/
theorem coalesce_spec (hmemory : pool.memory ≤ p) (h : BlocksAt m p (b :: bs) pool.limit)
    (fuel : ℕ) (hfuel : bs.length < fuel) :
    ∃ m' b' bs', coalesce pool fuel m p = some m' ∧ BlocksAt m' p (b' :: bs') pool.limit ∧
      b'.free = b.free ∧ bs'.length ≤ bs.length ∧
      (∀ q n, Used p (b' :: bs') q n ↔ Used p (b :: bs) q n) ∧
      (∀ a, a < p + 4 ∨ p + headerSize ≤ a → m' a = m a) ∧
      (p < pool.last → (∀ num, Room pool num p (b' :: bs') ↔ Room pool num p (b :: bs)) ∧
        freeRun pool p (b' :: bs') = if b'.free then b'.length else 0) := by
  induction fuel generalizing m b bs with
  | zero => exact absurd hfuel (Nat.not_lt_zero _)
  | succ fuel ih =>
    have hstay (hrun : p < pool.last → freeRun pool p (b :: bs) = if b.free then b.length else 0) :
        ∃ m' b' bs', some m = some m' ∧ BlocksAt m' p (b' :: bs') pool.limit ∧
        b'.free = b.free ∧ bs'.length ≤ bs.length ∧
        (∀ q n, Used p (b' :: bs') q n ↔ Used p (b :: bs) q n) ∧
        (∀ a, a < p + 4 ∨ p + headerSize ≤ a → m' a = m a) ∧
        (p < pool.last → (∀ num, Room pool num p (b' :: bs') ↔ Room pool num p (b :: bs)) ∧
          freeRun pool p (b' :: bs') = if b'.free then b'.length else 0) :=
      ⟨m, b, bs, rfl, h, rfl, le_rfl, fun _ _ => Iff.rfl, fun _ _ => rfl,
        fun hlast => ⟨fun _ => Iff.rfl, hrun hlast⟩⟩
    obtain ⟨hheader, hrest⟩ := h
    have hplace : nextAt m p = p + b.length := by
      rw [nextAt, hheader.size]
      rfl
    unfold coalesce
    split_ifs with hfree hnext
    · rw [hplace] at hnext
      obtain ⟨hlast, hfree', -⟩ := hnext
      cases bs with
      | nil =>
        have hend : p + b.length = pool.limit := hrest
        rw [hend, Pool.last, Pool.limit] at hlast
        omega
      | cons b₁ bs =>
        obtain ⟨hheader₁, hrest₁⟩ := hrest
        have hb : b.free = true := by
          by_contra hb
          rw [hheader.free, if_neg hb] at hfree
          cases hfree
        have hb₁ : b₁.free = true := by
          by_contra hb₁
          rw [hheader₁.free, if_neg hb₁] at hfree'
          cases hfree'
        obtain ⟨free, size⟩ := b
        obtain ⟨free₁, size₁⟩ := b₁
        subst hb hb₁
        have hsize : sizeAt m p + (sizeAt m (p + Block.length ⟨true, size⟩) + headerSize) =
            size + (size₁ + headerSize) := by rw [hheader.size, hheader₁.size]
        have hnext : p + Block.length ⟨true, size⟩ + Block.length ⟨true, size₁⟩ =
            p + Block.length ⟨true, size + (size₁ + headerSize)⟩ := by
          rw [Block.length_mk, Block.length_mk, Block.length_mk]
          omega
        have hbound : size + (size₁ + headerSize) < 2 ^ 32 := by
          have hle := BlocksAt.le hrest₁
          have hlt := pool.size_lt
          rw [Block.length_mk, Block.length_mk, Pool.limit] at hle
          omega
        rw [hplace, hsize]
        have hmerged : BlocksAt (setSize m p (size + (size₁ + headerSize))) p
            (⟨true, size + (size₁ + headerSize)⟩ :: bs) pool.limit := by
          refine ⟨hheader.setSize hbound, ?_⟩
          rw [hnext] at hrest₁
          refine BlocksAt.congr_of_le hrest₁ fun a ha => setSize_of_not_mem (.inr ?_)
          rw [Block.length_mk] at ha
          omega
        obtain ⟨m', b', bs', hrun, hblocks, hfree, hlength, hused, hsame, hroom⟩ :=
          ih hmerged (Nat.lt_of_succ_lt_succ hfuel)
        refine ⟨m', b', bs', hrun, hblocks, hfree, hlength.trans (Nat.le_succ _), fun q n => ?_,
          fun a ha => (hsame a ha).trans (setSize_of_not_mem ha), fun hp => ?_⟩
        · rw [hused, used_cons_free, used_cons_free, used_cons_free]
          rw [Block.length_mk, Block.length_mk, Block.length_mk] at hnext
          rw [← hnext]
        · obtain ⟨hrooms, hrun⟩ := hroom hp
          exact ⟨fun num => (hrooms num).trans (room_merge hp hlast), hrun⟩
    · -- the next block is used, or its header is not looked at
      refine hstay fun hlast => ?_
      have hb : b.free = true := by
        by_contra hb
        rw [hheader.free, if_neg hb] at hfree
        cases hfree
      have hnone : freeRun pool (p + b.length) bs = 0 := by
        cases bs with
        | nil => rfl
        | cons b₁ bs =>
          rw [freeRun, if_neg]
          rintro ⟨hlast₁, hfree₁⟩
          rw [hplace] at hnext
          refine hnext ⟨hlast₁, ?_, hrest.1.magic⟩
          rw [hrest.1.free, if_pos hfree₁]
      rw [freeRun, if_pos ⟨hlast, hb⟩, if_pos hb, hnone, add_zero]
    · refine hstay fun _ => ?_
      have hb : ¬b.free = true := fun hb => hfree (by rw [hheader.free, if_pos hb])
      rw [freeRun, if_neg fun h => hb h.2, if_neg hb]

/-! ## Allocation -/

theorem splitBlock_spec {free : Bool} (h : BlocksAt m p (⟨free, size⟩ :: bs) e)
    (hnum : num + headerSize + 4 < size) (hsize : size < 2 ^ 32) :
    BlocksAt (splitBlock m p num) p (⟨free, num⟩ :: ⟨true, size - num - headerSize⟩ :: bs) e ∧
      ∀ a, a < p + 4 ∨ p + headerSize ≤ a ∧ a < p + num + headerSize ∨
        p + size + headerSize ≤ a → splitBlock m p num a = m a := by
  have hheader : headerSize = 8 := rfl
  obtain ⟨hat, hrest⟩ := h
  have hsame : ∀ a, a < p + 4 ∨ p + headerSize ≤ a ∧ a < p + num + headerSize ∨
      p + size + headerSize ≤ a → splitBlock m p num a = m a := by
    intro a ha
    rw [splitBlock, setSize_of_not_mem (by omega), newHeader_of_not_mem (by omega)]
  refine ⟨⟨?_, ?_, ?_⟩, hsame⟩
  · -- the header of the block, which is shorter now
    refine HeaderAt.setSize (b := ⟨free, size⟩) (hat.congr fun a ha ha' => ?_) (by omega)
    exact newHeader_of_not_mem (by omega)
  · rw [Block.length_mk, ← add_assoc]
    refine HeaderAt.congr (headerAt_new m _ ?_) fun a ha ha' => ?_
    · omega
    · rw [splitBlock, hat.size]
      exact setSize_of_not_mem (by omega)
  · have hplace : p + Block.length ⟨free, num⟩ + Block.length ⟨true, size - num - headerSize⟩ =
        p + Block.length ⟨free, size⟩ := by
      rw [Block.length_mk, Block.length_mk, Block.length_mk]
      omega
    rw [hplace]
    refine BlocksAt.congr_of_le hrest fun a ha => hsame a ?_
    rw [Block.length_mk] at ha
    omega

theorem useBlock_spec {free : Bool} {n : ℕ} (h : BlocksAt m p (⟨free, n⟩ :: bs) e)
    (hsize : size ≤ n) (htag : c.tag = true → 4 ≤ n) :
    BlocksAt (useBlock c m p size) p (⟨false, n⟩ :: bs) e ∧
      ∀ a, a < p ∨ p + headerSize + n ≤ a → useBlock c m p size a = m a := by
  have hheader : headerSize = 8 := rfl
  obtain ⟨hat, hrest⟩ := h
  have hused : HeaderAt (setFree m p 0) p ⟨false, n⟩ := hat.setFree false
  have hsize' : sizeAt (setFree m p 0) p = n := hused.size
  -- the guard and the pattern are written into the payload
  have hpayload : ∀ a, a < p + headerSize ∨ p + headerSize + n ≤ a →
      useBlock c m p size a = setFree m p 0 a := by
    intro a ha
    have hguard : c.tag = true → tagBlock (setFree m p 0) p a = setFree m p 0 a := by
      intro ht
      have hn := htag ht
      rw [tagBlock, hsize']
      rcases ha with ha | ha
      · exact write_of_lt (by omega)
      · exact write_of_ge (by rw [show [(0x01 : Byte), 0xcd, 0x02, 0xef].length = 4 from rfl]; omega)
    have htagged : (if c.tag = true then tagBlock (setFree m p 0) p else setFree m p 0) a =
        setFree m p 0 a := by
      split_ifs with ht
      · exact hguard ht
      · rfl
    show (if c.trash = true then
      memset (if c.tag = true then tagBlock (setFree m p 0) p else setFree m p 0) (p + headerSize)
        0xab size else if c.tag = true then tagBlock (setFree m p 0) p else setFree m p 0) a = _
    by_cases htrash : c.trash = true
    · rw [if_pos htrash, memset_apply, if_neg (by omega)]
      exact htagged
    · rw [if_neg htrash]
      exact htagged
  have hsame : ∀ a, a < p ∨ p + headerSize + n ≤ a → useBlock c m p size a = m a := by
    intro a ha
    rw [hpayload a (by omega), setFree_of_ne (by omega)]
  refine ⟨⟨hused.congr fun a _ ha => hpayload a (.inl ha), ?_⟩, hsame⟩
  refine BlocksAt.congr_of_le hrest fun a ha => hsame a ?_
  rw [Block.length_mk] at ha
  omega

/-- What happens to the blocks from `p` on: used blocks keep their contents. -/
structure Preserves (p e : ℕ) (m m' : Memory) (bs bs' : List Block) : Prop where
  blocks : BlocksAt m' p bs' e
  below : ∀ a < p, m' a = m a
  payload : ∀ q n, Used p bs q n → ∀ a, q + headerSize ≤ a → a < q + headerSize + n → m' a = m a

/-- A block of `n` bytes with its header at `h` has been added to the used ones. -/
def Adds (p : ℕ) (bs bs' : List Block) (h n : ℕ) : Prop :=
  (∀ q k, Used p bs' q k ↔ (q = h ∧ k = n) ∨ Used p bs q k) ∧ ∀ k, ¬Used p bs h k

theorem Used.le (h : Used p bs q n) : p ≤ q := le_of_mem_placed h

theorem Used.add_le (h : Used p bs q n) (hblocks : BlocksAt m p bs e) : q + headerSize + n ≤ e := by
  have hle := add_length_le_of_mem_placed h
  rw [← Tiles.end_eq hblocks, Block.length_mk] at hle
  omega

/-- **Step lemma**: a free block that is large enough becomes a used one. -/
theorem allocateBlock_spec {n : ℕ} (h : BlocksAt m p (⟨true, n⟩ :: bs) e) (hn : n < 2 ^ 32)
    (hnum : num ≤ n) (hsize : size + c.guardSize = num) :
    ∃ bs' k, num ≤ k ∧ Preserves p e m (allocateBlock c m p num size) (⟨true, n⟩ :: bs) bs' ∧
      Adds p (⟨true, n⟩ :: bs) bs' p k := by
  have hheader : headerSize = 8 := rfl
  have hguard : c.tag = true → 4 ≤ num := by
    intro ht
    rw [← hsize, Config.guardSize, if_pos ht]
    exact Nat.le_add_left _ _
  have hfresh : ∀ k, ¬Used p (⟨true, n⟩ :: bs) p k := by
    intro k hused
    have hle := (used_cons_free.mp hused).le
    omega
  -- only the block itself changes
  have hpayload : ∀ {m' : Memory}, (∀ a, a < p ∨ p + headerSize + n ≤ a → m' a = m a) →
      ∀ q k, Used p (⟨true, n⟩ :: bs) q k → ∀ a, q + headerSize ≤ a → a < q + headerSize + k →
      m' a = m a := by
    intro m' hsame q k hused a ha _
    have hle := (used_cons_free.mp hused).le
    exact hsame a (.inr (by omega))
  unfold allocateBlock
  rw [h.1.size]
  split_ifs with hsplit
  · change num + headerSize + 4 < n at hsplit
    obtain ⟨hblocks, hsame⟩ := splitBlock_spec h hsplit hn
    have hle : size ≤ num := Nat.le.intro hsize
    obtain ⟨hblocks', hsame'⟩ := useBlock_spec (c := c) hblocks hle hguard
    have hall : ∀ a, a < p ∨ p + headerSize + n ≤ a →
        useBlock c (splitBlock m p num) p size a = m a := by
      intro a ha
      rw [hsame' a (by omega), hsame a (by omega)]
    refine ⟨_, num, le_rfl, ⟨hblocks', fun a ha => hall a (.inl ha), hpayload hall⟩,
      fun q k => ?_, hfresh⟩
    rw [used_cons_used, used_cons_free, used_cons_free]
    have hplace : p + (num + headerSize) + (n - num - headerSize + headerSize) =
        p + (n + headerSize) := by omega
    rw [hplace]
  · have husable : (n + 2 ^ 32 - c.guardSize) % 2 ^ 32 ≤ n := by
      have hle : c.guardSize ≤ n := by omega
      rw [show n + 2 ^ 32 - c.guardSize = n - c.guardSize + 2 ^ 32 by omega, Nat.add_mod_right,
        Nat.mod_eq_of_lt (by omega)]
      omega
    obtain ⟨hblocks', hsame'⟩ := useBlock_spec (c := c) h husable fun ht => (hguard ht).trans hnum
    refine ⟨_, n, hnum, ⟨hblocks', fun a ha => hsame' a (.inl ha), hpayload hsame'⟩,
      fun q k => ?_, hfresh⟩
    rw [used_cons_used, used_cons_free]

/-- What the search for a slot gives: nothing, or a new used block of `num` bytes at least. -/
structure Finds (p num : ℕ) (bs bs' : List Block) (ptr : ℕ) : Prop where
  null : ptr = 0 → ∀ q n, Used p bs' q n ↔ Used p bs q n
  slot : ptr ≠ 0 → ∃ h n, ptr = h + headerSize ∧ num ≤ n ∧ Adds p bs bs' h n

theorem Preserves.refl (h : BlocksAt m p bs e) : Preserves p e m m bs bs :=
  ⟨h, fun _ _ => rfl, fun _ _ _ _ _ _ => rfl⟩

theorem Preserves.cons {bs' : List Block} (hat : HeaderAt m p b)
    (h : Preserves (p + b.length) e m m' bs bs') : Preserves p e m m' (b :: bs) (b :: bs') := by
  obtain ⟨hblocks, hbelow, hpayload⟩ := h
  have hlength : b.length = b.size + headerSize := rfl
  refine ⟨⟨hat.congr fun a _ ha => hbelow a (by omega), hblocks⟩,
    fun a ha => hbelow a (by omega), fun q n hused a ha ha' => ?_⟩
  rcases List.mem_cons.mp hused with heq | hmem
  · cases heq
    rw [Block.length_mk] at hbelow
    exact hbelow a (by omega)
  · exact hpayload q n hmem a ha ha'

theorem Preserves.trans {m₁ : Memory} {bs₁ bs' : List Block} (h : Preserves p e m m₁ bs bs₁)
    (h' : Preserves p e m₁ m' bs₁ bs') (hused : ∀ q n, Used p bs q n → Used p bs₁ q n) :
    Preserves p e m m' bs bs' :=
  ⟨h'.blocks, fun a ha => (h'.below a ha).trans (h.below a ha), fun q n hq a ha ha' =>
    (h'.payload q n (hused q n hq) a ha ha').trans (h.payload q n hq a ha ha')⟩

theorem Finds.cons {bs' : List Block} {ptr : ℕ} (h : Finds (p + b.length) num bs bs' ptr) :
    Finds p num (b :: bs) (b :: bs') ptr := by
  refine ⟨fun hnull q n => ?_, fun hslot => ?_⟩
  · rw [used_cons, used_cons, h.null hnull]
  · obtain ⟨h₀, n, hptr, hnum, hadds, hfresh⟩ := h.slot hslot
    refine ⟨h₀, n, hptr, hnum, fun q k => ?_, fun k hused => ?_⟩
    · rw [used_cons, used_cons, hadds]
      exact or_left_comm
    · rcases used_cons.mp hused with ⟨heq, -⟩ | hused
      · have hle := ((hadds h₀ n).mpr (.inl ⟨rfl, rfl⟩)).le
        have hpos := b.length_pos
        omega
      · exact hfresh k hused

theorem Finds.congr {bs₁ bs' : List Block} {ptr : ℕ} (h : Finds p num bs₁ bs' ptr)
    (hused : ∀ q n, Used p bs₁ q n ↔ Used p bs q n) : Finds p num bs bs' ptr := by
  refine ⟨fun hnull q n => (h.null hnull q n).trans (hused q n), fun hslot => ?_⟩
  obtain ⟨h₀, n, hptr, hnum, hadds, hfresh⟩ := h.slot hslot
  exact ⟨h₀, n, hptr, hnum, fun q k => (hadds q k).trans (or_congr_right (hused q k)),
    fun k hk => hfresh k ((hused h₀ k).mpr hk)⟩

/-- **Run lemma**: the search for a slot. -/
theorem findSlot_spec (hsize : size + c.guardSize = num) (fuel : ℕ) (hmemory : pool.memory ≤ p)
    (h : BlocksAt m p bs pool.limit) (hfuel : bs.length < fuel) :
    ∃ ptr m' bs', findSlot c pool num size fuel m p = some (ptr, m') ∧
      Preserves p pool.limit m m' bs bs' ∧ Finds p num bs bs' ptr := by
  induction fuel generalizing m p bs with
  | zero => exact absurd hfuel (Nat.not_lt_zero _)
  | succ fuel ih =>
    unfold findSlot
    split_ifs with hlast hmagic
    · -- the header is valid
      cases bs with
      | nil =>
        have hend : p = pool.limit := h
        rw [hend, Pool.last, Pool.limit] at hlast
        omega
      | cons b bs => exact (hmagic h.1.magic).elim
    · cases bs with
      | nil =>
        have hend : p = pool.limit := h
        rw [hend, Pool.last, Pool.limit] at hlast
        omega
      | cons b bs =>
        obtain ⟨m₁, b₁, bs₁, hrun, hblocks, hfree, hlength, hused, hsame, -⟩ :=
          coalesce_spec hmemory h fuel (Nat.lt_of_succ_lt_succ hfuel)
        rw [hrun]
        have hcoalesced : Preserves p pool.limit m m₁ (b :: bs) (b₁ :: bs₁) :=
          ⟨hblocks, fun a ha => hsame a (.inl (by omega)), fun q n hq a ha _ =>
            hsame a (.inr (le_trans (Nat.add_le_add_right hq.le _) ha))⟩
        have hused' : ∀ q n, Used p (b :: bs) q n → Used p (b₁ :: bs₁) q n :=
          fun q n => (hused q n).mpr
        obtain ⟨free₁, n₁⟩ := b₁
        have hend := BlocksAt.le hblocks.2
        rw [Block.length_mk, Pool.limit] at hend
        have hlt := pool.size_lt
        simp only
        split_ifs with hfits
        · obtain ⟨hfree₁, hnum⟩ := hfits
          obtain rfl : free₁ = true := by
            by_contra hfree₁'
            rw [hblocks.1.free, if_neg hfree₁'] at hfree₁
            cases hfree₁
          rw [hblocks.1.size] at hnum
          obtain ⟨bs', k, hk, hpreserves, hadds⟩ :=
            allocateBlock_spec hblocks (by omega) hnum hsize
          have hfinds : Finds p num (⟨true, n₁⟩ :: bs₁) bs' (p + headerSize) :=
            ⟨fun hnull => (Nat.succ_ne_zero _ hnull).elim, fun _ => ⟨p, k, rfl, hk, hadds⟩⟩
          exact ⟨_, _, bs', rfl, hcoalesced.trans hpreserves hused', hfinds.congr hused⟩
        · have hnext : nextAt m₁ p = p + Block.length ⟨free₁, n₁⟩ := by
            rw [nextAt, hblocks.1.size]
            rfl
          rw [hnext]
          obtain ⟨ptr, m', bs', hrun', hpreserves, hfinds⟩ :=
            ih (p := p + Block.length ⟨free₁, n₁⟩) (hmemory.trans (Nat.le_add_right _ _)) hblocks.2
              (hlength.trans_lt (Nat.lt_of_succ_lt_succ hfuel))
          exact ⟨ptr, m', _, hrun', hcoalesced.trans (hpreserves.cons hblocks.1) hused',
            hfinds.cons.congr hused⟩
    · exact ⟨0, m, bs, rfl, .refl h, fun _ _ _ => Iff.rfl, fun hne => (hne rfl).elim⟩

end CldcVm.Malloc
