import CldcVm.Malloc.Heap

/-!
# What a request gets

The number of bytes that a caller asks for is a mathematical one: for `calloc` the true
product. What it gets is the payload of a block without the tail guard.

Results:
* `served_iff`: exactly which calls in a reachable heap get what they ask for.
* `not_served_calloc`: a product that wraps around.
-/

namespace CldcVm.Malloc

open Lib

variable {c : Config} {pool : Pool} {m m' : Memory} {p q n e num size ptr : ℕ} {b : Block}
variable {bs bs' : List Block} {s s' : State}

/-! ## Searching without success -/

theorem BlocksAt.unique (h : BlocksAt m p bs e) (h' : BlocksAt m p bs' e) : bs = bs' := by
  induction bs generalizing p bs' with
  | nil =>
    cases bs' with
    | nil => rfl
    | cons b' bs' =>
      have hend : p = e := h
      have hle := BlocksAt.le h'.2
      have hpos := b'.length_pos
      omega
  | cons b bs ih =>
    cases bs' with
    | nil =>
      have hend : p = e := h'
      have hle := BlocksAt.le h.2
      have hpos := b.length_pos
      omega
    | cons b' bs' =>
      obtain ⟨hat, hrest⟩ := h
      obtain ⟨hat', hrest'⟩ := h'
      have hsize : b.size = b'.size := hat.size.symm.trans hat'.size
      have hfree : b.free = b'.free := by
        have hmark := hat.free.symm.trans hat'.free
        cases hb : b.free <;> cases hb' : b'.free <;> simp [hb, hb'] at hmark ⊢
      obtain ⟨free, size⟩ := b
      obtain ⟨free', size'⟩ := b'
      obtain rfl : free = free' := hfree
      obtain rfl : size = size' := hsize
      rw [ih hrest hrest']

/-- The used blocks and their contents are the same. -/
def Unchanged (pool : Pool) (m m' : Memory) (bs : List Block) : Prop :=
  ∃ bs', Preserves pool.start pool.limit m m' bs bs' ∧
    ∀ q n, Used pool.start bs' q n ↔ Used pool.start bs q n

/-- **Run lemma**: the search for a slot of any size gives nothing exactly when there is no room,
and then nothing has happened to the used blocks. -/
theorem findSlot_null_iff (fuel : ℕ) (hmemory : pool.memory ≤ p) (h : BlocksAt m p bs pool.limit)
    (hfuel : bs.length < fuel) :
    ∃ ptr m', findSlot c pool num size fuel m p = some (ptr, m') ∧ (ptr = 0 ↔ ¬Room pool num p bs) ∧
      (ptr = 0 → ∃ bs', Preserves p pool.limit m m' bs bs' ∧ ∀ q n, Used p bs' q n ↔ Used p bs q n) := by
  induction fuel generalizing m p bs with
  | zero => exact absurd hfuel (Nat.not_lt_zero _)
  | succ fuel ih =>
    unfold findSlot
    by_cases hlast : p < pool.last
    · rw [if_pos hlast]
      cases bs with
      | nil =>
        have hend : p = pool.limit := h
        rw [hend, Pool.last, Pool.limit] at hlast
        omega
      | cons b bs =>
        rw [if_neg fun hmagic => hmagic h.1.magic]
        obtain ⟨m₁, b₁, bs₁, hrun, hblocks, -, hlength, hused, hsame, hroom⟩ :=
          coalesce_spec hmemory h fuel (Nat.lt_of_succ_lt_succ hfuel)
        obtain ⟨hrooms, hfreeRun⟩ := hroom hlast
        have hcoalesced : Preserves p pool.limit m m₁ (b :: bs) (b₁ :: bs₁) :=
          ⟨hblocks, fun a ha => hsame a (.inl (by omega)), fun q n hq a ha _ =>
            hsame a (.inr (le_trans (Nat.add_le_add_right hq.le _) ha))⟩
        have hlen : b₁.length = b₁.size + headerSize := rfl
        have hmark : freeAt m₁ p = 1 ↔ b₁.free = true := by
          rw [hblocks.1.free]
          split_ifs with hfree
          · exact iff_of_true rfl hfree
          · exact iff_of_false (by decide) hfree
        rw [hrun]
        simp only
        have htest : (freeAt m₁ p = 1 ∧ num ≤ sizeAt m₁ p) ↔ b₁.free = true ∧ num ≤ b₁.size := by
          rw [hmark, hblocks.1.size]
        by_cases hfits : b₁.free = true ∧ num ≤ b₁.size
        · rw [if_pos (htest.mpr hfits)]
          have hhere : Room pool num p (b :: bs) := by
            rw [← hrooms, Room, hfreeRun, if_pos hfits.1]
            exact .inl (by omega)
          have hne : p + headerSize ≠ 0 := Nat.succ_ne_zero _
          exact ⟨_, _, rfl, iff_of_false hne fun h => h hhere, fun hnull => absurd hnull hne⟩
        · rw [if_neg (mt htest.mp hfits)]
          have hnext : nextAt m₁ p = p + b₁.length := by
            rw [nextAt, hblocks.1.size]
            rfl
          have hlater : Room pool num p (b :: bs) ↔ Room pool num (p + b₁.length) bs₁ := by
            rw [← hrooms, Room, hfreeRun]
            refine or_iff_right fun hhere => hfits ?_
            split_ifs at hhere with hfree
            · exact ⟨hfree, by omega⟩
            · exact absurd hhere (by have hheader : headerSize = 8 := rfl; omega)
          obtain ⟨ptr, m', hrun', hnull, hunchanged⟩ :=
            ih (p := p + b₁.length) (hmemory.trans (Nat.le_add_right _ _)) hblocks.2
              (hlength.trans_lt (Nat.lt_of_succ_lt_succ hfuel))
          rw [hnext, hlater]
          refine ⟨ptr, m', hrun', hnull, fun hptr => ?_⟩
          obtain ⟨bs', hpreserves, husedRest⟩ := hunchanged hptr
          refine ⟨b₁ :: bs', hcoalesced.trans (hpreserves.cons hblocks.1) fun q n => (hused q n).mpr,
            fun q n => ?_⟩
          rw [← hused, used_cons, used_cons, husedRest]
    · rw [if_neg hlast]
      have hnone : ¬Room pool num p bs := by
        clear hfuel ih
        induction bs generalizing p with
        | nil => exact id
        | cons b bs ihbs =>
          have hheader : headerSize = 8 := rfl
          rw [Room, freeRun, if_neg fun h => hlast h.1]
          rintro (hhere | hlater)
          · omega
          · exact ihbs (p := p + b.length) (by omega) h.2 (by omega) hlater
      exact ⟨0, m, rfl, iff_of_true rfl hnone, fun _ => ⟨bs, .refl h, fun _ _ => Iff.rfl⟩⟩

/-- The number of bytes that `malloc` looks for. -/
def sought (c : Config) (size : ℕ) : ℕ := (alignUp size % 2 ^ 32 + c.guardSize) % 2 ^ 32

/-- No run of free blocks has as many bytes as `malloc` looks for. -/
def Roomless (c : Config) (pool : Pool) (m : Memory) (size : ℕ) : Prop :=
  ∃ bs, BlocksAt m pool.start bs pool.limit ∧ ¬Room pool (sought c size) pool.start bs

theorem mallocImpl_null_iff (h : BlocksAt m pool.start bs pool.limit) (size : BitVec 32) :
    ∃ ptr m', mallocImpl c pool m size = some (ptr, m') ∧
      (ptr = 0 ↔ Roomless c pool m size.toNat) ∧ (ptr = 0 → Unchanged pool m m' bs) := by
  obtain ⟨ptr, m', hrun, hnull, hunchanged⟩ :=
    @findSlot_null_iff c pool m pool.start (sought c size.toNat) (alignUp size.toNat % 2 ^ 32) bs
      (pool.size + 1) pool.memory_le_start h h.length_lt
  refine ⟨ptr, m', hrun, hnull.trans ⟨fun hroom => ⟨bs, h, hroom⟩, ?_⟩, hunchanged⟩
  rintro ⟨bs', h', hroom⟩
  rwa [BlocksAt.unique h h']

/-! ## Requests -/

/-- The call asks for bytes. -/
def Call.Requests : Call → Prop
  | malloc _ | calloc _ _ | realloc _ _ => True
  | free _ | store _ _ _ => False

/-- The number of bytes that the call asks for. -/
def Call.requested : Call → ℕ
  | malloc size => size.toNat
  | calloc nelem elsize => nelem.toNat * elsize.toNat
  | realloc _ size => size.toNat
  | free _ | store _ _ _ => 0

/-- The pointer is to a used block of the heap with room for `n` bytes before its tail guard. -/
def PointsTo (c : Config) (pool : Pool) (m : Memory) (ptr n : ℕ) : Prop :=
  ∃ bs q k, BlocksAt m pool.start bs pool.limit ∧ Used pool.start bs q k ∧ ptr = q + headerSize ∧
    n + c.guardSize ≤ k

/-- The call gets what it asks for, or NULL, and then the heap is as it was. -/
def Served (c : Config) (pool : Pool) (s : State) (call : Call) : Prop :=
  ∃ ptr s', exec c pool s call = some (ptr, s') ∧
    (ptr ≠ 0 → PointsTo c pool s'.mem ptr call.requested) ∧
    (ptr = 0 → ∀ bs, BlocksAt s.mem pool.start bs pool.limit → Unchanged pool s.mem s'.mem bs)

/-- The size fits, or what it wraps around to is not there either. -/
def FitsOrRoomless (c : Config) (pool : Pool) (m : Memory) (size : ℕ) : Prop :=
  FitsSize c size ∨ Roomless c pool m (size % 2 ^ 32)

/-- When a call is served. `realloc` to the size of the block gives the block with its guard, and
`realloc` to nothing frees the block unless it is too near to the end of the pool. -/
def Call.Meets (c : Config) (pool : Pool) (s : State) : Call → Prop
  | malloc size => FitsOrRoomless c pool s.mem size.toNat
  | calloc nelem elsize => FitsOrRoomless c pool s.mem (nelem.toNat * elsize.toNat)
  | realloc ptr size =>
    if ptr = 0 then FitsOrRoomless c pool s.mem size.toNat
    else if sizeAt s.mem (ptr - headerSize) = size.toNat then c.tag = false
    else if size = 0 then pool.last < ptr
    else FitsOrRoomless c pool s.mem size.toNat
  | free _ | store _ _ _ => True

theorem Unchanged.refl (h : BlocksAt m pool.start bs pool.limit) : Unchanged pool m m bs :=
  ⟨bs, .refl h, fun _ _ => Iff.rfl⟩

theorem PointsTo.lt (h : PointsTo c pool m ptr n) : n + c.guardSize < 2 ^ 31 := by
  obtain ⟨bs, q, k, hblocks, hused, -, hle⟩ := h
  have hend := hused.add_le hblocks
  have hstart := hused.le
  have hmemory := pool.memory_le_start
  have hlt := pool.size_lt
  unfold Pool.limit at hend
  omega

theorem alignUp_lt (n : ℕ) : alignUp n < n + 4 := by
  unfold alignUp
  omega

theorem not_pointsTo_of_not_fits (hfits : ¬FitsSize c n) : ¬PointsTo c pool m ptr n := by
  intro hpoints
  have hlt := hpoints.lt
  have halign := alignUp_lt n
  unfold FitsSize at hfits
  omega

theorem fitsSize_zero (c : Config) : FitsSize c 0 := by
  unfold FitsSize Config.guardSize
  split_ifs <;> decide

/-- A new used block, with room for `n` bytes before its tail guard. -/
def NewBlock (c : Config) (pool : Pool) (m m' : Memory) (bs : List Block) (ptr n : ℕ) : Prop :=
  ∃ bs' q k, Preserves pool.start pool.limit m m' bs bs' ∧ Adds pool.start bs bs' q k ∧
    ptr = q + headerSize ∧ n + c.guardSize ≤ k

theorem NewBlock.pointsTo (h : NewBlock c pool m m' bs ptr n) : PointsTo c pool m' ptr n := by
  obtain ⟨bs', q, k, hpreserves, hadds, hptr, hroom⟩ := h
  exact ⟨bs', q, k, hpreserves.blocks, (hadds.1 q k).mpr (.inl ⟨rfl, rfl⟩), hptr, hroom⟩

/-- **Spec lemma**: `malloc` of any size. -/
theorem mallocImpl_served_iff (h : BlocksAt m pool.start bs pool.limit) (size : BitVec 32) (n : ℕ)
    (hn : n % 2 ^ 32 = size.toNat) :
    ∃ ptr m', mallocImpl c pool m size = some (ptr, m') ∧ (ptr = 0 → Unchanged pool m m' bs) ∧
      (FitsSize c n → ptr ≠ 0 → NewBlock c pool m m' bs ptr n) ∧
      (¬FitsSize c n → (ptr = 0 ↔ FitsOrRoomless c pool m n)) := by
  obtain ⟨ptr, m', hrun, hnull, hunchanged⟩ := mallocImpl_null_iff (c := c) h size
  refine ⟨ptr, m', hrun, hunchanged, fun hfits hne => ?_, fun hfits => ?_⟩
  · have hle := le_alignUp n
    have hsmall : n < 2 ^ 32 := by
      unfold FitsSize at hfits
      omega
    have hsize : size.toNat = n := by rw [← hn, Nat.mod_eq_of_lt hsmall]
    unfold mallocImpl at hrun
    rw [hsize] at hrun
    unfold FitsSize at hfits
    simp only [Nat.mod_eq_of_lt (by omega : alignUp n < 2 ^ 32), Nat.mod_eq_of_lt hfits] at hrun
    obtain ⟨ptr', m'', bs', hrun', hpreserves, hfinds⟩ :=
      findSlot_spec (c := c) rfl (pool.size + 1) pool.memory_le_start h h.length_lt
    cases hrun.symm.trans hrun'
    obtain ⟨q, k, hptr, hk, hadds⟩ := hfinds.slot hne
    exact ⟨bs', q, k, hpreserves, hadds, hptr, by omega⟩
  · rw [hnull, FitsOrRoomless, or_iff_right hfits, hn]

/-- A call that only passes on what `malloc` gives. -/
theorem served_of_malloc_iff {n : ℕ} (hunchanged : ptr = 0 → Unchanged pool m m' bs)
    (hfits : FitsSize c n → ptr ≠ 0 → PointsTo c pool m' ptr n)
    (hwraps : ¬FitsSize c n → (ptr = 0 ↔ FitsOrRoomless c pool m n)) :
    ((ptr ≠ 0 → PointsTo c pool m' ptr n) ∧ (ptr = 0 → Unchanged pool m m' bs)) ↔
      FitsOrRoomless c pool m n := by
  by_cases h : FitsSize c n
  · exact iff_of_true ⟨hfits h, hunchanged⟩ (.inl h)
  · rw [← hwraps h]
    refine ⟨fun hserved => ?_, fun hnull => ⟨fun hne => absurd hnull hne, hunchanged⟩⟩
    by_contra hne
    exact not_pointsTo_of_not_fits h (hserved.1 hne)

/-- What has to be shown of a call whose result is known. -/
theorem served_iff_of_exec {call : Call} (hblocks : BlocksAt s.mem pool.start bs pool.limit)
    (hexec : exec c pool s call = some (ptr, s')) :
    Served c pool s call ↔ (ptr ≠ 0 → PointsTo c pool s'.mem ptr call.requested) ∧
      (ptr = 0 → Unchanged pool s.mem s'.mem bs) := by
  constructor
  · rintro ⟨ptr', s'', hexec', hpoints, hunchanged⟩
    cases hexec.symm.trans hexec'
    exact ⟨hpoints, fun hnull => hunchanged hnull bs hblocks⟩
  · rintro ⟨hpoints, hunchanged⟩
    refine ⟨ptr, s', hexec, hpoints, fun hnull bs' hblocks' => ?_⟩
    rw [BlocksAt.unique hblocks' hblocks]
    exact hunchanged hnull

theorem served_malloc_iff (hblocks : BlocksAt s.mem pool.start bs pool.limit) (size : BitVec 32) :
    Served c pool s (.malloc size) ↔ FitsOrRoomless c pool s.mem size.toNat := by
  obtain ⟨ptr, m', hrun, hunchanged, hfits, hwraps⟩ :=
    mallocImpl_served_iff (c := c) hblocks size size.toNat (Nat.mod_eq_of_lt size.isLt)
  have hexec : exec c pool s (.malloc size) = some (ptr, ⟨m', addLive s.live ptr size.toNat⟩) := by
    rw [exec, hrun]
    rfl
  rw [served_iff_of_exec hblocks hexec]
  exact served_of_malloc_iff hunchanged (fun hfit hne => (hfits hfit hne).pointsTo) hwraps

theorem served_calloc_iff (hblocks : BlocksAt s.mem pool.start bs pool.limit)
    (nelem elsize : BitVec 32) : Served c pool s (.calloc nelem elsize) ↔
      FitsOrRoomless c pool s.mem (nelem.toNat * elsize.toNat) := by
  obtain ⟨ptr, m', hrun, hunchanged, hfits, hwraps⟩ :=
    mallocImpl_served_iff (c := c) hblocks (nelem * elsize) (nelem.toNat * elsize.toNat)
      (BitVec.toNat_mul nelem elsize).symm
  have hexec : exec c pool s (.calloc nelem elsize) = some (ptr,
      ⟨if ptr = 0 then m' else memset m' ptr 0 (nelem * elsize).toNat,
        addLive s.live ptr (nelem.toNat * elsize.toNat)⟩) := by
    rw [exec, callocImpl, hrun]
    rfl
  rw [served_iff_of_exec hblocks hexec]
  refine served_of_malloc_iff (fun hnull => ?_) (fun hfit hne => ?_) hwraps
  · rw [if_pos hnull]
    exact hunchanged hnull
  · -- only bytes of the new block are cleared
    have hfit' : FitsSize c (nelem.toNat * elsize.toNat) := hfit
    obtain ⟨bs₁, q₁, k₁, hblocks₁, hused₁, rfl, hroom⟩ := (hfits hfit' hne).pointsTo
    have hproduct : (nelem * elsize).toNat = nelem.toNat * elsize.toNat := by
      have hle := le_alignUp (nelem.toNat * elsize.toNat)
      unfold FitsSize at hfit'
      rw [BitVec.toNat_mul, Nat.mod_eq_of_lt (by omega)]
    rw [if_neg hne, hproduct]
    refine ⟨bs₁, q₁, k₁, hblocks₁.congr fun q b hmem a ha ha' => ?_, hused₁, rfl, hroom⟩
    have hoff := header_not_payload hused₁ hmem ha ha'
    show memset m' (q₁ + headerSize) 0 (nelem.toNat * elsize.toNat) a = m' a
    rw [memset_apply, if_neg (by omega)]

/-! ## `realloc` -/

/-- A new block, after the contents of an old one are copied to it and the old one is freed. -/
theorem NewBlock.moved {h₀ k count : ℕ} (h : NewBlock c pool m m' bs ptr n)
    (hused : Used pool.start bs h₀ k) (hcount : count ≤ n) : PointsTo c pool
      (freeImpl c pool (memcpy m' ptr (h₀ + headerSize) count) (h₀ + headerSize)) ptr n := by
  obtain ⟨bs₁, q, k₁, hpreserves, ⟨hadds, hfresh⟩, rfl, hroom⟩ := h
  have hused₁ : Used pool.start bs₁ q k₁ := (hadds q k₁).mpr (.inl ⟨rfl, rfl⟩)
  have hused₀ : Used pool.start bs₁ h₀ k := (hadds h₀ k).mpr (.inr hused)
  have hne : q ≠ h₀ := fun heq => hfresh k (heq ▸ hused)
  have hcopied : BlocksAt (memcpy m' (q + headerSize) (h₀ + headerSize) count) pool.start bs₁
      pool.limit := by
    refine hpreserves.blocks.congr fun q' b hmem a ha ha' => ?_
    have hoff := header_not_payload hused₁ hmem ha ha'
    exact memcpy_of_not_mem _ _ _ _ (by omega)
  obtain ⟨bs₂, hfrees⟩ := freeImpl_spec (c := c) hcopied hused₀
  exact ⟨bs₂, q, k₁, hfrees.blocks, (hfrees.used q k₁ hne).mpr hused₁, rfl, hroom⟩

/-- `free` marks a block if the pointer to it is not after `JvmMemoryEnd`. -/
theorem freeAt_freeImpl (h : BlocksAt m pool.start bs pool.limit) {k : ℕ}
    (hused : Used pool.start bs q k) (hscope : q + headerSize ≤ pool.last) :
    freeAt (freeImpl c pool m (q + headerSize)) q = 1 := by
  have hheader : headerSize = 8 := rfl
  have hstart := hused.le
  have hat := Tiles.at_of_mem h hused
  have hfree : freeAt m q = 0 := hat.free
  have hmark : freeAt (setFree m q 1) q = 1 := Function.update_self _ _ _
  unfold freeImpl
  rw [if_neg (by omega), if_neg (by omega), Nat.add_sub_cancel]
  simp only [hat.magic, hfree, and_self, if_true]
  split_ifs
  · rw [freeAt, memset_apply, if_neg (by omega)]
    exact hmark
  · exact hmark

theorem served_realloc_iff (hinv : HeapInv pool s bs) (hmem : (ptr, n) ∈ s.live)
    (size : BitVec 32) :
    Served c pool s (.realloc ptr size) ↔ Call.Meets c pool s (.realloc ptr size) := by
  have hblocks := hinv.blocks
  obtain ⟨h₀, k, rfl, -, hused⟩ := hinv.live ptr n hmem
  have hnull : h₀ + headerSize ≠ 0 := Nat.succ_ne_zero _
  have hsize : sizeAt s.mem h₀ = k := (Tiles.at_of_mem hblocks hused).size
  rw [Call.Meets, if_neg hnull, Nat.add_sub_cancel, hsize]
  have hrealloc : reallocImpl c pool s.mem (h₀ + headerSize) size =
      if k = size.toNat then some (h₀ + headerSize, s.mem)
      else if size = 0 then some (0, freeImpl c pool s.mem (h₀ + headerSize))
      else moveBlock c pool s.mem (h₀ + headerSize) size := by
    rw [reallocImpl, if_neg fun h => hnull h.1, if_neg hnull, Nat.add_sub_cancel, hsize]
  by_cases hsame : k = size.toNat
  · -- the block is given back as it is
    rw [if_pos hsame] at hrealloc
    have hexec : exec c pool s (.realloc (h₀ + headerSize) size) = some (h₀ + headerSize,
        ⟨s.mem, if h₀ + headerSize = 0 ∧ size ≠ 0 then s.live
          else addLive (removeLive s.live (h₀ + headerSize)) (h₀ + headerSize) size.toNat⟩) := by
      rw [exec, hrealloc]
      rfl
    rw [served_iff_of_exec hblocks hexec, if_pos hsame]
    constructor
    · rintro ⟨hpoints, -⟩
      obtain ⟨bs', q, k', hblocks', hused', hptr, hroom⟩ := hpoints hnull
      obtain rfl : h₀ = q := Nat.add_right_cancel hptr
      have hsize' : sizeAt s.mem h₀ = k' := (Tiles.at_of_mem hblocks' hused').size
      have hguard : c.guardSize = 0 := by
        have hroom' : size.toNat + c.guardSize ≤ k' := hroom
        omega
      by_contra htag
      rw [Config.guardSize, if_pos (Bool.of_not_eq_false htag)] at hguard
      cases hguard
    · intro htag
      have hguard : c.guardSize = 0 := by
        rw [Config.guardSize, if_neg (by rw [htag]; decide)]
      refine ⟨fun _ => ⟨bs, h₀, k, hblocks, hused, rfl, ?_⟩, fun h => absurd h hnull⟩
      show size.toNat + c.guardSize ≤ k
      omega
  · rw [if_neg hsame] at hrealloc ⊢
    by_cases hzero : size = 0
    · -- the block is freed
      rw [if_pos hzero] at hrealloc ⊢
      have hexec : exec c pool s (.realloc (h₀ + headerSize) size) = some (0,
          ⟨freeImpl c pool s.mem (h₀ + headerSize), if (0 : ℕ) = 0 ∧ size ≠ 0 then s.live
            else addLive (removeLive s.live (h₀ + headerSize)) 0 size.toNat⟩) := by
        rw [exec, hrealloc]
        rfl
      rw [served_iff_of_exec hblocks hexec]
      constructor
      · rintro ⟨-, hunchanged⟩
        by_contra hscope
        obtain ⟨bs', hpreserves, hused'⟩ := hunchanged rfl
        have hstill : Used pool.start bs' h₀ k := (hused' h₀ k).mpr hused
        have hzero : freeAt (freeImpl c pool s.mem (h₀ + headerSize)) h₀ = 0 :=
          (Tiles.at_of_mem hpreserves.blocks hstill).free
        rw [freeAt_freeImpl hblocks hused (Nat.le_of_not_lt hscope)] at hzero
        exact absurd hzero (by decide)
      · intro hscope
        have hignored : freeImpl c pool s.mem (h₀ + headerSize) = s.mem := by
          rw [freeImpl, if_neg hnull, if_pos (.inl hscope)]
        refine ⟨fun h => absurd rfl h, fun _ => ?_⟩
        show Unchanged pool s.mem (freeImpl c pool s.mem (h₀ + headerSize)) bs
        rw [hignored]
        exact .refl hblocks
    · -- the contents are moved
      rw [if_neg hzero] at hrealloc ⊢
      obtain ⟨newPtr, m₁, hrun, hunchanged, hfits, hwraps⟩ :=
        mallocImpl_served_iff (c := c) hblocks size size.toNat (Nat.mod_eq_of_lt size.isLt)
      have hmove : moveBlock c pool s.mem (h₀ + headerSize) size =
          some (newPtr, if newPtr = 0 then m₁ else freeImpl c pool
            (memcpy m₁ newPtr (h₀ + headerSize) (min (sizeAt m₁ h₀) size.toNat))
            (h₀ + headerSize)) := by
        rw [moveBlock, hrun]
        by_cases hnew : newPtr = 0
        · simp only [hnew, if_true]
        · simp only [if_neg hnew, Nat.add_sub_cancel]
      have hexec : exec c pool s (.realloc (h₀ + headerSize) size) = some (newPtr,
          ⟨if newPtr = 0 then m₁ else freeImpl c pool
            (memcpy m₁ newPtr (h₀ + headerSize) (min (sizeAt m₁ h₀) size.toNat))
            (h₀ + headerSize), if newPtr = 0 ∧ size ≠ 0 then s.live
            else addLive (removeLive s.live (h₀ + headerSize)) newPtr size.toNat⟩) := by
        rw [exec, hrealloc, hmove]
        rfl
      rw [served_iff_of_exec hblocks hexec]
      refine served_of_malloc_iff (fun hnew => ?_) (fun hfit hnew => ?_) hwraps
      · rw [if_pos hnew]
        exact hunchanged hnew
      · have hblock := hfits hfit hnew
        obtain ⟨bs₁, q, k₁, hpreserves, hadds, -⟩ := id hblock
        have hsize₁ : sizeAt m₁ h₀ = k :=
          (Tiles.at_of_mem hpreserves.blocks ((hadds.1 h₀ k).mpr (.inr hused))).size
        rw [if_neg hnew, hsize₁]
        exact hblock.moved hused (min_le_right _ _)

/-! ## Reachable heaps -/

/-- The heaps that legal calls reach if each of them fits, or at least meets the condition. -/
inductive Reachable (c : Config) (pool : Pool) : State → Prop
  | init (m : Memory) : Reachable c pool ⟨initializeMemory pool m, []⟩
  | step {s s' : State} {call : Call} {ptr : ℕ} : Reachable c pool s → call.Legal s →
      call.Fits c ∨ call.Requests ∧ call.Meets c pool s → exec c pool s call = some (ptr, s') →
      Reachable c pool s'

theorem HeapInv.unchanged (h : HeapInv pool s bs) (hunchanged : Unchanged pool s.mem m' bs) :
    ∃ bs', HeapInv pool ⟨m', s.live⟩ bs' := by
  obtain ⟨bs', hpreserves, hused⟩ := hunchanged
  refine ⟨bs', hpreserves.blocks, fun q n hmem => ?_, h.distinct⟩
  obtain ⟨h₀, k, hptr, hk, hq⟩ := h.live q n hmem
  exact ⟨h₀, k, hptr, hk, (hused h₀ k).mpr hq⟩

/-- `realloc` of NULL is `malloc`. -/
theorem served_realloc_null_iff (hblocks : BlocksAt s.mem pool.start bs pool.limit)
    (size : BitVec 32) :
    Served c pool s (.realloc 0 size) ↔ Call.Meets c pool s (.realloc 0 size) := by
  rw [Call.Meets, if_pos rfl]
  by_cases hzero : size = 0
  · subst hzero
    refine iff_of_true ⟨0, _, rfl, fun h => absurd rfl h, fun _ bs' h' => .refl h'⟩ (.inl ?_)
    exact fitsSize_zero c
  · obtain ⟨ptr, m', hrun, hunchanged, hfits, hwraps⟩ :=
      mallocImpl_served_iff (c := c) hblocks size size.toNat (Nat.mod_eq_of_lt size.isLt)
    have hexec : exec c pool s (.realloc 0 size) = some (ptr, ⟨m', if ptr = 0 ∧ size ≠ 0 then s.live
        else addLive (removeLive s.live 0) ptr size.toNat⟩) := by
      rw [exec, reallocImpl, if_neg fun h => hzero h.2, if_pos rfl, hrun]
      rfl
    rw [served_iff_of_exec hblocks hexec]
    exact served_of_malloc_iff hunchanged (fun hfit hne => (hfits hfit hne).pointsTo) hwraps

/-- **Spec lemma**: which calls are served. -/
theorem HeapInv.served_iff_meets (hinv : HeapInv pool s bs) {call : Call} (hlegal : call.Legal s)
    (hrequests : call.Requests) : Served c pool s call ↔ call.Meets c pool s := by
  cases call with
  | malloc size => exact served_malloc_iff hinv.blocks size
  | calloc nelem elsize => exact served_calloc_iff hinv.blocks nelem elsize
  | realloc ptr size =>
    rcases hlegal with rfl | ⟨n, hmem⟩
    · exact served_realloc_null_iff hinv.blocks size
    · exact served_realloc_iff hinv hmem size
  | free ptr => exact hrequests.elim
  | store ptr offset value => exact hrequests.elim

theorem fits_iff_requested {call : Call} (hrequests : call.Requests) :
    call.Fits c ↔ FitsSize c call.requested := by
  cases call with
  | malloc | calloc | realloc => exact Iff.rfl
  | free | store => exact hrequests.elim

theorem live_of_null {call : Call} (hrequests : call.Requests) (hfits : ¬FitsSize c call.requested)
    (hexec : exec c pool s call = some (0, s')) : s'.live = s.live := by
  cases call with
  | malloc size =>
    simp only [exec, Option.map_eq_some_iff] at hexec
    obtain ⟨⟨ptr, m'⟩, -, heq⟩ := hexec
    obtain ⟨rfl, rfl⟩ := Prod.mk.inj heq
    rfl
  | calloc nelem elsize =>
    simp only [exec, Option.map_eq_some_iff] at hexec
    obtain ⟨⟨ptr, m'⟩, -, heq⟩ := hexec
    obtain ⟨rfl, rfl⟩ := Prod.mk.inj heq
    rfl
  | realloc ptr size =>
    have hne : size ≠ 0 := by
      rintro rfl
      exact hfits (fitsSize_zero c)
    simp only [exec, Option.map_eq_some_iff] at hexec
    obtain ⟨⟨ptr', m'⟩, -, heq⟩ := hexec
    obtain ⟨rfl, rfl⟩ := Prod.mk.inj heq
    exact if_pos ⟨rfl, hne⟩
  | free | store => exact hrequests.elim

/-- **Run lemma**: reachable heaps keep the invariant. -/
theorem Reachable.heapInv (h : Reachable c pool s) : ∃ bs, HeapInv pool s bs := by
  induction h with
  | init m => exact ⟨_, initializeMemory_spec pool m, fun _ _ => nofun, List.nodup_nil⟩
  | @step s s' call ptr _ hlegal hcond hexec ih =>
    obtain ⟨bs, hinv⟩ := ih
    by_cases hfits : call.Fits c
    · obtain ⟨ptr', s'', bs', hexec', hinv'⟩ := hinv.exec hlegal hfits
      cases hexec.symm.trans hexec'
      exact ⟨bs', hinv'⟩
    · -- what does not fit was not there
      obtain ⟨hrequests, hmeets⟩ := hcond.resolve_left hfits
      rw [fits_iff_requested hrequests] at hfits
      obtain ⟨ptr', s'', hexec', hpoints, hunchanged⟩ :=
        (hinv.served_iff_meets hlegal hrequests).mpr hmeets
      cases hexec.symm.trans hexec'
      obtain rfl : ptr = 0 := by
        by_contra hne
        exact not_pointsTo_of_not_fits hfits (hpoints hne)
      obtain ⟨bs', hinv'⟩ := hinv.unchanged (hunchanged rfl bs hinv.blocks)
      rw [← live_of_null hrequests hfits hexec] at hinv'
      exact ⟨bs', hinv'⟩

/-- **Main theorem**: in every reachable heap, a legal call that asks for bytes gets a block with that
many bytes, or NULL and the heap is as it was, exactly when it meets the condition. -/
theorem served_iff (h : Reachable c pool s) {call : Call} (hlegal : call.Legal s)
    (hrequests : call.Requests) : Served c pool s call ↔ call.Meets c pool s := by
  obtain ⟨bs, hinv⟩ := h.heapInv
  exact hinv.served_iff_meets hlegal hrequests

instance (c : Config) (size : ℕ) : Decidable (FitsSize c size) :=
  inferInstanceAs (Decidable (alignUp size + c.guardSize < 2 ^ 32))

/-- The pool of 64 bytes before the first call. -/
def emptySmall : State := ⟨initializeMemory smallPool fun _ => 0, []⟩

theorem served_emptySmall : Served plainConfig smallPool emptySmall (.malloc 4) := by
  have hreachable : Reachable plainConfig smallPool emptySmall := .init _
  have hlegal : (Call.malloc 4).Legal emptySmall := trivial
  have hfits : FitsSize plainConfig (BitVec.toNat (4 : BitVec 32)) := by decide
  exact (served_iff hreachable hlegal trivial).mpr (Or.inl hfits)

/-- The product of `0x40000001` and 4 wraps around to 4, and a block of four bytes is given out. -/
theorem not_served_calloc : ¬Served plainConfig smallPool emptySmall (.calloc 0x40000001 4) := by
  rintro ⟨ptr, s', hexec, hpoints, -⟩
  have hptr : (exec plainConfig smallPool emptySmall (.calloc 0x40000001 4)).map Prod.fst = some 16 := by
    decide
  rw [hexec] at hptr
  obtain rfl : ptr = 16 := Option.some.inj hptr
  have hfits : ¬FitsSize plainConfig (Call.calloc 0x40000001 4).requested := by decide
  exact not_pointsTo_of_not_fits hfits (hpoints (by decide))

end CldcVm.Malloc
