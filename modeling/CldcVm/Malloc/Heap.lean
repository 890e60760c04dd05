import CldcVm.Malloc.Blocks

/-!
# Runs of the heap

Calls of the allocator, and the stores of the callers to what they have got, in any
order. A call fits if its size, rounded up and with the guard, is a number of 32 bits.

Results: `heapInvariant_of_run`: in a run of fitting calls the headers tile the pool, what
has been handed out is disjoint, and `realloc` keeps the contents;
`not_wellFormed_realloc`: a size that is rounded up to zero.
-/

namespace CldcVm.Malloc

open Lib

variable {c : Config} {pool : Pool} {m m' : Memory} {p q n e num size ptr : ℕ} {b : Block}
variable {bs bs' l r : List Block}

/-! ## Spec lemmas -/

theorem le_alignUp (n : ℕ) : n ≤ alignUp n := Nat.le_add_right _ _

/-- A size that fits, as the allocator uses it. -/
def FitsSize (c : Config) (size : ℕ) : Prop := alignUp size + c.guardSize < 2 ^ 32

theorem Pool.memory_le_start (pool : Pool) : pool.memory ≤ pool.start := le_alignUp _

theorem BlocksAt.length_lt (h : BlocksAt m pool.start bs pool.limit) :
    bs.length < pool.size + 1 := by
  have hend := Tiles.end_eq h
  have hle := length_le_totalLength Block.length_pos bs
  have hstart := pool.memory_le_start
  unfold Pool.limit at hend
  omega

theorem initializeMemory_spec (pool : Pool) (m : Memory) :
    BlocksAt (initializeMemory pool m) pool.start
      [⟨true, pool.limit - pool.start - headerSize⟩] pool.limit := by
  have hroom := pool.room
  have hlt := pool.size_lt
  have hstart := pool.memory_le_start
  refine ⟨headerAt_new m _ ?_, ?_⟩
  · unfold Pool.limit
    omega
  · show pool.start + Block.length _ = pool.limit
    rw [Block.length_mk]
    unfold Pool.limit Pool.start at *
    omega

theorem mallocImpl_spec (h : BlocksAt m pool.start bs pool.limit) (size : BitVec 32)
    (hfits : FitsSize c size.toNat) : ∃ ptr m' bs', mallocImpl c pool m size = some (ptr, m') ∧
      Preserves pool.start pool.limit m m' bs bs' ∧ Finds pool.start size.toNat bs bs' ptr := by
  unfold FitsSize at hfits
  have halign : alignUp size.toNat % 2 ^ 32 = alignUp size.toNat := Nat.mod_eq_of_lt (by omega)
  unfold mallocImpl
  simp only [halign, Nat.mod_eq_of_lt hfits]
  obtain ⟨ptr, m', bs', hrun, hpreserves, hfinds⟩ :=
    findSlot_spec (c := c) rfl (pool.size + 1) pool.memory_le_start h h.length_lt
  refine ⟨ptr, m', bs', hrun, hpreserves, hfinds.null, fun hslot => ?_⟩
  obtain ⟨h₀, n, hptr, hn, hadds⟩ := hfinds.slot hslot
  have hle := le_alignUp size.toNat
  exact ⟨h₀, n, hptr, by omega, hadds⟩

theorem used_append_cons : Used p (l ++ b :: r) q n ↔ Used p l q n ∨
    (q = p + totalLength Block.length l ∧ b = ⟨false, n⟩) ∨
      Used (p + totalLength Block.length l + b.length) r q n := by
  rw [← used_cons, Used, placed_append, List.mem_append]
  rfl

theorem BlocksAt.replace {b' : Block} (h : BlocksAt m p (l ++ b :: r) e)
    (hlength : b'.length = b.length) (hat : HeaderAt m' (p + totalLength Block.length l) b')
    (hsame : ∀ a, a < p + totalLength Block.length l ∨
      p + totalLength Block.length l + b.length ≤ a → m' a = m a) :
    BlocksAt m' p (l ++ b' :: r) e := by
  obtain ⟨hl, -, hr⟩ := tiles_append.mp h
  refine tiles_append.mpr ⟨BlocksAt.congr hl fun q b₁ hmem a _ ha => hsame a (.inl ?_), hat, ?_⟩
  · have hle := add_length_le_of_mem_placed hmem
    have hlen : b₁.length = b₁.size + headerSize := rfl
    omega
  · rw [hlength]
    exact BlocksAt.congr_of_le hr fun a ha => hsame a (.inr ha)

/-- What `free` does: another used block is as it was. -/
structure Frees (pool : Pool) (m m' : Memory) (bs bs' : List Block) (h : ℕ) : Prop where
  blocks : BlocksAt m' pool.start bs' pool.limit
  used : ∀ q n, q ≠ h → (Used pool.start bs' q n ↔ Used pool.start bs q n)
  payload : ∀ q n, q ≠ h → Used pool.start bs q n → ∀ a, q + headerSize ≤ a →
    a < q + headerSize + n → m' a = m a

theorem freeImpl_spec (h : BlocksAt m pool.start bs pool.limit) {k : ℕ}
    (hused : Used pool.start bs p k) :
    ∃ bs', Frees pool m (freeImpl c pool m (p + headerSize)) bs bs' p := by
  have hheader : headerSize = 8 := rfl
  have hstart := hused.le
  unfold freeImpl
  rw [if_neg (by omega)]
  split_ifs with hscope
  · exact ⟨bs, h, fun _ _ _ => Iff.rfl, fun _ _ _ _ _ _ _ => rfl⟩
  · have hat := Tiles.at_of_mem h hused
    have hfree : freeAt m p = 0 := hat.free
    have hfreed : HeaderAt (setFree m p 1) p ⟨true, k⟩ := hat.setFree true
    have hsize : sizeAt (setFree m p 1) p = k := hfreed.size
    rw [Nat.add_sub_cancel]
    simp only [hat.magic, hfree, and_self, if_true, hsize]
    set m' := if c.trash = true ∧ k < 1024 then memset (setFree m p 1) (p + headerSize) 0xaf k
      else setFree m p 1 with hm'
    have hpayload : ∀ a, a < p + headerSize ∨ p + headerSize + k ≤ a → m' a = setFree m p 1 a := by
      intro a ha
      rw [hm']
      split_ifs
      · rw [memset_apply, if_neg (by omega)]
      · rfl
    have hsame : ∀ a, a < p ∨ p + headerSize + k ≤ a → m' a = m a := by
      intro a ha
      rw [hpayload a (by omega), setFree_of_ne (by omega)]
    obtain ⟨l, r, rfl, rfl⟩ := mem_placed_iff.mp hused
    refine ⟨l ++ ⟨true, k⟩ :: r, h.replace rfl (hfreed.congr fun a _ ha => hpayload a (.inl ha))
      fun a ha => hsame a ?_, fun q n hne => ?_, fun q n hne hq a ha ha' => hsame a ?_⟩
    · rw [Block.length_mk] at ha
      omega
    · rw [used_append_cons, used_append_cons]
      exact or_congr_right (or_congr_left (iff_of_false (fun h => hne h.1) fun h => hne h.1))
    · rcases placed_disjoint hq hused (fun heq => hne (Prod.mk.inj heq).1) with hle | hle
      · rw [Block.length_mk] at hle
        omega
      · rw [Block.length_mk] at hle
        omega

/-! ## Runs -/

/-- The memory, and what the callers have: pointers, and how many bytes they asked for. -/
structure State where
  mem : Memory
  live : List (ℕ × ℕ)

/-- The calls, and the store of a byte by a caller. -/
inductive Call
  | malloc (size : BitVec 32)
  | calloc (nelem elsize : BitVec 32)
  | realloc (ptr : ℕ) (size : BitVec 32)
  | free (ptr : ℕ)
  | store (ptr offset : ℕ) (value : Byte)

/-- The pointer is NULL, or has been handed out and not been freed. -/
def State.Live (s : State) (ptr : ℕ) : Prop := ptr = 0 ∨ ∃ n, (ptr, n) ∈ s.live

/-- Only live pointers are freed or reallocated, and callers store to what they have. -/
def Call.Legal (s : State) : Call → Prop
  | malloc _ => True
  | calloc _ _ => True
  | realloc ptr _ => s.Live ptr
  | free ptr => s.Live ptr
  | store ptr offset _ => ∃ n, (ptr, n) ∈ s.live ∧ offset < n

/-- The size fits. -/
def Call.Fits (c : Config) : Call → Prop
  | malloc size => FitsSize c size.toNat
  | calloc nelem elsize => FitsSize c (nelem.toNat * elsize.toNat)
  | realloc _ size => FitsSize c size.toNat
  | free _ => True
  | store _ _ _ => True

/-- The caller has got `n` bytes, or NULL. -/
def addLive (live : List (ℕ × ℕ)) (ptr n : ℕ) : List (ℕ × ℕ) :=
  if ptr = 0 then live else (ptr, n) :: live

def removeLive (live : List (ℕ × ℕ)) (ptr : ℕ) : List (ℕ × ℕ) := live.filter (·.1 ≠ ptr)

/-- A call: the pointer that it returns, and the state after it. -/
def exec (c : Config) (pool : Pool) (s : State) : Call → Option (ℕ × State)
  | .malloc size => (mallocImpl c pool s.mem size).map fun found =>
      (found.1, ⟨found.2, addLive s.live found.1 size.toNat⟩)
  | .calloc nelem elsize => (callocImpl c pool s.mem nelem elsize).map fun found =>
      (found.1, ⟨found.2, addLive s.live found.1 (nelem.toNat * elsize.toNat)⟩)
  | .realloc ptr size => (reallocImpl c pool s.mem ptr size).map fun found =>
      (found.1, ⟨found.2, if found.1 = 0 ∧ size ≠ 0 then s.live
        else addLive (removeLive s.live ptr) found.1 size.toNat⟩)
  | .free ptr => some (0, ⟨freeImpl c pool s.mem ptr, removeLive s.live ptr⟩)
  | .store ptr offset value => some (0, ⟨Function.update s.mem (ptr + offset) value, s.live⟩)

/-- The states that legal calls reach. -/
inductive Run (c : Config) (pool : Pool) (Ok : Call → Prop) : State → Prop
  | init (m : Memory) : Run c pool Ok ⟨initializeMemory pool m, []⟩
  | step {s s' : State} {call : Call} {ptr : ℕ} : Run c pool Ok s → call.Legal s → Ok call →
      exec c pool s call = some (ptr, s') → Run c pool Ok s'

/-- The invariant: what is live is in used blocks. -/
structure HeapInv (pool : Pool) (s : State) (bs : List Block) : Prop where
  blocks : BlocksAt s.mem pool.start bs pool.limit
  live : ∀ ptr n, (ptr, n) ∈ s.live →
    ∃ h k, ptr = h + headerSize ∧ n ≤ k ∧ Used pool.start bs h k
  distinct : (s.live.map Prod.fst).Nodup

/-! ## Step lemmas -/

variable {s : State}

theorem header_not_payload {k : ℕ} (hused : Used p bs q k)
    {q' : ℕ} {b' : Block} (hmem : (q', b') ∈ placed Block.length p bs) {a : ℕ} (ha : q' ≤ a)
    (ha' : a < q' + headerSize) : a < q + headerSize ∨ q + headerSize + k ≤ a := by
  have hlen : b'.length = b'.size + headerSize := rfl
  by_cases heq : (q', b') = (q, (⟨false, k⟩ : Block))
  · cases heq
    exact .inl ha'
  · rcases placed_disjoint hmem hused heq with hle | hle
    · exact .inl (by omega)
    · rw [Block.length_mk] at hle
      exact .inr (by omega)

theorem HeapInv.write {k : ℕ} (h : HeapInv pool s bs) (hused : Used pool.start bs q k)
    (hsame : ∀ a, a < q + headerSize ∨ q + headerSize + k ≤ a → m' a = s.mem a) :
    HeapInv pool ⟨m', s.live⟩ bs :=
  ⟨h.blocks.congr fun _ _ hmem a ha ha' => hsame a (header_not_payload hused hmem ha ha'),
    h.live, h.distinct⟩

/-- The caller has what the search has found. -/
theorem HeapInv.allocated (h : HeapInv pool s bs)
    (hpreserves : Preserves pool.start pool.limit s.mem m' bs bs')
    (hfinds : Finds pool.start num bs bs' ptr) (hn : n ≤ num) :
    HeapInv pool ⟨m', addLive s.live ptr n⟩ bs' := by
  unfold addLive
  split_ifs with hnull
  · refine ⟨hpreserves.blocks, fun q k hq => ?_, h.distinct⟩
    obtain ⟨h₀, k', hptr, hk, hused⟩ := h.live q k hq
    exact ⟨h₀, k', hptr, hk, (hfinds.null hnull h₀ k').mpr hused⟩
  · obtain ⟨h₁, k₁, hptr₁, hk₁, hadds, hfresh⟩ := hfinds.slot hnull
    refine ⟨hpreserves.blocks, fun q k hq => ?_, List.nodup_cons.mpr ⟨fun hmem => ?_, h.distinct⟩⟩
    · rcases List.mem_cons.mp hq with heq | hq
      · cases heq
        exact ⟨h₁, k₁, hptr₁, hn.trans hk₁, (hadds h₁ k₁).mpr (.inl ⟨rfl, rfl⟩)⟩
      · obtain ⟨h₀, k', hptr, hk, hused⟩ := h.live q k hq
        exact ⟨h₀, k', hptr, hk, (hadds h₀ k').mpr (.inr hused)⟩
    · obtain ⟨⟨q, k⟩, hq, rfl⟩ := List.mem_map.mp hmem
      obtain ⟨h₀, k', hptr, -, hused⟩ := h.live q k hq
      obtain rfl : h₀ = h₁ := Nat.add_right_cancel (hptr.symm.trans hptr₁)
      exact hfresh k' hused

theorem HeapInv.freed (h : HeapInv pool s bs) (hfrees : Frees pool s.mem m' bs bs' p) :
    HeapInv pool ⟨m', removeLive s.live (p + headerSize)⟩ bs' := by
  refine ⟨hfrees.blocks, fun q k hq => ?_, h.distinct.sublist ((List.filter_sublist).map _)⟩
  obtain ⟨hq, hne⟩ := List.mem_filter.mp hq
  obtain ⟨h₀, k', rfl, hk, hused⟩ := h.live q k hq
  refine ⟨h₀, k', rfl, hk, (hfrees.used h₀ k' ?_).mpr hused⟩
  rintro rfl
  exact absurd rfl (of_decide_eq_true hne)

theorem HeapInv.removeNull (h : HeapInv pool s bs) : HeapInv pool ⟨s.mem, removeLive s.live 0⟩ bs :=
  ⟨h.blocks, fun q k hq => h.live q k (List.mem_filter.mp hq).1,
    h.distinct.sublist ((List.filter_sublist).map _)⟩

/-- **Step lemma**: `malloc`. -/
theorem HeapInv.malloc (h : HeapInv pool s bs) {size : BitVec 32} (hfits : FitsSize c size.toNat) :
    ∃ ptr m' bs', mallocImpl c pool s.mem size = some (ptr, m') ∧
      HeapInv pool ⟨m', addLive s.live ptr size.toNat⟩ bs' := by
  obtain ⟨ptr, m', bs', hrun, hpreserves, hfinds⟩ := mallocImpl_spec h.blocks size hfits
  exact ⟨ptr, m', bs', hrun, h.allocated hpreserves hfinds le_rfl⟩

/-- **Step lemma**: `calloc`. -/
theorem HeapInv.calloc (h : HeapInv pool s bs) {nelem elsize : BitVec 32}
    (hfits : FitsSize c (nelem.toNat * elsize.toNat)) :
    ∃ ptr m' bs', callocImpl c pool s.mem nelem elsize = some (ptr, m') ∧
      HeapInv pool ⟨m', addLive s.live ptr (nelem.toNat * elsize.toNat)⟩ bs' := by
  have hproduct : (nelem * elsize).toNat = nelem.toNat * elsize.toNat := by
    have hle := le_alignUp (nelem.toNat * elsize.toNat)
    unfold FitsSize at hfits
    rw [BitVec.toNat_mul, Nat.mod_eq_of_lt (by omega)]
  obtain ⟨ptr, m', bs', hrun, hpreserves, hfinds⟩ :=
    mallocImpl_spec (c := c) h.blocks (nelem * elsize) (hproduct.symm ▸ hfits)
  rw [hproduct] at hfinds
  have hinv := h.allocated hpreserves hfinds le_rfl
  unfold callocImpl
  rw [hrun]
  refine ⟨ptr, _, bs', rfl, ?_⟩
  split_ifs with hnull
  · exact hinv
  · obtain ⟨h₁, k₁, hptr₁, hk₁, hadds, -⟩ := hfinds.slot hnull
    refine HeapInv.write hinv ((hadds h₁ k₁).mpr (.inl ⟨rfl, rfl⟩)) fun a ha => ?_
    rw [hproduct, memset_apply, if_neg (by omega)]

/-- **Step lemma**: `free`. -/
theorem HeapInv.free (h : HeapInv pool s bs) (hlive : s.Live ptr) :
    ∃ bs', HeapInv pool ⟨freeImpl c pool s.mem ptr, removeLive s.live ptr⟩ bs' := by
  rcases hlive with rfl | ⟨n, hmem⟩
  · exact ⟨bs, h.removeNull⟩
  · obtain ⟨h₀, k, rfl, -, hused⟩ := h.live ptr n hmem
    obtain ⟨bs', hfrees⟩ := freeImpl_spec (c := c) h.blocks hused
    exact ⟨bs', h.freed hfrees⟩

/-- **Step lemma**: a store to what a caller has. -/
theorem HeapInv.store (h : HeapInv pool s bs) {offset : ℕ} (value : Byte) (hmem : (ptr, n) ∈ s.live)
    (hlt : offset < n) : HeapInv pool ⟨Function.update s.mem (ptr + offset) value, s.live⟩ bs := by
  obtain ⟨h₀, k, rfl, hk, hused⟩ := h.live ptr n hmem
  exact h.write hused fun a ha => Function.update_of_ne (by omega) _ _

theorem HeapInv.resize {k : ℕ} (h : HeapInv pool s bs) (hnull : ptr ≠ 0)
    (hused : Used pool.start bs q k) (hptr : ptr = q + headerSize) (hn : n ≤ k) :
    HeapInv pool ⟨s.mem, addLive (removeLive s.live ptr) ptr n⟩ bs := by
  rw [addLive, if_neg hnull]
  refine ⟨h.blocks, fun ptr' n' hmem => ?_, List.nodup_cons.mpr ⟨fun hmem => ?_, ?_⟩⟩
  · rcases List.mem_cons.mp hmem with heq | hmem
    · cases heq
      exact ⟨q, k, hptr, hn, hused⟩
    · exact h.live ptr' n' (List.mem_filter.mp hmem).1
  · obtain ⟨x, hx, heq⟩ := List.mem_map.mp hmem
    exact absurd heq (of_decide_eq_true (List.mem_filter.mp hx).2)
  · exact h.distinct.sublist ((List.filter_sublist).map _)

/-- What `realloc` of a live pointer to a size does. -/
structure Reallocs (pool : Pool) (s : State) (ptr n size : ℕ) (ptr' : ℕ) (s' : State) : Prop where
  inv : ∃ bs, HeapInv pool s' bs
  untouched : ptr' = 0 → size ≠ 0 →
    (ptr, n) ∈ s'.live ∧ ∀ i < n, s'.mem (ptr + i) = s.mem (ptr + i)
  contents : ptr' ≠ 0 → ∀ i < min n size, s'.mem (ptr' + i) = s.mem (ptr + i)

/-- **Step lemma**: the branch of `realloc` that moves the contents. -/
theorem HeapInv.moveBlock (h : HeapInv pool s bs) {size : BitVec 32}
    (hfits : FitsSize c size.toNat) (hmem : (ptr, n) ∈ s.live) :
    ∃ ptr' m', moveBlock c pool s.mem ptr size = some (ptr', m') ∧
      Reallocs pool s ptr n size.toNat ptr' ⟨m', if ptr' = 0 then s.live
        else addLive (removeLive s.live ptr) ptr' size.toNat⟩ := by
  obtain ⟨newPtr, m₁, bs₁, hrun, hpreserves, hfinds⟩ := mallocImpl_spec h.blocks size hfits
  have hinv₁ := h.allocated hpreserves hfinds le_rfl
  obtain ⟨h₀, k, rfl, hk, hused⟩ := h.live ptr n hmem
  have hold : ∀ i < n, m₁ (h₀ + headerSize + i) = s.mem (h₀ + headerSize + i) :=
    fun i hi => hpreserves.payload h₀ k hused _ (by omega) (by omega)
  unfold Malloc.moveBlock
  rw [hrun]
  by_cases hnull : newPtr = 0
  · subst hnull
    rw [addLive, if_pos rfl] at hinv₁
    exact ⟨0, m₁, rfl, ⟨bs₁, hinv₁⟩, fun _ _ => ⟨hmem, hold⟩, fun hne => (hne rfl).elim⟩
  · obtain ⟨h₁, k₁, rfl, hk₁, hadds, hfresh⟩ := hfinds.slot hnull
    have hused₁ : Used pool.start bs₁ h₁ k₁ := (hadds h₁ k₁).mpr (.inl ⟨rfl, rfl⟩)
    have hused₀ : Used pool.start bs₁ h₀ k := (hadds h₀ k).mpr (.inr hused)
    have hne : h₁ ≠ h₀ := fun heq => hfresh k (heq ▸ hused)
    have hsize : sizeAt m₁ h₀ = k := (Tiles.at_of_mem hpreserves.blocks hused₀).size
    -- the two blocks do not overlap
    have hapart := placed_disjoint hused₀ hused₁ fun heq => hne (Prod.mk.inj heq).1.symm
    rw [Block.length_mk, Block.length_mk] at hapart
    set m₂ := memcpy m₁ (h₁ + headerSize) (h₀ + headerSize) (min k size.toNat) with hm₂
    have hcopied : HeapInv pool ⟨m₂, addLive s.live (h₁ + headerSize) size.toNat⟩ bs₁ :=
      hinv₁.write hused₁ fun a ha => memcpy_of_not_mem _ _ _ _ (by omega)
    obtain ⟨bs₂, hfrees⟩ := freeImpl_spec (c := c) hcopied.blocks hused₀
    have hfreed := hcopied.freed hfrees
    have hlive : removeLive (addLive s.live (h₁ + headerSize) size.toNat) (h₀ + headerSize) =
        addLive (removeLive s.live (h₀ + headerSize)) (h₁ + headerSize) size.toNat := by
      unfold addLive
      rw [if_neg hnull, if_neg hnull]
      refine List.filter_cons_of_pos (decide_eq_true fun heq => hne ?_)
      exact Nat.add_right_cancel heq
    rw [hlive] at hfreed
    refine ⟨h₁ + headerSize, freeImpl c pool m₂ (h₀ + headerSize), ?_, ⟨bs₂, ?_⟩,
      fun heq => (hnull heq).elim, fun _ i hi => ?_⟩
    · simp only [if_neg hnull, Nat.add_sub_cancel, hsize, ← hm₂]
    · rw [if_neg hnull]
      exact hfreed
    · show freeImpl c pool m₂ (h₀ + headerSize) (h₁ + headerSize + i) = _
      rw [hfrees.payload h₁ k₁ hne hused₁ _ (by omega) (by omega), ← hold i (by omega)]
      exact memcpy_apply m₁ _ _ _ (by omega) i (by omega)

/-- **Step lemma**: `realloc` of a live pointer. -/
theorem HeapInv.realloc (h : HeapInv pool s bs) {size : BitVec 32}
    (hfits : FitsSize c size.toNat) (hmem : (ptr, n) ∈ s.live) :
    ∃ ptr' s', exec c pool s (.realloc ptr size) = some (ptr', s') ∧
      Reallocs pool s ptr n size.toNat ptr' s' := by
  obtain ⟨h₀, k, hptr, hk, hused⟩ := h.live ptr n hmem
  have hnull : ptr ≠ 0 := by
    rw [hptr]
    exact Nat.succ_ne_zero _
  have hsize : sizeAt s.mem (ptr - headerSize) = k := by
    rw [hptr, Nat.add_sub_cancel]
    exact (Tiles.at_of_mem h.blocks hused).size
  show ∃ ptr' s', Option.map _ (reallocImpl c pool s.mem ptr size) = some (ptr', s') ∧ _
  unfold reallocImpl
  rw [if_neg fun h => hnull h.1, if_neg hnull, hsize]
  split_ifs with hsame hzero
  · -- the block has the size already
    refine ⟨ptr, _, rfl, ⟨bs, ?_⟩, fun h => (hnull h).elim, fun _ i _ => rfl⟩
    rw [if_neg fun h => hnull h.1]
    exact h.resize hnull hused hptr hsame.ge
  · subst hzero
    obtain ⟨bs', hfreed⟩ := h.free (c := c) (.inr ⟨n, hmem⟩)
    refine ⟨0, _, rfl, ⟨bs', ?_⟩, fun _ hne => (hne rfl).elim, fun hne => (hne rfl).elim⟩
    exact hfreed
  · obtain ⟨ptr', m', hrun, hreallocs⟩ := h.moveBlock hfits hmem
    rw [hrun]
    refine ⟨ptr', _, rfl, ?_⟩
    have hlive : (if ptr' = 0 ∧ size ≠ 0 then s.live
        else addLive (removeLive s.live ptr) ptr' size.toNat) =
        if ptr' = 0 then s.live else addLive (removeLive s.live ptr) ptr' size.toNat := by
      by_cases hptr' : ptr' = 0
      · rw [if_pos ⟨hptr', hzero⟩, if_pos hptr']
      · rw [if_neg fun h => hptr' h.1, if_neg hptr']
    show Reallocs pool s ptr n size.toNat ptr' ⟨m', _⟩
    rw [hlive]
    exact hreallocs

/-- **Step lemma**: a legal call that fits returns, and keeps the invariant. -/
theorem HeapInv.exec (h : HeapInv pool s bs) {call : Call} (hlegal : call.Legal s)
    (hfits : call.Fits c) :
    ∃ ptr s' bs', exec c pool s call = some (ptr, s') ∧ HeapInv pool s' bs' := by
  cases call with
  | malloc size =>
    obtain ⟨ptr, m', bs', hrun, hinv⟩ := h.malloc hfits
    exact ⟨ptr, _, bs', by rw [Malloc.exec, hrun]; rfl, hinv⟩
  | calloc nelem elsize =>
    obtain ⟨ptr, m', bs', hrun, hinv⟩ := h.calloc hfits
    exact ⟨ptr, _, bs', by rw [Malloc.exec, hrun]; rfl, hinv⟩
  | realloc ptr size =>
    rcases hlegal with rfl | ⟨n, hmem⟩
    · by_cases hzero : size = 0
      · subst hzero
        refine ⟨0, _, bs, rfl, ?_⟩
        exact h.removeNull
      · obtain ⟨ptr', m', bs', hrun, hinv⟩ := h.malloc hfits
        have hrealloc : reallocImpl c pool s.mem 0 size = some (ptr', m') := by
          rw [reallocImpl, if_neg fun h => hzero h.2, if_pos rfl, hrun]
        refine ⟨ptr', _, bs', by rw [Malloc.exec, hrealloc]; rfl, ?_⟩
        -- NULL is not live
        have hlive : removeLive s.live 0 = s.live := by
          refine List.filter_eq_self.mpr fun x hx => decide_eq_true ?_
          obtain ⟨h₀, k, hptr, -⟩ := h.live x.1 x.2 hx
          rw [hptr]
          exact Nat.succ_ne_zero _
        show HeapInv pool ⟨m', if ptr' = 0 ∧ size ≠ 0 then s.live
          else addLive (removeLive s.live 0) ptr' size.toNat⟩ bs'
        rw [hlive]
        split_ifs with hnull
        · rw [addLive, if_pos hnull.1] at hinv
          exact hinv
        · exact hinv
    · obtain ⟨ptr', s', hrun, ⟨bs', hinv⟩, -⟩ := h.realloc hfits hmem
      exact ⟨ptr', s', bs', hrun, hinv⟩
  | free ptr =>
    obtain ⟨bs', hinv⟩ := h.free hlegal
    exact ⟨0, _, bs', rfl, hinv⟩
  | store ptr offset value =>
    obtain ⟨n, hmem, hlt⟩ := hlegal
    exact ⟨0, _, bs, rfl, h.store value hmem hlt⟩

/-- **Run lemma**: the invariant holds in every run of calls that fit. -/
theorem Run.heapInv (h : Run c pool (Call.Fits c) s) : ∃ bs, HeapInv pool s bs := by
  induction h with
  | init m => exact ⟨_, initializeMemory_spec pool m, fun _ _ => nofun, List.nodup_nil⟩
  | step _ hlegal hfits hexec ih =>
    obtain ⟨bs, hinv⟩ := ih
    obtain ⟨ptr, s', bs', hexec', hinv'⟩ := hinv.exec hlegal hfits
    cases hexec.symm.trans hexec'
    exact ⟨bs', hinv'⟩

/-! ## The heap -/

/-- The heap is well formed: the headers tile the pool, and what has been handed out lies
in it and is disjoint. -/
structure WellFormed (pool : Pool) (s : State) : Prop where
  tiled : ∃ bs, BlocksAt s.mem pool.start bs pool.limit
  inside : ∀ ptr n, (ptr, n) ∈ s.live → pool.start ≤ ptr ∧ ptr + n ≤ pool.limit
  apart : s.live.Pairwise fun x y => x.1 + x.2 ≤ y.1 ∨ y.1 + y.2 ≤ x.1

theorem HeapInv.wellFormed (h : HeapInv pool s bs) : WellFormed pool s := by
  refine ⟨⟨bs, h.blocks⟩, fun ptr n hmem => ?_, ?_⟩
  · obtain ⟨h₀, k, rfl, hn, hused⟩ := h.live ptr n hmem
    have hle := hused.le
    have hend := hused.add_le h.blocks
    omega
  · refine (List.pairwise_map.mp h.distinct).imp_of_mem fun {x y} hx hy hne => ?_
    obtain ⟨hx₀, kx, hptrx, hnx, husedx⟩ := h.live x.1 x.2 hx
    obtain ⟨hy₀, ky, hptry, hny, husedy⟩ := h.live y.1 y.2 hy
    have hplaces : hx₀ ≠ hy₀ := fun heq => hne (by rw [hptrx, hptry, heq])
    have hapart := placed_disjoint husedx husedy fun heq => hplaces (Prod.mk.inj heq).1
    rw [Block.length_mk, Block.length_mk] at hapart
    omega

/-- **Main theorem**: in every run of calls that fit the heap is well formed, a call that fits
returns, and `realloc` keeps the contents. -/
theorem heapInvariant_of_run (h : Run c pool (Call.Fits c) s) :
    WellFormed pool s ∧
    (∀ call : Call, call.Legal s → call.Fits c → ∃ ptr s', exec c pool s call = some (ptr, s')) ∧
    ∀ ptr n size ptr' s', (ptr, n) ∈ s.live → FitsSize c (BitVec.toNat size) →
      exec c pool s (.realloc ptr size) = some (ptr', s') →
      (ptr' = 0 → size ≠ 0 → (ptr, n) ∈ s'.live ∧ ∀ i < n, s'.mem (ptr + i) = s.mem (ptr + i)) ∧
      (ptr' ≠ 0 → ∀ i < min n size.toNat, s'.mem (ptr' + i) = s.mem (ptr + i)) := by
  obtain ⟨bs, hinv⟩ := h.heapInv
  refine ⟨hinv.wellFormed, fun call hlegal hfits => ?_, fun ptr n size ptr' s' hmem hfits hexec => ?_⟩
  · obtain ⟨ptr, s', -, hexec, -⟩ := hinv.exec hlegal hfits
    exact ⟨ptr, s', hexec⟩
  · obtain ⟨ptr'', s'', hexec', -, huntouched, hcontents⟩ := hinv.realloc hfits hmem
    cases hexec.symm.trans hexec'
    refine ⟨fun hnull hne => huntouched hnull fun hzero => hne ?_, hcontents⟩
    exact BitVec.eq_of_toNat_eq hzero

/-! ## A size that is rounded up to zero -/

theorem BlocksAt.next (h : BlocksAt m p bs e) (hne : p ≠ e) :
    magicAt m p = magicNumber ∧ ∃ bs', BlocksAt m (nextAt m p) bs' e := by
  cases bs with
  | nil => exact (hne h).elim
  | cons b bs =>
    refine ⟨h.1.magic, bs, ?_⟩
    rw [nextAt, h.1.size]
    exact h.2

/-- The state after a call. -/
def afterCall (c : Config) (pool : Pool) (s : State) (call : Call) : State :=
  ((exec c pool s call).map Prod.snd).getD s

theorem Run.afterCall {Ok : Call → Prop} {call : Call} (h : Run c pool Ok s)
    (hlegal : call.Legal s) (hok : Ok call) (hreturns : (exec c pool s call).isSome) :
    Run c pool Ok (afterCall c pool s call) := by
  obtain ⟨⟨ptr, s'⟩, hexec⟩ := Option.isSome_iff_exists.mp hreturns
  have hafter : Malloc.afterCall c pool s call = s' := by
    rw [Malloc.afterCall, hexec]
    rfl
  rw [hafter]
  exact h.step hlegal hok hexec

def plainConfig : Config := ⟨false, false⟩

/-- A pool of 64 bytes. -/
def smallPool : Pool := ⟨8, 64, by decide, by decide⟩

/-- The pool with four bytes handed out. -/
def fourBytes : State :=
  afterCall plainConfig smallPool ⟨initializeMemory smallPool fun _ => 0, []⟩ (.malloc 4)

theorem run_fourBytes {Ok : Call → Prop} (hok : Ok (.malloc 4)) :
    Run plainConfig smallPool Ok fourBytes :=
  (Run.init _).afterCall trivial hok (by decide)

theorem live_fourBytes : fourBytes.live = [(16, 4)] := by decide

/-- The four bytes are at 16, and they are there after a call for eight. -/
theorem heapInvariant_fourBytes : WellFormed smallPool fourBytes ∧
    ∀ ptr' s', exec plainConfig smallPool fourBytes (.realloc 16 8) = some (ptr', s') →
      ptr' ≠ 0 → ∀ i < 4, s'.mem (ptr' + i) = fourBytes.mem (16 + i) := by
  have hrun : Run plainConfig smallPool (Call.Fits plainConfig) fourBytes :=
    run_fourBytes (by decide : alignUp 4 + plainConfig.guardSize < 2 ^ 32)
  obtain ⟨hwell, -, hrealloc⟩ := heapInvariant_of_run hrun
  refine ⟨hwell, fun ptr' s' hexec hne i hi => ?_⟩
  have hmem : (16, 4) ∈ fourBytes.live := by
    rw [live_fourBytes]
    exact List.mem_cons_self
  exact (hrealloc 16 4 8 ptr' s' hmem (by decide : alignUp 8 + plainConfig.guardSize < 2 ^ 32)
    hexec).2 hne i hi

/-- A size of `0xFFFFFFFF` is rounded up to zero: `realloc` gets a block without bytes, and the
old contents are copied over the header after it. -/
theorem not_wellFormed_realloc :
    Run plainConfig smallPool (fun _ => True)
        (afterCall plainConfig smallPool fourBytes (.realloc 16 0xFFFFFFFF)) ∧
      ¬WellFormed smallPool (afterCall plainConfig smallPool fourBytes (.realloc 16 0xFFFFFFFF)) := by
  have hlive : (16, 4) ∈ fourBytes.live := by
    rw [live_fourBytes]
    exact List.mem_cons_self
  refine ⟨(run_fourBytes trivial).afterCall (Or.inr ⟨4, hlive⟩) trivial (by decide), ?_⟩
  rintro ⟨⟨bs, hblocks⟩, -, -⟩
  obtain ⟨-, bs₁, h₁⟩ := hblocks.next (by decide)
  obtain ⟨-, bs₂, h₂⟩ := h₁.next (by decide)
  obtain ⟨hmagic, -⟩ := h₂.next (by decide)
  exact absurd hmagic (by decide)

end CldcVm.Malloc
