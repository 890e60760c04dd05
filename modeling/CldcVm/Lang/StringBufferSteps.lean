import CldcVm.Lang.StringBuffer

/-!
# What the methods of string buffers write

Results:

* `take_blit`, `take_fillZeros`, `take_swapFrom`: the characters after a copy, zeros and a reversal.
* `Valid`: the strings that share the array of the buffer lie below its length.
* `Valid.write`, `Valid.useNew`: what may be written to the array, and a new array.
* `Ready`, `Ends.reserve`, `Ends.reserveOwn`: the buffer is ready for a write, or the memory has
  refused an array.
-/

namespace CldcVm.StringBuffers

/-! ## Lists of characters -/

variable {src dst chars : List Jchar}

variable {dstPos srcPos : ℕ}

theorem length_blit {len : ℕ} (hsrc : srcPos + len ≤ src.length)
    (hdst : dstPos + len ≤ dst.length) : (blit src srcPos dst dstPos len).length = dst.length := by
  simp [blit]
  omega

theorem take_blit {len : ℕ} (hsrc : srcPos + len ≤ src.length) (hdst : dstPos + len ≤ dst.length) :
    (blit src srcPos dst dstPos len).take (dstPos + len) =
      dst.take dstPos ++ (src.drop srcPos).take len := by
  rw [blit, List.take_left']
  simp
  omega

variable {n : ℕ}

theorem take_blit_of_le {len : ℕ} (hn : n ≤ dstPos) (hdst : dstPos ≤ dst.length) :
    (blit src srcPos dst dstPos len).take n = dst.take n := by
  rw [blit, List.append_assoc, List.take_append_of_le_length (by simp; omega), List.take_take,
    Nat.min_eq_left hn]

theorem length_fillZeros (k count : ℕ) (chars : List Jchar) :
    (fillZeros k count chars).length = chars.length := by
  induction k generalizing count chars with
  | zero => rfl
  | succ k ih => rw [fillZeros, ih, List.length_set]

/-- Zeros are put after the first `count` characters. -/
theorem take_fillZeros (k count : ℕ) (chars : List Jchar) (h : count + k ≤ chars.length) :
    (fillZeros k count chars).take (count + k) =
      chars.take count ++ List.replicate k (0 : Jchar) := by
  induction k generalizing count chars with
  | zero => simp [fillZeros]
  | succ k ih =>
    have hset : (chars.set count 0).take (count + 1) = chars.take count ++ [(0 : Jchar)] := by
      rw [List.take_add_one, List.take_set_of_le le_rfl]
      simp [show count < chars.length by omega]
    rw [fillZeros, show count + (k + 1) = count + 1 + k by omega,
      ih (count + 1) _ (by rw [List.length_set]; omega), hset, List.append_assoc,
      List.replicate_succ]
    rfl

theorem length_swapFrom (n j : ℕ) (chars : List Jchar) :
    (swapFrom n j chars).length = chars.length := by
  induction j generalizing chars with
  | zero => rfl
  | succ j ih => rw [swapFrom, ih, List.length_set, List.length_set]

/-- Positions below `j` change places with those above `n - j`. -/
theorem getElem?_swapFrom {n : ℕ} (j : ℕ) (chars : List Jchar) (hj : 2 * j ≤ n + 1)
    (hn : n < chars.length) (i : ℕ) :
    (swapFrom n j chars)[i]? = if i < j ∨ i ≤ n ∧ n - i < j then chars[n - i]? else chars[i]? := by
  induction j generalizing chars with
  | zero => simp [swapFrom]
  | succ j ih =>
    have hget : ∀ x < chars.length, chars[x]? = some (chars.getD x 0) := by
      intro x hx
      rw [List.getD_eq_getElem?_getD, List.getElem?_eq_getElem hx]
      rfl
    rw [swapFrom, ih _ (by omega) (by simp; omega)]
    simp only [List.getElem?_set, List.length_set]
    by_cases hlow : i < j
    · rw [if_pos (Or.inl hlow), if_pos (Or.inl (by omega)), if_neg (by omega), if_neg (by omega)]
    · by_cases hhigh : i ≤ n ∧ n - i < j
      · rw [if_pos (Or.inr hhigh), if_pos (Or.inr ⟨hhigh.1, by omega⟩), if_neg (by omega),
          if_neg (by omega)]
      · rw [if_neg (by omega)]
        by_cases hfirst : i = j
        · subst hfirst
          rw [if_pos (Or.inl (by omega)), if_neg (by omega), if_pos rfl, if_pos (by omega),
            hget (n - i) (by omega)]
        · by_cases hlast : n - j = i
          · rw [if_pos hlast, if_pos (by omega), if_pos (Or.inr ⟨by omega, by omega⟩),
              show n - i = j by omega, hget j (by omega)]
          · rw [if_neg hlast, if_neg (by omega), if_neg (by omega)]

/-- The first characters are reversed. -/
theorem take_swapFrom {count : ℕ} (h : count ≤ chars.length) :
    (swapFrom (count - 1) (count / 2) chars).take count = (chars.take count).reverse := by
  by_cases hzero : count = 0
  · simp [hzero]
  · refine List.ext_getElem? fun i => ?_
    rw [List.getElem?_take]
    by_cases hi : i < count
    · have hright : (chars.take count).reverse[i]? = chars[count - 1 - i]? := by
        rw [List.getElem?_reverse (by simp; omega), List.length_take, Nat.min_eq_left h,
          List.getElem?_take, if_pos (by omega)]
      rw [if_pos hi, hright, getElem?_swapFrom _ _ (by omega) (by omega)]
      by_cases hmoved : i < count / 2 ∨ i ≤ count - 1 ∧ count - 1 - i < count / 2
      · rw [if_pos hmoved]
      · rw [if_neg hmoved, show count - 1 - i = i by omega]
    · rw [if_neg hi, List.getElem?_eq_none (by simp; omega)]

/-! ## Buffers -/

variable {m m' : Machine} {memory : Memory}

/-- The characters of a buffer. -/
def Machine.contents (m : Machine) : List Jchar := m.chars.take m.count

/-- A buffer and its strings. The strings that share its array lie below its length. -/
structure Valid (m : Machine) : Prop where
  value : m.value < m.fresh
  count : m.count ≤ m.capacity
  limit : m.capacity ≤ 0x08000000
  strings : ∀ s ∈ m.strings, s.value < m.fresh ∧ s.count ≤ (m.arrays s.value).length ∧
    s.count ≤ 0x08000000 ∧ (s.value = m.value → m.shared = true ∧ s.count ≤ m.count)

theorem Valid.length_contents (h : Valid m) : m.contents.length = m.count := by
  have hcount : m.count ≤ m.chars.length := h.count
  rw [Machine.contents, List.length_take, Nat.min_eq_left hcount]

/-- The strings keep their characters. -/
structure Keeps (m m' : Machine) : Prop where
  strings : m'.strings = m.strings
  chars : ∀ s ∈ m.strings, m'.charsOf s = m.charsOf s

theorem Keeps.refl (m : Machine) : Keeps m m := ⟨rfl, fun _ _ => rfl⟩

theorem Keeps.trans {m'' : Machine} (h : Keeps m m') (h' : Keeps m' m'') : Keeps m m'' := by
  refine ⟨h'.strings.trans h.strings, fun s hs => ?_⟩
  rw [h'.chars s (h.strings.symm ▸ hs), h.chars s hs]

theorem Keeps.resolve (h : Keeps m m') (str : Str) : m'.resolve str = m.resolve str := by
  match str with
  | .literal chars => rfl
  | .obtained i =>
    rw [Machine.resolve, Machine.resolve, h.strings]
    match hi : m.strings[i]? with
    | none => rfl
    | some s => exact h.chars s (List.mem_of_getElem? hi)

@[simp] theorem chars_useNew (m : Machine) (chars : List Jchar) : (m.useNew chars).chars = chars :=
  Function.update_self ..

@[simp] theorem chars_setChars (m : Machine) (chars : List Jchar) :
    (m.setChars chars).chars = chars :=
  Function.update_self ..

@[simp] theorem setChars_setChars (m : Machine) (chars chars' : List Jchar) :
    (m.setChars chars).setChars chars' = m.setChars chars' := by
  simp [Machine.setChars]

/-- **Step lemma**: the array is written, and with a shared array only above the length. -/
theorem Valid.write (h : Valid m) {chars : List Jchar}
    (hlength : chars.length = m.capacity) (hn : n ≤ m.capacity)
    (hshared : m.shared = true → m.count ≤ n ∧ chars.take m.count = m.contents) :
    Valid { m.setChars chars with count := n } ∧ Keeps m { m.setChars chars with count := n } ∧
      ({ m.setChars chars with count := n } : Machine).contents = chars.take n := by
  have hchars : ({ m.setChars chars with count := n } : Machine).chars = chars :=
    Function.update_self ..
  have hother : ∀ r ≠ m.value, (m.setChars chars).arrays r = m.arrays r :=
    fun r hr => Function.update_of_ne hr ..
  have hself : (m.setChars chars).arrays m.value = chars := Function.update_self ..
  have hcapacity : ({ m.setChars chars with count := n } : Machine).capacity = m.capacity := by
    rw [Machine.capacity, hchars, hlength]
  refine ⟨⟨h.value, hcapacity.symm ▸ hn, hcapacity.symm ▸ h.limit, fun s hs => ?_⟩,
    ⟨rfl, fun s hs => ?_⟩, ?_⟩
  · obtain ⟨hvalue, hcount, hlimit, hown⟩ := h.strings s hs
    refine ⟨hvalue, ?_, hlimit, fun heq => ?_⟩
    · by_cases heq : s.value = m.value
      · change s.count ≤ ((m.setChars chars).arrays s.value).length
        rw [heq, hself, hlength]
        rw [heq] at hcount
        exact hcount
      · change s.count ≤ ((m.setChars chars).arrays s.value).length
        rw [hother _ heq]
        exact hcount
    · obtain ⟨hs', hle⟩ := hown heq
      exact ⟨hs', hle.trans (hshared hs').1⟩
  · change ((m.setChars chars).arrays s.value).take s.count = (m.arrays s.value).take s.count
    by_cases heq : s.value = m.value
    · obtain ⟨hs', hle⟩ := (h.strings s hs).2.2.2 heq
      have htake := congrArg (List.take s.count) (hshared hs').2
      rw [Machine.contents, List.take_take, List.take_take, Nat.min_eq_left hle] at htake
      rw [heq, hself]
      exact htake
    · rw [hother _ heq]
  · rw [Machine.contents, hchars]

/-- **Step lemma**: a new array. -/
theorem Valid.useNew (h : Valid m) {chars : List Jchar} {n : ℕ} (hn : n ≤ chars.length)
    (hlimit : chars.length ≤ 0x08000000) :
    Valid { m.useNew chars with count := n } ∧ Keeps m { m.useNew chars with count := n } ∧
      ({ m.useNew chars with count := n } : Machine).contents = chars.take n := by
  have hself : (m.useNew chars).arrays m.fresh = chars := Function.update_self ..
  have hother : ∀ r < m.fresh, (m.useNew chars).arrays r = m.arrays r :=
    fun r hr => Function.update_of_ne hr.ne ..
  have hchars : ({ m.useNew chars with count := n } : Machine).chars = chars := hself
  have hcapacity : ({ m.useNew chars with count := n } : Machine).capacity = chars.length := by
    rw [Machine.capacity, hchars]
  refine ⟨⟨Nat.lt_succ_self _, hcapacity.symm ▸ hn, hcapacity.symm ▸ hlimit, fun s hs => ?_⟩,
    ⟨rfl, fun s hs => ?_⟩, ?_⟩
  · obtain ⟨hvalue, hcount, hlimit, -⟩ := h.strings s hs
    refine ⟨hvalue.trans (Nat.lt_succ_self _), ?_, hlimit, fun heq => ?_⟩
    · change s.count ≤ ((m.useNew chars).arrays s.value).length
      rw [hother _ hvalue]
      exact hcount
    · change s.value = m.fresh at heq
      omega
  · change ((m.useNew chars).arrays s.value).take s.count = (m.arrays s.value).take s.count
    rw [hother _ (h.strings s hs).1]
  · rw [Machine.contents, hchars]

theorem Valid.setCount (h : Valid m) (hn : n ≤ m.capacity)
    (hshared : m.shared = true → m.count ≤ n) :
    Valid { m with count := n } ∧ Keeps m { m with count := n } ∧
      ({ m with count := n } : Machine).contents = m.chars.take n := by
  refine ⟨⟨h.value, hn, h.limit, fun s hs => ?_⟩, ⟨rfl, fun _ _ => rfl⟩, rfl⟩
  obtain ⟨hvalue, hcount, hlimit, hown⟩ := h.strings s hs
  refine ⟨hvalue, hcount, hlimit, fun heq => ?_⟩
  exact ⟨(hown heq).1, (hown heq).2.trans (hshared (hown heq).1)⟩

/-! ## Preparations of a write -/

/-- The memory refuses an array that is not longer than a bound. -/
def Memory.Refuses (memory : Memory) (bound : ℤ) : Prop :=
  ∃ n : ℕ, (n : ℤ) ≤ bound ∧ memory.array n = false

/-- The longest array that a method may ask for, which needs room for `newcount` characters. -/
def Machine.demand (m : Machine) (newcount : ℤ) : ℤ :=
  max 16 (max (2 * ((m.capacity : ℤ) + 1)) newcount)

/-- What an operation does to a buffer whose characters it should replace; `none` is an exception.
The memory may refuse an array, and then nothing changes. -/
def Ends (m : Machine) (memory : Memory) (bound : ℤ) (goal : Option (List Jchar)) :
    Outcome × Machine → Prop
  | (.done, m') => Valid m' ∧ Keeps m m' ∧ goal = some m'.contents
  | (.thrown e, m') => Valid m' ∧ Keeps m m' ∧ m'.contents = m.contents ∧
      if e = .outOfMemoryError then memory.Refuses bound else goal = none
  | (.corrupted, _) => False

/-- A buffer with the same characters and a large enough array. -/
structure Ready (m : Machine) (newcount : ℤ) (m' : Machine) : Prop where
  valid : Valid m'
  keeps : Keeps m m'
  contents : m'.contents = m.contents
  count : m'.count = m.count
  capacity : newcount ≤ m'.capacity

variable {bound newcount : ℤ} {goal : Option (List Jchar)} {next : Machine → Outcome × Machine}

theorem Ready.refl (h : Valid m) (hn : newcount ≤ m.capacity) : Ready m newcount m :=
  ⟨h, .refl m, rfl, rfl, hn⟩

theorem Ends.refused (h : Valid m) (hrefuses : memory.Refuses bound) :
    Ends m memory bound goal (.thrown .outOfMemoryError, m) :=
  ⟨h, .refl m, rfl, by rw [if_pos rfl]; exact hrefuses⟩

theorem Ready.thrown (h : Ready m newcount m') {e : Thrown} (he : e ≠ .outOfMemoryError)
    (hgoal : goal = none) : Ends m memory bound goal (.thrown e, m') :=
  ⟨h.valid, h.keeps, h.contents, by rw [if_neg he]; exact hgoal⟩

theorem reallocate_of_granted {length : ℤ} (hcount : m.count ≤ m.capacity) (hle : m.count ≤ length)
    (hgranted : memory.array length.toNat = true) :
    ∃ chars : List Jchar, chars.length = length.toNat ∧ chars.take m.count = m.chars.take m.count ∧
      m.reallocate memory length = (.done, m.useNew chars) := by
  have hcount' : m.count ≤ m.chars.length := hcount
  have hlen : (List.replicate length.toNat (0 : Jchar)).length = length.toNat :=
    List.length_replicate
  have hrange : InRange m.chars (List.replicate length.toNat 0) 0 0 m.count :=
    ⟨le_rfl, le_rfl, by omega, by omega, by rw [hlen]; omega⟩
  refine ⟨blit m.chars 0 (List.replicate length.toNat 0) 0 m.count, ?_, ?_, ?_⟩
  · rw [length_blit (by omega) (by rw [hlen]; omega), hlen]
  · have htake :
        (blit m.chars 0 (List.replicate length.toNat 0) 0 m.count).take (0 + m.count) = _ :=
      take_blit (by omega) (by rw [hlen]; omega)
    simpa using htake
  · rw [Machine.reallocate, if_neg (by omega), if_neg (by simp [hgranted]), if_pos hrange]

/-- **Step lemma**: a new array with the same characters. -/
theorem Ends.reallocate (h : Valid m) {length : ℤ} (hcount : m.count ≤ length)
    (hbound : length ≤ bound)
    (hnext : ∀ m', Ready m length m' → m'.shared = false → Ends m memory bound goal (next m')) :
    Ends m memory bound goal (andThen (m.reallocate memory length) next) := by
  by_cases hgranted : memory.array length.toNat = true
  · obtain ⟨chars, hlength, htake, hdone⟩ := reallocate_of_granted h.count hcount hgranted
    obtain ⟨hvalid, hkeeps, hcontents⟩ := h.useNew (n := m.count) (by omega)
      (hlength ▸ memory.limit _ hgranted)
    rw [hdone]
    refine hnext _ ⟨hvalid, hkeeps, hcontents.trans htake, rfl, ?_⟩ rfl
    rw [Machine.capacity, chars_useNew, hlength]
    omega
  · rw [Machine.reallocate, if_neg (by omega), if_pos hgranted]
    exact .refused h ⟨length.toNat, by omega, by simpa using hgranted⟩

/-- **Spec lemma** of `if (shared) copy()`. -/
theorem Ends.unshare (h : Valid m) (hn : newcount ≤ m.capacity) (hbound : m.capacity ≤ bound)
    (hnext : ∀ m', Ready m newcount m' → m'.shared = false → Ends m memory bound goal (next m')) :
    Ends m memory bound goal (andThen (m.unshare memory) next) := by
  have hcount := h.count
  by_cases hshared : m.shared = true
  · rw [Machine.unshare, if_pos hshared, Machine.copy]
    exact .reallocate h (by omega) hbound fun m' h' hown =>
      hnext m' ⟨h'.valid, h'.keeps, h'.contents, h'.count, hn.trans h'.capacity⟩ hown
  · rw [Machine.unshare, if_neg hshared]
    exact hnext m (.refl h hn) (by simpa using hshared)

/-- **Spec lemma** of `expandCapacity`. -/
theorem Ends.expandCapacity (h : Valid m) (hn : m.capacity < newcount)
    (hbound : m.demand newcount ≤ bound)
    (hnext : ∀ m', Ready m newcount m' → m'.shared = false → Ends m memory bound goal (next m')) :
    Ends m memory bound goal (andThen (m.expandCapacity memory newcount) next) := by
  have hcount := h.count
  have hlimit := h.limit
  rw [Machine.demand] at hbound
  have hdouble : jint (jint (m.capacity + 1) * 2) = 2 * (m.capacity + 1) := by
    rw [jint_eq (x := m.capacity + 1) (by omega) (by omega), jint_eq (by omega) (by omega)]
    ring
  rw [Machine.expandCapacity, hdouble]
  have hnew : (if 2 * ((m.capacity : ℤ) + 1) < 0 then 2 ^ 31 - 1
      else if newcount > 2 * ((m.capacity : ℤ) + 1) then newcount
      else 2 * ((m.capacity : ℤ) + 1)) = max (2 * ((m.capacity : ℤ) + 1)) newcount := by
    rw [if_neg (by omega)]
    split_ifs <;> omega
  show Ends m memory bound goal (andThen (m.reallocate memory _) next)
  rw [hnew]
  exact .reallocate h (by omega) (by omega) fun m' h' hown =>
    hnext m' ⟨h'.valid, h'.keeps, h'.contents, h'.count, (le_max_right _ _).trans h'.capacity⟩ hown

/-- **Spec lemma** of `if (newcount > value.length) expandCapacity(newcount)`: a buffer that is
still shared is the same one. -/
theorem Ends.reserve (h : Valid m) (hbound : m.demand newcount ≤ bound)
    (hnext : ∀ m', Ready m newcount m' → (m'.shared = true → m' = m) →
      Ends m memory bound goal (next m')) :
    Ends m memory bound goal (andThen (m.reserve memory newcount) next) := by
  by_cases hn : newcount > m.capacity
  · rw [Machine.reserve, if_pos hn]
    refine .expandCapacity h hn hbound fun m' h' hown => hnext m' h' fun hshared => ?_
    rw [hown] at hshared
    exact absurd hshared (by decide)
  · rw [Machine.reserve, if_neg hn]
    exact hnext m (.refl h (by omega)) fun _ => rfl

/-- **Spec lemma**: the buffer has an array of its own. -/
theorem Ends.reserveOwn (h : Valid m) (hbound : m.demand newcount ≤ bound)
    (hnext : ∀ m', Ready m newcount m' → m'.shared = false → Ends m memory bound goal (next m')) :
    Ends m memory bound goal (andThen (m.reserveOwn memory newcount) next) := by
  by_cases hn : newcount > m.capacity
  · rw [Machine.reserveOwn, if_pos hn]
    exact .expandCapacity h hn hbound hnext
  · rw [Machine.reserveOwn, if_neg hn]
    rw [Machine.demand] at hbound
    exact .unshare h (by omega) (by omega) hnext

theorem Ready.ends (h : Ready m newcount m') {r : Outcome × Machine}
    (hr : Ends m' memory bound goal r) : Ends m memory bound goal r := by
  match r, hr with
  | (.done, m''), ⟨hvalid, hkeeps, hgoal⟩ => exact ⟨hvalid, h.keeps.trans hkeeps, hgoal⟩
  | (.thrown e, m''), ⟨hvalid, hkeeps, hcontents, he⟩ =>
    exact ⟨hvalid, h.keeps.trans hkeeps, hcontents.trans h.contents, he⟩

/-- **Step lemma**: the last step of an operation. -/
theorem Ready.write (h : Ready m newcount m') {chars : List Jchar}
    (hlength : chars.length = m'.capacity) (hn : n ≤ m'.capacity)
    (hshared : m'.shared = true → m'.count ≤ n ∧ chars.take m'.count = m'.contents)
    (hgoal : goal = some (chars.take n)) :
    Ends m memory bound goal (.done, { m'.setChars chars with count := n }) := by
  obtain ⟨hvalid, hkeeps, hcontents⟩ := h.valid.write hlength hn hshared
  exact ⟨hvalid, h.keeps.trans hkeeps, by rw [hgoal, hcontents]⟩

end CldcVm.StringBuffers
