import CldcVm.Lang.StringBufferSteps

/-!
# The methods of string buffers and plain lists of characters

Results:

* `Op.edit`: what a method does to a list of characters.
* `execute_ends`: a method of a buffer does the same to its characters, and the strings keep theirs,
  unless a shared buffer becomes shorter while the memory refuses an array.
-/

namespace CldcVm.StringBuffers

/-- The characters of a string, among the strings that have been made. -/
def Str.text (strings : List (List Jchar)) : Str → List Jchar
  | .literal chars => chars.1
  | .obtained i => strings.getD i nullChars.1

/-- What a method does to a list of characters; `none` is an exception. -/
def Op.edit (strings : List (List Jchar)) (l : List Jchar) : Op → Option (List Jchar)
  | .appendString str => some (l ++ str.text strings)
  | .appendChars str => some (l ++ str.1)
  | .appendRange str offset len =>
    if 0 ≤ offset ∧ 0 ≤ len ∧ offset + len ≤ str.1.length then
      some (l ++ (str.1.drop offset.toNat).take len.toNat)
    else none
  | .appendChar c => some (l ++ [c])
  | .insertString offset str =>
    if 0 ≤ offset ∧ offset ≤ l.length then
      some (l.take offset.toNat ++ str.text strings ++ l.drop offset.toNat)
    else none
  | .insertChars offset str =>
    if 0 ≤ offset ∧ offset ≤ l.length then
      some (l.take offset.toNat ++ str.1 ++ l.drop offset.toNat)
    else none
  | .insertChar offset c =>
    if 0 ≤ offset ∧ offset ≤ l.length then
      some (l.take offset.toNat ++ [c] ++ l.drop offset.toNat)
    else none
  | .delete start stop =>
    if 0 ≤ start ∧ start ≤ min stop l.length then
      some (l.take start.toNat ++ l.drop stop.toNat)
    else none
  | .deleteCharAt index =>
    if 0 ≤ index ∧ index < l.length then some (l.eraseIdx index.toNat) else none
  | .setCharAt index ch =>
    if 0 ≤ index ∧ index < l.length then some (l.set index.toNat ch) else none
  | .setLength newLength =>
    if 0 ≤ newLength then
      some (l.take newLength.toNat ++ List.replicate (newLength.toNat - l.length) 0)
    else none
  | .reverse => some l.reverse
  | .ensureCapacity _ => some l
  | .toString => some l

/-- The number of characters that a method needs room for. -/
def Op.room (strings : List (List Jchar)) (l : List Jchar) : Op → ℤ
  | .appendString str => l.length + (str.text strings).length
  | .appendChars str => l.length + str.1.length
  | .appendRange _ _ len => jint (l.length + len)
  | .appendChar _ => l.length + 1
  | .insertString _ str => l.length + (str.text strings).length
  | .insertChars _ str => l.length + str.1.length
  | .insertChar _ _ => l.length + 1
  | .setLength newLength => newLength
  | .ensureCapacity minimumCapacity => minimumCapacity
  | _ => 0

/-- A shared buffer that becomes shorter gets an array. -/
def Op.Granted (memory : Memory) (m : Machine) : Op → Prop
  | .setLength newLength =>
    0 ≤ newLength → newLength < m.count → m.shared = true →
      memory.array (if newLength = 0 then 16 else m.capacity) = true
  | _ => True

variable {m m' : Machine} {memory : Memory} {bound newcount : ℤ} {goal : Option (List Jchar)}

/-- The characters of the strings as they are now. -/
def Machine.texts (m : Machine) : List (List Jchar) := m.strings.map m.charsOf

theorem resolve_eq_text (m : Machine) (str : Str) : m.resolve str = str.text m.texts := by
  cases str with
  | literal chars => rfl
  | obtained i =>
    rw [Machine.resolve, Str.text, List.getD_eq_getElem?_getD, Machine.texts, List.getElem?_map]
    cases m.strings[i]? with
    | none => rfl
    | some s => rfl

theorem Valid.length_resolve (h : Valid m) (str : Str) : (m.resolve str).length ≤ 0x08000000 := by
  cases str with
  | literal chars => exact chars.2
  | obtained i =>
    rw [Machine.resolve]
    cases hi : m.strings[i]? with
    | none => exact nullChars.2
    | some s =>
      have hlimit := (h.strings s (List.mem_of_getElem? hi)).2.2.1
      exact (List.length_take_le ..).trans hlimit

theorem Ready.take_count (h : Ready m newcount m') : m'.chars.take m.count = m.contents := by
  rw [← h.contents, Machine.contents, h.count]

/-! ## Append -/

variable {src : List Jchar}

/-- **Step lemma** of every `append`: characters after those of the buffer. -/
theorem Ready.append (h : Ready m newcount m') {srcPos len : ℕ}
    (hsrc : srcPos + len ≤ src.length) (hroom : ((m.count + len : ℕ) : ℤ) ≤ newcount)
    (hgoal : goal = some (m.contents ++ (src.drop srcPos).take len)) :
    Ends m memory bound goal (.done, { m'.setChars (blit src srcPos m'.chars m.count len) with
        count := m.count + len }) := by
  have hcapacity := h.capacity
  have hdst : m.count + len ≤ m'.chars.length := by
    change _ ≤ m'.capacity
    omega
  refine h.write (length_blit hsrc hdst) hdst (fun _ => ⟨by rw [h.count]; omega, ?_⟩) ?_
  · rw [h.count, take_blit_of_le le_rfl (by omega), h.take_count, h.contents]
  · rw [hgoal, take_blit hsrc hdst, h.take_count]

variable {failure : Outcome} {src₀ : List Jchar}

/-- **Spec lemma** of the `append` methods that copy: a reservation, a copy and the new length. -/
theorem append_ends (h : Valid m) {src : Machine → List Jchar}
    (hsrc : ∀ m', Keeps m m' → src m' = src₀) {srcPos len : ℤ}
    (hbound : m.demand (jint (m.count + len)) ≤ bound) (hlen : src₀.length ≤ 0x08000000)
    (hfailure : ¬ (0 ≤ srcPos ∧ 0 ≤ len ∧ srcPos + len ≤ src₀.length) →
      failure = .thrown .indexOutOfBounds ∧ goal = none)
    (hgoal : 0 ≤ srcPos ∧ 0 ≤ len ∧ srcPos + len ≤ src₀.length →
      goal = some (m.contents ++ (src₀.drop srcPos.toNat).take len.toNat)) :
    Ends m memory bound goal (andThen (m.reserve memory (jint (m.count + len))) fun m' =>
      andThen (m'.copyInto failure (src m') srcPos m'.count len) fun m' =>
        m'.setCount (jint (m.count + len))) := by
  have hcount := h.count
  have hlimit := h.limit
  refine .reserve h hbound fun m' h' _ => ?_
  rw [hsrc m' h'.keeps, h'.count, Machine.copyInto]
  by_cases hrange : 0 ≤ srcPos ∧ 0 ≤ len ∧ srcPos + len ≤ src₀.length
  · have hjint : jint (m.count + len) = m.count + len := jint_eq (by omega) (by omega)
    have hcapacity := h'.capacity
    rw [hjint] at hcapacity ⊢
    have hin : InRange src₀ m'.chars srcPos m.count len := by
      refine ⟨hrange.1, by omega, hrange.2.1, hrange.2.2, ?_⟩
      exact hcapacity
    rw [if_pos hin]
    have htotal : ((m.count : ℤ) + len).toNat = m.count + len.toNat := by omega
    have happend : Ends m memory bound goal (.done,
        { m'.setChars (blit src₀ srcPos.toNat m'.chars m.count len.toNat) with
          count := m.count + len.toNat }) :=
      h'.append (by omega) (by rw [hjint]; omega) (hgoal hrange)
    simpa [andThen, Machine.setCount, htotal] using happend
  · have hout : ¬ InRange src₀ m'.chars srcPos m.count len := fun hin =>
      hrange ⟨hin.1, hin.2.2.1, hin.2.2.2.1⟩
    obtain ⟨hthrown, hnone⟩ := hfailure hrange
    rw [if_neg hout, hthrown]
    exact h'.thrown (by decide) hnone

theorem set_eq_blit {chars : List Jchar} {i : ℕ} (h : i < chars.length) (c : Jchar) :
    chars.set i c = blit [c] 0 chars i 1 := by
  rw [List.set_eq_take_append_cons_drop, if_pos h, blit]
  simp

/-- `append(char)`. -/
theorem appendChar_ends (h : Valid m) (c : Jchar) (hbound : m.demand (m.count + 1) ≤ bound) :
    Ends m memory bound (some (m.contents ++ [c])) (m.appendChar memory c) := by
  have hcount := h.count
  have hlimit := h.limit
  have hjint : jint (m.count + 1) = ((m.count + 1 : ℕ) : ℤ) := by
    rw [jint_eq (by omega) (by omega)]
    push_cast
    rfl
  rw [Machine.appendChar, hjint]
  refine .reserve h (by push_cast; exact hbound) fun m' h' _ => ?_
  have hcapacity := h'.capacity
  have hroom : m.count + 1 ≤ m'.chars.length := by
    change _ ≤ m'.capacity
    omega
  rw [h'.count, set_eq_blit (by omega)]
  exact h'.append le_rfl le_rfl rfl

/-! ## Insert -/

/-- The characters after an insertion. -/
theorem take_insert {chars : List Jchar} {o len k : ℕ} (hsrc : len ≤ src.length)
    (hchars : o + len + k ≤ chars.length) :
    (blit src 0 (blit chars o chars (o + len) k) o len).take (o + len + k) =
      chars.take o ++ src.take len ++ (chars.drop o).take k := by
  have hmoved : (blit chars o chars (o + len) k).length = chars.length :=
    length_blit (by omega) hchars
  have htail : ((blit chars o chars (o + len) k).drop (o + len)).take k =
      (chars.drop o).take k := by
    rw [List.take_drop, take_blit (by omega) hchars, List.drop_left' (by simp; omega)]
  rw [blit, List.take_append, List.take_of_length_le (by simp; omega),
    take_blit_of_le (by omega) (by omega), List.drop_zero]
  congr 1
  rw [show o + len + k - (List.take o chars ++ List.take len src).length = k by simp; omega, htail]

/-- **Step lemma** of every `insert`: characters in the middle of a buffer with its own array. -/
theorem Ready.insert (h : Ready m newcount m') (hown : m'.shared = false)
    {o len : ℕ} (hsrc : src.length = len) (ho : o ≤ m.count)
    (hroom : ((m.count + len : ℕ) : ℤ) ≤ newcount)
    (hgoal : goal = some (m.contents.take o ++ src ++ m.contents.drop o)) :
    Ends m memory bound goal (.done,
        { m'.setChars (blit src 0 (blit m'.chars o m'.chars (o + len) (m.count - o)) o len) with
          count := m.count + len }) := by
  have hcapacity := h.capacity
  have hchars : o + len + (m.count - o) ≤ m'.chars.length := by
    change _ ≤ m'.capacity
    omega
  refine h.write ?_ (by omega) (fun hshared => ?_) ?_
  · rw [length_blit (by omega), length_blit (by omega) hchars]
    · rfl
    · rw [length_blit (by omega) hchars]
      omega
  · rw [hown] at hshared
    exact absurd hshared (by decide)
  · have htake : (blit src 0 (blit m'.chars o m'.chars (o + len) (m.count - o)) o len).take
        (o + len + (m.count - o)) = _ := take_insert (by omega) hchars
    rw [show o + len + (m.count - o) = m.count + len by omega] at htake
    rw [hgoal, htake, ← h.take_count, List.take_take, Nat.min_eq_left ho, List.drop_take,
      List.take_of_length_le hsrc.le]

/-- **Spec lemma** of the `insert` methods that copy: the offset is inside the buffer. -/
theorem insert_ends (h : Valid m) {src : Machine → List Jchar}
    (hsrc : ∀ m', Keeps m m' → src m' = src₀) {offset : ℤ}
    (hbound : m.demand (m.count + src₀.length) ≤ bound) (hlen : src₀.length ≤ 0x08000000)
    (hoffset : 0 ≤ offset ∧ offset ≤ m.count)
    (hgoal : goal = some (m.contents.take offset.toNat ++ src₀ ++ m.contents.drop offset.toNat)) :
    Ends m memory bound goal (andThen (m.reserveOwn memory (jint (m.count + src₀.length))) fun m' =>
      andThen (m'.uncheckedCopy m'.chars offset (offset + src₀.length) (m'.count - offset))
        fun m' => andThen (m'.copyInto failure (src m') 0 offset src₀.length) fun m' =>
          m'.setCount (jint (m.count + src₀.length))) := by
  have hcount := h.count
  have hlimit := h.limit
  have hjint : jint (m.count + src₀.length) = ((m.count + src₀.length : ℕ) : ℤ) := by
    rw [jint_eq (by omega) (by omega)]
    push_cast
    rfl
  rw [hjint]
  refine .reserveOwn h (by push_cast; exact hbound) fun m' h' hown => ?_
  obtain ⟨hnonneg, hle⟩ := hoffset
  obtain ⟨o, rfl⟩ := Int.eq_ofNat_of_zero_le hnonneg
  have hcapacity := h'.capacity
  have hroom : m.count + src₀.length ≤ m'.chars.length := by
    change _ ≤ m'.capacity
    omega
  have hfirst : InRange m'.chars m'.chars o (o + src₀.length) (m.count - o) :=
    ⟨by omega, by omega, by omega, by omega, by omega⟩
  set moved := blit m'.chars o m'.chars (o + src₀.length) (m.count - o) with hmoved
  have hmovedLength : moved.length = m'.chars.length :=
    length_blit (by omega) (by omega)
  have hkeeps : Keeps m (m'.setChars moved) := by
    refine h'.keeps.trans (h'.valid.write (n := m'.count) hmovedLength h'.valid.count ?_).2.1
    intro hshared
    rw [hown] at hshared
    exact absurd hshared (by decide)
  have hsecond : InRange src₀ (m'.setChars moved).chars 0 o src₀.length := by
    refine ⟨le_rfl, by omega, by omega, by omega, ?_⟩
    rw [chars_setChars, hmovedLength]
    omega
  have hinsert : Ends m memory bound goal (.done,
      { m'.setChars (blit src₀ 0 moved o src₀.length) with count := m.count + src₀.length }) :=
    h'.insert hown rfl (by omega) le_rfl hgoal
  have htotal : ((m.count + src₀.length : ℕ) : ℤ).toNat = m.count + src₀.length := by omega
  have hcopy : m'.uncheckedCopy m'.chars o (o + src₀.length) (m'.count - o) =
      (.done, m'.setChars moved) := by
    rw [Machine.uncheckedCopy, Machine.copyInto, h'.count, if_pos hfirst, hmoved]
    congr 4
    omega
  rw [hcopy]
  show Ends m memory bound goal (andThen ((m'.setChars moved).copyInto failure
    (src (m'.setChars moved)) 0 o src₀.length) fun m' => m'.setCount _)
  rw [hsrc _ hkeeps, Machine.copyInto, if_pos hsecond]
  simpa only [andThen, Machine.setCount, htotal, setChars_setChars, chars_setChars,
    Int.toNat_natCast, Int.toNat_zero] using hinsert

/-- `insert(int, char)`. -/
theorem insertChar_ends (h : Valid m) (offset : ℤ) (c : Jchar)
    (hbound : m.demand (m.count + 1) ≤ bound) :
    Ends m memory bound (if 0 ≤ offset ∧ offset ≤ m.count then
        some (m.contents.take offset.toNat ++ [c] ++ m.contents.drop offset.toNat)
      else none) (m.insertChar memory offset c) := by
  have hcount := h.count
  have hlimit := h.limit
  have hjint : jint (m.count + 1) = ((m.count + 1 : ℕ) : ℤ) := by
    rw [jint_eq (by omega) (by omega)]
    push_cast
    rfl
  rw [Machine.insertChar, hjint]
  refine .reserveOwn h (by push_cast; exact hbound) fun m' h' hown => ?_
  have hcapacity := h'.capacity
  have hlimit' := h'.valid.limit
  rw [h'.count, Machine.systemCopy, Machine.copyInto]
  by_cases hoffset : 0 ≤ offset ∧ offset ≤ m.count
  · obtain ⟨o, rfl⟩ := Int.eq_ofNat_of_zero_le hoffset.1
    have hroom : m.count + 1 ≤ m'.chars.length := by
      change _ ≤ m'.capacity
      omega
    have hstart : jint (o + 1) = ((o + 1 : ℕ) : ℤ) := by
      rw [jint_eq (by omega) (by omega)]
      push_cast
      rfl
    have hrest : jint (m.count - o) = ((m.count - o : ℕ) : ℤ) := by
      rw [jint_eq (by omega) (by omega)]
      omega
    have hin : InRange m'.chars m'.chars o ((o + 1 : ℕ) : ℤ) ((m.count - o : ℕ) : ℤ) :=
      ⟨by omega, by omega, by omega, by omega, by omega⟩
    rw [hstart, hrest, if_pos hin, if_pos hoffset]
    have hmoved : (blit m'.chars o m'.chars (o + 1) (m.count - o)).length = m'.chars.length :=
      length_blit (by omega) (by omega)
    have hinsert : Ends m memory bound
        (some (m.contents.take o ++ [c] ++ m.contents.drop o)) (.done,
        { m'.setChars (blit [c] 0 (blit m'.chars o m'.chars (o + 1) (m.count - o)) o 1) with
          count := m.count + 1 }) :=
      h'.insert hown rfl (by omega) le_rfl rfl
    rw [← set_eq_blit (by omega)] at hinsert
    have htotal : ((m.count + 1 : ℕ) : ℤ).toNat = m.count + 1 := by omega
    simpa only [andThen, Machine.setCount, htotal, setChars_setChars, chars_setChars,
      Int.toNat_natCast] using hinsert
  · have hout :
        ¬ InRange m'.chars m'.chars offset (jint (offset + 1)) (jint (m.count - offset)) := by
      rintro ⟨hnonneg, -, hrest, hend, -⟩
      change _ ≤ (m'.capacity : ℤ) at hend
      rw [jint_eq (by omega) (by omega)] at hrest
      omega
    rw [if_neg hout, if_neg hoffset]
    exact h'.thrown (by decide) rfl

/-! ## Changes of a buffer with its own array -/

variable {n : ℕ}

/-- **Step lemma**: the array of a buffer that is not shared is written. -/
theorem Ready.writeOwn (h : Ready m newcount m') (hown : m'.shared = false) {chars : List Jchar}
    (hlength : chars.length = m'.chars.length) (hn : n ≤ m'.chars.length)
    (hgoal : goal = some (chars.take n)) :
    Ends m memory bound goal (.done, { m'.setChars chars with count := n }) :=
  h.write hlength hn (fun hshared => absurd (hown.symm.trans hshared) (by decide)) hgoal

/-- **Step lemma**: characters are deleted. -/
theorem removed_ends (h : Valid m) {start stop : ℕ} (hstart : start ≤ stop) (hstop : stop ≤ m.count)
    (hbound : m.capacity ≤ bound)
    (hgoal : goal = some (m.contents.take start ++ m.contents.drop stop))
    {newcount : Machine → ℤ} (hnew : ∀ m', m'.count = m.count →
      newcount m' = (start + (m.count - stop) : ℕ)) {rest : Machine → ℤ}
    (hrest : ∀ m', m'.count = m.count → rest m' = (m.count - stop : ℕ)) :
    Ends m memory bound goal (andThen (m.unshare memory) fun m' =>
      andThen (m'.uncheckedCopy m'.chars stop start (rest m')) fun m' =>
        m'.setCount (newcount m')) := by
  refine .unshare h (show (0 : ℤ) ≤ _ by omega) hbound fun m' h' hown => ?_
  have hcount' : m.count ≤ m'.chars.length := by
    rw [← h'.count]
    exact h'.valid.count
  have hin : InRange m'.chars m'.chars stop start (m.count - stop : ℕ) :=
    ⟨by omega, by omega, by omega, by omega, by omega⟩
  rw [hrest m' h'.count, Machine.uncheckedCopy, Machine.copyInto, if_pos hin]
  have hwrite : Ends m memory bound goal (.done,
      { m'.setChars (blit m'.chars stop m'.chars start (m.count - stop)) with
        count := start + (m.count - stop) }) := by
    refine h'.writeOwn hown (length_blit (by omega) (by omega)) (by omega) ?_
    rw [hgoal, take_blit (by omega) (by omega), ← h'.take_count, List.take_take,
      Nat.min_eq_left (by omega), List.drop_take]
  have hnewcount : newcount (m'.setChars (blit m'.chars stop m'.chars start (m.count - stop))) =
      (start + (m.count - stop) : ℕ) := hnew _ h'.count
  simpa only [andThen, Machine.setCount, Int.toNat_natCast, hnewcount] using hwrite

/-- `delete`. -/
theorem delete_ends (h : Valid m) (start stop : ℤ) (hbound : m.capacity ≤ bound) :
    Ends m memory bound (if 0 ≤ start ∧ start ≤ min stop m.count then
        some (m.contents.take start.toNat ++ m.contents.drop stop.toNat)
      else none) (m.delete memory start stop) := by
  rw [Machine.delete]
  by_cases hstart : start < 0
  · rw [if_pos hstart, if_neg (by omega)]
    exact (Ready.refl h (show (0 : ℤ) ≤ _ by omega)).thrown (by decide) rfl
  · rw [if_neg hstart]
    have hmin : (if stop > m.count then (m.count : ℤ) else stop) = min stop m.count := by
      split_ifs <;> omega
    simp only [hmin]
    by_cases horder : start > min stop m.count
    · rw [if_pos horder, if_neg (by omega)]
      exact (Ready.refl h (show (0 : ℤ) ≤ _ by omega)).thrown (by decide) rfl
    · rw [if_neg horder, if_pos (by omega)]
      have hdrop : m.contents.drop stop.toNat = m.contents.drop (min stop m.count).toNat := by
        by_cases hle : stop ≤ m.count
        · rw [min_eq_left hle]
        · have hlength := h.length_contents
          rw [List.drop_of_length_le (by omega), List.drop_of_length_le (by omega)]
      rw [hdrop]
      obtain ⟨start, rfl⟩ := Int.eq_ofNat_of_zero_le (not_lt.mp hstart)
      obtain ⟨last, hlast⟩ := Int.eq_ofNat_of_zero_le (show 0 ≤ min stop (m.count : ℤ) by omega)
      rw [hlast] at horder ⊢
      by_cases hlen : (last : ℤ) - start > 0
      · rw [if_pos hlen, show (start : ℤ) + (last - start) = last by omega]
        refine removed_ends h (by omega) (by omega) hbound rfl (fun m' h' => ?_) fun m' h' => ?_
        · rw [h']
          omega
        · rw [h']
          omega
      · rw [if_neg hlen]
        have heq : start = last := by omega
        refine ⟨h, .refl m, ?_⟩
        rw [Int.toNat_natCast, Int.toNat_natCast, heq, List.take_append_drop]

/-- `deleteCharAt`. -/
theorem deleteCharAt_ends (h : Valid m) (index : ℤ) (hbound : m.capacity ≤ bound) :
    Ends m memory bound (if 0 ≤ index ∧ index < m.count then
        some (m.contents.eraseIdx index.toNat) else none) (m.deleteCharAt memory index) := by
  rw [Machine.deleteCharAt]
  by_cases hindex : 0 ≤ index ∧ index < m.count
  · rw [if_pos hindex, if_neg (by omega)]
    obtain ⟨i, rfl⟩ := Int.eq_ofNat_of_zero_le hindex.1
    refine removed_ends h (show i ≤ i + 1 by omega) (by omega) hbound ?_ (fun m' h' => ?_)
      fun m' h' => ?_
    · rw [Int.toNat_natCast, List.eraseIdx_eq_take_drop_succ]
    · rw [h']
      omega
    · rw [h']
      omega
  · rw [if_neg hindex, if_pos (by omega)]
    exact (Ready.refl h (show (0 : ℤ) ≤ _ by omega)).thrown (by decide) rfl

/-- `setCharAt`. -/
theorem setCharAt_ends (h : Valid m) (index : ℤ) (ch : Jchar) (hbound : m.capacity ≤ bound) :
    Ends m memory bound (if 0 ≤ index ∧ index < m.count then
        some (m.contents.set index.toNat ch) else none) (m.setCharAt memory index ch) := by
  rw [Machine.setCharAt]
  by_cases hindex : 0 ≤ index ∧ index < m.count
  · rw [if_pos hindex, if_neg (by omega)]
    refine .unshare h (show (0 : ℤ) ≤ _ by omega) hbound fun m' h' hown => ?_
    refine h'.writeOwn hown List.length_set h'.valid.count ?_
    rw [h'.count, List.take_set, h'.take_count]
  · rw [if_neg hindex, if_pos (by omega)]
    exact (Ready.refl h (show (0 : ℤ) ≤ _ by omega)).thrown (by decide) rfl

/-- `reverse`. -/
theorem reverse_ends (h : Valid m) (hbound : m.capacity ≤ bound) :
    Ends m memory bound (some m.contents.reverse) (m.reverse memory) := by
  refine .unshare h (show (0 : ℤ) ≤ _ by omega) hbound fun m' h' hown => ?_
  refine h'.writeOwn hown (length_swapFrom ..) h'.valid.count ?_
  rw [take_swapFrom h'.valid.count]
  exact congrArg (fun l => some l.reverse) h'.contents.symm

theorem andThen_done (r : Outcome × Machine) : andThen r (fun m => (.done, m)) = r := by
  match r with
  | (.done, m) => rfl
  | (.thrown e, m) => rfl
  | (.corrupted, m) => rfl

/-- `ensureCapacity`. -/
theorem ensureCapacity_ends (h : Valid m) (minimumCapacity : ℤ)
    (hbound : m.demand minimumCapacity ≤ bound) :
    Ends m memory bound (some m.contents) (m.ensureCapacity memory minimumCapacity) := by
  rw [Machine.ensureCapacity, ← andThen_done (m.reserve memory minimumCapacity)]
  exact .reserve h hbound fun m' h' _ => ⟨h'.valid, h'.keeps, congrArg some h'.contents.symm⟩

/-! ## The length -/

/-- `setLength` of a longer buffer. -/
theorem lengthen_ends (h : Valid m) (hn : m.count ≤ n) (hroom : n ≤ m.capacity)
    (hbound : m.shared = true → m.capacity ≤ bound)
    (hgoal : goal = some (m.contents ++ List.replicate (n - m.count) 0)) :
    Ends m memory bound goal (andThen (m.unshare memory) fun m' =>
      (.done, { m'.setChars (fillZeros (n - m'.count) m'.count m'.chars) with count := n })) := by
  have hwrite : ∀ m', Ready m n m' → m'.shared = false → Ends m memory bound goal (.done,
      { m'.setChars (fillZeros (n - m'.count) m'.count m'.chars) with count := n }) := by
    intro m' h' hown
    have hcapacity := h'.capacity
    have hroom' : n ≤ m'.chars.length := by
      change _ ≤ m'.capacity
      omega
    refine h'.writeOwn hown (length_fillZeros ..) hroom' ?_
    have hfill := take_fillZeros (n - m.count) m.count m'.chars (by omega)
    rw [show m.count + (n - m.count) = n by omega] at hfill
    rw [h'.count, hfill, h'.take_count, hgoal]
  by_cases hshared : m.shared = true
  · exact .unshare h (by omega) (hbound hshared) hwrite
  · rw [Machine.unshare, if_neg hshared]
    exact hwrite m (.refl h (by omega)) (by simpa using hshared)

/-- The part of `setLength` for a buffer that does not become longer. -/
def Machine.shorten (m : Machine) (memory : Memory) (newLength : ℤ) : Outcome × Machine :=
  let m := { m with count := newLength.toNat }
  if m.shared then
    if newLength > 0 then m.copy memory
    else if memory.array 16 then (.done, m.useNew (List.replicate 16 0))
    else (.thrown .outOfMemoryError, m)
  else (.done, m)

/-- `setLength` of a shorter buffer: the length is changed before the array. -/
theorem shorten_ends (h : Valid m) (hn : n ≤ m.count)
    (hbound : m.shared = true → m.demand 0 ≤ bound) (hgranted : n < m.count → m.shared = true →
      memory.array (if n = 0 then 16 else m.capacity) = true) :
    Ends m memory bound (some (m.contents.take n)) (m.shorten memory n) := by
  have hcount := h.count
  have hcontents : m.contents.take n = m.chars.take n := by
    rw [Machine.contents, List.take_take, Nat.min_eq_left hn]
  rw [hcontents, Machine.shorten, Int.toNat_natCast]
  by_cases hshared : m.shared = true
  · have hlimit := hbound hshared
    rw [Machine.demand] at hlimit
    rw [if_pos hshared]
    by_cases hzero : n = 0
    · subst hzero
      rw [if_neg (by omega)]
      by_cases harray : memory.array 16 = true
      · rw [if_pos harray]
        obtain ⟨hvalid, hkeeps, hempty⟩ :=
          @Valid.useNew m h (List.replicate 16 0) 0 (by omega) (by simp)
        exact ⟨hvalid, hkeeps, congrArg some hempty.symm⟩
      · rw [if_neg harray]
        have hsame : m.count = 0 := by
          by_contra hne
          exact harray (hgranted (by omega) hshared)
        rw [← hsame]
        exact .refused h ⟨16, by omega, by simpa using harray⟩
    · rw [if_pos (by omega), Machine.copy]
      change Ends m memory bound _ (({ m with count := n } : Machine).reallocate memory m.capacity)
      by_cases harray : memory.array m.capacity = true
      · obtain ⟨chars, hlength, htake, hdone⟩ := @reallocate_of_granted { m with count := n } memory
          m.capacity (hn.trans hcount) (by simp; omega) harray
        rw [hdone]
        obtain ⟨hvalid, hkeeps, hsome⟩ := @Valid.useNew m h chars n (by omega)
          (hlength ▸ memory.limit _ harray)
        exact ⟨hvalid, hkeeps, congrArg some (hsome.trans htake).symm⟩
      · have hsame : n = m.count := by
          by_contra hne
          have hgrant := hgranted (by omega) hshared
          rw [if_neg hzero] at hgrant
          exact harray hgrant
        subst hsame
        change Ends m memory bound _ (m.reallocate memory m.capacity)
        rw [Machine.reallocate, if_neg (by omega), if_pos (by simpa using harray)]
        exact .refused h ⟨m.capacity, by omega, by simpa using harray⟩
  · rw [if_neg hshared]
    obtain ⟨hvalid, hkeeps, hsome⟩ := h.setCount (n := n) (hn.trans hcount)
      fun hs => absurd hs hshared
    exact ⟨hvalid, hkeeps, congrArg some hsome.symm⟩

/-- `setLength`. -/
theorem setLength_ends (h : Valid m) (newLength : ℤ) (hbound : m.demand newLength ≤ bound)
    (hgranted : (Op.setLength newLength).Granted memory m) :
    Ends m memory bound (if 0 ≤ newLength then
        some (m.contents.take newLength.toNat ++
          List.replicate (newLength.toNat - m.contents.length) 0)
      else none) (m.setLength memory newLength) := by
  have hcount := h.count
  rw [Machine.setLength]
  by_cases hnonneg : 0 ≤ newLength
  · rw [if_pos hnonneg, if_neg (by omega), h.length_contents]
    refine .reserve h hbound fun m' h' hsame => ?_
    obtain ⟨n, rfl⟩ := Int.eq_ofNat_of_zero_le hnonneg
    have hcapacity := h'.capacity
    have hcontents := h.length_contents
    rw [Machine.demand] at hbound
    refine h'.ends ?_
    rw [h'.count, Int.toNat_natCast, ← h'.contents]
    by_cases hlt : (m.count : ℤ) < n
    · rw [if_pos hlt, ← h'.count]
      refine lengthen_ends h'.valid (by rw [h'.count]; omega) (by omega) (fun hshared => ?_) ?_
      · rw [hsame hshared]
        omega
      · rw [List.take_of_length_le (by rw [h'.contents, hcontents]; omega)]
    · rw [if_neg hlt, show n - m.count = 0 by omega, List.replicate_zero, List.append_nil]
      change Ends m' memory bound _ (m'.shorten memory n)
      refine shorten_ends h'.valid (by rw [h'.count]; omega) (fun hshared => ?_)
        fun hshort hshared => ?_
      · rw [hsame hshared, Machine.demand]
        omega
      · have hm := hsame hshared
        rw [hm] at hshort hshared ⊢
        have hgrant := hgranted (by omega) (by omega) hshared
        simpa using hgrant
  · rw [if_neg hnonneg, if_pos (by omega)]
    exact (Ready.refl h (show (0 : ℤ) ≤ _ by omega)).thrown (by decide) rfl

/-! ## Every method -/

theorem insertAt_ends (h : Valid m) {src : Machine → List Jchar}
    (hsrc : ∀ m', Keeps m m' → src m' = src₀) (offset : ℤ)
    (hbound : m.demand (m.count + src₀.length) ≤ bound) (hlen : src₀.length ≤ 0x08000000) :
    Ends m memory bound (if 0 ≤ offset ∧ offset ≤ m.count then
        some (m.contents.take offset.toNat ++ src₀ ++ m.contents.drop offset.toNat) else none)
      (if offset < 0 ∨ offset > m.count then (.thrown .stringIndexOutOfBounds, m)
      else andThen (m.reserveOwn memory (jint (m.count + src₀.length))) fun m' =>
        andThen (m'.uncheckedCopy m'.chars offset (offset + src₀.length) (m'.count - offset))
          fun m' => andThen (m'.copyInto failure (src m') 0 offset src₀.length) fun m' =>
            m'.setCount (jint (m.count + src₀.length))) := by
  by_cases hoffset : 0 ≤ offset ∧ offset ≤ m.count
  · rw [if_pos hoffset, if_neg (by omega)]
    exact insert_ends h hsrc hbound hlen hoffset rfl
  · rw [if_neg hoffset, if_pos (by omega)]
    exact (Ready.refl h (show (0 : ℤ) ≤ _ by omega)).thrown (by decide) rfl

/-- **Main theorem** on the methods: a method does to the characters of a buffer what it does to a
list, or the memory refuses an array and nothing changes; the strings keep their characters. -/
theorem execute_ends (h : Valid m) (op : Op) (hop : op ≠ .toString)
    (hgranted : op.Granted memory m) :
    Ends m memory (m.demand (op.room m.texts m.contents)) (op.edit m.texts m.contents)
      (m.execute memory op) := by
  have hcapacity : ∀ n, (m.capacity : ℤ) ≤ m.demand n := by
    intro n
    rw [Machine.demand]
    omega
  have hlength := h.length_contents
  have hlimit := h.limit
  have hcount := h.count
  cases op with
  | appendString str =>
    have hresolve := h.length_resolve str
    rw [Op.room, Op.edit, ← resolve_eq_text, hlength]
    refine append_ends h (fun m' h' => h'.resolve str) ?_ hresolve (fun hout => ?_) fun _ => ?_
    · rw [jint_eq (by omega) (by omega)]
    · exact absurd ⟨le_rfl, by omega, by omega⟩ hout
    · simp
  | appendChars str =>
    have hstr := str.2
    rw [Op.room, Op.edit, hlength]
    refine append_ends h (fun _ _ => rfl) ?_ hstr (fun hout => ?_) fun _ => ?_
    · rw [jint_eq (by omega) (by omega)]
    · exact absurd ⟨le_rfl, by omega, by omega⟩ hout
    · simp
  | appendRange str offset len =>
    rw [Op.room, Op.edit, hlength]
    refine append_ends h (fun _ _ => rfl) le_rfl str.2 (fun hout => ?_) fun hin => ?_
    · rw [if_neg hout]
      exact ⟨rfl, rfl⟩
    · rw [if_pos hin]
  | appendChar c =>
    rw [Op.room, Op.edit, hlength]
    exact appendChar_ends h c le_rfl
  | insertString offset str =>
    rw [Op.room, Op.edit, ← resolve_eq_text, hlength]
    exact insertAt_ends h (fun m' h' => h'.resolve str) offset le_rfl (h.length_resolve str)
  | insertChars offset str =>
    rw [Op.room, Op.edit, hlength]
    exact insertAt_ends h (fun _ _ => rfl) offset le_rfl str.2
  | insertChar offset c =>
    rw [Op.room, Op.edit, hlength]
    exact insertChar_ends h offset c le_rfl
  | delete start stop =>
    rw [Op.edit, hlength]
    exact delete_ends h start stop (hcapacity _)
  | deleteCharAt index =>
    rw [Op.edit, hlength]
    exact deleteCharAt_ends h index (hcapacity _)
  | setCharAt index ch =>
    rw [Op.edit, hlength]
    exact setCharAt_ends h index ch (hcapacity _)
  | setLength newLength => exact setLength_ends h newLength le_rfl hgranted
  | reverse => exact reverse_ends h (hcapacity _)
  | ensureCapacity minimumCapacity => exact ensureCapacity_ends h minimumCapacity le_rfl
  | toString => exact absurd rfl hop

end CldcVm.StringBuffers
