import Mathlib.Data.Int.Lemmas
import Mathlib.Tactic.Linarith

/-!
# Byte accounting of a file decoder

Models of `FileDecoder::get_bytes` (`runtime/FileDecoder.cpp`, lines 82–107) and
`Inflater::get_bytes` (`runtime/Inflate.cpp`, lines 78–117). The decompressor and the file of the
operating system may do anything from one request to the next: what they do is a part of a
request. The bytes themselves are left out, and so is `read_completely`, which does not touch
`bytes_remain`.

Results:
* `accounts_iff`: the count is right along a run exactly when no request of it fails.
-/

namespace CldcVm.Files.FileDecoder

/-! ## The decompressor -/

/-- `INFLATER_OUTPUT_LIMIT` and `DICTIONARY_SIZE` (`runtime/Inflate.hpp`, lines 55–66). -/
def inflaterOutputLimit : ℕ := 36864
def dictionarySize : ℕ := 32768

/-- The part of the output buffer that is decoded and not handed out yet: what `inflate_stored` and
`inflate_huffman` decode comes after it. -/
structure Window where
  outOffset : ℕ
  outDumped : ℕ
  dumped_le : outDumped ≤ outOffset

/-- What `do_inflate` ends with. -/
inductive Inflated
  | throws
  | error
  | complete
  | more (window : Window)

/-- What an iteration of `Inflater::get_bytes` meets: whether there is memory for a new output
buffer, and what `do_inflate` does. -/
structure Round where
  allocates : Bool
  inflated : Inflated

/-- The value that a request returns, and whether an exception is pending after it. -/
structure Answer where
  value : ℤ
  thrown : Bool
deriving DecidableEq, Repr

/-- The window once its bytes are copied; a new output buffer keeps the dictionary. -/
def slide (w : Window) : Window :=
  if w.outOffset > inflaterOutputLimit then ⟨dictionarySize, dictionarySize, le_rfl⟩
  else ⟨w.outOffset, w.outOffset, le_rfl⟩

/-- `Inflater::get_bytes`. There is no result while the rounds do not suffice. -/
def inflaterGetBytes : List Round → (count result : ℕ) → Window → Option (Answer × Window)
  | rounds, count, result, w =>
    let avail := w.outOffset - w.outDumped
    if h : count ≤ avail then
      some (⟨result + count, false⟩,
        ⟨w.outOffset, w.outDumped + count, by have hle := w.dumped_le; omega⟩)
    else
      match rounds with
      | [] => none
      | round :: rounds =>
        if w.outOffset > inflaterOutputLimit ∧ round.allocates = false then some (⟨0, true⟩, w)
        else
          match round.inflated with
          | .throws => some (⟨0, true⟩, slide w)
          | .error => some (⟨-1, false⟩, slide w)
          | .complete => some (⟨((result + avail : ℕ) : ℤ), false⟩, slide w)
          | .more w' => inflaterGetBytes rounds (count - avail) (result + avail) w'

/-- The loop comes to a round in which `do_inflate` reports an error. -/
def InflateFails : List Round → (count : ℕ) → Window → Prop
  | [], _, _ => False
  | round :: rounds, count, w =>
    w.outOffset - w.outDumped < count ∧
      ¬(w.outOffset > inflaterOutputLimit ∧ round.allocates = false) ∧
      match round.inflated with
      | .error => True
      | .more w' => InflateFails rounds (count - (w.outOffset - w.outDumped)) w'
      | .throws | .complete => False

theorem inflaterGetBytes_spec {rounds : List Round} {count result : ℕ} {w w' : Window}
    {answer : Answer} (h : inflaterGetBytes rounds count result w = some (answer, w')) :
    (InflateFails rounds count w → answer.value = -1) ∧ (¬InflateFails rounds count w →
        0 ≤ answer.value ∧ answer.value ≤ result + count ∧ (answer.thrown = true → answer.value = 0)) := by
  induction rounds generalizing count result w with
  | nil =>
    rw [inflaterGetBytes] at h
    split_ifs at h with henough
    obtain ⟨rfl, -⟩ := Prod.mk.inj (Option.some.inj h)
    refine ⟨fun hfails => hfails.elim, fun _ => ⟨?_, ?_, nofun⟩⟩
    · show (0 : ℤ) ≤ result + count
      omega
    · show (result + count : ℤ) ≤ result + count
      omega
  | cons round rounds ih =>
    rw [inflaterGetBytes] at h
    split_ifs at h with henough hmemory
    · obtain ⟨rfl, -⟩ := Prod.mk.inj (Option.some.inj h)
      refine ⟨fun hfails => absurd hfails.1 (by omega), fun _ => ⟨?_, ?_, nofun⟩⟩
      · show (0 : ℤ) ≤ result + count
        omega
      · show (result + count : ℤ) ≤ result + count
        omega
    · obtain ⟨rfl, -⟩ := Prod.mk.inj (Option.some.inj h)
      refine ⟨fun hfails => absurd hmemory hfails.2.1, fun _ => ⟨le_rfl, ?_, fun _ => rfl⟩⟩
      show (0 : ℤ) ≤ result + count
      omega
    · have hfails : InflateFails (round :: rounds) count w ↔ (match round.inflated with
          | .error => True
          | .more w' => InflateFails rounds (count - (w.outOffset - w.outDumped)) w'
          | .throws | .complete => False) := by
        rw [InflateFails, and_iff_right (by omega), and_iff_right hmemory]
      rw [hfails]
      cases hinflated : round.inflated with
      | throws =>
        rw [hinflated] at h
        obtain ⟨rfl, -⟩ := Prod.mk.inj (Option.some.inj h)
        refine ⟨False.elim, fun _ => ⟨le_rfl, ?_, fun _ => rfl⟩⟩
        show (0 : ℤ) ≤ result + count
        omega
      | error =>
        rw [hinflated] at h
        obtain ⟨rfl, -⟩ := Prod.mk.inj (Option.some.inj h)
        exact ⟨fun _ => rfl, fun hnot => absurd trivial hnot⟩
      | complete =>
        rw [hinflated] at h
        obtain ⟨rfl, -⟩ := Prod.mk.inj (Option.some.inj h)
        refine ⟨False.elim, fun _ => ⟨?_, ?_, nofun⟩⟩
        · show (0 : ℤ) ≤ ((result + (w.outOffset - w.outDumped) : ℕ) : ℤ)
          omega
        · show ((result + (w.outOffset - w.outDumped) : ℕ) : ℤ) ≤ result + count
          omega
      | more next =>
        rw [hinflated] at h
        obtain ⟨herror, hfine⟩ := ih h
        refine ⟨herror, fun hnot => ?_⟩
        obtain ⟨hpos, hle, hthrown⟩ := hfine hnot
        refine ⟨hpos, ?_, hthrown⟩
        omega

/-! ## The decoder -/

/-- The fields of a `FileDecoder` that a request uses; a stored entry has no window. -/
structure Decoder where
  bytesRemain : ℤ
  filePos : ℤ
  window : Option Window

/-- `FileDecoder::allocate` and `Inflater::allocate`: an entry of `size` bytes. -/
def openEntry (size : ℕ) (filePos : ℤ) (window : Option Window) : Decoder := ⟨size, filePos, window⟩

/-- A request of `count` bytes, with what it meets: whether the parser of the JAR file is there,
what `OsFile_read` returns for a number of bytes, and the rounds of the decompressor. -/
structure Request where
  count : ℕ
  parser : Bool
  osFileRead : ℤ → ℤ
  rounds : List Round
  read_le : ∀ count, osFileRead count ≤ count

/-- `FileDecoder::get_bytes`. -/
def getBytes (d : Decoder) (r : Request) : Option (Answer × Decoder) :=
  if r.parser = false then some (⟨0, true⟩, d)
  else
    let count := if (r.count : ℤ) > d.bytesRemain then d.bytesRemain else r.count
    match d.window with
    | none =>
      -- `get_bytes_raw`
      let bytesRead := r.osFileRead count
      some (⟨bytesRead, false⟩, { d with
        bytesRemain := d.bytesRemain - bytesRead
        filePos := d.filePos + bytesRead })
    | some w =>
      match inflaterGetBytes r.rounds count.toNat 0 w with
      | none => none
      | some (answer, w') =>
        some (answer, { d with
          bytesRemain := d.bytesRemain - answer.value
          window := some w' })

/-- The request meets a failure of the decompressor, or of the file of a stored entry. -/
def Request.Fails (d : Decoder) (r : Request) : Prop :=
  r.parser = true ∧
    match d.window with
    | none => r.osFileRead (min r.count d.bytesRemain) < 0
    | some w => InflateFails r.rounds (min (r.count : ℤ) d.bytesRemain).toNat w

/-- The number of bytes that an answer delivers. -/
def Answer.delivered (answer : Answer) : ℤ := max answer.value 0

/-- The answer signals an error. -/
def Answer.IsError (answer : Answer) : Prop := answer.value < 0 ∨ answer.thrown = true

section Requests

variable {d d' : Decoder} {r : Request} {answer : Answer}

/-- **Spec lemma**: the count goes down by the value of the answer, which is negative exactly when
the request fails. -/
theorem getBytes_spec (hremain : 0 ≤ d.bytesRemain) (h : getBytes d r = some (answer, d')) :
    d'.bytesRemain = d.bytesRemain - answer.value ∧ answer.value ≤ d.bytesRemain ∧
      (r.Fails d ↔ answer.value < 0) ∧ (answer.thrown = true → answer.value ≤ 0) := by
  have hmin : (if (r.count : ℤ) > d.bytesRemain then d.bytesRemain else (r.count : ℤ)) =
      min (r.count : ℤ) d.bytesRemain := by
    rw [min_def]
    split_ifs <;> omega
  simp only [getBytes, hmin] at h
  unfold Request.Fails
  by_cases hparser : r.parser = false
  · rw [if_pos hparser] at h
    obtain ⟨rfl, rfl⟩ := Prod.mk.inj (Option.some.inj h)
    refine ⟨(sub_zero _).symm, hremain, iff_of_false ?_ (lt_irrefl _), fun _ => le_rfl⟩
    rw [hparser]
    exact fun hfails => absurd hfails.1 Bool.false_ne_true
  · rw [if_neg hparser] at h
    rw [and_iff_right (Bool.of_not_eq_false hparser)]
    cases hwindow : d.window with
    | none =>
      rw [hwindow] at h
      obtain ⟨rfl, rfl⟩ := Prod.mk.inj (Option.some.inj h)
      have hle := r.read_le (min (r.count : ℤ) d.bytesRemain)
      exact ⟨rfl, hle.trans (min_le_right _ _), Iff.rfl, nofun⟩
    | some w =>
      rw [hwindow] at h
      simp only at h
      cases hinflate : inflaterGetBytes r.rounds (min (r.count : ℤ) d.bytesRemain).toNat 0 w with
      | none =>
        rw [hinflate] at h
        cases h
      | some found =>
        obtain ⟨answer', w'⟩ := found
        rw [hinflate] at h
        obtain ⟨rfl, rfl⟩ := Prod.mk.inj (Option.some.inj h)
        obtain ⟨herror, hfine⟩ := inflaterGetBytes_spec hinflate
        by_cases hfails : InflateFails r.rounds (min (r.count : ℤ) d.bytesRemain).toNat w
        · have hvalue := herror hfails
          exact ⟨rfl, by omega, iff_of_true hfails (by omega), fun _ => by omega⟩
        · obtain ⟨hpos, hle, hthrown⟩ := hfine hfails
          refine ⟨rfl, by omega, iff_of_false hfails (by omega), fun ht => ?_⟩
          rw [hthrown ht]

theorem getBytes_of_not_fails (hremain : 0 ≤ d.bytesRemain) (h : getBytes d r = some (answer, d'))
    (hfails : ¬r.Fails d) : d'.bytesRemain = d.bytesRemain - answer.delivered ∧ 0 ≤ d'.bytesRemain ∧
      d'.bytesRemain ≤ d.bytesRemain ∧ (answer.IsError → d'.bytesRemain = d.bytesRemain) := by
  obtain ⟨hcount, hle, hiff, hthrown⟩ := getBytes_spec hremain h
  have hpos : 0 ≤ answer.value := by
    by_contra hneg
    exact hfails (hiff.mpr (by omega))
  have hdelivered : answer.delivered = answer.value := max_eq_left hpos
  refine ⟨by rw [hcount, hdelivered], by omega, by omega, fun herror => ?_⟩
  rcases herror with hneg | ht
  · omega
  · have hzero := hthrown ht
    omega

theorem getBytes_of_fails (hremain : 0 ≤ d.bytesRemain) (h : getBytes d r = some (answer, d'))
    (hfails : r.Fails d) : d.bytesRemain < d'.bytesRemain := by
  obtain ⟨hcount, -, hiff, -⟩ := getBytes_spec hremain h
  have hneg := hiff.mp hfails
  omega

end Requests

/-! ## Runs -/

/-- Along the requests, and while they return, the count is the size of the entry without the bytes
delivered so far, it never increases, and an error leaves it as it is. -/
def Accounts (size : ℕ) : (d : Decoder) → (delivered : ℤ) → List Request → Prop
  | d, delivered, [] => d.bytesRemain = size - delivered
  | d, delivered, r :: rs =>
    d.bytesRemain = size - delivered ∧
      match getBytes d r with
      | none => True
      | some (answer, d') =>
        d'.bytesRemain ≤ d.bytesRemain ∧ (answer.IsError → d'.bytesRemain = d.bytesRemain) ∧
          Accounts size d' (delivered + answer.delivered) rs

/-- No request fails, of those that are reached and return. -/
def NoneFails : Decoder → List Request → Prop
  | _, [] => True
  | d, r :: rs =>
    match getBytes d r with
    | none => True
    | some (_, d') => ¬r.Fails d ∧ NoneFails d' rs

/-- **Run lemma**, from a state with the right count on. -/
theorem accounts_iff_of_count {size : ℕ} {d : Decoder} {delivered : ℤ} (rs : List Request)
    (hcount : d.bytesRemain = size - delivered) (hremain : 0 ≤ d.bytesRemain) :
    Accounts size d delivered rs ↔ NoneFails d rs := by
  induction rs generalizing d delivered with
  | nil => exact iff_of_true hcount trivial
  | cons r rs ih =>
    rw [Accounts, NoneFails, and_iff_right hcount]
    cases hget : getBytes d r with
    | none => exact Iff.rfl
    | some found =>
      obtain ⟨answer, d'⟩ := found
      simp only
      by_cases hfails : r.Fails d
      · have hlt := getBytes_of_fails hremain hget hfails
        exact iff_of_false (fun h => absurd h.1 (by omega)) fun h => h.1 hfails
      · obtain ⟨hcount', hremain', hle, herror⟩ := getBytes_of_not_fails hremain hget hfails
        rw [and_iff_right hle, and_iff_right herror, and_iff_right hfails]
        exact ih (by omega) hremain'

/-- **Main theorem**: for every entry and every sequence of requests, the accounting is right exactly
when no request fails. -/
theorem accounts_iff (size : ℕ) (filePos : ℤ) (window : Option Window) (rs : List Request) :
    Accounts size (openEntry size filePos window) 0 rs ↔ NoneFails (openEntry size filePos window) rs :=
  accounts_iff_of_count rs (sub_zero _).symm (Int.natCast_nonneg size)

/-- A request for one byte of an entry in which the decompressor finds an error. -/
def corrupted : Request where
  count := 1
  parser := true
  osFileRead := id
  rounds := [⟨true, .error⟩]
  read_le := fun _ => le_rfl

/-- Ten bytes remain of the entry, and eleven after the error. -/
theorem not_accounts_corrupted :
    ¬Accounts 10 (openEntry 10 0 (some ⟨0, 0, le_rfl⟩)) 0 [corrupted] := by
  rintro ⟨-, hle, -⟩
  exact absurd hle (by decide)

end CldcVm.Files.FileDecoder
