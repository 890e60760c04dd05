import CldcVm.Memory.TaskMemory
import Mathlib.Order.Interval.Finset.Nat

/-!
# The owner of an object and the memory of a task

`owner_task_id` looks for the boundary object that stands directly above an object, and
`accumulate_memory_usage` charges the distances between the boundary objects. Both read the
same list, where the owner of the memory below a boundary object stands in this object.

Results:

* `accumulate_iff`: the charge is exact just if no boundary object covers the lower bound.
-/

namespace CldcVm.Memory

open ObjectHeap

variable {n : ℕ}

/-! ## The look-up -/

/-- `do { prev = p; p = p->_next; } while (p >= object)`: the last boundary object that is not
below the object. -/
def lastAbove (object : ℕ) (prev : Boundary n) : List (Boundary n) → Boundary n
  | [] => prev
  | p :: rest => if p.address ≥ object then lastAbove object p rest else prev

/-- `owner_task_id` (lines 609–623), for an object of the heap. -/
def ownerTaskId (previousTaskId : Fin n) (boundaryList : List (Boundary n)) (object : ℕ) : Fin n :=
  match boundaryList with
  | [] => previousTaskId
  | p :: rest => if p.address < object then previousTaskId else (lastAbove object p rest).owner

/-- The boundary objects stand one below the other, from the highest address down. -/
def Descending : List (Boundary n) → Prop
  | [] => True
  | p :: rest => (∀ q ∈ rest, q.address + boundarySize ≤ p.address) ∧ Descending rest

/-- The address belongs to a boundary object. -/
def Boundary.Covers (p : Boundary n) (a : ℕ) : Prop :=
  p.address ≤ a ∧ a < p.address + boundarySize

instance (p : Boundary n) (a : ℕ) : Decidable (p.Covers a) :=
  inferInstanceAs (Decidable (_ ∧ _))

/-- No boundary object covers the address, unless it begins there. -/
def IsObject (boundaryList : List (Boundary n)) (a : ℕ) : Prop :=
  ∀ p ∈ boundaryList, p.Covers a → p.address = a

variable {previousId : Fin n} {p : Boundary n} {rest list : List (Boundary n)} {a lwb upb : ℕ}
  {task : Fin n}

theorem ownerTaskId_cons : ownerTaskId previousId (p :: rest) a =
    if p.address < a then previousId else ownerTaskId p.owner rest a := by
  rw [ownerTaskId]
  split
  · rfl
  · match rest with
    | [] => rfl
    | q :: rest =>
      rw [ownerTaskId, lastAbove]
      by_cases hq : q.address < a
      · rw [if_pos hq, if_neg (by omega)]
      · rw [if_neg hq, if_pos (by omega)]

theorem ownerTaskId_of_above (h : ∀ q ∈ list, q.address < a) :
    ownerTaskId previousId list a = previousId := by
  match list with
  | [] => rfl
  | p :: rest => rw [ownerTaskId_cons, if_pos (h p List.mem_cons_self)]

/-- **Key lemma.** Without a redundant boundary object the memory below it has the same owner. -/
theorem owner_of_isRedundant (hsorted : Descending (p :: rest))
    (hredundant : isRedundant previousId p rest = true) (hlt : a < p.address)
    (hobject : IsObject rest a) : ownerTaskId previousId rest a = ownerTaskId p.owner rest a := by
  rw [isRedundant, Bool.or_eq_true, decide_eq_true_eq] at hredundant
  obtain heq | hnext := hredundant
  · rw [heq]
  · -- The next boundary object reaches up to this one, and nothing lies between them.
    match rest with
    | [] => simp at hnext
    | next :: rest =>
      have hend : next.address + boundarySize = p.address := by simpa using hnext
      have hnot : ¬next.address < a := by
        intro hnext
        have hcovers : next.Covers a := ⟨hnext.le, by omega⟩
        have hbegin := hobject next List.mem_cons_self hcovers
        omega
      rw [ownerTaskId_cons, ownerTaskId_cons, if_neg hnot, if_neg hnot]

/-! ## The list -/

/-- What the two loops make of the list: a redundant boundary object may go, and the ones that
stay pass their owner on. -/
inductive Reduces : Fin n → List (Boundary n) → List (Boundary n) → Prop
  | done (previousId : Fin n) (list : List (Boundary n)) : Reduces previousId list list
  | drop {previousId : Fin n} {p : Boundary n} {rest list : List (Boundary n)}
      (hredundant : isRedundant previousId p rest = true) (h : Reduces previousId rest list) :
      Reduces previousId (p :: rest) list
  | keep {previousId : Fin n} {p : Boundary n} {rest list : List (Boundary n)}
      (h : Reduces p.owner rest list) : Reduces previousId (p :: rest) (p :: list)

/-- The first loop, in front of what becomes of the rest. -/
theorem reduces_optimizeFrom {X : List (Boundary n)}
    (h : Reduces (optimizeFrom upb previousId list).2.1 (optimizeFrom upb previousId list).2.2 X) :
    Reduces previousId list ((optimizeFrom upb previousId list).1 ++ X) := by
  induction list generalizing previousId with
  | nil => exact h
  | cons p rest ih =>
    rw [optimizeFrom] at h ⊢
    by_cases habove : p.address ≥ upb
    · rw [if_pos habove] at h ⊢
      by_cases hredundant : isRedundant previousId p rest = true
      · rw [if_pos hredundant] at h ⊢
        exact .drop hredundant (ih h)
      · rw [if_neg hredundant] at h ⊢
        exact .keep (ih h)
    · rw [if_neg habove] at h ⊢
      exact h

/-- The second loop. -/
theorem reduces_chargeDownTo (lwb upb : ℕ) (previousId : Fin n) (info : Fin n → TaskMemoryInfo)
    (list : List (Boundary n)) :
    Reduces previousId list (chargeDownTo lwb upb previousId info list).1 := by
  induction list generalizing upb previousId info with
  | nil => exact .done previousId []
  | cons p rest ih =>
    rw [chargeDownTo]
    by_cases habove : p.address > lwb
    · rw [if_pos habove]
      by_cases hredundant : isRedundant previousId p rest = true
      · simp only [if_pos hredundant]
        exact .drop hredundant (ih _ _ _)
      · simp only [if_neg hredundant]
        exact .keep (ih _ _ _)
    · rw [if_neg habove]
      exact .done previousId _

theorem Reduces.sublist {list' : List (Boundary n)} (h : Reduces previousId list list') :
    list'.Sublist list := by
  induction h with
  | done _ list => exact List.Sublist.refl list
  | drop _ _ ih => exact ih.trans (List.sublist_cons_self _ _)
  | keep _ ih => exact ih.cons_cons _

theorem IsObject.tail (h : IsObject (p :: rest) a) : IsObject rest a :=
  fun q hq => h q (List.mem_cons_of_mem _ hq)

/-- **Run lemma.** The owner of an object that remains does not change: it is no boundary
object that has gone, and lies in none. -/
theorem Reduces.owner {list' : List (Boundary n)} (h : Reduces previousId list list')
    (hsorted : Descending list) (hobject : IsObject list a)
    (hremains : ∀ q ∈ list, q.address = a → q ∈ list') :
    ownerTaskId previousId list' a = ownerTaskId previousId list a := by
  induction h with
  | done => rfl
  | @drop previousId p rest list' hredundant hreduces ih =>
    have hbelow : ∀ q ∈ rest, q.address + boundarySize ≤ p.address := hsorted.1
    rw [ih hsorted.2 hobject.tail fun q hq => hremains q (List.mem_cons_of_mem _ hq),
      ownerTaskId_cons]
    by_cases hlow : p.address < a
    · rw [if_pos hlow]
      exact ownerTaskId_of_above fun q hq => by
        have hend := hbelow q hq
        omega
    · rw [if_neg hlow]
      -- The object is not the boundary object that goes.
      have hne : p.address ≠ a := by
        intro heq
        have hmem := hreduces.sublist.subset (hremains p List.mem_cons_self heq)
        have hend := hbelow p hmem
        rw [boundarySize] at hend
        omega
      exact owner_of_isRedundant hsorted hredundant (by omega) hobject.tail
  | @keep previousId p rest list' hreduces ih =>
    have hremains' : ∀ q ∈ rest, q.address = a → q ∈ list' := by
      intro q hq heq
      obtain rfl | hmem := List.mem_cons.mp (hremains q (List.mem_cons_of_mem _ hq) heq)
      · have hend := hsorted.1 q hq
        rw [boundarySize] at hend
        omega
      · exact hmem
    rw [ownerTaskId_cons, ownerTaskId_cons, ih hsorted.2 hobject.tail hremains']

/-- **Main lemma.** What `accumulate_memory_usage` leaves of the list. -/
theorem reduces_accumulate (heap : ObjectHeap n) (lwb upb : ℕ) :
    Reduces heap.previousTaskId heap.boundaryList
      (heap.accumulateMemoryUsage lwb upb).boundaryList :=
  reduces_optimizeFrom (reduces_chargeDownTo _ _ _ _ _)

/-! ## The charge -/

/-- The bytes of the range that are no part of a boundary object and whose owner is the task. -/
def ownedBytes (previousId : Fin n) (list : List (Boundary n)) (lwb upb : ℕ) (task : Fin n) : ℕ :=
  ((Finset.Ico lwb upb).filter fun a =>
    (∀ p ∈ list, ¬p.Covers a) ∧ ownerTaskId previousId list a = task).card

/-- The bytes of the range that belong to a boundary object which begins at the lower bound or
below it. -/
def coveredBytes (list : List (Boundary n)) (lwb upb : ℕ) : ℕ :=
  ((Finset.Ico lwb upb).filter fun a => ∃ p ∈ list, p.address ≤ lwb ∧ p.Covers a).card

theorem estimate_addEstimate (info : Fin n → TaskMemoryInfo) (id : Fin n) (size : ℕ) :
    (addEstimate info id size task).estimate =
      (info task).estimate + if id = task then size else 0 := by
  rw [addEstimate, Function.update_apply]
  by_cases htask : task = id
  · rw [if_pos htask, if_pos htask.symm, htask]
  · rw [if_neg htask, if_neg (Ne.symm htask), Nat.add_zero]

theorem mem_ownedBytes : a ∈ (Finset.Ico lwb upb).filter (fun a =>
    (∀ p ∈ list, ¬p.Covers a) ∧ ownerTaskId previousId list a = task) ↔
      (lwb ≤ a ∧ a < upb) ∧ (∀ p ∈ list, ¬p.Covers a) ∧ ownerTaskId previousId list a = task := by
  rw [Finset.mem_filter, Finset.mem_Ico]

theorem ownedBytes_congr {id : Fin n} (h : ∀ a, lwb ≤ a → a < upb → (∀ p ∈ list, ¬p.Covers a) →
      ownerTaskId previousId list a = ownerTaskId id list a) :
    ownedBytes previousId list lwb upb task = ownedBytes id list lwb upb task := by
  apply congrArg Finset.card
  ext a
  rw [mem_ownedBytes, mem_ownedBytes]
  constructor
  · rintro ⟨hrange, hfree, howner⟩
    exact ⟨hrange, hfree, by rwa [← h a hrange.1 hrange.2 hfree]⟩
  · rintro ⟨hrange, hfree, howner⟩
    exact ⟨hrange, hfree, by rwa [h a hrange.1 hrange.2 hfree]⟩

theorem isObject_of_free (h : ∀ p ∈ list, ¬p.Covers a) : IsObject list a :=
  fun p hp hcovers => absurd hcovers (h p hp)

theorem ownedBytes_of_isRedundant (hsorted : Descending (p :: rest))
    (hredundant : isRedundant previousId p rest = true) (hupb : upb ≤ p.address) :
    ownedBytes previousId rest lwb upb task = ownedBytes p.owner rest lwb upb task :=
  ownedBytes_congr fun _ _ hlt hfree =>
    owner_of_isRedundant hsorted hredundant (by omega) (isObject_of_free hfree)

theorem ownedBytes_of_above (hupb : upb ≤ p.address) :
    ownedBytes previousId (p :: rest) lwb upb task = ownedBytes p.owner rest lwb upb task := by
  apply congrArg Finset.card
  ext a
  rw [mem_ownedBytes, mem_ownedBytes, List.forall_mem_cons, ownerTaskId_cons]
  constructor
  · rintro ⟨hrange, ⟨-, hfree⟩, howner⟩
    rw [if_neg (by omega)] at howner
    exact ⟨hrange, hfree, howner⟩
  · rintro ⟨hrange, hfree, howner⟩
    refine ⟨hrange, ⟨fun hcovers => ?_, hfree⟩, ?_⟩
    · have hle := hcovers.1
      omega
    · rwa [if_neg (by omega)]

/-- The memory above a boundary object is that of the task before it, the one below it that of
its owner. -/
theorem ownedBytes_cons (hsorted : Descending (p :: rest)) (hlwb : lwb ≤ p.address)
    (hupb : p.address + boundarySize ≤ upb) : ownedBytes previousId (p :: rest) lwb upb task =
      (if previousId = task then upb - (p.address + boundarySize) else 0) +
        ownedBytes p.owner rest lwb p.address task := by
  have habove : ((Finset.Ico (p.address + boundarySize) upb).filter fun _ =>
      previousId = task).card =
        if previousId = task then upb - (p.address + boundarySize) else 0 := by
    by_cases htask : previousId = task
    · rw [if_pos htask, Finset.filter_true_of_mem fun _ _ => htask, Nat.card_Ico]
    · rw [if_neg htask, Finset.filter_false_of_mem fun _ _ => htask, Finset.card_empty]
  rw [← habove, ← @ownedBytes_of_above n previousId p rest lwb p.address task (le_refl _),
    ownedBytes, ownedBytes, ← Finset.card_union_of_disjoint]
  · apply congrArg Finset.card
    ext a
    rw [Finset.mem_union, mem_ownedBytes, mem_ownedBytes, Finset.mem_filter, Finset.mem_Ico]
    constructor
    · rintro ⟨hrange, hfree, howner⟩
      have hp := hfree p List.mem_cons_self
      have hsize : 0 < boundarySize := by decide
      rw [Boundary.Covers] at hp
      by_cases hlow : p.address < a
      · rw [ownerTaskId_cons, if_pos hlow] at howner
        exact .inl ⟨by omega, howner⟩
      · exact .inr ⟨⟨hrange.1, by omega⟩, hfree, howner⟩
    · rintro (⟨hrange, htask⟩ | ⟨hrange, hfree, howner⟩)
      · refine ⟨⟨by omega, hrange.2⟩, ?_, ?_⟩
        · intro q hq hcovers
          have hend := hcovers.2
          obtain rfl | hq := List.mem_cons.mp hq
          · omega
          · have hle := hsorted.1 q hq
            omega
        · rw [boundarySize] at hrange
          rw [ownerTaskId_cons, if_pos (by omega), htask]
      · exact ⟨⟨hrange.1, by omega⟩, hfree, howner⟩
  · apply Finset.disjoint_left.mpr
    intro a habove hbelow
    have hle := (Finset.mem_Ico.mp (Finset.mem_filter.mp habove).1).1
    have hlt := (mem_ownedBytes.mp hbelow).1.2
    omega

/-- Below the lower bound all memory is charged to the last task, with what is covered. -/
theorem charge_rest (hlow : ∀ q ∈ list, q.address ≤ lwb) :
    (if previousId = task then upb - lwb else 0) = ownedBytes previousId list lwb upb task +
      if previousId = task then coveredBytes list lwb upb else 0 := by
  have howner : ∀ a, lwb ≤ a → (∀ q ∈ list, ¬q.Covers a) →
      ownerTaskId previousId list a = previousId := by
    intro a hle hfree
    apply ownerTaskId_of_above
    intro q hq
    have hnot := hfree q hq
    have haddr := hlow q hq
    rw [Boundary.Covers, boundarySize] at hnot
    omega
  by_cases htask : previousId = task
  · have hcovered : ∀ a ∈ Finset.Ico lwb upb, (∃ p ∈ list, p.address ≤ lwb ∧ p.Covers a) ↔
        ¬((∀ p ∈ list, ¬p.Covers a) ∧ ownerTaskId previousId list a = task) := by
      intro a ha
      constructor
      · rintro ⟨q, hq, -, hcovers⟩ ⟨hfree, -⟩
        exact hfree q hq hcovers
      · intro hnot
        by_contra hnone
        push Not at hnone
        have hfree : ∀ p ∈ list, ¬p.Covers a := fun q hq => hnone q hq (hlow q hq)
        exact hnot ⟨hfree, (howner a (Finset.mem_Ico.mp ha).1 hfree).trans htask⟩
    rw [if_pos htask, if_pos htask, ownedBytes, coveredBytes, Finset.filter_congr hcovered,
      Finset.card_filter_add_card_filter_not, Nat.card_Ico]
  · rw [if_neg htask, if_neg htask, ownedBytes, Finset.filter_false_of_mem, Finset.card_empty]
    rintro a ha ⟨hfree, heq⟩
    exact htask ((howner a (Finset.mem_Ico.mp ha).1 hfree).symm.trans heq)

theorem coveredBytes_cons (hsorted : Descending (p :: rest)) (hlwb : lwb < p.address)
    (hupb : p.address ≤ upb) :
    coveredBytes (p :: rest) lwb upb = coveredBytes rest lwb p.address := by
  apply congrArg Finset.card
  ext a
  simp only [Finset.mem_filter, Finset.mem_Ico]
  constructor
  · rintro ⟨hrange, q, hq, hle, hcovers⟩
    obtain rfl | hq := List.mem_cons.mp hq
    · omega
    · have hend := hsorted.1 q hq
      have hlt := hcovers.2
      exact ⟨⟨hrange.1, by omega⟩, q, hq, hle, hcovers⟩
  · rintro ⟨hrange, q, hq, hle, hcovers⟩
    exact ⟨⟨hrange.1, by omega⟩, q, List.mem_cons_of_mem _ hq, hle, hcovers⟩

/-- **Run lemma.** The second loop charges every task its memory, and one of them with what a
boundary object covers from the lower bound on. -/
theorem chargeDownTo_estimate (hsorted : Descending list) (hle : lwb ≤ upb)
    (hupb : ∀ q ∈ list, q.address + boundarySize ≤ upb) (info : Fin n → TaskMemoryInfo) :
    ∃ id, ∀ task, ((chargeDownTo lwb upb previousId info list).2 task).estimate =
      (info task).estimate + (ownedBytes previousId list lwb upb task +
        if id = task then coveredBytes list lwb upb else 0) := by
  induction list generalizing upb previousId info with
  | nil =>
    refine ⟨previousId, fun task => ?_⟩
    rw [← charge_rest (by simp), chargeDownTo, estimate_addEstimate]
  | cons p rest ih =>
    rw [chargeDownTo]
    by_cases habove : p.address > lwb
    · rw [if_pos habove]
      have hend := hupb p List.mem_cons_self
      have hrest : ∀ id info', ∃ last, ∀ task,
          ((chargeDownTo lwb p.address id info' rest).2 task).estimate =
            (info' task).estimate + (ownedBytes id rest lwb p.address task +
              if last = task then coveredBytes rest lwb p.address else 0) :=
        fun id info' => ih hsorted.2 (by omega) hsorted.1 info'
      have hcovered : coveredBytes (p :: rest) lwb upb = coveredBytes rest lwb p.address :=
        coveredBytes_cons hsorted habove (by omega)
      by_cases hredundant : isRedundant previousId p rest = true
      · obtain ⟨last, hlast⟩ := hrest previousId
          (addEstimate info previousId (upb - (p.address + boundarySize)))
        refine ⟨last, fun task => ?_⟩
        simp only [if_pos hredundant]
        rw [hlast, estimate_addEstimate, ownedBytes_cons hsorted (by omega) hend, hcovered,
          ownedBytes_of_isRedundant hsorted hredundant (le_refl _)]
        omega
      · obtain ⟨last, hlast⟩ := hrest p.owner
          (addEstimate info previousId (upb - (p.address + boundarySize)))
        refine ⟨last, fun task => ?_⟩
        simp only [if_neg hredundant]
        rw [hlast, estimate_addEstimate, ownedBytes_cons hsorted (by omega) hend, hcovered]
        omega
    · rw [if_neg habove]
      refine ⟨previousId, fun task => ?_⟩
      have hlow : ∀ q ∈ p :: rest, q.address ≤ lwb := by
        intro q hq
        obtain rfl | hq := List.mem_cons.mp hq
        · omega
        · have hend := hsorted.1 q hq
          omega
      rw [← charge_rest hlow, estimate_addEstimate]

/-- The boundary objects above the range make no difference to it. -/
theorem optimizeFrom_spec (hsorted : Descending list)
    (hupb : ∀ q ∈ list, q.address < upb → q.address + boundarySize ≤ upb) :
    Descending (optimizeFrom upb previousId list).2.2 ∧
      (∀ q ∈ (optimizeFrom upb previousId list).2.2, q.address + boundarySize ≤ upb) ∧
      coveredBytes (optimizeFrom upb previousId list).2.2 lwb upb = coveredBytes list lwb upb ∧
      ∀ task, ownedBytes (optimizeFrom upb previousId list).2.1
        (optimizeFrom upb previousId list).2.2 lwb upb task =
          ownedBytes previousId list lwb upb task := by
  induction list generalizing previousId with
  | nil => exact ⟨trivial, by simp [optimizeFrom], rfl, fun _ => rfl⟩
  | cons p rest ih =>
    have hrest : ∀ q ∈ rest, q.address < upb → q.address + boundarySize ≤ upb :=
      fun q hq => hupb q (List.mem_cons_of_mem _ hq)
    rw [optimizeFrom]
    by_cases habove : p.address ≥ upb
    · have hcovered : coveredBytes (p :: rest) lwb upb = coveredBytes rest lwb upb := by
        apply congrArg Finset.card
        ext a
        simp only [Finset.mem_filter, Finset.mem_Ico, List.mem_cons, exists_eq_or_imp]
        apply and_congr_right
        intro hrange
        apply or_iff_right
        rintro ⟨-, hcovers⟩
        have hle := hcovers.1
        omega
      rw [if_pos habove, hcovered]
      by_cases hredundant : isRedundant previousId p rest = true
      · rw [if_pos hredundant]
        obtain ⟨hdesc, hbelow, hcov, howned⟩ := @ih previousId hsorted.2 hrest
        refine ⟨hdesc, hbelow, hcov, fun task => ?_⟩
        rw [howned, ownedBytes_of_above habove, ownedBytes_of_isRedundant hsorted hredundant habove]
      · rw [if_neg hredundant]
        obtain ⟨hdesc, hbelow, hcov, howned⟩ := @ih p.owner hsorted.2 hrest
        refine ⟨hdesc, hbelow, hcov, fun task => ?_⟩
        rw [ownedBytes_of_above habove]
        exact howned task
    · rw [if_neg habove]
      refine ⟨hsorted, ?_, rfl, fun _ => rfl⟩
      intro q hq
      obtain rfl | hmem := List.mem_cons.mp hq
      · exact hupb q hq (by omega)
      · have hend := hsorted.1 q hmem
        omega

theorem coveredBytes_eq_zero_iff :
    coveredBytes list lwb upb = 0 ↔ (lwb < upb → ∀ p ∈ list, ¬p.Covers lwb) := by
  rw [coveredBytes, Finset.card_eq_zero, Finset.filter_eq_empty_iff]
  constructor
  · intro h hlt p hp hcovers
    exact h (Finset.mem_Ico.mpr ⟨le_refl _, hlt⟩) ⟨p, hp, hcovers.1, hcovers⟩
  · rintro h a ha ⟨p, hp, hle, hcovers⟩
    have hrange := Finset.mem_Ico.mp ha
    have hend := hcovers.2
    exact h (by omega) p hp ⟨hle, by omega⟩

/-! ## The accounting -/

variable (heap : ObjectHeap n)

/-- Every estimate has grown by the memory of the task in the range. -/
def ChargesOwned (lwb upb : ℕ) : Prop :=
  ∀ task, ((heap.accumulateMemoryUsage lwb upb).taskInfo task).estimate =
    (heap.taskInfo task).estimate +
      ownedBytes heap.previousTaskId heap.boundaryList lwb upb task

/-- The owner of every object that remains is the one it had. -/
def KeepsOwners (lwb upb : ℕ) : Prop :=
  ∀ a, IsObject heap.boundaryList a →
    (∀ q ∈ heap.boundaryList, q.address = a →
      q ∈ (heap.accumulateMemoryUsage lwb upb).boundaryList) →
    ownerTaskId heap.previousTaskId (heap.accumulateMemoryUsage lwb upb).boundaryList a =
      ownerTaskId heap.previousTaskId heap.boundaryList a

/-- **Spec lemma.** What the tasks are charged. -/
theorem accumulate_estimate (hsorted : Descending heap.boundaryList) (hle : lwb ≤ upb)
    (hupb : ∀ q ∈ heap.boundaryList, q.address < upb → q.address + boundarySize ≤ upb) :
    ∃ id, ∀ task, ((heap.accumulateMemoryUsage lwb upb).taskInfo task).estimate =
      (heap.taskInfo task).estimate +
        (ownedBytes heap.previousTaskId heap.boundaryList lwb upb task +
          if id = task then coveredBytes heap.boundaryList lwb upb else 0) := by
  obtain ⟨hdesc, hbelow, hcovered, howned⟩ :=
    @optimizeFrom_spec n heap.previousTaskId heap.boundaryList lwb upb hsorted hupb
  obtain ⟨id, hid⟩ := @chargeDownTo_estimate n
    (optimizeFrom upb heap.previousTaskId heap.boundaryList).2.1
    (optimizeFrom upb heap.previousTaskId heap.boundaryList).2.2 lwb upb hdesc hle hbelow
    heap.taskInfo
  refine ⟨id, fun task => ?_⟩
  rw [← howned task, ← hcovered]
  exact hid task

/-- **Main theorem**: the estimates grow by exactly the memory that the tasks own in the range,
and the look-up stays what it is, if and only if no boundary object covers the lower bound of
the range. -/
theorem accumulate_iff (hsorted : Descending heap.boundaryList) (hle : lwb ≤ upb)
    (hupb : ∀ q ∈ heap.boundaryList, q.address < upb → q.address + boundarySize ≤ upb) :
    ChargesOwned heap lwb upb ∧ KeepsOwners heap lwb upb ↔
      (lwb < upb → ∀ p ∈ heap.boundaryList, ¬p.Covers lwb) := by
  obtain ⟨id, hid⟩ := accumulate_estimate heap hsorted hle hupb
  rw [← coveredBytes_eq_zero_iff]
  constructor
  · rintro ⟨hcharges, -⟩
    have hexact := hcharges id
    rw [hid id, if_pos rfl] at hexact
    omega
  · intro hzero
    refine ⟨fun task => ?_, fun a hobject hremains => ?_⟩
    · rw [hid task, hzero, ite_self, Nat.add_zero]
    · exact (reduces_accumulate heap lwb upb).owner hsorted hobject hremains

/-- A heap of two tasks with one boundary object, at the start of the range: above it the
memory of the second task begins. -/
def boundaryHeap : ObjectHeap 2 :=
  { create 0 0 1024 0 with
    inlineAllocationTop := 124
    previousTaskId := 1
    boundaryList := [⟨100, 0⟩] }

/-- In a range that begins below the boundary object the charge is exact. -/
theorem accumulate_iff_boundaryHeap :
    ChargesOwned boundaryHeap 40 124 ∧ KeepsOwners boundaryHeap 40 124 ↔
      (40 < 124 → ∀ p ∈ boundaryHeap.boundaryList, ¬p.Covers 40) :=
  accumulate_iff boundaryHeap (by simp [boundaryHeap, Descending]) (by decide) (by
    simp [boundaryHeap, boundarySize])

/-- In the range that begins with the boundary object 24 bytes are charged, where 16 are
memory of the task. -/
theorem not_chargesOwned_boundaryHeap :
    Descending boundaryHeap.boundaryList ∧
      ((boundaryHeap.accumulateMemoryUsage 100 124).taskInfo 1).estimate = 24 ∧
      ownedBytes boundaryHeap.previousTaskId boundaryHeap.boundaryList 100 124 1 = 16 ∧
      ¬ChargesOwned boundaryHeap 100 124 := by
  have hestimate : ((boundaryHeap.accumulateMemoryUsage 100 124).taskInfo 1).estimate = 24 := by
    decide
  have howned :
      ownedBytes boundaryHeap.previousTaskId boundaryHeap.boundaryList 100 124 1 = 16 := by
    decide +kernel
  refine ⟨by simp [boundaryHeap, Descending], hestimate, howned, fun hcharges => ?_⟩
  have hexact := hcharges 1
  rw [hestimate, howned] at hexact
  exact absurd hexact (by decide)

end CldcVm.Memory
