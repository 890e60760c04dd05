import CldcVm.Romizer.InlinerMachine

/-!
# The code in the place of a call, step by step

Results:

* `step_nop`, …, `step_return`: what each bytecode does.
* `getUbyte_putThree`, `getUbyte_putThree_of_ne`: the code of a caller after three bytes have been
  put.
* `runSite_pops`: what the code that takes operands from the stack leaves.
-/

namespace CldcVm.RomInliner

open Romizer (Tag FieldType ConstantPool lowHalf highHalf)

variable {w : World} {m : Method} {a : Activation} {access : Access}

/-! ## Bytecodes -/

theorem step_nop (h : m.code.getUbyte a.bci = Op.nop) : step w m a = a.advance 1 a.stack := by
  rw [step, h]
  rfl

variable {obj : Word}

theorem step_pop (h : m.code.getUbyte a.bci = Op.pop) {stack : List Word}
    (hstack : a.stack = obj :: stack) : step w m a = a.advance 1 stack := by
  rw [step, h, hstack]
  rfl

theorem step_npe (h : m.code.getUbyte a.bci = Op.pop_and_npe_if_null)
    {stack : List Word} (hstack : a.stack = obj :: stack) :
    step w m a = if obj = 0 then .thrown .nullPointerException a.heap else a.advance 1 stack := by
  rw [step, h, hstack]
  rfl

theorem step_superConstructor (h : m.code.getUbyte a.bci = Op.fast_invokevirtual_final)
    (hm : m.isDefaultConstructor = true) : step w m a = superConstructor m a := by
  rw [step, h]
  simp [Op.fast_invokevirtual_final, Op.nop, Op.pop, Op.pop_and_npe_if_null, hm]

/-- The bytecodes of the families are not among those with a name of their own. -/
theorem step_family (h : 26 ≤ m.code.getUbyte a.bci ∧ m.code.getUbyte a.bci ≤ 45 ∨
      172 ≤ m.code.getUbyte a.bci ∧ m.code.getUbyte a.bci ≤ 225 ∨
      249 ≤ m.code.getUbyte a.bci ∧ m.code.getUbyte a.bci ≤ 250) :
    step w m a = stepFamily w m a (m.code.getUbyte a.bci) := by
  have hnop : m.code.getUbyte a.bci ≠ Op.nop := by simp only [Op.nop]; omega
  have hpop : m.code.getUbyte a.bci ≠ Op.pop := by simp only [Op.pop]; omega
  have hnpe : m.code.getUbyte a.bci ≠ Op.pop_and_npe_if_null := by
    simp only [Op.pop_and_npe_if_null]
    omega
  have hinvoke : m.code.getUbyte a.bci ≠ Op.fast_invokevirtual_final := by
    simp only [Op.fast_invokevirtual_final]
    omega
  rw [step]
  simp only [hnop, hpop, hnpe, hinvoke, if_false]

variable {code : ℕ}

theorem loadOf_range {r : ℕ × ℕ} (h : loadOf code = some r) : 26 ≤ code ∧ code ≤ 45 := by
  rw [loadOf] at h
  by_contra hne
  rw [if_neg hne] at h
  simp at h

theorem loadOf_eq_none (h : 45 < code) : loadOf code = none := by
  rw [loadOf, if_neg (by omega)]

variable {words : ℕ}

theorem step_load {index : ℕ} (h : loadOf (m.code.getUbyte a.bci) = some (index, words)) :
    step w m a = if index + words ≤ a.locals.length then
      a.advance 1 (((a.locals.drop index).take words).reverse ++ a.stack) else .stopped := by
  rw [step_family (.inl (loadOf_range h)), stepFamily, h]

/-- `aload_0`. -/
theorem step_aload_0 (h : m.code.getUbyte a.bci = Op.aload_0) {rest : List Word}
    (hlocals : a.locals = obj :: rest) : step w m a = a.advance 1 (obj :: a.stack) := by
  have hload : loadOf (m.code.getUbyte a.bci) = some (0, 1) := by rw [h]; rfl
  rw [step_load hload, hlocals, if_pos (by simp)]
  rfl

theorem getfieldOf_cases (h : getfieldOf code = some access) : 218 ≤ code ∧ code ≤ 225 := by
  unfold getfieldOf at h
  split at h <;> first | omega | simp at h

theorem step_getfield (h : getfieldOf (m.code.getUbyte a.bci) = some access) :
    step w m a = getfield m a access := by
  have hrange := getfieldOf_cases h
  rw [step_family (by omega), stepFamily, h, loadOf_eq_none (by omega)]

theorem putfieldOf_cases (h : putfieldOf code = some access) : 211 ≤ code ∧ code ≤ 217 := by
  unfold putfieldOf at h
  split at h <;> first | omega | simp at h

theorem getfieldOf_eq_none (h : code < 218 ∨ 225 < code) : getfieldOf code = none := by
  by_contra hne
  obtain ⟨access, haccess⟩ := Option.ne_none_iff_exists'.1 hne
  have hrange := getfieldOf_cases haccess
  omega

theorem step_putfield (h : putfieldOf (m.code.getUbyte a.bci) = some access) :
    step w m a = putfield m a access := by
  have hrange := putfieldOf_cases h
  rw [step_family (by omega), stepFamily, h, loadOf_eq_none (by omega),
    getfieldOf_eq_none (by omega)]

theorem getstaticOf_cases (h : getstaticOf code = some access) :
    code = 209 ∨ code = 210 ∨ code = 249 ∨ code = 250 := by
  unfold getstaticOf at h
  split at h <;> first | omega | simp at h

theorem putfieldOf_eq_none (h : code < 211 ∨ 217 < code) : putfieldOf code = none := by
  by_contra hne
  obtain ⟨access, haccess⟩ := Option.ne_none_iff_exists'.1 hne
  have hrange := putfieldOf_cases haccess
  omega

theorem step_getstatic (h : getstaticOf (m.code.getUbyte a.bci) = some access) :
    step w m a = getstatic w m a access := by
  have hrange := getstaticOf_cases h
  rw [step_family (by omega), stepFamily, h, loadOf_eq_none (by omega),
    getfieldOf_eq_none (by omega), putfieldOf_eq_none (by omega)]

theorem returnOf_cases (h : returnOf code = some words) : 172 ≤ code ∧ code ≤ 177 := by
  unfold returnOf at h
  split at h <;> first | omega | simp at h

theorem getstaticOf_eq_none (h : code < 209) : getstaticOf code = none := by
  by_contra hne
  obtain ⟨access, haccess⟩ := Option.ne_none_iff_exists'.1 hne
  have hrange := getstaticOf_cases haccess
  omega

theorem step_return (h : returnOf (m.code.getUbyte a.bci) = some words) :
    step w m a = if a.stack.length = words then .returned a.stack a.heap else .stopped := by
  have hrange := returnOf_cases h
  rw [step_family (by omega), stepFamily, h, loadOf_eq_none (by omega),
    getfieldOf_eq_none (by omega), putfieldOf_eq_none (by omega), getstaticOf_eq_none (by omega)]

/-! ## The code of the caller -/

theorem getUbyte_putRaw_self (code : Code) {bci value : ℕ} (hbci : bci < code.length)
    (hvalue : value < 256) : (putRaw code bci value).getUbyte bci = value := by
  unfold putRaw Code.getUbyte
  simp [hbci, hvalue]

variable {i : ℕ}

theorem getUbyte_putRaw_of_ne (code : Code) {bci : ℕ} (value : ℕ) (h : i ≠ bci) :
    (putRaw code bci value).getUbyte i = code.getUbyte i := by
  unfold putRaw Code.getUbyte
  simp [h.symm]

@[simp] theorem length_putRaw (code : Code) (bci value : ℕ) :
    (putRaw code bci value).length = code.length := by
  simp [putRaw]

theorem getUbyte_putThree (m : Method) {site b0 b1 b2 : ℕ} (hsite : site + 3 ≤ m.code.length)
    (h0 : b0 < 256) (h1 : b1 < 256) (h2 : b2 < 256) :
    (m.putThree site b0 b1 b2).code.getUbyte site = b0 ∧
      (m.putThree site b0 b1 b2).code.getUbyte (site + 1) = b1 ∧
      (m.putThree site b0 b1 b2).code.getUbyte (site + 2) = b2 := by
  refine ⟨?_, ?_, ?_⟩
  · rw [Method.putThree, getUbyte_putRaw_of_ne _ _ (by omega), getUbyte_putRaw_of_ne _ _ (by omega),
      getUbyte_putRaw_self _ (by omega) h0]
  · rw [Method.putThree, getUbyte_putRaw_of_ne _ _ (by omega),
      getUbyte_putRaw_self _ (by simp; omega) h1]
  · rw [Method.putThree, getUbyte_putRaw_self _ (by simp; omega) h2]

theorem getUbyte_putThree_of_ne (m : Method) {site b0 b1 b2 : ℕ} (h : i < site ∨ site + 3 ≤ i) :
    (m.putThree site b0 b1 b2).code.getUbyte i = m.code.getUbyte i := by
  rw [Method.putThree, getUbyte_putRaw_of_ne _ _ (by omega), getUbyte_putRaw_of_ne _ _ (by omega),
    getUbyte_putRaw_of_ne _ _ (by omega)]

/-! ## Runs in the place of the call -/

variable {site fuel : ℕ} {locals stack : List Word} {heap : Heap}

theorem runSite_end : runSite w m site (fuel + 1) ⟨site + 3, locals, stack, heap⟩ =
    some (.normal stack heap) := by
  rw [runSite, if_pos rfl]

theorem runSite_next {a a' : Activation} (hbci : a.bci ≠ site + 3) (h : step w m a = .next a') :
    runSite w m site (fuel + 1) a = runSite w m site fuel a' := by
  rw [runSite, if_neg hbci, h]

theorem runSite_thrown {a : Activation} (hbci : a.bci ≠ site + 3) {e : Thrown}
    (h : step w m a = .thrown e heap) : runSite w m site (fuel + 1) a = some (.thrown e heap) := by
  rw [runSite, if_neg hbci, h]

/-- What is left where the operands of a call without effect are taken from the stack. -/
def popped (needNullcheck isStatic : Bool) (numParams : ℕ) (stack : List Word) (heap : Heap) :
    Outcome :=
  if !isStatic ∧ needNullcheck ∧ 0 < numParams ∧ stack[numParams - 1]? = some 0 then
    .thrown .nullPointerException heap
  else .normal (stack.drop numParams) heap

theorem popCode_lt (needNullcheck isStatic : Bool) (numParams i : ℕ) :
    popCode needNullcheck isStatic numParams i < 256 := by
  rw [popCode]
  split
  · split <;> decide
  · split <;> decide

variable {isStatic need : Bool} {numParams : ℕ}

/-- One of the three bytes. -/
theorem runSite_popCode (hi : i < 3)
    (hcode : m.code.getUbyte (site + i) = popCode need isStatic numParams i)
    (hstack : numParams ≤ i + stack.length) :
    runSite w m site (fuel + 1) ⟨site + i, locals, stack, heap⟩ =
      if !isStatic ∧ need ∧ i + 1 = numParams ∧ stack.head? = some 0 then
        some (.thrown .nullPointerException heap) else runSite w m site fuel
        ⟨site + (i + 1), locals, if i < numParams then stack.drop 1 else stack, heap⟩ := by
  have hbci : site + i ≠ site + 3 := by omega
  rw [popCode] at hcode
  by_cases hlast : (!isStatic) = true ∧ i + 1 = numParams
  · obtain ⟨hstatic, hn⟩ := hlast
    obtain ⟨obj, rest, rfl⟩ : ∃ obj rest, stack = obj :: rest := by
      match stack with
      | [] => simp at hstack; omega
      | obj :: rest => exact ⟨obj, rest, rfl⟩
    rw [if_pos ⟨hstatic, hn⟩] at hcode
    by_cases hneed : need = true
    · rw [if_pos hneed] at hcode
      have hstep := step_npe (w := w) (a := ⟨site + i, locals, obj :: rest, heap⟩) hcode rfl
      by_cases hobj : obj = 0
      · rw [if_pos hobj] at hstep
        rw [if_pos ⟨hstatic, hneed, hn, by simp [hobj]⟩]
        exact runSite_thrown hbci hstep
      · rw [if_neg hobj] at hstep
        rw [if_neg fun h => hobj (Option.some.inj h.2.2.2), if_pos (by omega)]
        exact runSite_next hbci hstep
    · rw [if_neg hneed] at hcode
      have hstep := step_pop (w := w) (a := ⟨site + i, locals, obj :: rest, heap⟩) hcode rfl
      rw [if_neg (by simp [hneed]), if_pos (by omega)]
      exact runSite_next hbci hstep
  · rw [if_neg hlast] at hcode
    rw [if_neg fun h => hlast ⟨h.1, h.2.2.1⟩]
    by_cases hlt : i < numParams
    · rw [if_pos hlt] at hcode ⊢
      obtain ⟨obj, rest, rfl⟩ : ∃ obj rest, stack = obj :: rest := by
        match stack with
        | [] => simp at hstack; omega
        | obj :: rest => exact ⟨obj, rest, rfl⟩
      have hstep := step_pop (w := w) (a := ⟨site + i, locals, obj :: rest, heap⟩) hcode rfl
      exact runSite_next hbci hstep
    · rw [if_neg hlt] at hcode ⊢
      have hstep := step_nop (w := w) (m := m) (a := ⟨site + i, locals, stack, heap⟩) hcode
      exact runSite_next hbci hstep

theorem popped_zero (need isStatic : Bool) :
    popped need isStatic 0 stack heap = .normal stack heap := by
  simp [popped]

/-- One operand is taken; it is the receiver, or another one. -/
theorem popped_succ (need isStatic : Bool) (n : ℕ) : popped need isStatic (n + 1) stack heap =
    if !isStatic ∧ need ∧ n = 0 ∧ stack.head? = some 0 then .thrown .nullPointerException heap
    else popped need isStatic n (stack.drop 1) heap := by
  by_cases hzero : n = 0
  · subst hzero
    simp [popped, List.head?_eq_getElem?]
  · rw [if_neg fun h => hzero h.2.2.1, popped, popped, List.drop_drop, List.getElem?_drop,
      Nat.add_sub_cancel, Nat.add_sub_cancel' (by omega), Nat.add_comm 1 n]
    simp [Nat.pos_of_ne_zero hzero]

/-- **Run lemma**: the rest of the code that takes the operands from the stack. -/
theorem runSite_popsFrom (hthree : numParams ≤ 3)
    (hcode : ∀ i < 3, m.code.getUbyte (site + i) = popCode need isStatic numParams i) :
    ∀ d i, i + d = 3 → ∀ fuel ≥ d + 1, ∀ stack : List Word, numParams ≤ i + stack.length →
      runSite w m site fuel ⟨site + i, locals, stack, heap⟩ =
        some (popped need isStatic (numParams - i) stack heap) := by
  intro d
  induction d with
  | zero =>
    intro i hi fuel hfuel stack _
    obtain ⟨n, rfl⟩ : ∃ n, fuel = n + 1 := ⟨fuel - 1, by omega⟩
    obtain rfl : i = 3 := by omega
    rw [runSite_end, Nat.sub_eq_zero_of_le hthree, popped_zero]
  | succ d ih =>
    intro i hi fuel hfuel stack hstack
    obtain ⟨n, rfl⟩ : ∃ n, fuel = n + 1 := ⟨fuel - 1, by omega⟩
    rw [runSite_popCode (by omega) (hcode i (by omega)) hstack]
    by_cases hlt : i < numParams
    · obtain ⟨k, hk⟩ : ∃ k, numParams - i = k + 1 := ⟨numParams - i - 1, by omega⟩
      have hlength : numParams ≤ i + 1 + (stack.drop 1).length := by
        rw [List.length_drop]
        omega
      have hlast : i + 1 = numParams ↔ k = 0 := by omega
      rw [if_pos hlt, ih (i + 1) (by omega) n (by omega) _ hlength, hk, popped_succ,
        show numParams - (i + 1) = k by omega]
      simp only [hlast]
      split <;> rfl
    · rw [if_neg fun h => by omega, if_neg hlt, ih (i + 1) (by omega) n (by omega) _ (by omega),
        Nat.sub_eq_zero_of_le (by omega), Nat.sub_eq_zero_of_le (by omega)]

/-- **Run lemma**: the code that takes the operands from the stack. -/
theorem runSite_pops (hthree : numParams ≤ 3)
    (hcode : ∀ i < 3, m.code.getUbyte (site + i) = popCode need isStatic numParams i)
    (hstack : numParams ≤ stack.length) (hfuel : 4 ≤ fuel) :
    runSite w m site fuel ⟨site, locals, stack, heap⟩ =
      some (popped need isStatic numParams stack heap) :=
  runSite_popsFrom hthree hcode 3 0 rfl fuel hfuel stack (by omega)

end CldcVm.RomInliner
