import CldcVm.Resolution.ConstantPool

/-!
# What an attempt does

An attempt on an entry that has not been resolved is decided by the method that is found
for it, and one on a resolved entry by the entry.

Results: `attempt_unresolved`, `attempt_resolvedStaticMethod`, `attempt_resolvedVirtualMethod`.
-/

namespace CldcVm.Resolution

open Dispatch

variable {w : World} {env : Environment} {senderClass index : ℕ} {cp : ConstantPool}
variable {cp' : ConstantPool} {code : Bytecode} {m : MethodAt} {a b : ℕ}

/-- The entry has been resolved to a method. -/
def Entry.IsResolved : Entry → Prop
  | .resolvedStaticMethod _ => True
  | .resolvedVirtualMethod _ _ => True
  | _ => False

/-- The instruction that is used with a resolved entry. -/
def fastBytecode : Bytecode → Entry → FastBytecode
  | .invokestatic, _ => .fastInvokestatic
  | _, .resolvedStaticMethod _ => .fastInvokevirtualFinal
  | .invokevirtual, _ => .fastInvokevirtual
  | .invokespecial, _ => .fastInvokespecial

/-- The methods that are selected with a resolved entry. -/
def calls (w : World) (code : Bytecode) (entry : Entry) (receiver : ℕ) : Option MethodAt :=
  selectMethod w (some entry) receiver (fastBytecode code entry)

/-- What an attempt comes to when the method is found, and the entry that it writes. -/
def outcome (w : World) (env : Environment) (senderClass : ℕ) (found : Found) :
    Bytecode → Except Throwable (ℕ → Option MethodAt) × Option Entry
  | .invokestatic =>
    ((checkStatic w env senderClass found.m).map fun _ =>
      calls w .invokestatic (.resolvedStaticMethod found.m),
      some (.resolvedStaticMethod found.m))
  | .invokespecial =>
    if found.m.method.isStatic then (.error (incompatibleClassChange .methodChanged), none)
    else
      match specialTarget w senderClass found with
      | .error e => (.error e, none)
      | .ok (receiver, m) =>
        (.ok (calls w .invokespecial (resolvedEntry w receiver m)),
          some (resolvedEntry w receiver m))
  | .invokevirtual =>
    if (w.flags found.receiver).isInterface then
      (.error (incompatibleClassChange .classChanged), none)
    else if found.m.method.isStatic then
      (.error (incompatibleClassChange .emptyMessage), none)
    else
      (.ok (calls w .invokevirtual (resolvedEntry w found.receiver found.m)),
        some (resolvedEntry w found.receiver found.m))

/-- The entry is written, if there is one to write. -/
def putEntry (cp : ConstantPool) (index : ℕ) : Option Entry → ConstantPool
  | none => cp
  | some entry => cp.set index entry

theorem resolvedEntry_cases (w : World) (receiver : ℕ) (m : MethodAt) :
    resolvedEntry w receiver m = .resolvedStaticMethod m ∨ resolvedEntry w receiver m =
        .resolvedVirtualMethod (receiver % 2 ^ 16) (w.vtableIndex m) := by
  unfold resolvedEntry
  split_ifs
  · exact .inl rfl
  · exact .inr rfl

theorem methodrefAt_eq_some :
    methodrefAt cp index = some (a, b) ↔ cp[index]? = some (.methodref a b) := by
  unfold methodrefAt
  cases cp[index]? with
  | none => exact iff_of_false nofun nofun
  | some entry => cases entry <;> simp

theorem resolveMethodRef_eq (w : World) (cp : ConstantPool) (index receiver : ℕ) (m : MethodAt) :
    ∃ isFinal, resolveMethodRef w cp index receiver m =
        (.ok isFinal, cp.set index (resolvedEntry w receiver m)) ∧
      ∀ code, code ≠ .invokestatic → fastBytecode code (resolvedEntry w receiver m) =
        if isFinal then .fastInvokevirtualFinal
        else if code = .invokevirtual then .fastInvokevirtual else .fastInvokespecial := by
  unfold resolveMethodRef
  rcases resolvedEntry_cases w receiver m with hentry | hentry
  · rw [hentry]
    refine ⟨true, rfl, fun code hcode => ?_⟩
    cases code with
    | invokevirtual => rfl
    | invokespecial => rfl
    | invokestatic => exact (hcode rfl).elim
  · rw [hentry]
    refine ⟨false, rfl, fun code hcode => ?_⟩
    cases code with
    | invokevirtual => rfl
    | invokespecial => rfl
    | invokestatic => exact (hcode rfl).elim

/-! ## Unresolved entries -/

/-- The entry is not one of a resolved method. -/
def Unresolved (cp : ConstantPool) (index : ℕ) : Prop :=
  ∀ entry, cp[index]? = some entry → ¬entry.IsResolved

theorem not_unresolved :
    ¬Unresolved cp index ↔ ∃ entry, cp[index]? = some entry ∧ entry.IsResolved := by
  unfold Unresolved
  push Not
  rfl

theorem methodref_of_methodSymbols {name signature : Symbol} {classIndex : ℕ}
    (h : methodSymbols cp index = some (name, signature, classIndex)) :
    ∃ a b, cp[index]? = some (.methodref a b) := by
  unfold methodSymbols at h
  cases href : methodrefAt cp index with
  | none =>
    rw [href] at h
    cases h
  | some ref => exact ⟨ref.1, ref.2, methodrefAt_eq_some.mp href⟩

/-- What comes after the lookup of an attempt. -/
def afterLookup (w : World) (env : Environment) (senderClass index : ℕ) (code : Bytecode) :
    Resolved Found → Resolved (ℕ → Option MethodAt)
  | (.error e, cp) => (.error e, cp)
  | (.ok found, cp) =>
    ((outcome w env senderClass found code).1,
      putEntry cp index (outcome w env senderClass found code).2)

theorem klassAt_length (env : Environment) (cp : ConstantPool) (index : ℕ) :
    (klassAt env cp index).2.length = cp.length := by
  unfold klassAt
  split
  · split
    · rfl
    · exact List.length_set
  · rfl
  · rfl

theorem lookupMethodAt_length (w : World) (env : Environment) (senderClass : ℕ)
    (cp : ConstantPool) (index : ℕ) :
    (lookupMethodAt w env senderClass cp index).2.length = cp.length := by
  have hklass := klassAt_length env cp
  unfold lookupMethodAt
  split
  · rfl
  · split
    · rfl
    · rename_i name signature classIndex _
      have hlength := hklass classIndex
      split
      · rename_i heq
        rw [heq] at hlength
        exact hlength
      · rename_i heq
        rw [heq] at hlength
        exact hlength

theorem lt_of_lookupMethodAt {found : Found}
    (h : (lookupMethodAt w env senderClass cp index).1 = .ok found) : index < cp.length := by
  by_contra hge
  have hnone : cp[index]? = none := List.getElem?_eq_none (Nat.not_lt.mp hge)
  unfold lookupMethodAt methodSymbols methodrefAt at h
  rw [hnone] at h
  cases h

theorem lookupMethodAt_unresolved (h : Unresolved cp index) :
    lookupMethodAt w env senderClass cp index = match methodSymbols cp index with
      | none => (.error .invalidConstant, cp)
      | some (name, signature, classIndex) =>
        match klassAt env cp classIndex with
        | (.error e, cp) => (.error e, cp)
        | (.ok receiver, cp) => (lookupIn w senderClass name signature receiver, cp) := by
  unfold lookupMethodAt
  split
  · next heq => exact (h _ heq trivial).elim
  · rfl

theorem lookupIn_eq_ok {name signature : Symbol} {receiver : ℕ} {found : Found}
    (h : lookupIn w senderClass name signature receiver = .ok found) :
    name = found.name ∧ signature = found.signature := by
  unfold lookupIn at h
  split at h
  · cases h
  · split at h
    · cases h
    · split at h
      · cases h
      · split at h
        · obtain rfl := Except.ok.inj h
          exact ⟨rfl, rfl⟩
        · cases h

theorem methodSymbols_of_lookupMethodAt {found : Found} (h : Unresolved cp index)
    (hfound : (lookupMethodAt w env senderClass cp index).1 = .ok found) :
    ∃ classIndex receiver, methodSymbols cp index = some (found.name, found.signature, classIndex) ∧
        (klassAt env cp classIndex).1 = .ok receiver ∧
        lookupIn w senderClass found.name found.signature receiver = .ok found := by
  rw [lookupMethodAt_unresolved h] at hfound
  cases hsymbols : methodSymbols cp index with
  | none =>
    rw [hsymbols] at hfound
    cases hfound
  | some symbols =>
    obtain ⟨name, signature, classIndex⟩ := symbols
    simp only [hsymbols] at hfound
    cases hklass : klassAt env cp classIndex with
    | mk receiver cp' =>
      cases receiver with
      | error e =>
        simp only [hklass] at hfound
        cases hfound
      | ok receiver =>
        simp only [hklass] at hfound
        obtain ⟨rfl, rfl⟩ := lookupIn_eq_ok hfound
        exact ⟨classIndex, receiver, rfl, by rw [hklass], hfound⟩

theorem resolveInvokeVirtualAt_unresolved (h : Unresolved cp index) :
    resolveInvokeVirtualAt w env senderClass cp index =
      match lookupMethodAt w env senderClass cp index with
      | (.error e, cp) => (.error e, cp)
      | (.ok found, cp) =>
        if (w.flags found.receiver).isInterface then
          (.error (incompatibleClassChange .classChanged), cp)
        else if found.m.method.isStatic then (.error (incompatibleClassChange .emptyMessage), cp)
        else resolveMethodRef w cp index found.receiver found.m := by
  unfold resolveInvokeVirtualAt
  split
  · next heq => exact (h _ heq trivial).elim
  · next heq => exact (h _ heq trivial).elim
  · rfl

theorem resolveInvokeSpecialAt_unresolved (h : Unresolved cp index) :
    resolveInvokeSpecialAt w env senderClass cp index =
      match lookupMethodAt w env senderClass cp index with
      | (.error e, cp) => (.error e, cp)
      | (.ok found, cp) =>
        if found.m.method.isStatic then (.error (incompatibleClassChange .methodChanged), cp)
        else
          match specialTarget w senderClass found with
          | .error e => (.error e, cp)
          | .ok (receiver, m) => resolveMethodRef w cp index receiver m := by
  unfold resolveInvokeSpecialAt
  split
  · next heq => exact (h _ heq trivial).elim
  · next heq => exact (h _ heq trivial).elim
  · rfl

theorem resolveInvokeStaticAt_unresolved (h : Unresolved cp index) :
    resolveInvokeStaticAt w env senderClass cp index =
      match lookupMethodAt w env senderClass cp index with
      | (.error e, cp) => (.error e, cp)
      | (.ok found, cp) =>
        (checkStatic w env senderClass found.m, cp.set index (.resolvedStaticMethod found.m)) := by
  unfold resolveInvokeStaticAt
  split
  · next heq => exact (h _ heq trivial).elim
  · rfl

/-- **Spec lemma**: an attempt on an entry that is not resolved. -/
theorem attempt_unresolved (hunresolved : Unresolved cp index) :
    attempt w env senderClass cp index code =
      afterLookup w env senderClass index code (lookupMethodAt w env senderClass cp index) := by
  have hlt := @lt_of_lookupMethodAt w env senderClass index cp
  have hlength := lookupMethodAt_length w env senderClass cp index
  cases hlookup : lookupMethodAt w env senderClass cp index with
  | mk found cp' =>
    rw [hlookup] at hlt hlength
    cases found with
    | error e =>
      unfold attempt afterLookup
      cases code with
      | invokevirtual =>
        simp only [quicken, resolveInvokeVirtualAt_unresolved hunresolved, hlookup]
      | invokespecial =>
        simp only [quicken, resolveInvokeSpecialAt_unresolved hunresolved, hlookup]
      | invokestatic =>
        simp only [quicken, resolveInvokeStaticAt_unresolved hunresolved, hlookup]
    | ok found =>
      have hlt' : index < cp'.length := hlength ▸ hlt rfl
      unfold attempt
      cases code with
      | invokevirtual =>
        obtain ⟨isFinal, hresolve, hfast⟩ :=
          resolveMethodRef_eq w cp' index found.receiver found.m
        simp only [quicken, resolveInvokeVirtualAt_unresolved hunresolved, hlookup, afterLookup,
          outcome]
        split_ifs with hinterface hstatic
        · rfl
        · rfl
        · unfold calls
          rw [hresolve, hfast .invokevirtual nofun]
          simp only [List.getElem?_set_self hlt', putEntry]
          rfl
      | invokespecial =>
        simp only [quicken, resolveInvokeSpecialAt_unresolved hunresolved, hlookup, afterLookup,
          outcome]
        split_ifs with hstatic
        · rfl
        · cases specialTarget w senderClass found with
          | error e => rfl
          | ok target =>
            obtain ⟨receiver, m⟩ := target
            obtain ⟨isFinal, hresolve, hfast⟩ := resolveMethodRef_eq w cp' index receiver m
            unfold calls
            simp only [hresolve, hfast .invokespecial nofun, List.getElem?_set_self hlt', putEntry]
            rfl
      | invokestatic =>
        simp only [quicken, resolveInvokeStaticAt_unresolved hunresolved, hlookup, afterLookup,
          outcome]
        cases checkStatic w env senderClass found.m with
        | error e => rfl
        | ok _ =>
          simp only [List.getElem?_set_self hlt', putEntry]
          rfl

/-! ## Resolved entries -/

/-- **Spec lemma**: an attempt on an entry with a fixed method. -/
theorem attempt_resolvedStaticMethod (h : cp[index]? = some (.resolvedStaticMethod m)) :
    attempt w env senderClass cp index code = (if code = .invokestatic then
        (checkStatic w env senderClass m).map fun _ => calls w code (.resolvedStaticMethod m)
      else if m.method.isStatic then .error (incompatibleClassChange .emptyMessage)
      else .ok (calls w code (.resolvedStaticMethod m)), cp) := by
  unfold attempt
  cases code with
  | invokevirtual =>
    simp only [quicken, resolveInvokeVirtualAt, h]
    cases m.method.isStatic with
    | true => rfl
    | false =>
      simp only [Bool.false_eq_true, if_false, if_true, h]
      rfl
  | invokespecial =>
    simp only [quicken, resolveInvokeSpecialAt, h]
    cases m.method.isStatic with
    | true => rfl
    | false =>
      simp only [Bool.false_eq_true, if_false, if_true, h]
      rfl
  | invokestatic =>
    simp only [quicken, resolveInvokeStaticAt, h]
    cases checkStatic w env senderClass m with
    | error e => rfl
    | ok _ =>
      simp only [h]
      rfl

/-- **Spec lemma**: an attempt on an entry with a place in vtables. -/
theorem attempt_resolvedVirtualMethod (h : cp[index]? = some (.resolvedVirtualMethod a b)) :
    attempt w env senderClass cp index code =
      (if code = .invokestatic then .error (incompatibleClassChange .methodChanged)
      else .ok (calls w code (.resolvedVirtualMethod a b)), cp) := by
  unfold attempt
  cases code with
  | invokevirtual =>
    simp only [quicken, resolveInvokeVirtualAt, h]
    rfl
  | invokespecial =>
    simp only [quicken, resolveInvokeSpecialAt, h]
    rfl
  | invokestatic =>
    simp only [quicken, resolveInvokeStaticAt, lookupMethodAt, h]
    rfl

theorem attempt_resolvedEntry {receiver : ℕ} (hm : m.method.isStatic = false)
    (h : cp[index]? = some (resolvedEntry w receiver m)) : attempt w env senderClass cp index code =
      (if code = .invokestatic then .error (incompatibleClassChange .methodChanged)
      else .ok (calls w code (resolvedEntry w receiver m)), cp) := by
  rcases resolvedEntry_cases w receiver m with heq | heq
  · rw [heq] at h ⊢
    rw [attempt_resolvedStaticMethod h, checkStatic, hm]
    rfl
  · rw [heq] at h ⊢
    exact attempt_resolvedVirtualMethod h

end CldcVm.Resolution
