import CldcVm.Resolution.Attempts

/-!
# Resolution does not depend on order

The instructions of a class that share a method entry make attempts in any order, while
classes are loaded. If no attempt meets a defect, each of them comes to the same as if it
were the only one.

Results: `resolution_of_run`; `not_orderIndependent_invokestatic`: a failed
`invokestatic` leaves an entry with which `invokevirtual` selects another method.
-/

namespace CldcVm.Resolution

open Dispatch
open Handles (byte)

/-! ## Runs -/

/-- A class that has been loaded stays loaded. -/
def Environment.Le (env env' : Environment) : Prop :=
  ∀ name id, env.resolve name = .ok id → env'.resolve name = .ok id

/-- Only `invokespecial` names a method whose name starts with `<`
(`verifier/VerifyMethodCodes.cpp`, lines 872–880). -/
def Verified (c : ClassCode) : Prop :=
  ∀ code index, c.Has code index → code ≠ .invokespecial → ∀ name signature classIndex,
    methodSymbols c.cp index = some (name, signature, classIndex) → name.head? ≠ some (byte '<')

/-- The attempt does not meet a defect.

`invokestatic` writes the entry of a method that is not static only if no other
instruction shares it. `invokespecial` writes neither that of a static method, nor, if
`invokevirtual` shares it, that of an interface; and it does not find the entry of a
static method, for which its message is another. -/
def AttemptOk (w : World) (env : Environment) (senderClass : ℕ) (c : ClassCode)
    (cp : ConstantPool) (index : ℕ) : Bytecode → Prop
  | .invokevirtual => True
  | .invokestatic =>
    ∀ found, Unresolved cp index → (lookupMethodAt w env senderClass cp index).1 = .ok found →
      found.m.method.isStatic = true ∨ ∀ code, c.Has code index → code = .invokestatic
  | .invokespecial =>
    (∀ m, cp[index]? = some (.resolvedStaticMethod m) → m.method.isStatic = false) ∧
      ∀ found, Unresolved cp index → (lookupMethodAt w env senderClass cp index).1 = .ok found →
        found.m.method.isStatic = false →
          (c.Has .invokevirtual index → (w.flags found.receiver).isInterface = false) ∧
            ∀ receiver m, specialTarget w senderClass found = .ok (receiver, m) →
              m.method.isStatic = false

/-- A run of a class: the environment and the constant pool. -/
inductive Run (w : World) (senderClass : ℕ) (c : ClassCode)
    (Ok : Environment → ConstantPool → ℕ → Bytecode → Prop) : Environment → ConstantPool → Prop
  | start (env : Environment) : Run w senderClass c Ok env c.cp
  | load {env env' : Environment} {cp : ConstantPool} : Run w senderClass c Ok env cp →
      env.Le env' → Run w senderClass c Ok env' cp
  | attempt {env : Environment} {cp : ConstantPool} {code : Bytecode} {index : ℕ} :
      Run w senderClass c Ok env cp → c.Has code index → Ok env cp index code →
      Run w senderClass c Ok env (attempt w env senderClass cp index code).2

variable {w : World} {env env' : Environment} {senderClass index i : ℕ} {c : ClassCode}
variable {cp : ConstantPool} {code : Bytecode} {found : Found} {entry : Entry}

/-! ## The invariant -/

/-- The entry that has been written for the method found. -/
def Written (w : World) (senderClass : ℕ) (c : ClassCode) (index : ℕ) (found : Found)
    (entry : Entry) : Prop :=
  entry = .resolvedStaticMethod found.m ∧
      (found.m.method.isStatic = true ∨ ∀ code, c.Has code index → code = .invokestatic) ∨
    found.m.method.isStatic = false ∧
      (∃ receiver m, m.method.isStatic = false ∧ entry = resolvedEntry w receiver m) ∧
      (c.Has .invokevirtual index → (w.flags found.receiver).isInterface = false ∧
        entry = resolvedEntry w found.receiver found.m) ∧
      (c.Has .invokespecial index → ∃ receiver m,
        specialTarget w senderClass found = .ok (receiver, m) ∧ m.method.isStatic = false ∧
          entry = resolvedEntry w receiver m)

/-- What has become of an entry. -/
inductive EntryOk (w : World) (env : Environment) (senderClass : ℕ) (c : ClassCode)
    (cp : ConstantPool) (i : ℕ) : Prop
  | same : cp[i]? = c.cp[i]? → EntryOk w env senderClass c cp i
  | resolvedClass (name : Symbol) (id : ℕ) : c.cp[i]? = some (.unresolvedClass name) →
      cp[i]? = some (.resolvedClass id) → env.resolve name = .ok id →
      EntryOk w env senderClass c cp i
  | written (a b : ℕ) (found : Found) (entry : Entry) : c.cp[i]? = some (.methodref a b) →
      (lookupMethodAt w env senderClass c.cp i).1 = .ok found →
      cp[i]? = some entry → Written w senderClass c i found entry →
      EntryOk w env senderClass c cp i

/-- The invariant of a run. -/
structure Invariant (w : World) (env : Environment) (senderClass : ℕ) (c : ClassCode)
    (cp : ConstantPool) : Prop where
  length : cp.length = c.cp.length
  entry : ∀ i, EntryOk w env senderClass c cp i

theorem Written.isResolved (h : Written w senderClass c index found entry) : entry.IsResolved := by
  have hresolved : ∀ receiver m, (resolvedEntry w receiver m).IsResolved := by
    intro receiver m
    rcases resolvedEntry_cases w receiver m with heq | heq
    · rw [heq]
      trivial
    · rw [heq]
      trivial
  rcases h with ⟨rfl, -⟩ | ⟨-, ⟨receiver, m, -, rfl⟩, -, -⟩
  · trivial
  · exact hresolved receiver m

/-! ## Lookups -/

theorem EntryOk.utf8At (h : EntryOk w env senderClass c cp i) : utf8At cp i = utf8At c.cp i := by
  unfold Resolution.utf8At
  cases h with
  | same heq => rw [heq]
  | resolvedClass name id hc hcp _ => rw [hc, hcp]
  | written a b found entry hc _ hcp hwritten =>
    rw [hc, hcp]
    cases entry with
    | utf8 _ => exact hwritten.isResolved.elim
    | _ => rfl

theorem EntryOk.nameAndTypeAt (h : EntryOk w env senderClass c cp i) :
    nameAndTypeAt cp i = nameAndTypeAt c.cp i := by
  unfold Resolution.nameAndTypeAt
  cases h with
  | same heq => rw [heq]
  | resolvedClass name id hc hcp _ => rw [hc, hcp]
  | written a b found entry hc _ hcp hwritten =>
    rw [hc, hcp]
    cases entry with
    | nameAndType _ _ => exact hwritten.isResolved.elim
    | _ => rfl

theorem EntryOk.methodrefAt (h : EntryOk w env senderClass c cp i) (hi : Unresolved cp i) :
    methodrefAt cp i = methodrefAt c.cp i := by
  unfold Resolution.methodrefAt
  cases h with
  | same heq => rw [heq]
  | resolvedClass name id hc hcp _ => rw [hc, hcp]
  | written a b found entry hc _ hcp hwritten => exact (hi entry hcp hwritten.isResolved).elim

theorem Invariant.methodSymbols (h : Invariant w env senderClass c cp) (hi : Unresolved cp i) :
    methodSymbols cp i = methodSymbols c.cp i := by
  unfold Resolution.methodSymbols
  rw [(h.entry i).methodrefAt hi]
  cases Resolution.methodrefAt c.cp i with
  | none => rfl
  | some ref =>
    obtain ⟨classIndex, nameAndTypeIndex⟩ := ref
    simp only [(h.entry nameAndTypeIndex).nameAndTypeAt]
    cases Resolution.nameAndTypeAt c.cp nameAndTypeIndex with
    | none => rfl
    | some symbols =>
      obtain ⟨nameIndex, signatureIndex⟩ := symbols
      simp only [(h.entry nameIndex).utf8At, (h.entry signatureIndex).utf8At]

theorem EntryOk.klassAt (h : EntryOk w env senderClass c cp i) :
    (klassAt env cp i).1 = (klassAt env c.cp i).1 := by
  unfold Resolution.klassAt
  cases h with
  | same heq =>
    rw [heq]
    cases c.cp[i]? with
    | none => rfl
    | some entry =>
      cases entry with
      | unresolvedClass name =>
        simp only
        cases env.resolve name <;> rfl
      | _ => rfl
  | resolvedClass name id hc hcp hresolve =>
    rw [hc, hcp]
    simp only [hresolve]
  | written a b found entry hc _ hcp hwritten =>
    rw [hc, hcp]
    cases entry with
    | unresolvedClass _ => exact hwritten.isResolved.elim
    | resolvedClass _ => exact hwritten.isResolved.elim
    | _ => rfl

theorem EntryOk.unresolved (h : EntryOk w env senderClass c cp i) (hi : Unresolved cp i) :
    Unresolved c.cp i := by
  cases h with
  | same heq => exact fun entry hentry => hi entry (heq.trans hentry)
  | resolvedClass name _ hc _ _ =>
    intro entry hentry
    obtain rfl := Option.some.inj (hc.symm.trans hentry)
    exact id
  | written a b found entry hc _ hcp hwritten =>
    exact (hi entry hcp hwritten.isResolved).elim

theorem unresolved_of_methodref {a b : ℕ} (h : cp[i]? = some (.methodref a b)) :
    Unresolved cp i := by
  intro entry hentry
  obtain rfl := Option.some.inj (h.symm.trans hentry)
  exact id

/-- The same is found as in the constant pool of the class. -/
theorem Invariant.lookupMethodAt (h : Invariant w env senderClass c cp) (hi : Unresolved cp i) :
    (lookupMethodAt w env senderClass cp i).1 = (lookupMethodAt w env senderClass c.cp i).1 := by
  rw [lookupMethodAt_unresolved hi, lookupMethodAt_unresolved ((h.entry i).unresolved hi),
    h.methodSymbols hi]
  cases Resolution.methodSymbols c.cp i with
  | none => rfl
  | some symbols =>
    obtain ⟨name, signature, classIndex⟩ := symbols
    have hklass := (h.entry classIndex).klassAt
    simp only
    cases hcp : Resolution.klassAt env cp classIndex with
    | mk receiver cp' =>
      cases hc : Resolution.klassAt env c.cp classIndex with
      | mk receiver' cp'' =>
        rw [hcp, hc] at hklass
        obtain rfl : receiver = receiver' := hklass
        cases receiver with
        | error e => rfl
        | ok receiver => rfl

/-- What is found is found when more classes are loaded. -/
theorem klassAt_of_le {id : ℕ} (hle : env.Le env') (h : (klassAt env cp i).1 = .ok id) :
    (klassAt env' cp i).1 = .ok id := by
  unfold klassAt at h ⊢
  split at h
  · next name _ =>
    cases hresolve : env.resolve name with
    | error e =>
      rw [hresolve] at h
      cases h
    | ok id' =>
      rw [hresolve] at h
      rw [hle name id' hresolve]
      exact h
  · exact h
  · cases h

theorem lookupMethodAt_of_le (hle : env.Le env') (hi : Unresolved cp i)
    (h : (lookupMethodAt w env senderClass cp i).1 = .ok found) :
    (lookupMethodAt w env' senderClass cp i).1 = .ok found := by
  obtain ⟨classIndex, receiver, hsymbols, hklass, hlookup⟩ := methodSymbols_of_lookupMethodAt hi h
  have hklass' := klassAt_of_le hle hklass
  rw [lookupMethodAt_unresolved hi, hsymbols]
  cases hcp : klassAt env' cp classIndex with
  | mk receiver' cp' =>
    rw [hcp] at hklass'
    obtain rfl : receiver' = .ok receiver := hklass'
    simp only [hcp]
    exact hlookup

/-! ## Steps -/

theorem Invariant.load (h : Invariant w env senderClass c cp) (hle : env.Le env') :
    Invariant w env' senderClass c cp := by
  refine ⟨h.length, fun i => ?_⟩
  cases h.entry i with
  | same heq => exact .same heq
  | resolvedClass name id hc hcp hresolve =>
    exact .resolvedClass name id hc hcp (hle name id hresolve)
  | written a b found entry hc hfound hcp hwritten =>
    exact .written a b found entry hc
      (lookupMethodAt_of_le hle (unresolved_of_methodref hc) hfound) hcp hwritten

theorem Invariant.klassAt (h : Invariant w env senderClass c cp) (k : ℕ) :
    Invariant w env senderClass c (klassAt env cp k).2 := by
  unfold Resolution.klassAt
  split
  · next name hname =>
    cases hresolve : env.resolve name with
    | error e => exact h
    | ok id =>
      have hlt : k < cp.length := (List.getElem?_eq_some_iff.mp hname).1
      refine ⟨List.length_set.trans h.length, fun i => ?_⟩
      by_cases hik : k = i
      · subst hik
        have hc : c.cp[k]? = some (.unresolvedClass name) := by
          cases h.entry k with
          | same heq => exact heq.symm.trans hname
          | resolvedClass _ _ _ hcp _ => cases hcp.symm.trans hname
          | written a b found entry _ _ hcp hwritten =>
            obtain rfl := Option.some.inj (hcp.symm.trans hname)
            exact hwritten.isResolved.elim
        exact .resolvedClass name id hc (List.getElem?_set_self hlt) hresolve
      · have hsame : (cp.set k (.resolvedClass id))[i]? = cp[i]? := List.getElem?_set_ne hik
        cases h.entry i with
        | same heq => exact .same (hsame.trans heq)
        | resolvedClass name' id' hc hcp hresolve' =>
          exact .resolvedClass name' id' hc (hsame.trans hcp) hresolve'
        | written a b found entry hc hfound hcp hwritten =>
          exact .written a b found entry hc hfound (hsame.trans hcp) hwritten
  · exact h
  · exact h

theorem Invariant.lookup (h : Invariant w env senderClass c cp) (hi : Unresolved cp i) :
    Invariant w env senderClass c (Resolution.lookupMethodAt w env senderClass cp i).2 := by
  rw [lookupMethodAt_unresolved hi]
  cases Resolution.methodSymbols cp i with
  | none => exact h
  | some symbols =>
    obtain ⟨name, signature, classIndex⟩ := symbols
    have hklass := h.klassAt classIndex
    simp only
    cases hcp : Resolution.klassAt env cp classIndex with
    | mk receiver cp' =>
      rw [hcp] at hklass
      cases receiver with
      | error e => exact hklass
      | ok receiver => exact hklass

theorem Invariant.set (h : Invariant w env senderClass c cp) {a b : ℕ}
    (hc : c.cp[i]? = some (.methodref a b))
    (hfound : (Resolution.lookupMethodAt w env senderClass c.cp i).1 = .ok found)
    (hwritten : Written w senderClass c i found entry) :
    Invariant w env senderClass c (cp.set i entry) := by
  have hlt : i < cp.length := h.length ▸ (List.getElem?_eq_some_iff.mp hc).1
  refine ⟨List.length_set.trans h.length, fun k => ?_⟩
  by_cases hik : i = k
  · subst hik
    exact .written a b found entry hc hfound (List.getElem?_set_self hlt) hwritten
  · have hsame : (cp.set i entry)[k]? = cp[k]? := List.getElem?_set_ne hik
    cases h.entry k with
    | same heq => exact .same (hsame.trans heq)
    | resolvedClass name' id' hc hcp hresolve' =>
      exact .resolvedClass name' id' hc (hsame.trans hcp) hresolve'
    | written a b found entry hc hfound hcp hwritten =>
      exact .written a b found entry hc hfound (hsame.trans hcp) hwritten

/-! ## Sharing -/

/-- `invokespecial` of a superclass method shares no entry with `invokevirtual`. -/
def Separate (w : World) (senderClass : ℕ) (c : ClassCode) : Prop :=
  (w.flags senderClass).isSuper = true → ∀ index,
    c.Has .invokespecial index → ¬c.Has .invokevirtual index

theorem mem_collisions : i ∈ collisions c ↔
    i < c.cp.length ∧ c.Has .invokespecial i ∧ c.Has .invokevirtual i := by
  unfold collisions
  rw [List.mem_filter, List.mem_range, decide_eq_true_eq]

theorem ClassCode.Has.lt (h : c.Has code i) : i < c.cp.length := by
  obtain ⟨method, hmethod, hmem⟩ := h
  exact c.inBounds method hmethod _ hmem

theorem separate_of_resolveConflicts {c' : ClassCode}
    (h : resolveConflicts (w.flags senderClass).isSuper c = some c') :
    Separate w senderClass c' := by
  intro hsuper index hspecial hvirtual
  unfold resolveConflicts at h
  simp only [hsuper, Bool.not_true, Bool.false_eq_true, if_false] at h
  split_ifs at h
  obtain rfl := Option.some.inj h
  obtain ⟨method, hmethod, hmem⟩ := hspecial
  obtain ⟨method', hmethod', hmem'⟩ := hvirtual
  obtain ⟨source, hsource, rfl⟩ := List.mem_map.mp hmethod
  obtain ⟨source', hsource', rfl⟩ := List.mem_map.mp hmethod'
  obtain ⟨⟨code, j⟩, hmem, hclone⟩ := List.mem_map.mp hmem
  obtain ⟨⟨code', j'⟩, hmem', hclone'⟩ := List.mem_map.mp hmem'
  cases code with
  | invokevirtual => cases hclone
  | invokestatic => cases hclone
  | invokespecial =>
    cases code' with
    | invokespecial => cases hclone'
    | invokestatic => cases hclone'
    | invokevirtual =>
      cases hclone'
      have hspecial : c.Has .invokespecial j := ⟨source, hsource, hmem⟩
      have hvirtual : c.Has .invokevirtual index := ⟨source', hsource', hmem'⟩
      have hindex : relocate (collisions c) c.cp.length j = index := congrArg Prod.snd hclone
      have hlt := hvirtual.lt
      unfold relocate at hindex
      split_ifs at hindex with hcollision
      · omega
      · subst hindex
        exact hcollision (mem_collisions.mpr ⟨hlt, hspecial, hvirtual⟩)

/-! ## Attempts -/

/-- Where `invokevirtual` shares the entry, `invokespecial` selects the method found. -/
theorem specialTarget_of_shared (hverified : Verified c) (hseparate : Separate w senderClass c)
    (hspecial : c.Has .invokespecial i) (hvirtual : c.Has .invokevirtual i) (hi : Unresolved c.cp i)
    (hfound : (Resolution.lookupMethodAt w env senderClass c.cp i).1 = .ok found) :
    specialTarget w senderClass found = .ok (found.receiver, found.m) := by
  obtain ⟨classIndex, receiver, hsymbols, -, -⟩ := methodSymbols_of_lookupMethodAt hi hfound
  have hname := hverified _ _ hvirtual nofun _ _ _ hsymbols
  have hsuper : (w.flags senderClass).isSuper = false :=
    Bool.eq_false_iff.mpr fun htrue => hseparate htrue i hspecial hvirtual
  have hinit : found.name ≠ [byte '<', byte 'i', byte 'n', byte 'i', byte 't', byte '>'] := by
    intro heq
    rw [heq] at hname
    exact hname rfl
  unfold specialTarget
  rw [if_neg hinit, hsuper]
  rfl

theorem written_of_outcome (hverified : Verified c) (hseparate : Separate w senderClass c)
    (hhas : c.Has code i) (hi : Unresolved cp i) (hinv : Invariant w env senderClass c cp)
    (hfound : (Resolution.lookupMethodAt w env senderClass c.cp i).1 = .ok found)
    (hok : AttemptOk w env senderClass c cp i code)
    (hentry : (outcome w env senderClass found code).2 = some entry) :
    Written w senderClass c i found entry := by
  have hfound' := (hinv.lookupMethodAt hi).trans hfound
  have hshared := fun hspecial hvirtual => specialTarget_of_shared hverified hseparate hspecial
    hvirtual ((hinv.entry i).unresolved hi) hfound
  cases code with
  | invokestatic => exact .inl ⟨(Option.some.inj hentry).symm, hok found hi hfound'⟩
  | invokespecial =>
    unfold outcome at hentry
    simp only at hentry
    split_ifs at hentry with hstatic
    have hstatic := Bool.eq_false_iff.mpr hstatic
    obtain ⟨hinterface, htarget⟩ := hok.2 found hi hfound' hstatic
    cases hspecial : specialTarget w senderClass found with
    | error e =>
      rw [hspecial] at hentry
      cases hentry
    | ok target =>
      obtain ⟨receiver, m⟩ := target
      rw [hspecial] at hentry
      obtain rfl := Option.some.inj hentry
      have hm := htarget receiver m hspecial
      refine .inr ⟨hstatic, ⟨receiver, m, hm, rfl⟩, fun hvirtual => ?_, fun _ => ?_⟩
      · have heq := Except.ok.inj (hspecial.symm.trans (hshared hhas hvirtual))
        obtain ⟨rfl, rfl⟩ := Prod.mk.inj heq
        exact ⟨hinterface hvirtual, rfl⟩
      · exact ⟨receiver, m, hspecial, hm, rfl⟩
  | invokevirtual =>
    unfold outcome at hentry
    simp only at hentry
    split_ifs at hentry with hinterface hstatic
    obtain rfl := Option.some.inj hentry
    have hstatic := Bool.eq_false_iff.mpr hstatic
    refine .inr ⟨hstatic, ⟨found.receiver, found.m, hstatic, rfl⟩, fun _ => ?_,
      fun hspecial => ?_⟩
    · exact ⟨Bool.eq_false_iff.mpr hinterface, rfl⟩
    · exact ⟨found.receiver, found.m, hshared hspecial hhas, hstatic, rfl⟩

/-- **Step lemma**: an attempt keeps the invariant. -/
theorem Invariant.attempt (hverified : Verified c) (hseparate : Separate w senderClass c)
    (hinv : Invariant w env senderClass c cp) (hhas : c.Has code i)
    (hok : AttemptOk w env senderClass c cp i code) :
    Invariant w env senderClass c (attempt w env senderClass cp i code).2 := by
  by_cases hi : Unresolved cp i
  · rw [attempt_unresolved hi]
    have hlookup := hinv.lookup hi
    have hsame := hinv.lookupMethodAt hi
    cases hcp : Resolution.lookupMethodAt w env senderClass cp i with
    | mk result cp' =>
      rw [hcp] at hlookup hsame
      cases result with
      | error e => exact hlookup
      | ok found =>
        show Invariant w env senderClass c (putEntry cp' i (outcome w env senderClass found code).2)
        cases hentry : (outcome w env senderClass found code).2 with
        | none => exact hlookup
        | some entry =>
          have hc := (hinv.entry i).unresolved hi
          obtain ⟨classIndex, receiver, hsymbols, -, -⟩ :=
            methodSymbols_of_lookupMethodAt hc hsame.symm
          obtain ⟨a, b, href⟩ := methodref_of_methodSymbols hsymbols
          exact hlookup.set href hsame.symm
            (written_of_outcome hverified hseparate hhas hi hinv hsame.symm hok hentry)
  · obtain ⟨entry, hentry, hresolved⟩ := not_unresolved.mp hi
    cases entry with
    | resolvedStaticMethod m =>
      rw [attempt_resolvedStaticMethod hentry]
      exact hinv
    | resolvedVirtualMethod a b =>
      rw [attempt_resolvedVirtualMethod hentry]
      exact hinv
    | _ => exact hresolved.elim

/-- **Run lemma**: the invariant holds in every run. -/
theorem Run.invariant (hverified : Verified c) (hseparate : Separate w senderClass c)
    (h : Run w senderClass c (AttemptOk w · senderClass c) env cp) :
    Invariant w env senderClass c cp := by
  induction h with
  | start env => exact ⟨rfl, fun i => .same rfl⟩
  | load _ hle ih => exact ih.load hle
  | attempt _ hhas hok ih => exact ih.attempt hverified hseparate hhas hok

/-! ## Outcomes -/

theorem Written.attempt (h : Written w senderClass c i found entry) (hhas : c.Has code i)
    (hentry : cp[i]? = some entry) (hok : AttemptOk w env senderClass c cp i code) :
    (attempt w env senderClass cp i code).1 = (outcome w env senderClass found code).1 := by
  rcases h with ⟨rfl, hstatic⟩ | ⟨hstatic, ⟨receiver, m, hm, rfl⟩, hvirtual, hspecial⟩
  · rw [attempt_resolvedStaticMethod hentry]
    have honly : code ≠ .invokestatic → found.m.method.isStatic = true := fun hcode =>
      hstatic.resolve_right fun honly => hcode (honly code hhas)
    cases code with
    | invokestatic => rfl
    | invokespecial =>
      have hnot := hok.1 found.m hentry
      rw [honly nofun] at hnot
      cases hnot
    | invokevirtual =>
      unfold outcome
      simp only [honly nofun, reduceCtorEq, if_false, if_true]
      cases (w.flags found.receiver).isInterface with
      | true => rfl
      | false => rfl
  · rw [attempt_resolvedEntry hm hentry]
    cases code with
    | invokestatic =>
      unfold outcome checkStatic
      simp only [hstatic]
      rfl
    | invokespecial =>
      obtain ⟨receiver', m', htarget, -, heq⟩ := hspecial hhas
      unfold outcome
      simp only [hstatic, htarget, heq]
      rfl
    | invokevirtual =>
      obtain ⟨hinterface, heq⟩ := hvirtual hhas
      unfold outcome
      simp only [hinterface, hstatic, heq]
      rfl

/-- **Main theorem**: in every run of a class whose attempts do not meet a defect, an attempt
comes to the same as if it were the only one. -/
theorem resolution_of_run {loaded : ClassCode}
    (hload : resolveConflicts (w.flags senderClass).isSuper loaded = some c)
    (hverified : Verified c) (h : Run w senderClass c (AttemptOk w · senderClass c) env cp)
    (hhas : c.Has code index) (hok : AttemptOk w env senderClass c cp index code) :
    (attempt w env senderClass cp index code).1 =
      (attempt w env senderClass c.cp index code).1 := by
  have hinv := h.invariant hverified (separate_of_resolveConflicts hload)
  by_cases hi : Unresolved cp index
  · have hsame := hinv.lookupMethodAt hi
    rw [attempt_unresolved hi, attempt_unresolved ((hinv.entry index).unresolved hi)]
    cases hcp : lookupMethodAt w env senderClass cp index with
    | mk result cp' =>
      cases hc : lookupMethodAt w env senderClass c.cp index with
      | mk result' cp'' =>
        rw [hcp, hc] at hsame
        obtain rfl : result = result' := hsame
        cases result with
        | error e => rfl
        | ok found => rfl
  · obtain ⟨entry, hentry, hresolved⟩ := not_unresolved.mp hi
    cases hinv.entry index with
    | same heq =>
      have hentry' := heq.symm.trans hentry
      cases entry with
      | resolvedStaticMethod m =>
        rw [attempt_resolvedStaticMethod hentry, attempt_resolvedStaticMethod hentry']
      | resolvedVirtualMethod a b =>
        rw [attempt_resolvedVirtualMethod hentry, attempt_resolvedVirtualMethod hentry']
      | _ => exact hresolved.elim
    | resolvedClass _ _ _ hcp _ =>
      obtain rfl := Option.some.inj (hcp.symm.trans hentry)
      exact hresolved.elim
    | written a b found entry' hc hfound hcp hwritten =>
      have hunresolved := unresolved_of_methodref hc
      rw [hwritten.attempt hhas hcp hok, attempt_unresolved hunresolved]
      cases hlookup : lookupMethodAt w env senderClass c.cp index with
      | mk result cp' =>
        rw [hlookup] at hfound
        obtain rfl : result = .ok found := hfound
        rfl

/-! ## A class that shares an entry -/

/-- A method `m()V`. -/
def methodM : Method := ⟨[byte 'm'], [byte '(', byte ')', byte 'V'], .accPublic, false, false⟩

/-- `java.lang.Object`, a class `A` with `m`, its subclass `B` with another `m`, and a class
that calls `A.m`. -/
def exampleWorld : World where
  classes := [⟨none, false, [], [], [], ⟨[], []⟩⟩,
    ⟨some 0, false, [], [some methodM], [some ⟨1, methodM⟩], ⟨[], []⟩⟩,
    ⟨some 1, false, [], [some methodM], [some ⟨2, methodM⟩], ⟨[], []⟩⟩,
    ⟨some 0, false, [], [], [], ⟨[], []⟩⟩]
  flags := fun id => ⟨[byte 'A' + UInt8.ofNat id], true, false, false, true, false, false⟩
  isHiddenInProfile := fun _ => false

/-- The name `A` stands for the class `A`. -/
def exampleEnvironment : Environment where
  resolve := fun name => if name = [byte 'A'] then .ok 1 else .error (.noClassDefFoundError name)
  initializeClass := fun _ => .ok ()

/-- `invokestatic A.m` and `invokevirtual A.m`. -/
def exampleCode : ClassCode where
  cp := [.other, .methodref 2 3, .unresolvedClass [byte 'A'], .nameAndType 4 5,
    .utf8 methodM.name, .utf8 methodM.signature]
  methods := [[(.invokestatic, 1)], [(.invokevirtual, 1)]]
  inBounds := by decide

theorem exampleCode_index (h : exampleCode.Has code i) : i = 1 := by
  obtain ⟨method, hmethod, hmem⟩ := h
  simp only [exampleCode, List.mem_cons, List.not_mem_nil, or_false] at hmethod
  rcases hmethod with rfl | rfl
  · exact congrArg Prod.snd (List.mem_singleton.mp hmem)
  · exact congrArg Prod.snd (List.mem_singleton.mp hmem)

theorem exampleCode_verified : Verified exampleCode := by
  intro code index hhas _ name signature classIndex hsymbols
  obtain rfl := exampleCode_index hhas
  obtain rfl : methodM.name = name := congrArg Prod.fst (Option.some.inj hsymbols)
  decide

/-- The pool after an attempt of an instruction. -/
def poolAfter (code : Bytecode) : ConstantPool :=
  (attempt exampleWorld exampleEnvironment 3 exampleCode.cp 1 code).2

/-- `invokestatic` after `invokevirtual`. -/
theorem resolution_static_after_virtual :
    (attempt exampleWorld exampleEnvironment 3 (poolAfter .invokevirtual) 1 .invokestatic).1 =
      (attempt exampleWorld exampleEnvironment 3 exampleCode.cp 1 .invokestatic).1 :=
  resolution_of_run (show resolveConflicts true exampleCode = some exampleCode from rfl)
    exampleCode_verified
    (Run.attempt (.start _) (by decide) trivial) (by decide)
    (fun _ hunresolved => absurd trivial
      (hunresolved (.resolvedVirtualMethod 1 0) (by decide)))

/-- `invokevirtual` after `invokestatic`, which has failed, selects for a receiver of the
class `B` the method of `A`, and not that of `B`. -/
theorem not_orderIndependent_invokestatic :
    ∃ cp, Run exampleWorld 3 exampleCode (fun _ _ _ _ => True) exampleEnvironment cp ∧
      exampleCode.Has .invokevirtual 1 ∧
      ((attempt exampleWorld exampleEnvironment 3 cp 1 .invokevirtual).1.map fun f => f 2) =
        .ok (some ⟨1, methodM⟩) ∧
      ((attempt exampleWorld exampleEnvironment 3 exampleCode.cp 1 .invokevirtual).1.map
        fun f => f 2) = .ok (some ⟨2, methodM⟩) := by
  refine ⟨poolAfter .invokestatic, Run.attempt (.start _) (by decide) trivial, by decide, ?_, ?_⟩
  · rfl
  · rfl

end CldcVm.Resolution
