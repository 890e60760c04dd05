import CldcVm.Romizer.InlinerSteps

/-!
# The rules of the inliner

What the callee of each rule does, and what the code in the place of its call does.

Results:

* `zeroStores_of_new`: the stores of a vanilla constructor leave a new object as it is.
* `Emulates.emptyMethod`, `Emulates.emptyConstructor`, `Emulates.getter`, `Emulates.setter`: the
  code in the place of the call does what the callee does, but for the null check.
-/

namespace CldcVm.RomInliner

open Romizer (Tag FieldType ConstantPool lowHalf highHalf)

/-! ## Stores of zero -/

variable {n : ℕ}

theorem append_eq_zero {k : ℕ} {x : BitVec n} {y : BitVec k} (h : x ++ y = 0#(n + k)) :
    x = 0#n ∧ y = 0#k := by
  have hnat := congrArg BitVec.toNat h
  rw [BitVec.toNat_append, BitVec.toNat_zero, Nat.or_eq_zero_iff, Nat.shiftLeft_eq] at hnat
  obtain ⟨hx, hy⟩ := hnat
  refine ⟨BitVec.eq_of_toNat_eq ?_, BitVec.eq_of_toNat_eq hy⟩
  rcases Nat.mul_eq_zero.1 hx with hx | hx
  · exact hx
  · omega

theorem signExtend_eq_zero {x : BitVec n} (hn : n ≤ 32) (h : x.signExtend 32 = 0#32) : x = 0#n := by
  have hx : x = (x.signExtend 32).setWidth n := by
    ext i hi
    have : i < 32 := by omega
    simp [BitVec.getElem_signExtend, this, hi]
  rw [hx, h, BitVec.setWidth_zero]

theorem zeroExtend_eq_zero {x : BitVec n} (hn : n ≤ 32) (h : x.zeroExtend 32 = 0#32) : x = 0#n := by
  have hx : x = (x.zeroExtend 32).setWidth n := by
    ext i hi
    have : i < 32 := by omega
    simp [this, hi]
  rw [hx, h, BitVec.setWidth_zero]

variable {memory : BitVec 32 → BitVec 8} {addr : BitVec 32}

theorem storeByte_zero (h : memory addr = 0) : storeByte memory addr 0 = memory := by
  rw [storeByte, ← h, Function.update_eq_self]

theorem storeShort_zero (h : loadShort memory addr = 0) : storeShort memory addr 0 = memory := by
  obtain ⟨hhigh, hlow⟩ := append_eq_zero h
  rw [storeShort]
  exact (congrArg (storeByte · (addr + 1) 0) (storeByte_zero hlow)).trans (storeByte_zero hhigh)

theorem storeInt_zero (h : loadInt memory addr = 0) : storeInt memory addr 0 = memory := by
  obtain ⟨hhigh, hlow⟩ := append_eq_zero h
  rw [storeInt]
  exact (congrArg (storeShort · (addr + 2) 0) (storeShort_zero hlow)).trans (storeShort_zero hhigh)

variable {access : Access}

theorem store_zero (h : load memory addr access = List.replicate access.words 0) :
    store memory addr access (List.replicate access.words 0) = some memory := by
  match access with
  | .byte =>
    have hzero := signExtend_eq_zero (by decide) (List.head_eq_of_cons_eq h)
    exact congrArg some (storeByte_zero hzero)
  | .short =>
    have hzero := signExtend_eq_zero (by decide) (List.head_eq_of_cons_eq h)
    exact congrArg some (storeShort_zero hzero)
  | .char =>
    have hzero := zeroExtend_eq_zero (by decide) (List.head_eq_of_cons_eq h)
    exact congrArg some (storeShort_zero hzero)
  | .int => exact congrArg some (storeInt_zero (List.head_eq_of_cons_eq h))
  | .long =>
    obtain ⟨hlow, htail⟩ := List.cons_eq_cons.1 h
    have hhigh := List.head_eq_of_cons_eq htail
    refine congrArg some ((congrArg (storeInt · (addr + 4) 0) (storeInt_zero hlow)).trans ?_)
    exact storeInt_zero hhigh

/-- The fields that the constructors of the classes above set are zero. -/
def IsNew (obj : Word) (stores : List (Access × ℕ)) (memory : BitVec 32 → BitVec 8) : Prop :=
  ∀ s ∈ stores, load memory (fieldAddress obj s.2 s.1) s.1 = List.replicate s.1.words 0

variable {obj : Word}

theorem zeroStores_of_new {stores : List (Access × ℕ)} (h : IsNew obj stores memory) :
    zeroStores obj stores memory = some memory := by
  induction stores with
  | nil => rfl
  | cons s stores ih =>
    rw [zeroStores, zeroStore, store_zero (h s List.mem_cons_self), Option.bind_some]
    exact ih fun s hs => h s (List.mem_cons_of_mem _ hs)

/-! ## Runs of the callee -/

variable {w : World} {caller caller' callee : Method} {site fuel : ℕ}
  {locals stack rest : List Word} {heap : Heap} {a a' : Activation}

theorem runCallee_next (h : step w callee a = .next a') :
    runCallee w callee rest (fuel + 1) a = runCallee w callee rest fuel a' := by
  rw [runCallee, h]

theorem runCallee_thrown {e : Thrown} (h : step w callee a = .thrown e heap) :
    runCallee w callee rest (fuel + 1) a = some (.thrown e heap) := by
  rw [runCallee, h]

/-- The steps of a callee. -/
def Runs (w : World) (callee : Method) : Activation → Activation → Prop :=
  Relation.ReflTransGen fun a a' => step w callee a = .next a'

/-- A verified method does not stop. -/
def NeverStops (w : World) (callee : Method) (a : Activation) : Prop :=
  ∀ a', Runs w callee a a' → step w callee a' ≠ .stopped

theorem NeverStops.next (h : NeverStops w callee a) (hstep : step w callee a = .next a') :
    NeverStops w callee a' :=
  fun b hb => h b (Relation.ReflTransGen.head hstep hb)

theorem NeverStops.here (h : NeverStops w callee a) : step w callee a ≠ .stopped :=
  h a Relation.ReflTransGen.refl

theorem runCallee_return {words : ℕ} (hcode : returnOf (callee.code.getUbyte a.bci) = some words)
    (h : NeverStops w callee a) : a.stack.length = words ∧
      runCallee w callee rest (fuel + 1) a = some (.normal (a.stack ++ rest) a.heap) := by
  have hstep := step_return (w := w) hcode
  by_cases hwords : a.stack.length = words
  · rw [if_pos hwords] at hstep
    exact ⟨hwords, by rw [runCallee, hstep]⟩
  · rw [if_neg hwords] at hstep
    exact absurd hstep h.here

theorem returnOf_isSome {code : ℕ} (h : Op.ireturn ≤ code ∧ code ≤ Op.areturn) :
    ∃ words, returnOf code = some words := by
  obtain ⟨hlow, hhigh⟩ := h
  simp only [Op.ireturn, Op.areturn] at hlow hhigh
  interval_cases code <;> exact ⟨_, rfl⟩

/-! ## Calls -/

/-- The receiver of a call, or its first argument. -/
def receiver (callee : Method) (stack : List Word) : Option Word := stack[callee.numArgs - 1]?

/-- The heap that an outcome leaves. -/
def Outcome.heapAfter : Outcome → Heap
  | .normal _ heap => heap
  | .thrown _ heap => heap

/-- The callee does `body`, and so does the code in the place of its call; with `check`, this code
looks at the receiver first. -/
structure Emulates (w : World) (caller' callee : Method) (site : ℕ) (locals stack : List Word)
    (heap : Heap) (check : Prop) (body : Outcome) : Prop where
  called : callee.isStatic = true ∨ receiver callee stack ≠ some 0 → ∀ fuel ≥ 8,
    runCallee w callee (stack.drop callee.numArgs) fuel (callee.enter stack heap) = some body
  unchecked : ¬ (check ∧ receiver callee stack = some 0) → ∀ fuel ≥ 8,
    runSite w caller' site fuel ⟨site, locals, stack, heap⟩ = some body
  checked : check ∧ receiver callee stack = some 0 → ∀ fuel ≥ 8,
    runSite w caller' site fuel ⟨site, locals, stack, heap⟩ =
      some (.thrown .nullPointerException heap)
  normal : ¬ check → ∃ stack', body = .normal stack' heap
  null : callee.isStatic = true → check → receiver callee stack = some 0 →
    body = .thrown .nullPointerException heap
  initialized : body.heapAfter.isInitialized = heap.isInitialized
  noError : ∀ heap', body ≠ .thrown .initializerError heap'

theorem exists_receiver (harguments : callee.numArgs ≤ stack.length) (hpos : 0 < callee.numArgs) :
    ∃ obj, receiver callee stack = some obj := by
  have hlt : callee.numArgs - 1 < stack.length := by omega
  exact ⟨stack[callee.numArgs - 1], List.getElem?_eq_getElem hlt⟩

theorem enter_locals (hpos : 0 < callee.numArgs) (hobj : receiver callee stack = some obj) :
    ∃ rest, (callee.enter stack heap).locals = obj :: rest := by
  have hhead : (callee.enter stack heap).locals.head? = some obj := by
    rw [Method.enter, List.head?_reverse, List.getLast?_take, if_neg (by omega)]
    exact (congrArg (Option.or · stack.getLast?) hobj).trans rfl
  obtain ⟨rest, hrest⟩ := List.head?_eq_some_iff.1 hhead
  exact ⟨rest, hrest⟩

/-! ## Calls without effect -/

theorem numArgs_eq_length (h : callee.signatureTypes.any isTwoWord = false) :
    callee.numArgs = callee.signatureTypes.length := by
  have hone : callee.signatureTypes.map (fun type => if isTwoWord type then 2 else 1) =
      callee.signatureTypes.map fun _ => 1 := by
    refine List.map_congr_left fun type htype => ?_
    have := List.any_eq_false.1 h type htype
    simp [this]
  rw [Method.numArgs, hone]
  simp

theorem numArgs_pos (h : callee.isStatic = false) : 0 < callee.numArgs := by
  simp [Method.numArgs, Method.signatureTypes, h, isTwoWord]

/-- **Spec lemma** for `pop_as_needed`. -/
theorem popAsNeeded_spec (h : popAsNeeded caller callee site = some caller')
    (hsite : site + 3 ≤ caller.code.length) (harguments : callee.numArgs ≤ stack.length)
    (hfuel : 8 ≤ fuel) : runSite w caller' site fuel ⟨site, locals, stack, heap⟩ =
      some (popped (needNullcheck caller site) callee.isStatic callee.numArgs stack heap) := by
  simp only [popAsNeeded] at h
  by_cases htypes : 3 < callee.signatureTypes.length ∨ callee.signatureTypes.any isTwoWord = true
  · rw [if_pos htypes] at h
    simp at h
  · rw [if_neg htypes] at h
    obtain ⟨hthree, htwo⟩ := not_or.1 htypes
    have hnum := numArgs_eq_length (by simpa using htwo)
    rw [← hnum] at h
    have hbytes := getUbyte_putThree caller hsite
      (popCode_lt (needNullcheck caller site) callee.isStatic callee.numArgs 0)
      (popCode_lt (needNullcheck caller site) callee.isStatic callee.numArgs 1)
      (popCode_lt (needNullcheck caller site) callee.isStatic callee.numArgs 2)
    rw [Option.some.inj h] at hbytes
    refine runSite_pops (by omega) (fun i hi => ?_) harguments (by omega)
    match i, hi with
    | 0, _ => exact hbytes.1
    | 1, _ => exact hbytes.2.1
    | 2, _ => exact hbytes.2.2

theorem Emulates.ofPop (h : popAsNeeded caller callee site = some caller')
    (hsite : site + 3 ≤ caller.code.length) (harguments : callee.numArgs ≤ stack.length)
    (hcallee : callee.isStatic = true ∨ receiver callee stack ≠ some 0 → ∀ fuel ≥ 8,
      runCallee w callee (stack.drop callee.numArgs) fuel (callee.enter stack heap) =
        some (.normal (stack.drop callee.numArgs) heap)) :
    Emulates w caller' callee site locals stack heap
      (callee.isStatic = false ∧ needNullcheck caller site = true)
      (.normal (stack.drop callee.numArgs) heap) where
  called := hcallee
  unchecked hcheck fuel hfuel := by
    rw [popAsNeeded_spec h hsite harguments hfuel, popped, if_neg]
    rintro ⟨hstatic, hneed, -, hnull⟩
    exact hcheck ⟨⟨by simpa using hstatic, hneed⟩, hnull⟩
  checked hcheck fuel hfuel := by
    obtain ⟨⟨hstatic, hneed⟩, hnull⟩ := hcheck
    rw [popAsNeeded_spec h hsite harguments hfuel, popped,
      if_pos ⟨by simp [hstatic], hneed, numArgs_pos hstatic, hnull⟩]
  normal _ := ⟨_, rfl⟩
  null hstatic hcheck _ := by
    rw [hstatic] at hcheck
    simp at hcheck
  initialized := rfl
  noError _ := by simp

theorem Emulates.emptyMethod (h : tryInlineEmptyMethod caller callee site = some caller')
    (hsite : site + 3 ≤ caller.code.length) (harguments : callee.numArgs ≤ stack.length) :
    ∃ body, Emulates w caller' callee site locals stack heap
      (callee.isStatic = false ∧ needNullcheck caller site = true) body := by
  rw [tryInlineEmptyMethod] at h
  by_cases hempty : isEmptyMethod callee = true
  · rw [if_pos hempty] at h
    refine ⟨_, Emulates.ofPop h hsite harguments fun _ fuel hfuel => ?_⟩
    obtain ⟨n, rfl⟩ : ∃ n, fuel = n + 1 := ⟨fuel - 1, by omega⟩
    simp only [isEmptyMethod, Bool.decide_and, Bool.and_eq_true, decide_eq_true_eq] at hempty
    have hcode : returnOf (callee.code.getUbyte (callee.enter stack heap).bci) = some 0 := by
      change returnOf (callee.code.getUbyte 0) = some 0
      rw [hempty.2]
      rfl
    have hnil : (callee.enter stack heap).stack.length = 0 := rfl
    have hstep := step_return (w := w) hcode
    rw [if_pos hnil] at hstep
    rw [runCallee, hstep]
    rfl
  · rw [if_neg hempty] at h
    simp at h

/-- `aload_0`, and the constructor of the class above or what has taken its place. -/
theorem runCallee_emptyConstructor (hempty : isEmptyConstructor callee = true)
    (hstatic : callee.isStatic = false) (hobj : receiver callee stack = some obj) (hne : obj ≠ 0)
    (hnew : ∀ stores, callee.holder.vanillaStores = some stores → IsNew obj stores heap.memory)
    (hfuel : 8 ≤ fuel) :
    runCallee w callee rest fuel (callee.enter stack heap) = some (.normal rest heap) := by
  obtain ⟨n, rfl⟩ : ∃ n, fuel = n + 1 + 1 + 1 + 1 + 1 := ⟨fuel - 5, by omega⟩
  obtain ⟨others, hlocals⟩ : ∃ others, (callee.enter stack heap).locals = obj :: others :=
    enter_locals (numArgs_pos hstatic) hobj
  simp only [isEmptyConstructor, Bool.decide_and, Bool.decide_or, Bool.and_eq_true, Bool.or_eq_true,
    decide_eq_true_eq] at hempty
  obtain ⟨-, hdefault, hcode⟩ := hempty
  have h0 : callee.code.getUbyte 0 = Op.aload_0 := by
    rcases hcode with hcode | hcode
    · exact hcode.1
    · exact hcode.1
  have h4 : returnOf (callee.code.getUbyte 4) = some 0 := by
    rcases hcode with hcode | hcode
    · rw [hcode.2.2.1]
      rfl
    · rw [hcode.2.2.2.2]
      rfl
  have hload : step w callee (callee.enter stack heap) =
      .next ⟨1, (callee.enter stack heap).locals, [obj], heap⟩ := step_aload_0 h0 hlocals
  have hreturn : step w callee ⟨4, (callee.enter stack heap).locals, [], heap⟩ =
      .returned [] heap := step_return (a := ⟨4, _, [], heap⟩) h4
  rw [runCallee_next hload]
  rcases hcode with ⟨-, h1, -, hvanilla⟩ | ⟨-, h1, h2, h3, -⟩
  · obtain ⟨stores, hstores⟩ := Option.isSome_iff_exists.1 hvanilla
    have hsuper : step w callee ⟨1, (callee.enter stack heap).locals, [obj], heap⟩ =
        .next ⟨4, (callee.enter stack heap).locals, [], heap⟩ := by
      rw [step_superConstructor (a := ⟨1, _, [obj], heap⟩) h1 hdefault, superConstructor]
      simp only [hstores, if_neg hne, zeroStores_of_new (hnew stores hstores)]
    rw [runCallee_next hsuper, runCallee, hreturn]
    rfl
  · have hpop : step w callee ⟨1, (callee.enter stack heap).locals, [obj], heap⟩ =
        .next ⟨2, (callee.enter stack heap).locals, [], heap⟩ :=
      step_pop (a := ⟨1, _, [obj], heap⟩) h1 rfl
    have hnop2 : step w callee ⟨2, (callee.enter stack heap).locals, [], heap⟩ =
        .next ⟨3, (callee.enter stack heap).locals, [], heap⟩ :=
      step_nop (a := ⟨2, _, [], heap⟩) h2
    have hnop3 : step w callee ⟨3, (callee.enter stack heap).locals, [], heap⟩ =
        .next ⟨4, (callee.enter stack heap).locals, [], heap⟩ :=
      step_nop (a := ⟨3, _, [], heap⟩) h3
    rw [runCallee_next hpop, runCallee_next hnop2, runCallee_next hnop3, runCallee, hreturn]
    rfl

theorem Emulates.emptyConstructor (h : tryInlineEmptyConstructor caller callee site = some caller')
    (hsite : site + 3 ≤ caller.code.length) (harguments : callee.numArgs ≤ stack.length)
    (hdefault : callee.isDefaultConstructor = true → callee.isStatic = false)
    (hnew : ∀ obj stores, callee.isDefaultConstructor = true → receiver callee stack = some obj →
      callee.holder.vanillaStores = some stores → IsNew obj stores heap.memory) :
    ∃ body, Emulates w caller' callee site locals stack heap
      (callee.isStatic = false ∧ needNullcheck caller site = true) body := by
  rw [tryInlineEmptyConstructor] at h
  by_cases hempty : isEmptyConstructor callee = true
  · rw [if_pos hempty] at h
    have hconstructor : callee.isDefaultConstructor = true := by
      simp only [isEmptyConstructor, Bool.decide_and, Bool.and_eq_true, decide_eq_true_eq] at hempty
      exact hempty.2.1
    have hstatic := hdefault hconstructor
    obtain ⟨obj, hobj⟩ := exists_receiver harguments (numArgs_pos hstatic)
    refine ⟨_, Emulates.ofPop h hsite harguments fun hreceiver fuel hfuel => ?_⟩
    have hne : obj ≠ 0 := by
      rcases hreceiver with hreceiver | hreceiver
      · rw [hstatic] at hreceiver
        simp at hreceiver
      · rintro rfl
        exact hreceiver hobj
    exact runCallee_emptyConstructor hempty hstatic hobj hne
      (fun stores hstores => hnew obj stores hconstructor hobj hstores) hfuel
  · rw [if_neg hempty] at h
    simp at h

/-! ## Getters and setters -/

/-- A bytecode of three bytes that is copied has its operand with it. -/
theorem getShortNative_putThree (hsite : site + 3 ≤ caller.code.length) (bci : ℕ) :
    (caller.putThree site (callee.code.getUbyte bci) (callee.code.getUbyte (bci + 1))
        (callee.code.getUbyte (bci + 2))).code.getUbyte site = callee.code.getUbyte bci ∧
      getShortNative (caller.putThree site (callee.code.getUbyte bci)
        (callee.code.getUbyte (bci + 1)) (callee.code.getUbyte (bci + 2))).code site =
        getShortNative callee.code bci := by
  obtain ⟨h0, h1, h2⟩ := getUbyte_putThree caller hsite (Code.getUbyte_lt callee.code bci)
    (Code.getUbyte_lt callee.code (bci + 1)) (Code.getUbyte_lt callee.code (bci + 2))
  exact ⟨h0, by rw [getShortNative, getShortNative, h1, h2]⟩

/-- What a getter leaves. -/
def gotField (callee : Method) (access : Access) (obj : Word) (rest : List Word) (heap : Heap) :
    Outcome :=
  if obj = 0 then .thrown .nullPointerException heap
  else .normal (load heap.memory (fieldAddress obj (getShortNative callee.code 1) access) access ++
    rest) heap

/-- One access of a field in the place of the call, which checks the receiver by itself. -/
theorem Emulates.ofAccess {stack' : List Word} {heap' : Heap}
    (hreceiver : receiver callee stack = some obj)
    (hstep : step w caller' ⟨site, locals, stack, heap⟩ =
      if obj = 0 then .thrown .nullPointerException heap
      else .next ⟨site + 3, locals, stack', heap'⟩)
    (hinitialized : heap'.isInitialized = heap.isInitialized)
    (hcalled : callee.isStatic = true ∨ receiver callee stack ≠ some 0 → ∀ fuel ≥ 8,
      runCallee w callee (stack.drop callee.numArgs) fuel (callee.enter stack heap) =
        some (if obj = 0 then .thrown .nullPointerException heap else .normal stack' heap')) :
    Emulates w caller' callee site locals stack heap True
      (if obj = 0 then .thrown .nullPointerException heap else .normal stack' heap') := by
  have hbci : site ≠ site + 3 := by omega
  by_cases hzero : obj = 0
  · simp only [if_pos hzero] at hstep hcalled ⊢
    have hrun : ∀ fuel ≥ 8, runSite w caller' site fuel ⟨site, locals, stack, heap⟩ =
        some (.thrown .nullPointerException heap) := by
      intro fuel hfuel
      obtain ⟨n, rfl⟩ : ∃ n, fuel = n + 1 := ⟨fuel - 1, by omega⟩
      exact runSite_thrown hbci hstep
    exact ⟨hcalled, fun _ => hrun, fun _ => hrun, fun hfalse => absurd trivial hfalse,
      fun _ _ _ => rfl, rfl, fun heap' => by simp⟩
  · simp only [if_neg hzero] at hstep hcalled ⊢
    have hnonnull : receiver callee stack ≠ some 0 := by
      rw [hreceiver]
      simpa using hzero
    refine ⟨hcalled, fun _ fuel hfuel => ?_, fun hcheck => absurd hcheck.2 hnonnull,
      fun hfalse => absurd trivial hfalse, fun _ _ hnull => absurd hnull hnonnull, hinitialized,
      fun heap' => by simp⟩
    obtain ⟨n, rfl⟩ : ∃ n, fuel = n + 1 + 1 := ⟨fuel - 2, by omega⟩
    exact (runSite_next hbci hstep).trans runSite_end

theorem runCallee_getter (hgetter : isGetter callee = true)
    (haccess : getfieldOf (callee.code.getUbyte 1) = some access)
    (hverified : NeverStops w callee (callee.enter (obj :: rest) heap)) (hfuel : 8 ≤ fuel) :
    runCallee w callee rest fuel (callee.enter (obj :: rest) heap) =
      some (gotField callee access obj rest heap) := by
  obtain ⟨n, rfl⟩ : ∃ n, fuel = n + 1 + 1 + 1 := ⟨fuel - 3, by omega⟩
  simp only [isGetter, Bool.decide_and, Bool.and_eq_true, decide_eq_true_eq] at hgetter
  obtain ⟨-, -, h0, hnum, -, h4⟩ := hgetter
  have henter : callee.enter (obj :: rest) heap = ⟨0, [obj], [], heap⟩ := by
    rw [Method.enter, hnum]
    rfl
  have hload : step w callee ⟨0, [obj], [], heap⟩ = .next ⟨1, [obj], [obj], heap⟩ :=
    step_aload_0 (a := ⟨0, [obj], [], heap⟩) h0 rfl
  have hget := step_getfield (w := w) (a := ⟨1, [obj], [obj], heap⟩) haccess
  simp only [getfield] at hget
  rw [henter] at hverified ⊢
  rw [runCallee_next hload, gotField]
  by_cases hzero : obj = 0
  · rw [if_pos hzero] at hget ⊢
    exact runCallee_thrown hget
  · rw [if_neg hzero] at hget ⊢
    obtain ⟨words, hwords⟩ := returnOf_isSome h4
    have hlast := (hverified.next hload).next hget
    rw [runCallee_next hget, (runCallee_return hwords hlast).2]
    simp

theorem Emulates.getter (h : tryInlineGetter caller callee site = some caller')
    (hsite : site + 3 ≤ caller.code.length) (harguments : callee.numArgs ≤ stack.length)
    (hverified : callee.isStatic = true ∨ receiver callee stack ≠ some 0 →
      NeverStops w callee (callee.enter stack heap)) :
    ∃ body, Emulates w caller' callee site locals stack heap True body := by
  simp only [tryInlineGetter] at h
  by_cases hgetter : isGetter callee = true
  · rw [if_pos hgetter] at h
    have hparts := hgetter
    simp only [isGetter, Bool.decide_and, Bool.and_eq_true, decide_eq_true_eq] at hparts
    obtain ⟨-, -, -, hnum, hsome, -⟩ := hparts
    obtain ⟨access, haccess⟩ := Option.isSome_iff_exists.1 hsome
    obtain ⟨obj, rest, rfl⟩ : ∃ obj rest, stack = obj :: rest :=
      List.exists_cons_of_length_pos (by omega)
    have hreceiver : receiver callee (obj :: rest) = some obj := by
      rw [receiver, hnum]
      rfl
    have hbytes := @getShortNative_putThree caller callee site hsite 1
    rw [Option.some.inj h] at hbytes
    have hget := step_getfield (w := w) (m := caller') (a := ⟨site, locals, obj :: rest, heap⟩)
      ((congrArg getfieldOf hbytes.1).trans haccess)
    simp only [getfield, hbytes.2] at hget
    refine ⟨_, .ofAccess hreceiver hget rfl fun hne fuel hfuel => ?_⟩
    rw [hnum]
    exact runCallee_getter hgetter haccess (hverified hne) hfuel
  · rw [if_neg hgetter] at h
    simp at h

variable {values : List Word}

theorem exists_store (memory : BitVec 32 → BitVec 8)
    (addr : BitVec 32) (hvalues : values.length = access.words) :
    ∃ memory', store memory addr access values = some memory' := by
  match access, values, hvalues with
  | .byte, [value], _ => exact ⟨_, rfl⟩
  | .short, [value], _ => exact ⟨_, rfl⟩
  | .char, [value], _ => exact ⟨_, rfl⟩
  | .int, [value], _ => exact ⟨_, rfl⟩
  | .long, [low, high], _ => exact ⟨_, rfl⟩

variable {memory' : BitVec 32 → BitVec 8}

theorem putfield_of_append {bci offset : ℕ} (hvalues : values.length = access.words)
    (hoffset : getShortNative callee.code bci = offset)
    (hstore : store heap.memory (fieldAddress obj offset access) access values = some memory') :
    putfield callee ⟨bci, locals, values ++ obj :: rest, heap⟩ access =
      if obj = 0 then .thrown .nullPointerException heap
      else .next ⟨bci + 3, locals, rest, { heap with memory := memory' }⟩ := by
  have hdrop : (values ++ obj :: rest).drop access.words = obj :: rest := List.drop_left' hvalues
  have htake : (values ++ obj :: rest).take access.words = values := List.take_left' hvalues
  simp only [putfield, hdrop, htake, hoffset, hstore]

/-- What a setter leaves. -/
def putField (memory : BitVec 32 → BitVec 8) (obj : Word) (rest : List Word) (heap : Heap) :
    Outcome :=
  if obj = 0 then .thrown .nullPointerException heap
  else .normal rest { heap with memory := memory }

theorem step_setterLoad
    (hvalues : values.length = access.words) (hload : isLoad (callee.code.getUbyte 1) 1 = true)
    (haccess : putfieldOf (callee.code.getUbyte 2) = some access)
    (hverified : NeverStops w callee ⟨1, obj :: values.reverse, [obj], heap⟩) :
    step w callee ⟨1, obj :: values.reverse, [obj], heap⟩ =
      .next ⟨2, obj :: values.reverse, values ++ [obj], heap⟩ := by
  obtain ⟨⟨index, words⟩, hloadOf, hindex⟩ := Option.map_eq_some_iff.1 (of_decide_eq_true hload)
  simp only at hindex
  subst hindex
  have hstep := step_load (w := w) (a := ⟨1, obj :: values.reverse, [obj], heap⟩) hloadOf
  by_cases hfits : 1 + words ≤ (obj :: values.reverse).length
  · rw [if_pos hfits] at hstep
    simp only [List.length_cons, List.length_reverse] at hfits
    have hnext := hverified.next hstep
    -- the object is on the stack below the values, or the store would stop
    have hwords : values.length = words := by
      have hput := step_putfield (w := w) (m := callee) (a := ⟨2, obj :: values.reverse,
        (((obj :: values.reverse).drop 1).take words).reverse ++ [obj], heap⟩) haccess
      by_contra hne
      have hnil : (((((obj :: values.reverse).drop 1).take words).reverse) ++ [obj]).drop
          access.words = [] := by
        refine List.drop_eq_nil_of_le ?_
        simp only [List.length_append, List.length_reverse, List.length_take, List.length_drop,
          List.length_cons, List.length_nil]
        omega
      simp only [putfield, hnil] at hput
      exact hnext.here hput
    have htake : (((obj :: values.reverse).drop 1).take words).reverse = values := by
      rw [List.drop_one, List.tail_cons, List.take_of_length_le (by simp [hwords]),
        List.reverse_reverse]
    exact hstep.trans (by rw [htake]; rfl)
  · rw [if_neg hfits] at hstep
    exact absurd hstep hverified.here

theorem runCallee_setter (hsetter : isSetter callee = true)
    (haccess : putfieldOf (callee.code.getUbyte 2) = some access)
    (hnum : callee.numArgs = 1 + access.words) (hvalues : values.length = access.words)
    (hstore : store heap.memory (fieldAddress obj (getShortNative callee.code 2) access) access
      values = some memory')
    (hverified : NeverStops w callee (callee.enter (values ++ obj :: rest) heap))
    (hfuel : 8 ≤ fuel) : runCallee w callee rest fuel (callee.enter (values ++ obj :: rest) heap) =
      some (putField memory' obj rest heap) := by
  obtain ⟨n, rfl⟩ : ∃ n, fuel = n + 1 + 1 + 1 + 1 := ⟨fuel - 4, by omega⟩
  simp only [isSetter, Bool.decide_and, Bool.and_eq_true, decide_eq_true_eq] at hsetter
  obtain ⟨-, h0, h5, hload, -⟩ := hsetter
  have henter : callee.enter (values ++ obj :: rest) heap =
      ⟨0, obj :: values.reverse, [], heap⟩ := by
    have htake : (values ++ obj :: rest).take (1 + access.words) = values ++ [obj] := by
      rw [Nat.add_comm, ← hvalues, List.take_length_add_append]
      rfl
    rw [Method.enter, hnum, htake, List.reverse_append]
    rfl
  rw [henter] at hverified ⊢
  have hobject : step w callee ⟨0, obj :: values.reverse, [], heap⟩ =
      .next ⟨1, obj :: values.reverse, [obj], heap⟩ :=
    step_aload_0 (a := ⟨0, obj :: values.reverse, [], heap⟩) h0 rfl
  have hvalue := step_setterLoad hvalues hload haccess (hverified.next hobject)
  have hput := (step_putfield (w := w) (a := ⟨2, obj :: values.reverse, values ++ [obj], heap⟩)
    haccess).trans (putfield_of_append hvalues rfl hstore)
  rw [runCallee_next hobject, runCallee_next hvalue, putField]
  by_cases hzero : obj = 0
  · rw [if_pos hzero] at hput ⊢
    exact runCallee_thrown hput
  · rw [if_neg hzero] at hput ⊢
    have hcode : returnOf (callee.code.getUbyte 5) = some 0 := by
      rw [h5]
      rfl
    have hlast := ((hverified.next hobject).next hvalue).next hput
    rw [runCallee_next hput, (runCallee_return hcode hlast).2]
    rfl

theorem Emulates.setter (h : tryInlineSetter caller callee site = some caller')
    (hsite : site + 3 ≤ caller.code.length) (harguments : callee.numArgs ≤ stack.length)
    (hverified : callee.isStatic = true ∨ receiver callee stack ≠ some 0 →
      NeverStops w callee (callee.enter stack heap)) :
    ∃ body, Emulates w caller' callee site locals stack heap True body := by
  simp only [tryInlineSetter] at h
  by_cases hsetter : isSetter callee = true
  · rw [if_pos hsetter] at h
    have hparts := hsetter
    simp only [isSetter, Bool.decide_and, Bool.and_eq_true, decide_eq_true_eq] at hparts
    obtain ⟨-, -, -, -, access, haccess, hnum⟩ := hparts
    obtain ⟨values, obj, rest, hvalues, rfl⟩ : ∃ values obj rest,
        values.length = access.words ∧ stack = values ++ obj :: rest := by
      obtain ⟨obj, rest, hdrop⟩ := List.exists_cons_of_length_pos
        (by rw [List.length_drop]; omega : 0 < (stack.drop access.words).length)
      refine ⟨stack.take access.words, obj, rest, ?_, ?_⟩
      · rw [List.length_take]
        omega
      · rw [← hdrop, List.take_append_drop]
    have hreceiver : receiver callee (values ++ obj :: rest) = some obj := by
      rw [receiver, hnum, Nat.add_sub_cancel_left, ← hvalues, List.getElem?_append_right le_rfl,
        Nat.sub_self]
      rfl
    have hrest : (values ++ obj :: rest).drop callee.numArgs = rest := by
      rw [hnum, Nat.add_comm, ← hvalues, List.drop_length_add_append]
      rfl
    obtain ⟨memory', hstore⟩ := exists_store heap.memory
      (fieldAddress obj (getShortNative callee.code 2) access) hvalues
    have hbytes := @getShortNative_putThree caller callee site hsite 2
    rw [Option.some.inj h] at hbytes
    have hput := (step_putfield (w := w) (m := caller')
      (a := ⟨site, locals, values ++ obj :: rest, heap⟩)
      ((congrArg putfieldOf hbytes.1).trans haccess)).trans
      (putfield_of_append hvalues hbytes.2 hstore)
    refine ⟨_, .ofAccess hreceiver hput rfl fun hne fuel hfuel => ?_⟩
    rw [hrest]
    exact runCallee_setter hsetter haccess hnum hvalues hstore (hverified hne) hfuel
  · rw [if_neg hsetter] at h
    simp at h

end CldcVm.RomInliner
