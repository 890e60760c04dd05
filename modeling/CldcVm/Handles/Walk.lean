import CldcVm.Handles.CheckBytecodes

/-!
# Walking over the instructions of a checked method

After `Method::check_bytecodes` (`handles/Method.cpp`, lines 986–1167) the code array of a method
is walked with `for (bci = 0; bci < code_size; bci = next_bci(bci))`. `bcis` lists the offsets
that such a loop visits.

Results:

* `walks_of_scanBytecodes`: a code array that passed the check is walked from one instruction to
  the next: every length is positive, an instruction tells its length by its own bytes, and
  `invokespecial` and `invokevirtual` are complete.
* `nextBci_congr`, `Walks.bcisFrom_eq`: a change of other bytes leaves the walk as it is.
* `Walks.next_le`: instructions do not overlap.
-/

namespace CldcVm.Handles

open Bytecodes

/-! ## The walk -/

/-- The offsets the loop visits from `bci` on, at most `fuel` of them. -/
def bcisFrom (code : Code) : (fuel : ℕ) → (bci : ℕ) → List ℕ
  | 0, _ => []
  | fuel + 1, bci =>
    if bci < code.length then bci :: bcisFrom code fuel (nextBci code bci) else []

/-- The offsets of the instructions of a code array. Every one is longer than nothing, so there
are at most as many as bytes. -/
def bcis (code : Code) : List ℕ := bcisFrom code code.length 0

/-- The operands of the instructions `op`, in the order of the code. -/
def operands (op : ℕ) (code : Code) : List ℕ :=
  ((bcis code).filter fun bci => code.getUbyte bci = op).map fun bci => code.getJavaUshort (bci + 1)

/-- The bytes that tell the length of the instruction at `bci` are its own. -/
structure SelfContained (code : Code) (bci : ℕ) : Prop where
  wide : code.getUbyte bci = wide → bci + 2 ≤ nextBci code bci
  table : code.getUbyte bci = tableswitch → alignSizeUp (bci + 1) + 12 ≤ nextBci code bci
  lookup : code.getUbyte bci = lookupswitch → alignSizeUp (bci + 1) + 8 ≤ nextBci code bci

/-- The instruction at `bci` refers to a method by a constant pool index. -/
def IsInvoke (code : Code) (bci : ℕ) : Prop :=
  code.getUbyte bci = invokespecial ∨ code.getUbyte bci = invokevirtual

/-- From `bci` on the walk makes progress, over instructions that tell their lengths themselves;
the invocations are complete. Another last instruction may lack operand bytes. -/
inductive Walks (code : Code) : ℕ → Prop
  | done {bci : ℕ} (h : code.length ≤ bci) : Walks code bci
  | step {bci : ℕ} (hlt : bci < code.length) (hnext : bci < nextBci code bci)
      (hself : SelfContained code bci) (hinvoke : IsInvoke code bci → bci + 3 ≤ code.length)
      (rest : Walks code (nextBci code bci)) : Walks code bci

/-! ## What the length of an instruction depends on -/

variable {bci : ℕ}

variable {code : Code}

theorem nextBci_of_pos (h : 0 < lengthFor (code.getUbyte bci)) :
    (nextBci code bci : ℤ) = bci + lengthFor (code.getUbyte bci) := by
  unfold nextBci
  rw [bytecodeLengthFor_of_pos h]
  omega

theorem lengthFor_invokespecial : lengthFor invokespecial = 3 := by decide +kernel

theorem lengthFor_invokevirtual : lengthFor invokevirtual = 3 := by decide +kernel

theorem IsInvoke.nextBci_eq (h : IsInvoke code bci) : nextBci code bci = bci + 3 := by
  have hlen : lengthFor (code.getUbyte bci) = 3 := by
    rcases h with h | h
    · rw [h, lengthFor_invokespecial]
    · rw [h, lengthFor_invokevirtual]
  have hnext : (nextBci code bci : ℤ) = bci + lengthFor (code.getUbyte bci) :=
    nextBci_of_pos (by omega)
  omega

variable {code' : Code}

theorem getJavaSwitchInt_congr {i : ℕ}
    (h : ∀ k, i ≤ k → k < i + 4 → code'.getUbyte k = code.getUbyte k) :
    code'.getJavaSwitchInt i = code.getJavaSwitchInt i := by
  unfold Code.getJavaSwitchInt Code.getNativeAlignedInt Code.getNativeU4
  rw [h i le_rfl (by omega), h (i + 1) (by omega) (by omega), h (i + 2) (by omega) (by omega),
    h (i + 3) (by omega) (by omega)]

/-- Code arrays that agree on the bytes up to `next` agree on the length of the instruction, if
these include the bytes the length is read from. -/
theorem bytecodeLengthFor_congr {next : ℕ} (hlt : bci < next)
    (hwide : code.getUbyte bci = wide → bci + 2 ≤ next)
    (htable : code.getUbyte bci = tableswitch → alignSizeUp (bci + 1) + 12 ≤ next)
    (hlookup : code.getUbyte bci = lookupswitch → alignSizeUp (bci + 1) + 8 ≤ next)
    (h : ∀ i, bci ≤ i → i < next → code'.getUbyte i = code.getUbyte i) :
    bytecodeLengthFor code' bci = bytecodeLengthFor code bci := by
  have ha := alignSizeUp_bounds (bci + 1)
  have hcode := h bci le_rfl hlt
  simp only [bytecodeLengthFor, wideLengthFor, hcode]
  -- one case for each of the codes that read more than their first byte
  by_cases ht : code.getUbyte bci = tableswitch
  · have hend := htable ht
    rw [if_pos ht, if_pos ht, getJavaSwitchInt_congr fun i h0 h1 => h i (by omega) (by omega),
      getJavaSwitchInt_congr fun i h0 h1 => h i (by omega) (by omega)]
  · rw [if_neg ht, if_neg ht]
    by_cases hl : code.getUbyte bci = lookupswitch
    · have hend := hlookup hl
      rw [if_pos hl, if_pos hl, getJavaSwitchInt_congr fun i h0 h1 => h i (by omega) (by omega)]
    · rw [if_neg hl, if_neg hl]
      by_cases hw : code.getUbyte bci = Bytecodes.wide
      · have hend := hwide hw
        rw [if_pos hw, if_pos hw, h (bci + 1) (by omega) (by omega)]
      · rw [if_neg hw, if_neg hw]

theorem nextBci_congr (hself : SelfContained code bci) (hlt : bci < nextBci code bci)
    (h : ∀ i, bci ≤ i → i < nextBci code bci → code'.getUbyte i = code.getUbyte i) :
    nextBci code' bci = nextBci code bci := by
  have hlen := bytecodeLengthFor_congr hlt hself.wide hself.table hself.lookup h
  unfold nextBci
  rw [hlen]

theorem SelfContained.congr (hself : SelfContained code bci) (hlt : bci < nextBci code bci)
    (h : ∀ i, bci ≤ i → i < nextBci code bci → code'.getUbyte i = code.getUbyte i) :
    SelfContained code' bci := by
  have hnext := nextBci_congr hself hlt h
  have hcode := h bci le_rfl hlt
  exact ⟨fun hop => hnext ▸ hself.wide (hcode ▸ hop), fun hop => hnext ▸ hself.table (hcode ▸ hop),
    fun hop => hnext ▸ hself.lookup (hcode ▸ hop)⟩

theorem IsInvoke.congr
    (h : code'.getUbyte bci = code.getUbyte bci) : IsInvoke code' bci ↔ IsInvoke code bci := by
  unfold IsInvoke
  rw [h]

/-! ## The walk is a matter of the bytes from its start on -/

theorem Walks.congr (hwalk : Walks code bci) (h : AgreeFrom code code' bci) : Walks code' bci := by
  induction hwalk with
  | done hge => exact .done (h.length_eq ▸ hge)
  | @step bci hlt hnext hself hinvoke _ ih =>
    have hagree : ∀ i, bci ≤ i → i < nextBci code bci → code'.getUbyte i = code.getUbyte i :=
      fun i hi _ => h.getUbyte_eq i hi
    have hnext' := nextBci_congr hself hnext hagree
    refine .step (h.length_eq ▸ hlt) (hnext' ▸ hnext) (hself.congr hnext hagree) ?_ ?_
    · rw [IsInvoke.congr (h.getUbyte_eq bci le_rfl), h.length_eq]
      exact hinvoke
    · rw [hnext']
      exact ih (h.mono hnext.le)

theorem Walks.bcisFrom_eq (hwalk : Walks code bci) (h : AgreeFrom code code' bci) (fuel : ℕ) :
    bcisFrom code' fuel bci = bcisFrom code fuel bci := by
  induction hwalk generalizing fuel with
  | done hge =>
    cases fuel with
    | zero => rfl
    | succ fuel => rw [bcisFrom, bcisFrom, if_neg (h.length_eq ▸ by omega), if_neg (by omega)]
  | @step bci hlt hnext hself _ _ ih =>
    cases fuel with
    | zero => rfl
    | succ fuel =>
      have hnext' := nextBci_congr hself hnext fun i hi _ => h.getUbyte_eq i hi
      rw [bcisFrom, bcisFrom, if_pos (h.length_eq ▸ hlt), if_pos hlt, hnext', ih (h.mono hnext.le)]

variable {fuel : ℕ}

theorem Walks.of_mem (hwalk : Walks code bci) {b : ℕ} (hb : b ∈ bcisFrom code fuel bci) :
    bci ≤ b ∧ b < code.length ∧ (IsInvoke code b → b + 3 ≤ code.length) := by
  induction hwalk generalizing fuel with
  | done hge =>
    cases fuel with
    | zero => cases hb
    | succ fuel =>
      rw [bcisFrom, if_neg (by omega)] at hb
      cases hb
  | @step bci hlt hnext _ hinvoke _ ih =>
    cases fuel with
    | zero => cases hb
    | succ fuel =>
      rw [bcisFrom, if_pos hlt, List.mem_cons] at hb
      rcases hb with rfl | hb
      · exact ⟨le_rfl, hlt, hinvoke⟩
      · have hrest := ih hb
        exact ⟨by omega, hrest.2⟩

/-- Instructions do not overlap. -/
theorem Walks.next_le (hwalk : Walks code bci) {b b' : ℕ}
    (hb : b ∈ bcisFrom code fuel bci) (hb' : b' ∈ bcisFrom code fuel bci) (hlt : b < b') :
    nextBci code b ≤ b' := by
  induction hwalk generalizing fuel with
  | done hge =>
    cases fuel with
    | zero => cases hb
    | succ fuel =>
      rw [bcisFrom, if_neg (by omega)] at hb
      cases hb
  | @step bci hlt' hnext _ _ rest ih =>
    cases fuel with
    | zero => cases hb
    | succ fuel =>
      rw [bcisFrom, if_pos hlt', List.mem_cons] at hb hb'
      rcases hb with rfl | hb
      · rcases hb' with rfl | hb'
        · omega
        · exact (rest.of_mem hb').1
      · rcases hb' with rfl | hb'
        · have := (rest.of_mem hb).1
          omega
        · exact ih hb hb'

/-! ## The walk over a code array that passed `check_bytecodes` -/

/-- What an iteration of the check leaves behind: bytes before the instruction are as they were,
and the walk goes the way the check went. -/
structure Passed (s t : CheckState) : Prop where
  length_eq : t.code.length = s.code.length
  getUbyte_eq : ∀ i, i < s.bcptr → t.code.getUbyte i = s.code.getUbyte i
  nextBci_eq : nextBci t.code s.bcptr = t.bcptr
  bcptr_lt : s.bcptr < t.bcptr
  selfContained : SelfContained t.code s.bcptr
  bci_eq : IsInvoke t.code s.bcptr → t.bci = t.bcptr

theorem selfContained_of_pos (h : 0 < lengthFor (code.getUbyte bci)) : SelfContained code bci := by
  have hne : ∀ c, lengthFor c = 0 → code.getUbyte bci ≠ c := by
    rintro c hc rfl
    omega
  exact ⟨fun hop => absurd hop (hne _ lengthFor_wide),
    fun hop => absurd hop (hne _ lengthFor_tableswitch),
    fun hop => absurd hop (hne _ lengthFor_lookupswitch)⟩

theorem two_le_wideLengthForCode {code : ℕ} (hlt : code < 256) (h : wideLengthForCode code ≠ 0) :
    2 ≤ wideLengthForCode code := by
  have key : ∀ c < 256, wideLengthForCode c ≠ 0 → 2 ≤ wideLengthForCode c := by decide +kernel
  exact key code hlt h

theorem nextBci_wide (hop : code.getUbyte bci = wide) :
    nextBci code bci = bci + wideLengthForCode (code.getUbyte (bci + 1)) := by
  have hne : Bytecodes.wide ≠ tableswitch ∧ Bytecodes.wide ≠ lookupswitch := by decide
  unfold nextBci
  simp only [bytecodeLengthFor, hop, lengthFor_wide, wideLengthFor]
  rw [if_neg (by decide), if_neg hne.1, if_neg hne.2, if_pos True.intro]
  omega

theorem not_isInvoke_of_switch
    (h : code.getUbyte bci = tableswitch ∨ code.getUbyte bci = lookupswitch) :
    ¬ IsInvoke code bci := by
  unfold IsInvoke
  rcases h with hop | hop
  · rw [hop]
    decide
  · rw [hop]
    decide

theorem SwitchFields.head_le (hsize : code.length < 2 ^ 16) {fields : ℤ}
    (h : SwitchFields code bci fields) : (code.getUbyte bci = tableswitch → 3 ≤ fields) ∧
      (code.getUbyte bci = lookupswitch → 2 ≤ fields) := by
  obtain ⟨hfields, h0, h1⟩ := h
  have hne : lookupswitch ≠ tableswitch := by decide
  constructor
  · intro hop
    rw [if_pos hop] at hfields
    obtain ⟨-, hbounds, hval, -⟩ := (tableFields_ok_iff hsize _ _).mp ⟨hfields, h0, h1⟩
    omega
  · intro hop
    rw [if_neg (hop ▸ hne)] at hfields
    obtain ⟨hnpairs, hval, -⟩ := (lookupFields_ok_iff hsize _ _).mp ⟨hfields, h0, h1⟩
    omega

variable {s t : CheckState}

theorem passed_of_fast (hfast : s.code.getUbyte s.bcptr < tableswitch)
    (h : checkStep s = .ok t) : Passed s t := by
  have hlen := lengthFor_of_lt_tableswitch hfast
  rw [checkStep_fast hfast] at h
  split_ifs at h with hneg
  cases h
  have hpos : 0 < lengthFor (s.code.getUbyte s.bcptr) := by omega
  have hnext := nextBci_of_pos hpos
  refine ⟨rfl, fun _ _ => rfl, ?_, ?_, selfContained_of_pos hpos, fun hinvoke => ?_⟩
  · simp only
    omega
  · simp only
    omega
  · have hlt : tableswitch < invokespecial ∧ tableswitch < invokevirtual := by decide
    rcases hinvoke with hop | hop
    · simp only at hop
      omega
    · simp only at hop
      omega

theorem passed_of_switch (hsize : s.code.length < 2 ^ 16)
    (hop : s.code.getUbyte s.bcptr = tableswitch ∨ s.code.getUbyte s.bcptr = lookupswitch)
    (h : checkStep s = .ok t) : Passed s t := by
  rw [checkStep_switch hop] at h
  rcases hs : checkSwitch s.code s.bcptr (s.code.getUbyte s.bcptr) with msg | rewritten
  · rw [hs] at h
    cases h
  obtain ⟨-, -, fields, hf, hend, hrew⟩ := (checkSwitch_ok_iff hsize).mp hs
  have hlen := bytecodeLengthFor_nativeOrder hsize hop hf hend
  have hhead := hf.head_le hsize
  have ha := alignSizeUp_bounds (s.bcptr + 1)
  have h0 := hf.2.1
  have hbefore : ∀ i, i < alignSizeUp (s.bcptr + 1) →
      rewritten.getUbyte i = s.code.getUbyte i := fun i hi =>
    hrew ▸ getUbyte_nativeOrder _ _ _ _ (by omega) (.inl hi)
  have hcode := hbefore s.bcptr (by omega)
  rw [← hrew] at hlen
  have hnext : (nextBci rewritten s.bcptr : ℤ) = alignSizeUp (s.bcptr + 1) + 4 * fields := by
    unfold nextBci
    rw [hlen]
    omega
  rw [hs] at h
  simp only [hlen] at h
  split_ifs at h with hneg
  cases h
  refine ⟨?_, fun i hi => hbefore i (by omega), ?_, ?_, ⟨fun hw => ?_, fun ht => ?_, fun hl => ?_⟩,
    fun hinvoke => ?_⟩
  · simp only [CheckState.advance, hrew, length_nativeOrder]
  · simp only [CheckState.advance]
    omega
  · simp only [CheckState.advance]
    omega
  · simp only [CheckState.advance] at hw
    have hne : wide ≠ tableswitch ∧ wide ≠ lookupswitch := by decide
    omega
  · simp only [CheckState.advance] at ht ⊢
    have := hhead.1 (hcode ▸ ht)
    omega
  · simp only [CheckState.advance] at hl ⊢
    have := hhead.2 (hcode ▸ hl)
    omega
  · exact absurd hinvoke (not_isInvoke_of_switch (hcode.symm ▸ hop))

theorem passed_of_wide (hop : s.code.getUbyte s.bcptr = wide)
    (h : checkStep s = .ok t) : Passed s t := by
  have hne : wide ≠ tableswitch ∧ wide ≠ lookupswitch := by decide
  rw [checkStep_wide hop] at h
  split_ifs at h with h1 h2 h3
  cases h
  have htwo := two_le_wideLengthForCode (s.code.getUbyte_lt _) h3
  have hnext := nextBci_wide hop
  refine ⟨rfl, fun _ _ => rfl, ?_, ?_, ⟨fun _ => ?_, fun ht => ?_, fun hl => ?_⟩, fun _ => rfl⟩
  · simp only [CheckState.advance]
    omega
  · simp only [CheckState.advance]
    omega
  · simp only [CheckState.advance]
    omega
  · simp only [CheckState.advance] at ht
    omega
  · simp only [CheckState.advance] at hl
    omega

/-- **Step lemma**: an iteration that throws nothing leaves an instruction behind. -/
theorem passed_of_checkStep (hsize : s.code.length < 2 ^ 16)
    (h : checkStep s = .ok t) : Passed s t := by
  by_cases hfast : s.code.getUbyte s.bcptr < tableswitch
  · exact passed_of_fast hfast h
  by_cases hop : s.code.getUbyte s.bcptr = tableswitch ∨ s.code.getUbyte s.bcptr = lookupswitch
  · exact passed_of_switch hsize hop h
  by_cases hw : s.code.getUbyte s.bcptr = wide
  · exact passed_of_wide hw h
  by_cases hbad : s.code.getUbyte s.bcptr ≥ breakpoint ∨ isDefined (s.code.getUbyte s.bcptr) = false
  · simp only [checkStep, if_neg hfast, if_pos hbad] at h
    cases h
  · have hlt : s.code.getUbyte s.bcptr < breakpoint := by omega
    have hdef : isDefined (s.code.getUbyte s.bcptr) = true := by
      rw [← Bool.not_eq_false]
      exact fun hd => hbad (.inr hd)
    have hne := not_or.mp hop
    have hpos := lengthFor_pos hlt hdef hw hne.1 hne.2
    have hnext := nextBci_of_pos hpos
    obtain ⟨t', ht', hcode, hbci, hptr⟩ :=
      checkStep_other (Nat.not_lt.mp hfast) hlt hdef hw hne.1 hne.2
    rw [ht'] at h
    cases h
    refine ⟨by rw [hcode], fun _ _ => by rw [hcode], ?_, by omega, ?_, fun _ => hbci⟩
    · rw [hcode]
      omega
    · rw [hcode]
      exact selfContained_of_pos hpos

/-- **Run lemma**: the code the loop leaves is walked from where the loop starts, and the bytes
before are as they were. -/
theorem walks_of_checkLoop (hsize : s.code.length < 2 ^ 16)
    (hfuel : s.code.length ≤ s.bcptr + fuel) (h : checkLoop fuel s = .ok t)
    (hbci : t.bci ≤ t.code.length) :
    t.code.length = s.code.length ∧ (∀ i, i < s.bcptr → t.code.getUbyte i = s.code.getUbyte i) ∧
      Walks t.code s.bcptr := by
  induction fuel generalizing s with
  | zero =>
    cases h
    exact ⟨rfl, fun _ _ => rfl, .done hfuel⟩
  | succ fuel ih =>
    rw [checkLoop] at h
    split_ifs at h with hlt
    · rcases hc : checkStep s with msg | r
      · rw [hc] at h
        cases h
      rw [hc] at h
      simp only at h
      have hpass := passed_of_checkStep hsize hc
      have hptr := hpass.bcptr_lt
      have hlen := hpass.length_eq
      obtain ⟨hlen', hbytes, hwalk⟩ := ih (hlen ▸ hsize) (by omega) h
      have hagree : ∀ i, s.bcptr ≤ i → i < nextBci r.code s.bcptr →
          t.code.getUbyte i = r.code.getUbyte i := fun i _ hi =>
        hbytes i (hpass.nextBci_eq ▸ hi)
      have hnext : s.bcptr < nextBci r.code s.bcptr := hpass.nextBci_eq.symm ▸ hptr
      have hnext' := nextBci_congr hpass.selfContained hnext hagree
      refine ⟨hlen'.trans hlen, fun i hi => (hbytes i (by omega)).trans (hpass.getUbyte_eq i hi),
        .step (by omega) (by omega) (hpass.selfContained.congr hnext hagree) (fun hinvoke => ?_) ?_⟩
      · -- a truncated invocation is seen by the test after the loop
        have hinvoke' := (IsInvoke.congr (hagree s.bcptr le_rfl hnext)).mp hinvoke
        have h3 := hpass.nextBci_eq.symm.trans hinvoke'.nextBci_eq
        rcases Nat.lt_or_ge t.code.length (s.bcptr + 3) with hover | hin
        · have hstop : checkLoop fuel r = .ok r := by
            cases fuel with
            | zero => rfl
            | succ fuel => rw [checkLoop, if_neg (by omega)]
          rw [hstop] at h
          cases h
          have hsame := hpass.bci_eq hinvoke'
          omega
        · exact hin
      · rw [hnext', hpass.nextBci_eq]
        exact hwalk
    · cases h
      exact ⟨rfl, fun _ _ => rfl, .done (by omega)⟩

/-- **Main theorem**: a code array that passed the scan is walked over to its end. -/
theorem walks_of_scanBytecodes (hsize : code.length < 2 ^ 16)
    (h : scanBytecodes code = .ok s) : Walks s.code 0 := by
  unfold scanBytecodes at h
  rcases hl : checkLoop code.length ⟨code, 0, 0, false, false, 0⟩ with msg | t
  · rw [hl] at h
    cases h
  · rw [hl] at h
    simp only at h
    split_ifs at h with hover
    cases h
    have hlen := length_checkLoop hsize hl
    exact (walks_of_checkLoop hsize (by simp) hl (by simp only at hlen; omega)).2.2

end CldcVm.Handles
