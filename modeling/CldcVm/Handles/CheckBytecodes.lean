import CldcVm.Bytecodes.Data

/-!
# `Method::check_bytecodes` and the instruction structure of a code array

`Method::check_bytecodes` (`handles/Method.cpp`, lines 986–1167) walks a code
array once. Codes below `tableswitch` take a fast path that moves only
`bcptr`; the others synchronise `bci` with `bcptr` first, and the last test of
the function, `bci > codesize`, sees the `bci` of the last of these.

The specification is `Tiles`: the array is a sequence of complete instructions
of unbounded integer lengths. The two differ in two places: a truncated last
instruction of the fast path is accepted, and a switch that ends exactly at the
end of the code is refused.

Results:
* `accepts_iff_tiles_iff`: acceptance and `Tiles` agree iff the array has
  neither of the two defects at an instruction boundary.
-/

namespace CldcVm.Handles

open Bytecodes

/-! ## Specification -/

/-- The padding of a switch at `bci` is zero. -/
def ZeroPadding (code : Code) (bci : ℕ) : Prop :=
  ∀ offset, bci < offset → offset < alignSizeUp (bci + 1) → code.getUbyte offset = 0

/-- A switch instruction at `bci` that is complete and ends at `next`: its
padding is zero, its counts are meaningful and its table lies in the code. -/
inductive SwitchAt (code : Code) (bci : ℕ) : ℕ → Prop
  | table {next : ℕ} (hop : code.getUbyte bci = tableswitch) (hpad : ZeroPadding code bci)
      (hhead : alignSizeUp (bci + 1) + 12 ≤ code.length)
      (hbounds : code.getJavaInt (alignSizeUp (bci + 1) + 4) ≤
        code.getJavaInt (alignSizeUp (bci + 1) + 8))
      (hnext : (next : ℤ) = alignSizeUp (bci + 1) +
        4 * (3 + (code.getJavaInt (alignSizeUp (bci + 1) + 8) -
          code.getJavaInt (alignSizeUp (bci + 1) + 4) + 1)))
      (hend : next ≤ code.length) : SwitchAt code bci next
  | lookup {next : ℕ} (hop : code.getUbyte bci = lookupswitch) (hpad : ZeroPadding code bci)
      (hhead : alignSizeUp (bci + 1) + 8 ≤ code.length)
      (hnpairs : 0 ≤ code.getJavaInt (alignSizeUp (bci + 1) + 4))
      (hnext : (next : ℤ) = alignSizeUp (bci + 1) +
        4 * (2 + 2 * code.getJavaInt (alignSizeUp (bci + 1) + 4)))
      (hend : next ≤ code.length) : SwitchAt code bci next

/-- A defined and complete instruction starts at `bci` and the next one at
`next`. -/
inductive InstructionAt (code : Code) (bci : ℕ) : ℕ → Prop
  | simple {next : ℕ} (hlt : code.getUbyte bci < breakpoint)
      (hlen : 0 < lengthFor (code.getUbyte bci))
      (hnext : (next : ℤ) = bci + lengthFor (code.getUbyte bci))
      (hend : next ≤ code.length) : InstructionAt code bci next
  | wide {next : ℕ} (hop : code.getUbyte bci = wide)
      (hdef : isDefined (code.getUbyte (bci + 1)) = true)
      (hlen : 0 < wideLengthForCode (code.getUbyte (bci + 1)))
      (hnext : next = bci + wideLengthForCode (code.getUbyte (bci + 1)))
      (hend : next ≤ code.length) : InstructionAt code bci next
  | switch {next : ℕ} (h : SwitchAt code bci next) : InstructionAt code bci next

/-- From `bci` on the code decomposes into instructions, with nothing left
over. -/
inductive Tiles (code : Code) : ℕ → Prop
  | done : Tiles code code.length
  | step {bci next : ℕ} (h : InstructionAt code bci next) (rest : Tiles code next) :
      Tiles code bci

/-- `bci` is an instruction boundary: complete instructions lead from offset
`0` to it. -/
inductive Boundary (code : Code) : ℕ → Prop
  | zero : Boundary code 0
  | step {bci next : ℕ} (hb : Boundary code bci) (h : InstructionAt code bci next) :
      Boundary code next

/-- A defined instruction below `tableswitch` starts at `bci` and its operand
bytes are not all there. -/
def TruncatedSimple (code : Code) (bci : ℕ) : Prop :=
  bci < code.length ∧ code.getUbyte bci < tableswitch ∧ 0 < lengthFor (code.getUbyte bci) ∧
    (code.length : ℤ) < bci + lengthFor (code.getUbyte bci)

instance (code : Code) (bci : ℕ) : Decidable (TruncatedSimple code bci) :=
  inferInstanceAs (Decidable (_ ∧ _ ∧ _ ∧ _))

/-- A complete switch at `bci` ends where the code ends. -/
def SwitchEndsCode (code : Code) (bci : ℕ) : Prop := SwitchAt code bci code.length

/-! ## Model of the C++ code -/

/-- The messages `check_bytecodes` throws `ClassFormatError` with. -/
inductive ErrorMsgTag
  | illegalCode
  | illegalWideCode
deriving DecidableEq, Repr

/-- The locals of the loop, and the code array it rewrites in place. `bcptr` is
the offset of the source's pointer from `bcstart`. -/
structure CheckState where
  code : Code
  bcptr : ℕ
  bci : ℕ
  hasMonitorBytecodes : Bool
  hasInvokeBytecodes : Bool
  numlocks : ℕ
deriving DecidableEq, Repr

/-- The loop of lines 1098–1101: `fields` words from `offset` on are rewritten
to the native order. -/
def nativeOrder (code : Code) : (fields : ℕ) → (offset : ℕ) → Code
  | 0, _ => code
  | fields + 1, offset =>
    nativeOrder (code.putNativeU4 offset (swapU4 (code.getNativeU4 offset))) fields (offset + 4)

/-- A word of a switch table before it is rewritten, lines 1060–1065. -/
def rawSwitchInt (code : Code) (bci : ℕ) : ℤ := jint (swapU4 (code.getNativeU4 bci))

/-- `fields` of a tableswitch with its table at `a_bci`, lines 1055–1070. -/
def tableFields (code : Code) (aBci : ℕ) : Except ErrorMsgTag ℤ :=
  if aBci + 3 * 4 > code.length then .error .illegalCode
  else
    let rawLo := rawSwitchInt code (aBci + 4)
    let rawHi := rawSwitchInt code (aBci + 8)
    if rawLo > rawHi ∨ jint (rawHi - rawLo) < 0 then .error .illegalCode
    else .ok (jint (3 + rawHi - rawLo + 1))

/-- `fields` of a lookupswitch with its table at `a_bci`, lines 1072–1082. -/
def lookupFields (code : Code) (aBci : ℕ) : Except ErrorMsgTag ℤ :=
  let rawNpairs := rawSwitchInt code (aBci + 4)
  if rawNpairs < 0 ∨ jint (2 * rawNpairs) < 0 then .error .illegalCode
  else .ok (jint (2 + 2 * rawNpairs))

/-- The cases `_lookupswitch` and `_tableswitch`, lines 1038–1104: the checks,
and the code with its table rewritten. -/
def checkSwitch (code : Code) (bci op : ℕ) : Except ErrorMsgTag Code :=
  let aBci := alignSizeUp (bci + 1)
  if aBci + 2 * 4 > code.length then .error .illegalCode
  else if (List.range' (bci + 1) (aBci - (bci + 1))).any (code.getUbyte · != 0) then
    .error .illegalCode
  else
    match if op = tableswitch then tableFields code aBci else lookupFields code aBci with
    | .error msg => .error msg
    | .ok fields =>
      let finish := jint (aBci + fields * 4)
      if finish ≥ code.length ∨ fields < 0 ∨ fields > code.length then .error .illegalCode
      else .ok (nativeOrder code fields.toNat aBci)

/-- `bci += bytecode_length; bcptr += bytecode_length`, with `bci` in sync with
`bcptr`. -/
def CheckState.advance (s : CheckState) (bytecodeLength : ℤ) : CheckState :=
  { s with
    bci := (s.bcptr + bytecodeLength).toNat
    bcptr := (s.bcptr + bytecodeLength).toNat }

/-- The `switch (code)` of lines 1028–1105. -/
def checkCase (s : CheckState) (code : ℕ) : Except ErrorMsgTag CheckState :=
  if code = monitorenter then
    .ok { s with numlocks := s.numlocks + 1, hasMonitorBytecodes := true }
  else if code = monitorexit then .ok { s with hasMonitorBytecodes := true }
  else if code = invokeinterface ∨ code = invokestatic ∨ code = invokespecial ∨
      code = invokevirtual then
    .ok { s with hasInvokeBytecodes := true }
  else if code = lookupswitch ∨ code = tableswitch then
    match checkSwitch s.code s.bcptr code with
    | .error msg => .error msg
    | .ok rewritten => .ok { s with code := rewritten }
  else .ok s

/-- One iteration of the loop, lines 1008–1113. -/
def checkStep (s : CheckState) : Except ErrorMsgTag CheckState :=
  let code := s.code.getUbyte s.bcptr
  if code < tableswitch then
    -- the fast path: `bci` is not updated here
    let bytecodeLength := lengthFor code
    if bytecodeLength < 0 then .error .illegalCode
    else .ok { s with bcptr := (s.bcptr + bytecodeLength).toNat }
  else if code ≥ breakpoint ∨ isDefined code = false then .error .illegalCode
  else if code = wide then
    if s.bcptr + 1 ≥ s.code.length then .error .illegalCode
    else
      let code := s.code.getUbyte (s.bcptr + 1)
      if isDefined code = false then .error .illegalCode
      else if wideLengthForCode code = 0 then .error .illegalWideCode
      else .ok (s.advance (wideLengthForCode code))
  else
    match checkCase s code with
    | .error msg => .error msg
    | .ok s =>
      let bytecodeLength := bytecodeLengthFor s.code s.bcptr
      if bytecodeLength = -1 then .error .illegalCode
      else .ok (s.advance bytecodeLength)

/-- The loop `for (bci = 0; bcptr < bcend;)`, at most `fuel` iterations of it. -/
def checkLoop : (fuel : ℕ) → CheckState → Except ErrorMsgTag CheckState
  | 0, s => .ok s
  | fuel + 1, s =>
    if s.bcptr < s.code.length then
      match checkStep s with
      | .error msg => .error msg
      | .ok s => checkLoop fuel s
    else .ok s

/-- The scan of the code array, lines 999–1117: the loop and the test after it.
Every iteration moves `bcptr` forward, so the length of the code bounds
their number (`bcptr_checkLoop`). -/
def scanBytecodes (code : Code) : Except ErrorMsgTag CheckState :=
  match checkLoop code.length ⟨code, 0, 0, false, false, 0⟩ with
  | .error msg => .error msg
  | .ok s => if s.bci > code.length then .error .illegalCode else .ok s

/-! ## The rows of the table the scan depends on -/

/-- Below `tableswitch` a code is undefined or has a positive length. -/
theorem lengthFor_of_lt_tableswitch {code : ℕ} (h : code < tableswitch) :
    lengthFor code < 0 ∨ 0 < lengthFor code := by
  have key : ∀ c < tableswitch, lengthFor c < 0 ∨ 0 < lengthFor c := by decide +kernel
  exact key code h

/-- Apart from the two switches and `wide`, a defined code below `breakpoint`
has a positive length. -/
theorem lengthFor_pos {code : ℕ} (h : code < breakpoint) (hdef : isDefined code = true)
    (hw : code ≠ wide) (ht : code ≠ tableswitch) (hl : code ≠ lookupswitch) :
    0 < lengthFor code := by
  have key : ∀ c < breakpoint, isDefined c = true → c ≠ wide → c ≠ tableswitch →
      c ≠ lookupswitch → 0 < lengthFor c := by decide +kernel
  exact key code h hdef hw ht hl

theorem isDefined_of_lengthFor_pos {code : ℕ} (h : code < breakpoint) (hlen : 0 < lengthFor code) :
    isDefined code = true := by
  have key : ∀ c < breakpoint, 0 < lengthFor c → isDefined c = true := by decide +kernel
  exact key code h hlen

theorem lengthFor_tableswitch : lengthFor tableswitch = 0 := by decide +kernel

theorem lengthFor_lookupswitch : lengthFor lookupswitch = 0 := by decide +kernel

theorem lengthFor_wide : lengthFor wide = 0 := by decide +kernel

theorem bytecodeLengthFor_of_pos {code : Code} {bci : ℕ} (h : 0 < lengthFor (code.getUbyte bci)) :
    bytecodeLengthFor code bci = lengthFor (code.getUbyte bci) := by
  simp only [bytecodeLengthFor]
  rw [if_pos (by omega)]

/-! ## Code arrays that agree from an offset on -/

/-- `code'` has the length of `code` and the bytes of `code` from `bci` on. -/
structure AgreeFrom (code code' : Code) (bci : ℕ) : Prop where
  length_eq : code'.length = code.length
  getUbyte_eq : ∀ i, bci ≤ i → code'.getUbyte i = code.getUbyte i

namespace AgreeFrom

variable {code code' code'' : Code} {bci bci' : ℕ}

theorem refl (code : Code) (bci : ℕ) : AgreeFrom code code bci := ⟨rfl, fun _ _ => rfl⟩

theorem mono (h : AgreeFrom code code' bci) (hle : bci ≤ bci') : AgreeFrom code code' bci' :=
  ⟨h.length_eq, fun i hi => h.getUbyte_eq i (hle.trans hi)⟩

theorem symm (h : AgreeFrom code code' bci) : AgreeFrom code' code bci :=
  ⟨h.length_eq.symm, fun i hi => (h.getUbyte_eq i hi).symm⟩

theorem trans (h : AgreeFrom code code' bci) (h' : AgreeFrom code' code'' bci) :
    AgreeFrom code code'' bci :=
  ⟨h'.length_eq.trans h.length_eq, fun i hi => (h'.getUbyte_eq i hi).trans (h.getUbyte_eq i hi)⟩

theorem getJavaInt_eq (h : AgreeFrom code code' bci) {i : ℕ} (hi : bci ≤ i) :
    code'.getJavaInt i = code.getJavaInt i := by
  unfold Code.getJavaInt Code.getJavaU4
  rw [h.getUbyte_eq i hi, h.getUbyte_eq (i + 1) (by omega), h.getUbyte_eq (i + 2) (by omega),
    h.getUbyte_eq (i + 3) (by omega)]

theorem switchAt (h : AgreeFrom code code' bci) {next : ℕ} (hs : SwitchAt code bci next) :
    SwitchAt code' bci next := by
  have ha := alignSizeUp_bounds (bci + 1)
  cases hs with
  | table hop hpad hhead hbounds hnext hend =>
    refine .table ?_ (fun i hi hi' => ?_) ?_ ?_ ?_ ?_
    · rw [h.getUbyte_eq bci le_rfl, hop]
    · rw [h.getUbyte_eq i hi.le, hpad i hi hi']
    · rw [h.length_eq]; exact hhead
    · rw [h.getJavaInt_eq (by omega), h.getJavaInt_eq (by omega)]; exact hbounds
    · rw [h.getJavaInt_eq (by omega), h.getJavaInt_eq (by omega)]; exact hnext
    · rw [h.length_eq]; exact hend
  | lookup hop hpad hhead hnpairs hnext hend =>
    refine .lookup ?_ (fun i hi hi' => ?_) ?_ ?_ ?_ ?_
    · rw [h.getUbyte_eq bci le_rfl, hop]
    · rw [h.getUbyte_eq i hi.le, hpad i hi hi']
    · rw [h.length_eq]; exact hhead
    · rw [h.getJavaInt_eq (by omega)]; exact hnpairs
    · rw [h.getJavaInt_eq (by omega)]; exact hnext
    · rw [h.length_eq]; exact hend

/-- An instruction is a matter of the bytes from its start on. -/
theorem instructionAt (h : AgreeFrom code code' bci) {next : ℕ} (hi : InstructionAt code bci next) :
    InstructionAt code' bci next := by
  cases hi with
  | simple hlt hlen hnext hend =>
    rw [← h.getUbyte_eq bci le_rfl] at hlt hlen hnext
    exact .simple hlt hlen hnext (h.length_eq ▸ hend)
  | wide hop hdef hlen hnext hend =>
    rw [← h.getUbyte_eq bci le_rfl] at hop
    rw [← h.getUbyte_eq (bci + 1) (by omega)] at hdef hlen hnext
    exact .wide hop hdef hlen hnext (h.length_eq ▸ hend)
  | switch hs => exact .switch (h.switchAt hs)

end AgreeFrom

/-! ## Rewriting a switch table -/

theorem getNativeU4_putNativeU4 (code : Code) {bci x : ℕ} (h : bci + 4 ≤ code.length)
    (hx : x < 2 ^ 32) : (code.putNativeU4 bci x).getNativeU4 bci = x := by
  unfold Code.getNativeU4
  simp only [code.getUbyte_putNativeU4 x _ h, show bci + 1 - bci = 1 by omega,
    show bci + 2 - bci = 2 by omega, show bci + 3 - bci = 3 by omega]
  rw [if_pos (by omega), if_pos (by omega), if_pos (by omega), if_pos (by omega)]
  norm_num
  omega

@[simp] theorem length_nativeOrder (code : Code) (fields offset : ℕ) :
    (nativeOrder code fields offset).length = code.length := by
  induction fields generalizing code offset with
  | zero => rfl
  | succ fields ih => rw [nativeOrder, ih, Code.length_putNativeU4]

theorem getUbyte_nativeOrder (code : Code) (fields offset i : ℕ)
    (h : offset + 4 * fields ≤ code.length) (hi : i < offset ∨ offset + 4 * fields ≤ i) :
    (nativeOrder code fields offset).getUbyte i = code.getUbyte i := by
  induction fields generalizing code offset with
  | zero => rfl
  | succ fields ih =>
    rw [nativeOrder, ih _ _ (by rw [Code.length_putNativeU4]; omega) (by omega),
      code.getUbyte_putNativeU4 _ _ (by omega), if_neg (by omega)]

theorem getJavaU4_lt (code : Code) (bci : ℕ) : code.getJavaU4 bci < 2 ^ 32 := by
  have h0 := code.getUbyte_lt bci
  have h1 := code.getUbyte_lt (bci + 1)
  have h2 := code.getUbyte_lt (bci + 2)
  have h3 := code.getUbyte_lt (bci + 3)
  unfold Code.getJavaU4
  omega

/-- A word of the rewritten table, read in the native order, is the big-endian
word that stood there. -/
theorem getJavaSwitchInt_nativeOrder (code : Code) (fields offset k : ℕ)
    (h : offset + 4 * fields ≤ code.length) (hk : k < fields) :
    (nativeOrder code fields offset).getJavaSwitchInt (offset + 4 * k) =
      code.getJavaInt (offset + 4 * k) := by
  induction fields generalizing code offset k with
  | zero => omega
  | succ fields ih =>
    set rewritten := code.putNativeU4 offset (swapU4 (code.getNativeU4 offset)) with hr
    have hlen : offset + 4 + 4 * fields ≤ rewritten.length := by
      rw [hr, Code.length_putNativeU4]; omega
    cases k with
    | zero =>
      have hword : rewritten.getNativeU4 offset = code.getJavaU4 offset := by
        rw [hr, swapU4_getNativeU4, getNativeU4_putNativeU4 _ (by omega) (getJavaU4_lt ..)]
      rw [nativeOrder, ← hr]
      unfold Code.getJavaSwitchInt Code.getNativeAlignedInt Code.getJavaInt
      simp only [Nat.mul_zero, Nat.add_zero]
      rw [← hword]
      unfold Code.getNativeU4
      rw [getUbyte_nativeOrder _ _ _ _ hlen (by omega),
        getUbyte_nativeOrder _ _ _ _ hlen (by omega),
        getUbyte_nativeOrder _ _ _ _ hlen (by omega),
        getUbyte_nativeOrder _ _ _ _ hlen (by omega)]
    | succ k =>
      have hih := ih rewritten (offset + 4) k hlen (by omega)
      rw [show offset + 4 * (k + 1) = offset + 4 + 4 * k by omega, nativeOrder, ← hr, hih]
      unfold Code.getJavaInt Code.getJavaU4
      simp only [hr, code.getUbyte_putNativeU4 _ _ (show offset + 4 ≤ code.length by omega)]
      rw [if_neg (by omega), if_neg (by omega), if_neg (by omega), if_neg (by omega)]

theorem rawSwitchInt_eq (code : Code) (bci : ℕ) : rawSwitchInt code bci = code.getJavaInt bci := by
  rw [rawSwitchInt, swapU4_getNativeU4, Code.getJavaInt]

theorem getJavaInt_bounds (code : Code) (bci : ℕ) :
    -2 ^ 31 ≤ code.getJavaInt bci ∧ code.getJavaInt bci < 2 ^ 31 := by
  unfold Code.getJavaInt
  exact jint_bounds _

/-! ## The arithmetic of a switch does not wrap -/

/-- The counts of a tableswitch that pass the checks are the exact ones. -/
theorem tableFields_ok_iff {code : Code} (hsize : code.length < 2 ^ 16) (aBci : ℕ) (fields : ℤ) :
    (tableFields code aBci = .ok fields ∧ 0 ≤ fields ∧ fields ≤ code.length) ↔
      aBci + 12 ≤ code.length ∧ code.getJavaInt (aBci + 4) ≤ code.getJavaInt (aBci + 8) ∧
        fields = 3 + (code.getJavaInt (aBci + 8) - code.getJavaInt (aBci + 4) + 1) ∧
        fields ≤ code.length := by
  have hlo := getJavaInt_bounds code (aBci + 4)
  have hhi := getJavaInt_bounds code (aBci + 8)
  simp only [tableFields, rawSwitchInt_eq]
  generalize code.getJavaInt (aBci + 4) = lo at hlo ⊢
  generalize code.getJavaInt (aBci + 8) = hi at hhi ⊢
  by_cases hhead : aBci + 3 * 4 > code.length
  · rw [if_pos hhead]
    constructor
    · rintro ⟨h, -⟩; cases h
    · rintro ⟨h, -⟩; omega
  rw [if_neg hhead]
  by_cases hbounds : lo > hi ∨ jint (hi - lo) < 0
  · rw [if_pos hbounds]
    constructor
    · rintro ⟨h, -⟩; cases h
    · rintro ⟨-, hle, hf, hfl⟩
      -- a difference that wraps is far beyond the size of the code
      rcases hbounds with h | h
      · omega
      · unfold jint at h; omega
  · rw [if_neg hbounds]
    simp only [Except.ok.injEq]
    unfold jint at hbounds ⊢
    constructor
    · rintro ⟨hf, h0, h1⟩
      refine ⟨by omega, by omega, by omega, h1⟩
    · rintro ⟨-, hle, hf, hfl⟩
      refine ⟨by omega, by omega, hfl⟩

/-- The same for a lookupswitch. -/
theorem lookupFields_ok_iff {code : Code} (hsize : code.length < 2 ^ 16) (aBci : ℕ) (fields : ℤ) :
    (lookupFields code aBci = .ok fields ∧ 0 ≤ fields ∧ fields ≤ code.length) ↔
      0 ≤ code.getJavaInt (aBci + 4) ∧ fields = 2 + 2 * code.getJavaInt (aBci + 4) ∧
        fields ≤ code.length := by
  have hn := getJavaInt_bounds code (aBci + 4)
  simp only [lookupFields, rawSwitchInt_eq]
  generalize code.getJavaInt (aBci + 4) = npairs at hn ⊢
  by_cases hneg : npairs < 0 ∨ jint (2 * npairs) < 0
  · rw [if_pos hneg]
    constructor
    · rintro ⟨h, -⟩; cases h
    · rintro ⟨h0, hf, hfl⟩
      rcases hneg with h | h
      · omega
      · unfold jint at h; omega
  · rw [if_neg hneg]
    simp only [Except.ok.injEq]
    unfold jint at hneg ⊢
    constructor
    · rintro ⟨hf, h0, h1⟩
      exact ⟨by omega, by omega, h1⟩
    · rintro ⟨h0, hf, hfl⟩
      exact ⟨by omega, by omega, hfl⟩

theorem any_padding_eq_false_iff (code : Code) (bci : ℕ) :
    ((List.range' (bci + 1) (alignSizeUp (bci + 1) - (bci + 1))).any (code.getUbyte · != 0)) =
      false ↔ ZeroPadding code bci := by
  rw [List.any_eq_false]
  simp only [List.mem_range'_1, bne_iff_ne, ne_eq, not_not]
  constructor
  · intro h offset h1 h2
    exact h offset (by omega)
  · intro h offset ho
    exact h offset (by omega) (by omega)

/-- The number of words of the switch table at `bci`. -/
def SwitchFields (code : Code) (bci : ℕ) (fields : ℤ) : Prop :=
  (if code.getUbyte bci = tableswitch then tableFields code (alignSizeUp (bci + 1))
    else lookupFields code (alignSizeUp (bci + 1))) = .ok fields ∧ 0 ≤ fields ∧ fields ≤ code.length

/-- What an accepted switch is: the checks passed and its table was
rewritten. -/
theorem checkSwitch_ok_iff {code : Code} (hsize : code.length < 2 ^ 16) {bci : ℕ} {code' : Code} :
    checkSwitch code bci (code.getUbyte bci) = .ok code' ↔
      alignSizeUp (bci + 1) + 8 ≤ code.length ∧ ZeroPadding code bci ∧
        ∃ fields, SwitchFields code bci fields ∧ alignSizeUp (bci + 1) + 4 * fields < code.length ∧
          code' = nativeOrder code fields.toNat (alignSizeUp (bci + 1)) := by
  simp only [checkSwitch]
  by_cases hhead : alignSizeUp (bci + 1) + 2 * 4 > code.length
  · rw [if_pos hhead]
    constructor
    · intro h; cases h
    · rintro ⟨h, -⟩; omega
  rw [if_neg hhead]
  by_cases hpad : ZeroPadding code bci
  · rw [(any_padding_eq_false_iff code bci).mpr hpad, if_neg Bool.false_ne_true]
    unfold SwitchFields
    rcases hf : (if code.getUbyte bci = tableswitch then tableFields code (alignSizeUp (bci + 1))
      else lookupFields code (alignSizeUp (bci + 1))) with msg | fields
    · simp
    · simp only [Except.ok.injEq]
      by_cases hbad : jint (alignSizeUp (bci + 1) + fields * 4) ≥ code.length ∨ fields < 0 ∨
          fields > code.length
      · rw [if_pos hbad]
        constructor
        · intro h; cases h
        · rintro ⟨-, -, f, ⟨rfl, h0, h1⟩, hend, -⟩
          rw [jint_eq (by omega) (by omega)] at hbad
          omega
      · rw [if_neg hbad, Except.ok.injEq]
        have h0 : 0 ≤ fields ∧ fields ≤ code.length := by omega
        rw [jint_eq (by omega) (by omega)] at hbad
        constructor
        · intro h
          exact ⟨by omega, hpad, fields, ⟨rfl, h0⟩, by omega, h.symm⟩
        · rintro ⟨-, -, f, ⟨rfl, -⟩, -, h⟩
          exact h.symm
  · rw [if_pos (by rw [← Bool.not_eq_false, any_padding_eq_false_iff]; exact hpad)]
    constructor
    · intro h; cases h
    · rintro ⟨-, h, -⟩; exact absurd h hpad

/-- The table words of a complete switch are what `checkSwitch` counts. -/
theorem switchAt_iff {code : Code} (hsize : code.length < 2 ^ 16) {bci next : ℕ}
    (hop : code.getUbyte bci = tableswitch ∨ code.getUbyte bci = lookupswitch) :
    SwitchAt code bci next ↔ alignSizeUp (bci + 1) + 8 ≤ code.length ∧ ZeroPadding code bci ∧
        ∃ fields, SwitchFields code bci fields ∧
          (next : ℤ) = alignSizeUp (bci + 1) + 4 * fields ∧ next ≤ code.length := by
  have hne : lookupswitch ≠ tableswitch := by decide
  unfold SwitchFields
  constructor
  · intro h
    cases h with
    | table hop hpad hhead hbounds hnext hend =>
      refine ⟨by omega, hpad, _, ?_, hnext, hend⟩
      rw [if_pos hop]
      refine (tableFields_ok_iff hsize _ _).mpr ⟨hhead, hbounds, rfl, ?_⟩
      linarith
    | lookup hop hpad hhead hnpairs hnext hend =>
      refine ⟨hhead, hpad, _, ?_, hnext, hend⟩
      rw [if_neg (hop ▸ hne)]
      refine (lookupFields_ok_iff hsize _ _).mpr ⟨hnpairs, rfl, ?_⟩
      linarith
  · rintro ⟨hhead, hpad, fields, hf, hnext, hend⟩
    rcases hop with hop | hop
    · rw [if_pos hop] at hf
      obtain ⟨h12, hbounds, hval, -⟩ := (tableFields_ok_iff hsize _ _).mp hf
      rw [hval] at hnext
      exact .table hop hpad h12 hbounds hnext hend
    · rw [if_neg (hop ▸ hne)] at hf
      obtain ⟨hnpairs, hval, -⟩ := (lookupFields_ok_iff hsize _ _).mp hf
      rw [hval] at hnext
      exact .lookup hop hpad hhead hnpairs hnext hend

/-- `Bytecodes::wide_length_for` reads the rewritten table and computes the
distance to the end of it. -/
theorem bytecodeLengthFor_nativeOrder {code : Code} (hsize : code.length < 2 ^ 16) {bci : ℕ}
    (hop : code.getUbyte bci = tableswitch ∨ code.getUbyte bci = lookupswitch) {fields : ℤ}
    (hf : SwitchFields code bci fields) (hend : alignSizeUp (bci + 1) + 4 * fields < code.length) :
    bytecodeLengthFor (nativeOrder code fields.toNat (alignSizeUp (bci + 1))) bci =
      alignSizeUp (bci + 1) + 4 * fields - bci := by
  have ha := alignSizeUp_bounds (bci + 1)
  obtain ⟨hfields, h0, h1⟩ := hf
  have hin : alignSizeUp (bci + 1) + 4 * fields.toNat ≤ code.length := by omega
  have hcode : (nativeOrder code fields.toNat (alignSizeUp (bci + 1))).getUbyte bci =
      code.getUbyte bci := getUbyte_nativeOrder _ _ _ _ hin (by omega)
  set aBci := alignSizeUp (bci + 1)
  simp only [bytecodeLengthFor, hcode]
  rcases hop with hop | hop
  · rw [if_pos hop] at hfields
    obtain ⟨-, hbounds, hval, -⟩ := (tableFields_ok_iff hsize _ _).mp ⟨hfields, h0, h1⟩
    have h1 : 1 < fields.toNat ∧ 2 < fields.toNat := by omega
    have harith : jint (aBci + (3 + code.getJavaInt (aBci + 8) - code.getJavaInt (aBci + 4) + 1) * 4
        - bci) = aBci + 4 * fields - bci := by
      rw [jint_eq (by omega) (by omega)]; omega
    have hlo := getJavaSwitchInt_nativeOrder code fields.toNat aBci 1 hin h1.1
    have hhi := getJavaSwitchInt_nativeOrder code fields.toNat aBci 2 hin h1.2
    simp only [Nat.mul_one, show 4 * 2 = 8 from rfl] at hlo hhi
    rw [hop, lengthFor_tableswitch, if_neg (not_not.mpr rfl)]
    simp only [wideLengthFor, if_true]
    rw [hlo, hhi, harith]
  · have hne : lookupswitch ≠ tableswitch := by decide
    rw [if_neg (hop ▸ hne)] at hfields
    obtain ⟨hnpairs, hval, -⟩ := (lookupFields_ok_iff hsize _ _).mp ⟨hfields, h0, h1⟩
    have h1 : 1 < fields.toNat := by omega
    have harith : jint (aBci + (2 + 2 * code.getJavaInt (aBci + 4)) * 4 - bci) =
        aBci + 4 * fields - bci := by
      rw [jint_eq (by omega) (by omega)]; omega
    have hnp := getJavaSwitchInt_nativeOrder code fields.toNat aBci 1 hin h1
    simp only [Nat.mul_one] at hnp
    rw [hop, lengthFor_lookupswitch, if_neg (not_not.mpr rfl)]
    simp only [wideLengthFor, if_true, if_neg hne]
    rw [hnp, harith]

/-- What an iteration that throws nothing does: a fast instruction, possibly
truncated; a slow one of fixed length, possibly truncated; or a complete
switch that does not end the code. -/
inductive StepCase (s s' : CheckState) : Prop
  | fast (hlt : s.code.getUbyte s.bcptr < tableswitch)
      (hlen : 0 < lengthFor (s.code.getUbyte s.bcptr)) (hcode : s'.code = s.code)
      (hbci : s'.bci = s.bci)
      (hnext : (s'.bcptr : ℤ) = s.bcptr + lengthFor (s.code.getUbyte s.bcptr))
  | slow (hlt : s.bcptr < s'.bcptr) (hcode : s'.code = s.code) (hbci : s'.bci = s'.bcptr)
      (hge : tableswitch ≤ s.code.getUbyte s.bcptr)
      (hinstr : s'.bcptr ≤ s.code.length → InstructionAt s.code s.bcptr s'.bcptr)
      (hnot : ¬ SwitchEndsCode s.code s.bcptr)
  | switch (hlt : s.bcptr < s'.bcptr) (hcode : AgreeFrom s.code s'.code s'.bcptr)
      (hbci : s'.bci = s'.bcptr) (hswitch : SwitchAt s.code s.bcptr s'.bcptr)
      (hend : s'.bcptr < s.code.length)

theorem SwitchAt.getUbyte_eq {code : Code} {bci next : ℕ} (h : SwitchAt code bci next) :
    code.getUbyte bci = tableswitch ∨ code.getUbyte bci = lookupswitch := by
  cases h with
  | table hop => exact .inl hop
  | lookup hop => exact .inr hop

variable {s : CheckState}

/-- `checkCase` on a code that is no switch only sets flags. -/
theorem checkCase_of_ne {code : ℕ} (ht : code ≠ tableswitch) (hl : code ≠ lookupswitch) :
    ∃ s', checkCase s code = .ok s' ∧ s'.code = s.code ∧ s'.bcptr = s.bcptr := by
  unfold checkCase
  split_ifs with h1 h2 h3 h4
  · exact ⟨_, rfl, rfl, rfl⟩
  · exact ⟨_, rfl, rfl, rfl⟩
  · exact ⟨_, rfl, rfl, rfl⟩
  · rcases h4 with h4 | h4 <;> contradiction
  · exact ⟨_, rfl, rfl, rfl⟩

theorem checkCase_switch (s : CheckState) {code : ℕ}
    (hop : code = tableswitch ∨ code = lookupswitch) :
    checkCase s code = match checkSwitch s.code s.bcptr code with
      | .error msg => .error msg
      | .ok rewritten => .ok { s with code := rewritten } := by
  unfold checkCase
  rcases hop with rfl | rfl
  · rw [if_neg (by decide), if_neg (by decide), if_neg (by decide), if_pos (by decide)]
  · rw [if_neg (by decide), if_neg (by decide), if_neg (by decide), if_pos (by decide)]

theorem checkStep_fast (hlt : s.code.getUbyte s.bcptr < tableswitch) : checkStep s =
      if lengthFor (s.code.getUbyte s.bcptr) < 0 then .error .illegalCode
      else .ok { s with bcptr := (s.bcptr + lengthFor (s.code.getUbyte s.bcptr)).toNat } := by
  simp only [checkStep, if_pos hlt]

theorem checkStep_switch
    (hop : s.code.getUbyte s.bcptr = tableswitch ∨ s.code.getUbyte s.bcptr = lookupswitch) :
    checkStep s = match checkSwitch s.code s.bcptr (s.code.getUbyte s.bcptr) with
      | .error msg => .error msg
      | .ok rewritten =>
        if bytecodeLengthFor rewritten s.bcptr = -1 then .error .illegalCode
        else .ok ({ s with code := rewritten }.advance (bytecodeLengthFor rewritten s.bcptr)) := by
  have h : ¬ s.code.getUbyte s.bcptr < tableswitch ∧
      ¬ (s.code.getUbyte s.bcptr ≥ breakpoint ∨ isDefined (s.code.getUbyte s.bcptr) = false) ∧
      s.code.getUbyte s.bcptr ≠ wide := by
    rcases hop with h | h <;> rw [h] <;> decide +kernel
  simp only [checkStep, if_neg h.1, if_neg h.2.1, if_neg h.2.2, checkCase_switch s hop]
  cases checkSwitch s.code s.bcptr (s.code.getUbyte s.bcptr) <;> rfl

theorem checkStep_wide (hop : s.code.getUbyte s.bcptr = wide) : checkStep s =
      if s.bcptr + 1 ≥ s.code.length then .error .illegalCode
      else if isDefined (s.code.getUbyte (s.bcptr + 1)) = false then .error .illegalCode
      else if wideLengthForCode (s.code.getUbyte (s.bcptr + 1)) = 0 then .error .illegalWideCode
      else .ok (s.advance (wideLengthForCode (s.code.getUbyte (s.bcptr + 1)))) := by
  have h : ¬ s.code.getUbyte s.bcptr < tableswitch ∧
      ¬ (s.code.getUbyte s.bcptr ≥ breakpoint ∨ isDefined (s.code.getUbyte s.bcptr) = false) := by
    rw [hop]; decide +kernel
  simp only [checkStep, if_neg h.1, if_neg h.2, if_pos hop]

theorem checkStep_other (hge : tableswitch ≤ s.code.getUbyte s.bcptr)
    (hlt : s.code.getUbyte s.bcptr < breakpoint) (hdef : isDefined (s.code.getUbyte s.bcptr) = true)
    (hw : s.code.getUbyte s.bcptr ≠ wide) (ht : s.code.getUbyte s.bcptr ≠ tableswitch)
    (hl : s.code.getUbyte s.bcptr ≠ lookupswitch) :
    ∃ s', checkStep s = .ok s' ∧ s'.code = s.code ∧ s'.bci = s'.bcptr ∧
      (s'.bcptr : ℤ) = s.bcptr + lengthFor (s.code.getUbyte s.bcptr) := by
  have hpos := lengthFor_pos hlt hdef hw ht hl
  obtain ⟨s₁, hcase, hcode, hptr⟩ := checkCase_of_ne (s := s) ht hl
  have hlen : bytecodeLengthFor s₁.code s₁.bcptr = lengthFor (s.code.getUbyte s.bcptr) := by
    rw [hcode, hptr, bytecodeLengthFor_of_pos hpos]
  refine ⟨s₁.advance (lengthFor (s.code.getUbyte s.bcptr)), ?_, hcode, rfl, ?_⟩
  · have hbad : ¬ (s.code.getUbyte s.bcptr ≥ breakpoint ∨
        isDefined (s.code.getUbyte s.bcptr) = false) := by
      rintro (h | h)
      · omega
      · rw [hdef] at h; cases h
    simp only [checkStep, if_neg (Nat.not_lt.mpr hge), if_neg hbad, if_neg hw, hcase]
    rw [hlen, if_neg (by omega)]
  · simp only [CheckState.advance, hptr]
    omega

variable {s' : CheckState}

/-- **Step lemma**, from the code to the specification: every iteration that
throws nothing is one of the three cases. -/
theorem stepCase_of_checkStep (hsize : s.code.length < 2 ^ 16)
    (h : checkStep s = .ok s') : StepCase s s' := by
  by_cases hfast : s.code.getUbyte s.bcptr < tableswitch
  · rw [checkStep_fast hfast] at h
    have hlen := lengthFor_of_lt_tableswitch hfast
    split_ifs at h with hneg
    cases h
    refine .fast hfast (by omega) rfl rfl ?_
    simp only
    omega
  by_cases hop : s.code.getUbyte s.bcptr = tableswitch ∨ s.code.getUbyte s.bcptr = lookupswitch
  · rw [checkStep_switch hop] at h
    rcases hs : checkSwitch s.code s.bcptr (s.code.getUbyte s.bcptr) with msg | rewritten
    · rw [hs] at h; cases h
    obtain ⟨hhead, hpad, fields, hf, hend, hrew⟩ := (checkSwitch_ok_iff hsize).mp hs
    have hlen := bytecodeLengthFor_nativeOrder hsize hop hf hend
    rw [← hrew] at hlen
    simp only [hs, hlen] at h
    split_ifs at h with hneg
    cases h
    have ha := alignSizeUp_bounds (s.bcptr + 1)
    have h0 := hf.2.1
    have hnext : ((({ s with code := rewritten } : CheckState).advance
        (alignSizeUp (s.bcptr + 1) + 4 * fields - s.bcptr)).bcptr : ℤ) =
        alignSizeUp (s.bcptr + 1) + 4 * fields := by
      simp only [CheckState.advance]; omega
    refine .switch (by omega) ⟨?_, fun i hi => ?_⟩ rfl
      ((switchAt_iff hsize hop).mpr ⟨hhead, hpad, fields, hf, hnext, by omega⟩) (by omega)
    · simp only [CheckState.advance, hrew, length_nativeOrder]
    · simp only [CheckState.advance, hrew]
      exact getUbyte_nativeOrder _ _ _ _ (by omega) (by omega)
  have hnot : ∀ next, ¬ SwitchAt s.code s.bcptr next := fun next hs => hop hs.getUbyte_eq
  by_cases hw : s.code.getUbyte s.bcptr = wide
  · rw [checkStep_wide hw] at h
    split_ifs at h with h1 h2 h3
    cases h
    have hpos : 0 < wideLengthForCode (s.code.getUbyte (s.bcptr + 1)) := Nat.pos_of_ne_zero h3
    refine .slow ?_ rfl rfl (Nat.not_lt.mp hfast) (fun hle => ?_) (hnot _)
    · simp only [CheckState.advance]; omega
    · refine .wide hw ((Bool.not_eq_false _).mp h2) hpos ?_ hle
      simp only [CheckState.advance]; omega
  · by_cases hbad : s.code.getUbyte s.bcptr ≥ breakpoint ∨
        isDefined (s.code.getUbyte s.bcptr) = false
    · simp only [checkStep, if_neg hfast, if_pos hbad] at h
      cases h
    · have hlt : s.code.getUbyte s.bcptr < breakpoint := by omega
      have hdef : isDefined (s.code.getUbyte s.bcptr) = true := by
        cases hd : isDefined (s.code.getUbyte s.bcptr) with
        | true => rfl
        | false => exact absurd (.inr hd) hbad
      have hne : s.code.getUbyte s.bcptr ≠ tableswitch ∧ s.code.getUbyte s.bcptr ≠ lookupswitch :=
        not_or.mp hop
      have hpos := lengthFor_pos hlt hdef hw hne.1 hne.2
      obtain ⟨s₁, hs₁, hcode, hbci, hnext⟩ :=
        checkStep_other (Nat.not_lt.mp hfast) hlt hdef hw hne.1 hne.2
      rw [hs₁] at h
      cases h
      exact .slow (by omega) hcode hbci (Nat.not_lt.mp hfast)
        (fun hle => .simple hlt hpos hnext hle) (hnot _)

/-- **Step lemma**, from the specification to the code: a complete instruction
is passed, unless it is a switch that ends the code. -/
theorem checkStep_of_instructionAt (hsize : s.code.length < 2 ^ 16) {next : ℕ}
    (h : InstructionAt s.code s.bcptr next) (hnot : ¬ SwitchEndsCode s.code s.bcptr) :
    ∃ s', checkStep s = .ok s' ∧ s'.bcptr = next := by
  cases h with
  | simple hlt hlen hnext hend =>
    by_cases hfast : s.code.getUbyte s.bcptr < tableswitch
    · rw [checkStep_fast hfast, if_neg (by omega)]
      exact ⟨_, rfl, by simp only; omega⟩
    · have hne : ∀ c, lengthFor c = 0 → s.code.getUbyte s.bcptr ≠ c := by
        rintro c hc rfl; omega
      obtain ⟨s', hs', -, -, hptr⟩ := checkStep_other (Nat.not_lt.mp hfast) hlt
        (isDefined_of_lengthFor_pos hlt hlen) (hne _ lengthFor_wide) (hne _ lengthFor_tableswitch)
        (hne _ lengthFor_lookupswitch)
      exact ⟨s', hs', by omega⟩
  | wide hop hdef hlen hnext hend =>
    have hlen4 : ∀ c < 256, 0 < wideLengthForCode c → 2 ≤ wideLengthForCode c := by decide +kernel
    have h2 := hlen4 _ (s.code.getUbyte_lt _) hlen
    rw [checkStep_wide hop, if_neg (by omega), if_neg (by rw [hdef]; decide), if_neg (by omega)]
    refine ⟨_, rfl, ?_⟩
    simp only [CheckState.advance]
    omega
  | switch hs =>
    have hop := hs.getUbyte_eq
    obtain ⟨hhead, hpad, fields, hf, hnext, hend⟩ := (switchAt_iff hsize hop).mp hs
    have hlt : next < s.code.length := by
      rcases Nat.lt_or_ge next s.code.length with hlt | hge
      · exact hlt
      · rw [Nat.le_antisymm hend hge] at hs
        exact absurd hs hnot
    have ha := alignSizeUp_bounds (s.bcptr + 1)
    have h0 := hf.2.1
    have hok := (checkSwitch_ok_iff hsize).mpr ⟨hhead, hpad, fields, hf, by omega, rfl⟩
    rw [checkStep_switch hop, hok]
    simp only
    rw [bytecodeLengthFor_nativeOrder hsize hop hf (by omega), if_neg (by omega)]
    refine ⟨_, rfl, ?_⟩
    simp only [CheckState.advance]
    omega

/-! ## The loop -/

theorem StepCase.length_eq (h : StepCase s s') : s'.code.length = s.code.length := by
  cases h with
  | fast _ _ hcode => rw [hcode]
  | slow _ hcode => rw [hcode]
  | switch _ hcode => exact hcode.length_eq

/-- A property of states that an iteration preserves holds where the loop
ends. -/
theorem checkLoop_invariant {P : CheckState → Prop}
    (hstep : ∀ s s', P s → s.bcptr < s.code.length → checkStep s = .ok s' → P s')
    {fuel : ℕ} (hs : P s) (h : checkLoop fuel s = .ok s') : P s' := by
  induction fuel generalizing s with
  | zero => cases h; exact hs
  | succ fuel ih =>
    simp only [checkLoop] at h
    split_ifs at h with hlt
    · rcases hc : checkStep s with msg | s₁
      · rw [hc] at h; cases h
      · rw [hc] at h
        exact ih (hstep s s₁ hs hlt hc) h
    · cases h; exact hs

theorem length_checkLoop {fuel : ℕ} (hsize : s.code.length < 2 ^ 16)
    (h : checkLoop fuel s = .ok s') : s'.code.length = s.code.length := by
  refine checkLoop_invariant (P := fun t => t.code.length = s.code.length) ?_ rfl h
  intro t t' ht _ hc
  exact (stepCase_of_checkStep (ht ▸ hsize) hc).length_eq.trans ht

/-- From `bci` on the scan finds nothing to refuse: `Tiles`, except that the
last instruction may be a truncated fast one and that no switch ends the
code. -/
inductive Scans (code : Code) : ℕ → Prop
  | done : Scans code code.length
  | truncated {bci : ℕ} (h : TruncatedSimple code bci) : Scans code bci
  | step {bci next : ℕ} (h : InstructionAt code bci next) (hnot : ¬ SwitchEndsCode code bci)
      (rest : Scans code next) : Scans code bci

/-- An instruction starts inside the code and ends after its start. -/
theorem InstructionAt.bounds {code : Code} {bci next : ℕ} (h : InstructionAt code bci next) :
    bci < next ∧ next ≤ code.length := by
  cases h with
  | simple _ hlen hnext hend => omega
  | wide _ _ hlen hnext hend => omega
  | switch hs =>
    have ha := alignSizeUp_bounds (bci + 1)
    cases hs with
    | table _ _ hhead hbounds hnext hend => exact ⟨by omega, hend⟩
    | lookup _ _ hhead hnpairs hnext hend => exact ⟨by omega, hend⟩

theorem InstructionAt.unique {code : Code} {bci next next' : ℕ}
    (h : InstructionAt code bci next) (h' : InstructionAt code bci next') : next = next' := by
  have hwide := lengthFor_wide
  have htable := lengthFor_tableswitch
  have hlookup := lengthFor_lookupswitch
  have hne : tableswitch ≠ lookupswitch ∧ Bytecodes.wide ≠ tableswitch ∧
      Bytecodes.wide ≠ lookupswitch := by decide
  -- the code at `bci` decides which constructor applies
  cases h with
  | simple _ hlen hnext =>
    cases h' with
    | simple _ _ hnext' => omega
    | wide hop => rw [hop] at hlen; omega
    | switch hs => rcases hs.getUbyte_eq with hop | hop <;> rw [hop] at hlen <;> omega
  | wide hop _ _ hnext =>
    cases h' with
    | simple _ hlen => rw [hop] at hlen; omega
    | wide _ _ _ hnext' => omega
    | switch hs => rcases hs.getUbyte_eq with hop' | hop' <;> omega
  | switch hs =>
    cases h' with
    | simple _ hlen => rcases hs.getUbyte_eq with hop | hop <;> rw [hop] at hlen <;> omega
    | wide hop => rcases hs.getUbyte_eq with hop' | hop' <;> omega
    | switch hs' =>
      cases hs with
      | table hop _ _ _ hnext =>
        cases hs' with
        | table _ _ _ _ hnext' => rw [← hnext'] at hnext; exact_mod_cast hnext
        | lookup hop' => omega
      | lookup hop _ _ _ hnext =>
        cases hs' with
        | table hop' => omega
        | lookup _ _ _ _ hnext' => rw [← hnext'] at hnext; exact_mod_cast hnext

theorem TruncatedSimple.not_instructionAt {code : Code} {bci next : ℕ}
    (h : TruncatedSimple code bci) : ¬ InstructionAt code bci next := by
  obtain ⟨-, hlt, hlen, htrunc⟩ := h
  have hge : tableswitch < lookupswitch ∧ tableswitch < wide := by decide
  intro hi
  cases hi with
  | simple _ _ hnext hend => omega
  | wide hop => omega
  | switch hs => rcases hs.getUbyte_eq with hop | hop <;> omega

/-- **Run lemma**: the loop from a state at `bcptr`, with the final test, passes
iff the original code scans from there. -/
theorem checkLoop_ok_iff {code : Code} (hsize : code.length < 2 ^ 16) (fuel : ℕ) (s : CheckState)
    (hagree : AgreeFrom code s.code s.bcptr) (hbci : s.bci ≤ s.bcptr)
    (hle : s.bcptr ≤ code.length) (hfuel : code.length ≤ s.bcptr + fuel) :
    (∃ s', checkLoop fuel s = .ok s' ∧ s'.bci ≤ code.length) ↔ Scans code s.bcptr := by
  have hend : ∀ t : CheckState, code.length ≤ t.bcptr → t.code.length = code.length →
      ∀ n, checkLoop n t = .ok t := by
    intro t ht hlen n
    cases n with
    | zero => rfl
    | succ n => rw [checkLoop, if_neg (by omega)]
  induction fuel generalizing s with
  | zero =>
    rw [show s.bcptr = code.length by omega]
    exact ⟨fun _ => .done, fun _ => ⟨s, rfl, by omega⟩⟩
  | succ fuel ih =>
    have hlen := hagree.length_eq
    rcases Nat.lt_or_ge s.bcptr code.length with hlt | hge
    · have hloop : checkLoop (fuel + 1) s = match checkStep s with
          | .error msg => .error msg
          | .ok t => checkLoop fuel t := by
        rw [checkLoop, if_pos (by omega)]
      rw [hloop]
      constructor
      · rintro ⟨s', hs', hfin⟩
        rcases hc : checkStep s with msg | t
        · rw [hc] at hs'; cases hs'
        rw [hc] at hs'
        simp only at hs'
        cases stepCase_of_checkStep (hlen ▸ hsize) hc with
        | fast hfast hpos hcode hb hnext =>
          have hop := hagree.getUbyte_eq s.bcptr le_rfl
          rw [hop] at hfast hpos hnext
          rcases Nat.lt_or_ge code.length t.bcptr with hover | hin
          · exact .truncated ⟨hlt, hfast, hpos, by omega⟩
          · have hi : InstructionAt code s.bcptr t.bcptr :=
              .simple (hfast.trans (by decide)) hpos hnext hin
            have hns : ¬ SwitchEndsCode code s.bcptr := by
              intro hs
              have hop' := hs.getUbyte_eq
              have : tableswitch < lookupswitch := by decide
              omega
            refine .step hi hns ((ih t ?_ (by omega) hin (by omega)).mp ⟨s', hs', hfin⟩)
            rw [hcode]; exact hagree.mono (by omega)
        | slow hadv hcode hb hge' hinstr hns =>
          rcases Nat.lt_or_ge code.length t.bcptr with hover | hin
          · rw [hend t hover.le (by rw [hcode, hlen])] at hs'
            cases hs'
            omega
          · refine .step (hagree.symm.instructionAt (hinstr (by omega))) ?_
              ((ih t ?_ (by omega) hin (by omega)).mp ⟨s', hs', hfin⟩)
            · intro hs
              refine hns ?_
              unfold SwitchEndsCode
              rw [hlen]
              exact hagree.switchAt hs
            · rw [hcode]; exact hagree.mono hadv.le
        | switch hadv hcode hb hs hshort =>
          have hi := hagree.symm.instructionAt (.switch hs)
          refine .step hi (fun hs' => ?_) ((ih t ((hagree.mono hadv.le).trans hcode) (by omega)
            (by omega) (by omega)).mp ⟨s', hs', hfin⟩)
          have := hi.unique (.switch hs')
          omega
      · intro hscan
        generalize hbcptr : s.bcptr = bcptr at hscan
        cases hscan with
        | done => omega
        | truncated htr =>
          subst hbcptr
          obtain ⟨-, hfast, hpos, htrunc⟩ := htr
          rw [← hagree.getUbyte_eq s.bcptr le_rfl] at hfast hpos htrunc
          rw [checkStep_fast hfast, if_neg (by omega)]
          set t : CheckState :=
            { s with bcptr := (s.bcptr + lengthFor (s.code.getUbyte s.bcptr)).toNat } with ht
          have hover : code.length ≤ t.bcptr := by simp only [ht]; omega
          have hbci' : t.bci ≤ code.length := by simp only [ht]; omega
          exact ⟨t, hend t hover hlen fuel, hbci'⟩
        | step hi hns hrest =>
          subst hbcptr
          have hi' := hagree.instructionAt hi
          obtain ⟨t, ht, hptr⟩ := checkStep_of_instructionAt (hlen ▸ hsize) hi' (by
            unfold SwitchEndsCode
            rw [hlen]
            exact fun hs => hns (hagree.symm.switchAt hs))
          have hcase := stepCase_of_checkStep (hlen ▸ hsize) ht
          have hb := hi.bounds
          rw [ht]
          refine (ih t ?_ ?_ (by omega) (by omega)).mpr (hptr ▸ hrest)
          · cases hcase with
            | fast _ _ hcode => rw [hcode]; exact hagree.mono (by omega)
            | slow _ hcode => rw [hcode]; exact hagree.mono (by omega)
            | switch hadv hcode => exact (hagree.mono hadv.le).trans hcode
          · cases hcase with
            | fast _ _ _ hbci' => omega
            | slow _ _ hbci' => omega
            | switch _ _ hbci' => omega
    · rw [hend s hge hlen]
      rw [show s.bcptr = code.length by omega]
      exact ⟨fun _ => .done, fun _ => ⟨s, rfl, by omega⟩⟩

/-! ## `check_bytecodes` -/

/-- What `check_bytecodes` reads and writes of a method. The sizes are `u2`
fields of the method. -/
structure Method where
  isNativeOrAbstract : Bool
  code : Code
  maxExecutionStackCount : ℕ
  hasMonitorBytecodes : Bool
  hasInvokeBytecodes : Bool
  codeSize_lt : code.length < 2 ^ 16
  stackCount_lt : maxExecutionStackCount < 2 ^ 16

/-- What a call of `check_bytecodes` throws. -/
inductive Thrown
  | classFormatError (msg : ErrorMsgTag)
  | outOfMemoryError
deriving DecidableEq, Repr

/-- `(BytesPerWord + StackLock::size()) / sizeof(jobject)`. -/
def wordsPerLock : ℕ := (4 + 24) / 4

theorem length_scanBytecodes {code : Code} (hsize : code.length < 2 ^ 16)
    (h : scanBytecodes code = .ok s) : s.code.length = code.length := by
  unfold scanBytecodes at h
  rcases hl : checkLoop code.length ⟨code, 0, 0, false, false, 0⟩ with msg | t
  · rw [hl] at h; cases h
  · rw [hl] at h
    simp only at h
    split_ifs at h
    cases h
    exact length_checkLoop hsize hl

/-- `Method::check_bytecodes`: the method it leaves, or what it throws. -/
def checkBytecodes (m : Method) : Except Thrown Method :=
  if m.isNativeOrAbstract then .ok m
  else
    match h : scanBytecodes m.code with
    | .error msg => .error (.classFormatError msg)
    | .ok s =>
      let hlen := (length_scanBytecodes m.codeSize_lt h).trans_lt m.codeSize_lt
      let invokes := m.hasInvokeBytecodes || s.hasInvokeBytecodes
      if s.hasMonitorBytecodes then
        if hfit : s.numlocks * wordsPerLock + m.maxExecutionStackCount > 0xffff then
          .error .outOfMemoryError
        else
          .ok ⟨m.isNativeOrAbstract, s.code, s.numlocks * wordsPerLock + m.maxExecutionStackCount,
            true, invokes, hlen, by omega⟩
      else .ok ⟨m.isNativeOrAbstract, s.code, m.maxExecutionStackCount, m.hasMonitorBytecodes,
        invokes, hlen, m.stackCount_lt⟩

/-- The code array of `m` is accepted: no `ClassFormatError` is thrown. (The
`OutOfMemoryError` for too many monitors is about the frame size, not about
the array.) -/
def Accepts (m : Method) : Prop := ∀ msg, checkBytecodes m ≠ .error (.classFormatError msg)

theorem scanBytecodes_ok_iff {code : Code} (hsize : code.length < 2 ^ 16) :
    (∃ s, scanBytecodes code = .ok s) ↔ Scans code 0 := by
  rw [← checkLoop_ok_iff hsize code.length ⟨code, 0, 0, false, false, 0⟩ (AgreeFrom.refl code 0)
    le_rfl (Nat.zero_le _) (by simp)]
  unfold scanBytecodes
  rcases checkLoop code.length ⟨code, 0, 0, false, false, 0⟩ with msg | t
  · simp
  · simp only [Except.ok.injEq, exists_eq_left']
    by_cases hb : t.bci > code.length
    · rw [if_pos hb]
      constructor
      · rintro ⟨s, hs⟩; cases hs
      · intro h; omega
    · rw [if_neg hb]
      exact ⟨fun _ => by omega, fun _ => ⟨t, rfl⟩⟩

theorem accepts_iff_scans (m : Method) (hm : m.isNativeOrAbstract = false) :
    Accepts m ↔ Scans m.code 0 := by
  rw [← scanBytecodes_ok_iff m.codeSize_lt]
  unfold Accepts checkBytecodes
  simp only [hm, Bool.false_eq_true, if_false]
  constructor
  · intro h
    split at h
    · rename_i msg _
      exact absurd rfl (h msg)
    · exact ⟨_, ‹_›⟩
  · rintro ⟨s, hs⟩ msg
    split
    · rename_i hs'
      rw [hs] at hs'; cases hs'
    · split_ifs <;> simp

/-- A method whose code `check_bytecodes` examines. -/
abbrev JavaMethod := { m : Method // m.isNativeOrAbstract = false }

/-- The scan passes from a boundary iff it passes from there, and so does the
decomposition: both go through every boundary. -/
theorem Boundary.tiles_iff {code : Code} {bci : ℕ} (h : Boundary code bci) :
    Tiles code 0 ↔ Tiles code bci := by
  induction h with
  | zero => rfl
  | step _ hi ih =>
    rw [ih]
    constructor
    · intro ht
      cases ht with
      | done => have := hi.bounds; omega
      | step hi' rest => rwa [hi.unique hi']
    · exact fun ht => .step hi ht

theorem SwitchEndsCode.not_scans {code : Code} {bci : ℕ} (h : SwitchEndsCode code bci) :
    ¬ Scans code bci := by
  intro hs
  have hi : InstructionAt code bci code.length := .switch h
  cases hs with
  | done => have := hi.bounds; omega
  | truncated htr => exact htr.not_instructionAt hi
  | step _ hnot => exact hnot h

theorem TruncatedSimple.not_tiles {code : Code} {bci : ℕ} (h : TruncatedSimple code bci) :
    ¬ Tiles code bci := by
  intro ht
  cases ht with
  | done => have := h.1; omega
  | step hi _ => exact h.not_instructionAt hi

/-- A scan that passes the boundaries up to `bci` comes to `bci`. -/
theorem Boundary.scans {code : Code} {bci : ℕ} (h : Boundary code bci) (hlt : bci < code.length)
    (hs : Scans code bci) : Scans code 0 := by
  induction h with
  | zero => exact hs
  | @step b next _ hi ih =>
    refine ih (hi.bounds.1.trans hlt) (.step hi (fun hsw => ?_) hs)
    have := hi.unique (.switch hsw)
    omega

theorem Boundary.scans_of_zero {code : Code} {bci : ℕ} (h : Boundary code bci)
    (hs : Scans code 0) : Scans code bci := by
  induction h with
  | zero => exact hs
  | step _ hi ih =>
    cases ih with
    | done => have := hi.bounds; omega
    | truncated htr => exact absurd hi htr.not_instructionAt
    | step hi' _ rest => rwa [hi.unique hi']

/-- **Main theorem.** `check_bytecodes` accepts exactly the code arrays that
decompose into instructions, iff no instruction boundary has one of the two
defects. -/
theorem accepts_iff_tiles_iff (m : JavaMethod) :
    (Accepts m.1 ↔ Tiles m.1.code 0) ↔
      ¬ ∃ bci, Boundary m.1.code bci ∧
        (TruncatedSimple m.1.code bci ∨ SwitchEndsCode m.1.code bci) := by
  rw [accepts_iff_scans m.1 m.2]
  constructor
  · rintro hiff ⟨bci, hb, htr | hsw⟩
    · exact htr.not_tiles (hb.tiles_iff.mp (hiff.mp (hb.scans htr.1 (.truncated htr))))
    · exact hsw.not_scans (hb.scans_of_zero
        (hiff.mpr (hb.tiles_iff.mpr (.step (.switch hsw) .done))))
  · intro hno
    have hnone : ∀ bci, Boundary m.1.code bci → ¬ TruncatedSimple m.1.code bci ∧
        ¬ SwitchEndsCode m.1.code bci := fun bci hb =>
      ⟨fun h => hno ⟨bci, hb, .inl h⟩, fun h => hno ⟨bci, hb, .inr h⟩⟩
    constructor
    · suffices h : ∀ bci, Scans m.1.code bci → Boundary m.1.code bci → Tiles m.1.code bci from
        fun hs => h 0 hs .zero
      intro bci hs
      induction hs with
      | done => exact fun _ => .done
      | truncated htr => exact fun hb => absurd htr (hnone _ hb).1
      | step hi _ _ ih => exact fun hb => .step hi (ih (.step hb hi))
    · suffices h : ∀ bci, Tiles m.1.code bci → Boundary m.1.code bci → Scans m.1.code bci from
        fun ht => h 0 ht .zero
      intro bci ht
      induction ht with
      | done => exact fun _ => .done
      | step hi _ ih => exact fun hb => .step hi (hnone _ hb).2 (ih (.step hb hi))

/-- A method whose code is a `bipush` without its operand byte. -/
def bareBipush : JavaMethod :=
  ⟨⟨false, [0x10], 1, false, false, by decide, by decide⟩, rfl⟩

/-- A method whose code is a `lookupswitch` without pairs. -/
def emptyLookupswitch : JavaMethod :=
  ⟨⟨false, [0xab, 0, 0, 0, 0, 0, 0, 0, 0, 0, 0, 0], 1, false, false, by decide, by decide⟩, rfl⟩

theorem emptyLookupswitch_endsCode : SwitchEndsCode emptyLookupswitch.1.code 0 := by
  have halign : alignSizeUp (0 + 1) = 4 := by decide +kernel
  refine .lookup (by decide +kernel) (fun offset h0 h1 => ?_) (by decide +kernel)
    (by decide +kernel) (by decide +kernel) (by decide +kernel)
  rw [halign] at h1
  interval_cases offset <;> decide +kernel

/-- The truncated instruction is accepted, the complete switch is refused. -/
theorem accepts_tiles_disagree :
    ¬ (Accepts bareBipush.1 ↔ Tiles bareBipush.1.code 0) ∧
      ¬ (Accepts emptyLookupswitch.1 ↔ Tiles emptyLookupswitch.1.code 0) := by
  constructor
  · have htr : TruncatedSimple bareBipush.1.code 0 := by decide +kernel
    intro h
    exact htr.not_tiles (h.mp ((accepts_iff_scans _ rfl).mpr (.truncated htr)))
  · have hsw := emptyLookupswitch_endsCode
    intro h
    exact hsw.not_scans ((accepts_iff_scans _ rfl).mp (h.mpr (.step (.switch hsw) .done)))

end CldcVm.Handles
