import Mathlib.Tactic

/-!
# The bytecode table and the code array of a method

`Bytecodes::data` (`interpreter/Bytecodes.cpp`, lines 74–347) for the default
build (`ENABLE_FLOAT`, no `ENABLE_JAVA_STACK_TAGS`, no `ENABLE_CPU_VARIANT`),
the accessors of `handles/Method.hpp` that read a code array, and the 32-bit
integers they return. The host is little-endian, so
`Bytes::is_Java_byte_ordering_different()` holds, and
`ENABLE_NATIVE_ORDER_REWRITING` is on.

Of a table entry only the two lengths are kept: the format strings and the
remaining flag bits are not read by any function modelled here.
-/

namespace CldcVm

/-! ## 32-bit and 64-bit integers -/

/-- The `jint` an expression of exact value `x` evaluates to: the
representative of `x` modulo `2^32` in `[−2^31, 2^31)`. -/
@[irreducible] def jint (x : ℤ) : ℤ := (x + 2 ^ 31) % 2 ^ 32 - 2 ^ 31

theorem jint_eq {x : ℤ} (h0 : -2 ^ 31 ≤ x) (h1 : x < 2 ^ 31) : jint x = x := by
  unfold jint; omega

theorem jint_bounds (x : ℤ) : -2 ^ 31 ≤ jint x ∧ jint x < 2 ^ 31 := by
  unfold jint; omega

/-- The `jlong` an expression of exact value `x` evaluates to. -/
def jlong (x : ℤ) : ℤ := (x + 2 ^ 63) % 2 ^ 64 - 2 ^ 63

theorem jlong_eq {x : ℤ} (h0 : -2 ^ 63 ≤ x) (h1 : x < 2 ^ 63) : jlong x = x := by
  rw [jlong]
  omega

/-- `align_size_up(size, 4)` (`utilities/GlobalDefinitions.hpp`, line 757) on a
non-negative `size`. -/
@[irreducible] def alignSizeUp (size : ℕ) : ℕ := (size + 3) / 4 * 4

theorem alignSizeUp_bounds (size : ℕ) : size ≤ alignSizeUp size ∧ alignSizeUp size ≤ size + 3 := by
  unfold alignSizeUp; omega

/-! ## Reading a code array -/

/-- The bytes of a code array. -/
abbrev Code := List UInt8

namespace Code

/-- `get_ubyte(bci)`, `bytecode_at_raw(bci)`. A position past the end reads
`0`; no function below reads there (`wideLengthFor` is the exception: it
may, and its callers bound the length they get). -/
@[irreducible] def getUbyte (code : Code) (bci : ℕ) : ℕ := (code.getD bci 0).toNat

theorem getUbyte_lt (code : Code) (bci : ℕ) : code.getUbyte bci < 256 := by
  unfold getUbyte
  exact UInt8.toNat_lt _

/-- `Bytes::get_native_u4`: little-endian. -/
@[irreducible] def getNativeU4 (code : Code) (bci : ℕ) : ℕ :=
  code.getUbyte bci + 2 ^ 8 * code.getUbyte (bci + 1) + 2 ^ 16 * code.getUbyte (bci + 2) +
    2 ^ 24 * code.getUbyte (bci + 3)

/-- `Bytes::get_Java_u4`: big-endian. -/
@[irreducible] def getJavaU4 (code : Code) (bci : ℕ) : ℕ :=
  2 ^ 24 * code.getUbyte bci + 2 ^ 16 * code.getUbyte (bci + 1) + 2 ^ 8 * code.getUbyte (bci + 2) +
    code.getUbyte (bci + 3)

/-- `get_java_ushort(bci)`: big-endian. -/
@[irreducible] def getJavaUshort (code : Code) (bci : ℕ) : ℕ :=
  2 ^ 8 * code.getUbyte bci + code.getUbyte (bci + 1)

/-- `get_java_short(bci)`. -/
@[irreducible] def getJavaShort (code : Code) (bci : ℕ) : ℤ :=
  let u : ℤ := code.getJavaUshort bci
  if u < 2 ^ 15 then u else u - 2 ^ 16

/-- `get_java_int(bci)`. -/
@[irreducible] def getJavaInt (code : Code) (bci : ℕ) : ℤ := jint (code.getJavaU4 bci)

/-- `get_native_aligned_int(bci)`. -/
@[irreducible] def getNativeAlignedInt (code : Code) (bci : ℕ) : ℤ := jint (code.getNativeU4 bci)

/-- `get_java_switch_int(bci)`: the switch tables have been rewritten to the
native order, so the value is read as it stands. -/
@[irreducible] def getJavaSwitchInt (code : Code) (bci : ℕ) : ℤ := code.getNativeAlignedInt bci

/-- `Bytes::put_native_u4`. -/
def putNativeU4 (code : Code) (bci : ℕ) (x : ℕ) : Code :=
  (((code.set bci (UInt8.ofNat x)).set (bci + 1) (UInt8.ofNat (x / 2 ^ 8))).set (bci + 2)
    (UInt8.ofNat (x / 2 ^ 16))).set (bci + 3) (UInt8.ofNat (x / 2 ^ 24))

@[simp] theorem length_putNativeU4 (code : Code) (bci x : ℕ) :
    (code.putNativeU4 bci x).length = code.length := by
  simp [putNativeU4]

/-- A store to the word at `bci` is read back byte by byte. -/
theorem getUbyte_putNativeU4 (code : Code) {bci : ℕ} (x i : ℕ) (h : bci + 4 ≤ code.length) :
    (code.putNativeU4 bci x).getUbyte i =
      if bci ≤ i ∧ i < bci + 4 then x / 2 ^ (8 * (i - bci)) % 256 else code.getUbyte i := by
  unfold putNativeU4 getUbyte
  simp only [List.getD_eq_getElem?_getD, List.getElem?_set, List.length_set]
  by_cases hi : bci ≤ i ∧ i < bci + 4
  · rw [if_pos hi]
    obtain ⟨k, hk, rfl⟩ : ∃ k, k < 4 ∧ i = bci + k := ⟨i - bci, by omega, by omega⟩
    have h0 : bci < code.length := by omega
    have h1 : bci + 1 < code.length := by omega
    have h2 : bci + 2 < code.length := by omega
    have h3 : bci + 3 < code.length := by omega
    interval_cases k <;> simp [h0, h1, h2, h3]
  · rw [if_neg hi]
    simp only [show ¬ bci + 3 = i by omega, show ¬ bci + 2 = i by omega,
      show ¬ bci + 1 = i by omega, show ¬ bci = i by omega, if_false]

/-- `put_java_ushort(bci, value)`. -/
def putJavaUshort (code : Code) (bci : ℕ) (value : ℕ) : Code :=
  (code.set bci (UInt8.ofNat (value / 2 ^ 8))).set (bci + 1) (UInt8.ofNat value)

@[simp] theorem length_putJavaUshort (code : Code) (bci value : ℕ) :
    (code.putJavaUshort bci value).length = code.length := by
  simp [putJavaUshort]

theorem getUbyte_putJavaUshort_of_ne (code : Code) {bci i : ℕ} (value : ℕ)
    (h : i ≠ bci ∧ i ≠ bci + 1) : (code.putJavaUshort bci value).getUbyte i = code.getUbyte i := by
  unfold putJavaUshort getUbyte
  simp only [List.getD_eq_getElem?_getD, List.getElem?_set]
  rw [if_neg h.2.symm, if_neg h.1.symm]

theorem getJavaUshort_putJavaUshort (code : Code) {bci value : ℕ} (h : bci + 2 ≤ code.length)
    (hvalue : value < 2 ^ 16) : (code.putJavaUshort bci value).getJavaUshort bci = value := by
  have h0 : bci < code.length := by omega
  have h1 : bci + 1 < code.length := by omega
  unfold getJavaUshort putJavaUshort getUbyte
  simp only [List.getD_eq_getElem?_getD, List.getElem?_set, List.length_set]
  simp [h0, h1]
  omega

theorem getUbyte_eq_of_getJavaUshort_eq {code code' : Code} {bci : ℕ}
    (h : code'.getJavaUshort bci = code.getJavaUshort bci) :
    code'.getUbyte bci = code.getUbyte bci ∧
      code'.getUbyte (bci + 1) = code.getUbyte (bci + 1) := by
  have h0 := code.getUbyte_lt (bci + 1)
  have h1 := code'.getUbyte_lt (bci + 1)
  unfold getJavaUshort at h
  omega

end Code

/-- `Bytes::swap_u4`. -/
def swapU4 (x : ℕ) : ℕ :=
  2 ^ 24 * (x % 256) + 2 ^ 16 * (x / 2 ^ 8 % 256) + 2 ^ 8 * (x / 2 ^ 16 % 256) + x / 2 ^ 24 % 256

theorem swapU4_getNativeU4 (code : Code) (bci : ℕ) :
    swapU4 (code.getNativeU4 bci) = code.getJavaU4 bci := by
  have h0 := code.getUbyte_lt bci
  have h1 := code.getUbyte_lt (bci + 1)
  have h2 := code.getUbyte_lt (bci + 2)
  have h3 := code.getUbyte_lt (bci + 3)
  unfold swapU4 Code.getNativeU4 Code.getJavaU4
  omega

/-! ## The bytecode table -/

namespace Bytecodes

/-- One row of `Bytecodes::data`: `_length` and
`_wide_length_and_flags & WideLengthMask`. -/
structure BytecodeData where
  length : ℤ
  wideLength : ℕ
deriving DecidableEq, Repr

/-- `Bytecodes::data`, as runs of consecutive codes with equal lengths. -/
def data : List BytecodeData :=
  [ (16, 1, 0),  -- nop … dconst_1
    (1, 2, 0),   -- bipush
    (1, 3, 0),   -- sipush
    (1, 2, 0),   -- ldc
    (2, 3, 0),   -- ldc_w, ldc2_w
    (5, 2, 4),   -- iload … aload
    (28, 1, 0),  -- iload_0 … saload
    (5, 2, 4),   -- istore … astore
    (73, 1, 0),  -- istore_0 … lxor
    (1, 3, 6),   -- iinc
    (20, 1, 0),  -- i2l … dcmpg
    (15, 3, 0),  -- ifeq … goto
    (1, -1, 0),  -- jsr
    (1, -1, 4),  -- ret
    (2, 0, 0),   -- tableswitch, lookupswitch
    (6, 1, 0),   -- ireturn … return
    (7, 3, 0),   -- getstatic … invokestatic
    (1, 5, 0),   -- invokeinterface
    (1, -1, 0),  -- xxxunusedxxx
    (1, 3, 0),   -- new
    (1, 2, 0),   -- newarray
    (1, 3, 0),   -- anewarray
    (2, 1, 0),   -- arraylength, athrow
    (2, 3, 0),   -- checkcast, instanceof
    (2, 1, 0),   -- monitorenter, monitorexit
    (1, 0, 0),   -- wide
    (1, 4, 0),   -- multianewarray
    (2, 3, 0),   -- ifnull, ifnonnull
    (1, 5, 0),   -- goto_w
    (1, -1, 0),  -- jsr_w
    (1, 1, 0),   -- breakpoint
    (1, 2, 0),   -- fast_1_ldc
    (24, 3, 0),  -- fast_1_ldc_w … fast_invokestatic
    (1, 5, 0),   -- fast_invokeinterface
    (1, 8, 0),   -- fast_invokenative
    (6, 3, 0),   -- fast_invokevirtual_final … fast_instanceof
    (4, 2, 0),   -- fast_igetfield_1 … aload_0_fast_igetfield_1
    (1, 1, 0),   -- pop_and_npe_if_null
    (1, 0, 0),   -- init_static_array
    (4, 1, 0),   -- aload_0_fast_agetfield_4 … aload_0_fast_igetfield_8
    (7, 3, 0)    -- fast_init_1_putstatic … fast_init_new
  ].flatMap fun (n, length, wideLength) => List.replicate n ⟨length, wideLength⟩

/-- `number_of_java_codes`. -/
def numberOfJavaCodes : ℕ := 253

/-- `Bytecodes::length_for(code)`. -/
def lengthFor (code : ℕ) : ℤ := (data.getD code ⟨-1, 0⟩).length

/-- `Bytecodes::is_defined(code)`. -/
def isDefined (code : ℕ) : Bool := code < numberOfJavaCodes && lengthFor code != -1

/-- `Bytecodes::wide_length_for(code)`. -/
def wideLengthForCode (code : ℕ) : ℕ := (data.getD code ⟨-1, 0⟩).wideLength

/-! The codes the functions below name. -/

def tableswitch : ℕ := 0xaa
def lookupswitch : ℕ := 0xab
def invokevirtual : ℕ := 0xb6
def invokespecial : ℕ := 0xb7
def invokestatic : ℕ := 0xb8
def invokeinterface : ℕ := 0xb9
def monitorenter : ℕ := 0xc2
def monitorexit : ℕ := 0xc3
def wide : ℕ := 0xc4
def breakpoint : ℕ := 0xca
def fastInvokenative : ℕ := 0xe5

/-- `Bytecodes::wide_length_for(method, bci, code)` (lines 352–379) for the
Java codes. -/
def wideLengthFor (method : Code) (bci code : ℕ) : ℤ :=
  if code = tableswitch then
    let a_bci := alignSizeUp (bci + 1)
    let lo := method.getJavaSwitchInt (a_bci + 4)
    let hi := method.getJavaSwitchInt (a_bci + 8)
    jint (a_bci + (3 + hi - lo + 1) * 4 - bci)
  else if code = lookupswitch then
    let a_bci := alignSizeUp (bci + 1)
    let npairs := method.getJavaSwitchInt (a_bci + 4)
    jint (a_bci + (2 + 2 * npairs) * 4 - bci)
  else if code = wide then wideLengthForCode (method.getUbyte (bci + 1))
  else 0

/-- `Method::bytecode_length_for(bci)`, that is
`Bytecodes::length_for(method, bci)`. -/
def bytecodeLengthFor (method : Code) (bci : ℕ) : ℤ :=
  let code := method.getUbyte bci
  let size := lengthFor code
  if size ≠ 0 then size else wideLengthFor method bci code

/-- `Method::next_bci(bci)`. -/
def nextBci (method : Code) (bci : ℕ) : ℕ := (bci + bytecodeLengthFor method bci).toNat

end Bytecodes

end CldcVm
