import Mathlib.Tactic.NormNum
import Mathlib.Data.Rat.Floor
import Mathlib.Data.Int.Log
import FactorProofs.Library.Rounding

namespace FactorProofs.Math

/-- A Factor float is a boxed IEEE 754 binary64 value; `double>bits` and
`bits>double` are bit casts, so the model keeps the bit pattern. -/
abbrev Double := UInt64

def signBit (x : Double) : Bool := decide (2 ^ 63 ≤ x.toNat)

def exponentField (x : Double) : Nat := x.toNat / 2 ^ 52 % 2 ^ 11

def fractionField (x : Double) : Nat := x.toNat % 2 ^ 52

def fpNan (x : Double) : Bool := exponentField x == 2047 && fractionField x != 0

def fpZero (x : Double) : Bool := exponentField x == 0 && fractionField x == 0

/-- The integer significand of a finite double, with the implicit bit of a
normal number. -/
def finiteSignificand (x : Double) : Nat :=
  if exponentField x = 0 then fractionField x else fractionField x + 2 ^ 52

/-- The exponent of the last place of a finite double. -/
def finiteExponent (x : Double) : Int :=
  ((if exponentField x = 0 then 1 else exponentField x : Nat) : Int) - 1075

/-- The value of a double whose exponent field is not all ones. -/
def finiteValue (x : Double) : ℚ :=
  let magnitude : ℚ := finiteSignificand x * 2 ^ finiteExponent x
  if signBit x then -magnitude else magnitude

/-- `frexp` on a finite double: `(0, 0)` for a zero, and otherwise the
significand with the sign of `x` and `1/2 ≤ |significand| < 1`, and the exponent
that scales it back to the value. -/
def frexp (x : Double) : ℚ × Int :=
  let m := finiteSignificand x
  if m = 0 then (0, 0)
  else
    let bits := Nat.log2 m + 1
    ((if signBit x then -(m : ℚ) else m) / 2 ^ bits, finiteExponent x + bits)

/-- `primitive_float_eq` compares with C++ `==` on doubles: NaN is unordered,
and the two zeros compare equal. -/
def floatEq (x y : Double) : Bool :=
  !fpNan x && !fpNan y && (x == y || (fpZero x && fpZero y))

/-- `m / 2 ^ s` rounded to nearest, ties to even. -/
def roundShift (m s : Nat) : Nat :=
  if 2 * (m % 2 ^ s) < 2 ^ s then m / 2 ^ s
  else if 2 ^ s < 2 * (m % 2 ^ s) then m / 2 ^ s + 1
  else if m / 2 ^ s % 2 = 0 then m / 2 ^ s else m / 2 ^ s + 1

/-- The single-precision pattern of `r * 2 ^ u` for a rounded significand
`r ≤ 2 ^ 24`, where `u ≥ -149` is the exponent of the last place. -/
def encodeSingle (sign r : Nat) (u : Int) : Nat :=
  if r < 2 ^ 23 then sign + r
  else
    let r' := if r = 2 ^ 24 then 2 ^ 23 else r
    let biased := (if r = 2 ^ 24 then u + 1 else u) + 150
    if 255 ≤ biased then sign + 0x7f800000
    else sign + biased.toNat * 2 ^ 23 + (r' - 2 ^ 23)

/-- The C cast `(float)x` under the default rounding mode: round to
nearest even, overflow to infinity; a NaN stays quiet and keeps the high bits
of its payload, as the x86 conversion does. -/
def doubleToSingle (x : Double) : UInt32 :=
  let sign := if signBit x then 2 ^ 31 else 0
  let ex := exponentField x
  let fr := fractionField x
  if ex = 2047 then
    if fr = 0 then UInt32.ofNat (sign + 0x7f800000)
    else UInt32.ofNat (sign + 0x7f800000 + (fr / 2 ^ 29 ||| 2 ^ 22))
  else
    let m := if ex = 0 then fr else fr + 2 ^ 52
    let e : Int := (if ex = 0 then 1 else ex : Nat) - 1075
    if m = 0 then UInt32.ofNat sign
    else
      let u : Int := max (Nat.log2 m + e - 23) (-149)
      let r := if u ≤ e then m * 2 ^ (e - u).toNat else roundShift m (u - e).toNat
      UInt32.ofNat (encodeSingle sign r u)

/-- The double-precision pattern of `r * 2 ^ u` for a rounded significand
`r ≤ 2 ^ 53`, where `u ≥ -1074` is the exponent of the last place. -/
def encodeDouble (sign r : Nat) (u : Int) : Nat :=
  if r < 2 ^ 52 then sign + r
  else
    let r' := if r = 2 ^ 53 then 2 ^ 52 else r
    let biased := (if r = 2 ^ 53 then u + 1 else u) + 1075
    if 2047 ≤ biased then sign + 0x7ff0000000000000
    else sign + biased.toNat * 2 ^ 52 + (r' - 2 ^ 52)

/-- The double IEEE 754 division or conversion gives for `(-1)^neg * q`,
`q ≥ 0`, rounding to nearest with ties to even: the last place of the binade
of `q` (the subnormal one at the least) is `2 ^ u`, and `q / 2 ^ u` is rounded
to an integer significand. -/
def roundToDouble (neg : Bool) (q : ℚ) : Double :=
  let sign := if neg then 2 ^ 63 else 0
  if q = 0 then UInt64.ofNat sign
  else
    let u : Int := max (Int.log 2 q - 52) (-1074)
    UInt64.ofNat (encodeDouble sign (Rounding.roundHalfEven (q / 2 ^ u)) u)

/-- `neg` on a float, `-1 *`, flips the sign bit of every value but a NaN. -/
def floatNeg (x : Double) : Double := x ^^^ 0x8000000000000000

/-- `fp-infinity?` -/
def fpInfinity (x : Double) : Bool := exponentField x == 2047 && fractionField x == 0

/-- The quiet NaN that SSE arithmetic returns for an invalid operation. -/
def defaultNan : Double := 0xfff8000000000000

/-- A NaN operand of an SSE operation comes back quiet. -/
def quietNan (x : Double) : Double := x ||| 0x0008000000000000

def signedInfinity (neg : Bool) : Double := if neg then 0xfff0000000000000 else 0x7ff0000000000000

def signedZero (neg : Bool) : Double := if neg then 0x8000000000000000 else 0

/-- `float/f` (`primitive_float_divfloat`, C++ `/` on doubles): IEEE 754
division rounded to nearest even, with the NaNs of SSE `divsd`. -/
def floatDivF (x y : Double) : Double :=
  let neg := signBit x ^^ signBit y
  if fpNan x then quietNan x
  else if fpNan y then quietNan y
  else if fpInfinity x then (if fpInfinity y then defaultNan else signedInfinity neg)
  else if fpInfinity y then signedZero neg
  else if finiteValue y = 0 then (if finiteValue x = 0 then defaultNan else signedInfinity neg)
  else roundToDouble neg |finiteValue x / finiteValue y|

/-- `float+` (`primitive_float_add`): IEEE 754 addition rounded to nearest
even; an exact zero sum is negative only for two negative zeros. -/
def floatAdd (x y : Double) : Double :=
  if fpNan x then quietNan x
  else if fpNan y then quietNan y
  else if fpInfinity x then (if fpInfinity y && signBit x != signBit y then defaultNan else x)
  else if fpInfinity y then y
  else
    let s := finiteValue x + finiteValue y
    if s = 0 then signedZero (signBit x && signBit y)
    else roundToDouble (decide (s < 0)) |s|

/-- `float>bits` (`primitive_float_bits`): the 32-bit pattern of the value
converted to single precision, as a non-negative integer. -/
def floatBits (x : Double) : Int := (doubleToSingle x).toNat

/-- `double>bits` (`primitive_double_bits`). -/
def doubleBits (x : Double) : Int := x.toNat

example : doubleToSingle 0x3ff0000000000000 = 0x3f800000 := by decide
example : doubleToSingle 0x3fb999999999999a = 0x3dcccccd := by decide
example : doubleToSingle 0x7fefffffffffffff = 0x7f800000 := by decide
example : doubleToSingle 0x36a0000000000000 = 0x00000001 := by decide

theorem fpZero_iff (x : Double) : fpZero x = true ↔ x = 0 ∨ x = 0x8000000000000000 := by
  have hx := x.toNat_lt
  simp only [fpZero, exponentField, fractionField, Bool.and_eq_true, beq_iff_eq]
  constructor
  · rintro ⟨h1, h2⟩
    have : x.toNat = 0 ∨ x.toNat = 2 ^ 63 := by omega
    rcases this with h | h
    · exact .inl (UInt64.toNat_inj.mp (by simpa using h))
    · exact .inr (UInt64.toNat_inj.mp (by simpa using h))
  · rintro (rfl | rfl) <;> decide

section Encoding

theorem encodeDouble_sign (sign r : Nat) (u : Int) : encodeDouble sign r u = sign + encodeDouble 0 r u := by
  unfold encodeDouble
  dsimp only
  split_ifs <;> omega

theorem encodeDouble_lt (r : Nat) (u : Int) (hr : r ≤ 2 ^ 53) : encodeDouble 0 r u < 2 ^ 63 := by
  unfold encodeDouble
  dsimp only
  split_ifs <;> omega

theorem floatNeg_ofNat {a : Nat} (ha : a < 2 ^ 63) : floatNeg (UInt64.ofNat a) = UInt64.ofNat (2 ^ 63 + a) := by
  apply UInt64.toNat_inj.mp
  rw [floatNeg, UInt64.toNat_xor, UInt64.toNat_ofNat', UInt64.toNat_ofNat', Nat.mod_eq_of_lt (by omega),
    Nat.mod_eq_of_lt (by omega)]
  show a ^^^ 2 ^ 63 = 2 ^ 63 + a
  apply Nat.eq_of_testBit_eq
  intro i
  have hsum : 2 ^ 63 + a = 2 ^ 63 * 2 ^ 0 + a := by rw [Nat.pow_zero, Nat.mul_one]
  rw [Nat.testBit_xor, hsum, Nat.testBit_two_pow_mul_add _ ha, Nat.testBit_two_pow, Nat.testBit_two_pow]
  split_ifs with hi
  · simp [show 63 ≠ i by omega]
  · have hbit : a.testBit i = false :=
      Nat.testBit_lt_two_pow (lt_of_lt_of_le ha (Nat.pow_le_pow_right (by norm_num) (by omega)))
    rw [hbit, Bool.false_xor]
    exact decide_eq_decide.mpr (by omega)

theorem div_zpow_lt_two_pow {q : ℚ} (hq : 0 < q) : q / 2 ^ max (Int.log 2 q - 52) (-1074) < 2 ^ 53 := by
  have hlt : q < 2 ^ (Int.log 2 q + 1) := by
    simpa using Int.lt_zpow_succ_log_self (R := ℚ) (by norm_num : 1 < 2) q
  rw [div_lt_iff₀ (zpow_pos two_pos _)]
  calc q < 2 ^ (Int.log 2 q + 1) := hlt
    _ ≤ 2 ^ ((53 : ℤ) + max (Int.log 2 q - 52) (-1074)) := zpow_le_zpow_right₀ (by norm_num) (by omega)
    _ = 2 ^ 53 * 2 ^ max (Int.log 2 q - 52) (-1074) := by rw [zpow_add₀ two_ne_zero]; norm_cast

theorem roundHalfEven_significand_le {q : ℚ} (hq : 0 < q) :
    Rounding.roundHalfEven (q / 2 ^ max (Int.log 2 q - 52) (-1074)) ≤ 2 ^ 53 :=
  Rounding.roundHalfEven_le_of_lt (div_nonneg hq.le (zpow_pos two_pos _).le)
    (by exact_mod_cast div_zpow_lt_two_pow hq)

theorem roundToDouble_true {q : ℚ} (hq : 0 ≤ q) : roundToDouble true q = floatNeg (roundToDouble false q) := by
  unfold roundToDouble
  rcases hq.lt_or_eq with hpos | hzero
  · simp only [if_neg hpos.ne', if_true, Bool.false_eq_true, if_false]
    rw [encodeDouble_sign, floatNeg_ofNat (encodeDouble_lt _ _ (roundHalfEven_significand_le hpos))]
  · simp only [← hzero, if_true, Bool.false_eq_true, if_false]
    rw [floatNeg_ofNat (by norm_num), Nat.add_zero]

end Encoding

section Frexp

variable {x : Double}

theorem abs_finiteValue (x : Double) :
    |finiteValue x| = finiteSignificand x * 2 ^ finiteExponent x := by
  have hnonneg : (0 : ℚ) ≤ finiteSignificand x * 2 ^ finiteExponent x :=
    mul_nonneg (Nat.cast_nonneg _) (zpow_pos two_pos _).le
  unfold finiteValue
  split
  · rw [abs_neg, abs_of_nonneg hnonneg]
  · rw [abs_of_nonneg hnonneg]

theorem finiteValue_lt_zero_iff (x : Double) :
    finiteValue x < 0 ↔ signBit x = true ∧ finiteSignificand x ≠ 0 := by
  have hpow : (0 : ℚ) < 2 ^ finiteExponent x := zpow_pos two_pos _
  unfold finiteValue
  cases signBit x
  · simp only [Bool.false_eq_true, if_false, false_and, iff_false, not_lt]
    exact mul_nonneg (Nat.cast_nonneg _) hpow.le
  · simp only [if_true, true_and, neg_lt_zero]
    rw [mul_pos_iff_of_pos_right hpow, Nat.cast_pos]
    exact Nat.pos_iff_ne_zero

theorem frexp_of_eq_zero (hm : finiteSignificand x = 0) : frexp x = (0, 0) := if_pos hm

theorem abs_frexp_fst (hm : finiteSignificand x ≠ 0) :
    |(frexp x).1| = finiteSignificand x / 2 ^ (Nat.log2 (finiteSignificand x) + 1) := by
  simp only [frexp, if_neg hm]
  split <;> simp [abs_div]

theorem frexp_snd (hm : finiteSignificand x ≠ 0) :
    (frexp x).2 = finiteExponent x + (Nat.log2 (finiteSignificand x) + 1 : Nat) := by
  simp only [frexp, if_neg hm]

theorem abs_frexp_fst_mul_zpow (x : Double) : |(frexp x).1| * 2 ^ (frexp x).2 = |finiteValue x| := by
  rw [abs_finiteValue]
  by_cases hm : finiteSignificand x = 0
  · simp [frexp_of_eq_zero hm, hm]
  rw [abs_frexp_fst hm, frexp_snd hm, zpow_add₀ two_ne_zero, zpow_natCast]
  field_simp

theorem half_le_abs_frexp_fst (hm : finiteSignificand x ≠ 0) : 1 / 2 ≤ |(frexp x).1| := by
  have hle : (2 ^ Nat.log2 (finiteSignificand x) : ℚ) ≤ finiteSignificand x := by
    exact_mod_cast Nat.log2_self_le hm
  rw [abs_frexp_fst hm, le_div_iff₀ (by positivity), pow_succ]
  linarith

theorem abs_frexp_fst_lt_one (x : Double) : |(frexp x).1| < 1 := by
  by_cases hm : finiteSignificand x = 0
  · simp [frexp_of_eq_zero hm]
  have hlt : (finiteSignificand x : ℚ) < 2 ^ (Nat.log2 (finiteSignificand x) + 1) := by
    exact_mod_cast Nat.lt_log2_self
  rw [abs_frexp_fst hm, div_lt_one (by positivity)]
  exact hlt

end Frexp

/-- Truncation towards zero, the C conversion of a double to an integer. -/
def truncate (q : ℚ) : Int := if q < 0 then -(⌊-q⌋₊ : Int) else ⌊q⌋₊

theorem natAbs_truncate (q : ℚ) : (truncate q).natAbs = ⌊|q|⌋₊ := by
  unfold truncate
  split
  · rename_i hneg
    rw [abs_of_neg hneg, Int.natAbs_neg, Int.natAbs_natCast]
  · rename_i hnonneg
    rw [abs_of_nonneg (not_lt.mp hnonneg), Int.natAbs_natCast]

theorem truncate_lt_zero_iff {q : ℚ} (hq : 1 ≤ |q|) : truncate q < 0 ↔ q < 0 := by
  unfold truncate
  split
  · rename_i hneg
    have hfloor : 0 < ⌊-q⌋₊ := Nat.floor_pos.mpr (by rwa [abs_of_neg hneg] at hq)
    simp only [hneg, iff_true, Left.neg_neg_iff, Nat.cast_pos]
    exact hfloor
  · rename_i hnonneg
    simp only [hnonneg, iff_false, not_lt]
    exact Nat.cast_nonneg _

theorem floatEq_symm (x y : Double) : floatEq x y = floatEq y x := by
  simp only [floatEq]
  cases fpNan x <;> cases fpNan y <;> cases fpZero x <;> cases fpZero y <;>
    simp [eq_comm]

theorem eq_of_floatEq {x y : Double} (h : floatEq x y = true) :
    x = y ∨ (fpZero x = true ∧ fpZero y = true) := by
  simp only [floatEq, Bool.and_eq_true, Bool.or_eq_true, beq_iff_eq] at h
  exact h.2

end FactorProofs.Math
