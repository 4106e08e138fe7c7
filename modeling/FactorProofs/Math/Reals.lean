import Mathlib.Order.WithBot
import FactorProofs.Math.FloatDivision

namespace FactorProofs.Math

/-- A point of the extended rational line, where a number that is not a NaN
takes its value. -/
inductive Value
  | negInf
  | num (q : ℚ)
  | posInf
  deriving DecidableEq

namespace Value

def toExt : Value → WithBot (WithTop ℚ)
  | negInf => ⊥
  | num q => ((q : WithTop ℚ) : WithBot (WithTop ℚ))
  | posInf => ((⊤ : WithTop ℚ) : WithBot (WithTop ℚ))

theorem toExt_injective : Function.Injective toExt := by
  intro a b h
  cases a <;> cases b <;> simp_all [toExt]

instance : LinearOrder Value := LinearOrder.lift' toExt toExt_injective

theorem le_iff_toExt {a b : Value} : a ≤ b ↔ a.toExt ≤ b.toExt := Iff.rfl

theorem lt_iff_toExt {a b : Value} : a < b ↔ a.toExt < b.toExt := Iff.rfl

@[simp] theorem num_le_num {p q : ℚ} : num p ≤ num q ↔ p ≤ q := by
  simp [le_iff_toExt, toExt]

@[simp] theorem num_lt_num {p q : ℚ} : num p < num q ↔ p < q := by
  simp [lt_iff_toExt, toExt]

@[simp] theorem negInf_le (a : Value) : negInf ≤ a := by
  simp [le_iff_toExt, toExt]

@[simp] theorem le_posInf (a : Value) : a ≤ posInf := by
  rw [le_iff_toExt]
  cases a <;> simp [toExt]

@[simp] theorem negInf_lt_num (q : ℚ) : negInf < num q := by
  simp [lt_iff_toExt, toExt]

@[simp] theorem num_lt_posInf (q : ℚ) : num q < posInf := by
  rw [lt_iff_toExt]
  exact WithBot.coe_lt_coe.mpr (WithTop.coe_lt_top q)

@[simp] theorem not_posInf_le_num (q : ℚ) : ¬ posInf ≤ num q := not_le.mpr (num_lt_posInf q)

@[simp] theorem not_num_le_negInf (q : ℚ) : ¬ num q ≤ negInf := not_le.mpr (negInf_lt_num q)

end Value

/-- The value of a double: an infinity, or the rational of a finite pattern,
both zeros giving `0`. The comparisons test for a NaN before they read it. -/
def doubleValue (x : Double) : Value :=
  if fpInfinity x then (if signBit x then .negInf else .posInf) else .num (finiteValue x)

/-- `float<` (`primitive_float_less`, C++ `<` on doubles): false when either
operand is a NaN, and otherwise the order of the two values. -/
def floatLt (x y : Double) : Bool := !fpNan x && !fpNan y && decide (doubleValue x < doubleValue y)

/-- `float<=` (`primitive_float_lesseq`) -/
def floatLe (x y : Double) : Bool := !fpNan x && !fpNan y && decide (doubleValue x ≤ doubleValue y)

/-- A real of Factor's number tower: an integer, fixnum and bignum alike, a
ratio, which `/` always leaves in lowest terms with a denominator other than
one, or a float. -/
inductive Num
  | int (n : ℤ)
  | ratio (q : ℚ) (hden : q.den ≠ 1)
  | float (x : Double)
  deriving DecidableEq

namespace Num

def isFloat : Num → Bool
  | int _ => false
  | ratio _ _ => false
  | float _ => true

/-- The rational an integer or a ratio stands for; only the exact methods read it. -/
def rat : Num → ℚ
  | int n => n
  | ratio q _ => q
  | float x => finiteValue x

/-- `>float`: `fixnum>float` or `bignum>float` on an integer, `>fraction /f`
on a ratio. -/
def toFloat : Num → Double
  | int n => integerToFloat n
  | ratio q _ => integerDivF q.num q.den
  | float x => x

/-- The dispatch of a `MATH:` generic on two reals: when either is a float
the other goes through `>float` and the float method runs; otherwise the
integer and ratio methods compare exactly (`ratio <` cross-multiplies). -/
def mathCombine (onFloat : Double → Double → Bool) (onExact : ℚ → ℚ → Bool) (a b : Num) : Bool :=
  if a.isFloat || b.isFloat then onFloat a.toFloat b.toFloat else onExact a.rat b.rat

/-- `<` -/
def lt : Num → Num → Bool := mathCombine floatLt fun p q => decide (p < q)

/-- `<=` -/
def le : Num → Num → Bool := mathCombine floatLe fun p q => decide (p ≤ q)

/-- `>`: `float>` and the exact `>` are `<` on the swapped operands. -/
def gt (a b : Num) : Bool := lt b a

/-- `>=` -/
def ge (a b : Num) : Bool := le b a

/-- `number=`: `float=` after promotion, exact equality otherwise. -/
def numberEq : Num → Num → Bool := mathCombine floatEq fun p q => decide (p = q)

/-- `=` on two reals, by their `equal?` methods: a float equals only a float,
by `float=`, an integer only an integer and a ratio only a ratio. -/
def equal : Num → Num → Bool
  | int m, int n => decide (m = n)
  | ratio p _, ratio q _ => decide (p = q)
  | float x, float y => floatEq x y
  | int _, ratio _ _ | int _, float _ | ratio _ _, int _ | ratio _ _, float _
  | float _, int _ | float _, ratio _ _ => false

/-- A real that is not a NaN. -/
def ordinary : Num → Bool
  | int _ => true
  | ratio _ _ => true
  | float x => !fpNan x

/-- The point of the extended line a real stands for. -/
def value : Num → Value
  | int n => .num n
  | ratio q _ => .num q
  | float x => doubleValue x

end Num

/-- `-1/0.` -/
def negInfinity : Num := .float (signedInfinity true)

/-- `1/0.` -/
def posInfinity : Num := .float (signedInfinity false)

@[simp] theorem value_negInfinity : negInfinity.value = .negInf := by decide

@[simp] theorem value_posInfinity : posInfinity.value = .posInf := by decide

section Decoding

variable {x y : Double}

/-- A double's magnitude in units of the least subnormal, `2 ^ -1074`. -/
def finiteUnits (x : Double) : ℕ :=
  finiteSignificand x * 2 ^ ((if exponentField x = 0 then 1 else exponentField x) - 1)

theorem abs_finiteValue_eq_units (x : Double) : |finiteValue x| = finiteUnits x / 2 ^ 1074 := by
  have hE : 1 ≤ (if exponentField x = 0 then 1 else exponentField x) := by split <;> omega
  have hexp : finiteExponent x = (((if exponentField x = 0 then 1 else exponentField x) - 1 : ℕ) : ℤ) - 1074 := by
    unfold finiteExponent
    omega
  rw [abs_finiteValue, hexp, zpow_sub₀ two_ne_zero, zpow_natCast, zpow_ofNat, finiteUnits]
  push_cast
  exact (mul_div_assoc _ _ _).symm

theorem fractionField_lt (x : Double) : fractionField x < 2 ^ 52 := Nat.mod_lt _ (by decide)

theorem finiteUnits_of_exponentField_eq_zero (hE : exponentField x = 0) : finiteUnits x = fractionField x := by
  simp [finiteUnits, finiteSignificand, hE]

theorem finiteUnits_mem_binade (hE : exponentField x ≠ 0) :
    2 ^ (exponentField x + 51) ≤ finiteUnits x ∧ finiteUnits x < 2 ^ (exponentField x + 52) := by
  obtain ⟨e, he⟩ : ∃ e, exponentField x = e + 1 := ⟨exponentField x - 1, by omega⟩
  have hunits : finiteUnits x = (fractionField x + 2 ^ 52) * 2 ^ e := by
    simp only [finiteUnits, finiteSignificand, he, Nat.add_one_ne_zero, if_false, Nat.add_sub_cancel]
  have hF := fractionField_lt x
  rw [hunits, he, show e + 1 + 51 = 52 + e by omega, show e + 1 + 52 = 53 + e by omega, pow_add, pow_add]
  constructor
  · exact Nat.mul_le_mul_right _ (Nat.le_add_left _ _)
  · exact Nat.mul_lt_mul_of_pos_right (by omega) (Nat.two_pow_pos e)

theorem finiteUnits_lt_of_exponentField_eq_zero (hE : exponentField x = 0) (hE' : exponentField y ≠ 0) :
    finiteUnits x < finiteUnits y := by
  rw [finiteUnits_of_exponentField_eq_zero hE]
  calc fractionField x < 2 ^ 52 := fractionField_lt x
    _ ≤ 2 ^ (exponentField y + 51) := Nat.pow_le_pow_right (by decide) (by omega)
    _ ≤ finiteUnits y := (finiteUnits_mem_binade hE').1

theorem finiteUnits_lt_of_exponentField_lt (hE : exponentField x ≠ 0) (hlt : exponentField x < exponentField y) :
    finiteUnits x < finiteUnits y := by
  calc finiteUnits x < 2 ^ (exponentField x + 52) := (finiteUnits_mem_binade hE).2
    _ ≤ 2 ^ (exponentField y + 51) := Nat.pow_le_pow_right (by decide) (by omega)
    _ ≤ finiteUnits y := (finiteUnits_mem_binade (by omega)).1

theorem fields_eq_of_finiteUnits_eq (h : finiteUnits x = finiteUnits y) :
    exponentField x = exponentField y ∧ fractionField x = fractionField y := by
  have hexp : exponentField x = exponentField y := by
    by_contra hne
    rcases Nat.lt_or_gt_of_ne hne with hlt | hlt
    · by_cases hx : exponentField x = 0
      · exact absurd h (finiteUnits_lt_of_exponentField_eq_zero hx (by omega)).ne
      · exact absurd h (finiteUnits_lt_of_exponentField_lt hx hlt).ne
    · by_cases hy : exponentField y = 0
      · exact absurd h (finiteUnits_lt_of_exponentField_eq_zero hy (by omega)).ne'
      · exact absurd h (finiteUnits_lt_of_exponentField_lt hy hlt).ne'
  refine ⟨hexp, ?_⟩
  by_cases hx : exponentField x = 0
  · rwa [finiteUnits_of_exponentField_eq_zero hx, finiteUnits_of_exponentField_eq_zero (hexp ▸ hx)] at h
  · simp only [finiteUnits, finiteSignificand, if_neg (hexp ▸ hx : exponentField y ≠ 0), hexp] at h
    have := Nat.eq_of_mul_eq_mul_right (Nat.two_pow_pos _) h
    omega

theorem toNat_eq_fields (x : Double) :
    x.toNat = (if signBit x then 2 ^ 63 else 0) + exponentField x * 2 ^ 52 + fractionField x := by
  have hx := x.toNat_lt
  unfold signBit exponentField fractionField
  split <;> rename_i h <;> simp only [decide_eq_true_eq] at h <;> omega

theorem eq_of_fields_eq (hs : signBit x = signBit y) (he : exponentField x = exponentField y)
    (hf : fractionField x = fractionField y) : x = y := by
  apply UInt64.toNat_inj.mp
  rw [toNat_eq_fields x, toNat_eq_fields y, hs, he, hf]

theorem finiteSignificand_eq_zero_iff : finiteSignificand x = 0 ↔ fpZero x = true := by
  simp only [finiteSignificand, fpZero, Bool.and_eq_true, beq_iff_eq]
  split <;> omega

theorem finiteValue_eq_zero_iff : finiteValue x = 0 ↔ fpZero x = true := by
  rw [← abs_eq_zero, abs_finiteValue, mul_eq_zero, Nat.cast_eq_zero, ← finiteSignificand_eq_zero_iff]
  simp [zpow_ne_zero]

theorem eq_of_finiteValue_eq (h : finiteValue x = finiteValue y) (hx : fpZero x = false) : x = y := by
  have hsig : signBit x = signBit y := by
    have hneg := finiteValue_lt_zero_iff x
    have hneg' := finiteValue_lt_zero_iff y
    have hy : fpZero y = false := by
      rw [Bool.eq_false_iff, ne_eq, ← finiteValue_eq_zero_iff, ← h, finiteValue_eq_zero_iff]
      simp [hx]
    simp only [ne_eq, finiteSignificand_eq_zero_iff] at hneg hneg'
    rw [h, hneg', hy, hx] at hneg
    simpa using hneg.symm
  have hunits : finiteUnits x = finiteUnits y := by
    have habs := congrArg abs h
    rw [abs_finiteValue_eq_units, abs_finiteValue_eq_units, div_left_inj' (by positivity)] at habs
    exact_mod_cast habs
  obtain ⟨he, hf⟩ := fields_eq_of_finiteUnits_eq hunits
  exact eq_of_fields_eq hsig he hf

theorem eq_of_fpInfinity (hx : fpInfinity x = true) (hy : fpInfinity y = true) (hs : signBit x = signBit y) :
    x = y := by
  simp only [fpInfinity, Bool.and_eq_true, beq_iff_eq] at hx hy
  exact eq_of_fields_eq hs (hx.1.trans hy.1.symm) (hx.2.trans hy.2.symm)

theorem fpZero_not_fpInfinity (hx : fpZero x = true) : fpInfinity x = false := by
  simp only [fpZero, fpInfinity, Bool.and_eq_true, beq_iff_eq] at *
  simp [hx.1]

theorem floatEq_eq_decide (hx : fpNan x = false) (hy : fpNan y = false) :
    floatEq x y = decide (doubleValue x = doubleValue y) := by
  rw [Bool.eq_iff_iff, decide_eq_true_iff]
  unfold doubleValue
  constructor
  · intro h
    rcases eq_of_floatEq h with rfl | ⟨hx0, hy0⟩
    · rfl
    · rw [fpZero_not_fpInfinity hx0, fpZero_not_fpInfinity hy0, if_neg (by simp), if_neg (by simp),
        finiteValue_eq_zero_iff.mpr hx0, finiteValue_eq_zero_iff.mpr hy0]
  · intro h
    simp only [floatEq, hx, hy, Bool.not_false, Bool.true_and, Bool.or_eq_true, beq_iff_eq, Bool.and_eq_true]
    by_cases hix : fpInfinity x = true <;> by_cases hiy : fpInfinity y = true
    · -- two infinities are equal when their signs are
      rw [if_pos hix, if_pos hiy] at h
      left
      refine eq_of_fpInfinity hix hiy ?_
      revert h
      cases signBit x <;> cases signBit y <;> simp
    · rw [if_pos hix, if_neg hiy] at h
      split at h <;> cases h
    · rw [if_neg hix, if_pos hiy] at h
      split at h <;> cases h
    · rw [if_neg hix, if_neg hiy, Value.num.injEq] at h
      cases hzero : fpZero x
      · exact .inl (eq_of_finiteValue_eq h hzero)
      · refine .inr ⟨rfl, ?_⟩
        rw [← finiteValue_eq_zero_iff, ← h, finiteValue_eq_zero_iff, hzero]

end Decoding

namespace Num

variable {a b : Num} (ha : a.ordinary = true) (hb : b.ordinary = true) (hk : a.isFloat = b.isFloat)
include ha hb hk

theorem mathCombine_iff {R : Value → Value → Prop} {f : Double → Double → Bool} {g : ℚ → ℚ → Bool}
    (hf : ∀ x y, fpNan x = false → fpNan y = false → (f x y = true ↔ R (doubleValue x) (doubleValue y)))
    (hg : ∀ p q, g p q = true ↔ R (.num p) (.num q)) :
    mathCombine f g a b = true ↔ R a.value b.value := by
  cases a <;> cases b <;> simp_all [mathCombine, isFloat, ordinary, value, rat, toFloat]

theorem lt_iff : a.lt b = true ↔ a.value < b.value :=
  mathCombine_iff ha hb hk (fun x y hx hy => by simp [floatLt, hx, hy]) fun p q => by simp

theorem le_iff : a.le b = true ↔ a.value ≤ b.value :=
  mathCombine_iff ha hb hk (fun x y hx hy => by simp [floatLe, hx, hy]) fun p q => by simp

theorem numberEq_iff : a.numberEq b = true ↔ a.value = b.value :=
  mathCombine_iff ha hb hk (fun x y hx hy => by simp [floatEq_eq_decide hx hy]) fun p q => by simp

theorem equal_iff : a.equal b = true ↔ a.value = b.value := by
  cases a with
  | int m =>
    cases b with
    | int n => simp [equal, value]
    | ratio q hq =>
      have hne : (m : ℚ) ≠ q := fun h => hq (h ▸ Rat.den_intCast m)
      simp [equal, value, hne]
    | float y => simp [isFloat] at hk
  | ratio p hp =>
    cases b with
    | int n =>
      have hne : p ≠ (n : ℚ) := fun h => hp (h ▸ Rat.den_intCast n)
      simp [equal, value, hne]
    | ratio q hq => simp [equal, value]
    | float y => simp [isFloat] at hk
  | float x =>
    cases b with
    | float y => simp_all [equal, value, ordinary, floatEq_eq_decide]
    | _ => simp [isFloat] at hk

end Num

theorem Num.equal_infinity_iff {a : Num} (ha : a.ordinary = true) (neg : Bool) :
    a.equal (.float (signedInfinity neg)) = true ↔ a.value = (if neg then .negInf else .posInf) := by
  have hinf : doubleValue (signedInfinity neg) = if neg then .negInf else .posInf := by
    cases neg <;> decide
  cases a with
  | float x =>
    simp only [Num.ordinary, Bool.not_eq_true'] at ha
    rw [Num.equal, floatEq_eq_decide ha (by cases neg <;> decide), Num.value, hinf, decide_eq_true_iff]
  | int n => cases neg <;> simp [Num.equal, Num.value]
  | ratio q _ => cases neg <;> simp [Num.equal, Num.value]

end FactorProofs.Math
