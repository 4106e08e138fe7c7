import FactorProofs.Library.Bits
import FactorProofs.Vm.BignumBitwise
import FactorProofs.Vm.BitwiseHacks

namespace FactorProofs.Vm

open FactorProofs.Digits FactorProofs.Bits Bignum

/-! `bignum_arithmetic_shift` and `bignum_magnitude_ash`: a shift count splits
into whole digits and a bit offset below the digit length; the digits move by
the first and the bits carry across digit boundaries by the second. -/

/-- The loop of `bignum_magnitude_ash` for `n > 0`. `carry` is what the
previous digit left in `*scanr`: its bits shifted past the digit length. -/
def ashLeftLoop (bitOffset : Nat) : List Nat → Nat → List Nat
  | [], carry => [carry]
  | digit :: digits, carry =>
    ((carry ||| (digit &&& bignumDigitMask) <<< bitOffset) &&& bignumDigitMask) ::
      ashLeftLoop bitOffset digits ((digit >>> (bignumDigitLength - bitOffset)) &&& bignumDigitMask)

/-- The loop of `bignum_magnitude_ash` for `n < 0`, from the first digit kept:
each digit takes its top bits from the next, and the last is shifted alone. -/
def ashRightLoop (bitOffset : Nat) : List Nat → List Nat
  | [] => []
  | [digit] => [(digit &&& bignumDigitMask) >>> bitOffset]
  | digit :: next :: digits =>
    ((((digit &&& bignumDigitMask) >>> bitOffset) ||| next <<< (bignumDigitLength - bitOffset)) &&&
        bignumDigitMask) :: ashRightLoop bitOffset (next :: digits)

/-- `bignum_magnitude_ash`: the magnitude shifted, the sign kept. A right
shift past every digit gives the cached zero. -/
def bignumMagnitudeAsh (arg1 : Bignum) (n : Int) : Bignum :=
  if arg1.digits = [] then arg1
  else if 0 < n then
    let digitOffset := n.toNat / bignumDigitLength
    let bitOffset := n.toNat % bignumDigitLength
    bignumTrim ⟨arg1.negativeP, List.replicate digitOffset 0 ++ ashLeftLoop bitOffset arg1.digits 0⟩
  else if n < 0 ∧ arg1.digits.length * bignumDigitLength ≤ (-n).toNat then bignumTrim bignumZero
  else if n < 0 then
    let digitOffset := (-n).toNat / bignumDigitLength
    let bitOffset := (-n).toNat % bignumDigitLength
    bignumTrim ⟨arg1.negativeP, ashRightLoop bitOffset (arg1.digits.drop digitOffset)⟩
  else bignumTrim arg1

/-- `bignum_arithmetic_shift`: a negative bignum shifted right goes through
`bignum_bitwise_not` on both sides, so that the result rounds down. -/
def bignumArithmeticShift (arg1 : Bignum) (n : Int) : Bignum :=
  if arg1.negativeP ∧ n < 0 then bignumBitwiseNot (bignumMagnitudeAsh (bignumBitwiseNot arg1) n)
  else bignumMagnitudeAsh arg1 n

section Loops

variable {bitOffset : Nat}

theorem digitMask_eq : bignumDigitMask = 2 ^ bignumDigitLength - 1 := rfl

theorem and_digitMask (d : Nat) : d &&& bignumDigitMask = d % bignumRadix := by
  rw [digitMask_eq, Nat.and_two_pow_sub_one_eq_mod]
  rfl

theorem length_ashLeftLoop (digits : List Nat) (carry : Nat) :
    (ashLeftLoop bitOffset digits carry).length = digits.length + 1 := by
  induction digits generalizing carry with
  | nil => rfl
  | cons digit digits ih => simp [ashLeftLoop, ih]

theorem ashLeftLoop_spec (hbit : bitOffset < bignumDigitLength) {digits : List Nat} :
    ∀ {carry : Nat}, (∀ d ∈ digits, d < bignumRadix) → carry < 2 ^ bitOffset →
      (∀ d ∈ ashLeftLoop bitOffset digits carry, d < bignumRadix) ∧
        Nat.ofDigits bignumRadix (ashLeftLoop bitOffset digits carry) =
          Nat.ofDigits bignumRadix digits * 2 ^ bitOffset + carry := by
  have hle : bitOffset ≤ bignumDigitLength := hbit.le
  have hcarry_lt : 2 ^ bitOffset < bignumRadix := Nat.pow_lt_pow_right (by decide) hbit
  induction digits with
  | nil =>
    intro carry _ hc
    simp only [ashLeftLoop, List.mem_singleton, forall_eq, Nat.ofDigits_singleton, Nat.ofDigits_nil,
      Nat.zero_mul, Nat.zero_add]
    exact ⟨hc.trans hcarry_lt, trivial⟩
  | cons digit digits ih =>
    intro carry hdigits hc
    have hd : digit < bignumRadix := hdigits digit List.mem_cons_self
    have hlow : (carry ||| (digit &&& bignumDigitMask) <<< bitOffset) &&& bignumDigitMask =
        digit % 2 ^ (bignumDigitLength - bitOffset) * 2 ^ bitOffset + carry := by
      rw [and_digitMask, and_digitMask, Nat.mod_eq_of_lt hd, Nat.or_comm,
        ← Nat.shiftLeft_add_eq_or_of_lt hc, Nat.shiftLeft_eq]
      exact mul_add_mod hle digit hc
    have hhigh : (digit >>> (bignumDigitLength - bitOffset)) &&& bignumDigitMask =
        digit / 2 ^ (bignumDigitLength - bitOffset) := by
      rw [and_digitMask, Nat.shiftRight_eq_div_pow]
      exact Nat.mod_eq_of_lt ((div_lt_two_pow hle hd).trans hcarry_lt)
    have hnext := ih (fun d hd => hdigits d (List.mem_cons_of_mem _ hd)) (div_lt_two_pow hle hd)
    rw [ashLeftLoop, hlow, hhigh]
    refine ⟨?_, ?_⟩
    · simp only [List.mem_cons, forall_eq_or_imp]
      refine ⟨?_, hnext.1⟩
      have := mul_add_mod hle digit hc
      rw [← this]
      exact Nat.mod_lt _ (Nat.two_pow_pos _)
    · have hsplit := mod_mul_add_div hle digit
      rw [Nat.ofDigits_cons, Nat.ofDigits_cons, hnext.2]
      simp only [bignumRadix] at hsplit ⊢
      calc digit % 2 ^ (bignumDigitLength - bitOffset) * 2 ^ bitOffset + carry +
            2 ^ bignumDigitLength * (Nat.ofDigits (2 ^ bignumDigitLength) digits * 2 ^ bitOffset +
              digit / 2 ^ (bignumDigitLength - bitOffset))
          = (digit % 2 ^ (bignumDigitLength - bitOffset) * 2 ^ bitOffset +
              2 ^ bignumDigitLength * (digit / 2 ^ (bignumDigitLength - bitOffset))) +
            2 ^ bignumDigitLength * Nat.ofDigits (2 ^ bignumDigitLength) digits * 2 ^ bitOffset + carry := by
            ring
        _ = (digit + 2 ^ bignumDigitLength * Nat.ofDigits (2 ^ bignumDigitLength) digits) * 2 ^ bitOffset +
            carry := by
            rw [hsplit]
            ring

theorem length_ashRightLoop (digits : List Nat) :
    (ashRightLoop bitOffset digits).length = digits.length := by
  fun_induction ashRightLoop bitOffset digits <;> simp_all

theorem ashRightLoop_spec (hbit : bitOffset < bignumDigitLength) {digits : List Nat}
    (hdigits : ∀ d ∈ digits, d < bignumRadix) :
    (∀ d ∈ ashRightLoop bitOffset digits, d < bignumRadix) ∧
      Nat.ofDigits bignumRadix (ashRightLoop bitOffset digits) =
        Nat.ofDigits bignumRadix digits / 2 ^ bitOffset := by
  have hle : bitOffset ≤ bignumDigitLength := hbit.le
  induction digits using ashRightLoop.induct with
  | case1 => simp [ashRightLoop]
  | case2 digit =>
    have hd : digit < bignumRadix := hdigits digit List.mem_cons_self
    simp only [ashRightLoop, List.mem_singleton, forall_eq, Nat.ofDigits_singleton, and_digitMask,
      Nat.mod_eq_of_lt hd, Nat.shiftRight_eq_div_pow]
    exact ⟨(Nat.div_le_self _ _).trans_lt hd, trivial⟩
  | case3 digit next digits ih =>
    have hd : digit < bignumRadix := hdigits digit List.mem_cons_self
    have hrest := ih fun d hd => hdigits d (List.mem_cons_of_mem _ hd)
    have hlow : digit / 2 ^ bitOffset < 2 ^ (bignumDigitLength - bitOffset) := by
      have := div_lt_two_pow (Nat.sub_le bignumDigitLength bitOffset) hd
      rwa [Nat.sub_sub_self hle] at this
    have hdigit : (((digit &&& bignumDigitMask) >>> bitOffset) |||
          next <<< (bignumDigitLength - bitOffset)) &&& bignumDigitMask =
        digit / 2 ^ bitOffset + next % 2 ^ bitOffset * 2 ^ (bignumDigitLength - bitOffset) := by
      rw [and_digitMask, and_digitMask, Nat.mod_eq_of_lt hd, Nat.shiftRight_eq_div_pow, Nat.or_comm,
        ← Nat.shiftLeft_add_eq_or_of_lt hlow, Nat.shiftLeft_eq, Nat.add_comm]
      exact div_add_mul_mod hle hd next
    rw [ashRightLoop, hdigit]
    refine ⟨?_, ?_⟩
    · simp only [List.mem_cons, forall_eq_or_imp]
      refine ⟨?_, fun d hd => hrest.1 d (by simpa using hd)⟩
      rw [← div_add_mul_mod hle hd next]
      exact Nat.mod_lt _ (Nat.two_pow_pos _)
    · -- the top bits of the new digit are the low bits of the value above it
      have hR : bignumRadix = 2 ^ bitOffset * 2 ^ (bignumDigitLength - bitOffset) := by
        rw [Nat.mul_comm]
        exact two_pow_eq_mul hle
      have hnext : Nat.ofDigits bignumRadix (next :: digits) % 2 ^ bitOffset = next % 2 ^ bitOffset := by
        rw [Nat.ofDigits_cons]
        generalize Nat.ofDigits bignumRadix digits = rest
        rw [hR, Nat.mul_assoc, Nat.add_mul_mod_self_left]
      rw [Nat.ofDigits_cons, hrest.2]
      conv_rhs => rw [Nat.ofDigits_cons]
      generalize Nat.ofDigits bignumRadix (next :: digits) = value at hnext ⊢
      unfold bignumRadix
      rw [add_two_pow_mul_div hle, two_pow_mul_eq hle value, hnext, Nat.add_assoc]

end Loops

section Ash

variable {digits : List Nat}

theorem ashLeft_digits_spec (hdigits : ∀ d ∈ digits, d < bignumRadix) (k : Nat) :
    (∀ d ∈ List.replicate (k / bignumDigitLength) 0 ++ ashLeftLoop (k % bignumDigitLength) digits 0,
        d < bignumRadix) ∧
      Nat.ofDigits bignumRadix
          (List.replicate (k / bignumDigitLength) 0 ++ ashLeftLoop (k % bignumDigitLength) digits 0) =
        Nat.ofDigits bignumRadix digits * 2 ^ k := by
  have hbit : k % bignumDigitLength < bignumDigitLength := Nat.mod_lt _ (by decide)
  obtain ⟨hlt, hval⟩ := ashLeftLoop_spec hbit hdigits (Nat.two_pow_pos _)
  refine ⟨?_, ?_⟩
  · intro d hd
    rcases List.mem_append.mp hd with hd | hd
    · rw [List.eq_of_mem_replicate hd]
      exact Nat.zero_lt_of_lt one_lt_bignumRadix
    · exact hlt d hd
  · rw [ofDigits_replicate_zero_append, hval, Nat.add_zero, bignumRadix, ← Nat.pow_mul]
    calc 2 ^ (bignumDigitLength * (k / bignumDigitLength)) *
          (Nat.ofDigits (2 ^ bignumDigitLength) digits * 2 ^ (k % bignumDigitLength))
        = Nat.ofDigits (2 ^ bignumDigitLength) digits *
            (2 ^ (bignumDigitLength * (k / bignumDigitLength)) * 2 ^ (k % bignumDigitLength)) := by
          ring
      _ = Nat.ofDigits (2 ^ bignumDigitLength) digits * 2 ^ k := by
          rw [← Nat.pow_add, Nat.div_add_mod]

theorem ashRight_digits_spec (hdigits : ∀ d ∈ digits, d < bignumRadix) (k : Nat) :
    (∀ d ∈ ashRightLoop (k % bignumDigitLength) (digits.drop (k / bignumDigitLength)), d < bignumRadix) ∧
      Nat.ofDigits bignumRadix (ashRightLoop (k % bignumDigitLength) (digits.drop (k / bignumDigitLength))) =
        Nat.ofDigits bignumRadix digits / 2 ^ k := by
  have hbit : k % bignumDigitLength < bignumDigitLength := Nat.mod_lt _ (by decide)
  have hdrop : ∀ d ∈ digits.drop (k / bignumDigitLength), d < bignumRadix :=
    fun d hd => hdigits d (List.mem_of_mem_drop hd)
  obtain ⟨hlt, hval⟩ := ashRightLoop_spec hbit hdrop
  refine ⟨hlt, ?_⟩
  rw [hval, ← Nat.ofDigits_div_pow_eq_ofDigits_drop _ (Nat.zero_lt_of_lt one_lt_bignumRadix) _ hdigits,
    Nat.div_div_eq_div_mul, bignumRadix, ← Nat.pow_mul, ← Nat.pow_add, Nat.div_add_mod]

theorem ofDigits_div_two_pow_eq_zero (hdigits : ∀ d ∈ digits, d < bignumRadix) {k : Nat}
    (hk : digits.length * bignumDigitLength ≤ k) : Nat.ofDigits bignumRadix digits / 2 ^ k = 0 := by
  apply Nat.div_eq_of_lt
  calc Nat.ofDigits bignumRadix digits
      < bignumRadix ^ digits.length := Nat.ofDigits_lt_base_pow_length one_lt_bignumRadix hdigits
    _ = 2 ^ (digits.length * bignumDigitLength) := by rw [bignumRadix, ← Nat.pow_mul, Nat.mul_comm]
    _ ≤ 2 ^ k := Nat.pow_le_pow_right (by decide) hk

theorem bignumTrim_spec (negativeP : Bool) (hlt : ∀ d ∈ digits, d < bignumRadix) (hne : digits ≠ []) :
    (bignumTrim ⟨negativeP, digits⟩).Canonical ∧
      (bignumTrim ⟨negativeP, digits⟩).toInt =
        if negativeP then -((Nat.ofDigits bignumRadix digits : Nat) : Int)
        else ((Nat.ofDigits bignumRadix digits : Nat) : Int) :=
  ⟨canonical_bignumTrim hlt fun h => absurd h hne, toInt_bignumTrim _⟩

variable {x : Bignum}

theorem bignumMagnitudeAsh_spec (hx : x.Canonical) (n : Int) :
    (bignumMagnitudeAsh x n).Canonical ∧
      (bignumMagnitudeAsh x n).toInt =
        if x.negativeP then -((x.magnitude * 2 ^ n.toNat / 2 ^ (-n).toNat : Nat) : Int)
        else ((x.magnitude * 2 ^ n.toNat / 2 ^ (-n).toNat : Nat) : Int) := by
  dsimp only [bignumMagnitudeAsh]
  by_cases hzero : x.digits = []
  · -- zero has no digits to shift
    have hsign : x.negativeP = false := hx.not_negativeP hzero
    rw [if_pos hzero]
    simp [hx, toInt, magnitude, hzero, hsign]
  rw [if_neg hzero]
  by_cases hpos : 0 < n
  · have hshift : x.magnitude * 2 ^ n.toNat / 2 ^ (-n).toNat = x.magnitude * 2 ^ n.toNat := by
      simp [show (-n).toNat = 0 by omega]
    obtain ⟨hlt, hval⟩ := ashLeft_digits_spec hx.digit_lt n.toNat
    rw [if_pos hpos, hshift, magnitude, ← hval]
    refine bignumTrim_spec _ hlt ?_
    rw [← List.length_pos_iff, List.length_append, length_ashLeftLoop]
    omega
  rw [if_neg hpos]
  by_cases hbig : n < 0 ∧ x.digits.length * bignumDigitLength ≤ (-n).toNat
  · have hshift : x.magnitude * 2 ^ n.toNat / 2 ^ (-n).toNat = 0 := by
      rw [show n.toNat = 0 by omega, Nat.pow_zero, Nat.mul_one, magnitude]
      exact ofDigits_div_two_pow_eq_zero hx.digit_lt hbig.2
    rw [if_pos hbig, hshift]
    refine ⟨by decide, ?_⟩
    rw [toInt_bignumTrim]
    simp [bignumZero, toInt, magnitude]
  rw [if_neg hbig]
  by_cases hneg : n < 0
  · have hshift : x.magnitude * 2 ^ n.toNat / 2 ^ (-n).toNat = x.magnitude / 2 ^ (-n).toNat := by
      rw [show n.toNat = 0 by omega, Nat.pow_zero, Nat.mul_one]
    have hoffset : (-n).toNat / bignumDigitLength < x.digits.length := by
      rw [Nat.div_lt_iff_lt_mul (by decide)]
      exact Nat.lt_of_not_le fun h => hbig ⟨hneg, h⟩
    obtain ⟨hlt, hval⟩ := ashRight_digits_spec hx.digit_lt (-n).toNat
    rw [if_pos hneg, hshift, magnitude, ← hval]
    refine bignumTrim_spec _ hlt ?_
    rw [← List.length_pos_iff, length_ashRightLoop, List.length_drop]
    omega
  · -- the remaining case is `n = 0`
    have hn : n = 0 := by omega
    subst hn
    rw [if_neg hneg]
    refine ⟨canonical_bignumTrim hx.digit_lt hx.not_negativeP, ?_⟩
    rw [toInt_bignumTrim, toInt]
    simp [magnitude]

end Ash

theorem bignumArithmeticShift_spec {x : Bignum} (hx : x.Canonical) (n : Int) :
    (bignumArithmeticShift x n).Canonical ∧
      (bignumArithmeticShift x n).toInt = ⌊(x.toInt : ℚ) * 2 ^ n⌋ := by
  unfold bignumArithmeticShift
  by_cases hcase : x.negativeP ∧ n < 0
  · rw [if_pos hcase]
    obtain ⟨hneg, hn⟩ := hcase
    obtain ⟨k, rfl⟩ : ∃ k : Nat, n = -(k : Int) := ⟨(-n).toNat, by omega⟩
    obtain ⟨hy, hyval⟩ := bignumBitwiseNot_spec hx
    have hysign : (bignumBitwiseNot x).negativeP = false :=
      hy.negativeP_eq_false (by have := hx.toInt_lt_zero hneg; omega)
    have hymag : ((bignumBitwiseNot x).magnitude : Int) = -x.toInt - 1 := by
      rw [← hyval, toInt_of_negativeP_eq_false hysign]
    obtain ⟨hz, hzval⟩ := bignumMagnitudeAsh_spec hy (-(k : Int))
    obtain ⟨hw, hwval⟩ := bignumBitwiseNot_spec hz
    refine ⟨hw, ?_⟩
    rw [hwval, hzval, hysign, if_neg Bool.false_ne_true, floor_mul_two_zpow_neg,
      ediv_eq_neg_ediv_not (by positivity), ← hymag]
    simp
  · rw [if_neg hcase]
    obtain ⟨hz, hzval⟩ := bignumMagnitudeAsh_spec hx n
    refine ⟨hz, hzval.trans ?_⟩
    by_cases hn : 0 ≤ n
    · obtain ⟨k, rfl⟩ : ∃ k : Nat, n = k := ⟨n.toNat, by omega⟩
      rw [floor_mul_two_pow, toInt]
      cases x.negativeP <;> simp
    · obtain ⟨k, rfl⟩ : ∃ k : Nat, n = -(k : Int) := ⟨(-n).toNat, by omega⟩
      have hsign : x.negativeP = false := Bool.eq_false_iff.mpr fun h => hcase ⟨h, by omega⟩
      rw [floor_mul_two_zpow_neg, hsign, toInt_of_negativeP_eq_false hsign]
      simp

/-- `sign_mask`: all ones for a negative word, zero otherwise. -/
def signMask (x : Cell) : Cell := x.sshiftRight (wordSize - 1)

def branchlessMax (x y : Cell) : Cell := x - ((x - y) &&& signMask (x - y))

def branchlessAbs (x : Cell) : Cell := (x ^^^ signMask x) - signMask x

/-- What an integer primitive leaves on the data stack: a tagged fixnum, or a
tagged pointer to a bignum. -/
inductive IntegerCell where
  | fixnum (n : Fixnum)
  | bignum (b : Bignum)
  deriving DecidableEq

/-- The integer a cell stands for; a bignum stands for its value only in the
canonical form the bignum code relies on. -/
def IntegerCell.Represents : IntegerCell → Int → Prop
  | .fixnum n, v => n.val = v
  | .bignum b, v => b.Canonical ∧ b.toInt = v

/-- `primitive_fixnum_shift`: shift `x` by `y` bits, left for `y > 0`. A
right shift clamps its count at `WORD_SIZE - 1`; a left shift stays on the
word when the bits it shifts out of the fixnum range are clear in `|x|`. -/
def primitiveFixnumShift (x y : Fixnum) : IntegerCell :=
  let xw : Cell := BitVec.ofInt 64 x.val
  if x.val = 0 then .fixnum x
  else if y.val < 0 then
    let y := branchlessMax (BitVec.ofInt 64 y.val) (BitVec.ofInt 64 (-(wordSize : Int) + 1))
    .fixnum (Fixnum.ofInt (xw.sshiftRight (-y).toNat).toInt)
  else if y.val < (wordSize - tagBits : Nat) then
    let mask : Cell := -(1#64 <<< (wordSize - 1 - tagBits - y.val.toNat))
    if branchlessAbs xw &&& mask = 0 then .fixnum (Fixnum.ofInt (xw <<< y.val.toNat).toInt)
    else .bignum (bignumArithmeticShift (fixnumToBignum x.val) y.val)
  else .bignum (bignumArithmeticShift (fixnumToBignum x.val) y.val)

section FixnumShift

theorem branchlessMax_eq (x y : Cell) : branchlessMax x y = if (x - y).msb then y else x := by
  rw [branchlessMax, signMask, show wordSize = 64 from rfl, and_sshiftRight_sub_one]
  split
  · exact sub_sub_self x y
  · exact BitVec.sub_zero x

theorem branchlessAbs_eq (x : Cell) : branchlessAbs x = if x.msb then -x else x :=
  xor_sshiftRight_sub_sshiftRight x

theorem toInt_ofInt_cell {a : Int} (hlo : -2 ^ 63 ≤ a) (hhi : a < 2 ^ 63) :
    (BitVec.ofInt 64 a).toInt = a := by
  rw [BitVec.toInt_ofInt]
  exact Int.bmod_eq_of_le (by norm_num; omega) (by norm_num; omega)

theorem toNat_ofInt_cell {a : Int} (hlo : 0 ≤ a) (hhi : a < 2 ^ 64) :
    (BitVec.ofInt 64 a).toNat = a.toNat := by
  rw [BitVec.toNat_ofInt, Int.emod_eq_of_lt hlo (by norm_num; omega)]

theorem Fixnum.val_bounds (x : Fixnum) : -2 ^ 59 ≤ x.val ∧ x.val < 2 ^ 59 := by
  have hmin := x.min_le
  have hmax := x.le_max
  simp only [fixnumMin, fixnumMax, wordSize, tagBits] at hmin hmax
  norm_num at hmin hmax
  omega

theorem branchlessMax_ofInt {a b : Int} (ha : -2 ^ 62 ≤ a ∧ a < 2 ^ 62) (hb : -2 ^ 62 ≤ b ∧ b < 2 ^ 62) :
    branchlessMax (BitVec.ofInt 64 a) (BitVec.ofInt 64 b) = BitVec.ofInt 64 (max a b) := by
  have hsub : (BitVec.ofInt 64 a - BitVec.ofInt 64 b).toInt = a - b := by
    rw [BitVec.toInt_sub, toInt_ofInt_cell (by omega) (by omega), toInt_ofInt_cell (by omega) (by omega)]
    exact Int.bmod_eq_of_le (by norm_num; omega) (by norm_num; omega)
  rw [branchlessMax_eq, BitVec.msb_eq_toInt, hsub]
  by_cases hab : a - b < 0
  · rw [decide_eq_true hab, if_pos rfl, max_eq_right (by omega)]
  · rw [decide_eq_false hab, if_neg Bool.false_ne_true, max_eq_left (by omega)]

theorem toNat_branchlessAbs (x : Fixnum) : (branchlessAbs (BitVec.ofInt 64 x.val)).toNat = x.val.natAbs := by
  have hx := x.val_bounds
  rw [branchlessAbs_eq, BitVec.msb_eq_toInt, toInt_ofInt_cell (by omega) (by omega)]
  by_cases hneg : x.val < 0
  · rw [decide_eq_true hneg, if_pos rfl, ← BitVec.ofInt_neg, toNat_ofInt_cell (by omega) (by omega)]
    omega
  · rw [decide_eq_false hneg, if_neg Bool.false_ne_true, toNat_ofInt_cell (by omega) (by omega)]
    omega

theorem toInt_sshiftRight_ofInt (x : Fixnum) (k : Nat) :
    ((BitVec.ofInt 64 x.val).sshiftRight k).toInt = x.val / 2 ^ k := by
  have hx := x.val_bounds
  rw [BitVec.toInt_sshiftRight, toInt_ofInt_cell (by omega) (by omega), Int.shiftRight_eq_div_pow,
    Nat.cast_pow, Nat.cast_ofNat]

theorem natAbs_mul_two_pow_lt {a : Int} {k : Nat} (hk : k ≤ 59) (ha : a.natAbs < 2 ^ (59 - k)) :
    (a * 2 ^ k).natAbs < 2 ^ 59 := by
  rw [Int.natAbs_mul, Int.natAbs_pow]
  calc a.natAbs * (2 : Int).natAbs ^ k < 2 ^ (59 - k) * 2 ^ k := Nat.mul_lt_mul_of_pos_right ha (Nat.two_pow_pos k)
    _ = 2 ^ 59 := by rw [← Nat.pow_add, Nat.sub_add_cancel hk]

theorem toInt_shiftLeft_ofInt (x : Fixnum) {k : Nat} (hk : k ≤ 59) (hx : x.val.natAbs < 2 ^ (59 - k)) :
    ((BitVec.ofInt 64 x.val) <<< k).toInt = x.val * 2 ^ k := by
  have hbounds := x.val_bounds
  have hnat := natAbs_mul_two_pow_lt hk hx
  have htwo : (BitVec.twoPow 64 k).toInt = 2 ^ k := by
    rw [BitVec.toInt_twoPow, if_neg (by omega), if_neg (by omega)]
  rw [BitVec.shiftLeft_eq_mul_twoPow, BitVec.toInt_mul, htwo, toInt_ofInt_cell (by omega) (by omega)]
  exact Int.bmod_eq_of_le (by norm_num; omega) (by norm_num; omega)

theorem ediv_two_pow_mem_range (x : Fixnum) (k : Nat) : fixnumMin ≤ x.val / 2 ^ k ∧ x.val / 2 ^ k ≤ fixnumMax := by
  have hmin := x.min_le
  have hmax := x.le_max
  have hpos : (0 : Int) < 2 ^ k := by positivity
  have hone : (1 : Int) ≤ 2 ^ k := hpos
  have hfmin : fixnumMin ≤ 0 := by decide
  have hfmax : 0 ≤ fixnumMax := by decide
  constructor
  · rw [Int.le_ediv_iff_mul_le hpos]
    nlinarith
  · rw [← Int.lt_add_one_iff, Int.ediv_lt_iff_lt_mul hpos]
    nlinarith

theorem fixnum_range_of_natAbs_lt {a : Int} (h : a.natAbs < 2 ^ 59) : fixnumMin ≤ a ∧ a ≤ fixnumMax := by
  simp only [fixnumMin, fixnumMax, wordSize, tagBits]
  norm_num
  omega

theorem primitiveFixnumShift_represents (x y : Fixnum) :
    (primitiveFixnumShift x y).Represents ⌊(x.val : ℚ) * 2 ^ y.val⌋ := by
  have hx := x.val_bounds
  have hy := y.val_bounds
  have hslow : (IntegerCell.bignum (bignumArithmeticShift (fixnumToBignum x.val) y.val)).Represents
      ⌊(x.val : ℚ) * 2 ^ y.val⌋ := by
    have hspec := bignumArithmeticShift_spec (canonical_ofInt x.val) y.val
    rwa [toInt_ofInt] at hspec
  dsimp only [primitiveFixnumShift]
  by_cases hzero : x.val = 0
  · rw [if_pos hzero]
    simp [IntegerCell.Represents, hzero]
  rw [if_neg hzero]
  by_cases hneg : y.val < 0
  · rw [if_pos hneg]
    obtain ⟨k, hk⟩ : ∃ k : Nat, y.val = -(k : Int) := ⟨(-y.val).toNat, by omega⟩
    have hmax := branchlessMax_ofInt (a := y.val) (b := -(wordSize : Int) + 1) (by omega)
      (by norm_num [wordSize])
    have hcount : (-BitVec.ofInt 64 (max y.val (-(wordSize : Int) + 1))).toNat = min k 63 := by
      rw [← BitVec.ofInt_neg, toNat_ofInt_cell (by norm_num [wordSize]; omega) (by norm_num [wordSize]; omega)]
      norm_num [wordSize]
      omega
    have hrange := ediv_two_pow_mem_range x (min k 63)
    simp only [IntegerCell.Represents, Fixnum.ofInt]
    rw [hmax, hcount, toInt_sshiftRight_ofInt, retagFixnum_of_range hrange.1 hrange.2, hk,
      floor_mul_two_zpow_neg]
    by_cases hk63 : k ≤ 63
    · rw [min_eq_left hk63]
    · -- past the word size only the sign is left, on either side
      have hpow : (2 : Int) ^ 63 ≤ 2 ^ k := pow_le_pow_right₀ (by norm_num) (by omega)
      rw [min_eq_right (by omega), ediv_two_pow_of_bounds (by omega) (by omega),
        ediv_two_pow_of_bounds (by omega) (by omega)]
  rw [if_neg hneg]
  by_cases hsmall : y.val < (wordSize - tagBits : Nat)
  · rw [if_pos hsmall]
    obtain ⟨k, hk⟩ : ∃ k : Nat, y.val = k := ⟨y.val.toNat, by omega⟩
    have hk59 : k ≤ 59 := by
      simp only [wordSize, tagBits] at hsmall
      omega
    have htoNat : y.val.toNat = k := by omega
    have hmask : branchlessAbs (BitVec.ofInt 64 x.val) &&& -(1#64 <<< (wordSize - 1 - tagBits - y.val.toNat)) = 0 ↔
        x.val.natAbs < 2 ^ (59 - k) := by
      rw [and_neg_shiftLeft_eq_zero_iff (by simp only [wordSize, tagBits]; omega), toNat_branchlessAbs,
        htoNat]
      rfl
    split
    · rename_i hfits
      have hfit := hmask.mp hfits
      have hrange := fixnum_range_of_natAbs_lt (natAbs_mul_two_pow_lt hk59 hfit)
      simp only [IntegerCell.Represents, Fixnum.ofInt]
      rw [htoNat, toInt_shiftLeft_ofInt x hk59 hfit, retagFixnum_of_range hrange.1 hrange.2, hk,
        floor_mul_two_pow]
    · exact hslow
  · rw [if_neg hsmall]
    exact hslow

example : primitiveFixnumShift ⟨-5, by decide, by decide⟩ ⟨-100, by decide, by decide⟩ =
    .fixnum ⟨-1, by decide, by decide⟩ := by
  decide

theorem arithmetic_shift_is_floor :
    (∀ x : Bignum, x.Canonical → ∀ n : Int,
        (bignumArithmeticShift x n).Canonical ∧ (bignumArithmeticShift x n).toInt = ⌊(x.toInt : ℚ) * 2 ^ n⌋) ∧
      ∀ x y : Fixnum, (primitiveFixnumShift x y).Represents ⌊(x.val : ℚ) * 2 ^ y.val⌋ :=
  ⟨fun _ hx n => bignumArithmeticShift_spec hx n, primitiveFixnumShift_represents⟩

theorem arithmetic_shift_is_floor_minus_three :
    (⟨true, [3]⟩ : Bignum).Canonical ∧ (bignumArithmeticShift ⟨true, [3]⟩ (-1)).toInt = -2 := by
  have hx : (⟨true, [3]⟩ : Bignum).Canonical := by decide
  refine ⟨hx, ?_⟩
  rw [(arithmetic_shift_is_floor.1 _ hx (-1)).2, show (⟨true, [3]⟩ : Bignum).toInt = -3 from rfl]
  norm_num

end FixnumShift

end FactorProofs.Vm
