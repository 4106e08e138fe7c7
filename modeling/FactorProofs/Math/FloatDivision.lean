import Mathlib.Data.Nat.Factorization.Basic
import Mathlib.Data.Nat.Bitwise
import FactorProofs.Math.Floats
import FactorProofs.Vm.Layouts

namespace FactorProofs.Math

open Rounding

/-! `bignum/f` of `math.integers`, after `FLOAT-RATIO` of SBCL: the quotient of
two integers as a double. The numerator is shifted so that the integer quotient
has 54 bits, a significand and a guard bit; a sticky `epsilon` flag records every
set bit that a shift cuts off; the guard bit is rounded away to nearest with
ties to even, and the significand and the scale are packed into the pattern. -/

/-- `twos`: the number of trailing zero bits of a positive integer. -/
def twos (x : ℕ) : ℕ := Nat.log2 (x ^^^ (x - 1))

/-- `shift` on a non-negative integer: left for a positive count, right for a
negative one. -/
def shiftNat (x : ℕ) (s : ℤ) : ℕ := if 0 ≤ s then x <<< s.toNat else x >>> (-s).toNat

/-- The stack of `bignum/f` from `pre-scale` to `mantissa-and-guard`. -/
structure Scaled where
  epsilon : Bool
  num : ℕ
  den : ℕ
  scale : ℤ

/-- `scale-denonimator` -/
def scaleDenonimator (den : ℕ) : ℕ × ℤ := (shiftNat den (-(twos den : ℤ)), -(twos den : ℤ))

/-- `(epsilon?)`: a right shift by `-shift` cuts off a set bit. -/
def epsilonP (num : ℕ) (shift : ℤ) : Bool :=
  if shift < 0 then num &&& (2 ^ (-shift).toNat - 1) != 0 else false

/-- `scale-numerator` -/
def scaleNumerator (num den : ℕ) : Bool × ℕ × ℤ :=
  let scale : ℤ := (Nat.log2 den : ℤ) - Nat.log2 num
  (epsilonP num (scale + 54), shiftNat num (scale + 54), scale)

/-- `pre-scale` -/
def preScale (num den : ℕ) : Scaled :=
  let den' := scaleDenonimator den
  let num' := scaleNumerator num den'.1
  ⟨num'.1, num'.2.1, den'.1, den'.2 - num'.2.2⟩

/-- Halving by `2/` with the cut-off bit kept in `epsilon`, the source's
halving word with epsilon. -/
def halveWithEpsilon (s : Scaled) : Scaled :=
  { s with epsilon := s.epsilon || s.num &&& 1 != 0, num := s.num >>> 1 }

/-- `(shift-with-epsilon)`: a subnormal quotient keeps its bits down to `2 ^ -1075`. -/
def shiftWithEpsilon (s : Scaled) : Scaled :=
  let shift := s.scale + 1021
  { s with
    epsilon := s.epsilon || s.num &&& (2 ^ (-shift).toNat - 1) != 0
    num := shiftNat s.num shift }

/-- The stack after `mantissa-and-guard`. -/
structure Guarded where
  epsilon : Bool
  mantissaAndGuard : ℕ
  rem : ℕ
  scale : ℤ

/-- `mantissa-and-guard`: one halving when the first guess gave a 55-bit
quotient, the subnormal shift, and the division. -/
def mantissaAndGuard (s : Scaled) : Guarded :=
  let s := if 53 < Nat.log2 (s.num / s.den) then { halveWithEpsilon s with scale := s.scale + 1 } else s
  let s := if s.scale < -1021 then shiftWithEpsilon s else s
  ⟨s.epsilon, s.num / s.den, s.num % s.den, s.scale⟩

/-- `round-to-nearest` -/
def roundToNearest (epsilon : Bool) (mantissaAndGuard rem : ℕ) : ℕ :=
  if mantissaAndGuard % 2 = 1 then
    if rem = 0 then
      if mantissaAndGuard &&& 2 != 0 || epsilon then mantissaAndGuard + 1 else mantissaAndGuard
    else mantissaAndGuard + 1
  else mantissaAndGuard

/-- `scale-float` -/
def scaleFloat (mantissa : ℕ) (scale : ℤ) : Double :=
  if 1024 < scale then 0x7ff0000000000000
  else if scale < -1021 then UInt64.ofNat mantissa
  else UInt64.ofNat (mantissa &&& (2 ^ 52 - 1) ||| (scale + 1022).toNat <<< 52)

/-- `post-scale`: drop the guard bit; a carry out of 53 bits moves into the scale. -/
def postScale (mantissa : ℕ) (scale : ℤ) : Double :=
  let mantissa := mantissa >>> 1
  if mantissa = 2 ^ 53 then scaleFloat (mantissa >>> 1) (scale + 1) else scaleFloat mantissa scale

/-- `/f-abs` on the magnitudes; the literal `0/0.` reads as the positive quiet NaN. -/
def divFAbs (m n : ℕ) : Double :=
  if m = 0 then (if n = 0 then 0x7ff8000000000000 else 0)
  else if n = 0 then 0x7ff0000000000000
  else
    let g := mantissaAndGuard (preScale m n)
    postScale (roundToNearest g.epsilon g.mantissaAndGuard g.rem) g.scale

/-- `bignum/f` -/
def bignumDivF (m n : ℤ) : Double :=
  let x := divFAbs m.natAbs n.natAbs
  if decide (m < 0) ^^ decide (n < 0) then floatNeg x else x

example : bignumDivF 1 3 = 0x3fd5555555555555 := by decide

/-- `fixnum>float`, the C++ conversion `(double)` of a fixnum, rounding to nearest even. -/
def fixnumToFloat (n : ℤ) : Double := roundToDouble (decide (n < 0)) |(n : ℚ)|

/-- `>float` on an integer: `fixnum>float` on a fixnum, and `bignum>float`,
`1 >bignum bignum/f`, on a bignum. -/
def integerToFloat (n : ℤ) : Double :=
  if Vm.fixnumMin ≤ n ∧ n ≤ Vm.fixnumMax then fixnumToFloat n else bignumDivF n 1

/-- `bignum/f-threshold` -/
def bignumDivFThreshold : ℤ := 0x20000000000000

/-- `/f` on two integers: `M: fixnum /f` divides the two floats below
`bignum/f-threshold` (`fixnum/f`) and calls `bignum/f` from it on; an operand
that is a bignum takes `M: bignum /f`. -/
def integerDivF (m n : ℤ) : Double :=
  if (Vm.fixnumMin ≤ m ∧ m ≤ Vm.fixnumMax) ∧ (Vm.fixnumMin ≤ n ∧ n ≤ Vm.fixnumMax) then
    if bignumDivFThreshold ≤ |m| ∨ bignumDivFThreshold ≤ |n| then bignumDivF m n
    else floatDivF (integerToFloat m) (integerToFloat n)
  else bignumDivF m n

section Shifts

theorem shiftNat_of_nonneg {s : ℤ} (hs : 0 ≤ s) (x : ℕ) : shiftNat x s = x * 2 ^ s.toNat := by
  rw [shiftNat, if_pos hs, Nat.shiftLeft_eq]

theorem shiftNat_of_neg {s : ℤ} (hs : s < 0) (x : ℕ) : shiftNat x s = x / 2 ^ (-s).toNat := by
  rw [shiftNat, if_neg (not_le.mpr hs), Nat.shiftRight_eq_div_pow]

theorem shiftNat_neg_natCast (x k : ℕ) : shiftNat x (-(k : ℤ)) = x / 2 ^ k := by
  rcases Nat.eq_zero_or_pos k with rfl | hk
  · simp [shiftNat]
  · rw [shiftNat_of_neg (by omega), neg_neg, Int.toNat_natCast]

theorem stickyFloor_shiftNat (x : ℕ) (s : ℤ) :
    StickyFloor ((x : ℚ) * 2 ^ s) (shiftNat x s) (epsilonP x s) := by
  by_cases hs : 0 ≤ s
  · -- a left shift is exact
    have hval : (x : ℚ) * 2 ^ s = ((x * 2 ^ s.toNat : ℕ) : ℚ) := by
      rw [Nat.cast_mul, Nat.cast_pow, Nat.cast_ofNat, ← zpow_natCast, Int.toNat_of_nonneg hs]
    rw [hval, shiftNat_of_nonneg hs, epsilonP, if_neg (not_lt.mpr hs)]
    exact StickyFloor.natCast _
  · have hs' : s < 0 := not_le.mp hs
    have h0 : StickyFloor ((x : ℚ) * 2 ^ (0 : ℤ)) x false := by
      rw [zpow_zero, mul_one]
      exact StickyFloor.natCast x
    have h := h0.mul_zpow_sub (-s).toNat
    rw [show (0 : ℤ) - ((-s).toNat : ℕ) = s by omega, Bool.false_or] at h
    rw [shiftNat_of_neg hs', epsilonP, if_pos hs', Nat.and_two_pow_sub_one_eq_mod]
    exact h

theorem xor_pred_eq (k j : ℕ) :
    (2 ^ k * (2 * j + 1)) ^^^ (2 ^ k * (2 * j + 1) - 1) = 2 ^ (k + 1) - 1 := by
  have hpos : 1 ≤ 2 ^ k := Nat.one_le_two_pow
  have hx : 2 ^ k * (2 * j + 1) = 2 ^ (k + 1) * j + 2 ^ k := by ring
  have hx1 : 2 ^ k * (2 * j + 1) - 1 = 2 ^ (k + 1) * j + (2 ^ k - 1) := by rw [hx]; omega
  have hlt : 2 ^ k < 2 ^ (k + 1) := Nat.pow_lt_pow_right (by norm_num) (by omega)
  apply Nat.eq_of_testBit_eq
  intro i
  rw [Nat.testBit_xor, hx1, hx, Nat.testBit_two_pow_mul_add _ hlt, Nat.testBit_two_pow_mul_add _ (by omega),
    Nat.testBit_two_pow_sub_one, Nat.testBit_two_pow_sub_one, Nat.testBit_two_pow]
  split_ifs with hi
  · -- up to the lowest set bit exactly one of `2 ^ k` and `2 ^ k - 1` has each bit
    by_cases hik : k = i
    · simp [hik]
    · simp only [hik, decide_false, Bool.false_xor]
      exact decide_eq_decide.mpr (by omega)
  · simp [hi]

theorem two_pow_twos_dvd {x : ℕ} (hx : 0 < x) : 2 ^ twos x ∣ x := by
  obtain ⟨k, o, ⟨j, rfl⟩, rfl⟩ := Nat.exists_eq_two_pow_mul_odd hx.ne'
  have hpos : 1 ≤ 2 ^ k := Nat.one_le_two_pow
  have htwos : twos (2 ^ k * (2 * j + 1)) = k := by
    rw [twos, xor_pred_eq, Nat.log2_eq_iff (by rw [pow_succ]; omega), pow_succ]
    omega
  rw [htwos]
  exact Dvd.intro _ rfl

end Shifts

section PreScale

/-- What the stack says about the quotient `q` it converts: the numerator is
`q * den` at the scale `2 ^ (54 - scale)`, up to the bits that `epsilon` says
were cut off. -/
structure Scaled.Approximates (s : Scaled) (q : ℚ) : Prop where
  den_pos : 0 < s.den
  sticky : StickyFloor (q * s.den * 2 ^ (54 - s.scale)) s.num s.epsilon

theorem preScale_approximates {m n : ℕ} (hm : 0 < m) (hn : 0 < n) :
    (preScale m n).Approximates (m / n) ∧
      2 ^ 53 < (m / n : ℚ) * 2 ^ (54 - (preScale m n).scale) ∧
      (m / n : ℚ) * 2 ^ (54 - (preScale m n).scale) < 2 ^ 55 := by
  obtain ⟨d, hd⟩ : ∃ d, n / 2 ^ twos n = d := ⟨_, rfl⟩
  have hn' : n = d * 2 ^ twos n := by rw [← hd, Nat.div_mul_cancel (two_pow_twos_dvd hn)]
  have hdpos : 0 < d := by
    rcases Nat.eq_zero_or_pos d with h0 | h0
    · rw [h0, Nat.zero_mul] at hn'
      omega
    · exact h0
  set la := Nat.log2 m
  set lb := Nat.log2 d
  set sh : ℤ := (lb : ℤ) - la + 54
  have hpre : preScale m n = ⟨epsilonP m sh, shiftNat m sh, d, -(twos n : ℤ) - ((lb : ℤ) - la)⟩ := by
    simp only [preScale, scaleDenonimator, scaleNumerator, shiftNat_neg_natCast, hd]
    rfl
  rw [hpre]
  have hexp : (54 : ℤ) - (-(twos n : ℤ) - ((lb : ℤ) - la)) = sh + twos n := by omega
  have ht : (m / n : ℚ) * 2 ^ (54 - (-(twos n : ℤ) - ((lb : ℤ) - la))) * d = m * 2 ^ sh := by
    have hnq : (n : ℚ) = d * 2 ^ twos n := by exact_mod_cast hn'
    rw [hexp, zpow_add₀ two_ne_zero, zpow_natCast, hnq]
    field_simp
  set t := (m / n : ℚ) * 2 ^ (54 - (-(twos n : ℤ) - ((lb : ℤ) - la)))
  have happrox : StickyFloor ((m / n : ℚ) * d * 2 ^ (54 - (-(twos n : ℤ) - ((lb : ℤ) - la))))
      (shiftNat m sh) (epsilonP m sh) := by
    rw [mul_right_comm]
    change StickyFloor (t * d) _ _
    rw [ht]
    exact stickyFloor_shiftNat m sh
  refine ⟨⟨hdpos, happrox⟩, ?_, ?_⟩
  all_goals
    have hmlo : (2 : ℚ) ^ la ≤ m := by exact_mod_cast Nat.log2_self_le hm.ne'
    have hmhi : (m : ℚ) < 2 ^ (la + 1) := by exact_mod_cast Nat.lt_log2_self
    have hdlo : (2 : ℚ) ^ lb ≤ d := by exact_mod_cast Nat.log2_self_le hdpos.ne'
    have hdhi : (d : ℚ) < 2 ^ (lb + 1) := by exact_mod_cast Nat.lt_log2_self
    have hSA : (2 : ℚ) ^ sh * 2 ^ la = 2 ^ (54 + lb) := by
      rw [← zpow_natCast 2 la, ← zpow_natCast 2 (54 + lb), ← zpow_add₀ two_ne_zero]
      congr 1
      push_cast
      ring
  · have hlow : (2 : ℚ) ^ 53 * d < t * d := by
      calc (2 : ℚ) ^ 53 * d < 2 ^ 53 * 2 ^ (lb + 1) := by gcongr
        _ = 2 ^ sh * 2 ^ la := by rw [hSA]; ring
        _ ≤ 2 ^ sh * m := mul_le_mul_of_nonneg_left hmlo (zpow_pos two_pos _).le
        _ = t * d := by rw [ht]; ring
    exact lt_of_mul_lt_mul_right hlow (Nat.cast_nonneg d)
  · have hupp : t * d < (2 : ℚ) ^ 55 * d := by
      calc t * d = 2 ^ sh * m := by rw [ht]; ring
        _ < 2 ^ sh * 2 ^ (la + 1) := mul_lt_mul_of_pos_left hmhi (zpow_pos two_pos _)
        _ = 2 ^ 55 * 2 ^ lb := by rw [pow_succ, ← mul_assoc, hSA]; ring
        _ ≤ 2 ^ 55 * d := by gcongr
    exact lt_of_mul_lt_mul_right hupp (Nat.cast_nonneg d)

end PreScale

section MantissaAndGuard

variable {s : Scaled} {q : ℚ}

theorem Scaled.Approximates.quotient (h : s.Approximates q) :
    StickyFloor (q * 2 ^ (54 - s.scale)) (s.num / s.den) (s.epsilon || s.num % s.den != 0) := by
  have hdiv := h.sticky.div_natCast h.den_pos
  have hden : (s.den : ℚ) ≠ 0 := by exact_mod_cast h.den_pos.ne'
  rwa [show q * s.den * 2 ^ (54 - s.scale) / s.den = q * 2 ^ (54 - s.scale) by field_simp] at hdiv

theorem Scaled.Approximates.halve (h : s.Approximates q) :
    ({ halveWithEpsilon s with scale := s.scale + 1 } : Scaled).Approximates q := by
  have hhalf := h.sticky.mul_zpow_sub 1
  rw [show (54 : ℤ) - s.scale - ((1 : ℕ) : ℤ) = 54 - (s.scale + 1) by omega, pow_one] at hhalf
  refine ⟨h.den_pos, ?_⟩
  simpa only [halveWithEpsilon, Nat.shiftRight_eq_div_pow, pow_one, Nat.and_one_is_mod] using hhalf

theorem log_eq_of_bounds {scale : ℤ} (hq : 0 < q) (hlo : 2 ^ 53 ≤ q * 2 ^ (54 - scale))
    (hhi : q * 2 ^ (54 - scale) < 2 ^ 54) : Int.log 2 q = scale - 1 := by
  have hpow : (0 : ℚ) < 2 ^ (54 - scale) := zpow_pos two_pos _
  have hsplit : ∀ k : ℕ, (2 : ℚ) ^ ((k : ℤ) - (54 - scale)) * 2 ^ (54 - scale) = 2 ^ k := by
    intro k
    rw [← zpow_add₀ two_ne_zero, sub_add_cancel, zpow_natCast]
  have h1 : ((2 : ℕ) : ℚ) ^ (scale - 1) ≤ q := by
    rw [Nat.cast_ofNat, show scale - 1 = ((53 : ℕ) : ℤ) - (54 - scale) by omega,
      ← mul_le_mul_iff_of_pos_right hpow, hsplit]
    exact hlo
  have h2 : q < ((2 : ℕ) : ℚ) ^ (scale - 1 + 1) := by
    rw [Nat.cast_ofNat, show scale - 1 + 1 = ((54 : ℕ) : ℤ) - (54 - scale) by omega,
      ← mul_lt_mul_iff_of_pos_right hpow, hsplit]
    exact hhi
  have hle := (Int.zpow_le_iff_le_log (by norm_num) hq).mp h1
  have hlt := (Int.lt_zpow_iff_log_lt (by norm_num) hq).mp h2
  omega

theorem normalize_approximates (h : s.Approximates q) (hlo : 2 ^ 53 < q * 2 ^ (54 - s.scale))
    (hhi : q * 2 ^ (54 - s.scale) < 2 ^ 55) :
    (if 53 < Nat.log2 (s.num / s.den) then { halveWithEpsilon s with scale := s.scale + 1 } else s).Approximates q ∧
      2 ^ 53 ≤ q * 2 ^ (54 - (if 53 < Nat.log2 (s.num / s.den) then
        { halveWithEpsilon s with scale := s.scale + 1 } else s).scale) ∧
      q * 2 ^ (54 - (if 53 < Nat.log2 (s.num / s.den) then
        { halveWithEpsilon s with scale := s.scale + 1 } else s).scale) < 2 ^ 54 := by
  have hquot := h.quotient
  have hQ : 2 ^ 53 ≤ s.num / s.den := by
    rw [← hquot.floor_eq, Nat.le_floor_iff hquot.nonneg]
    exact_mod_cast hlo.le
  have hbits : 53 < Nat.log2 (s.num / s.den) ↔ (2 : ℚ) ^ 54 ≤ q * 2 ^ (54 - s.scale) := by
    rw [Nat.lt_iff_add_one_le, Nat.le_log2 (by positivity), ← hquot.floor_eq,
      Nat.le_floor_iff hquot.nonneg]
    norm_num
  by_cases hc : 53 < Nat.log2 (s.num / s.den)
  · have hhalf : q * 2 ^ (54 - (s.scale + 1)) = q * 2 ^ (54 - s.scale) / 2 := by
      rw [show (54 : ℤ) - (s.scale + 1) = 54 - s.scale - 1 by omega, zpow_sub₀ two_ne_zero, zpow_one]
      ring
    have h54 := hbits.mp hc
    simp only [if_pos hc]
    refine ⟨h.halve, ?_, ?_⟩
    · rw [hhalf]
      linarith
    · rw [hhalf]
      linarith
  · simp only [if_neg hc]
    exact ⟨h, hlo.le, not_le.mp (mt hbits.mpr hc)⟩

theorem subnormal_sticky (h : s.Approximates q) (hlog : Int.log 2 q = s.scale - 1) :
    (if s.scale < -1021 then shiftWithEpsilon s else s).den = s.den ∧
      (if s.scale < -1021 then shiftWithEpsilon s else s).scale = s.scale ∧
      StickyFloor (q * s.den * 2 ^ (53 - max (Int.log 2 q) (-1022)))
        (if s.scale < -1021 then shiftWithEpsilon s else s).num
        (if s.scale < -1021 then shiftWithEpsilon s else s).epsilon := by
  by_cases hc : s.scale < -1021
  · rw [if_pos hc]
    refine ⟨rfl, rfl, ?_⟩
    have hshift := h.sticky.mul_zpow_sub (-(s.scale + 1021)).toNat
    rw [show (54 : ℤ) - s.scale - ((-(s.scale + 1021)).toNat : ℕ) = 53 - max (Int.log 2 q) (-1022) by
      omega] at hshift
    simpa only [shiftWithEpsilon, shiftNat_of_neg (by omega : s.scale + 1021 < 0),
      Nat.and_two_pow_sub_one_eq_mod] using hshift
  · rw [if_neg hc]
    refine ⟨rfl, rfl, ?_⟩
    rw [show (53 : ℤ) - max (Int.log 2 q) (-1022) = 54 - s.scale by omega]
    exact h.sticky

theorem mantissaAndGuard_spec (h : s.Approximates q) (hq : 0 < q) (hlo : 2 ^ 53 < q * 2 ^ (54 - s.scale))
    (hhi : q * 2 ^ (54 - s.scale) < 2 ^ 55) :
    (mantissaAndGuard s).scale = Int.log 2 q + 1 ∧
      StickyFloor (q * 2 ^ (53 - max (Int.log 2 q) (-1022))) (mantissaAndGuard s).mantissaAndGuard
        ((mantissaAndGuard s).epsilon || (mantissaAndGuard s).rem != 0) := by
  obtain ⟨h1, hlo1, hhi1⟩ := normalize_approximates h hlo hhi
  generalize hs1 : (if 53 < Nat.log2 (s.num / s.den) then
    { halveWithEpsilon s with scale := s.scale + 1 } else s) = s1 at h1 hlo1 hhi1
  have hlog := log_eq_of_bounds hq hlo1 hhi1
  obtain ⟨hden, hscale, hsticky⟩ := subnormal_sticky h1 hlog
  generalize hs2 : (if s1.scale < -1021 then shiftWithEpsilon s1 else s1) = s2 at hden hscale hsticky
  have hmg : mantissaAndGuard s = ⟨s2.epsilon, s2.num / s2.den, s2.num % s2.den, s2.scale⟩ := by
    rw [← hs2, ← hs1]
    rfl
  rw [hmg]
  refine ⟨show s2.scale = Int.log 2 q + 1 by omega, ?_⟩
  have hdiv := hsticky.div_natCast h1.den_pos
  have hdq : (s1.den : ℚ) ≠ 0 := by exact_mod_cast h1.den_pos.ne'
  rw [show q * s1.den * 2 ^ (53 - max (Int.log 2 q) (-1022)) / s1.den =
    q * 2 ^ (53 - max (Int.log 2 q) (-1022)) by field_simp, ← hden] at hdiv
  exact hdiv

end MantissaAndGuard

section Rounding

theorem roundToNearest_half {t : ℚ} {epsilon : Bool} {Q rem : ℕ} (h : StickyFloor t Q (epsilon || rem != 0)) :
    roundToNearest epsilon Q rem >>> 1 = roundHalfEven (t / 2) := by
  rw [roundHalfEven_half h, Nat.shiftRight_eq_div_pow, pow_one]
  have hbit : (Q &&& 2 != 0) = decide (Q / 2 % 2 = 1) := by
    have hand := Nat.and_two_pow Q 1
    rw [pow_one, Nat.testBit_eq_decide_div_mod_eq, pow_one] at hand
    rw [hand]
    by_cases hp : Q / 2 % 2 = 1 <;> simp [hp]
  unfold roundToNearest
  rw [hbit]
  rcases Nat.mod_two_eq_zero_or_one Q with hg | hg
  · rw [if_neg (by omega), if_neg (by omega), Nat.add_zero]
  · rw [if_pos hg]
    have hodd : (Q + 1) / 2 = Q / 2 + 1 := by omega
    by_cases hr : rem = 0 <;> by_cases hp : Q / 2 % 2 = 1 <;> cases epsilon <;>
      simp [hr, hp, hg, hodd]

theorem lor_shiftLeft_eq {x : ℕ} (hx : x < 2 ^ 52) (b : ℕ) : x ||| b <<< 52 = b * 2 ^ 52 + x := by
  rw [Nat.lor_comm, ← Nat.shiftLeft_add_eq_or_of_lt hx, Nat.shiftLeft_eq]

theorem scaleFloat_normal {r : ℕ} {scale : ℤ} (hr1 : 2 ^ 52 ≤ r) (hr2 : r < 2 ^ 53) (hs : -1021 ≤ scale) :
    scaleFloat r scale = UInt64.ofNat (encodeDouble 0 r (scale - 53)) := by
  unfold scaleFloat encodeDouble
  dsimp only
  have hne : r ≠ 2 ^ 53 := by omega
  simp only [if_neg (show ¬ r < 2 ^ 52 by omega), hne, if_false, if_neg (show ¬ scale < -1021 by omega)]
  by_cases hinf : 1024 < scale
  · rw [if_pos hinf, if_pos (by omega)]
    rfl
  · rw [if_neg hinf, if_neg (by omega), Nat.and_two_pow_sub_one_eq_mod,
      lor_shiftLeft_eq (Nat.mod_lt _ (by positivity)), show r % 2 ^ 52 = r - 2 ^ 52 by omega,
      show (scale + 1022).toNat = (scale - 53 + 1075).toNat by omega, Nat.zero_add]

theorem scaleFloat_subnormal {r : ℕ} {scale : ℤ} (hr : r ≤ 2 ^ 52) (hs : scale < -1021) :
    scaleFloat r scale = UInt64.ofNat (encodeDouble 0 r (-1074)) := by
  unfold scaleFloat encodeDouble
  dsimp only
  rw [if_neg (by omega), if_pos hs]
  by_cases hlt : r < 2 ^ 52
  · rw [if_pos hlt, Nat.zero_add]
  · have hr' : r = 2 ^ 52 := by omega
    rw [if_neg hlt, if_neg (by omega), if_neg (by omega), hr']
    rfl

theorem encodeDouble_carry (u : ℤ) : encodeDouble 0 (2 ^ 53) u = encodeDouble 0 (2 ^ 52) (u + 1) := by
  have h1 : ¬ (2 : ℕ) ^ 53 < 2 ^ 52 := by norm_num
  have h2 : (2 : ℕ) ^ 52 ≠ 2 ^ 53 := by norm_num
  simp only [encodeDouble, h1, h2, lt_irrefl, if_true, if_false]

theorem postScale_eq {M : ℕ} {scale : ℤ} (hM : M >>> 1 ≤ 2 ^ 53)
    (hnormal : -1021 ≤ scale → 2 ^ 52 ≤ M >>> 1) (hsub : scale < -1021 → M >>> 1 ≤ 2 ^ 52) :
    postScale M scale = UInt64.ofNat (encodeDouble 0 (M >>> 1) (max (scale - 53) (-1074))) := by
  unfold postScale
  dsimp only
  by_cases hc : M >>> 1 = 2 ^ 53
  · -- a carry into the next binade
    have hs : -1021 ≤ scale := by
      by_contra hlt
      have := hsub (not_le.mp hlt)
      omega
    rw [if_pos hc, hc, show (2 ^ 53 : ℕ) >>> 1 = 2 ^ 52 by decide,
      scaleFloat_normal le_rfl (by norm_num) (by omega), encodeDouble_carry,
      show max (scale - 53) (-1074) + 1 = scale + 1 - 53 by omega]
  · rw [if_neg hc]
    by_cases hs : scale < -1021
    · rw [scaleFloat_subnormal (hsub hs) hs, show max (scale - 53) (-1074) = -1074 by omega]
    · rw [scaleFloat_normal (hnormal (by omega)) (lt_of_le_of_ne hM hc) (by omega),
        show max (scale - 53) (-1074) = scale - 53 by omega]

end Rounding

section Correctness

theorem divFAbs_eq {m n : ℕ} (hm : 0 < m) (hn : 0 < n) : divFAbs m n = roundToDouble false ((m : ℚ) / n) := by
  have hq : (0 : ℚ) < m / n := by positivity
  obtain ⟨happrox, hlo, hhi⟩ := preScale_approximates hm hn
  obtain ⟨hscale, hsticky⟩ := mantissaAndGuard_spec happrox hq hlo hhi
  set g := mantissaAndGuard (preScale m n)
  set L := Int.log 2 ((m : ℚ) / n)
  have hu : max (L - 52) (-1074) = max L (-1022) - 52 := by omega
  have hhalf : (m / n : ℚ) * 2 ^ (53 - max L (-1022)) / 2 = (m / n : ℚ) / 2 ^ max (L - 52) (-1074) := by
    rw [hu, show (53 : ℤ) - max L (-1022) = -(max L (-1022) - 52) + 1 by omega, zpow_add₀ two_ne_zero,
      zpow_one, zpow_neg]
    field_simp
  have hround := roundToNearest_half hsticky
  rw [hhalf] at hround
  have hLlo : (2 : ℚ) ^ L ≤ m / n := by simpa using Int.zpow_log_le_self (R := ℚ) (by norm_num : 1 < 2) hq
  have hLhi : (m / n : ℚ) < 2 ^ (L + 1) := by
    simpa using Int.lt_zpow_succ_log_self (R := ℚ) (by norm_num : 1 < 2) ((m : ℚ) / n)
  have hpow : ∀ k : ℤ, (0 : ℚ) < 2 ^ k := fun k => zpow_pos two_pos k
  have hM : roundToNearest g.epsilon g.mantissaAndGuard g.rem >>> 1 ≤ 2 ^ 53 := by
    rw [hround]
    exact roundHalfEven_significand_le hq
  have hnormal : -1021 ≤ g.scale → 2 ^ 52 ≤ roundToNearest g.epsilon g.mantissaAndGuard g.rem >>> 1 := by
    intro hs
    rw [hround, show max (L - 52) (-1074) = L - 52 by omega]
    apply le_roundHalfEven_of_le
    rw [le_div_iff₀ (hpow _), Nat.cast_pow, Nat.cast_ofNat, ← zpow_natCast, ← zpow_add₀ two_ne_zero]
    calc (2 : ℚ) ^ (((52 : ℕ) : ℤ) + (L - 52)) = 2 ^ L := by congr 1; omega
      _ ≤ m / n := hLlo
  have hsub : g.scale < -1021 → roundToNearest g.epsilon g.mantissaAndGuard g.rem >>> 1 ≤ 2 ^ 52 := by
    intro hs
    rw [hround, show max (L - 52) (-1074) = -1074 by omega]
    apply roundHalfEven_le_of_lt (div_nonneg hq.le (hpow _).le)
    rw [div_lt_iff₀ (hpow _), Nat.cast_pow, Nat.cast_ofNat, ← zpow_natCast, ← zpow_add₀ two_ne_zero]
    calc (m / n : ℚ) < 2 ^ (L + 1) := hLhi
      _ ≤ 2 ^ (((52 : ℕ) : ℤ) + -1074) := zpow_le_zpow_right₀ (by norm_num) (by omega)
  rw [divFAbs, if_neg hm.ne', if_neg hn.ne']
  change postScale (roundToNearest g.epsilon g.mantissaAndGuard g.rem) g.scale = _
  rw [postScale_eq hM hnormal hsub, roundToDouble, if_neg hq.ne', hround,
    show max (g.scale - 53) (-1074) = max (L - 52) (-1074) by omega]
  rfl

/-- `bignum/f` rounds the quotient of two integers to the nearest double, ties
to even, with the sign of the quotient: subnormal results, a carry into the
next binade, overflow to an infinity and underflow to a zero included. -/
theorem bignumDivF_rounds_to_nearest_even (m n : ℤ) (hn : n ≠ 0) :
    bignumDivF m n = roundToDouble (decide (m < 0) ^^ decide (n < 0)) |(m : ℚ) / n| := by
  have habs : |(m : ℚ) / n| = (m.natAbs : ℚ) / n.natAbs := by
    rw [abs_div, Nat.cast_natAbs, Nat.cast_natAbs, Int.cast_abs, Int.cast_abs]
  have hnpos : 0 < n.natAbs := Int.natAbs_pos.mpr hn
  have hmag : divFAbs m.natAbs n.natAbs = roundToDouble false ((m.natAbs : ℚ) / n.natAbs) := by
    rcases Nat.eq_zero_or_pos m.natAbs with h0 | hpos
    · rw [divFAbs, if_pos h0, if_neg hnpos.ne', roundToDouble, h0, Nat.cast_zero, zero_div, if_pos rfl]
      rfl
    · exact divFAbs_eq hpos hnpos
  rw [habs, bignumDivF]
  change (if decide (m < 0) ^^ decide (n < 0) then floatNeg (divFAbs m.natAbs n.natAbs)
    else divFAbs m.natAbs n.natAbs) = _
  rw [hmag]
  by_cases hs : (decide (m < 0) ^^ decide (n < 0)) = true
  · rw [if_pos hs, hs, roundToDouble_true (by positivity)]
  · rw [if_neg hs, Bool.eq_false_iff.mpr hs]

theorem bignumDivF_rounds_one_third :
    (3 : ℤ) ≠ 0 ∧ bignumDivF 1 3 = roundToDouble (decide ((1 : ℤ) < 0) ^^ decide ((3 : ℤ) < 0)) |((1 : ℤ) : ℚ) / ((3 : ℤ) : ℚ)| :=
  ⟨by decide, bignumDivF_rounds_to_nearest_even 1 3 (by decide)⟩

end Correctness

end FactorProofs.Math
