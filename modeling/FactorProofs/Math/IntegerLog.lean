import Mathlib.Data.Int.Log
import Mathlib.Data.Rat.Floor
import Mathlib.Algebra.Order.Floor.Semifield
import FactorProofs.Vm.Layouts
import FactorProofs.Math.IntegerSqrt

namespace FactorProofs.Math

/-! `integer-log2` and `integer-log10` on positive rationals. On an integer,
`(log2)` is the index of the top bit; `(integer-log10)` of a fixnum reads a
guess off the top bit and corrects it once against a table, and of a bignum
searches down or up from the guess the float product `(log2) * log10-2`
gives. A ratio at or above 1 takes the log of its integer part; below 1, that
of its reciprocal, negated and less one unless the reciprocal is a power. -/

/-- `log10-guesses`: at `i`, the decimal log of `2 ^ i`. -/
def log10Guesses : List ℕ :=
  [0, 0, 0, 0, 1, 1, 1, 2, 2, 2, 3, 3, 3, 3,
    4, 4, 4, 5, 5, 5, 6, 6, 6, 6, 7, 7, 7, 8,
    8, 8, 9, 9, 9, 9, 10, 10, 10, 11, 11, 11,
    12, 12, 12, 12, 13, 13, 13, 14, 14, 14,
    15, 15, 15, 15, 16, 16, 16, 17, 17]

/-- `log10-thresholds`: `10 ^ (i + 1) - 1`, and last `most-positive-fixnum`. -/
def log10Thresholds : List ℕ :=
  [9, 99, 999, 9999, 99999, 999999,
    9999999, 99999999, 999999999,
    9999999999, 99999999999,
    999999999999, 9999999999999,
    99999999999999, 999999999999999,
    9999999999999999, 99999999999999999,
    576460752303423487]

/-- `fixnum-integer-log10` -/
def fixnumIntegerLog10 (n : ℕ) : ℕ :=
  let guess := log10Guesses.getD (Nat.log2 n) 0
  if log10Thresholds.getD guess 0 < n then guess + 1 else guess

/-- `bignum-integer-log10-find-down`: `[ 2dup > ] [ ... ] do while` on
`guess 10^guess n`; every turn lowers the guess, so the guess bounds them. -/
def bignumIntegerLog10FindDown (n : ℕ) : ℕ → ℕ → ℕ → ℕ
  | 0, guess, _ => guess
  | fuel + 1, guess, p => if p / 10 > n then bignumIntegerLog10FindDown n fuel (guess - 1) (p / 10) else guess - 1

/-- `bignum-integer-log10-find-up`, after `[ 10 * ] dip`: `p` is `10 ^ (guess + 1)`. -/
def bignumIntegerLog10FindUp (n : ℕ) : ℕ → ℕ → ℕ → ℕ
  | 0, guess, _ => guess
  | fuel + 1, guess, p => if p ≤ n then bignumIntegerLog10FindUp n fuel (guess + 1) (p * 10) else guess

/-- `bignum-integer-log10` from the guess of `bignum-integer-log10-guess`. -/
def bignumIntegerLog10 (guess n : ℕ) : ℕ :=
  if 10 ^ guess > n then bignumIntegerLog10FindDown n guess guess (10 ^ guess)
  else bignumIntegerLog10FindUp n n guess (10 ^ guess * 10)

/-- `(integer-log10)` on a positive integer; `guess` is the float computation
of `bignum-integer-log10-guess`, which the result does not depend on. -/
def integerLog10Integer (guess : ℕ → ℕ) (n : ℕ) : ℕ :=
  if (n : ℤ) ≤ Vm.fixnumMax then fixnumIntegerLog10 n else bignumIntegerLog10 (guess n) n

/-- `(ratio-integer-log)` with the integer log `quot` to the `base`; `>integer`
of a positive ratio is `>fraction /i`. -/
def ratioIntegerLog (quot : ℕ → ℕ) (base : ℕ) (ratio : ℚ) : ℤ :=
  if ratio ≥ 1 then quot (ratio.num.toNat / ratio.den)
  else
    let l := quot (ratio⁻¹.num.toNat / ratio⁻¹.den)
    if ratio⁻¹ = (base : ℚ) ^ l then -(l : ℤ) else -((l : ℤ) + 1)

/-- `integer-log2`; `none` is the `positive-number-expected` error. -/
def integerLog2 (x : ℚ) : Option ℤ :=
  if 0 < x then some (if x.den = 1 then (Nat.log2 x.num.toNat : ℤ) else ratioIntegerLog Nat.log2 2 x)
  else none

/-- `integer-log10`; `none` is the `positive-number-expected` error. -/
def integerLog10 (guess : ℕ → ℕ) (x : ℚ) : Option ℤ :=
  if 0 < x then
    some (if x.den = 1 then (integerLog10Integer guess x.num.toNat : ℤ)
      else ratioIntegerLog (integerLog10Integer guess) 10 x)
  else none

theorem log10_tables : ∀ i < 59,
    10 ^ log10Guesses.getD i 0 ≤ 2 ^ i ∧ 2 ^ (i + 1) ≤ 10 ^ log10Guesses.getD i 0 * 100 ∧
      (log10Thresholds.getD (log10Guesses.getD i 0) 0 + 1 = 10 ^ (log10Guesses.getD i 0 + 1) ∨
        2 ^ 59 ≤ log10Thresholds.getD (log10Guesses.getD i 0) 0 + 1 ∧
          2 ^ (i + 1) ≤ 10 ^ (log10Guesses.getD i 0 + 1)) := by
  decide

theorem fixnumMax_eq : Vm.fixnumMax = 2 ^ 59 - 1 := by decide

theorem fixnumIntegerLog10_eq {n : ℕ} (hn : n ≠ 0) (hfix : (n : ℤ) ≤ Vm.fixnumMax) :
    fixnumIntegerLog10 n = Nat.log 10 n := by
  rw [fixnumMax_eq] at hfix
  have hlo : 2 ^ Nat.log2 n ≤ n := Nat.log2_self_le hn
  have hhi : n < 2 ^ (Nat.log2 n + 1) := Nat.lt_log2_self
  have hj : Nat.log2 n < 59 := by
    by_contra hge
    have := (Nat.pow_le_pow_right (by decide) (Nat.le_of_not_lt hge)).trans hlo
    omega
  obtain ⟨h1, h2, h3⟩ := log10_tables _ hj
  have hlog : ∀ r, 10 ^ r ≤ n → n < 10 ^ (r + 1) → r = Nat.log 10 n := fun r h h' =>
    ((Nat.log_eq_iff (Or.inr ⟨by decide, hn⟩)).mpr ⟨h, h'⟩).symm
  unfold fixnumIntegerLog10
  dsimp only
  rcases h3 with h3 | ⟨h3, h4⟩
  · -- the threshold is `10 ^ (g + 1) - 1`: one comparison settles the log
    split
    · exact hlog _ (by omega) (by omega)
    · exact hlog _ (by omega) (by omega)
  · -- no fixnum is above the last threshold
    rw [if_neg (by omega)]
    exact hlog _ (by omega) (by omega)

theorem bignumIntegerLog10FindDown_eq {n : ℕ} (hn : n ≠ 0) :
    ∀ fuel guess, guess ≤ fuel → n < 10 ^ guess →
      bignumIntegerLog10FindDown n fuel guess (10 ^ guess) = Nat.log 10 n
  | 0, guess, hg, hlt => by
    have : guess = 0 := by omega
    subst this
    omega
  | fuel + 1, guess, hg, hlt => by
    have hg1 : 1 ≤ guess := by
      rcases Nat.eq_zero_or_pos guess with h0 | h0
      · subst h0
        omega
      · exact h0
    have hdiv : 10 ^ guess / 10 = 10 ^ (guess - 1) := by
      rw [show guess = guess - 1 + 1 by omega, Nat.pow_succ, Nat.mul_div_cancel _ (by decide), Nat.add_sub_cancel]
    rw [bignumIntegerLog10FindDown, hdiv]
    split
    · exact bignumIntegerLog10FindDown_eq hn fuel (guess - 1) (by omega) (by assumption)
    · rename_i hle
      refine ((Nat.log_eq_iff (Or.inr ⟨by decide, hn⟩)).mpr ⟨Nat.le_of_not_lt hle, ?_⟩).symm
      rwa [Nat.sub_add_cancel hg1]

theorem bignumIntegerLog10FindUp_eq {n : ℕ} (hn : n ≠ 0) :
    ∀ fuel guess, Nat.log 10 n ≤ guess + fuel → 10 ^ guess ≤ n →
      bignumIntegerLog10FindUp n fuel guess (10 ^ (guess + 1)) = Nat.log 10 n
  | 0, guess, hg, hle => by
    have := Nat.le_log_of_pow_le (by decide) hle
    rw [bignumIntegerLog10FindUp]
    omega
  | fuel + 1, guess, hg, hle => by
    rw [bignumIntegerLog10FindUp]
    split
    · rename_i hnext
      rw [← Nat.pow_succ]
      exact bignumIntegerLog10FindUp_eq hn fuel (guess + 1) (by omega) hnext
    · rename_i hlt
      exact ((Nat.log_eq_iff (Or.inr ⟨by decide, hn⟩)).mpr ⟨hle, Nat.lt_of_not_le hlt⟩).symm

theorem bignumIntegerLog10_eq (guess : ℕ) {n : ℕ} (hn : n ≠ 0) : bignumIntegerLog10 guess n = Nat.log 10 n := by
  unfold bignumIntegerLog10
  split
  · exact bignumIntegerLog10FindDown_eq hn guess guess (Nat.le_refl _) (by assumption)
  · rename_i hle
    rw [← Nat.pow_succ]
    exact bignumIntegerLog10FindUp_eq hn n guess (by have := Nat.log_le_self 10 n; omega) (Nat.le_of_not_lt hle)

theorem integerLog10Integer_eq (guess : ℕ → ℕ) {n : ℕ} (hn : n ≠ 0) :
    integerLog10Integer guess n = Nat.log 10 n := by
  unfold integerLog10Integer
  split
  · exact fixnumIntegerLog10_eq hn (by assumption)
  · exact bignumIntegerLog10_eq _ hn

section Ratio

variable {b : ℕ} {quot : ℕ → ℕ}

theorem num_toNat_div_den {r : ℚ} (hr : 0 ≤ r) : r.num.toNat / r.den = ⌊r⌋₊ := by
  have hnum : ((r.num.toNat : ℕ) : ℚ) = r.num := by
    have h : ((r.num.toNat : ℕ) : ℤ) = r.num := Int.toNat_of_nonneg (Rat.num_nonneg.mpr hr)
    exact_mod_cast h
  conv_rhs => rw [← Rat.num_div_den r, ← hnum]
  exact (Nat.floor_div_eq_div _ _).symm

theorem log_eq_of_zpow (hb : 1 < b) {r : ℚ} {k : ℤ} (h1 : (b : ℚ) ^ k ≤ r) (h2 : r < (b : ℚ) ^ (k + 1)) :
    Int.log b r = k := by
  have hb' : (1 : ℚ) < b := by exact_mod_cast hb
  have hr : 0 < r := lt_of_lt_of_le (zpow_pos (by positivity) k) h1
  have hlo := Int.zpow_log_le_self hb hr
  have hhi := Int.lt_zpow_succ_log_self hb r
  rcases lt_trichotomy (Int.log b r) k with hlt | heq | hgt
  · have := zpow_le_zpow_right₀ hb'.le (show Int.log b r + 1 ≤ k by omega)
    exact absurd (lt_of_lt_of_le hhi (this.trans h1)) (lt_irrefl r)
  · exact heq
  · have := zpow_le_zpow_right₀ hb'.le (show k + 1 ≤ Int.log b r by omega)
    exact absurd (lt_of_lt_of_le h2 (this.trans hlo)) (lt_irrefl r)

theorem ratioIntegerLog_of_one_le (hquot : ∀ n, n ≠ 0 → quot n = Nat.log b n) {r : ℚ} (hr : 1 ≤ r) :
    ratioIntegerLog quot b r = Int.log b r := by
  rw [ratioIntegerLog, if_pos hr, num_toNat_div_den (by linarith), Int.log_of_one_le_right b hr,
    hquot _ (Nat.one_le_iff_ne_zero.mp ((Nat.one_le_floor_iff r).mpr hr))]

theorem ratioIntegerLog_eq (hb : 1 < b) (hquot : ∀ n, n ≠ 0 → quot n = Nat.log b n) {r : ℚ} (hr : 0 < r) :
    ratioIntegerLog quot b r = Int.log b r := by
  by_cases h1 : 1 ≤ r
  · exact ratioIntegerLog_of_one_le hquot h1
  have hb' : (1 : ℚ) < b := by exact_mod_cast hb
  have hbpos : (0 : ℚ) < b := by linarith
  have hinv : 1 ≤ r⁻¹ := by
    rw [le_inv_comm₀ (by norm_num) hr, inv_one]
    exact le_of_lt (not_le.mp h1)
  set l := quot (r⁻¹.num.toNat / r⁻¹.den) with hl
  have hlog : Int.log b r⁻¹ = l := by
    rw [← ratioIntegerLog_of_one_le hquot hinv, ratioIntegerLog, if_pos hinv]
  have hlo : (b : ℚ) ^ (l : ℤ) ≤ r⁻¹ := hlog ▸ Int.zpow_log_le_self hb (by positivity)
  have hhi : r⁻¹ < (b : ℚ) ^ ((l : ℤ) + 1) := hlog ▸ Int.lt_zpow_succ_log_self hb _
  rw [ratioIntegerLog, if_neg h1]
  dsimp only
  rw [← hl]
  symm
  split
  · -- the reciprocal is `b ^ l`, so `r` is `b ^ -l`
    rename_i hpow
    have hr' : r = (b : ℚ) ^ (-(l : ℤ)) := by rw [zpow_neg, zpow_natCast, ← hpow, inv_inv]
    apply log_eq_of_zpow hb (le_of_eq hr'.symm)
    rw [hr']
    exact zpow_lt_zpow_right₀ hb' (by omega)
  · -- strictly between two powers
    rename_i hpow
    have hlt : (b : ℚ) ^ (l : ℤ) < r⁻¹ := lt_of_le_of_ne hlo (by rw [zpow_natCast]; exact Ne.symm hpow)
    apply log_eq_of_zpow hb
    · rw [show -((l : ℤ) + 1) = -((l : ℤ) + 1) from rfl, zpow_neg, inv_le_comm₀ (zpow_pos hbpos _) hr]
      exact le_of_lt hhi
    · rw [show -((l : ℤ) + 1) + 1 = -(l : ℤ) by ring, zpow_neg, lt_inv_comm₀ hr (zpow_pos hbpos _)]
      exact hlt

end Ratio

theorem integerLog2_eq {x : ℚ} (hx : 0 < x) : integerLog2 x = some (Int.log 2 x) := by
  rw [integerLog2, if_pos hx]
  congr 1
  split
  · rename_i hden
    have hnum : (x.num.toNat : ℚ) = x := by
      have h : ((x.num.toNat : ℕ) : ℤ) = x.num := Int.toNat_of_nonneg (Rat.num_nonneg.mpr hx.le)
      rw [← Rat.coe_int_num_of_den_eq_one hden]
      exact_mod_cast h
    rw [Nat.log2_eq_log_two, ← Int.log_natCast (R := ℚ), hnum]
  · exact ratioIntegerLog_eq (by decide) (fun n _ => Nat.log2_eq_log_two) hx

theorem integerLog10_eq (guess : ℕ → ℕ) {x : ℚ} (hx : 0 < x) : integerLog10 guess x = some (Int.log 10 x) := by
  rw [integerLog10, if_pos hx]
  congr 1
  split
  · rename_i hden
    have hnum : (x.num.toNat : ℚ) = x := by
      have h : ((x.num.toNat : ℕ) : ℤ) = x.num := Int.toNat_of_nonneg (Rat.num_nonneg.mpr hx.le)
      rw [← Rat.coe_int_num_of_den_eq_one hden]
      exact_mod_cast h
    have hne : x.num.toNat ≠ 0 := by
      intro h0
      rw [h0, Nat.cast_zero] at hnum
      linarith
    rw [integerLog10Integer_eq guess hne, ← Int.log_natCast (R := ℚ), hnum]
  · exact ratioIntegerLog_eq (by decide) (fun n hn => integerLog10Integer_eq guess hn) hx

/-- `integer-sqrt` is the floor of the square root of every non-negative
integer, and `integer-log2` and `integer-log10` are the floor logs of every
positive rational, fixnum, bignum or ratio. -/
theorem integerSqrt_integerLog_floor :
    (∀ x : ℤ, 0 ≤ x → ∃ n, integerSqrt x = some n ∧ (n : ℤ) ^ 2 ≤ x ∧ x < ((n : ℤ) + 1) ^ 2) ∧
      (∀ x : ℚ, 0 < x → ∃ k, integerLog2 x = some k ∧ (2 : ℚ) ^ k ≤ x ∧ x < 2 ^ (k + 1)) ∧
      ∀ (guess : ℕ → ℕ) (x : ℚ), 0 < x →
        ∃ k, integerLog10 guess x = some k ∧ (10 : ℚ) ^ k ≤ x ∧ x < 10 ^ (k + 1) := by
  refine ⟨fun x hx => (integerSqrt_spec x).1 hx, fun x hx => ?_, fun guess x hx => ?_⟩
  · refine ⟨_, integerLog2_eq hx, ?_, ?_⟩
    · exact_mod_cast Int.zpow_log_le_self (b := 2) (by decide) hx
    · exact_mod_cast Int.lt_zpow_succ_log_self (b := 2) (by decide) x
  · refine ⟨_, integerLog10_eq guess hx, ?_, ?_⟩
    · exact_mod_cast Int.zpow_log_le_self (b := 10) (by decide) hx
    · exact_mod_cast Int.lt_zpow_succ_log_self (b := 10) (by decide) x

theorem integerSqrt_integerLog_floor_samples :
    (∃ n, integerSqrt 10 = some n ∧ (n : ℤ) ^ 2 ≤ 10 ∧ 10 < ((n : ℤ) + 1) ^ 2) ∧
      (∃ k, integerLog2 (3 / 8) = some k ∧ (2 : ℚ) ^ k ≤ 3 / 8 ∧ 3 / 8 < (2 : ℚ) ^ (k + 1)) ∧
      (∃ k, integerLog10 (fun _ => 0) (1 / 250) = some k ∧ (10 : ℚ) ^ k ≤ 1 / 250 ∧
        1 / 250 < (10 : ℚ) ^ (k + 1)) :=
  ⟨integerSqrt_integerLog_floor.1 10 (by decide), integerSqrt_integerLog_floor.2.1 _ (by norm_num),
    integerSqrt_integerLog_floor.2.2 _ _ (by norm_num)⟩

end FactorProofs.Math
