import FactorProofs.Library.Digits
import FactorProofs.Vm.Layouts

namespace FactorProofs.Vm

open FactorProofs.Digits

/-- `BIGNUM_DIGIT_LENGTH`: a digit is a `fixnum` whose two high bits stay clear. -/
def bignumDigitLength : Nat := 62

def bignumHalfDigitLength : Nat := bignumDigitLength / 2

def bignumRadix : Nat := 2 ^ bignumDigitLength

def bignumRadixRoot : Nat := 2 ^ bignumHalfDigitLength

def bignumDigitMask : Nat := bignumRadix - 1

def bignumHalfDigitMask : Nat := bignumRadixRoot - 1

theorem one_lt_bignumRadix : 1 < bignumRadix := by decide

/-- A bignum object: the sign word read by `BIGNUM_NEGATIVE_P` and the
`BIGNUM_LENGTH` digits after it, least significant first. -/
structure Bignum where
  negativeP : Bool
  digits : List Nat
  deriving DecidableEq, Repr

namespace Bignum

def magnitude (x : Bignum) : Nat := Nat.ofDigits bignumRadix x.digits

def toInt (x : Bignum) : Int := if x.negativeP then -(x.magnitude : Int) else x.magnitude

/-- The form of every bignum the VM returns: digits below the radix, no zero
digit at the top, and no sign on zero. `bignum_equal_p` and
`bignum_compare_unsigned` compare lengths first, so they rely on it. -/
structure Canonical (x : Bignum) : Prop where
  digit_lt : ∀ d ∈ x.digits, d < bignumRadix
  getLast_ne_zero : ∀ h : x.digits ≠ [], x.digits.getLast h ≠ 0
  not_negativeP : x.digits = [] → x.negativeP = false

instance (x : Bignum) : Decidable x.Canonical :=
  decidable_of_iff ((∀ d ∈ x.digits, d < bignumRadix) ∧ (∀ h : x.digits ≠ [], x.digits.getLast h ≠ 0) ∧
      (x.digits = [] → x.negativeP = false))
    ⟨fun ⟨h₁, h₂, h₃⟩ => ⟨h₁, h₂, h₃⟩, fun ⟨h₁, h₂, h₃⟩ => ⟨h₁, h₂, h₃⟩⟩

/-- The canonical bignum of an integer. -/
def ofInt (n : Int) : Bignum := ⟨decide (n < 0), Nat.digits bignumRadix n.natAbs⟩

end Bignum

open Bignum

/-- `BIGNUM_ZERO ()`. -/
def bignumZero : Bignum := ⟨false, []⟩

/-- `BIGNUM_ONE (negative_p)`. -/
def bignumOne (negativeP : Bool) : Bignum := ⟨negativeP, [1]⟩

/-- `bignum_trim`: scan down from the top past zero digits; when any were
found, shorten the object and keep the sign only if a digit is left. -/
def bignumTrim (x : Bignum) : Bignum :=
  let digits := x.digits.rdropWhile (· == 0)
  if digits.length < x.digits.length then ⟨digits.length != 0 && x.negativeP, digits⟩ else x

/-- `fixnum_to_bignum`: the cached zero and ones, one digit below the radix,
or the digit loop of `FOO_TO_BIGNUM_SIGNED`; all of them are the base-`2^62`
expansion of the absolute value. -/
def fixnumToBignum (n : Int) : Bignum := Bignum.ofInt n

namespace Bignum

theorem canonical_ofInt (n : Int) : (ofInt n).Canonical where
  digit_lt _ hd := Nat.digits_lt_base one_lt_bignumRadix hd
  getLast_ne_zero h :=
    Nat.getLast_digit_ne_zero bignumRadix ((Nat.digits_ne_nil_iff_ne_zero (b := bignumRadix) (n := n.natAbs)).mp h)
  not_negativeP h := by
    have hn : n = 0 :=
      Int.natAbs_eq_zero.mp ((Nat.digits_eq_nil_iff_eq_zero (b := bignumRadix) (n := n.natAbs)).mp h)
    simp [ofInt, hn]

theorem toInt_ofInt (n : Int) : (ofInt n).toInt = n := by
  rw [toInt, magnitude, ofInt, Nat.ofDigits_digits]
  by_cases hn : n < 0
  · rw [if_pos (decide_eq_true hn), Int.ofNat_natAbs_of_nonpos hn.le, Int.neg_neg]
  · rw [if_neg (by simpa using hn), Int.natAbs_of_nonneg (by omega)]

theorem eq_ofInt_toInt {x : Bignum} (hx : x.Canonical) : x = ofInt x.toInt := by
  obtain ⟨negativeP, digits⟩ := x
  have hdigits : Nat.digits bignumRadix (Nat.ofDigits bignumRadix digits) = digits :=
    Nat.digits_ofDigits _ one_lt_bignumRadix _ hx.digit_lt hx.getLast_ne_zero
  have hpos : digits ≠ [] → 0 < Nat.ofDigits bignumRadix digits := by
    intro hne
    rw [Nat.pos_iff_ne_zero]
    intro h0
    rw [h0, Nat.digits_zero] at hdigits
    exact hne hdigits.symm
  cases negativeP with
  | false => simp [ofInt, toInt, magnitude, hdigits]
  | true =>
    have hne : digits ≠ [] := fun h => by simpa using hx.not_negativeP h
    have hneg : -((Nat.ofDigits bignumRadix digits : Nat) : Int) < 0 := by
      have := hpos hne
      omega
    simp only [ofInt, toInt, magnitude, if_true, decide_eq_true hneg, Int.natAbs_neg, Int.natAbs_natCast,
      hdigits]

theorem Canonical.magnitude_eq_zero_iff {x : Bignum} (hx : x.Canonical) :
    x.magnitude = 0 ↔ x.digits = [] := by
  constructor
  · intro h
    rw [← Nat.digits_ofDigits _ one_lt_bignumRadix _ hx.digit_lt hx.getLast_ne_zero]
    rw [magnitude] at h
    rw [h, Nat.digits_zero]
  · intro h
    rw [magnitude, h, Nat.ofDigits_nil]

theorem toInt_of_negativeP_eq_false {x : Bignum} (h : x.negativeP = false) : x.toInt = x.magnitude := by
  rw [toInt, h, if_neg Bool.false_ne_true]

theorem Canonical.toInt_lt_zero {x : Bignum} (hx : x.Canonical) (hneg : x.negativeP = true) :
    x.toInt < 0 := by
  have hne : x.digits ≠ [] := fun h => by simp [hx.not_negativeP h] at hneg
  have hpos : 0 < x.magnitude := Nat.pos_of_ne_zero fun h => hne (hx.magnitude_eq_zero_iff.mp h)
  rw [toInt, if_pos hneg]
  omega

theorem Canonical.negativeP_eq_false {x : Bignum} (hx : x.Canonical) (h : 0 ≤ x.toInt) :
    x.negativeP = false := by
  cases hneg : x.negativeP with
  | false => rfl
  | true => exact absurd h (Int.not_le.mpr (hx.toInt_lt_zero hneg))

theorem eq_of_toInt_eq {x y : Bignum} (hx : x.Canonical) (hy : y.Canonical) (h : x.toInt = y.toInt) :
    x = y := by
  rw [eq_ofInt_toInt hx, eq_ofInt_toInt hy, h]

end Bignum

theorem magnitude_bignumTrim (x : Bignum) : (bignumTrim x).magnitude = x.magnitude := by
  dsimp only [bignumTrim]
  split
  · exact ofDigits_rdropWhile_zero x.digits
  · rfl

theorem toInt_bignumTrim (x : Bignum) : (bignumTrim x).toInt = x.toInt := by
  dsimp only [bignumTrim]
  split
  · have hmag := ofDigits_rdropWhile_zero (b := bignumRadix) x.digits
    by_cases hnil : x.digits.rdropWhile (· == 0) = []
    · have hzero : Nat.ofDigits bignumRadix x.digits = 0 := by rw [← hmag, hnil]; rfl
      simp [toInt, magnitude, hnil, hzero]
    · have hlen : (x.digits.rdropWhile (· == 0)).length ≠ 0 := by simpa using hnil
      simp [toInt, magnitude, hlen, hmag]
  · rfl

theorem canonical_bignumTrim {x : Bignum} (hlt : ∀ d ∈ x.digits, d < bignumRadix)
    (hsign : x.digits = [] → x.negativeP = false) : (bignumTrim x).Canonical := by
  dsimp only [bignumTrim]
  split
  · refine ⟨fun d hd => lt_of_mem_rdropWhile hlt hd, getLast_rdropWhile_zero_ne x.digits, ?_⟩
    intro h
    dsimp only at h ⊢
    rw [h]
    rfl
  · rename_i hlen
    have hprefix := List.rdropWhile_prefix (· == 0) x.digits
    have hself : x.digits.rdropWhile (· == 0) = x.digits :=
      hprefix.eq_of_length (Nat.le_antisymm hprefix.length_le (by omega))
    refine ⟨hlt, fun h => ?_, hsign⟩
    simpa using List.rdropWhile_eq_self_iff.mp hself h

end FactorProofs.Vm
