import FactorProofs.Vm.Bignum
import Mathlib.Data.Int.Bitwise

namespace FactorProofs.Vm

open Bignum

/-! The bitwise operations of `bignum.cpp`. A negative operand is turned into
its two's complement digit by digit, with the carry of the added one passed
up; the digits are combined over a chosen result length and a negative result
is negated back by `bignum_negate_magnitude`. -/

/-- `AND_OP`, `IOR_OP`, `XOR_OP`. -/
inductive BitwiseOp where
  | andOp
  | iorOp
  | xorOp
  deriving DecidableEq, Repr

def BitwiseOp.apply : BitwiseOp → Nat → Nat → Nat
  | .andOp, a, b => a &&& b
  | .iorOp, a, b => a ||| b
  | .xorOp, a, b => a ^^^ b

/-- One digit of a two's complement: `(~digit & BIGNUM_DIGIT_MASK) + carry`,
which is `BIGNUM_DIGIT_MASK - digit + carry` for a digit below the radix,
brought back below the radix with the carry out. -/
def complementStep (digit carry : Nat) : Nat × Nat :=
  let digit := bignumDigitMask - digit + carry
  if digit < bignumRadix then (digit, 0) else (digit - bignumRadix, 1)

/-- The loop of `bignum_pospos_bitwise_op` over `max_length` digits, reading
zero past the end of either operand. -/
def posposLoop (op : BitwiseOp) : Nat → List Nat → List Nat → List Nat
  | 0, _, _ => []
  | n + 1, xs, ys => op.apply (xs.headD 0) (ys.headD 0) :: posposLoop op n xs.tail ys.tail

/-- The loop of `bignum_posneg_bitwise_op`: the second operand is negative and
enters in two's complement, `carry2` starting at one. -/
def posnegLoop (op : BitwiseOp) : Nat → List Nat → List Nat → Nat → List Nat
  | 0, _, _, _ => []
  | n + 1, xs, ys, carry2 =>
    let (digit2, carry2) := complementStep (ys.headD 0) carry2
    op.apply (xs.headD 0) digit2 :: posnegLoop op n xs.tail ys.tail carry2

/-- The loop of `bignum_negneg_bitwise_op`: both operands enter in two's
complement. -/
def negnegLoop (op : BitwiseOp) : Nat → List Nat → List Nat → Nat → Nat → List Nat
  | 0, _, _, _, _ => []
  | n + 1, xs, ys, carry1, carry2 =>
    let (digit1, carry1) := complementStep (xs.headD 0) carry1
    let (digit2, carry2) := complementStep (ys.headD 0) carry2
    op.apply digit1 digit2 :: negnegLoop op n xs.tail ys.tail carry1 carry2

/-- `bignum_negate_magnitude`: the two's complement of the digits in place,
over the object's own length; the last carry is dropped. -/
def bignumNegateMagnitude : List Nat → Nat → List Nat
  | [], _ => []
  | digit :: digits, carry =>
    let (digit, carry) := complementStep digit carry
    digit :: bignumNegateMagnitude digits carry

def bignumPosposBitwiseOp (op : BitwiseOp) (arg1 arg2 : Bignum) : Bignum :=
  let maxLength := if arg1.digits.length > arg2.digits.length then arg1.digits.length
    else arg2.digits.length
  bignumTrim ⟨false, posposLoop op maxLength arg1.digits arg2.digits⟩

/-- `bignum_posneg_bitwise_op`: `arg2` is the negative operand. The result is
negative for `ior` and `xor`, and has `max(len1, len2 + 1)` digits. -/
def bignumPosnegBitwiseOp (op : BitwiseOp) (arg1 arg2 : Bignum) : Bignum :=
  let negP := op == .iorOp || op == .xorOp
  let maxLength := if arg1.digits.length > arg2.digits.length + 1 then arg1.digits.length
    else arg2.digits.length + 1
  let result := posnegLoop op maxLength arg1.digits arg2.digits 1
  bignumTrim ⟨negP, if negP then bignumNegateMagnitude result 1 else result⟩

/-- `bignum_negneg_bitwise_op`: the result is negative for `and` and `ior`,
and has `max(len1, len2) + 1` digits. -/
def bignumNegnegBitwiseOp (op : BitwiseOp) (arg1 arg2 : Bignum) : Bignum :=
  let negP := op == .andOp || op == .iorOp
  let maxLength := if arg1.digits.length > arg2.digits.length then arg1.digits.length + 1
    else arg2.digits.length + 1
  let result := negnegLoop op maxLength arg1.digits arg2.digits 1 1
  bignumTrim ⟨negP, if negP then bignumNegateMagnitude result 1 else result⟩

/-- The dispatch shared by `bignum_bitwise_and`, `bignum_bitwise_ior` and
`bignum_bitwise_xor`: the negative operand goes second to the mixed case. -/
def bignumBitwiseOp (op : BitwiseOp) (arg1 arg2 : Bignum) : Bignum :=
  if arg1.negativeP then
    if arg2.negativeP then bignumNegnegBitwiseOp op arg1 arg2 else bignumPosnegBitwiseOp op arg2 arg1
  else if arg2.negativeP then bignumPosnegBitwiseOp op arg1 arg2 else bignumPosposBitwiseOp op arg1 arg2

def bignumBitwiseAnd (arg1 arg2 : Bignum) : Bignum := bignumBitwiseOp .andOp arg1 arg2

def bignumBitwiseIor (arg1 arg2 : Bignum) : Bignum := bignumBitwiseOp .iorOp arg1 arg2

def bignumBitwiseXor (arg1 arg2 : Bignum) : Bignum := bignumBitwiseOp .xorOp arg1 arg2

/-- The borrow loop of `bignum_bitwise_not` on a negative bignum: one is
subtracted from the magnitude; the flag says the borrow ran off the end. -/
def decrementDigits : List Nat → List Nat × Bool
  | [] => ([], true)
  | digit :: digits =>
    if digit = 0 then
      let rest := decrementDigits digits
      ((bignumRadix - 1) :: rest.1, rest.2)
    else ((digit - 1) :: digits, false)

/-- The carry loop of `bignum_bitwise_not` on a non-negative bignum: one is
added to the magnitude. -/
def incrementDigits : List Nat → List Nat × Bool
  | [] => ([], true)
  | digit :: digits =>
    if digit = bignumRadix - 1 then
      let rest := incrementDigits digits
      (0 :: rest.1, rest.2)
    else ((digit + 1) :: digits, false)

/-- `bignum_bitwise_not`: `-x - 1` with the opposite sign; a carry out of the
top digit extends the result by a digit 1. -/
def bignumBitwiseNot (x : Bignum) : Bignum :=
  let y := if x.negativeP then decrementDigits x.digits else incrementDigits x.digits
  if y.2 then ⟨!x.negativeP, y.1 ++ [1]⟩ else bignumTrim ⟨!x.negativeP, y.1⟩

section Not

variable {digits : List Nat}

theorem length_incrementDigits (digits : List Nat) : (incrementDigits digits).1.length = digits.length := by
  induction digits with
  | nil => rfl
  | cons digit digits ih =>
    unfold incrementDigits
    split <;> simp [ih]

theorem length_decrementDigits (digits : List Nat) : (decrementDigits digits).1.length = digits.length := by
  induction digits with
  | nil => rfl
  | cons digit digits ih =>
    unfold decrementDigits
    split <;> simp [ih]

theorem lt_of_mem_incrementDigits (h : ∀ d ∈ digits, d < bignumRadix) :
    ∀ d ∈ (incrementDigits digits).1, d < bignumRadix := by
  induction digits with
  | nil => simp [incrementDigits]
  | cons digit digits ih =>
    have hd := h digit List.mem_cons_self
    have htail : ∀ d ∈ digits, d < bignumRadix := fun d hd => h d (List.mem_cons_of_mem _ hd)
    unfold incrementDigits
    split
    · simp only [List.mem_cons, forall_eq_or_imp]
      exact ⟨Nat.zero_lt_of_lt one_lt_bignumRadix, ih htail⟩
    · simp only [List.mem_cons, forall_eq_or_imp]
      exact ⟨by omega, htail⟩

theorem lt_of_mem_decrementDigits (h : ∀ d ∈ digits, d < bignumRadix) :
    ∀ d ∈ (decrementDigits digits).1, d < bignumRadix := by
  induction digits with
  | nil => simp [decrementDigits]
  | cons digit digits ih =>
    have hd := h digit List.mem_cons_self
    have htail : ∀ d ∈ digits, d < bignumRadix := fun d hd => h d (List.mem_cons_of_mem _ hd)
    unfold decrementDigits
    split
    · simp only [List.mem_cons, forall_eq_or_imp]
      exact ⟨Nat.sub_lt (Nat.zero_lt_of_lt one_lt_bignumRadix) Nat.one_pos, ih htail⟩
    · simp only [List.mem_cons, forall_eq_or_imp]
      exact ⟨by omega, htail⟩

theorem ite_pow_succ (c : Bool) (n : Nat) :
    (if c then bignumRadix ^ (n + 1) else 0) = bignumRadix * (if c then bignumRadix ^ n else 0) := by
  cases c <;> simp [Nat.pow_succ, Nat.mul_comm]

theorem ofDigits_incrementDigits (digits : List Nat) :
    Nat.ofDigits bignumRadix (incrementDigits digits).1 +
        (if (incrementDigits digits).2 then bignumRadix ^ digits.length else 0) =
      Nat.ofDigits bignumRadix digits + 1 := by
  induction digits with
  | nil => simp [incrementDigits]
  | cons digit digits ih =>
    have hR := one_lt_bignumRadix
    unfold incrementDigits
    split
    · -- a top digit carries: the rest is incremented and the digit wraps to zero
      rename_i hmax
      dsimp only
      rw [Nat.ofDigits_cons, Nat.ofDigits_cons, List.length_cons, ite_pow_succ, hmax]
      have hmul := congrArg (bignumRadix * ·) ih
      simp only [Nat.mul_add] at hmul
      omega
    · rw [Nat.ofDigits_cons, Nat.ofDigits_cons]
      simp only [Bool.false_eq_true, if_false]
      omega

theorem ofDigits_decrementDigits (digits : List Nat) :
    Nat.ofDigits bignumRadix (decrementDigits digits).1 + 1 =
      Nat.ofDigits bignumRadix digits +
        (if (decrementDigits digits).2 then bignumRadix ^ digits.length else 0) := by
  induction digits with
  | nil => simp [decrementDigits]
  | cons digit digits ih =>
    have hR := one_lt_bignumRadix
    unfold decrementDigits
    split
    · -- a zero digit borrows: the rest is decremented and the digit becomes the mask
      rename_i hzero
      dsimp only
      rw [Nat.ofDigits_cons, Nat.ofDigits_cons, List.length_cons, ite_pow_succ, hzero]
      have hmul := congrArg (bignumRadix * ·) ih
      simp only [Nat.mul_add] at hmul
      omega
    · rw [Nat.ofDigits_cons, Nat.ofDigits_cons]
      simp only [Bool.false_eq_true, if_false]
      omega

theorem bignumBitwiseNot_spec {x : Bignum} (hx : x.Canonical) :
    (bignumBitwiseNot x).Canonical ∧ (bignumBitwiseNot x).toInt = -x.toInt - 1 := by
  have hR := one_lt_bignumRadix
  cases hneg : x.negativeP with
  | true =>
    have hne : x.digits ≠ [] := fun h => by simp [hx.not_negativeP h] at hneg
    have hpos : 0 < x.magnitude := Nat.pos_of_ne_zero fun h => hne (hx.magnitude_eq_zero_iff.mp h)
    have hdec := ofDigits_decrementDigits x.digits
    have hlt := lt_of_mem_decrementDigits hx.digit_lt
    have hbound := Nat.ofDigits_lt_base_pow_length one_lt_bignumRadix hlt
    rw [length_decrementDigits] at hbound
    have hcarry : (decrementDigits x.digits).2 = false := by
      cases hc : (decrementDigits x.digits).2 with
      | false => rfl
      | true =>
        rw [hc, if_pos rfl] at hdec
        simp only [magnitude] at hpos
        omega
    simp only [bignumBitwiseNot, hneg, if_true, hcarry, Bool.false_eq_true, if_false, Bool.not_true]
    refine ⟨canonical_bignumTrim hlt fun _ => rfl, ?_⟩
    rw [toInt_bignumTrim]
    rw [hcarry, if_neg (by simp)] at hdec
    simp only [toInt, hneg, if_true, Bool.false_eq_true, if_false, magnitude] at hpos ⊢
    omega
  | false =>
    have hinc := ofDigits_incrementDigits x.digits
    have hlt := lt_of_mem_incrementDigits hx.digit_lt
    cases hcarry : (incrementDigits x.digits).2 with
    | true =>
      rw [hcarry, if_pos rfl] at hinc
      simp only [bignumBitwiseNot, hneg, Bool.false_eq_true, if_false, hcarry, if_true, Bool.not_false]
      refine ⟨⟨?_, fun _ => by simp, fun h => by simp at h⟩, ?_⟩
      · intro d hd
        rcases List.mem_append.mp hd with hd | hd
        · exact hlt d hd
        · rw [List.mem_singleton.mp hd]
          exact hR
      · simp only [toInt, hneg, if_true, Bool.false_eq_true, if_false, magnitude, Nat.ofDigits_append,
          Nat.ofDigits_singleton, length_incrementDigits]
        omega
    | false =>
      rw [hcarry, if_neg (by simp)] at hinc
      simp only [bignumBitwiseNot, hneg, Bool.false_eq_true, if_false, hcarry, Bool.not_false]
      have hne : (incrementDigits x.digits).1 ≠ [] := by
        intro h
        rw [h, Nat.ofDigits_nil] at hinc
        omega
      refine ⟨canonical_bignumTrim hlt fun h => absurd h hne, ?_⟩
      rw [toInt_bignumTrim]
      simp only [toInt, hneg, if_true, Bool.false_eq_true, if_false, magnitude]
      omega

end Not

/-- `bignum_posneg_bitwise_op` sizes the result of an `xor` as
`max(len1, len2 + 1)` digits. When the positive operand is the longer one and
its top digits are all ones, the two's complement of the negative result needs
one digit more, and `bignum_negate_magnitude` drops that carry:
`(2^124 - 1) bitxor -1` is `-2^124`, and the VM returns `0`. -/
theorem bignumBitwiseXor_drops_carry :
    (⟨false, [bignumDigitMask, bignumDigitMask]⟩ : Bignum).Canonical ∧ (fixnumToBignum (-1)).Canonical ∧
      (⟨false, [bignumDigitMask, bignumDigitMask]⟩ : Bignum).toInt = 2 ^ 124 - 1 ∧
      (fixnumToBignum (-1)).toInt = -1 ∧
      (bignumBitwiseXor ⟨false, [bignumDigitMask, bignumDigitMask]⟩ (fixnumToBignum (-1))).toInt = 0 ∧
      Int.xor (2 ^ 124 - 1) (-1) = -2 ^ 124 := by
  decide

end FactorProofs.Vm
