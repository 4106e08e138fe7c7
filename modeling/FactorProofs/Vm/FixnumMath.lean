import FactorProofs.Vm.BignumConvert

namespace FactorProofs.Vm

open Bignum

/-! The tagging of fixnums in `layouts.hpp`, the constructors of integer cells
in `math.hpp` and `math.cpp`, and the two fixnum division primitives. -/

/-- `FIXNUM_TYPE`, the first type tag. -/
def fixnumType : Nat := 0

/-- `tag_fixnum`: the word shifted over the tag bits, with the fixnum tag. -/
def tagFixnum (untagged : Cell) : Cell := (untagged <<< tagBits) ||| BitVec.ofNat 64 fixnumType

/-- `untag_fixnum`: the arithmetic shift of the signed reading. -/
def untagFixnum (tagged : Cell) : Int := (tagged.sshiftRight tagBits).toInt

/-- Whether a cell is an immediate fixnum rather than a pointer to a bignum. -/
def IntegerCell.isFixnum : IntegerCell → Bool
  | .fixnum _ => true
  | .bignum _ => false

/-- A cell holds `v` in the form the VM keeps integers in: a fixnum exactly
when `v` is in the fixnum range, and a canonical bignum otherwise. -/
def IntegerCell.Stores (c : IntegerCell) (v : Int) : Prop :=
  c.Represents v ∧ (c.isFixnum = true ↔ fixnumMin ≤ v ∧ v ≤ fixnumMax)

/-- `from_signed_cell` and `from_signed_8`: a bignum outside the fixnum range,
the tagged fixnum inside. -/
def fromSigned (toBignum : Int → Bignum) (n : Int) : IntegerCell :=
  if n < fixnumMin ∨ n > fixnumMax then .bignum (toBignum n) else .fixnum (Fixnum.ofInt n)

def fromSignedCell (x : Int) : IntegerCell := fromSigned fixnumToBignum x

def fromSigned8 (n : Int) : IntegerCell := fromSigned int64ToBignum n

/-- `from_unsigned_cell` and `from_unsigned_8`: only the upper bound is
tested, in the unsigned type. -/
def fromUnsigned (toBignum : Nat → Bignum) (n : Nat) : IntegerCell :=
  if (n : Int) > fixnumMax then .bignum (toBignum n) else .fixnum (Fixnum.ofInt n)

def fromUnsignedCell (x : Nat) : IntegerCell := fromUnsigned cellToBignum x

def fromUnsigned8 (n : Nat) : IntegerCell := fromUnsigned uint64ToBignum n

/-- `primitive_fixnum_divint`: C's `/` truncates, and the quotient is compared
with `-fixnum_min`, the one value out of range. -/
def primitiveFixnumDivint (x y : Fixnum) : IntegerCell :=
  let result := x.val.tdiv y.val
  if result = -fixnumMin then fromSignedCell (-fixnumMin) else .fixnum (Fixnum.ofInt result)

/-- `primitive_fixnum_divmod`: the quotient below the remainder, with the
operands tested for `fixnum_min / -1` first. -/
def primitiveFixnumDivmod (x y : Fixnum) : IntegerCell × IntegerCell :=
  if y.val = -1 ∧ x.val = fixnumMin then (fromSignedCell (-fixnumMin), .fixnum (Fixnum.ofInt 0))
  else (.fixnum (Fixnum.ofInt (x.val.tdiv y.val)), .fixnum (Fixnum.ofInt (x.val.tmod y.val)))

section Tagging

theorem untagFixnum_tagFixnum (n : Int) : untagFixnum (tagFixnum (BitVec.ofInt 64 n)) = retagFixnum n := by
  have hshift : tagFixnum (BitVec.ofInt 64 n) = BitVec.ofInt 64 (n * 16) := by
    rw [tagFixnum, fixnumType, tagBits, BitVec.or_zero, BitVec.shiftLeft_eq_mul_twoPow]
    apply BitVec.eq_of_toInt_eq
    rw [BitVec.toInt_mul, BitVec.toInt_ofInt, BitVec.toInt_ofInt, BitVec.toInt_twoPow]
    simp only [Int.bmod_mul_bmod]
    norm_num
  rw [untagFixnum, hshift, BitVec.toInt_sshiftRight, BitVec.toInt_ofInt, Int.shiftRight_eq_div_pow, retagFixnum,
    wordSize, tagBits]
  simp only [Int.bmod, Nat.cast_pow, Nat.cast_ofNat]
  norm_num
  split_ifs <;> omega

theorem untagFixnum_tagFixnum_of_range {n : Int} (h1 : fixnumMin ≤ n) (h2 : n ≤ fixnumMax) :
    untagFixnum (tagFixnum (BitVec.ofInt 64 n)) = n := by
  rw [untagFixnum_tagFixnum, retagFixnum_of_range h1 h2]

end Tagging

section Constructors

theorem stores_fixnum_ofInt {v : Int} (h : fixnumMin ≤ v ∧ v ≤ fixnumMax) :
    (IntegerCell.fixnum (Fixnum.ofInt v)).Stores v :=
  ⟨retagFixnum_of_range h.1 h.2, by simp only [IntegerCell.isFixnum, true_iff]; exact h⟩

theorem stores_bignum_ofInt {v : Int} (h : ¬ (fixnumMin ≤ v ∧ v ≤ fixnumMax)) :
    (IntegerCell.bignum (ofInt v)).Stores v :=
  ⟨⟨canonical_ofInt v, toInt_ofInt v⟩, by simp only [IntegerCell.isFixnum, Bool.false_eq_true, false_iff]; exact h⟩

theorem stores_fromSigned {toBignum : Int → Bignum} (htb : ∀ n, toBignum n = ofInt n) (n : Int) :
    (fromSigned toBignum n).Stores n := by
  unfold fromSigned
  split
  · rename_i hout
    rw [htb]
    exact stores_bignum_ofInt (by omega)
  · rename_i hin
    exact stores_fixnum_ofInt (by omega)

theorem stores_fromUnsigned {toBignum : Nat → Bignum} (htb : ∀ n : Nat, toBignum n = ofInt n) (n : Nat) :
    (fromUnsigned toBignum n).Stores n := by
  have hmin : fixnumMin ≤ (n : Int) := le_trans (by decide) (Int.natCast_nonneg n)
  unfold fromUnsigned
  split
  · rename_i hout
    rw [htb]
    exact stores_bignum_ofInt (by omega)
  · rename_i hin
    exact stores_fixnum_ofInt ⟨hmin, by omega⟩

end Constructors

section Division

theorem tdiv_mem_fixnum_range_iff (x y : Fixnum) :
    (fixnumMin ≤ x.val.tdiv y.val ∧ x.val.tdiv y.val ≤ fixnumMax) ↔ ¬ (x.val = fixnumMin ∧ y.val = -1) := by
  have hx := x.val_bounds
  have e : (x.val.tdiv y.val).natAbs = x.val.natAbs / y.val.natAbs := Int.natAbs_tdiv x.val y.val
  rw [fixnumMin_eq, fixnumMax_eq]
  by_cases hzero : y.val = 0
  · rw [hzero, Int.tdiv_zero]
    omega
  by_cases hunit : y.val.natAbs = 1
  · rcases (show y.val = 1 ∨ y.val = -1 by omega) with hy | hy
    · rw [hy, Int.tdiv_one]
      omega
    · rw [hy, Int.tdiv_neg, Int.tdiv_one]
      omega
  · -- a divisor of magnitude two or more at least halves the magnitude
    have hhalf : x.val.natAbs / y.val.natAbs ≤ x.val.natAbs / 2 := Nat.div_le_div_left (by omega) (by decide)
    omega

theorem tmod_mem_fixnum_range (x : Fixnum) {y : Fixnum} (hy : y.val ≠ 0) :
    fixnumMin ≤ x.val.tmod y.val ∧ x.val.tmod y.val ≤ fixnumMax := by
  have hyb := y.val_bounds
  have e := Int.natAbs_tmod x.val y.val
  have hlt := Nat.mod_lt x.val.natAbs (show 0 < y.val.natAbs by omega)
  rw [fixnumMin_eq, fixnumMax_eq]
  omega

theorem stores_primitiveFixnumDivint (x y : Fixnum) :
    (primitiveFixnumDivint x y).Stores (x.val.tdiv y.val) := by
  unfold primitiveFixnumDivint
  dsimp only
  split
  · rename_i hboundary
    rw [hboundary]
    exact stores_fromSigned (fun _ => rfl) _
  · rename_i hne
    apply stores_fixnum_ofInt
    rw [tdiv_mem_fixnum_range_iff]
    rintro ⟨hx, hy⟩
    rw [hx, hy, Int.tdiv_neg, Int.tdiv_one] at hne
    exact hne rfl

example : (primitiveFixnumDivint (Fixnum.ofInt fixnumMin) (Fixnum.ofInt (-1))).isFixnum = false := by decide
example : (primitiveFixnumDivint (Fixnum.ofInt fixnumMin) (Fixnum.ofInt 1)).isFixnum = true := by decide

theorem stores_primitiveFixnumDivmod (x : Fixnum) {y : Fixnum} (hy : y.val ≠ 0) :
    (primitiveFixnumDivmod x y).1.Stores (x.val.tdiv y.val) ∧
      (primitiveFixnumDivmod x y).2.Stores (x.val.tmod y.val) := by
  unfold primitiveFixnumDivmod
  split
  · rename_i hcase
    obtain ⟨hy1, hx⟩ := hcase
    have hquot : x.val.tdiv y.val = -fixnumMin := by
      rw [hx, hy1, Int.tdiv_neg, Int.tdiv_one]
    have hrem : x.val.tmod y.val = 0 := by
      rw [hy1, Int.tmod_neg, Int.tmod_one]
    rw [hquot, hrem]
    dsimp only
    exact ⟨stores_fromSigned (fun _ => rfl) _, stores_fixnum_ofInt (by decide)⟩
  · rename_i hcase
    exact ⟨stores_fixnum_ofInt ((tdiv_mem_fixnum_range_iff x y).mpr fun h => hcase ⟨h.2, h.1⟩),
      stores_fixnum_ofInt (tmod_mem_fixnum_range x hy)⟩

end Division

/-- The fixnum division primitives and the integer constructors leave a
fixnum exactly when the value is in the fixnum range, and a bignum of the same
value otherwise; only `fixnum_min / -1` overflows. -/
theorem fixnum_primitives_promote_at_boundary :
    (∀ x y : Fixnum, y.val ≠ 0 →
      (primitiveFixnumDivint x y).Stores (x.val.tdiv y.val) ∧
      (primitiveFixnumDivmod x y).1.Stores (x.val.tdiv y.val) ∧
      (primitiveFixnumDivmod x y).2.Stores (x.val.tmod y.val) ∧
      (¬ (fixnumMin ≤ x.val.tdiv y.val ∧ x.val.tdiv y.val ≤ fixnumMax) ↔ x.val = fixnumMin ∧ y.val = -1)) ∧
    (∀ n : Int, (fromSignedCell n).Stores n ∧ (fromSigned8 n).Stores n) ∧
    (∀ n : Nat, (fromUnsignedCell n).Stores n ∧ (fromUnsigned8 n).Stores n) ∧
    (∀ n : Int, fixnumMin ≤ n → n ≤ fixnumMax → untagFixnum (tagFixnum (BitVec.ofInt 64 n)) = n) := by
  refine ⟨?_, ?_, ?_, ?_⟩
  · intro x y hy
    obtain ⟨hquot, hrem⟩ := stores_primitiveFixnumDivmod x hy
    refine ⟨stores_primitiveFixnumDivint x y, hquot, hrem, ?_⟩
    rw [tdiv_mem_fixnum_range_iff, not_not]
  · intro n
    exact ⟨stores_fromSigned (fun _ => rfl) n, stores_fromSigned fooToBignumSigned_eq_ofInt n⟩
  · intro n
    exact ⟨stores_fromUnsigned (fun m => fooToBignumUnsigned_eq_ofInt m) n,
      stores_fromUnsigned (fun m => fooToBignumUnsigned_eq_ofInt m) n⟩
  · intro n h1 h2
    exact untagFixnum_tagFixnum_of_range h1 h2

theorem fixnum_primitives_promote_at_boundary_min_div :
    (primitiveFixnumDivint (Fixnum.ofInt fixnumMin) (Fixnum.ofInt (-1))).Stores
      ((Fixnum.ofInt fixnumMin).val.tdiv (Fixnum.ofInt (-1)).val) :=
  (fixnum_primitives_promote_at_boundary.1 _ _ (by decide)).1

end FactorProofs.Vm
