import FactorProofs.Vm.BignumShift
import FactorProofs.Math.Floats

namespace FactorProofs.Vm

open FactorProofs.Digits Bignum

/-! The conversions between bignums and machine integers in `bignum.cpp`:
`FOO_TO_BIGNUM_SIGNED`, `FOO_TO_BIGNUM_UNSIGNED` and `BIGNUM_TO_FOO` with
their instances, and the fixnum-range tests built on them. -/

/-- The `do ... while (accumulator != 0)` loop: the low digit, then the
digits of the accumulator shifted down by a digit. -/
def accumulatorDigits (accumulator : Nat) : List Nat :=
  if accumulator >>> bignumDigitLength = 0 then [accumulator &&& bignumDigitMask]
  else (accumulator &&& bignumDigitMask) :: accumulatorDigits (accumulator >>> bignumDigitLength)
termination_by accumulator
decreasing_by
  rw [Nat.shiftRight_eq_div_pow] at *
  exact Nat.div_lt_self (Nat.pos_of_ne_zero fun h => by simp_all) (Nat.one_lt_two_pow (by decide))

/-- `FOO_TO_BIGNUM_UNSIGNED`: the cached zero and one, a single digit, or the
digit loop. -/
def fooToBignumUnsigned (n : Nat) : Bignum :=
  if n = 0 then bignumZero
  else if n = 1 then bignumOne false
  else if n < bignumRadix then ⟨false, [n &&& bignumDigitMask]⟩
  else ⟨false, accumulatorDigits n⟩

/-- `FOO_TO_BIGNUM_SIGNED`: as the unsigned one on `-n` for a negative `n`;
`-n` is taken in the unsigned type, so the most negative value gives its
magnitude. -/
def fooToBignumSigned (n : Int) : Bignum :=
  if n = 0 then bignumZero
  else if n = 1 then bignumOne false
  else if n < 0 ∧ n = -1 then bignumOne true
  else if n.natAbs < bignumRadix then ⟨decide (n < 0), [n.natAbs &&& bignumDigitMask]⟩
  else ⟨decide (n < 0), accumulatorDigits n.natAbs⟩

def cellToBignum (n : Nat) : Bignum := fooToBignumUnsigned n

def int64ToBignum (n : Int) : Bignum := fooToBignumSigned n

def uint64ToBignum (n : Nat) : Bignum := fooToBignumUnsigned n

/-- `BIGNUM_TO_FOO`: the digits from the top, each shifted in by a digit in the
unsigned type, then negated for a negative bignum. The four instances differ
only in how the word is read. -/
def bignumToFoo (bn : Bignum) : Cell :=
  if bn.digits = [] then 0
  else
    let accumulator := bn.digits.foldr (fun (digit : Nat) (acc : Cell) => (acc <<< bignumDigitLength) + BitVec.ofNat 64 digit) 0
    if bn.negativeP then -accumulator else accumulator

def bignumToCell (bn : Bignum) : Nat := (bignumToFoo bn).toNat

def bignumToFixnum (bn : Bignum) : Int := (bignumToFoo bn).toInt

def bignumToInt64 (bn : Bignum) : Int := (bignumToFoo bn).toInt

def bignumToUint64 (bn : Bignum) : Nat := (bignumToFoo bn).toNat

/-- `bignum_fits_fixnum_p`: no digit, or one digit within the bound of its
sign. -/
def bignumFitsFixnumP (bn : Bignum) : Bool :=
  match bn.digits with
  | [] => true
  | [dig] => (bn.negativeP && (dig : Int) ≤ -fixnumMin) || (!bn.negativeP && (dig : Int) ≤ fixnumMax)
  | _ => false

/-- `bignum_maybe_to_fixnum`. -/
def bignumMaybeToFixnum (bn : Bignum) : IntegerCell :=
  if bignumFitsFixnumP bn then .fixnum (Fixnum.ofInt (bignumToFixnum bn)) else .bignum bn

/-- `bignum_to_fixnum_strict`: `ERROR_OUT_OF_FIXNUM_RANGE` when the bignum does
not fit. -/
def bignumToFixnumStrict (bn : Bignum) : Except Bignum Int :=
  if bignumFitsFixnumP bn then .ok (bignumToFixnum bn) else .error bn

section DoubleToBignum

open FactorProofs.Math

/-- `DTB_WRITE_DIGIT(factor)`: the significand is scaled by `factor`, its
integer part is the digit and the fraction is kept. -/
def dtbWriteDigit (factor : Nat) (significand : ℚ) : Nat × ℚ :=
  let scaled := significand * factor
  (⌊scaled⌋₊, scaled - ⌊scaled⌋₊)

/-- The `while (start < scan)` loop over `count` digits, most significant
first: once the significand is zero the rest are zeros. -/
def dtbLoop : Nat → ℚ → List Nat
  | 0, _ => []
  | count + 1, significand =>
    if significand = 0 then List.replicate (count + 1) 0
    else
      let step := dtbWriteDigit bignumRadix significand
      step.1 :: dtbLoop count step.2

/-- The digits `double_to_bignum` writes from the top for `exponent` bits: the
`odd_bits` digit when the bit count is not a multiple of the digit length,
then the loop over the rest. -/
def dtbDigits (exponent : Nat) (significand : ℚ) : List Nat :=
  let length := (exponent + (bignumDigitLength - 1)) / bignumDigitLength
  let oddBits := exponent % bignumDigitLength
  if oddBits > 0 then
    let step := dtbWriteDigit (2 ^ oddBits) significand
    step.1 :: dtbLoop (length - 1) step.2
  else dtbLoop length significand

/-- `double_to_bignum`: zero for an infinity, a NaN or a magnitude below one.
Its double arithmetic is exact (scaling by a power of two, the integer part of
a value below `2^62`, the fraction of a double), so the model computes in ℚ. -/
def doubleToBignum (x : Double) : Bignum :=
  if exponentField x = 2047 then bignumZero
  else
    let exponent := (frexp x).2
    if exponent ≤ 0 then bignumZero
    else if exponent = 1 then bignumOne (decide (finiteValue x < 0))
    else
      let significand := if (frexp x).1 < 0 then -(frexp x).1 else (frexp x).1
      ⟨decide (finiteValue x < 0), (dtbDigits exponent.toNat significand).reverse⟩

end DoubleToBignum

section Constructors

theorem accumulatorDigits_eq_digits {n : Nat} (hn : n ≠ 0) : accumulatorDigits n = Nat.digits bignumRadix n := by
  induction n using accumulatorDigits.induct with
  | case1 n hlow =>
    rw [accumulatorDigits, if_pos hlow, and_digitMask]
    rw [Nat.shiftRight_eq_div_pow] at hlow
    have hlt : n < bignumRadix := (Nat.div_eq_zero_iff_lt (Nat.two_pow_pos _)).mp hlow
    rw [Nat.mod_eq_of_lt hlt, Nat.digits_of_lt _ _ hn hlt]
  | case2 n hhigh ih =>
    rw [accumulatorDigits, if_neg hhigh, ih hhigh, and_digitMask, Nat.shiftRight_eq_div_pow,
      Nat.digits_def' one_lt_bignumRadix (Nat.pos_of_ne_zero hn)]
    rfl

theorem fooToBignumUnsigned_eq_ofInt (n : Nat) : fooToBignumUnsigned n = ofInt n := by
  unfold fooToBignumUnsigned
  split_ifs with h0 h1 hlt
  · subst h0; rfl
  · subst h1; rfl
  · rw [and_digitMask, Nat.mod_eq_of_lt hlt]
    simp [ofInt, Nat.digits_of_lt _ _ h0 hlt]
  · simp [ofInt, accumulatorDigits_eq_digits h0]

theorem fooToBignumSigned_eq_ofInt (n : Int) : fooToBignumSigned n = ofInt n := by
  unfold fooToBignumSigned
  have hne : n ≠ 0 → n.natAbs ≠ 0 := fun h => Int.natAbs_ne_zero.mpr h
  split_ifs with h0 h1 hm1 hlt
  · subst h0; rfl
  · subst h1; rfl
  · rw [hm1.2]; rfl
  · rw [and_digitMask, Nat.mod_eq_of_lt hlt]
    simp [ofInt, Nat.digits_of_lt _ _ (hne h0) hlt]
  · simp [ofInt, accumulatorDigits_eq_digits (hne h0)]

theorem fixnumToBignum_eq_fooToBignumSigned (n : Int) : fixnumToBignum n = fooToBignumSigned n := by
  rw [fooToBignumSigned_eq_ofInt]
  rfl

end Constructors

section Readers

theorem toNat_foldr_shift (digits : List Nat) :
    (digits.foldr (fun (digit : Nat) (acc : Cell) => (acc <<< bignumDigitLength) + BitVec.ofNat 64 digit) (0 : Cell)).toNat =
      Nat.ofDigits bignumRadix digits % 2 ^ 64 := by
  induction digits with
  | nil => rfl
  | cons digit digits ih =>
    rw [List.foldr_cons, BitVec.toNat_add, BitVec.toNat_shiftLeft, ih, BitVec.toNat_ofNat, Nat.ofDigits_cons,
      Nat.shiftLeft_eq]
    simp only [bignumRadix]
    rw [Nat.mod_mul_mod, Nat.add_mod_mod, Nat.mod_add_mod, Nat.add_comm, Nat.mul_comm]

theorem toNat_bignumToFoo (bn : Bignum) : (bignumToFoo bn).toNat = (bn.toInt % 2 ^ 64).toNat := by
  unfold bignumToFoo
  split
  · rename_i hnil
    simp [toInt, magnitude, hnil]
  · dsimp only
    split
    · rename_i hneg
      rw [BitVec.toNat_neg, toNat_foldr_shift, toInt, if_pos hneg, magnitude]
      omega
    · rename_i hpos
      rw [toNat_foldr_shift, toInt, if_neg hpos, magnitude]
      omega

theorem toInt_bignumToFoo (bn : Bignum) : (bignumToFoo bn).toInt = bn.toInt.bmod (2 ^ 64) := by
  have hbmod := Int.emod_bmod bn.toInt (2 ^ 64)
  rw [Nat.cast_pow, Nat.cast_ofNat] at hbmod
  rw [BitVec.toInt_eq_toNat_bmod, toNat_bignumToFoo, Int.toNat_of_nonneg (Int.emod_nonneg _ (by decide)), hbmod]

theorem toInt_bignumToFoo_ofInt {n : Int} (h1 : -2 ^ 63 ≤ n) (h2 : n < 2 ^ 63) :
    (bignumToFoo (ofInt n)).toInt = n := by
  rw [toInt_bignumToFoo, toInt_ofInt]
  apply Int.bmod_eq_of_le <;> norm_num <;> omega

theorem toNat_bignumToFoo_ofInt {n : Nat} (h : n < 2 ^ 64) : (bignumToFoo (ofInt n)).toNat = n := by
  rw [toNat_bignumToFoo, toInt_ofInt]
  omega

end Readers

section FixnumRange

theorem fixnumMin_eq : fixnumMin = -2 ^ 59 := rfl

theorem fixnumMax_eq : fixnumMax = 2 ^ 59 - 1 := rfl

theorem bignumFitsFixnumP_ofInt (v : Int) :
    bignumFitsFixnumP (ofInt v) = true ↔ fixnumMin ≤ v ∧ v ≤ fixnumMax := by
  rw [fixnumMin_eq, fixnumMax_eq]
  by_cases hzero : v = 0
  · subst hzero
    decide
  have habs : v.natAbs ≠ 0 := Int.natAbs_ne_zero.mpr hzero
  rcases Nat.lt_or_ge v.natAbs bignumRadix with hlt | hge
  · -- one digit: the sign decides which bound applies
    have hdigits : (ofInt v).digits = [v.natAbs] := Nat.digits_of_lt _ _ habs hlt
    have hsign : (ofInt v).negativeP = decide (v < 0) := rfl
    unfold bignumFitsFixnumP
    rw [hdigits, hsign, fixnumMin_eq, fixnumMax_eq]
    by_cases hneg : v < 0 <;> simp [hneg, -Nat.cast_natAbs] <;> omega
  · -- two digits or more: the high digits are those of `v / 2^62`, which is not zero
    have hhigh : v.natAbs / bignumRadix ≠ 0 := (Nat.div_pos hge (by decide)).ne'
    obtain ⟨d, rest, hrest⟩ := List.exists_cons_of_ne_nil (Nat.digits_ne_nil_iff_ne_zero.mpr hhigh)
    have hdigits : (ofInt v).digits = v.natAbs % bignumRadix :: d :: rest := by
      simp only [ofInt]
      rw [Nat.digits_def' one_lt_bignumRadix (Nat.pos_of_ne_zero habs), hrest]
    have hrange : ¬ (-2 ^ 59 ≤ v ∧ v ≤ 2 ^ 59 - 1) := by
      simp only [bignumRadix, bignumDigitLength] at hge
      omega
    simp only [bignumFitsFixnumP, hdigits, Bool.false_eq_true, false_iff]
    exact hrange

theorem bignumFitsFixnumP_iff {b : Bignum} (hb : b.Canonical) :
    bignumFitsFixnumP b = true ↔ fixnumMin ≤ b.toInt ∧ b.toInt ≤ fixnumMax := by
  have h := bignumFitsFixnumP_ofInt b.toInt
  rwa [← eq_ofInt_toInt hb] at h

theorem bignumToFixnum_of_range {b : Bignum} (h1 : fixnumMin ≤ b.toInt) (h2 : b.toInt ≤ fixnumMax) :
    bignumToFixnum b = b.toInt := by
  rw [bignumToFixnum, toInt_bignumToFoo]
  rw [fixnumMin_eq] at h1
  rw [fixnumMax_eq] at h2
  apply Int.bmod_eq_of_le <;> norm_num <;> omega

theorem represents_bignumMaybeToFixnum {b : Bignum} (hb : b.Canonical) :
    (bignumMaybeToFixnum b).Represents b.toInt := by
  unfold bignumMaybeToFixnum
  split
  · rename_i hfits
    obtain ⟨h1, h2⟩ := (bignumFitsFixnumP_iff hb).mp hfits
    simp only [IntegerCell.Represents, Fixnum.ofInt]
    rw [bignumToFixnum_of_range h1 h2, retagFixnum_of_range h1 h2]
  · exact ⟨hb, rfl⟩

theorem bignumMaybeToFixnum_of_range {b : Bignum} (hb : b.Canonical) (h1 : fixnumMin ≤ b.toInt)
    (h2 : b.toInt ≤ fixnumMax) : bignumMaybeToFixnum b = .fixnum ⟨b.toInt, h1, h2⟩ := by
  have hfits := (bignumFitsFixnumP_iff hb).mpr ⟨h1, h2⟩
  have hval : (Fixnum.ofInt (bignumToFixnum b)).val = b.toInt := by
    rw [bignumToFixnum_of_range h1 h2]
    exact retagFixnum_of_range h1 h2
  rw [bignumMaybeToFixnum, if_pos hfits]
  congr 1
  cases h : Fixnum.ofInt (bignumToFixnum b)
  rw [h] at hval
  subst hval
  rfl

theorem bignumToFixnumStrict_of_range {b : Bignum} (hb : b.Canonical) (h1 : fixnumMin ≤ b.toInt)
    (h2 : b.toInt ≤ fixnumMax) : bignumToFixnumStrict b = .ok b.toInt := by
  rw [bignumToFixnumStrict, if_pos ((bignumFitsFixnumP_iff hb).mpr ⟨h1, h2⟩), bignumToFixnum_of_range h1 h2]

end FixnumRange

section DoubleToBignumSpec

open FactorProofs.Math

variable {significand : ℚ}

theorem dtbWriteDigit_fst_add_snd (factor : Nat) (significand : ℚ) :
    ((dtbWriteDigit factor significand).1 : ℚ) + (dtbWriteDigit factor significand).2 = significand * factor := by
  simp only [dtbWriteDigit]
  ring

theorem dtbWriteDigit_snd_nonneg (hs : 0 ≤ significand) (factor : Nat) :
    0 ≤ (dtbWriteDigit factor significand).2 := by
  simp only [dtbWriteDigit, sub_nonneg]
  exact Nat.floor_le (mul_nonneg hs (Nat.cast_nonneg _))

theorem dtbWriteDigit_snd_lt_one (factor : Nat) (significand : ℚ) : (dtbWriteDigit factor significand).2 < 1 := by
  simp only [dtbWriteDigit, sub_lt_iff_lt_add']
  exact Nat.lt_floor_add_one _

theorem dtbWriteDigit_fst_lt (hs0 : 0 ≤ significand) (hs1 : significand < 1) {factor : Nat} (hf : 0 < factor) :
    (dtbWriteDigit factor significand).1 < factor := by
  have hpos : (0 : ℚ) < factor := Nat.cast_pos.mpr hf
  exact (Nat.floor_lt (mul_nonneg hs0 hpos.le)).mpr (mul_lt_of_lt_one_left hpos hs1)

theorem one_le_dtbWriteDigit_fst (hs : 1 / 2 ≤ significand) {factor : Nat} (hf : 2 ≤ factor) :
    1 ≤ (dtbWriteDigit factor significand).1 := by
  have hf' : (2 : ℚ) ≤ factor := by exact_mod_cast hf
  apply Nat.le_floor
  rw [Nat.cast_one]
  nlinarith

theorem floor_dtbWriteDigit (hs : 0 ≤ significand) (factor k : Nat) :
    ⌊significand * factor * (bignumRadix : ℚ) ^ k⌋₊ =
      ⌊(dtbWriteDigit factor significand).2 * (bignumRadix : ℚ) ^ k⌋₊ +
        bignumRadix ^ k * (dtbWriteDigit factor significand).1 := by
  have hsplit : significand * factor * (bignumRadix : ℚ) ^ k =
      (dtbWriteDigit factor significand).2 * (bignumRadix : ℚ) ^ k +
        ((bignumRadix ^ k * (dtbWriteDigit factor significand).1 : Nat) : ℚ) := by
    rw [← dtbWriteDigit_fst_add_snd]
    push_cast
    ring
  rw [hsplit, Nat.floor_add_natCast (mul_nonneg (dtbWriteDigit_snd_nonneg hs factor) (by positivity))]

theorem dtbLoop_length (count : Nat) (significand : ℚ) : (dtbLoop count significand).length = count := by
  induction count generalizing significand with
  | zero => rfl
  | succ count ih =>
    rw [dtbLoop]
    split
    · exact List.length_replicate
    · rw [List.length_cons, ih]

theorem dtbLoop_lt_radix {count : Nat} (hs0 : 0 ≤ significand) (hs1 : significand < 1) :
    ∀ digit ∈ dtbLoop count significand, digit < bignumRadix := by
  induction count generalizing significand with
  | zero => simp [dtbLoop]
  | succ count ih =>
    rw [dtbLoop]
    split
    · intro digit hdigit
      rw [List.eq_of_mem_replicate hdigit]
      exact Nat.two_pow_pos _
    · intro digit hdigit
      rcases List.mem_cons.mp hdigit with hhead | htail
      · rw [hhead]
        exact dtbWriteDigit_fst_lt hs0 hs1 (Nat.two_pow_pos _)
      · exact ih (dtbWriteDigit_snd_nonneg hs0 _) (dtbWriteDigit_snd_lt_one _ _) digit htail

theorem ofDigits_dtbLoop (hs0 : 0 ≤ significand) (hs1 : significand < 1) (count : Nat) :
    Nat.ofDigits bignumRadix (dtbLoop count significand).reverse =
      ⌊significand * (bignumRadix : ℚ) ^ count⌋₊ := by
  induction count generalizing significand with
  | zero => simp [dtbLoop, Nat.floor_eq_zero.mpr hs1]
  | succ count ih =>
    rw [dtbLoop]
    split
    · rename_i hzero
      rw [hzero, zero_mul, Nat.floor_zero, List.reverse_replicate]
      exact FactorProofs.Digits.ofDigits_eq_zero_of_forall fun _ h => List.eq_of_mem_replicate h
    · have hscale : significand * (bignumRadix : ℚ) ^ (count + 1) =
          significand * (bignumRadix : Nat) * (bignumRadix : ℚ) ^ count := by
        rw [pow_succ]
        ring
      rw [List.reverse_cons, Nat.ofDigits_append, ih (dtbWriteDigit_snd_nonneg hs0 _) (dtbWriteDigit_snd_lt_one _ _),
        List.length_reverse, dtbLoop_length, Nat.ofDigits_singleton, hscale, floor_dtbWriteDigit hs0]

theorem two_pow_eq_of_oddBits {exponent : Nat} (hodd : 0 < exponent % bignumDigitLength) :
    2 ^ exponent = 2 ^ (exponent % bignumDigitLength) *
      bignumRadix ^ ((exponent + (bignumDigitLength - 1)) / bignumDigitLength - 1) := by
  rw [bignumRadix, ← pow_mul, ← pow_add]
  congr 1
  simp only [bignumDigitLength] at *
  omega

theorem two_pow_eq_of_no_oddBits {exponent : Nat} (hodd : exponent % bignumDigitLength = 0) :
    2 ^ exponent = bignumRadix ^ ((exponent + (bignumDigitLength - 1)) / bignumDigitLength) := by
  rw [bignumRadix, ← pow_mul]
  congr 1
  simp only [bignumDigitLength] at *
  omega

theorem ofDigits_dtbDigits (hs0 : 0 ≤ significand) (hs1 : significand < 1) (exponent : Nat) :
    Nat.ofDigits bignumRadix (dtbDigits exponent significand).reverse = ⌊significand * 2 ^ exponent⌋₊ := by
  unfold dtbDigits
  dsimp only
  split
  · rename_i hodd
    have hpow : (2 : ℚ) ^ exponent = ((2 ^ (exponent % bignumDigitLength) : Nat) : ℚ) *
        (bignumRadix : ℚ) ^ ((exponent + (bignumDigitLength - 1)) / bignumDigitLength - 1) := by
      exact_mod_cast two_pow_eq_of_oddBits hodd
    rw [List.reverse_cons, Nat.ofDigits_append, List.length_reverse, dtbLoop_length, Nat.ofDigits_singleton,
      ofDigits_dtbLoop (dtbWriteDigit_snd_nonneg hs0 _) (dtbWriteDigit_snd_lt_one _ _), hpow, ← mul_assoc,
      floor_dtbWriteDigit hs0]
  · rename_i hodd
    have hpow : (2 : ℚ) ^ exponent =
        (bignumRadix : ℚ) ^ ((exponent + (bignumDigitLength - 1)) / bignumDigitLength) := by
      exact_mod_cast two_pow_eq_of_no_oddBits (Nat.eq_zero_of_not_pos hodd)
    rw [ofDigits_dtbLoop hs0 hs1, hpow]

theorem dtbDigits_lt_radix (hs0 : 0 ≤ significand) (hs1 : significand < 1) (exponent : Nat) :
    ∀ digit ∈ dtbDigits exponent significand, digit < bignumRadix := by
  unfold dtbDigits
  dsimp only
  split
  · rename_i hodd
    intro digit hdigit
    rcases List.mem_cons.mp hdigit with hhead | htail
    · have hlt := dtbWriteDigit_fst_lt hs0 hs1 (Nat.two_pow_pos (exponent % bignumDigitLength))
      have hle : 2 ^ (exponent % bignumDigitLength) ≤ bignumRadix :=
        Nat.pow_le_pow_right (by decide) (Nat.mod_lt _ (by decide)).le
      omega
    · exact dtbLoop_lt_radix (dtbWriteDigit_snd_nonneg hs0 _) (dtbWriteDigit_snd_lt_one _ _) digit htail
  · exact dtbLoop_lt_radix hs0 hs1

theorem dtbDigits_head_ne_zero (hs : 1 / 2 ≤ significand) {exponent : Nat} (he : 1 ≤ exponent) :
    ∃ digit rest, dtbDigits exponent significand = digit :: rest ∧ digit ≠ 0 := by
  unfold dtbDigits
  dsimp only
  split
  · rename_i hodd
    refine ⟨_, _, rfl, Nat.one_le_iff_ne_zero.mp (one_le_dtbWriteDigit_fst hs ?_)⟩
    calc 2 = 2 ^ 1 := rfl
      _ ≤ 2 ^ (exponent % bignumDigitLength) := Nat.pow_le_pow_right (by decide) hodd
  · rename_i hodd
    obtain ⟨count, hcount⟩ : ∃ count, (exponent + (bignumDigitLength - 1)) / bignumDigitLength = count + 1 := by
      refine ⟨(exponent + (bignumDigitLength - 1)) / bignumDigitLength - 1, ?_⟩
      simp only [bignumDigitLength] at *
      omega
    have hne : significand ≠ 0 := by
      intro hzero
      rw [hzero] at hs
      norm_num at hs
    rw [hcount, dtbLoop, if_neg hne]
    exact ⟨_, _, rfl, Nat.one_le_iff_ne_zero.mp (one_le_dtbWriteDigit_fst hs (by decide))⟩

theorem digits_floor_eq_dtbDigits (hs0 : 1 / 2 ≤ significand) (hs1 : significand < 1) {exponent : Nat}
    (he : 1 ≤ exponent) :
    Nat.digits bignumRadix ⌊significand * 2 ^ exponent⌋₊ = (dtbDigits exponent significand).reverse := by
  have hnonneg : 0 ≤ significand := le_trans (by norm_num) hs0
  rw [← ofDigits_dtbDigits hnonneg hs1]
  apply Nat.digits_ofDigits _ one_lt_bignumRadix
  · intro digit hdigit
    exact dtbDigits_lt_radix hnonneg hs1 exponent digit (List.mem_reverse.mp hdigit)
  · intro hne
    obtain ⟨digit, rest, hdigits, hdigit⟩ := dtbDigits_head_ne_zero hs0 he
    simp only [hdigits, List.reverse_cons, List.getLast_append_singleton]
    exact hdigit

theorem ite_neg_eq_abs (q : ℚ) : (if q < 0 then -q else q) = |q| := by
  split
  · rename_i hneg
    rw [abs_of_neg hneg]
  · rename_i hnonneg
    rw [abs_of_nonneg (not_lt.mp hnonneg)]

theorem doubleToBignum_eq {x : Double} (hx : exponentField x ≠ 2047) :
    doubleToBignum x = ofInt (truncate (finiteValue x)) := by
  have hmag := abs_frexp_fst_mul_zpow x
  have hlt := abs_frexp_fst_lt_one x
  have hofInt : ofInt (truncate (finiteValue x)) =
      ⟨decide (truncate (finiteValue x) < 0), Nat.digits bignumRadix ⌊|finiteValue x|⌋₊⟩ := by
    rw [ofInt, natAbs_truncate]
  unfold doubleToBignum
  rw [if_neg hx, hofInt]
  dsimp only
  by_cases hle : (frexp x).2 ≤ 0
  · -- below one the integer part is zero
    have hsmall : |finiteValue x| < 1 := by
      rw [← hmag]
      calc |(frexp x).1| * 2 ^ (frexp x).2 < 1 * 2 ^ (frexp x).2 :=
            mul_lt_mul_of_pos_right hlt (zpow_pos two_pos _)
        _ ≤ 1 := by
          rw [one_mul]
          exact zpow_le_one_of_nonpos₀ one_le_two hle
    have htrunc : truncate (finiteValue x) = 0 := by
      rw [← Int.natAbs_eq_zero, natAbs_truncate, Nat.floor_eq_zero]
      exact hsmall
    rw [if_pos hle, htrunc, Nat.floor_eq_zero.mpr hsmall]
    rfl
  rw [if_neg hle]
  have hm : finiteSignificand x ≠ 0 := fun hm => hle (by rw [frexp_of_eq_zero hm])
  have hhalf := half_le_abs_frexp_fst hm
  by_cases hone : (frexp x).2 = 1
  · -- one bit: the magnitude is between one and two
    have hvalue : |finiteValue x| = |(frexp x).1| * 2 := by
      rw [← hmag, hone, zpow_one]
    have hfloor : ⌊|finiteValue x|⌋₊ = 1 := by
      rw [Nat.floor_eq_iff (abs_nonneg _), hvalue]
      constructor <;> push_cast <;> linarith
    have hbig : 1 ≤ |finiteValue x| := by
      rw [hvalue]
      linarith
    rw [if_pos hone, hfloor, decide_eq_decide.mpr (truncate_lt_zero_iff hbig)]
    rfl
  rw [if_neg hone]
  obtain ⟨e, he⟩ : ∃ e : Nat, (frexp x).2 = e := ⟨(frexp x).2.toNat, by omega⟩
  have he2 : 2 ≤ e := by omega
  have hvalue : |finiteValue x| = |(frexp x).1| * 2 ^ e := by
    rw [← hmag, he, zpow_natCast]
  have hbig : 1 ≤ |finiteValue x| := by
    have hpow : (2 : ℚ) ^ 2 ≤ 2 ^ e := pow_le_pow_right₀ one_le_two he2
    rw [hvalue]
    nlinarith
  rw [decide_eq_decide.mpr (truncate_lt_zero_iff hbig), ite_neg_eq_abs, he, Int.toNat_natCast, hvalue,
    digits_floor_eq_dtbDigits hhalf hlt (by omega)]

end DoubleToBignumSpec

open FactorProofs.Math in
/-- The constructors and readers of `bignum.cpp` round-trip on their machine
types, the readers wrap modulo `2^64`, the fixnum-fit test is the fixnum range,
and `double_to_bignum` truncates. -/
theorem conversions_round_trip :
    (∀ n : Int, -2 ^ 63 ≤ n → n < 2 ^ 63 → bignumToInt64 (int64ToBignum n) = n) ∧
    (∀ n : Nat, n < 2 ^ 64 → bignumToUint64 (uint64ToBignum n) = n) ∧
    (∀ n : Fixnum, bignumToFixnum (fixnumToBignum n.val) = n.val) ∧
    (∀ n : Nat, n < 2 ^ 64 → bignumToCell (cellToBignum n) = n) ∧
    (∀ b : Bignum, b.Canonical → (bignumToUint64 b : Int) = b.toInt % 2 ^ 64) ∧
    (∀ b : Bignum, b.Canonical →
      (bignumFitsFixnumP b = true ↔ fixnumMin ≤ b.toInt ∧ b.toInt ≤ fixnumMax)) ∧
    (∀ b : Bignum, b.Canonical → ∀ h1 : fixnumMin ≤ b.toInt, ∀ h2 : b.toInt ≤ fixnumMax,
      bignumMaybeToFixnum b = .fixnum ⟨b.toInt, h1, h2⟩ ∧ bignumToFixnumStrict b = .ok b.toInt) ∧
    (∀ x : Double, exponentField x ≠ 2047 → doubleToBignum x = ofInt (truncate (finiteValue x))) := by
  refine ⟨?_, ?_, ?_, ?_, ?_, ?_, ?_, ?_⟩
  · intro n h1 h2
    rw [bignumToInt64, int64ToBignum, fooToBignumSigned_eq_ofInt, toInt_bignumToFoo_ofInt h1 h2]
  · intro n h
    rw [bignumToUint64, uint64ToBignum, fooToBignumUnsigned_eq_ofInt, toNat_bignumToFoo_ofInt h]
  · intro n
    have hval := n.val_bounds
    rw [bignumToFixnum, fixnumToBignum, toInt_bignumToFoo_ofInt (by omega) (by omega)]
  · intro n h
    rw [bignumToCell, cellToBignum, fooToBignumUnsigned_eq_ofInt, toNat_bignumToFoo_ofInt h]
  · intro b _
    rw [bignumToUint64, toNat_bignumToFoo, Int.toNat_of_nonneg (Int.emod_nonneg _ (by decide))]
  · intro b hb
    exact bignumFitsFixnumP_iff hb
  · intro b hb h1 h2
    exact ⟨bignumMaybeToFixnum_of_range hb h1 h2, bignumToFixnumStrict_of_range hb h1 h2⟩
  · intro x hx
    exact doubleToBignum_eq hx

theorem conversions_round_trip_int64_min : bignumToInt64 (int64ToBignum (-2 ^ 63)) = -2 ^ 63 :=
  conversions_round_trip.1 _ (by decide) (by decide)

end FactorProofs.Vm
