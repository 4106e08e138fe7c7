import Mathlib.Data.Nat.Digits.Lemmas
import FactorProofs.Math.Parser

namespace FactorProofs.Math

/-! `number>string` and `>base` on integers and ratios, the printing half of
`math.parser`, and the round trip through the reader. `positive>dec` prints two
decimal digits at a time from the `TENS` and `ONES` tables into a buffer that
is reversed at the end; every other radix takes the `/mod` loop of
`positive>base`. Both print the digits of `Nat.digits`, most significant
first, and the reader adds them back up. -/

/-- `TENS` -/
def tens : List ℕ := [
  48, 48, 48, 48, 48, 48, 48, 48, 48, 48, 49, 49, 49, 49, 49, 49, 49, 49, 49, 49,
  50, 50, 50, 50, 50, 50, 50, 50, 50, 50, 51, 51, 51, 51, 51, 51, 51, 51, 51, 51,
  52, 52, 52, 52, 52, 52, 52, 52, 52, 52, 53, 53, 53, 53, 53, 53, 53, 53, 53, 53,
  54, 54, 54, 54, 54, 54, 54, 54, 54, 54, 55, 55, 55, 55, 55, 55, 55, 55, 55, 55,
  56, 56, 56, 56, 56, 56, 56, 56, 56, 56, 57, 57, 57, 57, 57, 57, 57, 57, 57, 57]

/-- `ONES` -/
def ones : List ℕ := [
  48, 49, 50, 51, 52, 53, 54, 55, 56, 57, 48, 49, 50, 51, 52, 53, 54, 55, 56, 57,
  48, 49, 50, 51, 52, 53, 54, 55, 56, 57, 48, 49, 50, 51, 52, 53, 54, 55, 56, 57,
  48, 49, 50, 51, 52, 53, 54, 55, 56, 57, 48, 49, 50, 51, 52, 53, 54, 55, 56, 57,
  48, 49, 50, 51, 52, 53, 54, 55, 56, 57, 48, 49, 50, 51, 52, 53, 54, 55, 56, 57,
  48, 49, 50, 51, 52, 53, 54, 55, 56, 57, 48, 49, 50, 51, 52, 53, 54, 55, 56, 57]

/-- `two-digit`: the two lowest decimal digits, pushed units first. -/
def twoDigit (num : ℕ) (accum : List Char) : ℕ × List Char :=
  (num / 100, accum ++ [Char.ofNat (ones.getD (num % 100) 0), Char.ofNat (tens.getD (num % 100) 0)])

/-- `one-digit` -/
def oneDigit (num : ℕ) (accum : List Char) : ℕ × List Char :=
  (num / 10, accum ++ [Char.ofNat (num % 10 + '0'.toNat)])

/-- `[ over zero? ] [ one-digit ] until` -/
def oneDigits (num : ℕ) (accum : List Char) : List Char :=
  if num = 0 then accum else oneDigits (oneDigit num accum).1 (oneDigit num accum).2
termination_by num
decreasing_by simp only [oneDigit]; omega

/-- `fixnum>dec`: `[ over 10 >= ] [ two-digit ] while`, then the last digit. -/
def fixnumToDec (num : ℕ) (accum : List Char) : List Char :=
  if 10 ≤ num then fixnumToDec (twoDigit num accum).1 (twoDigit num accum).2 else oneDigits num accum
termination_by num
decreasing_by simp only [twoDigit]; omega

/-- `bignum>dec`: two digits at a time while the number is a bignum. -/
def bignumToDec (num : ℕ) (accum : List Char) : ℕ × List Char :=
  if Vm.fixnumMax < num then bignumToDec (twoDigit num accum).1 (twoDigit num accum).2 else (num, accum)
termination_by num
decreasing_by
  simp only [twoDigit]
  have : (0 : ℤ) ≤ Vm.fixnumMax := by decide
  omega

/-- `positive>dec` on a fixnum and on a bignum; `count-digits` only sizes the buffer. -/
def positiveToDec (num : ℕ) : List Char :=
  if (num : ℤ) ≤ Vm.fixnumMax then (fixnumToDec num []).reverse
  else (fixnumToDec (bignumToDec num []).1 (bignumToDec num []).2).reverse

/-- The loop of `positive>base`, `[ dup 0 > ] [ radix /mod >digit ] produce`:
the digits units first. The radix is checked before the loop runs. -/
def produceDigits (num radix : ℕ) : List Char :=
  if 0 < num ∧ 1 < radix then toDigit (num % radix) :: produceDigits (num / radix) radix else []
termination_by num
decreasing_by exact Nat.div_lt_self ‹0 < num ∧ 1 < radix›.1 ‹0 < num ∧ 1 < radix›.2

/-- `positive>base`; `none` is the `invalid-radix` error. -/
def positiveToBase (num radix : ℕ) : Option (List Char) :=
  if radix = 10 then some (positiveToDec num)
  else if radix ≤ 1 then none
  else some (produceDigits num radix).reverse

/-- `M: integer >base` -/
def integerToBase (n : ℤ) (radix : ℕ) : Option (List Char) :=
  if n = 0 then some ['0']
  else if 0 < n then positiveToBase n.toNat radix
  else (positiveToBase (-n).toNat radix).map ('-' :: ·)

/-- `M: ratio >base`: the truncated whole part, `+` and the remainder over the
denominator. A whole part `0` is left out, and a negative remainder brings its
own `-` in place of the `+`. -/
def ratioToBase (q : ℚ) (radix : ℕ) : Option (List Char) := do
  let whole ← integerToBase (q.num.tdiv q.den) radix
  let rem ← integerToBase (q.num.tmod q.den) radix
  let den ← integerToBase q.den radix
  let fraction := rem ++ '/' :: den
  match whole.head? with
  | some '0' => pure fraction
  | some '-' => pure (whole ++ fraction)
  | _ => pure (whole ++ '+' :: fraction)

/-- `>base` on the rationals: an integer or a ratio. -/
def rationalToBase (q : ℚ) (radix : ℕ) : Option (List Char) :=
  if q.den = 1 then integerToBase q.num radix else ratioToBase q radix

/-- `number>string`, that is `10 >base`, on the rationals. -/
def numberToString (q : ℚ) : Option (List Char) := rationalToBase q 10

section Digits

/-- The digits of `num` in `radix`, most significant first, as `>digit` prints them. -/
def digitText (num radix : ℕ) : List Char := (Nat.digits radix num).reverse.map toDigit

theorem tens_getD : ∀ r < 100, tens.getD r 0 = 48 + r / 10 := by decide

theorem ones_getD : ∀ r < 100, ones.getD r 0 = 48 + r % 10 := by decide

theorem toDigit_of_lt_ten {x : ℕ} (hx : x < 10) : toDigit x = Char.ofNat (48 + x) := by
  rw [toDigit, if_pos hx]
  rfl

theorem twoDigit_eq (num : ℕ) (accum : List Char) :
    twoDigit num accum = (num / 100, accum ++ [toDigit (num % 10), toDigit (num / 10 % 10)]) := by
  have hr : num % 100 < 100 := Nat.mod_lt _ (by norm_num)
  have hunits : num % 100 % 10 = num % 10 := by omega
  have htens : num % 100 / 10 = num / 10 % 10 := by omega
  rw [twoDigit, ones_getD _ hr, tens_getD _ hr, hunits, htens, toDigit_of_lt_ten (Nat.mod_lt _ (by norm_num)),
    toDigit_of_lt_ten (Nat.mod_lt _ (by norm_num))]

theorem oneDigit_eq (num : ℕ) (accum : List Char) :
    oneDigit num accum = (num / 10, accum ++ [toDigit (num % 10)]) := by
  rw [oneDigit, toDigit_of_lt_ten (Nat.mod_lt _ (by norm_num)), Nat.add_comm]
  rfl

theorem digits_ten_of_ten_le {num : ℕ} (hn : 10 ≤ num) :
    Nat.digits 10 num = num % 10 :: num / 10 % 10 :: Nat.digits 10 (num / 100) := by
  rw [Nat.digits_def' (by norm_num) (show 0 < num by omega),
    Nat.digits_def' (by norm_num) (show 0 < num / 10 by omega), Nat.div_div_eq_div_mul]

theorem oneDigits_eq (num : ℕ) (accum : List Char) :
    oneDigits num accum = accum ++ (Nat.digits 10 num).map toDigit := by
  fun_induction oneDigits num accum with
  | case1 accum => rw [Nat.digits_zero, List.map_nil, List.append_nil]
  | case2 num accum h0 ih =>
    rw [ih, oneDigit_eq, Nat.digits_def' (by norm_num) (show 0 < num by omega)]
    simp

theorem fixnumToDec_eq (num : ℕ) (accum : List Char) :
    fixnumToDec num accum = accum ++ (Nat.digits 10 num).map toDigit := by
  fun_induction fixnumToDec num accum with
  | case1 num accum h10 ih =>
    rw [ih, twoDigit_eq, digits_ten_of_ten_le h10]
    simp
  | case2 num accum _ => exact oneDigits_eq num accum

theorem bignumToDec_spec (num : ℕ) (accum : List Char) :
    (bignumToDec num accum).2 ++ (Nat.digits 10 (bignumToDec num accum).1).map toDigit =
      accum ++ (Nat.digits 10 num).map toDigit := by
  fun_induction bignumToDec num accum with
  | case1 num accum hbig ih =>
    have h10 : 10 ≤ num := by
      have : (9 : ℤ) ≤ Vm.fixnumMax := by decide
      omega
    rw [ih, twoDigit_eq, digits_ten_of_ten_le h10]
    simp
  | case2 num accum _ => rfl

theorem positiveToDec_eq (num : ℕ) : positiveToDec num = ((Nat.digits 10 num).map toDigit).reverse := by
  unfold positiveToDec
  split
  · rw [fixnumToDec_eq, List.nil_append]
  · rw [fixnumToDec_eq, bignumToDec_spec, List.nil_append]

theorem produceDigits_eq (num : ℕ) {radix : ℕ} (hr : 1 < radix) :
    produceDigits num radix = (Nat.digits radix num).map toDigit := by
  fun_induction produceDigits num radix with
  | case1 num h ih => rw [ih, Nat.digits_def' h.2 h.1, List.map_cons]
  | case2 num h =>
    have h0 : num = 0 := by omega
    rw [h0, Nat.digits_zero, List.map_nil]

theorem positiveToBase_eq (num : ℕ) {radix : ℕ} (hr : 2 ≤ radix) :
    positiveToBase num radix = some (digitText num radix) := by
  unfold positiveToBase digitText
  by_cases h10 : radix = 10
  · rw [if_pos h10, positiveToDec_eq, List.map_reverse, h10]
  · rw [if_neg h10, if_neg (by omega), produceDigits_eq num (by omega), List.map_reverse]

theorem integerToBase_of_pos {n : ℤ} (hn : 0 < n) {radix : ℕ} (hr : 2 ≤ radix) :
    integerToBase n radix = some (digitText n.natAbs radix) := by
  rw [integerToBase, if_neg hn.ne', if_pos hn, positiveToBase_eq _ hr]
  congr 3
  omega

theorem integerToBase_of_neg {n : ℤ} (hn : n < 0) {radix : ℕ} (hr : 2 ≤ radix) :
    integerToBase n radix = some ('-' :: digitText n.natAbs radix) := by
  rw [integerToBase, if_neg hn.ne, if_neg (by omega), positiveToBase_eq _ hr, Option.map_some]
  congr 4
  omega

theorem digits_reverse_cons {r m : ℕ} (hr : 2 ≤ r) (hm : 0 < m) :
    ∃ d ds, (Nat.digits r m).reverse = d :: ds ∧ d ≠ 0 ∧ (∀ x ∈ d :: ds, x < r) ∧
      Nat.ofDigits r (d :: ds).reverse = m := by
  have hne : Nat.digits r m ≠ [] := Nat.digits_ne_nil_iff_ne_zero.mpr hm.ne'
  obtain ⟨d, ds, hL⟩ := List.exists_cons_of_ne_nil (List.reverse_ne_nil_iff.mpr hne)
  have hdig : Nat.digits r m = (d :: ds).reverse := by rw [← hL, List.reverse_reverse]
  refine ⟨d, ds, hL, ?_, ?_, ?_⟩
  · have hlast := Nat.getLast_digit_ne_zero r hm.ne'
    simpa [hdig] using hlast
  · intro x hx
    rw [← hL, List.mem_reverse] at hx
    exact Nat.digits_lt_base (by omega) hx
  · rw [← hdig, Nat.ofDigits_digits]

theorem digitText_cons {r m : ℕ} (hr : 2 ≤ r ∧ r ≤ 16) (hm : 0 < m) :
    ∃ c tail, digitText m r = c :: tail ∧ c ≠ '0' ∧ c ≠ '-' := by
  obtain ⟨d, ds, hL, hd0, hlt, -⟩ := digits_reverse_cons hr.1 hm
  have hd : d < 16 := by have := hlt d List.mem_cons_self; omega
  refine ⟨toDigit d, ds.map toDigit, by rw [digitText, hL, List.map_cons], ?_, (toDigit_ne_punct d hd).2.1⟩
  exact fun h => hd0 (toDigit_eq_zero d hd h)

theorem integerToBase_signed (neg : Bool) {m : ℕ} (hm : 0 < m) {radix : ℕ} (hr : 2 ≤ radix) :
    integerToBase (if neg then -(m : ℤ) else m) radix = some ((if neg then ['-'] else []) ++ digitText m radix) := by
  cases neg
  · rw [if_neg Bool.false_ne_true, integerToBase_of_pos (by omega) hr, Int.natAbs_natCast]
    rfl
  · rw [if_pos rfl, integerToBase_of_neg (by omega) hr, Int.natAbs_neg, Int.natAbs_natCast]
    rfl

theorem num_tdiv_tmod_den (q : ℚ) :
    q.num.tdiv q.den = (if decide (q.num < 0) then -((q.num.natAbs / q.den : ℕ) : ℤ)
      else ((q.num.natAbs / q.den : ℕ) : ℤ)) ∧
    q.num.tmod q.den = (if decide (q.num < 0) then -((q.num.natAbs % q.den : ℕ) : ℤ)
      else ((q.num.natAbs % q.den : ℕ) : ℤ)) := by
  rcases lt_or_ge q.num 0 with hneg | hnonneg
  · have h : q.num = -(q.num.natAbs : ℤ) := by rw [Int.ofNat_natAbs_of_nonpos hneg.le, neg_neg]
    rw [if_pos (decide_eq_true hneg), if_pos (decide_eq_true hneg)]
    constructor
    · conv_lhs => rw [h, Int.neg_tdiv]
      rfl
    · conv_lhs => rw [h, Int.neg_tmod]
      rfl
  · have h : q.num = (q.num.natAbs : ℤ) := (Int.natAbs_of_nonneg hnonneg).symm
    rw [if_neg (by simpa using hnonneg), if_neg (by simpa using hnonneg)]
    constructor
    · conv_lhs => rw [h]
      rfl
    · conv_lhs => rw [h]
      rfl

theorem ratio_eq_signed {q : ℚ} (hden : q.den ≠ 1) :
    0 < q.num.natAbs % q.den ∧
      q = if decide (q.num < 0) then -(((q.num.natAbs / q.den : ℕ) : ℚ) + ((q.num.natAbs % q.den : ℕ) : ℚ) / q.den)
        else ((q.num.natAbs / q.den : ℕ) : ℚ) + ((q.num.natAbs % q.den : ℕ) : ℚ) / q.den := by
  have hb : (q.den : ℚ) ≠ 0 := by exact_mod_cast q.den_ne_zero
  refine ⟨Nat.pos_of_ne_zero fun h => hden (Nat.Coprime.eq_one_of_dvd q.reduced.symm (Nat.dvd_of_mod_eq_zero h)), ?_⟩
  have hA : ((q.num.natAbs : ℕ) : ℚ) = ((q.num.natAbs / q.den : ℕ) : ℚ) * q.den + ((q.num.natAbs % q.den : ℕ) : ℚ) := by
    exact_mod_cast (Nat.div_add_mod' q.num.natAbs q.den).symm
  have hsplit : ((q.num.natAbs : ℕ) : ℚ) / q.den =
      ((q.num.natAbs / q.den : ℕ) : ℚ) + ((q.num.natAbs % q.den : ℕ) : ℚ) / q.den := by
    rw [hA, add_div, mul_div_assoc, div_self hb, mul_one]
  conv_lhs => rw [← Rat.num_div_den q]
  rcases lt_or_ge q.num 0 with hneg | hnonneg
  · rw [if_pos (decide_eq_true hneg), ← hsplit, ← neg_div]
    congr 1
    rw [← Int.cast_natCast, Int.ofNat_natAbs_of_nonpos hneg.le, Int.cast_neg, neg_neg]
  · rw [if_neg (by simpa using hnonneg), ← hsplit]
    congr 1
    rw [← Int.cast_natCast, Int.natAbs_of_nonneg hnonneg]

end Digits

section RoundTrip

/-- A first-digit word that reads a digit other than `0` as the digit loop does. -/
def ReadsDigits (F : Bool → NumberParse → ℤ → Char → List Char → ParseResult) : Prop :=
  ∀ neg np n d rest, d < 16 → d ≠ 0 → F neg np n (toDigit d) rest = intDigit neg (np, n) (toDigit d) rest

theorem intFirstDigit_readsDigits : ReadsDigits intFirstDigit :=
  fun neg np n _ rest hd h0 => intFirstDigit_toDigit neg np n rest hd h0

theorem intFirstDigitNoRadix_readsDigits : ReadsDigits intFirstDigitNoRadix :=
  fun neg np n _ rest hd _ => intFirstDigitNoRadix_toDigit neg np n rest hd

theorem Number.signed_ofRat (neg : Bool) (x : ℚ) :
    (if neg then Number.negate else Number.positive) (Number.ofRat x) = Number.ofRat (if neg then -x else x) := by
  cases neg
  · exact Number.positive_ofRat x
  · exact Number.negate_ofRat x

theorem baseTo_zero {r : ℕ} (hr : 2 ≤ r ∧ r ≤ 16) : baseTo ['0'] r = .number (.integer 0) := by
  have hread := @intDigit_toDigit false ⟨r, 0⟩ hr.2 0 0 [] [] (by simp; omega)
  have hfirst := firstChar_toDigit intFirstDigitNoRadix ⟨r, 0⟩ 0 ([].map toDigit ++ []) (by norm_num : 0 < 16)
    (intFirstDigitNoRadix_toDigit false ⟨r, 0⟩ 0 _ (by norm_num))
  rw [hread] at hfirst
  exact hfirst.trans (by simp [nextDigit, addDigit, ParseResult.map, Number.positive])

variable {F : Bool → NumberParse → ℤ → Char → List Char → ParseResult} (hF : ReadsDigits F)
include hF

theorem requireFirstChar_digitText (neg : Bool) {r m : ℕ} (hr : 2 ≤ r ∧ r ≤ 16) (hm : 0 < m)
    (rest : List Char) :
    ∃ np : NumberParse, np.radix = r ∧
      requireFirstChar F r ((if neg then ['-'] else []) ++ (digitText m r ++ rest)) =
        (nextDigit (fun s => .number (.integer s.2)) (intDigitOrPunc neg) (np, (m : ℤ)) rest).map
          (if neg then Number.negate else Number.positive) := by
  obtain ⟨d, ds, hL, hd0, hlt, hval⟩ := digits_reverse_cons hr.1 hm
  obtain ⟨hrad, hsum⟩ := foldl_addDigit (d :: ds) ⟨r, 0⟩ 0
  have hd : d < 16 := by have := hlt d List.mem_cons_self; omega
  have hpair : (d :: ds).foldl (fun s d => addDigit s.1 s.2 d) ((⟨r, 0⟩ : NumberParse), (0 : ℤ)) =
      (((d :: ds).foldl (fun s d => addDigit s.1 s.2 d) ((⟨r, 0⟩ : NumberParse), (0 : ℤ))).1, (m : ℤ)) :=
    Prod.ext rfl (by rw [hsum]; simpa using hval)
  have hread := @intDigit_toDigit neg ⟨r, 0⟩ hr.2 0 d ds rest hlt
  rw [hpair] at hread
  refine ⟨_, hrad, ?_⟩
  rw [digitText, hL, List.map_cons, List.cons_append]
  cases neg with
  | false => exact (firstChar_toDigit F _ _ _ hd (hF false _ _ d _ hd hd0)).trans (congrArg _ hread)
  | true => exact (firstChar_minus F _ _ _ _ (hF true _ _ d _ hd hd0)).trans (congrArg _ hread)

theorem requireFirstChar_fraction (neg : Bool) {r k b : ℕ} (hr : 2 ≤ r ∧ r ≤ 16) (hk : 0 < k) (hb : 0 < b) :
    requireFirstChar F r ((if neg then ['-'] else []) ++ (digitText k r ++ '/' :: digitText b r)) =
      .number (Number.ofRat (if neg then -((k : ℚ) / b) else (k : ℚ) / b)) := by
  obtain ⟨np, hrad, h⟩ := requireFirstChar_digitText hF neg hr hk ('/' :: digitText b r)
  obtain ⟨e, es, hL, -, hlt, hval⟩ := digits_reverse_cons hr.1 hb
  have hden := @toDenominator_toDigit np (hrad ▸ hr.2) k e es (hrad ▸ hlt) (by rw [hrad, hval]; omega)
  have htext : digitText b r = (e :: es).map toDigit := by rw [digitText, hL]
  rw [hrad, hval, ← htext] at hden
  rw [h, nextDigit, intDigitOrPunc_slash, hden]
  exact congrArg ParseResult.number (Number.signed_ofRat neg ((k : ℚ) / b))

theorem requireFirstChar_mixed (neg : Bool) {r w k b : ℕ} (hr : 2 ≤ r ∧ r ≤ 16) (hw : 0 < w) (hk : 0 < k)
    (hb : 0 < b) :
    requireFirstChar F r ((if neg then ['-'] else []) ++
        (digitText w r ++ (if neg then '-' else '+') :: (digitText k r ++ '/' :: digitText b r))) =
      .number (Number.ofRat (if neg then -((w : ℚ) + k / b) else (w : ℚ) + k / b)) := by
  obtain ⟨np, hrad, h⟩ := requireFirstChar_digitText hF neg hr hw
    ((if neg then '-' else '+') :: (digitText k r ++ '/' :: digitText b r))
  obtain ⟨d, ds, hK, -, hkl, hkv⟩ := digits_reverse_cons hr.1 hk
  obtain ⟨e, es, hB, -, hbl, hbv⟩ := digits_reverse_cons hr.1 hb
  have hnum := @toNumerator_toDigit np (hrad ▸ hr.2) w d ds e es (hrad ▸ hkl) (hrad ▸ hbl)
    (by rw [hrad, hbv]; omega)
  have hktext : digitText k r = (d :: ds).map toDigit := by rw [digitText, hK]
  have hbtext : digitText b r = (e :: es).map toDigit := by rw [digitText, hB]
  rw [hrad, hkv, hbv, ← hktext, ← hbtext] at hnum
  rw [h, nextDigit, intDigitOrPunc_sign, hnum]
  exact congrArg ParseResult.number (Number.signed_ofRat neg ((w : ℚ) + k / b))

theorem requireFirstChar_integerToBase {r : ℕ} (hr : 2 ≤ r ∧ r ≤ 16)
    (hF0 : requireFirstChar F r ['0'] = .number (.integer 0)) (n : ℤ) :
    (integerToBase n r).map (requireFirstChar F r) = some (.number (.integer n)) := by
  rcases lt_trichotomy n 0 with hn | rfl | hn
  · obtain ⟨np, -, h⟩ := requireFirstChar_digitText hF true hr (Int.natAbs_pos.mpr hn.ne) []
    have htext := integerToBase_signed true (Int.natAbs_pos.mpr hn.ne) hr.1
    rw [if_pos rfl, Int.ofNat_natAbs_of_nonpos hn.le, neg_neg] at htext
    rw [htext, Option.map_some, ← List.append_nil (digitText _ _), h]
    show some (ParseResult.number (.integer (-(n.natAbs : ℤ)))) = _
    rw [Int.ofNat_natAbs_of_nonpos hn.le, neg_neg]
  · rw [integerToBase, if_pos rfl, Option.map_some, hF0]
  · obtain ⟨np, -, h⟩ := requireFirstChar_digitText hF false hr (Int.natAbs_pos.mpr hn.ne') []
    rw [integerToBase_of_pos hn hr.1, Option.map_some, ← List.append_nil (digitText _ _)]
    rw [show digitText n.natAbs r ++ [] = (if false then ['-'] else []) ++ (digitText n.natAbs r ++ []) from rfl, h]
    show some (ParseResult.number (.integer (n.natAbs : ℤ))) = _
    rw [Int.natAbs_of_nonneg hn.le]

theorem requireFirstChar_ratioToBase {r : ℕ} (hr : 2 ≤ r ∧ r ≤ 16) {q : ℚ} (hden : q.den ≠ 1) :
    (ratioToBase q r).map (requireFirstChar F r) = some (.number (Number.ofRat q)) := by
  obtain ⟨hk, hq⟩ := ratio_eq_signed hden
  obtain ⟨hwhole, hrem⟩ := num_tdiv_tmod_den q
  generalize decide (q.num < 0) = neg at hq hwhole hrem
  have hb : 0 < q.den := q.den_pos
  have hden' : integerToBase (q.den : ℤ) r = some (digitText q.den r) := by
    rw [integerToBase_of_pos (by exact_mod_cast hb) hr.1, Int.natAbs_natCast]
  have hremText := integerToBase_signed neg hk hr.1
  rw [← hrem] at hremText
  rcases Nat.eq_zero_or_pos (q.num.natAbs / q.den) with hw | hw
  · -- no whole part: the fraction alone
    have hzero : integerToBase (q.num.tdiv q.den) r = some ['0'] := by
      rw [hwhole, hw]
      simp [integerToBase]
    have htext : ratioToBase q r = some ((if neg then ['-'] else []) ++
        (digitText (q.num.natAbs % q.den) r ++ '/' :: digitText q.den r)) := by
      cases neg <;> simp [ratioToBase, hzero, hremText, hden']
    rw [htext, Option.map_some, requireFirstChar_fraction hF _ hr hk hb]
    conv_rhs => rw [hq]
    simp [hw]
  · -- a whole part: glued with `+`, or with the `-` of the remainder
    have hwholeText := integerToBase_signed neg hw hr.1
    rw [← hwhole] at hwholeText
    obtain ⟨c, tail, hc, hc0, hcm⟩ := digitText_cons hr hw
    have htext : ratioToBase q r = some ((if neg then ['-'] else []) ++
        (digitText (q.num.natAbs / q.den) r ++ (if neg then '-' else '+') ::
          (digitText (q.num.natAbs % q.den) r ++ '/' :: digitText q.den r))) := by
      cases neg <;> simp [ratioToBase, hwholeText, hremText, hden', hc, hc0, hcm]
    rw [htext, Option.map_some, requireFirstChar_mixed hF _ hr hw hk hb]
    conv_rhs => rw [hq]

theorem requireFirstChar_rationalToBase {r : ℕ} (hr : 2 ≤ r ∧ r ≤ 16)
    (hF0 : requireFirstChar F r ['0'] = .number (.integer 0)) (q : ℚ) :
    (rationalToBase q r).map (requireFirstChar F r) = some (.number (Number.ofRat q)) := by
  unfold rationalToBase
  by_cases hden : q.den = 1
  · rw [if_pos hden, requireFirstChar_integerToBase hF hr hF0, Number.ofRat, if_pos hden]
  · rw [if_neg hden]
    exact requireFirstChar_ratioToBase hF hr hden

end RoundTrip

/-- Integers and ratios read back as printed, by `base>` in every radix from 2
to 16 and by `string>number` from `number>string`; and `positive>dec` writes the
digits that the `positive>base` loop writes. -/
theorem rational_text_round_trip :
    (∀ (q : ℚ) (r : ℕ), 2 ≤ r → r ≤ 16 → (rationalToBase q r).map (baseTo · r) = some (.number (Number.ofRat q))) ∧
      (∀ q : ℚ, (numberToString q).map stringToNumber = some (.number (Number.ofRat q))) ∧
      (∀ num : ℕ, positiveToDec num = (produceDigits num 10).reverse) := by
  refine ⟨fun q r h2 h16 => ?_, fun q => ?_, fun num => ?_⟩
  · exact requireFirstChar_rationalToBase intFirstDigitNoRadix_readsDigits ⟨h2, h16⟩ (baseTo_zero ⟨h2, h16⟩) q
  · exact requireFirstChar_rationalToBase intFirstDigit_readsDigits (by norm_num) (by decide) q
  · rw [positiveToDec_eq, produceDigits_eq num (by norm_num)]

theorem rational_text_round_trip_hex :
    (2 : ℕ) ≤ 16 ∧ (16 : ℕ) ≤ 16 ∧
      (rationalToBase (255 / 16) 16).map (baseTo · 16) = some (.number (Number.ofRat (255 / 16))) :=
  ⟨by norm_num, le_refl _, rational_text_round_trip.1 _ _ (by norm_num) (le_refl _)⟩

end FactorProofs.Math
