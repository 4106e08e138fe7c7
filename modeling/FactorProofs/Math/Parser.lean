import Mathlib.Data.Nat.Digits.Defs
import FactorProofs.Math.FloatDivision

namespace FactorProofs.Math

/-! `math.parser`: `string>number` and `base>`, the reader of number literals.
The reader is a family of words that call each other in tail position, one for
each kind of character it expects next; each is given the next character and
the characters after it, which take the place of the index into the string.
The number-parse and float-parse tuples carry the radix, the position of the
point, the exponent and the magnitude that lets `?make-float` skip literals
that overflow or underflow. -/

/-- A number the reader returns. -/
inductive Number
  | integer (n : ℤ)
  | ratio (q : ℚ)
  | float (x : Double)
  deriving DecidableEq

/-- What the reader ends with: a number, `f`, or the `no-case` error that
`base2-digits` throws for a float in a radix other than 2, 8, 10 and 16. -/
inductive ParseResult
  | number (x : Number)
  | fail
  | noCase
  deriving DecidableEq

def ParseResult.ofOption : Option Number → ParseResult
  | some x => .number x
  | none => .fail

def ParseResult.map (f : Number → Number) : ParseResult → ParseResult
  | .number x => .number (f x)
  | r => r

/-- `/` on integers: `fraction>` gives an integer for a whole quotient. -/
def Number.ofRat (q : ℚ) : Number := if q.den = 1 then .integer q.num else .ratio q

/-- `neg` under `?neg`: a NaN gets its sign bit set (`fp-?neg`). -/
def Number.negate : Number → Number
  | .integer n => .integer (-n)
  | .ratio q => .ratio (-q)
  | .float x => .float (if fpNan x then x ||| 0x8000000000000000 else floatNeg x)

/-- `?pos`: a NaN gets its sign bit cleared. -/
def Number.positive : Number → Number
  | .float x => .float (if fpNan x then x &&& 0x7fffffffffffffff else x)
  | x => x

/-- `?make-ratio`: an integer denominator `0` fails (not a float `0.`, which
`=` does not equate with it); a float denominator divides as floats. -/
def maybeMakeRatio (num : ℤ) : Option Number → Option Number
  | some (.integer d) => if d = 0 then none else some (Number.ofRat (num / d))
  | some (.ratio q) => some (Number.ofRat (num / q))
  | some (.float x) => some (.float (floatDivF (integerToFloat num) x))
  | none => none

/-- `?add-ratio` -/
def maybeAddRatio (m : ℤ) : Option Number → Option Number
  | some (.integer k) => some (.integer (m + k))
  | some (.ratio q) => some (Number.ofRat (m + q))
  | some (.float x) => some (.float (floatAdd (integerToFloat m) x))
  | none => none

/-- `digit>`: the value of a digit character, `255` or more for any other. -/
def digitTo (ch : Char) : ℕ :=
  let c := ch.toNat
  if c ≤ '9'.toNat then (if c < '0'.toNat then 255 else c - '0'.toNat)
  else if c < 'a'.toNat then (if c - ('A'.toNat - 10) < 10 then 255 else c - ('A'.toNat - 10))
  else if c - ('a'.toNat - 10) < 10 then 255 else c - ('a'.toNat - 10)

/-- `>digit` -/
def toDigit (n : ℕ) : Char := if n < 10 then Char.ofNat ('0'.toNat + n) else Char.ofNat (n - 10 + 'a'.toNat)

theorem digitTo_toDigit : ∀ n < 36, digitTo (toDigit n) = n := by decide

/-- The fields of `number-parse` that change: the radix and the magnitude. -/
structure NumberParse where
  radix : ℕ
  magnitude : ℤ

/-- `float-parse` -/
structure FloatParse where
  radix : ℕ
  point : ℤ
  exponent : Option ℤ
  magnitude : ℤ

/-- `add-digit`: the magnitude counts the digits from the first that is not `0`. -/
def addDigit (np : NumberParse) (n : ℤ) (digit : ℕ) : NumberParse × ℤ :=
  let n' := n * np.radix + digit
  (if n' = 0 then np else { np with magnitude := np.magnitude + 1 }, n')

/-- `exponent-char?` -/
def exponentCharP (np : NumberParse) (c : Char) : Bool :=
  if np.radix = 10 then c = 'e' || c = 'E' else c = 'p' || c = 'P'

/-- The separators that `if-skip` skips. -/
def separatorP (c : Char) : Bool := c = ',' || c = '_'

theorem separatorP_toDigit : ∀ n < 36, separatorP (toDigit n) = false := by decide

section DigitLoop

variable {σ α : Type} (radix : σ → ℕ) (step : σ → ℕ → σ) (onEnd onFail : σ → α)
  (preDigit punct : σ → Char → List Char → Option α)

/-- `@X-digit-or-punc` at the character `c` after a digit: a separator must be
followed by a digit (`if-skip`, `require-next-digit`), any other character
goes to the dispatch `punct` and then to `@X-digit`. The digit step is written
out in both places so that the recursion is on the rest of the string. -/
def digitOrPunc (s : σ) (c : Char) (rest : List Char) : α :=
    if separatorP c then
      match rest with
      | [] => onFail s
      | c' :: rest' =>
        match preDigit s c' rest' with
        | some a => a
        | none =>
          if digitTo c' < radix s then
            match rest' with
            | [] => onEnd (step s (digitTo c'))
            | c'' :: rest'' => digitOrPunc (step s (digitTo c')) c'' rest''
          else onFail s
    else
      match punct s c rest with
      | some a => a
      | none =>
        match preDigit s c rest with
        | some a => a
        | none =>
          if digitTo c < radix s then
            match rest with
            | [] => onEnd (step s (digitTo c))
            | c' :: rest' => digitOrPunc (step s (digitTo c)) c' rest'
          else onFail s

/-- `@X-digit` at the character `c`: a digit in the radix is added and the
loop goes on after it; anything else is `@abort`. -/
def readDigit (s : σ) (c : Char) (rest : List Char) : α :=
  match preDigit s c rest with
  | some a => a
  | none =>
    if digitTo c < radix s then
      match rest with
      | [] => onEnd (step s (digitTo c))
      | c' :: rest' => digitOrPunc radix step onEnd onFail preDigit punct (step s (digitTo c)) c' rest'
    else onFail s

theorem digitOrPunc_eq (s : σ) (c : Char) (rest : List Char) :
    digitOrPunc radix step onEnd onFail preDigit punct s c rest =
      if separatorP c then
        (match rest with
        | [] => onFail s
        | c' :: rest' => readDigit radix step onEnd onFail preDigit punct s c' rest')
      else
        (match punct s c rest with
        | some a => a
        | none => readDigit radix step onEnd onFail preDigit punct s c rest) := by
  rw [digitOrPunc.eq_def]
  split
  · cases rest <;> rfl
  · rfl

theorem digitOrPunc_separator {sep c : Char} (s : σ) (rest : List Char) (hsep : separatorP sep = true)
    (hc : separatorP c = false) (hp : punct s c rest = none) :
    digitOrPunc radix step onEnd onFail preDigit punct s sep (c :: rest) =
      digitOrPunc radix step onEnd onFail preDigit punct s c rest := by
  rw [digitOrPunc_eq, digitOrPunc_eq, if_pos hsep, if_neg (by simp [hc]), hp]

theorem digitOrPunc_separator_end {sep : Char} (s : σ) (hsep : separatorP sep = true) :
    digitOrPunc radix step onEnd onFail preDigit punct s sep [] = onFail s := by
  rw [digitOrPunc_eq, if_pos hsep]

theorem digitOrPunc_separator_nonDigit {sep c : Char} (s : σ) (rest : List Char)
    (hsep : separatorP sep = true) (hpre : preDigit s c rest = none) (hd : radix s ≤ digitTo c) :
    digitOrPunc radix step onEnd onFail preDigit punct s sep (c :: rest) = onFail s := by
  rw [digitOrPunc_eq, if_pos hsep]
  simp only [readDigit, hpre, if_neg (Nat.not_lt.mpr hd)]

/-- `next-digit`: at the end of the string `onEnd`, else the next character goes to `k`. -/
def nextDigit (k : σ → Char → List Char → α) (s : σ) : List Char → α
  | [] => onEnd s
  | c :: rest => k s c rest

theorem readDigit_eq (s : σ) (c : Char) (rest : List Char) :
    readDigit radix step onEnd onFail preDigit punct s c rest =
      match preDigit s c rest with
      | some a => a
      | none =>
        if digitTo c < radix s then
          nextDigit onEnd (digitOrPunc radix step onEnd onFail preDigit punct) (step s (digitTo c)) rest
        else onFail s := by
  cases rest <;> rfl

theorem readDigit_toDigit {r : ℕ} (hr : r ≤ 36) (hradix : ∀ s d, radix (step s d) = radix s)
    (hpre : ∀ s x rest, radix s = r → x < r → preDigit s (toDigit x) rest = none)
    (hpunct : ∀ s x rest, radix s = r → x < r → punct s (toDigit x) rest = none)
    (d : ℕ) (ds : List ℕ) (s : σ) (rest : List Char) (hs : radix s = r) (hd : ∀ x ∈ d :: ds, x < r) :
    readDigit radix step onEnd onFail preDigit punct s (toDigit d) (ds.map toDigit ++ rest) =
      nextDigit onEnd (digitOrPunc radix step onEnd onFail preDigit punct) ((d :: ds).foldl step s) rest := by
  induction ds generalizing d s with
  | nil =>
    have hd0 : d < r := hd d List.mem_cons_self
    rw [readDigit_eq, hpre s d _ hs hd0, digitTo_toDigit d (by omega), if_pos (hs ▸ hd0)]
    rfl
  | cons d' ds ih =>
    have hd0 : d < r := hd d List.mem_cons_self
    have hd' : d' < r := hd d' (List.mem_cons_of_mem _ List.mem_cons_self)
    have hs' : radix (step s d) = r := by rw [hradix, hs]
    rw [readDigit_eq, hpre s d _ hs hd0, digitTo_toDigit d (by omega), if_pos (hs ▸ hd0)]
    show digitOrPunc radix step onEnd onFail preDigit punct (step s d) (toDigit d') (ds.map toDigit ++ rest) = _
    rw [digitOrPunc_eq, separatorP_toDigit d' (by omega), if_neg Bool.false_ne_true,
      hpunct _ d' _ hs' hd']
    exact ih d' (step s d) hs' fun x hx => hd x (List.mem_cons_of_mem _ hx)

end DigitLoop

/-- `pow-until`: square and multiply. -/
def powUntil (acc base : ℚ) (x : ℕ) : ℚ :=
  if x = 0 then acc
  else if x % 2 = 1 then powUntil (acc * base) (base * base) ((x - 1) / 2)
  else powUntil acc (base * base) (x / 2)
termination_by x
decreasing_by all_goals omega

/-- `(pow)`: a negative power is the power of the reciprocal. -/
def pow (base : ℚ) (x : ℤ) : ℚ :=
  if 0 ≤ x then powUntil 1 base x.toNat else powUntil 1 base⁻¹ (-x).toNat

/-- `/f` of an integer by an integer or a ratio; `M: ratio /f` scales both to integers. -/
def divF (n : ℤ) (r : ℚ) : Double := integerDivF (n * r.den) r.num

/-- `base2-digits`: the bits of a digit in radix 16, 8 or 2, and `no-case` in any other. -/
def base2Digits (digits : ℤ) (radix : ℕ) : Option ℤ :=
  if radix = 16 then some (digits * 4)
  else if radix = 8 then some (digits * 3)
  else if radix = 2 then some digits
  else none

/-- `make-float-dec-exponent`: past the range of doubles the literal is `1/0.`
or `0.0` without a division. -/
def makeFloatDecExponent (fp : FloatParse) (n : ℤ) : ParseResult :=
  let exponent := fp.exponent.getD 0
  let v := exponent + fp.magnitude
  if 309 < v then .number (.float 0x7ff0000000000000)
  else if v < -323 then .number (.float 0)
  else .number (.float (divF n (pow fp.radix (fp.point - exponent))))

/-- `make-float-bin-exponent` -/
def makeFloatBinExponent (fp : FloatParse) (n : ℤ) : ParseResult :=
  match base2Digits fp.magnitude fp.radix, base2Digits fp.point fp.radix with
  | some magnitude, some point =>
    let exponent := fp.exponent.getD 0
    let v := exponent + magnitude
    if 1027 < v then .number (.float 0x7ff0000000000000)
    else if v < -1074 then .number (.float 0)
    else .number (.float (divF n (pow 2 (point - exponent))))
  | _, _ => .noCase

/-- `?make-float` with `?default-exponent`: a decimal literal without an
exponent has exponent `0`, a binary one fails. -/
def maybeMakeFloat (fp : FloatParse) (n : Option ℤ) : ParseResult :=
  let (fp, n) :=
    if fp.exponent.isNone then (if fp.radix = 10 then ({ fp with exponent := some 0 }, n) else (fp, none))
    else (fp, n)
  match n with
  | none => .fail
  | some n => if fp.radix = 10 then makeFloatDecExponent fp n else makeFloatBinExponent fp n

/-- `<float-parse>` -/
def NumberParse.toFloatParse (np : NumberParse) : FloatParse := ⟨np.radix, 0, none, np.magnitude⟩

/-- `@exponent-digit`: decimal digits added by `(add-digit)`, without magnitude. -/
def exponentDigit : NumberParse × ℤ → Char → List Char → Option ℤ :=
  readDigit (fun s => s.1.radix) (fun s d => (s.1, s.2 * s.1.radix + d)) (fun s => some s.2)
    (fun _ => none) (fun _ _ _ => none) (fun _ _ _ => none)

/-- `@exponent-digit-or-punc` -/
def exponentDigitOrPunc : NumberParse × ℤ → Char → List Char → Option ℤ :=
  digitOrPunc (fun s => s.1.radix) (fun s d => (s.1, s.2 * s.1.radix + d)) (fun s => some s.2)
    (fun _ => none) (fun _ _ _ => none) (fun _ _ _ => none)

/-- `@exponent-first-char` with the `?neg` or `?pos` of its sign. -/
def exponentFirstChar (np : NumberParse) (c : Char) (rest : List Char) : Option ℤ :=
  if c = '-' then
    match rest with
    | [] => none
    | c' :: rest' => (exponentDigit (np, 0) c' rest').map (- ·)
  else if c = '+' then
    match rest with
    | [] => none
    | c' :: rest' => exponentDigit (np, 0) c' rest'
  else exponentDigit (np, 0) c rest

/-- `->exponent`: the exponent is read in radix 10 and stored by `?store-exponent`. -/
def toExponent (fp : FloatParse) (np : NumberParse) (n : ℤ) (rest : List Char) : FloatParse × Option ℤ :=
  let exponent :=
    match rest with
    | [] => none
    | c :: rest' => exponentFirstChar { np with radix := 10 } c rest'
  match exponent with
  | some e => ({ fp with exponent := some e }, some n)
  | none => (fp, none)

/-- `inc-point-?dec-magnitude`: leading zeros after the point lower the magnitude. -/
def FloatParse.incPoint (fp : FloatParse) (n : ℤ) : FloatParse :=
  let fp := if n = 0 then { fp with magnitude := fp.magnitude - 1 } else fp
  { fp with point := fp.point + 1 }

/-- The parameters of `@mantissa-digit`: `add-mantissa`, and the exponent
character tried before the digit test by `or-mantissa->exponent`. -/
def mantissaStep (s : FloatParse × NumberParse × ℤ) (d : ℕ) : FloatParse × NumberParse × ℤ :=
  let n' := s.2.2 * s.2.1.radix + d
  (s.1.incPoint n', s.2.1, n')

def mantissaExponent (s : FloatParse × NumberParse × ℤ) (c : Char) (rest : List Char) :
    Option (FloatParse × Option ℤ) :=
  if exponentCharP s.2.1 c then some (toExponent s.1 s.2.1 s.2.2 rest) else none

/-- `@mantissa-digit` -/
def mantissaDigit : FloatParse × NumberParse × ℤ → Char → List Char → FloatParse × Option ℤ :=
  readDigit (fun s => s.2.1.radix) mantissaStep (fun s => (s.1, some s.2.2)) (fun s => (s.1, none))
    mantissaExponent (fun _ _ _ => none)

/-- `@mantissa-digit-or-punc` -/
def mantissaDigitOrPunc : FloatParse × NumberParse × ℤ → Char → List Char → FloatParse × Option ℤ :=
  digitOrPunc (fun s => s.2.1.radix) mantissaStep (fun s => (s.1, some s.2.2)) (fun s => (s.1, none))
    mantissaExponent (fun _ _ _ => none)

theorem mantissaDigitOrPunc_separator {sep c : Char} (s : FloatParse × NumberParse × ℤ)
    (rest : List Char) (hsep : separatorP sep = true) (hc : separatorP c = false) :
    mantissaDigitOrPunc s sep (c :: rest) = mantissaDigitOrPunc s c rest :=
  digitOrPunc_separator _ _ _ _ _ _ s rest hsep hc rfl

/-- `->mantissa` -/
def toMantissa (np : NumberParse) (n : ℤ) (rest : List Char) : ParseResult :=
  let fp := np.toFloatParse
  let r :=
    match rest with
    | [] => (fp, some n)
    | c :: rest' => mantissaDigit (fp, np, n) c rest'
  maybeMakeFloat r.1 r.2

/-- `->required-mantissa`, after a leading point -/
def toRequiredMantissa (np : NumberParse) (n : ℤ) (rest : List Char) : ParseResult :=
  let fp := np.toFloatParse
  let r :=
    match rest with
    | [] => (fp, none)
    | c :: rest' => mantissaDigit (fp, np, n) c rest'
  maybeMakeFloat r.1 r.2

/-- The dispatch of `@denom-digit-or-punc`: a point makes the denominator a
float and must end the string. -/
def denomPunct (s : NumberParse × ℤ) (c : Char) (rest : List Char) : Option (Option Number) :=
  if c = '.' then
    some (match rest with
      | [] => some (.float (integerToFloat s.2))
      | _ :: _ => none)
  else none

/-- `@denom-digit` -/
def denomDigit : NumberParse × ℤ → Char → List Char → Option Number :=
  readDigit (fun s => s.1.radix) (fun s d => addDigit s.1 s.2 d) (fun s => some (.integer s.2))
    (fun _ => none) (fun _ _ _ => none) denomPunct

/-- `@denom-digit-or-punc` -/
def denomDigitOrPunc : NumberParse × ℤ → Char → List Char → Option Number :=
  digitOrPunc (fun s => s.1.radix) (fun s d => addDigit s.1 s.2 d) (fun s => some (.integer s.2))
    (fun _ => none) (fun _ _ _ => none) denomPunct

/-- `@split` -/
def NumberParse.split (np : NumberParse) : NumberParse := { np with magnitude := 0 }

/-- `->denominator` -/
def toDenominator (np : NumberParse) (n : ℤ) (rest : List Char) : Option Number :=
  maybeMakeRatio n
    (match rest with
    | [] => none
    | c :: rest' => denomDigit (np.split, 0) c rest')

/-- The dispatch of `@num-digit-or-punc` -/
def numPunct (s : NumberParse × ℤ) (c : Char) (rest : List Char) : Option (Option Number) :=
  if c = '/' then some (toDenominator s.1 s.2 rest) else none

/-- `@num-digit`: a numerator must be followed by its denominator. -/
def numDigit : NumberParse × ℤ → Char → List Char → Option Number :=
  readDigit (fun s => s.1.radix) (fun s d => addDigit s.1 s.2 d) (fun _ => none) (fun _ => none)
    (fun _ _ _ => none) numPunct

/-- `@num-digit-or-punc` -/
def numDigitOrPunc : NumberParse × ℤ → Char → List Char → Option Number :=
  digitOrPunc (fun s => s.1.radix) (fun s d => addDigit s.1 s.2 d) (fun _ => none) (fun _ => none)
    (fun _ _ _ => none) numPunct

/-- `->numerator`, after the integer part of a mixed fraction -/
def toNumerator (np : NumberParse) (n : ℤ) (rest : List Char) : Option Number :=
  maybeAddRatio n
    (match rest with
    | [] => none
    | c :: rest' => numDigit (np.split, 0) c rest')

/-- `or-exponent` in the integer part: an exponent makes the literal a float. -/
def orExponent (np : NumberParse) (n : ℤ) (rest : List Char) : ParseResult :=
  let r := toExponent np.toFloatParse np n rest
  maybeMakeFloat r.1 r.2

/-- The dispatch of `@pos-digit-or-punc` (`neg = false`, a mixed fraction
after `+`) and of `@neg-digit-or-punc` (`neg = true`, after `-`). -/
def intPunct (neg : Bool) (s : NumberParse × ℤ) (c : Char) (rest : List Char) : Option ParseResult :=
  if c = (if neg then '-' else '+') then some (.ofOption (toNumerator s.1 s.2 rest))
  else if c = '/' then some (.ofOption (toDenominator s.1 s.2 rest))
  else if c = '.' then some (toMantissa s.1 s.2 rest)
  else if exponentCharP s.1 c then some (orExponent s.1 s.2 rest)
  else none

/-- `@pos-digit` and `@neg-digit` -/
def intDigit (neg : Bool) : NumberParse × ℤ → Char → List Char → ParseResult :=
  readDigit (fun s => s.1.radix) (fun s d => addDigit s.1 s.2 d) (fun s => .number (.integer s.2))
    (fun _ => .fail) (fun _ _ _ => none) (intPunct neg)

/-- `@pos-digit-or-punc` and `@neg-digit-or-punc` -/
def intDigitOrPunc (neg : Bool) : NumberParse × ℤ → Char → List Char → ParseResult :=
  digitOrPunc (fun s => s.1.radix) (fun s d => addDigit s.1 s.2 d) (fun s => .number (.integer s.2))
    (fun _ => .fail) (fun _ _ _ => none) (intPunct neg)

/-- `with-radix-char` after a leading `0`: `b`, `o` or `x` set the radix and
need a digit after them; another character is read as after a digit. -/
def withRadixChar (neg : Bool) (np : NumberParse) (n : ℤ) : List Char → ParseResult
  | [] => .number (.integer n)
  | c :: rest =>
    let radix := if c = 'b' ∨ c = 'B' then some 2 else if c = 'o' ∨ c = 'O' then some 8
      else if c = 'x' ∨ c = 'X' then some 16 else none
    match radix with
    | some r =>
      match rest with
      | [] => .fail
      | c' :: rest' => intDigit neg ({ np with radix := r }, n) c' rest'
    | none => intDigitOrPunc neg (np, n) c rest

/-- `@pos-first-digit` and `@neg-first-digit` -/
def intFirstDigit (neg : Bool) (np : NumberParse) (n : ℤ) (c : Char) (rest : List Char) : ParseResult :=
  if c = '.' then toRequiredMantissa np n rest
  else if c = '0' then withRadixChar neg np n rest
  else intDigit neg (np, n) c rest

/-- `@pos-first-digit-no-radix` and `@neg-first-digit-no-radix` -/
def intFirstDigitNoRadix (neg : Bool) (np : NumberParse) (n : ℤ) (c : Char) (rest : List Char) :
    ParseResult :=
  if c = '.' then toRequiredMantissa np n rest else intDigit neg (np, n) c rest

/-- `@first-char` and `@first-char-no-radix`, given the word for the first digit. -/
def firstChar (firstDigit : Bool → NumberParse → ℤ → Char → List Char → ParseResult)
    (np : NumberParse) (n : ℤ) (c : Char) (rest : List Char) : ParseResult :=
  if c = '-' then
    match rest with
    | [] => .fail
    | c' :: rest' => (firstDigit true np n c' rest').map Number.negate
  else if c = '+' then
    match rest with
    | [] => .fail
    | c' :: rest' => (firstDigit false np n c' rest').map Number.positive
  else (firstDigit false np n c rest).map Number.positive

/-- `<number-parse>` and `[ first-char ] require-next-digit`, shared by
`string>number` and `base>`: the empty string is `f`. -/
def requireFirstChar (firstDigit : Bool → NumberParse → ℤ → Char → List Char → ParseResult)
    (radix : ℕ) : List Char → ParseResult
  | [] => .fail
  | c :: rest => firstChar firstDigit ⟨radix, 0⟩ 0 c rest

/-- `string>number` -/
def stringToNumber (str : List Char) : ParseResult := requireFirstChar intFirstDigit 10 str

/-- `base>` -/
def baseTo (str : List Char) (radix : ℕ) : ParseResult := requireFirstChar intFirstDigitNoRadix radix str

/-- A literal of zero digits with a large exponent is read as infinity: its
magnitude is `0`, the leading `0` is never added, so `exponent + magnitude`
passes `max-magnitude-10` although the value is `0`, whose nearest double is `0.0`. -/
theorem zero_mantissa_large_exponent_reads_infinity :
    stringToNumber "0e500".toList = .number (.float 0x7ff0000000000000) ∧
      roundToDouble false ((0 : ℤ) * 10 ^ (500 : ℤ)) = 0 := by
  constructor
  · decide +kernel
  · decide +kernel

/-- A separator between a mantissa digit and the exponent character is accepted,
and the literal reads as without it; in the integer part the same separator
makes the literal fail. -/
theorem separator_before_exponent_accepted :
    stringToNumber "1.5_e5".toList = stringToNumber "1.5e5".toList ∧
      stringToNumber "1.5e5".toList = .number (.float 0x41024f8000000000) ∧
      stringToNumber "1_e5".toList = .fail := by
  refine ⟨?_, ?_, ?_⟩
  · decide +kernel
  · decide +kernel
  · decide +kernel

example : stringToNumber "100,000".toList = .number (.integer 100000) := by decide +kernel
example : stringToNumber "-1-1/2".toList = .number (.ratio (-3 / 2)) := by decide +kernel
example : stringToNumber "1_".toList = .fail := by decide +kernel

section ReadDigits

theorem addDigit_radix (np : NumberParse) (n : ℤ) (d : ℕ) : (addDigit np n d).1.radix = np.radix := by
  unfold addDigit
  dsimp only
  split <;> rfl

theorem foldl_addDigit (ds : List ℕ) (np : NumberParse) (n : ℤ) :
    (ds.foldl (fun s d => addDigit s.1 s.2 d) (np, n)).1.radix = np.radix ∧
      (ds.foldl (fun s d => addDigit s.1 s.2 d) (np, n)).2 =
        n * np.radix ^ ds.length + (Nat.ofDigits np.radix ds.reverse : ℕ) := by
  induction ds generalizing np n with
  | nil => simp
  | cons d ds ih =>
    obtain ⟨hrad, hval⟩ := ih (addDigit np n d).1 (addDigit np n d).2
    rw [Prod.mk.eta, addDigit_radix] at hrad hval
    refine ⟨hrad, ?_⟩
    rw [List.foldl_cons, hval, show (addDigit np n d).2 = n * np.radix + d from rfl, List.reverse_cons,
      Nat.ofDigits_append, Nat.ofDigits_singleton, List.length_reverse, List.length_cons]
    push_cast
    ring

theorem toDigit_ne_punct : ∀ x < 16, toDigit x ≠ '+' ∧ toDigit x ≠ '-' ∧ toDigit x ≠ '/' ∧
    toDigit x ≠ '.' ∧ toDigit x ≠ 'p' ∧ toDigit x ≠ 'P' := by decide

theorem toDigit_ne_exponent : ∀ x < 10, toDigit x ≠ 'e' ∧ toDigit x ≠ 'E' := by decide

theorem intPunct_toDigit (neg : Bool) (s : NumberParse × ℤ) (x : ℕ) (rest : List Char)
    (hr : s.1.radix ≤ 16) (hx : x < s.1.radix) : intPunct neg s (toDigit x) rest = none := by
  obtain ⟨hplus, hminus, hslash, hpoint, hp, hP⟩ := toDigit_ne_punct x (by omega)
  unfold intPunct exponentCharP
  by_cases h10 : s.1.radix = 10
  · obtain ⟨he, hE⟩ := toDigit_ne_exponent x (by omega)
    cases neg <;> simp [hplus, hminus, hslash, hpoint, h10, he, hE]
  · cases neg <;> simp [hplus, hminus, hslash, hpoint, h10, hp, hP]

theorem intDigit_toDigit (neg : Bool) {np : NumberParse} (hr : np.radix ≤ 16) (n : ℤ) (d : ℕ)
    (ds : List ℕ) (rest : List Char) (hd : ∀ x ∈ d :: ds, x < np.radix) :
    intDigit neg (np, n) (toDigit d) (ds.map toDigit ++ rest) =
      nextDigit (fun s => .number (.integer s.2)) (intDigitOrPunc neg)
        ((d :: ds).foldl (fun s d => addDigit s.1 s.2 d) (np, n)) rest :=
  readDigit_toDigit _ _ _ _ _ _ (r := np.radix) (by omega) (fun s d => addDigit_radix s.1 s.2 d)
    (fun _ _ _ _ _ => rfl) (fun s x rest hs hx => intPunct_toDigit neg s x rest (hs.trans_le hr) (hs ▸ hx))
    d ds (np, n) rest rfl hd

theorem numDigit_toDigit {np : NumberParse} (hr : np.radix ≤ 16) (n : ℤ) (d : ℕ) (ds : List ℕ)
    (rest : List Char) (hd : ∀ x ∈ d :: ds, x < np.radix) :
    numDigit (np, n) (toDigit d) (ds.map toDigit ++ rest) =
      nextDigit (fun _ => none) numDigitOrPunc ((d :: ds).foldl (fun s d => addDigit s.1 s.2 d) (np, n)) rest :=
  readDigit_toDigit _ _ _ _ _ _ (r := np.radix) (by omega) (fun s d => addDigit_radix s.1 s.2 d)
    (fun _ _ _ _ _ => rfl) (fun _ x _ _ hx => if_neg (toDigit_ne_punct x (by omega)).2.2.1) d ds (np, n) rest rfl hd

theorem denomDigit_toDigit {np : NumberParse} (hr : np.radix ≤ 16) (n : ℤ) (d : ℕ) (ds : List ℕ)
    (rest : List Char) (hd : ∀ x ∈ d :: ds, x < np.radix) :
    denomDigit (np, n) (toDigit d) (ds.map toDigit ++ rest) =
      nextDigit (fun s => some (.integer s.2)) denomDigitOrPunc
        ((d :: ds).foldl (fun s d => addDigit s.1 s.2 d) (np, n)) rest :=
  readDigit_toDigit _ _ _ _ _ _ (r := np.radix) (by omega) (fun s d => addDigit_radix s.1 s.2 d)
    (fun _ _ _ _ _ => rfl) (fun _ x _ _ hx => if_neg (toDigit_ne_punct x (by omega)).2.2.2.1) d ds (np, n) rest rfl hd

theorem intDigitOrPunc_slash (neg : Bool) (s : NumberParse × ℤ) (rest : List Char) :
    intDigitOrPunc neg s '/' rest = .ofOption (toDenominator s.1 s.2 rest) := by
  rw [intDigitOrPunc, digitOrPunc_eq, if_neg (by decide)]
  cases neg <;> simp [intPunct]

theorem intDigitOrPunc_sign (neg : Bool) (s : NumberParse × ℤ) (rest : List Char) :
    intDigitOrPunc neg s (if neg then '-' else '+') rest = .ofOption (toNumerator s.1 s.2 rest) := by
  cases neg <;> simp [intDigitOrPunc, digitOrPunc_eq, separatorP, intPunct]

theorem numDigitOrPunc_slash (s : NumberParse × ℤ) (rest : List Char) :
    numDigitOrPunc s '/' rest = toDenominator s.1 s.2 rest := by
  simp [numDigitOrPunc, digitOrPunc_eq, separatorP, numPunct]

theorem Number.positive_ofRat (x : ℚ) : (Number.ofRat x).positive = Number.ofRat x := by
  unfold Number.ofRat
  split <;> rfl

theorem Number.negate_ofRat (x : ℚ) : (Number.ofRat x).negate = Number.ofRat (-x) := by
  unfold Number.ofRat
  by_cases hx : x.den = 1
  · rw [if_pos hx, if_pos (by rwa [Rat.neg_den]), Rat.neg_num]
    rfl
  · rw [if_neg hx, if_neg (by rwa [Rat.neg_den])]
    rfl

theorem maybeMakeRatio_integer (m v : ℤ) (hv : v ≠ 0) :
    maybeMakeRatio m (some (.integer v)) = some (Number.ofRat (m / v)) := by
  simp [maybeMakeRatio, hv]

theorem maybeAddRatio_ofRat (m : ℤ) (x : ℚ) :
    maybeAddRatio m (some (Number.ofRat x)) = some (Number.ofRat (m + x)) := by
  unfold Number.ofRat
  by_cases hx : x.den = 1
  · -- an integer `x` keeps the sum an integer
    have hsum : (m : ℚ) + x = ((m + x.num : ℤ) : ℚ) := by
      rw [Int.cast_add, Rat.coe_int_num_of_den_eq_one hx]
    rw [if_pos hx, hsum, if_pos (Rat.den_intCast _), Rat.num_intCast]
    rfl
  · rw [if_neg hx]
    rfl

theorem toDenominator_toDigit {np : NumberParse} (hr : np.radix ≤ 16) (m : ℤ) (d : ℕ) (ds : List ℕ)
    (hd : ∀ x ∈ d :: ds, x < np.radix) (hv : Nat.ofDigits np.radix (d :: ds).reverse ≠ 0) :
    toDenominator np m ((d :: ds).map toDigit) =
      some (Number.ofRat (m / ((Nat.ofDigits np.radix (d :: ds).reverse : ℕ) : ℤ))) := by
  have hread := @denomDigit_toDigit np.split hr 0 d ds [] hd
  obtain ⟨-, hval⟩ := foldl_addDigit (d :: ds) np.split 0
  rw [List.map_cons, toDenominator, ← List.append_nil (ds.map toDigit)]
  rw [hread]
  simp only [nextDigit, hval, zero_mul, zero_add]
  exact maybeMakeRatio_integer m _ (by exact_mod_cast hv)

theorem toNumerator_toDigit {np : NumberParse} (hr : np.radix ≤ 16) (w : ℤ) (d : ℕ) (ds : List ℕ)
    (e : ℕ) (es : List ℕ) (hd : ∀ x ∈ d :: ds, x < np.radix) (he : ∀ x ∈ e :: es, x < np.radix)
    (hv : Nat.ofDigits np.radix (e :: es).reverse ≠ 0) :
    toNumerator np w ((d :: ds).map toDigit ++ '/' :: (e :: es).map toDigit) =
      some (Number.ofRat (w + ((Nat.ofDigits np.radix (d :: ds).reverse : ℕ) : ℤ) /
        ((Nat.ofDigits np.radix (e :: es).reverse : ℕ) : ℤ))) := by
  have hread := @numDigit_toDigit np.split hr 0 d ds ('/' :: (e :: es).map toDigit) hd
  obtain ⟨hrad, hval⟩ := foldl_addDigit (d :: ds) np.split 0
  rw [List.map_cons, List.cons_append, toNumerator]
  rw [hread, nextDigit, numDigitOrPunc_slash,
    toDenominator_toDigit (hrad.trans_le hr) _ e es (hrad ▸ he) (hrad ▸ hv), hval, hrad]
  simp only [zero_mul, zero_add]
  rw [maybeAddRatio_ofRat]
  push_cast
  rfl

theorem toDigit_eq_zero : ∀ x < 16, toDigit x = '0' → x = 0 := by decide

theorem intFirstDigitNoRadix_toDigit (neg : Bool) (np : NumberParse) (n : ℤ) {d : ℕ} (rest : List Char)
    (hd : d < 16) : intFirstDigitNoRadix neg np n (toDigit d) rest = intDigit neg (np, n) (toDigit d) rest :=
  if_neg (toDigit_ne_punct d hd).2.2.2.1

theorem intFirstDigit_toDigit (neg : Bool) (np : NumberParse) (n : ℤ) {d : ℕ} (rest : List Char)
    (hd : d < 16) (h0 : d ≠ 0) : intFirstDigit neg np n (toDigit d) rest = intDigit neg (np, n) (toDigit d) rest := by
  rw [intFirstDigit, if_neg (toDigit_ne_punct d hd).2.2.2.1, if_neg (fun h => h0 (toDigit_eq_zero d hd h))]

theorem firstChar_toDigit (F : Bool → NumberParse → ℤ → Char → List Char → ParseResult) (np : NumberParse)
    (n : ℤ) {d : ℕ} (rest : List Char) (hd : d < 16)
    (hF : F false np n (toDigit d) rest = intDigit false (np, n) (toDigit d) rest) :
    firstChar F np n (toDigit d) rest = (intDigit false (np, n) (toDigit d) rest).map Number.positive := by
  obtain ⟨hplus, hminus, -⟩ := toDigit_ne_punct d hd
  unfold firstChar
  rw [if_neg hminus, if_neg hplus, hF]

theorem firstChar_minus (F : Bool → NumberParse → ℤ → Char → List Char → ParseResult) (np : NumberParse)
    (n : ℤ) (c : Char) (rest : List Char) (hF : F true np n c rest = intDigit true (np, n) c rest) :
    firstChar F np n '-' (c :: rest) = (intDigit true (np, n) c rest).map Number.negate := by
  unfold firstChar
  rw [if_pos rfl]
  exact congrArg (ParseResult.map Number.negate) hF

end ReadDigits

end FactorProofs.Math
