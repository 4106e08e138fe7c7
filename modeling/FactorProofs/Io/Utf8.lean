import Mathlib.Data.Nat.Bitwise
import Mathlib.Tactic.Linarith
import FactorProofs.Core.Strings

namespace FactorProofs.Io

/-! `io.encodings.utf8`. A byte stream is the list of the bytes still to be
read: `stream-read1` takes its head, and gives `f` on the empty list. The
decoder's words return the character and the stream after it. -/

/-- `replacement-char` -/
def replacementChar : ℕ := 0xFFFD

/-- `append-nums`: six more bits from a continuation byte; any other byte, or
the end of the stream, gives `replacement-char`, and the byte is consumed. -/
def appendNums (acc : ℕ) : List ℕ → ℕ × List ℕ
  | [] => (replacementChar, [])
  | b :: rest => (if b >>> 6 = 0b10 then (acc <<< 6) ||| (b &&& 0b111111) else replacementChar, rest)

/-- `minimum-code-point` -/
def minimumCodePoint (c minimum : ℕ) : ℕ := if minimum > c then replacementChar else c

/-- `maximum-code-point` -/
def maximumCodePoint (c maximum : ℕ) : ℕ := if maximum < c then replacementChar else c

def double (s : List ℕ) (byte : ℕ) : ℕ × List ℕ :=
  let r := appendNums (byte &&& 0b11111) s
  (minimumCodePoint r.1 0x80, r.2)

def triple (s : List ℕ) (byte : ℕ) : ℕ × List ℕ :=
  let r := appendNums (byte &&& 0b1111) s
  let r := appendNums r.1 r.2
  (minimumCodePoint r.1 0x800, r.2)

def quadruple (s : List ℕ) (byte : ℕ) : ℕ × List ℕ :=
  let r := appendNums (byte &&& 0b111) s
  let r := appendNums r.1 r.2
  let r := appendNums r.1 r.2
  (maximumCodePoint (minimumCodePoint r.1 0x10000) 0x10FFFF, r.2)

/-- `begin-utf8`: the lead byte chooses the length. -/
def beginUtf8 (s : List ℕ) (byte : ℕ) : ℕ × List ℕ :=
  if byte > 127 then
    if byte >>> 5 = 0b110 then double s byte
    else if byte >>> 4 = 0b1110 then triple s byte
    else if byte >>> 3 = 0b11110 then quadruple s byte
    else (replacementChar, s)
  else (byte, s)

/-- `decode-utf8`: `none` is the `f` at the end of the stream. -/
def decodeUtf8 : List ℕ → Option (ℕ × List ℕ)
  | [] => none
  | b :: s => some (beginUtf8 s b)

theorem appendNums_length_le (acc : ℕ) (s : List ℕ) : (appendNums acc s).2.length ≤ s.length := by
  cases s with
  | nil => exact le_refl _
  | cons b rest => exact Nat.le_succ _

theorem beginUtf8_length_le (s : List ℕ) (byte : ℕ) : (beginUtf8 s byte).2.length ≤ s.length := by
  have h1 := appendNums_length_le
  unfold beginUtf8 double triple quadruple
  split_ifs
  · exact h1 _ s
  · exact (h1 _ _).trans (h1 _ s)
  · exact ((h1 _ _).trans (h1 _ _)).trans (h1 _ s)
  · exact le_refl _
  · exact le_refl _

theorem decodeUtf8_length_lt {s rest : List ℕ} {c : ℕ} (h : decodeUtf8 s = some (c, rest)) :
    rest.length < s.length := by
  cases s with
  | nil => cases h
  | cons b s =>
    have hle := beginUtf8_length_le s b
    simp only [decodeUtf8, Option.some.injEq] at h
    rw [h] at hle
    exact Nat.lt_succ_of_le hle

/-- `decode-char` until `f`: the characters of a whole stream. -/
def decodeAll (s : List ℕ) : List ℕ :=
  match _h : decodeUtf8 s with
  | none => []
  | some (c, rest) => c :: decodeAll rest
termination_by s.length
decreasing_by exact decodeUtf8_length_lt _h

/-- `encoded`: a continuation byte holding the low six bits. -/
def encoded (c : ℕ) : ℕ := (c &&& 0b111111) ||| 0b10000000

/-- `char>utf8`: the bytes written for one character. -/
def charToUtf8 (c : ℕ) : List ℕ :=
  if c ≤ 127 then [c]
  else if c >>> 11 = 0 then [(c >>> 6) ||| 0b11000000, encoded c]
  else if c >>> 16 = 0 then [(c >>> 12) ||| 0b11100000, encoded (c >>> 6), encoded c]
  else [(c >>> 18) ||| 0b11110000, encoded (c >>> 12), encoded (c >>> 6), encoded c]

/-- `M: object encode-string-utf8` -/
def encodeStringUtf8 (str : List ℕ) : List ℕ := str.flatMap charToUtf8

open FactorProofs.Core in
/-- `string>byte-array-fast`: the bytes of a string that has no `aux`. -/
def stringToByteArrayFast (s : FactorString) : List ℕ :=
  (List.range s.length).map (FactorString.stringNthFast · s)

open FactorProofs.Core in
/-- `M: string encode-string-utf8`: a string with an `aux` goes through the
character loop of the `object` method, one without is written byte for byte. -/
def encodeStringUtf8String (s : FactorString) : List ℕ :=
  match s.aux with
  | some _ => encodeStringUtf8 s.chars
  | none => stringToByteArrayFast s

/-- `code-point-length`; `none` is the `no-cond` error past 21 bits. -/
def codePointLength (n : ℕ) : Option ℕ :=
  if n = 0 then some 1
  else
    let l := n.log2
    if l ≤ 6 then some 1
    else if 7 ≤ l ∧ l ≤ 10 then some 2
    else if 11 ≤ l ∧ l ≤ 15 then some 3
    else if 16 ≤ l ∧ l ≤ 20 then some 4
    else none

section Fields

theorem or_shiftLeft_of_lt {x k : ℕ} (m : ℕ) (hx : x < 2 ^ k) : x ||| (m <<< k) = m * 2 ^ k + x := by
  rw [Nat.lor_comm, ← Nat.shiftLeft_add_eq_or_of_lt hx, Nat.shiftLeft_eq]

theorem and_63 (b : ℕ) : b &&& 0b111111 = b % 64 := Nat.and_two_pow_sub_one_eq_mod b 6

theorem and_31 (b : ℕ) : b &&& 0b11111 = b % 32 := Nat.and_two_pow_sub_one_eq_mod b 5

theorem and_15 (b : ℕ) : b &&& 0b1111 = b % 16 := Nat.and_two_pow_sub_one_eq_mod b 4

theorem and_7 (b : ℕ) : b &&& 0b111 = b % 8 := Nat.and_two_pow_sub_one_eq_mod b 3

theorem shiftLeft_or_and_63 (acc b : ℕ) : (acc <<< 6) ||| (b &&& 0b111111) = acc * 64 + b % 64 := by
  rw [and_63, Nat.lor_comm, or_shiftLeft_of_lt (x := b % 64) (k := 6) acc (by omega)]
  rfl

theorem encoded_eq (c : ℕ) : encoded c = c % 64 + 128 := by
  rw [encoded, and_63, show (0b10000000 : ℕ) = 2 <<< 6 from rfl,
    or_shiftLeft_of_lt (x := c % 64) (k := 6) 2 (by omega)]
  omega

end Fields

theorem appendNums_encoded (acc c : ℕ) (rest : List ℕ) :
    appendNums acc (encoded c :: rest) = (acc * 64 + c % 64, rest) := by
  rw [appendNums, encoded_eq, if_pos (by rw [Nat.shiftRight_eq_div_pow]; omega), shiftLeft_or_and_63]
  congr 1
  omega

theorem minimumCodePoint_of_le {c minimum : ℕ} (h : minimum ≤ c) : minimumCodePoint c minimum = c :=
  if_neg (Nat.not_lt.mpr h)

theorem maximumCodePoint_of_le {c maximum : ℕ} (h : c ≤ maximum) : maximumCodePoint c maximum = c :=
  if_neg (Nat.not_lt.mpr h)

theorem beginUtf8_lead2 {x : ℕ} (hx : x < 2 ^ 5) (s : List ℕ) :
    beginUtf8 s (6 * 2 ^ 5 + x) = double s (6 * 2 ^ 5 + x) := by
  rw [beginUtf8, Nat.shiftRight_eq_div_pow, if_pos (by omega), if_pos (by omega)]

theorem beginUtf8_lead3 {x : ℕ} (hx : x < 2 ^ 4) (s : List ℕ) :
    beginUtf8 s (14 * 2 ^ 4 + x) = triple s (14 * 2 ^ 4 + x) := by
  simp only [beginUtf8, Nat.shiftRight_eq_div_pow]
  rw [if_pos (by omega), if_neg (by omega), if_pos (by omega)]

theorem beginUtf8_lead4 {x : ℕ} (hx : x < 2 ^ 3) (s : List ℕ) :
    beginUtf8 s (30 * 2 ^ 3 + x) = quadruple s (30 * 2 ^ 3 + x) := by
  simp only [beginUtf8, Nat.shiftRight_eq_div_pow]
  rw [if_pos (by omega), if_neg (by omega), if_neg (by omega), if_pos (by omega)]

theorem decodeUtf8_charToUtf8 {c : ℕ} (hc : c ≤ 0x10FFFF) (rest : List ℕ) :
    decodeUtf8 (charToUtf8 c ++ rest) = some (c, rest) := by
  unfold charToUtf8
  simp only [Nat.shiftRight_eq_div_pow]
  split_ifs with h1 h2 h3
  · simp [decodeUtf8, beginUtf8, show ¬ c > 127 by omega]
  · -- two bytes: five bits in the lead byte, six in the continuation byte
    rw [show (0b11000000 : ℕ) = 6 <<< 5 from rfl, or_shiftLeft_of_lt (k := 5) 6 (by omega)]
    simp only [List.cons_append, List.nil_append, decodeUtf8]
    rw [beginUtf8_lead2 (x := c / 2 ^ 6) (by omega)]
    simp only [double, and_31, appendNums_encoded]
    have hv : (6 * 2 ^ 5 + c / 2 ^ 6) % 32 * 64 + c % 64 = c := by omega
    rw [hv, minimumCodePoint_of_le (by omega)]
  · -- three bytes
    rw [show (0b11100000 : ℕ) = 14 <<< 4 from rfl, or_shiftLeft_of_lt (k := 4) 14 (by omega)]
    simp only [List.cons_append, List.nil_append, decodeUtf8]
    rw [beginUtf8_lead3 (x := c / 2 ^ 12) (by omega)]
    simp only [triple, and_15, appendNums_encoded]
    have hv : ((14 * 2 ^ 4 + c / 2 ^ 12) % 16 * 64 + c / 2 ^ 6 % 64) * 64 + c % 64 = c := by omega
    rw [hv, minimumCodePoint_of_le (by omega)]
  · -- four bytes; the bound on the code point is what keeps the lead byte's bits below eight
    rw [show (0b11110000 : ℕ) = 30 <<< 3 from rfl, or_shiftLeft_of_lt (k := 3) 30 (by omega)]
    simp only [List.cons_append, List.nil_append, decodeUtf8]
    rw [beginUtf8_lead4 (x := c / 2 ^ 18) (by omega)]
    simp only [quadruple, and_7, appendNums_encoded]
    have hv : (((30 * 2 ^ 3 + c / 2 ^ 18) % 8 * 64 + c / 2 ^ 12 % 64) * 64 + c / 2 ^ 6 % 64) * 64 +
        c % 64 = c := by omega
    rw [hv, minimumCodePoint_of_le (by omega), maximumCodePoint_of_le hc]

theorem decodeAll_nil : decodeAll [] = [] := by
  rw [decodeAll]
  rfl

theorem decodeAll_of_decodeUtf8 {s rest : List ℕ} {c : ℕ} (h : decodeUtf8 s = some (c, rest)) :
    decodeAll s = c :: decodeAll rest := by
  rw [decodeAll]
  split
  · simp_all
  · simp_all

/-- Decoding what `encode-string-utf8` wrote gives the code points back. -/
theorem decodeAll_encodeStringUtf8 (str : List ℕ) (hstr : ∀ c ∈ str, c ≤ 0x10FFFF) :
    decodeAll (encodeStringUtf8 str) = str := by
  induction str with
  | nil => exact decodeAll_nil
  | cons c cs ih =>
    have hc := hstr c List.mem_cons_self
    have hcs : ∀ d ∈ cs, d ≤ 0x10FFFF := fun d hd => hstr d (List.mem_cons_of_mem c hd)
    rw [encodeStringUtf8, List.flatMap_cons, decodeAll_of_decodeUtf8 (decodeUtf8_charToUtf8 hc _)]
    exact congrArg (c :: ·) (ih hcs)

theorem decodeAll_encodeStringUtf8_three :
    (∀ c ∈ [0x68, 0x20AC, 0x1F600], c ≤ 0x10FFFF) ∧
      decodeAll (encodeStringUtf8 [0x68, 0x20AC, 0x1F600]) = [0x68, 0x20AC, 0x1F600] :=
  ⟨by decide, decodeAll_encodeStringUtf8 _ (by decide)⟩

theorem codePointLength_charToUtf8 {c : ℕ} (hc : c ≤ 0x10FFFF) :
    codePointLength c = some (charToUtf8 c).length := by
  rcases Nat.eq_zero_or_pos c with rfl | hpos
  · rfl
  have hne : c ≠ 0 := Nat.pos_iff_ne_zero.mp hpos
  have hlt : ∀ k, c.log2 < k ↔ c < 2 ^ k := fun k => Nat.log2_lt hne
  have hle : ∀ k, k ≤ c.log2 ↔ 2 ^ k ≤ c := fun k => Nat.le_log2 hne
  simp only [codePointLength, charToUtf8, Nat.shiftRight_eq_div_pow, if_neg hne]
  by_cases h1 : c ≤ 127
  · have hl : c.log2 ≤ 6 := Nat.lt_succ_iff.mp ((hlt 7).2 (by omega))
    rw [if_pos hl, if_pos h1]
    rfl
  have h7 : 7 ≤ c.log2 := (hle 7).2 (by omega)
  rw [if_neg h1, if_neg (show ¬ c.log2 ≤ 6 by omega)]
  by_cases h2 : c < 2 ^ 11
  · have hl : c.log2 ≤ 10 := Nat.lt_succ_iff.mp ((hlt 11).2 h2)
    rw [if_pos ⟨h7, hl⟩, if_pos (show c / 2 ^ 11 = 0 by omega)]
    rfl
  have h11 : 11 ≤ c.log2 := (hle 11).2 (by omega)
  rw [if_neg (show ¬ (7 ≤ c.log2 ∧ c.log2 ≤ 10) by omega), if_neg (show ¬ c / 2 ^ 11 = 0 by omega)]
  by_cases h3 : c < 2 ^ 16
  · have hl : c.log2 ≤ 15 := Nat.lt_succ_iff.mp ((hlt 16).2 h3)
    rw [if_pos ⟨h11, hl⟩, if_pos (show c / 2 ^ 16 = 0 by omega)]
    rfl
  · have h16 : 16 ≤ c.log2 := (hle 16).2 (by omega)
    have hl : c.log2 ≤ 20 := Nat.lt_succ_iff.mp ((hlt 21).2 (by omega))
    rw [if_neg (show ¬ (11 ≤ c.log2 ∧ c.log2 ≤ 15) by omega), if_pos ⟨h16, hl⟩,
      if_neg (show ¬ c / 2 ^ 16 = 0 by omega)]
    rfl

theorem encodeStringUtf8_of_ascii {str : List ℕ} (h : ∀ c ∈ str, c ≤ 127) :
    encodeStringUtf8 str = str := by
  induction str with
  | nil => rfl
  | cons c cs ih =>
    rw [encodeStringUtf8, List.flatMap_cons, charToUtf8, if_pos (h c List.mem_cons_self)]
    exact congrArg (c :: ·) (ih fun d hd => h d (List.mem_cons_of_mem c hd))

open FactorProofs.Core FactorString in
theorem encodeStringUtf8String_eq {s : FactorString} (hs : s.Valid) :
    encodeStringUtf8String s = encodeStringUtf8 s.chars := by
  unfold encodeStringUtf8String
  split
  · rfl
  · rename_i ha
    rw [chars_of_no_aux hs ha, encodeStringUtf8_of_ascii]
    · rfl
    intro c hc
    obtain ⟨i, hi, rfl⟩ := List.mem_map.mp hc
    exact stringNthFast_le_of_no_aux hs ha (List.mem_range.mp hi)

/-- A lead byte of three, a byte that is no continuation byte, then one that is:
the first `append-nums` gives `replacement-char` and the second shifts it in,
and `triple` checks only the lower bound. -/
theorem decodeUtf8_overlong_replacement :
    decodeUtf8 [0xE0, 0x41, 0x80] = some (0x3FFF40, []) ∧ 0x10FFFF < 0x3FFF40 := by
  decide

end FactorProofs.Io
