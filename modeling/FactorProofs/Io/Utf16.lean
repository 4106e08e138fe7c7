import Mathlib.Data.List.Basic
import FactorProofs.Io.Utf8

namespace FactorProofs.Io.Utf16

open FactorProofs.Core

/-! `io.encodings.utf16`. The stream is the list of the bytes still to be read,
as for UTF-8. The little-endian decoder hands the `f` of the end of the stream
to `bitor` and `shift`, which raise; its words return `Except`. -/

/-- What the decoders can raise: `bitor` (a math generic) and `shift` on `f`,
and `missing-bom`. -/
inductive DecodeError
  | noMathMethod
  | noMethod
  | missingBom
  deriving DecidableEq, Repr

/-- `stream-read1`: `none` is the `f` at the end of the stream. -/
def read1 : List ℕ → Option ℕ × List ℕ
  | [] => (none, [])
  | b :: rest => (some b, rest)

/-- `append-nums`: the byte below the bits so far, or `replacement-char` on `f`. -/
def appendNums (byte : Option ℕ) (ch : ℕ) : ℕ :=
  match byte with
  | some b => b ||| (ch <<< 8)
  | none => replacementChar

def doubleBe (s : List ℕ) (byte : ℕ) : ℕ × List ℕ :=
  ((appendNums (read1 s).1 byte), (read1 s).2)

/-- `quad-be`: at the end of the stream `when*` skips the low surrogate and the
first code unit is the result. -/
def quadBe (s : List ℕ) (byte : ℕ) : ℕ × List ℕ :=
  let r := doubleBe s byte
  let s := (read1 r.2).2
  match (read1 r.2).1 with
  | none => (r.1, s)
  | some b3 =>
    if b3 >>> 2 = 0b110111 then
      (appendNums (read1 s).1 ((r.1 <<< 2) ||| (b3 &&& 0b11)) + 0x10000, (read1 s).2)
    else (replacementChar, (read1 s).2)

def ignore (s : List ℕ) : ℕ × List ℕ := (replacementChar, (read1 s).2)

def beginUtf16be (s : List ℕ) (byte : ℕ) : ℕ × List ℕ :=
  if byte >>> 3 = 0b11011 then
    if byte &&& 0b00000100 = 0 then quadBe s (byte &&& 0b11) else ignore s
  else doubleBe s byte

/-- `M: utf16be decode-char` -/
def decodeUtf16be : List ℕ → Option (ℕ × List ℕ)
  | [] => none
  | b :: s => some (beginUtf16be s b)

/-- `quad-le`: both bytes of the low surrogate are read without a test for `f`. -/
def quadLe (s : List ℕ) (ch : ℕ) : Except DecodeError (ℕ × List ℕ) :=
  match (read1 s).1 with
  | none => .error .noMathMethod
  | some b3 =>
    let ch := b3 ||| (ch <<< 10)
    let s := (read1 s).2
    match (read1 s).1 with
    | none => .error .noMethod
    | some b4 =>
      if b4 >>> 2 = 0b110111 then .ok (appendNums (some ch) (b4 &&& 0b11) + 0x10000, (read1 s).2)
      else .ok (replacementChar, (read1 s).2)

def doubleLe (s : List ℕ) (byte1 byte2 : ℕ) : Except DecodeError (ℕ × List ℕ) :=
  if byte2 >>> 3 = 0b11011 then
    if byte2 &&& 0b100 = 0 then quadLe s (byte1 ||| ((byte2 &&& 0b11) <<< 8))
    else .ok (replacementChar, s)
  else .ok (appendNums (some byte1) byte2, s)

def beginUtf16le (s : List ℕ) (byte : ℕ) : Except DecodeError (ℕ × List ℕ) :=
  match (read1 s).1 with
  | some b2 => doubleLe (read1 s).2 byte b2
  | none => .ok (replacementChar, (read1 s).2)

/-- `M: utf16le decode-char` -/
def decodeUtf16le : List ℕ → Except DecodeError (Option (ℕ × List ℕ))
  | [] => .ok none
  | b :: s => (beginUtf16le s b).map some

@[simp]
theorem read1_length (s : List ℕ) : (read1 s).2.length = s.length - 1 := by
  cases s <;> rfl

theorem beginUtf16be_length_le (s : List ℕ) (byte : ℕ) : (beginUtf16be s byte).2.length ≤ s.length := by
  unfold beginUtf16be quadBe doubleBe ignore
  dsimp only
  split_ifs
  · split
    · simp only [read1_length]
      omega
    · split_ifs <;>
      · simp only [read1_length]
        omega
  · simp
  · simp

theorem decodeUtf16be_length_lt {s rest : List ℕ} {c : ℕ} (h : decodeUtf16be s = some (c, rest)) :
    rest.length < s.length := by
  cases s with
  | nil => cases h
  | cons b s =>
    have hle := beginUtf16be_length_le s b
    simp only [decodeUtf16be, Option.some.injEq] at h
    rw [h] at hle
    exact Nat.lt_succ_of_le hle

theorem quadLe_length_le {s rest : List ℕ} {ch c : ℕ} (h : quadLe s ch = .ok (c, rest)) :
    rest.length ≤ s.length := by
  unfold quadLe at h
  split at h
  · cases h
  · dsimp only at h
    split at h
    · cases h
    · split_ifs at h <;>
      · simp only [Except.ok.injEq, Prod.mk.injEq] at h
        rw [← h.2, read1_length, read1_length]
        omega

theorem beginUtf16le_length_le {s rest : List ℕ} {byte c : ℕ}
    (h : beginUtf16le s byte = .ok (c, rest)) : rest.length ≤ s.length := by
  have hrest : ∀ t : List ℕ, t.length ≤ (read1 s).2.length → t.length ≤ s.length := fun t ht => by
    rw [read1_length] at ht
    omega
  unfold beginUtf16le doubleLe at h
  split at h
  · split_ifs at h
    · exact hrest _ (quadLe_length_le h)
    all_goals
      simp only [Except.ok.injEq, Prod.mk.injEq] at h
      exact hrest _ (le_of_eq (congrArg List.length h.2.symm))
  · simp only [Except.ok.injEq, Prod.mk.injEq] at h
    exact hrest _ (le_of_eq (congrArg List.length h.2.symm))

theorem decodeUtf16le_length_lt {s rest : List ℕ} {c : ℕ} (h : decodeUtf16le s = .ok (some (c, rest))) :
    rest.length < s.length := by
  cases s with
  | nil => cases h
  | cons b s =>
    simp only [decodeUtf16le] at h
    cases hb : beginUtf16le s b with
    | error e => rw [hb] at h; cases h
    | ok r =>
      rw [hb] at h
      simp only [Except.map, Except.ok.injEq, Option.some.injEq] at h
      subst h
      exact Nat.lt_succ_of_le (beginUtf16le_length_le hb)

/-- `decode-char` with `utf16be` until `f`. -/
def decodeAllUtf16be (s : List ℕ) : List ℕ :=
  match _h : decodeUtf16be s with
  | none => []
  | some (c, rest) => c :: decodeAllUtf16be rest
termination_by s.length
decreasing_by exact decodeUtf16be_length_lt _h

/-- `decode-char` with `utf16le` until `f`, or the first error. -/
def decodeAllUtf16le (s : List ℕ) : Except DecodeError (List ℕ) :=
  match _h : decodeUtf16le s with
  | .error e => .error e
  | .ok none => .ok []
  | .ok (some (c, rest)) => (decodeAllUtf16le rest).map (c :: ·)
termination_by s.length
decreasing_by exact decodeUtf16le_length_lt _h

def encodeFirst (c : ℕ) : ℕ × ℕ :=
  let c := c >>> 10
  ((c >>> 8) ||| 0b11011000, c &&& 0xFF)

def encodeSecond (c : ℕ) : ℕ × ℕ :=
  let c := c &&& 0b1111111111
  ((c >>> 8) ||| 0b11011100, c &&& 0b11111111)

/-- `split>b/b` -/
def splitBb (h : ℕ) : ℕ × ℕ := (h &&& 0xff, (h >>> 8) &&& 0xff)

def charToUtf16be (c : ℕ) : List ℕ :=
  if c > 0xFFFF then
    let c := c - 0x10000
    [(encodeFirst c).1, (encodeFirst c).2, (encodeSecond c).1, (encodeSecond c).2]
  else [(splitBb c).2, (splitBb c).1]

def charToUtf16le (c : ℕ) : List ℕ :=
  if c > 0xFFFF then
    let c := c - 0x10000
    [(encodeFirst c).2, (encodeFirst c).1, (encodeSecond c).2, (encodeSecond c).1]
  else [(splitBb c).1, (splitBb c).2]

/-- `M: object encode-string-utf16be` -/
def encodeStringUtf16be (str : List ℕ) : List ℕ := str.flatMap charToUtf16be

/-- `M: object encode-string-utf16le` -/
def encodeStringUtf16le (str : List ℕ) : List ℕ := str.flatMap charToUtf16le

/-- `ascii-string>utf16-byte-array`: a zeroed byte array of two bytes a
character, the character's byte stored at offset `off` of its pair. -/
def asciiStringToUtf16ByteArray (off : ℕ) (s : FactorString) : List ℕ :=
  (List.range s.length).foldl (fun arr i => arr.set (2 * i + off) (FactorString.stringNthFast i s))
    (List.replicate (2 * s.length) 0)

/-- `M: string encode-string-utf16le` -/
def encodeStringUtf16leString (s : FactorString) : List ℕ :=
  match s.aux with
  | some _ => encodeStringUtf16le s.chars
  | none => asciiStringToUtf16ByteArray 0 s

/-- `M: string encode-string-utf16be` -/
def encodeStringUtf16beString (s : FactorString) : List ℕ :=
  match s.aux with
  | some _ => encodeStringUtf16be s.chars
  | none => asciiStringToUtf16ByteArray 1 s

/-- `M: utf16 <decoder>`: the byte order mark chooses the decoder. -/
def decodeAllUtf16 (s : List ℕ) : Except DecodeError (List ℕ) :=
  match s with
  | 0xff :: 0xfe :: rest => decodeAllUtf16le rest
  | 0xfe :: 0xff :: rest => .ok (decodeAllUtf16be rest)
  | _ => .error .missingBom

/-- `M: utf16 <encoder>`: `bom-le`, then little-endian. -/
def encodeStringUtf16 (str : List ℕ) : List ℕ := [0xff, 0xfe] ++ encodeStringUtf16le str

/-- A Unicode scalar value: a code point that is no surrogate. -/
def IsScalarValue (c : ℕ) : Prop := c ≤ 0x10FFFF ∧ ¬ (0xD800 ≤ c ∧ c ≤ 0xDFFF)

instance : DecidablePred IsScalarValue := fun c => by
  unfold IsScalarValue
  infer_instance

section Units

theorem and_255 (b : ℕ) : b &&& 0xff = b % 256 := Nat.and_two_pow_sub_one_eq_mod b 8

theorem shiftLeft_or_of_lt {x k : ℕ} (m : ℕ) (hx : x < 2 ^ k) : (m <<< k) ||| x = m * 2 ^ k + x := by
  rw [Nat.lor_comm, or_shiftLeft_of_lt m hx]

theorem splitBb_eq {c : ℕ} (hc : c < 2 ^ 16) : splitBb c = (c % 256, c / 256) := by
  simp only [splitBb, and_255, Nat.shiftRight_eq_div_pow, Prod.mk.injEq, true_and]
  omega

theorem encodeFirst_eq {c : ℕ} (hc : c < 2 ^ 20) : encodeFirst c = (216 + c / 2 ^ 18, c / 1024 % 256) := by
  simp only [encodeFirst, and_255, Nat.shiftRight_eq_div_pow]
  conv_lhs => rw [show (0b11011000 : ℕ) = 54 <<< 2 from rfl, or_shiftLeft_of_lt (k := 2) 54 (by omega)]
  simp only [Prod.mk.injEq, and_true]
  omega

theorem encodeSecond_eq (c : ℕ) : encodeSecond c = (220 + c % 1024 / 256, c % 256) := by
  simp only [encodeSecond, and_255, Nat.shiftRight_eq_div_pow,
    show (0b1111111111 : ℕ) = 2 ^ 10 - 1 from rfl, Nat.and_two_pow_sub_one_eq_mod]
  conv_lhs => rw [show (0b11011100 : ℕ) = 55 <<< 2 from rfl, or_shiftLeft_of_lt (k := 2) 55 (by omega)]
  simp only [Prod.mk.injEq]
  omega

theorem highSurrogate_lead : ∀ x < 4, (216 + x) >>> 3 = 0b11011 ∧ (216 + x) &&& 0b100 = 0 ∧
    (216 + x) &&& 0b11 = x := by
  decide

theorem lowSurrogate_lead : ∀ y < 4, (220 + y) >>> 2 = 0b110111 ∧ (220 + y) &&& 0b11 = y := by
  decide

theorem surrogatePair_value {c : ℕ} (hc : c < 2 ^ 20) :
    c % 256 ||| ((((c / 1024 % 256 ||| ((c / 2 ^ 18) <<< 8)) <<< 2) ||| (c % 1024 / 256)) <<< 8) = c := by
  rw [or_shiftLeft_of_lt (x := c / 1024 % 256) (k := 8) _ (by omega),
    shiftLeft_or_of_lt (x := c % 1024 / 256) (k := 2) _ (by omega),
    or_shiftLeft_of_lt (x := c % 256) (k := 8) _ (by omega)]
  omega

end Units

theorem decodeUtf16be_charToUtf16be {c : ℕ} (hc : IsScalarValue c) (rest : List ℕ) :
    decodeUtf16be (charToUtf16be c ++ rest) = some (c, rest) := by
  obtain ⟨hmax, hsur⟩ := hc
  unfold charToUtf16be
  split_ifs with hbig
  · -- a surrogate pair
    dsimp only
    rw [encodeFirst_eq (by omega), encodeSecond_eq]
    obtain ⟨hl1, hl2, hl3⟩ := highSurrogate_lead ((c - 0x10000) / 2 ^ 18) (by omega)
    obtain ⟨hm1, hm2⟩ := lowSurrogate_lead ((c - 0x10000) % 1024 / 256) (by omega)
    simp only [List.cons_append, List.nil_append, decodeUtf16be, beginUtf16be]
    rw [if_pos hl1, if_pos hl2, hl3]
    simp only [quadBe, doubleBe, read1, appendNums]
    rw [if_pos hm1, hm2, surrogatePair_value (c := c - 0x10000) (by omega)]
    congr 2
    omega
  · -- one code unit, high byte first
    rw [splitBb_eq (by omega)]
    simp only [List.cons_append, List.nil_append, decodeUtf16be, beginUtf16be, Nat.shiftRight_eq_div_pow]
    rw [if_neg (by omega)]
    simp only [doubleBe, read1, appendNums]
    rw [or_shiftLeft_of_lt (k := 8) _ (by omega)]
    congr 2
    omega

theorem decodeUtf16le_charToUtf16le {c : ℕ} (hc : IsScalarValue c) (rest : List ℕ) :
    decodeUtf16le (charToUtf16le c ++ rest) = .ok (some (c, rest)) := by
  obtain ⟨hmax, hsur⟩ := hc
  unfold charToUtf16le
  split_ifs with hbig
  · -- a surrogate pair, each code unit low byte first
    dsimp only
    rw [encodeFirst_eq (by omega), encodeSecond_eq]
    obtain ⟨hl1, hl2, hl3⟩ := highSurrogate_lead ((c - 0x10000) / 2 ^ 18) (by omega)
    obtain ⟨hm1, hm2⟩ := lowSurrogate_lead ((c - 0x10000) % 1024 / 256) (by omega)
    simp only [List.cons_append, List.nil_append, decodeUtf16le, beginUtf16le, read1, doubleLe]
    rw [if_pos hl1, if_pos hl2, hl3]
    simp only [quadLe, read1, appendNums]
    rw [if_pos hm1, hm2, Nat.or_assoc, show (10 : ℕ) = 2 + 8 from rfl, Nat.shiftLeft_add,
      ← Nat.shiftLeft_or_distrib, surrogatePair_value (c := c - 0x10000) (by omega)]
    simp only [Except.map]
    congr 3
    omega
  · rw [splitBb_eq (by omega)]
    simp only [List.cons_append, List.nil_append, decodeUtf16le, beginUtf16le, read1, doubleLe,
      Nat.shiftRight_eq_div_pow]
    rw [if_neg (by omega)]
    simp only [appendNums, Except.map]
    rw [or_shiftLeft_of_lt (k := 8) _ (by omega)]
    congr 3
    omega

theorem decodeAllUtf16be_nil : decodeAllUtf16be [] = [] := by
  rw [decodeAllUtf16be]
  rfl

theorem decodeAllUtf16be_of_decode {s rest : List ℕ} {c : ℕ} (h : decodeUtf16be s = some (c, rest)) :
    decodeAllUtf16be s = c :: decodeAllUtf16be rest := by
  rw [decodeAllUtf16be]
  split
  · simp_all
  · simp_all

theorem decodeAllUtf16le_nil : decodeAllUtf16le [] = .ok [] := by
  rw [decodeAllUtf16le]
  rfl

theorem decodeAllUtf16le_of_decode {s rest : List ℕ} {c : ℕ} (h : decodeUtf16le s = .ok (some (c, rest))) :
    decodeAllUtf16le s = (decodeAllUtf16le rest).map (c :: ·) := by
  rw [decodeAllUtf16le]
  split
  · simp_all
  · simp_all
  · simp_all

theorem decodeAllUtf16be_encodeStringUtf16be (str : List ℕ) (hstr : ∀ c ∈ str, IsScalarValue c) :
    decodeAllUtf16be (encodeStringUtf16be str) = str := by
  induction str with
  | nil => exact decodeAllUtf16be_nil
  | cons c cs ih =>
    have hcs : ∀ d ∈ cs, IsScalarValue d := fun d hd => hstr d (List.mem_cons_of_mem c hd)
    rw [encodeStringUtf16be, List.flatMap_cons,
      decodeAllUtf16be_of_decode (decodeUtf16be_charToUtf16be (hstr c List.mem_cons_self) _)]
    exact congrArg (c :: ·) (ih hcs)

theorem decodeAllUtf16le_encodeStringUtf16le (str : List ℕ) (hstr : ∀ c ∈ str, IsScalarValue c) :
    decodeAllUtf16le (encodeStringUtf16le str) = .ok str := by
  induction str with
  | nil => exact decodeAllUtf16le_nil
  | cons c cs ih =>
    have hcs : ∀ d ∈ cs, IsScalarValue d := fun d hd => hstr d (List.mem_cons_of_mem c hd)
    rw [encodeStringUtf16le, List.flatMap_cons,
      decodeAllUtf16le_of_decode (decodeUtf16le_charToUtf16le (hstr c List.mem_cons_self) _)]
    rw [encodeStringUtf16le] at ih
    rw [ih hcs]
    rfl

theorem decodeAllUtf16_encodeStringUtf16 (str : List ℕ) (hstr : ∀ c ∈ str, IsScalarValue c) :
    decodeAllUtf16 (encodeStringUtf16 str) = .ok str := by
  rw [encodeStringUtf16, List.cons_append, List.cons_append, List.nil_append, decodeAllUtf16]
  exact decodeAllUtf16le_encodeStringUtf16le str hstr

/-- Decoding what each UTF-16 encoder wrote gives the scalar values back:
big-endian, little-endian, and `utf16`, whose byte order mark picks the
little-endian decoder. -/
theorem utf16_round_trips (str : List ℕ) (hstr : ∀ c ∈ str, IsScalarValue c) :
    decodeAllUtf16be (encodeStringUtf16be str) = str ∧ decodeAllUtf16le (encodeStringUtf16le str) = .ok str ∧
      decodeAllUtf16 (encodeStringUtf16 str) = .ok str :=
  ⟨decodeAllUtf16be_encodeStringUtf16be str hstr, decodeAllUtf16le_encodeStringUtf16le str hstr,
    decodeAllUtf16_encodeStringUtf16 str hstr⟩

theorem utf16_round_trips_three :
    (∀ c ∈ [0x68, 0x20AC, 0x1F600], IsScalarValue c) ∧
      decodeAllUtf16be (encodeStringUtf16be [0x68, 0x20AC, 0x1F600]) = [0x68, 0x20AC, 0x1F600] ∧
      decodeAllUtf16le (encodeStringUtf16le [0x68, 0x20AC, 0x1F600]) = .ok [0x68, 0x20AC, 0x1F600] ∧
      decodeAllUtf16 (encodeStringUtf16 [0x68, 0x20AC, 0x1F600]) = .ok [0x68, 0x20AC, 0x1F600] :=
  ⟨by decide, utf16_round_trips _ (by decide)⟩

theorem foldl_set_pairs (f : ℕ → ℕ) {off : ℕ} (hoff : off < 2) {n : ℕ} :
    ∀ k ≤ n, (List.range k).foldl (fun arr i => arr.set (2 * i + off) (f i)) (List.replicate (2 * n) 0) =
      (List.range k).flatMap (fun i => if off = 0 then [f i, 0] else [0, f i]) ++
        List.replicate (2 * (n - k)) 0 := by
  intro k
  induction k with
  | zero => intro _; simp
  | succ k ih =>
    intro hk
    have hlen : ((List.range k).flatMap (fun i => if off = 0 then [f i, 0] else [0, f i])).length = 2 * k := by
      rw [List.length_flatMap]
      have : ∀ i, (if off = 0 then [f i, 0] else [0, f i]).length = 2 := fun i => by split <;> rfl
      simp only [this, List.map_const', List.length_range, List.sum_replicate_nat, Nat.mul_comm]
    have hzeros : List.replicate (2 * (n - k)) 0 = 0 :: 0 :: List.replicate (2 * (n - (k + 1))) 0 := by
      rw [show 2 * (n - k) = 2 * (n - (k + 1)) + 1 + 1 by omega]
      rfl
    rw [List.range_succ, List.foldl_append, ih (by omega), List.foldl_cons, List.foldl_nil,
      List.set_append_right _ _ (by omega), hlen, List.flatMap_append, List.flatMap_singleton,
      List.append_assoc, hzeros]
    congr 1
    obtain rfl | rfl : off = 0 ∨ off = 1 := by omega
    · simp
    · simp

theorem charToUtf16le_of_ascii {c : ℕ} (hc : c ≤ 0x7f) : charToUtf16le c = [c, 0] := by
  rw [charToUtf16le, if_neg (by omega), splitBb_eq (by omega)]
  simp only [List.cons.injEq, and_true]
  omega

theorem charToUtf16be_of_ascii {c : ℕ} (hc : c ≤ 0x7f) : charToUtf16be c = [0, c] := by
  rw [charToUtf16be, if_neg (by omega), splitBb_eq (by omega)]
  simp only [List.cons.injEq, and_true]
  omega

open FactorString in
theorem encodeStringUtf16String_eq {s : FactorString} (hs : s.Valid) :
    encodeStringUtf16leString s = encodeStringUtf16le s.chars ∧
      encodeStringUtf16beString s = encodeStringUtf16be s.chars := by
  unfold encodeStringUtf16leString encodeStringUtf16beString
  split
  · exact ⟨rfl, rfl⟩
  · rename_i ha
    have hsmall := fun i (hi : i ∈ List.range s.length) =>
      stringNthFast_le_of_no_aux hs ha (List.mem_range.mp hi)
    rw [chars_of_no_aux hs ha, encodeStringUtf16le, encodeStringUtf16be, List.flatMap_map,
      List.flatMap_map, asciiStringToUtf16ByteArray, asciiStringToUtf16ByteArray,
      foldl_set_pairs _ (by decide) _ le_rfl, foldl_set_pairs _ (by decide) _ le_rfl]
    simp only [Nat.sub_self, Nat.mul_zero, List.replicate_zero, List.append_nil]
    constructor
    · exact List.flatMap_congr fun i hi => by rw [charToUtf16le_of_ascii (hsmall i hi)]; rfl
    · exact List.flatMap_congr fun i hi => by rw [charToUtf16be_of_ascii (hsmall i hi)]; rfl

/-- The decoders on input they were not written for: `utf16le` raises on a high
surrogate at the end of the stream, and `utf16be` returns a value whose
encoding is not the bytes it read, with or without the offset of a pair. -/
theorem utf16_decoders_leave_spec :
    decodeUtf16le [0x34, 0xD8] = .error .noMathMethod ∧
      decodeUtf16be [0xD8, 0x34] = some (0x34, []) ∧ charToUtf16be 0x34 = [0x00, 0x34] ∧
      decodeUtf16be [0xD8, 0x00, 0xDC] = some (0x1FFFD, []) ∧
      charToUtf16be 0x1FFFD = [0xD8, 0x3F, 0xDF, 0xFD] := by
  decide

open FactorString in
/-- On every string that keeps the VM's string invariant, the fast paths of
the UTF-8 and UTF-16 encoders, taken when the string has no `aux`, write what
the character loops write. -/
theorem encodeString_fast_paths {s : FactorString} (hs : s.Valid) :
    encodeStringUtf8String s = encodeStringUtf8 s.chars ∧ encodeStringUtf16leString s = encodeStringUtf16le s.chars ∧
      encodeStringUtf16beString s = encodeStringUtf16be s.chars :=
  ⟨encodeStringUtf8String_eq hs, (encodeStringUtf16String_eq hs).1, (encodeStringUtf16String_eq hs).2⟩

theorem encodeString_fast_paths_ascii :
    (⟨[0x68, 0x69], none⟩ : FactorString).Valid ∧
      encodeStringUtf8String ⟨[0x68, 0x69], none⟩ = encodeStringUtf8 (FactorString.chars ⟨[0x68, 0x69], none⟩) ∧
      encodeStringUtf16leString ⟨[0x68, 0x69], none⟩ = encodeStringUtf16le (FactorString.chars ⟨[0x68, 0x69], none⟩) ∧
      encodeStringUtf16beString ⟨[0x68, 0x69], none⟩ = encodeStringUtf16be (FactorString.chars ⟨[0x68, 0x69], none⟩) :=
  have hs : (⟨[0x68, 0x69], none⟩ : FactorString).Valid :=
    ⟨fun _ b hb => by simp at hb; omega, fun a ha => by cases ha⟩
  ⟨hs, encodeString_fast_paths hs⟩

end FactorProofs.Io.Utf16
