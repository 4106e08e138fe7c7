import Mathlib.Data.Nat.Bitwise
import FactorProofs.Codecs.Base24

namespace FactorProofs.Codecs.Base64

open FactorProofs.Codecs (alphabetInverse)
open FactorProofs.Groups

/-! `base64`. A stream is the list of the bytes still to be read:
`stream-read1` takes its head, `f` (here `none`) on the empty list, and the
stream is then the rest. The encoder and the decoder are the loops of
`(encode-base64)` and `(decode-base64)` over such a stream; `>base64` and
`base64>` run them on a byte sequence, and `ensure-encode-length` only sizes
the output buffer. -/

/-- `alphabet` -/
def alphabet : List ℕ :=
  "ABCDEFGHIJKLMNOPQRSTUVWXYZabcdefghijklmnopqrstuvwxyz0123456789+/".toList.map Char.toNat

/-- `ch>base64` -/
def chToBase64 (ch : ℕ) : ℕ := alphabet.getD ch 0

/-- `base64>ch`: the inverse table with `=` set to the digit 0; `none` is
`malformed-base64`, or a character past the end of the table. -/
def base64ToCh (ch : ℕ) : Option ℕ := ((alphabetInverse alphabet).set 61 (some 0)).getD ch none

/-- `bits` (of `math.bitwise`): the low `n` bits of `m`. -/
def bits (m n : ℕ) : ℕ := m &&& (2 ^ n - 1)

/-- `encode3`: three bytes as four six-bit digits; a negative `shift` is a
shift right. -/
def encode3 (x y z : ℕ) : List ℕ :=
  [chToBase64 (x >>> 2),
    chToBase64 ((bits x 2 <<< 4) ||| (y >>> 4)),
    chToBase64 ((bits y 4 <<< 2) ||| (z >>> 6)),
    chToBase64 (bits z 6)]

/-- The `case` of `(encode-base64)` on the number of missing bytes: one turns
the last character into `=`, two the last two. The count is at most two. -/
def padGroup (data : List ℕ) : ℕ → List ℕ
  | 0 => data
  | 1 => data.take 3 ++ [61]
  | _ => data.take 2 ++ [61, 61]

/-- One round of `(encode-base64)` after it read `x`: `y` and `z` are the next
two reads, `f` past the end, which `0 or` encodes as zero and `0 1 ?` counts. -/
def encodeGroup (x : ℕ) (y z : Option ℕ) : List ℕ :=
  padGroup (encode3 x (y.getD 0) (z.getD 0)) ((if y.isSome then 0 else 1) + (if z.isSome then 0 else 1))

/-- The `each` of `(stream-wrap-lines)`: the data one character at a time, and
`\r\n` after the 76th character of a line. Returns the column and what is
written. -/
def wrapEach : ℕ → List ℕ → ℕ × List ℕ
  | column, [] => (column, [])
  | column, ch :: data =>
    if column + 1 = 76 then
      let r := wrapEach 0 data
      (r.1, ch :: 13 :: 10 :: r.2)
    else
      let r := wrapEach (column + 1) data
      (r.1, ch :: r.2)

/-- `stream-wrap-lines`: with the column `f` the data is written as it is;
past column 71 it goes through `wrapEach`; else it is written at once and the
column moves on by four. Returns the column and what is written. -/
def streamWrapLines (column : Option ℕ) (data : List ℕ) : Option ℕ × List ℕ :=
  match column with
  | none => (none, data)
  | some column =>
    if 71 < column then
      let r := wrapEach column data
      (some r.1, r.2)
    else (some (column + 4), data)

/-- `(encode-base64)`: what is written for the input still to be read, from
the column `f` (no line breaks) or from a column of the current line. -/
def encodeBase64 (column : Option ℕ) : List ℕ → List ℕ
  | [] => []
  | x :: input =>
    let r := streamWrapLines column (encodeGroup x input[0]? input[1]?)
    r.2 ++ encodeBase64 r.1 (input.drop 2)
termination_by input => input.length

/-- `>base64` -/
def toBase64 (seq : List ℕ) : List ℕ := encodeBase64 none seq

/-- `>base64-lines` -/
def toBase64Lines (seq : List ℕ) : List ℕ := encodeBase64 (some 0) seq

/-- `read1-ignoring`: the next character that is not in `ignoring`, `none` at
the end of the stream, and the stream after it. -/
def read1Ignoring (ignoring : List ℕ) : List ℕ → Option ℕ × List ℕ
  | [] => (none, [])
  | ch :: stream => if ch ∈ ignoring then read1Ignoring ignoring stream else (some ch, stream)

/-- `decode4`: four digits as three bytes; `none` is `malformed-base64`. -/
def decode4 (a b c d : ℕ) : Option (List ℕ) := do
  let a ← base64ToCh a
  let b ← base64ToCh b
  let c ← base64ToCh c
  let d ← base64ToCh d
  pure [(a <<< 2) ||| (b >>> 4), (bits b 4 <<< 4) ||| (c >>> 2), (bits c 2 <<< 6) ||| d]

/-- `B{ CHAR: \n CHAR: \r }` -/
def newlines : List ℕ := [10, 13]

/-- `[ CHAR: = eq? 1 0 ? ] tri@ + +`: the `=` among the last three characters. -/
def padCount (b c d : ℕ) : ℕ := (if b = 61 then 1 else 0) + ((if c = 61 then 1 else 0) + (if d = 61 then 1 else 0))

theorem read1Ignoring_length_le (ignoring stream : List ℕ) :
    (read1Ignoring ignoring stream).2.length ≤ stream.length := by
  induction stream with
  | nil => exact le_refl _
  | cons ch stream ih =>
    rw [read1Ignoring]
    split
    · exact Nat.le_succ_of_le ih
    · exact Nat.le_succ _

theorem read1Ignoring_length_lt {ignoring stream rest : List ℕ} {ch : ℕ}
    (h : read1Ignoring ignoring stream = (some ch, rest)) : rest.length < stream.length := by
  induction stream with
  | nil => simp [read1Ignoring] at h
  | cons c stream ih =>
    rw [read1Ignoring] at h
    split at h
    · exact Nat.lt_succ_of_lt (ih h)
    · rw [← (Prod.mk.inj h).2]
      exact Nat.lt_succ_self _

theorem length_round_lt {ignoring input stream : List ℕ} {a : ℕ}
    (h : read1Ignoring ignoring input = (some a, stream)) :
    (read1Ignoring ignoring (read1Ignoring ignoring (read1Ignoring ignoring stream).2).2).2.length < input.length :=
  calc (read1Ignoring ignoring (read1Ignoring ignoring (read1Ignoring ignoring stream).2).2).2.length
      ≤ (read1Ignoring ignoring (read1Ignoring ignoring stream).2).2.length := read1Ignoring_length_le _ _
    _ ≤ (read1Ignoring ignoring stream).2.length := read1Ignoring_length_le _ _
    _ ≤ stream.length := read1Ignoring_length_le _ _
    _ < input.length := read1Ignoring_length_lt h

/-- `(decode-base64)`: each round reads four characters past the line breaks,
`=` for those past the end, and writes the three bytes of `decode4` less one
for each `=` among the last three (`head-slice*`). -/
def decodeBase64 (input : List ℕ) : Option (List ℕ) :=
  match _h : read1Ignoring newlines input with
  | (none, _) => some []
  | (some a, stream) =>
    let b := read1Ignoring newlines stream
    let c := read1Ignoring newlines b.2
    let d := read1Ignoring newlines c.2
    do
      let data ← decode4 a (b.1.getD 61) (c.1.getD 61) (d.1.getD 61)
      let rest ← decodeBase64 d.2
      pure (data.take (data.length - padCount (b.1.getD 61) (c.1.getD 61) (d.1.getD 61)) ++ rest)
termination_by input.length
decreasing_by exact length_round_lt _h

/-- `base64>` -/
def base64To (base64 : List ℕ) : Option (List ℕ) := decodeBase64 base64

/-- `substitute` (of `assocs`) with an association list: `?at drop` replaces
each element that is a key by its value. -/
def substitute {α : Type} [DecidableEq α] (seq : List α) (assoc : List (α × α)) : List α :=
  seq.map fun x => (assoc.lookup x).getD x

/-- `H{ { CHAR: + CHAR: - } { CHAR: / CHAR: _ } }` -/
def toUrlsafe : List (ℕ × ℕ) := [(43, 45), (47, 95)]

/-- `H{ { CHAR: - CHAR: + } { CHAR: _ CHAR: / } }` -/
def fromUrlsafe : List (ℕ × ℕ) := [(45, 43), (95, 47)]

/-- `>urlsafe-base64` -/
def toUrlsafeBase64 (seq : List ℕ) : List ℕ := substitute (toBase64 seq) toUrlsafe

/-- `urlsafe-base64>` -/
def urlsafeBase64To (base64 : List ℕ) : Option (List ℕ) := base64To (substitute base64 fromUrlsafe)

/-- `>urlsafe-base64-lines` -/
def toUrlsafeBase64Lines (seq : List ℕ) : List ℕ := substitute (toBase64Lines seq) toUrlsafe

theorem alphabet_eq : alphabet = List.range' 65 26 ++ List.range' 97 26 ++ List.range' 48 10 ++ [43, 47] := by
  decide +kernel

theorem length_alphabet : alphabet.length = 64 := by
  rw [alphabet_eq]
  rfl

theorem mem_alphabet {c : ℕ} (hc : c ∈ alphabet) :
    (65 ≤ c ∧ c < 91) ∨ (97 ≤ c ∧ c < 123) ∨ (48 ≤ c ∧ c < 58) ∨ c = 43 ∨ c = 47 := by
  rw [alphabet_eq] at hc
  simp only [List.mem_cons, List.mem_append, List.mem_range'_1, List.not_mem_nil, or_false] at hc
  omega

theorem inverseTable_eq : (alphabetInverse alphabet).set 61 (some 0) =
    (List.range 123).map fun ch => if ch = 61 then some 0 else alphabet.idxOf? ch := by
  rw [alphabet_eq]
  decide +kernel

theorem base64ToCh_eq (ch : ℕ) :
    base64ToCh ch = if ch < 123 then (if ch = 61 then some 0 else alphabet.idxOf? ch) else none := by
  rw [base64ToCh, inverseTable_eq, List.getD_eq_getElem?_getD, List.getElem?_map]
  by_cases hch : ch < 123
  · rw [List.getElem?_range hch, if_pos hch]
    rfl
  · rw [List.getElem?_eq_none (by rw [List.length_range]; omega), if_neg hch]
    rfl

theorem base64ToCh_chToBase64 : ∀ d < 64, base64ToCh (chToBase64 d) = some d := by
  have h : ∀ d < 64, chToBase64 d < 123 ∧ chToBase64 d ≠ 61 ∧ alphabet.idxOf? (chToBase64 d) = some d := by
    unfold chToBase64
    rw [alphabet_eq]
    decide +kernel
  intro d hd
  obtain ⟨h1, h2, h3⟩ := h d hd
  rw [base64ToCh_eq, if_pos h1, if_neg h2, h3]

theorem base64ToCh_pad : base64ToCh 61 = some 0 := by
  rw [base64ToCh_eq, if_pos (by decide), if_pos rfl]

theorem base64ToCh_isSome_iff (ch : ℕ) : (base64ToCh ch).isSome ↔ ch = 61 ∨ ch ∈ alphabet := by
  rw [base64ToCh_eq]
  by_cases hch : ch < 123
  · rw [if_pos hch]
    by_cases h61 : ch = 61
    · simp [h61]
    · rw [if_neg h61, List.isSome_idxOf?]
      simp [h61]
  · -- past the table: no character of the alphabet is that large
    have hmem : ch ∉ alphabet := fun hmem => by
      have := mem_alphabet hmem
      omega
    rw [if_neg hch]
    simp only [Option.isSome_none, Bool.false_eq_true, false_iff, not_or]
    exact ⟨by omega, hmem⟩

theorem lt_of_base64ToCh {ch d : ℕ} (h : base64ToCh ch = some d) : d < 64 := by
  rw [base64ToCh_eq] at h
  split_ifs at h with h123 h61
  · cases h
    norm_num
  · obtain ⟨hd, -⟩ := List.idxOf?_eq_some_iff.mp h
    rw [length_alphabet] at hd
    exact hd

theorem bits_eq (m n : ℕ) : bits m n = m % 2 ^ n := Nat.and_two_pow_sub_one_eq_mod m n

theorem shiftLeft_or_eq_add {x k : ℕ} (m : ℕ) (hx : x < 2 ^ k) : (m <<< k) ||| x = m * 2 ^ k + x := by
  rw [← Nat.shiftLeft_add_eq_or_of_lt hx, Nat.shiftLeft_eq]

theorem encode3_eq (x : ℕ) {y z : ℕ} (hy : y < 256) (hz : z < 256) :
    encode3 x y z = [chToBase64 (x / 4), chToBase64 (x % 4 * 16 + y / 16),
      chToBase64 (y % 16 * 4 + z / 64), chToBase64 (z % 64)] := by
  have h1 : y >>> 4 < 2 ^ 4 := by rw [Nat.shiftRight_eq_div_pow]; omega
  have h2 : z >>> 6 < 2 ^ 2 := by rw [Nat.shiftRight_eq_div_pow]; omega
  rw [encode3, shiftLeft_or_eq_add _ h1, shiftLeft_or_eq_add _ h2]
  simp only [bits_eq, Nat.shiftRight_eq_div_pow]
  norm_num

theorem decode4_eq {a b c d a' b' c' d' : ℕ} (ha : base64ToCh a = some a') (hb : base64ToCh b = some b')
    (hc : base64ToCh c = some c') (hd : base64ToCh d = some d') :
    decode4 a b c d = some [a' * 4 + b' / 16, b' % 16 * 16 + c' / 4, c' % 4 * 64 + d'] := by
  have hb' := lt_of_base64ToCh hb
  have hc' := lt_of_base64ToCh hc
  have hd' := lt_of_base64ToCh hd
  have h1 : b' >>> 4 < 2 ^ 2 := by rw [Nat.shiftRight_eq_div_pow]; omega
  have h2 : c' >>> 2 < 2 ^ 4 := by rw [Nat.shiftRight_eq_div_pow]; omega
  have h3 : d' < 2 ^ 6 := by omega
  simp only [decode4, ha, hb, hc, hd, Option.bind_eq_bind, Option.bind_some, Option.pure_def,
    shiftLeft_or_eq_add _ h1, shiftLeft_or_eq_add _ h2, shiftLeft_or_eq_add _ h3]
  simp only [bits_eq, Nat.shiftRight_eq_div_pow]
  norm_num

theorem decode4_digits {x y z : ℕ} (hx : x < 256) (hy : y < 256) (hz : z < 256) :
    decode4 (chToBase64 (x / 4)) (chToBase64 (x % 4 * 16 + y / 16)) (chToBase64 (y % 16 * 4 + z / 64))
      (chToBase64 (z % 64)) = some [x, y, z] := by
  rw [decode4_eq (base64ToCh_chToBase64 _ (by omega)) (base64ToCh_chToBase64 _ (by omega))
    (base64ToCh_chToBase64 _ (by omega)) (base64ToCh_chToBase64 _ (by omega))]
  simp only [Option.some.injEq, List.cons.injEq, and_true]
  omega

theorem chToBase64_mem (d : ℕ) : chToBase64 d ∈ 0 :: alphabet := by
  rw [chToBase64, List.getD_eq_getElem?_getD]
  cases h : alphabet[d]? with
  | none => exact List.mem_cons_self
  | some c => exact List.mem_cons_of_mem _ (List.mem_of_getElem? h)

theorem digit_plain : ∀ c ∈ 0 :: alphabet, c ∉ newlines ∧ c ≠ 61 := by
  intro c hc
  simp only [newlines, List.mem_cons, List.not_mem_nil, or_false]
  rcases List.mem_cons.mp hc with rfl | hc
  · omega
  · have := mem_alphabet hc
    omega

theorem decodeBase64_of_read1_none {input stream : List ℕ} (h : read1Ignoring newlines input = (none, stream)) :
    decodeBase64 input = some [] := by
  rw [decodeBase64]
  split
  · rfl
  · simp_all

theorem decodeBase64_of_read1_some {input stream : List ℕ} {a : ℕ}
    (h : read1Ignoring newlines input = (some a, stream)) :
    decodeBase64 input =
      let b := read1Ignoring newlines stream
      let c := read1Ignoring newlines b.2
      let d := read1Ignoring newlines c.2
      (decode4 a (b.1.getD 61) (c.1.getD 61) (d.1.getD 61)).bind fun data =>
        (decodeBase64 d.2).bind fun r =>
          some (data.take (data.length - padCount (b.1.getD 61) (c.1.getD 61) (d.1.getD 61)) ++ r) := by
  rw [decodeBase64]
  split
  · simp_all
  · rename_i a' stream' h'
    rw [h, Prod.mk.injEq, Option.some.injEq] at h'
    obtain ⟨rfl, rfl⟩ := h'
    rfl

theorem read1Ignoring_of_forall {ignoring stream : List ℕ} (h : ∀ c ∈ stream, c ∉ ignoring) :
    read1Ignoring ignoring stream = (stream.head?, stream.tail) := by
  cases stream with
  | nil => rfl
  | cons ch stream => rw [read1Ignoring, if_neg (h ch List.mem_cons_self)]; rfl

theorem decodeBase64_nil : decodeBase64 [] = some [] :=
  decodeBase64_of_read1_none rfl

theorem decodeBase64_cons {a : ℕ} {rest : List ℕ} (h : ∀ c ∈ a :: rest, c ∉ newlines) :
    decodeBase64 (a :: rest) =
      (decode4 a (rest[0]?.getD 61) (rest[1]?.getD 61) (rest[2]?.getD 61)).bind fun data =>
        (decodeBase64 (rest.drop 3)).bind fun r =>
          some (data.take (data.length - padCount (rest[0]?.getD 61) (rest[1]?.getD 61) (rest[2]?.getD 61)) ++ r) := by
  have h0 : ∀ c ∈ rest, c ∉ newlines := fun c hc => h c (List.mem_cons_of_mem a hc)
  have h1 : ∀ c ∈ rest.tail, c ∉ newlines := fun c hc => h0 c (List.mem_of_mem_tail hc)
  have h2 : ∀ c ∈ rest.tail.tail, c ∉ newlines := fun c hc => h1 c (List.mem_of_mem_tail hc)
  have ha : read1Ignoring newlines (a :: rest) = (some a, rest) := read1Ignoring_of_forall h
  rw [decodeBase64_of_read1_some ha]
  simp only [read1Ignoring_of_forall h0, read1Ignoring_of_forall h1, read1Ignoring_of_forall h2]
  rcases rest with _ | ⟨b, _ | ⟨c, _ | ⟨d, rest⟩⟩⟩ <;> rfl

theorem chToBase64_plain (d : ℕ) : chToBase64 d ∉ newlines ∧ chToBase64 d ≠ 61 :=
  digit_plain _ (chToBase64_mem d)

theorem pad_not_mem_newlines : 61 ∉ newlines := by
  decide

theorem encode3_mem (x y z : ℕ) : ∀ c ∈ encode3 x y z, c ∈ 0 :: alphabet := by
  intro c hc
  simp only [encode3, List.mem_cons, List.not_mem_nil, or_false] at hc
  rcases hc with rfl | rfl | rfl | rfl <;> exact chToBase64_mem _

theorem encode3_plain (x y z : ℕ) : ∀ c ∈ encode3 x y z, c ∉ newlines ∧ c ≠ 61 :=
  fun c hc => digit_plain c (encode3_mem x y z c hc)

theorem decodeBase64_encode3 {x y z : ℕ} (hx : x < 256) (hy : y < 256) (hz : z < 256) {T : List ℕ}
    (hT : ∀ c ∈ T, c ∉ newlines) : decodeBase64 (encode3 x y z ++ T) = (decodeBase64 T).map ([x, y, z] ++ ·) := by
  have hclean : ∀ c ∈ encode3 x y z ++ T, c ∉ newlines := by
    intro c hc
    rcases List.mem_append.mp hc with hc | hc
    · exact (encode3_plain x y z c hc).1
    · exact hT c hc
  rw [encode3_eq x hy hz] at hclean ⊢
  simp only [List.cons_append, List.nil_append] at hclean ⊢
  rw [decodeBase64_cons hclean]
  simp only [List.getElem?_cons_zero, List.getElem?_cons_succ,
    Option.getD_some, List.drop_succ_cons, List.drop_zero, decode4_digits hx hy hz, Option.bind_some,
    padCount, if_neg (chToBase64_plain _).2]
  cases decodeBase64 T <;> rfl

theorem decodeBase64_pad1 {x y : ℕ} (hx : x < 256) (hy : y < 256) :
    decodeBase64 ((encode3 x y 0).take 3 ++ [61]) = some [x, y] := by
  have hclean : ∀ c ∈ (encode3 x y 0).take 3 ++ [61], c ∉ newlines := by
    intro c hc
    rcases List.mem_append.mp hc with hc | hc
    · exact (encode3_plain x y 0 c (List.mem_of_mem_take hc)).1
    · rw [List.mem_singleton.mp hc]
      exact pad_not_mem_newlines
  rw [encode3_eq x hy (by norm_num)] at hclean ⊢
  simp only [List.take_succ_cons, List.take_zero, List.cons_append, List.nil_append] at hclean ⊢
  rw [decodeBase64_cons hclean]
  simp only [List.getElem?_cons_zero, List.getElem?_cons_succ, Option.getD_some, List.drop_succ_cons,
    List.drop_nil, decodeBase64_nil, padCount, if_neg (chToBase64_plain _).2,
    decode4_eq (base64ToCh_chToBase64 (x / 4) (by omega)) (base64ToCh_chToBase64 (x % 4 * 16 + y / 16) (by omega))
      (base64ToCh_chToBase64 (y % 16 * 4 + 0 / 64) (by omega)) base64ToCh_pad, Option.bind_some]
  simp only [ite_true, List.length_cons, List.length_nil, List.take_succ_cons, List.take_zero, List.append_nil,
    Option.some.injEq, List.cons.injEq, and_true]
  omega

theorem decodeBase64_pad2 {x : ℕ} (hx : x < 256) : decodeBase64 ((encode3 x 0 0).take 2 ++ [61, 61]) = some [x] := by
  have hclean : ∀ c ∈ (encode3 x 0 0).take 2 ++ [61, 61], c ∉ newlines := by
    intro c hc
    rcases List.mem_append.mp hc with hc | hc
    · exact (encode3_plain x 0 0 c (List.mem_of_mem_take hc)).1
    · simp only [List.mem_cons, List.not_mem_nil, or_false] at hc
      rcases hc with rfl | rfl <;> exact pad_not_mem_newlines
  rw [encode3_eq x (by norm_num) (by norm_num)] at hclean ⊢
  simp only [List.take_succ_cons, List.take_zero, List.cons_append, List.nil_append] at hclean ⊢
  rw [decodeBase64_cons hclean]
  simp only [List.getElem?_cons_zero, List.getElem?_cons_succ, Option.getD_some, List.drop_succ_cons,
    List.drop_nil, decodeBase64_nil, padCount, if_neg (chToBase64_plain _).2,
    decode4_eq (base64ToCh_chToBase64 (x / 4) (by omega)) (base64ToCh_chToBase64 (x % 4 * 16 + 0 / 16) (by omega))
      base64ToCh_pad base64ToCh_pad, Option.bind_some]
  simp only [ite_true, List.length_cons, List.length_nil, List.take_succ_cons, List.take_zero, List.append_nil,
    Option.some.injEq, List.cons.injEq, and_true]
  omega

theorem encodeBase64_cons (column : Option ℕ) (x : ℕ) (input : List ℕ) :
    encodeBase64 column (x :: input) =
      (streamWrapLines column (encodeGroup x input[0]? input[1]?)).2 ++
        encodeBase64 (streamWrapLines column (encodeGroup x input[0]? input[1]?)).1 (input.drop 2) := by
  rw [encodeBase64]

theorem toBase64_cons (x : ℕ) (input : List ℕ) :
    encodeBase64 none (x :: input) = encodeGroup x input[0]? input[1]? ++ encodeBase64 none (input.drop 2) := by
  rw [encodeBase64_cons]
  rfl

theorem encodeBase64_nil (column : Option ℕ) : encodeBase64 column [] = [] := by
  rw [encodeBase64]

theorem toBase64_three (x y z : ℕ) (input : List ℕ) :
    encodeBase64 none (x :: y :: z :: input) = encode3 x y z ++ encodeBase64 none input := by
  rw [toBase64_cons]
  rfl

theorem toBase64_two (x y : ℕ) : encodeBase64 none [x, y] = (encode3 x y 0).take 3 ++ [61] := by
  rw [toBase64_cons, List.drop_succ_cons, List.drop_nil, encodeBase64_nil, List.append_nil]
  rfl

theorem toBase64_one (x : ℕ) : encodeBase64 none [x] = (encode3 x 0 0).take 2 ++ [61, 61] := by
  rw [toBase64_cons, List.drop_nil, encodeBase64_nil, List.append_nil]
  rfl

theorem mem_toBase64 : ∀ (seq : List ℕ), ∀ c ∈ encodeBase64 none seq, c = 61 ∨ c ∈ 0 :: alphabet
  | [], c, hc => by simp [encodeBase64_nil] at hc
  | [x], c, hc => by
    rw [toBase64_one] at hc
    rcases List.mem_append.mp hc with hc | hc
    · exact .inr (encode3_mem x 0 0 c (List.mem_of_mem_take hc))
    · exact .inl (by simpa using hc)
  | [x, y], c, hc => by
    rw [toBase64_two] at hc
    rcases List.mem_append.mp hc with hc | hc
    · exact .inr (encode3_mem x y 0 c (List.mem_of_mem_take hc))
    · exact .inl (List.mem_singleton.mp hc)
  | x :: y :: z :: input, c, hc => by
    rw [toBase64_three] at hc
    rcases List.mem_append.mp hc with hc | hc
    · exact .inr (encode3_mem x y z c hc)
    · exact mem_toBase64 input c hc

theorem toBase64_not_mem_newlines (seq : List ℕ) : ∀ c ∈ encodeBase64 none seq, c ∉ newlines := by
  intro c hc
  rcases mem_toBase64 seq c hc with rfl | h
  · exact pad_not_mem_newlines
  · exact (digit_plain c h).1

theorem decodeBase64_toBase64 : ∀ (seq : List ℕ), (∀ b ∈ seq, b < 256) → decodeBase64 (encodeBase64 none seq) = some seq
  | [], _ => by rw [encodeBase64_nil, decodeBase64_nil]
  | [x], hs => by rw [toBase64_one, decodeBase64_pad2 (hs x (by simp))]
  | [x, y], hs => by rw [toBase64_two, decodeBase64_pad1 (hs x (by simp)) (hs y (by simp))]
  | x :: y :: z :: input, hs => by
    rw [toBase64_three, decodeBase64_encode3 (hs x (by simp)) (hs y (by simp)) (hs z (by simp))
      (toBase64_not_mem_newlines input),
      decodeBase64_toBase64 input (fun b hb => hs b (by simp [hb]))]
    rfl

theorem wrapEach_append (column : ℕ) (d₁ d₂ : List ℕ) :
    wrapEach column (d₁ ++ d₂) =
      ((wrapEach (wrapEach column d₁).1 d₂).1, (wrapEach column d₁).2 ++ (wrapEach (wrapEach column d₁).1 d₂).2) := by
  induction d₁ generalizing column with
  | nil => rfl
  | cons ch d₁ ih =>
    by_cases hc : column + 1 = 76 <;> simp [wrapEach, hc, ih]

theorem wrapEach_group {column : ℕ} (h4 : column % 4 = 0) (h72 : column ≤ 72) {data : List ℕ}
    (hd : data.length = 4) :
    wrapEach column data = if column = 72 then (0, data ++ [13, 10]) else (column + 4, data) := by
  match data, hd with
  | [a, b, c, d], _ =>
    by_cases hc : column = 72
    · subst hc
      rfl
    · have h1 : column + 1 ≠ 76 := by omega
      have h2 : column + 1 + 1 ≠ 76 := by omega
      have h3 : column + 1 + 1 + 1 ≠ 76 := by omega
      have h4' : column + 1 + 1 + 1 + 1 ≠ 76 := by omega
      simp [wrapEach, hc, h1, h2, h3, h4']

theorem wrapEach_group_column {column : ℕ} (h4 : column % 4 = 0) (h72 : column ≤ 72) {data : List ℕ}
    (hd : data.length = 4) : (wrapEach column data).1 % 4 = 0 ∧ (wrapEach column data).1 ≤ 72 := by
  rw [wrapEach_group h4 h72 hd]
  split_ifs <;> omega

theorem streamWrapLines_some {column : ℕ} (h4 : column % 4 = 0) (h72 : column ≤ 72) {data : List ℕ}
    (hd : data.length = 4) :
    streamWrapLines (some column) data = (some (wrapEach column data).1, (wrapEach column data).2) := by
  rw [streamWrapLines]
  split_ifs with h71
  · rfl
  · rw [wrapEach_group h4 h72 hd, if_neg (by omega)]

theorem length_padGroup {data : List ℕ} (hd : data.length = 4) (n : ℕ) : (padGroup data n).length = 4 := by
  match n with
  | 0 => exact hd
  | 1 => simp [padGroup, hd]
  | n + 2 => simp [padGroup, hd]

theorem length_encodeGroup (x : ℕ) (y z : Option ℕ) : (encodeGroup x y z).length = 4 :=
  length_padGroup rfl _

theorem encodeBase64_some (column : ℕ) (seq : List ℕ) (h4 : column % 4 = 0) (h72 : column ≤ 72) :
    encodeBase64 (some column) seq = (wrapEach column (encodeBase64 none seq)).2 := by
  match seq with
  | [] => rw [encodeBase64_nil, encodeBase64_nil]; rfl
  | x :: input =>
    have hd := length_encodeGroup x input[0]? input[1]?
    obtain ⟨h4', h72'⟩ := wrapEach_group_column h4 h72 hd
    rw [encodeBase64_cons, toBase64_cons, streamWrapLines_some h4 h72 hd, wrapEach_append,
      encodeBase64_some _ (input.drop 2) h4' h72']
termination_by seq.length
decreasing_by
  rw [List.length_drop, List.length_cons]
  omega

theorem wrapEach_eq_take (column : ℕ) (text : List ℕ) (hc : column < 76) :
    (wrapEach column text).2 = text.take (76 - column) ++
      (if 76 - column ≤ text.length then [13, 10] ++ (wrapEach 0 (text.drop (76 - column))).2 else []) := by
  induction text generalizing column with
  | nil => simp [wrapEach]; omega
  | cons ch text ih =>
    have hsucc : 76 - column = 75 - column + 1 := by omega
    rw [wrapEach, hsucc, List.take_succ_cons, List.drop_succ_cons, List.length_cons]
    split_ifs with h76 hle hle
    · have h0 : 75 - column = 0 := by omega
      simp [h0]
    · omega
    · dsimp only
      rw [ih (column + 1) (by omega), if_pos (by omega), show 76 - (column + 1) = 75 - column by omega]
      rfl
    · dsimp only
      rw [ih (column + 1) (by omega), if_neg (by omega), show 76 - (column + 1) = 75 - column by omega]
      rfl

theorem wrapEach_zero_eq_groups (text : List ℕ) :
    (wrapEach 0 text).2 = (groups 76 text).flatMap fun line => if line.length = 76 then line ++ [13, 10] else line := by
  fun_induction groups 76 text with
  | case1 text h ih =>
    rw [wrapEach_eq_take 0 text (by norm_num), List.flatMap_cons, List.length_take, Nat.sub_zero]
    by_cases hlen : 76 ≤ text.length
    · rw [if_pos hlen, if_pos (by omega), ih, List.append_assoc]
    · have hdrop : text.drop 76 = [] := List.drop_eq_nil_of_le (by omega)
      rw [if_neg hlen, if_neg (by omega), hdrop, groups_nil, List.flatMap_nil]
  | case2 text h =>
    have ht : text = [] := by
      by_contra hne
      exact h ⟨by norm_num, hne⟩
    subst ht
    rfl

theorem filter_wrapEach (column : ℕ) (text : List ℕ) :
    (wrapEach column text).2.filter (fun c => decide (c ∉ newlines)) = text.filter fun c => decide (c ∉ newlines) := by
  induction text generalizing column with
  | nil => rfl
  | cons ch text ih =>
    have h10 : decide ((10 : ℕ) ∉ newlines) = false := by decide
    have h13 : decide ((13 : ℕ) ∉ newlines) = false := by decide
    rw [wrapEach]
    split_ifs
    · simp only [List.filter_cons, h10, h13, ih, Bool.false_eq_true, if_false]
    · simp only [List.filter_cons, ih]

theorem mem_wrapEach {column : ℕ} {text : List ℕ} {c : ℕ} (hc : c ∈ (wrapEach column text).2) :
    c ∈ text ∨ c ∈ newlines := by
  induction text generalizing column with
  | nil => simp [wrapEach] at hc
  | cons ch text ih =>
    rw [wrapEach] at hc
    split_ifs at hc
    · simp only [List.mem_cons] at hc
      rcases hc with rfl | rfl | rfl | hc
      · exact .inl List.mem_cons_self
      · exact .inr (by decide)
      · exact .inr (by decide)
      · exact (ih hc).imp_left (List.mem_cons_of_mem ch)
    · rcases List.mem_cons.mp hc with rfl | hc
      · exact .inl List.mem_cons_self
      · exact (ih hc).imp_left (List.mem_cons_of_mem ch)

theorem read1Ignoring_filter (ignoring stream : List ℕ) :
    read1Ignoring ignoring (stream.filter fun c => decide (c ∉ ignoring)) =
      ((read1Ignoring ignoring stream).1, (read1Ignoring ignoring stream).2.filter fun c => decide (c ∉ ignoring)) := by
  induction stream with
  | nil => rfl
  | cons ch stream ih =>
    by_cases hch : ch ∈ ignoring
    · rw [List.filter_cons_of_neg (by simpa using hch), ih, read1Ignoring, if_pos hch]
    · rw [List.filter_cons_of_pos (by simpa using hch), read1Ignoring, if_neg hch, read1Ignoring, if_neg hch]

theorem decodeBase64_filter (input : List ℕ) :
    decodeBase64 (input.filter fun c => decide (c ∉ newlines)) = decodeBase64 input := by
  have hr := read1Ignoring_filter newlines input
  rcases hread : read1Ignoring newlines input with ⟨_ | a, stream⟩
  · rw [hread] at hr
    rw [decodeBase64_of_read1_none hread, decodeBase64_of_read1_none hr]
  · rw [hread] at hr
    rw [decodeBase64_of_read1_some hread, decodeBase64_of_read1_some hr]
    simp only [read1Ignoring_filter]
    rw [decodeBase64_filter]
termination_by input.length
decreasing_by exact length_round_lt hread

theorem substitute_substitute {α : Type} [DecidableEq α] {seq : List α} {assoc assoc' : List (α × α)}
    (h : ∀ x ∈ seq, (assoc'.lookup ((assoc.lookup x).getD x)).getD ((assoc.lookup x).getD x) = x) :
    substitute (substitute seq assoc) assoc' = seq := by
  rw [substitute, substitute, List.map_map]
  exact (List.map_congr_left h).trans (List.map_id seq)

theorem urlsafe_char : ∀ c ∈ 10 :: 13 :: 61 :: 0 :: alphabet,
    (fromUrlsafe.lookup ((toUrlsafe.lookup c).getD c)).getD ((toUrlsafe.lookup c).getD c) = c := by
  rw [alphabet_eq]
  decide +kernel

theorem mem_text_of_mem_toBase64 {seq : List ℕ} {c : ℕ} (hc : c ∈ encodeBase64 none seq) :
    c ∈ 10 :: 13 :: 61 :: 0 :: alphabet := by
  rcases mem_toBase64 seq c hc with rfl | hc
  · simp
  · exact List.mem_cons_of_mem _ (List.mem_cons_of_mem _ (List.mem_cons_of_mem _ hc))

theorem mem_toBase64Lines {seq : List ℕ} {c : ℕ} (hc : c ∈ encodeBase64 (some 0) seq) :
    c ∈ 10 :: 13 :: 61 :: 0 :: alphabet := by
  rw [encodeBase64_some 0 seq rfl (by norm_num)] at hc
  rcases mem_wrapEach hc with hc | hc
  · exact mem_text_of_mem_toBase64 hc
  · simp only [newlines, List.mem_cons, List.not_mem_nil, or_false] at hc
    rcases hc with rfl | rfl <;> simp

/-- `>base64-lines` is `>base64` written one character at a time with `\r\n`
after each 76th: the text cut into lines of 76, each full line followed by a
line break. -/
theorem toBase64Lines_layout (seq : List ℕ) :
    toBase64Lines seq = (wrapEach 0 (toBase64 seq)).2 ∧
      toBase64Lines seq =
        (groups 76 (toBase64 seq)).flatMap fun line => if line.length = 76 then line ++ [13, 10] else line := by
  have hwrap : toBase64Lines seq = (wrapEach 0 (toBase64 seq)).2 := encodeBase64_some 0 seq rfl (by norm_num)
  exact ⟨hwrap, hwrap.trans (wrapEach_zero_eq_groups _)⟩

/-- For every byte sequence, `base64>` inverts `>base64` and `>base64-lines`,
and `urlsafe-base64>` inverts `>urlsafe-base64` and `>urlsafe-base64-lines`. -/
theorem base64_round_trips (seq : List ℕ) (hs : ∀ b ∈ seq, b < 256) :
    base64To (toBase64 seq) = some seq ∧ base64To (toBase64Lines seq) = some seq ∧
      urlsafeBase64To (toUrlsafeBase64 seq) = some seq ∧ urlsafeBase64To (toUrlsafeBase64Lines seq) = some seq := by
  have hplain : base64To (toBase64 seq) = some seq := decodeBase64_toBase64 seq hs
  have hlines : base64To (toBase64Lines seq) = some seq := by
    rw [base64To, toBase64Lines, encodeBase64_some 0 seq rfl (by norm_num), ← decodeBase64_filter,
      filter_wrapEach, decodeBase64_filter]
    exact hplain
  refine ⟨hplain, hlines, ?_, ?_⟩
  · rw [urlsafeBase64To, toUrlsafeBase64, substitute_substitute]
    · exact hplain
    · exact fun c hc => urlsafe_char c (mem_text_of_mem_toBase64 hc)
  · rw [urlsafeBase64To, toUrlsafeBase64Lines, substitute_substitute]
    · exact hlines
    · exact fun c hc => urlsafe_char c (mem_toBase64Lines hc)

theorem base64_round_trips_foobar :
    base64To (toBase64 [102, 111, 111, 98, 97]) = some [102, 111, 111, 98, 97] ∧
      base64To (toBase64Lines [102, 111, 111, 98, 97]) = some [102, 111, 111, 98, 97] ∧
      urlsafeBase64To (toUrlsafeBase64 [102, 111, 111, 98, 97]) = some [102, 111, 111, 98, 97] ∧
      urlsafeBase64To (toUrlsafeBase64Lines [102, 111, 111, 98, 97]) = some [102, 111, 111, 98, 97] :=
  base64_round_trips [102, 111, 111, 98, 97] (by decide)

theorem isSome_bind_bind_some {α β γ : Type} (x : Option α) (y : Option β) (f : α → β → γ) :
    ((x.bind fun a => y.bind fun b => some (f a b)).isSome) = (x.isSome && y.isSome) := by
  cases x <;> cases y <;> rfl

theorem isSome_decode4 (a b c d : ℕ) :
    (decode4 a b c d).isSome =
      ((base64ToCh a).isSome && (base64ToCh b).isSome && (base64ToCh c).isSome && (base64ToCh d).isSome) := by
  rw [decode4]
  cases base64ToCh a <;> cases base64ToCh b <;> cases base64ToCh c <;> cases base64ToCh d <;> rfl

theorem isSome_decodeBase64 (input : List ℕ) (h : ∀ c ∈ input, c ∉ newlines) :
    (decodeBase64 input).isSome = input.all fun c => (base64ToCh c).isSome := by
  match input with
  | [] => rw [decodeBase64_nil]; rfl
  | a :: rest =>
    have ih := isSome_decodeBase64 (rest.drop 3) fun c hc => h c (List.mem_cons_of_mem a (List.mem_of_mem_drop hc))
    rw [decodeBase64_cons h, isSome_bind_bind_some, isSome_decode4, ih]
    rcases rest with _ | ⟨b, _ | ⟨c, _ | ⟨d, rest⟩⟩⟩ <;> simp [base64ToCh_pad, Bool.and_assoc]
termination_by input.length
decreasing_by
  rw [List.length_drop, List.length_cons]
  omega

/-- `base64>` skips `\r` and `\n` wherever they stand, and fails (with
`malformed-base64`) exactly when the input holds a character that is no digit
of the alphabet, no `=` and no line break. -/
theorem base64To_accepts (input : List ℕ) :
    base64To input = base64To (input.filter fun c => decide (c ∉ newlines)) ∧
      ((base64To input).isSome ↔ ∀ c ∈ input, c ∈ newlines ∨ c = 61 ∨ c ∈ alphabet) := by
  have hfilter : base64To input = base64To (input.filter fun c => decide (c ∉ newlines)) :=
    (decodeBase64_filter input).symm
  refine ⟨hfilter, ?_⟩
  have hclean : ∀ c ∈ input.filter (fun c => decide (c ∉ newlines)), c ∉ newlines := by
    intro c hc
    simpa using (List.mem_filter.mp hc).2
  rw [hfilter, base64To, isSome_decodeBase64 _ hclean, List.all_eq_true]
  simp only [List.mem_filter, decide_eq_true_eq, and_imp, base64ToCh_isSome_iff]
  constructor
  · intro h c hc
    by_cases hn : c ∈ newlines
    · exact .inl hn
    · exact .inr (h c hc hn)
  · intro h c hc hn
    exact (h c hc).resolve_left hn

end FactorProofs.Codecs.Base64
