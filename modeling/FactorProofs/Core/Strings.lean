import Mathlib.Data.Nat.Bitwise

namespace FactorProofs.Core

/-! `strings` and the string primitives of the VM. A string holds one byte per
index. A character up to `0x7f` is its own byte; a larger one keeps its low
seven bits in the byte with the high bit set, and the rest, xor 1, in the
16-bit word at the same index of the `aux` byte array, which a string only has
once a large character has been stored in it. -/

/-- The `string` object: the character bytes and the `aux` words, one per index. -/
structure FactorString where
  data : List ℕ
  aux : Option (List ℕ)

namespace FactorString

def length (s : FactorString) : ℕ := s.data.length

/-- `small-char?` -/
def smallChar (ch : ℕ) : Bool := ch ≤ 0x7f

/-- `string-nth-fast` -/
def stringNthFast (n : ℕ) (s : FactorString) : ℕ := s.data.getD n 0

/-- `(aux) alien-unsigned-2`: the word at index `n` of `aux`. -/
def auxWord (n : ℕ) (s : FactorString) : ℕ := (s.aux.getD []).getD n 0

/-- `string-nth` -/
def stringNth (n : ℕ) (s : FactorString) : ℕ :=
  let ch := stringNthFast n s
  if smallChar ch then ch else (auxWord n s <<< 7) ^^^ ch

/-- `set-string-nth-fast`: the VM stores the low byte of the value. -/
def setStringNthFast (ch n : ℕ) (s : FactorString) : FactorString :=
  { s with data := s.data.set n (ch % 256) }

/-- `ensure-aux`: a new `aux` is allocated uninitialized; `fresh i` is what
its word at index `i` happens to hold. -/
def ensureAux (fresh : ℕ → ℕ) (s : FactorString) : FactorString :=
  match s.aux with
  | some _ => s
  | none => { s with aux := some ((List.range s.data.length).map fresh) }

/-- `set-alien-unsigned-2` at the word of index `n`. -/
def setAuxWord (w n : ℕ) (s : FactorString) : FactorString :=
  { s with aux := s.aux.map (·.set n (w % 2 ^ 16)) }

/-- `set-string-nth-slow` -/
def setStringNthSlow (fresh : ℕ → ℕ) (ch n : ℕ) (s : FactorString) : FactorString :=
  setAuxWord ((ch >>> 7) ^^^ 1) n (ensureAux fresh (setStringNthFast (ch ||| 0x80) n s))

/-- `set-string-nth` -/
def setStringNth (fresh : ℕ → ℕ) (ch n : ℕ) (s : FactorString) : FactorString :=
  if smallChar ch then setStringNthFast ch n s else setStringNthSlow fresh ch n s

/-- `allot_string`: a new string of `capacity` copies of `fill`, as `fill_string`
writes it over the whole string. -/
def allotString (capacity fill : ℕ) : FactorString :=
  if fill ≤ 0x7f then ⟨List.replicate capacity (fill % 256), none⟩
  else
    ⟨List.replicate capacity (((fill &&& 0x7f) ||| 0x80) % 256),
      some (List.replicate capacity (((fill >>> 7) ^^^ 1) % 2 ^ 16))⟩

/-- The characters of a string: what `string-nth` reads at each index. -/
def chars (s : FactorString) : List ℕ := (List.range s.length).map (stringNth · s)

/-- The VM's string invariant: without `aux` every byte is a small character,
and an `aux` has a word for every index. -/
def Valid (s : FactorString) : Prop :=
  (s.aux = none → ∀ b ∈ s.data, b ≤ 0x7f) ∧ (∀ a, s.aux = some a → a.length = s.data.length)

section Split

theorem lowByte_or_eq (ch : ℕ) : ((ch &&& 0x7f) ||| 0x80) % 256 = (ch ||| 0x80) % 256 := by
  apply Nat.eq_of_testBit_eq
  intro i
  rw [show (0x7f : ℕ) = 2 ^ 7 - 1 from rfl, show (0x80 : ℕ) = 2 ^ 7 from rfl,
    show (256 : ℕ) = 2 ^ 8 from rfl]
  simp only [Nat.testBit_mod_two_pow, Nat.testBit_or, Nat.testBit_and, Nat.testBit_two_pow_sub_one,
    Nat.testBit_two_pow]
  rcases Nat.lt_or_ge i 7 with hi | hi
  · simp [hi, show 7 ≠ i by omega]
  · rcases Nat.eq_or_lt_of_le hi with rfl | hi
    · simp
    · simp [show ¬ i < 7 by omega, show ¬ i < 8 by omega]

theorem lowByte_gt (ch : ℕ) : 0x7f < (ch ||| 0x80) % 256 := by
  have h7 : ((ch ||| 0x80) % 256).testBit 7 = true := by
    rw [show (0x80 : ℕ) = 2 ^ 7 from rfl, show (256 : ℕ) = 2 ^ 8 from rfl, Nat.testBit_mod_two_pow,
      Nat.testBit_or, Nat.testBit_two_pow]
    simp
  exact Nat.lt_of_lt_of_le (by decide) (Nat.ge_two_pow_of_testBit h7)

theorem auxWord_xor_lowByte {ch : ℕ} (h : ch < 2 ^ 23) :
    ((((ch >>> 7) ^^^ 1) % 2 ^ 16) <<< 7) ^^^ ((ch ||| 0x80) % 256) = ch := by
  apply Nat.eq_of_testBit_eq
  intro i
  rw [show (0x80 : ℕ) = 2 ^ 7 from rfl, show (256 : ℕ) = 2 ^ 8 from rfl,
    show (1 : ℕ) = 2 ^ 0 from rfl]
  simp only [Nat.testBit_xor, Nat.testBit_shiftLeft, Nat.testBit_mod_two_pow, Nat.testBit_or,
    Nat.testBit_shiftRight, Nat.testBit_two_pow]
  rcases lt_or_ge i 23 with hi | hi
  · -- below bit 7 the byte holds the bit; bit 7 is the xor of the two stored ones; above it the word
    rcases lt_trichotomy i 7 with h7 | rfl | h7
    · simp [show ¬ 7 ≤ i by omega, show i < 8 by omega, show 7 ≠ i by omega]
    · simp
    · simp [show 7 ≤ i by omega, show i - 7 < 16 by omega, show ¬ i < 8 by omega,
        show 0 ≠ i - 7 by omega, show 7 + (i - 7) = i by omega]
  · have hbit : ch.testBit i = false :=
      Nat.testBit_eq_false_of_lt (lt_of_lt_of_le h (Nat.pow_le_pow_right Nat.two_pos hi))
    simp [hbit, show ¬ i - 7 < 16 by omega, show ¬ i < 8 by omega]

end Split

@[simp]
theorem length_setStringNthFast (ch n : ℕ) (s : FactorString) :
    (setStringNthFast ch n s).data.length = s.data.length := List.length_set

@[simp]
theorem ensureAux_data (fresh : ℕ → ℕ) (s : FactorString) : (ensureAux fresh s).data = s.data := by
  unfold ensureAux
  split <;> rfl

@[simp]
theorem setAuxWord_data (w n : ℕ) (s : FactorString) : (setAuxWord w n s).data = s.data := rfl

theorem stringNthFast_setStringNthFast {ch n : ℕ} (m : ℕ) (s : FactorString) (hn : n < s.data.length) :
    stringNthFast m (setStringNthFast ch n s) = if m = n then ch % 256 else stringNthFast m s := by
  simp only [stringNthFast, setStringNthFast, List.getD_eq_getElem?_getD]
  by_cases hm : m = n
  · subst hm
    simp [hn]
  · simp [hm, List.getElem?_set_ne (Ne.symm hm)]

theorem ensureAux_of_some {s : FactorString} {a : List ℕ} (ha : s.aux = some a) (fresh : ℕ → ℕ) :
    ensureAux fresh s = s := by
  simp [ensureAux, ha]

theorem ensureAux_aux {s : FactorString} (hs : ∀ a, s.aux = some a → a.length = s.data.length)
    (fresh : ℕ → ℕ) : ∃ a, (ensureAux fresh s).aux = some a ∧ a.length = s.data.length := by
  cases ha : s.aux with
  | none => exact ⟨(List.range s.data.length).map fresh, by simp [ensureAux, ha], by simp⟩
  | some a => exact ⟨a, by rw [ensureAux_of_some ha fresh]; exact ha, hs a ha⟩

theorem auxWord_setAuxWord {s : FactorString} {a : List ℕ} (ha : s.aux = some a) {n : ℕ}
    (hn : n < a.length) (w m : ℕ) :
    auxWord m (setAuxWord w n s) = if m = n then w % 2 ^ 16 else auxWord m s := by
  simp only [auxWord, setAuxWord, ha, Option.map_some, Option.getD_some, List.getD_eq_getElem?_getD]
  by_cases hm : m = n
  · subst hm
    simp [hn]
  · simp [hm, List.getElem?_set_ne (Ne.symm hm)]

theorem valid_aux_of_large {s : FactorString} (hs : s.Valid) {m : ℕ} (hm : m < s.data.length)
    (hlarge : ¬ stringNthFast m s ≤ 0x7f) : ∃ a, s.aux = some a := by
  cases ha : s.aux with
  | none =>
    have := hs.1 ha (s.data[m]) (List.getElem_mem hm)
    simp [stringNthFast, List.getD_eq_getElem?_getD, hm] at hlarge
    omega
  | some a => exact ⟨a, rfl⟩

theorem stringNth_of_small {s : FactorString} {n : ℕ} (h : stringNthFast n s ≤ 0x7f) :
    stringNth n s = stringNthFast n s := by
  simp [stringNth, smallChar, h]

theorem stringNth_of_large {s : FactorString} {n : ℕ} (h : ¬ stringNthFast n s ≤ 0x7f) :
    stringNth n s = (auxWord n s <<< 7) ^^^ stringNthFast n s := by
  simp [stringNth, smallChar, h]

theorem stringNth_congr {s t : FactorString} {m : ℕ} (hfast : stringNthFast m t = stringNthFast m s)
    (hword : auxWord m t = auxWord m s) : stringNth m t = stringNth m s := by
  simp only [stringNth, hfast, hword]

section NoAux

variable {s : FactorString} (hs : s.Valid) (ha : s.aux = none)
include hs ha

theorem stringNthFast_le_of_no_aux {i : ℕ} (hi : i < s.length) : stringNthFast i s ≤ 0x7f := by
  have hi' : i < s.data.length := hi
  rw [stringNthFast, List.getD_eq_getElem?_getD, List.getElem?_eq_getElem hi', Option.getD_some]
  exact hs.1 ha _ (List.getElem_mem hi')

theorem chars_of_no_aux : s.chars = (List.range s.length).map (stringNthFast · s) :=
  List.map_congr_left fun _ hi =>
    stringNth_of_small (stringNthFast_le_of_no_aux hs ha (List.mem_range.mp hi))

end NoAux

section SetNth

variable {s : FactorString} {n : ℕ}

@[simp]
theorem length_setStringNth (fresh : ℕ → ℕ) (ch : ℕ) :
    (setStringNth fresh ch n s).data.length = s.data.length := by
  unfold setStringNth setStringNthSlow
  split <;> simp

theorem valid_setStringNth (hs : s.Valid) (fresh : ℕ → ℕ) (ch : ℕ) :
    (setStringNth fresh ch n s).Valid := by
  unfold setStringNth
  split
  · -- a small character: `aux` is as it was and the new byte is small
    refine ⟨fun ha b hb => ?_, fun a ha => by simpa using hs.2 a ha⟩
    rcases List.mem_or_eq_of_mem_set hb with hb | rfl
    · exact hs.1 ha b hb
    · simp only [smallChar, decide_eq_true_eq] at *
      omega
  · -- a large one: the word lands in an `aux` that `ensure-aux` made whole
    have hlen : ∀ a, (setStringNthFast (ch ||| 0x80) n s).aux = some a →
        a.length = (setStringNthFast (ch ||| 0x80) n s).data.length := by
      simpa [setStringNthFast] using hs.2
    obtain ⟨a, ha, halen⟩ := ensureAux_aux hlen fresh
    refine ⟨fun h => by simp [setStringNthSlow, setAuxWord, ha] at h, fun b hb => ?_⟩
    simp only [setStringNthSlow, setAuxWord, ha, Option.map_some, Option.some.injEq] at hb
    subst hb
    simp [setStringNthSlow, halen]

theorem stringNth_setStringNth (hs : s.Valid) (hn : n < s.data.length) (fresh : ℕ → ℕ) {ch : ℕ}
    (hch : ch < 2 ^ 23) (m : ℕ) (hm : m < s.data.length) :
    stringNth m (setStringNth fresh ch n s) = if m = n then ch else stringNth m s := by
  unfold setStringNth
  by_cases hsmall : smallChar ch
  · rw [if_pos hsmall]
    have hch : ch ≤ 0x7f := by simpa [smallChar] using hsmall
    have hfast : stringNthFast m (setStringNthFast ch n s) = if m = n then ch % 256 else stringNthFast m s :=
      stringNthFast_setStringNthFast m s hn
    split_ifs with hmn
    · rw [stringNth_of_small (by rw [hfast, if_pos hmn]; omega), hfast, if_pos hmn]
      omega
    · exact stringNth_congr (by rw [hfast, if_neg hmn]) rfl
  · rw [if_neg hsmall]
    have hlen : ∀ a, (setStringNthFast (ch ||| 0x80) n s).aux = some a →
        a.length = (setStringNthFast (ch ||| 0x80) n s).data.length := by
      simpa [setStringNthFast] using hs.2
    obtain ⟨a, ha, halen⟩ := ensureAux_aux hlen fresh
    have hword : auxWord m (setStringNthSlow fresh ch n s) =
        if m = n then ((ch >>> 7) ^^^ 1) % 2 ^ 16
        else auxWord m (ensureAux fresh (setStringNthFast (ch ||| 0x80) n s)) :=
      auxWord_setAuxWord ha (by simpa [halen] using hn) _ m
    have hfast : stringNthFast m (setStringNthSlow fresh ch n s) =
        if m = n then (ch ||| 0x80) % 256 else stringNthFast m s := by
      rw [← stringNthFast_setStringNthFast m s hn]
      simp [setStringNthSlow, stringNthFast]
    split_ifs with hmn
    · rw [stringNth_of_large (by rw [hfast, if_pos hmn]; exact Nat.not_le.mpr (lowByte_gt ch)), hword,
        hfast, if_pos hmn, if_pos hmn]
      exact auxWord_xor_lowByte hch
    · by_cases hlarge : stringNthFast m s ≤ 0x7f
      · rw [stringNth_of_small (by rw [hfast, if_neg hmn]; exact hlarge), hfast, if_neg hmn,
          stringNth_of_small hlarge]
      · -- a large character elsewhere: `aux` was there already and `ensure-aux` kept it
        obtain ⟨b, hb⟩ := valid_aux_of_large hs hm hlarge
        have hkeep : ensureAux fresh (setStringNthFast (ch ||| 0x80) n s) =
            setStringNthFast (ch ||| 0x80) n s := ensureAux_of_some (by simpa [setStringNthFast] using hb) _
        refine stringNth_congr (by rw [hfast, if_neg hmn]) ?_
        rw [hword, if_neg hmn, hkeep]
        rfl

theorem chars_setStringNth (hs : s.Valid) (hn : n < s.data.length) (fresh : ℕ → ℕ) {ch : ℕ}
    (hch : ch < 2 ^ 23) : (setStringNth fresh ch n s).chars = s.chars.set n ch := by
  apply List.ext_getElem
  · simp [chars, length]
  · intro i hi _
    have hi' : i < s.data.length := by simpa [chars, length] using hi
    simp only [chars, length, List.getElem_map, List.getElem_range, List.getElem_set]
    rw [stringNth_setStringNth hs hn fresh hch i hi']
    split_ifs with h1 h2 h2
    · rfl
    · exact absurd h1.symm h2
    · exact absurd h2.symm h1
    · rfl

end SetNth

theorem allotString_spec (capacity : ℕ) {fill : ℕ} (hfill : fill < 2 ^ 23) :
    (allotString capacity fill).Valid ∧ (allotString capacity fill).chars = List.replicate capacity fill := by
  unfold allotString
  split_ifs with hsmall
  · refine ⟨⟨fun _ b hb => ?_, fun a ha => by cases ha⟩, ?_⟩
    · rw [List.eq_of_mem_replicate hb]
      omega
    · apply List.ext_getElem
      · simp [chars, length]
      · intro i hi _
        have hi' : i < capacity := by simpa [chars, length] using hi
        have hfast : stringNthFast i ⟨List.replicate capacity (fill % 256), none⟩ = fill := by
          simp [stringNthFast, hi']
          omega
        simp only [chars, length, List.getElem_map, List.getElem_range, List.getElem_replicate]
        rw [stringNth_of_small (by omega), hfast]
  · refine ⟨⟨fun h => (by cases h), fun a ha => by cases ha; simp⟩, ?_⟩
    apply List.ext_getElem
    · simp [chars, length]
    · intro i hi _
      have hi' : i < capacity := by simpa [chars, length] using hi
      have hfast : stringNthFast i ⟨List.replicate capacity (((fill &&& 0x7f) ||| 0x80) % 256),
          some (List.replicate capacity (((fill >>> 7) ^^^ 1) % 2 ^ 16))⟩ = (fill ||| 0x80) % 256 := by
        simp [stringNthFast, hi', lowByte_or_eq]
      simp only [chars, length, List.getElem_map, List.getElem_range, List.getElem_replicate]
      rw [stringNth_of_large (by rw [hfast]; exact Nat.not_le.mpr (lowByte_gt fill)), hfast]
      simpa [auxWord, hi'] using auxWord_xor_lowByte hfill

/-- One `set-nth`: the uninitialized words a new `aux` would hold, the
character and the index. -/
structure SetNth where
  fresh : ℕ → ℕ
  ch : ℕ
  n : ℕ

def runSetNth (ops : List SetNth) (s : FactorString) : FactorString :=
  ops.foldl (fun s op => setStringNth op.fresh op.ch op.n s) s

/-- The abstract string: a list of characters, `set-nth` its element update. -/
def runSetNthAbstract (ops : List SetNth) (l : List ℕ) : List ℕ :=
  ops.foldl (fun l op => l.set op.n op.ch) l

/-- The run lemma: along every run of in-bounds `set-nth`s of characters below
`2 ^ 23`, the string stays valid and reads as the abstract string. -/
theorem runSetNth_spec (ops : List SetNth) (hops : ∀ op ∈ ops, op.ch < 2 ^ 23)
    (s : FactorString) (hs : s.Valid) (hbound : ∀ op ∈ ops, op.n < s.data.length) :
    (runSetNth ops s).Valid ∧ (runSetNth ops s).chars = runSetNthAbstract ops s.chars := by
  induction ops generalizing s with
  | nil => exact ⟨hs, rfl⟩
  | cons op ops ih =>
    have hch := hops op List.mem_cons_self
    have hn := hbound op List.mem_cons_self
    have hbound' : ∀ o ∈ ops, o.n < (setStringNth op.fresh op.ch op.n s).data.length := by
      simpa using fun o ho => hbound o (List.mem_cons_of_mem op ho)
    obtain ⟨hv, hc⟩ := ih (fun o ho => hops o (List.mem_cons_of_mem op ho)) _
      (valid_setStringNth hs op.fresh op.ch) hbound'
    refine ⟨hv, ?_⟩
    rw [runSetNthAbstract, List.foldl_cons, ← chars_setStringNth hs hn op.fresh hch]
    exact hc

theorem runSetNth_spec_euro :
    (∀ op ∈ [(⟨fun _ => 0, 0x20AC, 1⟩ : SetNth)], op.ch < 2 ^ 23) ∧ (⟨[0x68, 0x69], none⟩ : FactorString).Valid ∧
      (∀ op ∈ [(⟨fun _ => 0, 0x20AC, 1⟩ : SetNth)], op.n < [0x68, 0x69].length) ∧
      (runSetNth [⟨fun _ => 0, 0x20AC, 1⟩] ⟨[0x68, 0x69], none⟩).Valid ∧
      (runSetNth [⟨fun _ => 0, 0x20AC, 1⟩] ⟨[0x68, 0x69], none⟩).chars =
        runSetNthAbstract [⟨fun _ => 0, 0x20AC, 1⟩] (FactorString.chars ⟨[0x68, 0x69], none⟩) :=
  have hops : ∀ op ∈ [(⟨fun _ => 0, 0x20AC, 1⟩ : SetNth)], op.ch < 2 ^ 23 := by simp
  have hs : (⟨[0x68, 0x69], none⟩ : FactorString).Valid := ⟨fun _ b hb => by simp at hb; omega, fun a ha => by cases ha⟩
  have hbound : ∀ op ∈ [(⟨fun _ => 0, 0x20AC, 1⟩ : SetNth)], op.n < [0x68, 0x69].length := by simp
  ⟨hops, hs, hbound, runSetNth_spec _ hops _ hs hbound⟩

end FactorString

end FactorProofs.Core
