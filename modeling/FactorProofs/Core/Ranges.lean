import FactorProofs.Math.Floats

namespace FactorProofs.Core

open FactorProofs.Math

/-! `ranges`: arithmetic progressions on the rationals. A `range` stores its
first element, its length and its step; `<range>` computes the length from the
two ends with a truncating division, and the set words of `sets` are answered
from the stored slots. -/

/-- `range`, with `from` as `start`. -/
structure Range where
  start : ℚ
  length : ℤ
  step : ℚ
  deriving DecidableEq

namespace Range

/-- `sign/mod`: the truncated quotient, and the remainder signed as `x / y`. -/
def signMod (x y : ℚ) : ℤ × ℚ :=
  let z := truncate (x / y)
  let w := x - z * y
  (z, if y < 0 then -w else w)

/-- `<range>` -/
def make (a b step : ℚ) : Range :=
  let zw := signMod (b - a) step
  ⟨a, max (if zw.2 < 0 then zw.1 else zw.1 + 1) 0, step⟩

/-- `nth-unsafe` -/
def nth (r : Range) (i : ℕ) : ℚ := i * r.step + r.start

/-- The elements, `members` (`>array`). -/
def members (r : Range) : List ℚ := (List.range r.length.toNat).map r.nth

def Mem (r : Range) (x : ℚ) : Prop := ∃ i : ℕ, (i : ℤ) < r.length ∧ x = r.nth i

/-- `M: range sum`: the first and last element give the sum. -/
def sum (r : Range) : ℚ :=
  if r.length = 0 then 0 else r.length * (r.nth 0 + r.nth (r.length - 1).toNat) / 2

/-- `twiddle` -/
def twiddle (a b : ℚ) : ℚ := if a > b then -1 else 1

/-- `mod` on the rationals truncates, as on the integers. -/
def ratMod (x y : ℚ) : ℚ := x - truncate (x / y) * y

/-- `..b)`: the end is dropped when it lies on the progression. -/
def dropEnd (a b step : ℚ) : ℚ × ℚ × ℚ :=
  if ratMod (a - b) step = 0 then (a, b - step, step) else (a, b, step)

/-- `[a..b]` -/
def closed (a b : ℚ) : Range := make a b (twiddle a b)

/-- `(a..b]` -/
def leftOpen (a b : ℚ) : Range := make (a + twiddle a b) b (twiddle a b)

/-- `[a..b)` -/
def rightOpen (a b : ℚ) : Range :=
  let t := dropEnd a b (twiddle a b)
  make t.1 t.2.1 t.2.2

/-- `(a..b)` -/
def opened (a b : ℚ) : Range :=
  let t := dropEnd (a + twiddle a b) b (twiddle a b)
  make t.1 t.2.1 t.2.2

/-- `>range<`: first element, last element and step. -/
def ends (r : Range) : ℚ × ℚ × ℚ := (r.start, (r.length - 1) * r.step + r.start, r.step)

/-- `>forward-range<`: the ends in increasing order, with a positive step. -/
def forwardEnds (r : Range) : ℚ × ℚ × ℚ :=
  let e := r.ends
  if e.2.2 < 0 then (e.2.1, e.1, |e.2.2|) else e

/-- `forward-range` -/
def forward (r : Range) : Range :=
  let e := r.forwardEnds
  make e.1 e.2.1 e.2.2

/-- `empty-range` -/
def empty : Range := ⟨1, 0, 1⟩

/-- `M: range in?`: between the ends, and a whole number of steps from the first. -/
def inP (x : ℚ) (r : Range) : Bool :=
  let e := r.forwardEnds
  if e.1 ≤ x ∧ x ≤ e.2.1 then decide (x = e.1 + e.2.2 * truncate ((x - e.1) / e.2.2)) else false

/-- `M: range set=`: the normalised tuples, compared slot by slot (`tuple=`). -/
def setEq (r1 r2 : Range) : Bool :=
  let norm := fun r : Range => if r.length = 0 then empty else r.forward
  decide (norm r1 = norm r2)

theorem truncate_of_nonneg {q : ℚ} (h : 0 ≤ q) : truncate q = ⌊q⌋ := by
  rw [truncate, if_neg (not_lt.mpr h), Int.natCast_floor_eq_floor h]

theorem truncate_of_neg {q : ℚ} (h : q < 0) : truncate q = ⌈q⌉ := by
  rw [truncate, if_pos h, Int.natCast_floor_eq_floor (by linarith), Int.floor_neg, neg_neg]

section Make

variable {a b step : ℚ}

theorem signMod_snd (hstep : step ≠ 0) :
    (signMod (b - a) step).2 = ((b - a) / step - truncate ((b - a) / step)) * |step| := by
  have hba : b - a = (b - a) / step * step := by field_simp
  unfold signMod
  dsimp only
  generalize (b - a) / step = t at hba ⊢
  rw [hba]
  rcases lt_or_gt_of_ne hstep with hneg | hpos
  · rw [if_pos hneg, abs_of_neg hneg]
    ring
  · rw [if_neg (not_lt.mpr hpos.le), abs_of_pos hpos]
    ring

theorem make_length (hstep : step ≠ 0) : (make a b step).length = max (⌊(b - a) / step⌋ + 1) 0 := by
  have habs : 0 < |step| := abs_pos.mpr hstep
  show max (if (signMod (b - a) step).2 < 0 then truncate ((b - a) / step) else truncate ((b - a) / step) + 1) 0 = _
  rw [signMod_snd hstep]
  rcases le_or_gt 0 ((b - a) / step) with ht | ht
  · -- a quotient of at least 0 truncates to its floor and leaves no negative remainder
    rw [truncate_of_nonneg ht, if_neg (not_lt.mpr (mul_nonneg (sub_nonneg.mpr (Int.floor_le _)) habs.le))]
  · -- below 0 both lengths clamp to 0
    have hfloor : ⌊(b - a) / step⌋ < 0 := Int.floor_lt.mpr (by exact_mod_cast ht)
    have hceil : ⌈(b - a) / step⌉ ≤ 0 := Int.ceil_le.mpr (by exact_mod_cast ht.le)
    rw [truncate_of_neg ht]
    split_ifs with hrem
    · omega
    · -- no remainder: the quotient is the negative integer it rounds to
      have hle : (⌈(b - a) / step⌉ : ℚ) ≤ (b - a) / step := by
        by_contra hgt
        exact hrem (mul_neg_of_neg_of_pos (by linarith) habs)
      have hneg : ⌈(b - a) / step⌉ < 0 := by exact_mod_cast lt_of_le_of_lt hle ht
      omega

theorem index_lt_make_length (hstep : step ≠ 0) (i : ℕ) :
    (i : ℤ) < (make a b step).length ↔ (i : ℚ) ≤ (b - a) / step := by
  have h := Int.le_floor (z := (i : ℤ)) (a := (b - a) / step)
  rw [Int.cast_natCast] at h
  rw [make_length hstep, ← h]
  omega

theorem index_le_iff (hstep : step ≠ 0) (i : ℕ) :
    (i : ℚ) ≤ (b - a) / step ↔ (0 < step → a + i * step ≤ b) ∧ (step < 0 → b ≤ a + i * step) := by
  rcases lt_or_gt_of_ne hstep with hneg | hpos
  · rw [le_div_iff_of_neg hneg]
    exact ⟨fun h => ⟨fun hp => absurd hp (not_lt.mpr hneg.le), fun _ => by linarith⟩,
      fun h => by linarith [h.2 hneg]⟩
  · rw [le_div_iff₀ hpos]
    exact ⟨fun h => ⟨fun _ => by linarith, fun hn => absurd hn (not_lt.mpr hpos.le)⟩,
      fun h => by linarith [h.1 hpos]⟩

theorem mem_make (hstep : step ≠ 0) (x : ℚ) :
    (make a b step).Mem x ↔ ∃ i : ℕ, x = a + i * step ∧ (0 < step → x ≤ b) ∧ (step < 0 → b ≤ x) := by
  constructor
  · rintro ⟨i, hi, rfl⟩
    refine ⟨i, by rw [nth, add_comm]; rfl, ?_⟩
    have := (index_le_iff hstep i).mp ((index_lt_make_length hstep i).mp hi)
    rw [nth, add_comm]
    exact this
  · rintro ⟨i, rfl, hb⟩
    refine ⟨i, (index_lt_make_length hstep i).mpr ((index_le_iff hstep i).mpr hb), ?_⟩
    rw [nth, add_comm]
    rfl

theorem make_length_nonneg : 0 ≤ (make a b step).length := le_max_right _ _

end Make

theorem truncate_intCast (k : ℤ) : truncate k = k := by
  rcases lt_or_ge k 0 with hk | hk
  · rw [truncate_of_neg (by exact_mod_cast hk), Int.ceil_intCast]
  · rw [truncate_of_nonneg (by exact_mod_cast hk), Int.floor_intCast]

theorem mem_members (r : Range) (x : ℚ) : x ∈ r.members ↔ r.Mem x := by
  unfold members Mem
  rw [List.mem_map]
  constructor
  · rintro ⟨i, hi, rfl⟩
    exact ⟨i, by rw [List.mem_range] at hi; omega, rfl⟩
  · rintro ⟨i, hi, rfl⟩
    exact ⟨i, by rw [List.mem_range]; omega, rfl⟩

theorem floor_members_make_two (a b : ℤ) :
    (make a b 2).members.map (fun q => ⌊q⌋) = (List.range ((b - a) / 2 + 1).toNat).map fun i : ℕ => a + 2 * i := by
  have hlen : (make a b 2).length.toNat = ((b - a) / 2 + 1).toNat := by
    rw [make_length two_ne_zero]
    have hcast : ((b : ℚ) - a) / 2 = ((b - a : ℤ) : ℚ) / ((2 : ℕ) : ℚ) := by push_cast; ring
    rw [hcast, Rat.floor_intCast_div_natCast]
    omega
  rw [members, hlen, List.map_map]
  refine List.map_congr_left fun i _ => ?_
  show ⌊(i : ℚ) * 2 + a⌋ = a + 2 * i
  have hcast : (i : ℚ) * 2 + a = ((a + 2 * i : ℤ) : ℚ) := by push_cast; ring
  rw [hcast, Int.floor_intCast]

theorem sum_progression_mul_two (s c : ℚ) (n : ℕ) :
    ((List.range n).map (fun i : ℕ => (i : ℚ) * s + c)).sum * 2 = n * (c + ((n : ℚ) - 1) * s + c) := by
  induction n with
  | zero => simp
  | succ n ih =>
    rw [List.range_succ, List.map_append, List.sum_append, add_mul, ih]
    push_cast
    simp only [List.map_cons, List.map_nil, List.sum_cons, List.sum_nil, add_zero]
    ring

theorem sum_eq_sum_members (r : Range) (h : 0 ≤ r.length) : r.sum = r.members.sum := by
  have hsum := sum_progression_mul_two r.step r.start r.length.toNat
  unfold sum
  split_ifs with h0
  · rw [members, h0]
    rfl
  · have hlast : ((r.length - 1).toNat : ℚ) = (r.length.toNat : ℚ) - 1 := by
      have : (r.length - 1).toNat = r.length.toNat - 1 := by omega
      rw [this, Nat.cast_sub (by omega), Nat.cast_one]
    have hlen : ((r.length.toNat : ℕ) : ℚ) = (r.length : ℚ) := by exact_mod_cast Int.toNat_of_nonneg h
    unfold members nth
    rw [hlast, hlen, Nat.cast_zero, zero_mul, zero_add]
    rw [hlen] at hsum
    linarith

theorem sum_make (a b step : ℚ) : (make a b step).sum = (make a b step).members.sum :=
  sum_eq_sum_members _ make_length_nonneg

theorem forwardEnds_of_pos {r : Range} (h : 0 < r.step) :
    r.forwardEnds = (r.start, (r.length - 1) * r.step + r.start, r.step) :=
  if_neg (not_lt.mpr h.le)

theorem forwardEnds_of_neg {r : Range} (h : r.step < 0) :
    r.forwardEnds = ((r.length - 1) * r.step + r.start, r.start, -r.step) := by
  unfold forwardEnds ends
  rw [if_pos h, abs_of_neg h]

theorem mem_forward {r : Range} (hstep : r.step ≠ 0) (x : ℚ) : r.forward.Mem x ↔ r.Mem x := by
  rcases lt_or_gt_of_ne hstep with hneg | hpos
  · -- the progression read backwards from its last element
    unfold forward
    rw [forwardEnds_of_neg hneg, mem_make (neg_ne_zero.mpr hstep)]
    constructor
    · rintro ⟨j, rfl, hle, -⟩
      have hj : (j : ℚ) * -r.step ≤ -(r.length - 1) * r.step := by linarith [hle (neg_pos.mpr hneg)]
      have hjn : (j : ℤ) < r.length := by
        have : (j : ℚ) ≤ r.length - 1 := by nlinarith
        exact_mod_cast (show ((j : ℤ) : ℚ) < r.length by push_cast; linarith)
      refine ⟨(r.length - 1 - j).toNat, by omega, ?_⟩
      rw [nth]
      have : (((r.length - 1 - j).toNat : ℕ) : ℚ) = (r.length : ℚ) - 1 - j := by
        have h' : (((r.length - 1 - j).toNat : ℕ) : ℤ) = r.length - 1 - j := Int.toNat_of_nonneg (by omega)
        exact_mod_cast h'
      rw [this]
      ring
    · rintro ⟨i, hi, rfl⟩
      refine ⟨(r.length - 1 - i).toNat, ?_, fun _ => ?_, fun hn => absurd hn (by linarith)⟩
      · have : (((r.length - 1 - i).toNat : ℕ) : ℚ) = (r.length : ℚ) - 1 - i := by
          have h' : (((r.length - 1 - i).toNat : ℕ) : ℤ) = r.length - 1 - i := Int.toNat_of_nonneg (by omega)
          exact_mod_cast h'
        rw [nth, this]
        ring
      · rw [nth]
        have : (0 : ℚ) ≤ i := Nat.cast_nonneg i
        nlinarith
  · unfold forward
    rw [forwardEnds_of_pos hpos, mem_make hstep]
    constructor
    · rintro ⟨i, rfl, hle, -⟩
      have hi : (i : ℚ) * r.step ≤ (r.length - 1) * r.step := by linarith [hle hpos]
      have hin : (i : ℚ) ≤ r.length - 1 := le_of_mul_le_mul_right hi hpos
      refine ⟨i, ?_, by rw [nth]; ring⟩
      exact_mod_cast (show ((i : ℤ) : ℚ) < r.length by push_cast; linarith)
    · rintro ⟨i, hi, rfl⟩
      have hin : (i : ℚ) ≤ r.length - 1 := by
        have : (i : ℤ) ≤ r.length - 1 := by omega
        exact_mod_cast this
      refine ⟨i, by rw [nth]; ring, fun _ => ?_, fun hn => absurd hn (not_lt.mpr hpos.le)⟩
      rw [nth]
      nlinarith

theorem inP_iff_mem_make {s0 s1 d : ℚ} (hd : 0 < d) (x : ℚ) :
    (s0 ≤ x ∧ x ≤ s1 ∧ x = s0 + d * truncate ((x - s0) / d)) ↔ (make s0 s1 d).Mem x := by
  rw [mem_make hd.ne']
  constructor
  · rintro ⟨hlo, hhi, hx⟩
    have hq : 0 ≤ (x - s0) / d := div_nonneg (by linarith) hd.le
    have hk : 0 ≤ truncate ((x - s0) / d) := by rw [truncate_of_nonneg hq]; exact Int.floor_nonneg.mpr hq
    refine ⟨(truncate ((x - s0) / d)).toNat, ?_, fun _ => hhi, fun hn => absurd hn (not_lt.mpr hd.le)⟩
    have : (((truncate ((x - s0) / d)).toNat : ℕ) : ℚ) = truncate ((x - s0) / d) := by
      exact_mod_cast Int.toNat_of_nonneg hk
    rw [this, mul_comm]
    exact hx
  · rintro ⟨i, rfl, hhi, -⟩
    have hq : (s0 + i * d - s0) / d = ((i : ℤ) : ℚ) := by field_simp; push_cast; ring
    refine ⟨by nlinarith [(Nat.cast_nonneg i : (0 : ℚ) ≤ i)], hhi hd, ?_⟩
    rw [hq, truncate_intCast]
    push_cast
    ring

theorem inP_iff {r : Range} (hstep : r.step ≠ 0) (x : ℚ) : inP x r = true ↔ r.Mem x := by
  have hd : 0 < r.forwardEnds.2.2 := by
    rcases lt_or_gt_of_ne hstep with hneg | hpos
    · rw [forwardEnds_of_neg hneg]; exact neg_pos.mpr hneg
    · rw [forwardEnds_of_pos hpos]; exact hpos
  rw [← mem_forward hstep, forward, ← inP_iff_mem_make hd, inP]
  split_ifs with h
  · simp [h]
  · simp only [false_iff]
    exact fun h' => h ⟨h'.1, h'.2.1⟩

theorem mem_make_self {a step : ℚ} (hstep : step ≠ 0) (x : ℚ) : (make a a step).Mem x ↔ x = a := by
  rw [mem_make hstep]
  constructor
  · rintro ⟨i, rfl, hpos, hneg⟩
    have hi : (0 : ℚ) ≤ i := Nat.cast_nonneg i
    rcases lt_or_gt_of_ne hstep with h | h
    · have := hneg h
      have : (i : ℚ) * step = 0 := by nlinarith
      linarith
    · have := hpos h
      have : (i : ℚ) * step = 0 := by nlinarith
      linarith
  · rintro rfl
    exact ⟨0, by simp, fun _ => by simp, fun _ => by simp⟩

theorem ratMod_eq_zero_iff {x step : ℚ} (hstep : step ≠ 0) : ratMod x step = 0 ↔ ∃ k : ℤ, x = k * step := by
  unfold ratMod
  constructor
  · intro h
    exact ⟨truncate (x / step), by linarith⟩
  · rintro ⟨k, rfl⟩
    rw [mul_div_cancel_right₀ _ hstep, truncate_intCast, sub_self]

theorem mem_make_add_step {a b step : ℚ} (hstep : step ≠ 0) (x : ℚ) :
    (make (a + step) b step).Mem x ↔ (make a b step).Mem x ∧ x ≠ a := by
  rw [mem_make hstep, mem_make hstep]
  constructor
  · rintro ⟨i, rfl, h⟩
    refine ⟨⟨i + 1, by push_cast; ring, h⟩, fun heq => ?_⟩
    have : ((i : ℚ) + 1) * step = 0 := by linarith
    rcases mul_eq_zero.mp this with h0 | h0
    · linarith [(Nat.cast_nonneg i : (0 : ℚ) ≤ i)]
    · exact hstep h0
  · rintro ⟨⟨i, rfl, h⟩, hne⟩
    obtain ⟨j, rfl⟩ : ∃ j, i = j + 1 := Nat.exists_eq_succ_of_ne_zero fun h0 => hne (by simp [h0])
    exact ⟨j, by push_cast; ring, h⟩

theorem mem_make_dropEnd {a b step : ℚ} (hstep : step ≠ 0) (x : ℚ) :
    (make (dropEnd a b step).1 (dropEnd a b step).2.1 (dropEnd a b step).2.2).Mem x ↔
      (make a b step).Mem x ∧ x ≠ b := by
  unfold dropEnd
  split_ifs with hmod
  · obtain ⟨k, hk⟩ := (ratMod_eq_zero_iff hstep).mp hmod
    rw [mem_make hstep, mem_make hstep]
    constructor
    · rintro ⟨i, rfl, hp, hn⟩
      refine ⟨⟨i, rfl, fun h => by linarith [hp h], fun h => by linarith [hn h]⟩, fun heq => ?_⟩
      rcases lt_or_gt_of_ne hstep with h | h
      · linarith [hn h]
      · linarith [hp h]
    · rintro ⟨⟨i, rfl, hp, hn⟩, hne⟩
      have hdiff : a + i * step - b = ((k + i : ℤ) : ℚ) * step := by push_cast; linarith
      refine ⟨i, rfl, fun h => ?_, fun h => ?_⟩
      · have hlt : ((k + i : ℤ) : ℚ) * step < 0 := by
          rw [← hdiff]
          exact sub_neg.mpr (lt_of_le_of_ne (hp h) hne)
        have hki : k + i ≤ -1 := by
          have : ((k + i : ℤ) : ℚ) < 0 := by nlinarith
          have : k + i < 0 := by exact_mod_cast this
          omega
        have : ((k + i : ℤ) : ℚ) ≤ -1 := by exact_mod_cast hki
        nlinarith
      · have hlt : 0 < ((k + i : ℤ) : ℚ) * step := by
          rw [← hdiff]
          exact sub_pos.mpr (lt_of_le_of_ne (hn h) (Ne.symm hne))
        have hki : k + i ≤ -1 := by
          have : ((k + i : ℤ) : ℚ) < 0 := by nlinarith
          have : k + i < 0 := by exact_mod_cast this
          omega
        have : ((k + i : ℤ) : ℚ) ≤ -1 := by exact_mod_cast hki
        nlinarith
  · -- `b` is off the progression: no element equals it
    refine ⟨fun h => ⟨h, ?_⟩, fun h => h.1⟩
    obtain ⟨i, rfl, -⟩ := (mem_make hstep x).mp h
    intro heq
    exact hmod ((ratMod_eq_zero_iff hstep).mpr ⟨-i, by push_cast; linarith⟩)

theorem twiddle_ne_zero (a b : ℚ) : twiddle a b ≠ 0 := by
  unfold twiddle
  split_ifs <;> norm_num

theorem mem_closed (a b x : ℚ) :
    (closed a b).Mem x ↔ ∃ i : ℕ, x = a + i * twiddle a b ∧ min a b ≤ x ∧ x ≤ max a b := by
  unfold closed
  rw [mem_make (twiddle_ne_zero a b)]
  unfold twiddle
  have hi : ∀ i : ℕ, (0 : ℚ) ≤ i := fun i => Nat.cast_nonneg i
  split_ifs with hab
  · rw [min_eq_right hab.le, max_eq_left hab.le]
    constructor
    · rintro ⟨i, rfl, -, h⟩
      exact ⟨i, rfl, h (by norm_num), by linarith [hi i]⟩
    · rintro ⟨i, rfl, h, -⟩
      exact ⟨i, rfl, fun h' => absurd h' (by norm_num), fun _ => h⟩
  · rw [min_eq_left (not_lt.mp hab), max_eq_right (not_lt.mp hab)]
    constructor
    · rintro ⟨i, rfl, h, -⟩
      exact ⟨i, rfl, by linarith [hi i], h (by norm_num)⟩
    · rintro ⟨i, rfl, -, h⟩
      exact ⟨i, rfl, fun _ => h, fun h' => absurd h' (by norm_num)⟩

theorem mem_leftOpen (a b x : ℚ) : (leftOpen a b).Mem x ↔ (closed a b).Mem x ∧ x ≠ a :=
  mem_make_add_step (twiddle_ne_zero a b) x

theorem mem_rightOpen (a b x : ℚ) : (rightOpen a b).Mem x ↔ (closed a b).Mem x ∧ x ≠ b :=
  mem_make_dropEnd (twiddle_ne_zero a b) x

theorem mem_opened (a b x : ℚ) : (opened a b).Mem x ↔ (closed a b).Mem x ∧ x ≠ a ∧ x ≠ b := by
  unfold opened
  rw [mem_make_dropEnd (twiddle_ne_zero a b), mem_make_add_step (twiddle_ne_zero a b), and_assoc]
  rfl

theorem setEq_sound {r1 r2 : Range} (h1 : r1.step ≠ 0) (h2 : r2.step ≠ 0) (h : setEq r1 r2 = true) (x : ℚ) :
    r1.Mem x ↔ r2.Mem x := by
  have hnorm : ∀ r : Range, r.step ≠ 0 → ((if r.length = 0 then empty else r.forward).Mem x ↔ r.Mem x) := by
    intro r hr
    split_ifs with h0
    · exact ⟨fun ⟨i, hi, _⟩ => absurd hi (by simp [empty]), fun ⟨i, hi, _⟩ => absurd hi (by omega)⟩
    · exact mem_forward hr x
  have heq : (if r1.length = 0 then empty else r1.forward) = (if r2.length = 0 then empty else r2.forward) :=
    of_decide_eq_true h
  rw [← hnorm r1 h1, ← hnorm r2 h2, heq]

/-- `set=` compares the normalised slots, and a one-element range keeps its
step: `5 5 1 <range>` and `5 5 2 <range>` both hold `5` alone and are not `set=`. -/
theorem setEq_singletons_differ :
    (∀ x, (make 5 5 1).Mem x ↔ (make 5 5 2).Mem x) ∧ setEq (make 5 5 1) (make 5 5 2) = false :=
  ⟨fun x => (mem_make_self one_ne_zero x).trans (mem_make_self two_ne_zero x).symm, by decide +kernel⟩

end Range

end FactorProofs.Core
