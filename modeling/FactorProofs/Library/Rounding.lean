import Mathlib.Algebra.Order.Floor.Semifield
import Mathlib.Tactic.FieldSimp
import Mathlib.Data.Nat.Cast.Field
import Mathlib.Tactic.Linarith
import Mathlib.Tactic.Ring

namespace FactorProofs.Rounding

/-! Rounding a non-negative quantity to an integer, to nearest with ties to
even, when the quantity is known only through its floor and a sticky flag that
says whether anything was cut off below it: the guard bit and the sticky bit of
a binary rounder. -/

variable {K : Type*} [Field K] [LinearOrder K] [IsStrictOrderedRing K] [FloorSemiring K]

/-- `n` is the floor of `x ≥ 0`, and `sticky` says whether `x` is not an integer. -/
structure StickyFloor (x : K) (n : ℕ) (sticky : Bool) : Prop where
  nonneg : 0 ≤ x
  floor_eq : ⌊x⌋₊ = n
  sticky_iff : sticky = true ↔ (n : K) ≠ x

theorem StickyFloor.natCast (n : ℕ) : StickyFloor (n : K) n false :=
  ⟨n.cast_nonneg, Nat.floor_natCast n, by simp⟩

omit [IsStrictOrderedRing K] in
theorem StickyFloor.le {x : K} {n : ℕ} {sticky : Bool} (h : StickyFloor x n sticky) : (n : K) ≤ x :=
  h.floor_eq ▸ Nat.floor_le h.nonneg

omit [IsStrictOrderedRing K] in
theorem StickyFloor.lt_add_one {x : K} {n : ℕ} {sticky : Bool} (h : StickyFloor x n sticky) : x < n + 1 :=
  h.floor_eq ▸ Nat.lt_floor_add_one x

omit [IsStrictOrderedRing K] in
theorem StickyFloor.eq_of_sticky_false {x : K} {n : ℕ} (h : StickyFloor x n false) : (n : K) = x := by
  by_contra hne
  exact absurd (h.sticky_iff.mpr hne) Bool.false_ne_true

theorem StickyFloor.div_natCast {x : K} {n : ℕ} {sticky : Bool} (h : StickyFloor x n sticky)
    {d : ℕ} (hd : 0 < d) : StickyFloor (x / d) (n / d) (sticky || n % d != 0) := by
  have hd' : (d : K) ≠ 0 := by positivity
  refine ⟨div_nonneg h.nonneg d.cast_nonneg, by rw [Nat.floor_div_natCast, h.floor_eq], ?_⟩
  rw [Bool.or_eq_true, h.sticky_iff, bne_iff_ne]
  constructor
  · intro hsticky hq
    have hx : x = ((d * (n / d) : ℕ) : K) := by
      rw [Nat.cast_mul, hq]
      field_simp
    have hn : d * (n / d) = n := by
      have hfl := h.floor_eq
      rw [hx, Nat.floor_natCast] at hfl
      exact hfl
    rcases hsticky with hne | hmod
    · exact hne (by rw [hx, hn])
    · exact hmod (by rw [← hn, Nat.mul_mod_right])
  · intro hq
    by_cases hx : (n : K) = x
    · exact Or.inr fun hmod => hq (by rw [Nat.cast_div (Nat.dvd_of_mod_eq_zero hmod) hd', hx])
    · exact Or.inl hx

theorem StickyFloor.mul_zpow_sub {y : K} {k : ℤ} {num : ℕ} {sticky : Bool}
    (h : StickyFloor (y * 2 ^ k) num sticky) (j : ℕ) :
    StickyFloor (y * 2 ^ (k - j)) (num / 2 ^ j) (sticky || num % 2 ^ j != 0) := by
  have hdiv := h.div_natCast (Nat.two_pow_pos j)
  have hval : y * 2 ^ k / ((2 ^ j : ℕ) : K) = y * 2 ^ (k - j) := by
    rw [zpow_sub₀ two_ne_zero, Nat.cast_pow, Nat.cast_ofNat, zpow_natCast, mul_div_assoc]
  rw [hval] at hdiv
  exact hdiv

/-- The integer nearest to `y ≥ 0`, and the even one of the two at a tie. -/
def roundHalfEven (y : K) : ℕ :=
  let f := ⌊y⌋₊
  if y - f < 1 / 2 then f
  else if 1 / 2 < y - f then f + 1
  else if f % 2 = 0 then f else f + 1

omit [IsStrictOrderedRing K] in
theorem floor_le_roundHalfEven (y : K) : ⌊y⌋₊ ≤ roundHalfEven y := by
  unfold roundHalfEven
  dsimp only
  split_ifs <;> omega

omit [IsStrictOrderedRing K] in
theorem roundHalfEven_le_floor_add_one (y : K) : roundHalfEven y ≤ ⌊y⌋₊ + 1 := by
  unfold roundHalfEven
  dsimp only
  split_ifs <;> omega

omit [IsStrictOrderedRing K] in
theorem roundHalfEven_le_of_lt {y : K} {N : ℕ} (hy : 0 ≤ y) (h : y < N) : roundHalfEven y ≤ N := by
  have hfloor : ⌊y⌋₊ < N := (Nat.floor_lt hy).mpr h
  have := roundHalfEven_le_floor_add_one y
  omega

omit [IsStrictOrderedRing K] in
theorem le_roundHalfEven_of_le {y : K} {N : ℕ} (h : (N : K) ≤ y) : N ≤ roundHalfEven y :=
  (Nat.le_floor h).trans (floor_le_roundHalfEven y)

theorem roundHalfEven_half {t : K} {Q : ℕ} {sticky : Bool} (h : StickyFloor t Q sticky) :
    roundHalfEven (t / 2) = Q / 2 + if Q % 2 = 1 ∧ (sticky = true ∨ Q / 2 % 2 = 1) then 1 else 0 := by
  have hfloor : ⌊t / 2⌋₊ = Q / 2 := by
    have := Nat.floor_div_natCast t 2
    rw [Nat.cast_ofNat, h.floor_eq] at this
    exact this
  have hQ : (Q : K) = 2 * ((Q / 2 : ℕ) : K) + ((Q % 2 : ℕ) : K) := by
    exact_mod_cast (Nat.div_add_mod Q 2).symm
  have hfrac : t / 2 - ((Q / 2 : ℕ) : K) = (((Q % 2 : ℕ) : K) + (t - Q)) / 2 := by
    rw [hQ]
    ring
  have hlo : 0 ≤ t - Q := sub_nonneg.mpr h.le
  have hhi : t - Q < 1 := by linarith [h.lt_add_one]
  unfold roundHalfEven
  dsimp only
  simp only [hfloor, hfrac]
  rcases Nat.mod_two_eq_zero_or_one Q with hg | hg
  · have hbelow : (((Q % 2 : ℕ) : K) + (t - Q)) / 2 < 1 / 2 := by
      rw [hg, Nat.cast_zero]
      linarith
    rw [if_pos hbelow, if_neg (by omega), Nat.add_zero]
  · have hnot : ¬ (((Q % 2 : ℕ) : K) + (t - Q)) / 2 < 1 / 2 := by
      rw [hg, Nat.cast_one]
      linarith
    rw [if_neg hnot]
    cases hs : sticky
    · -- an exact tie goes to the even neighbour
      have ht : t - Q = 0 := by rw [(hs ▸ h : StickyFloor t Q false).eq_of_sticky_false, sub_self]
      have hnot' : ¬ (1 : K) / 2 < (((Q % 2 : ℕ) : K) + (t - Q)) / 2 := by
        rw [hg, ht, Nat.cast_one]
        norm_num
      rw [if_neg hnot']
      simp only [Bool.false_eq_true, false_or, hg, true_and]
      split_ifs <;> omega
    · have hpos : 0 < t - Q := lt_of_le_of_ne hlo (sub_ne_zero.mpr (h.sticky_iff.mp hs).symm).symm
      have habove : (1 : K) / 2 < (((Q % 2 : ℕ) : K) + (t - Q)) / 2 := by
        rw [hg, Nat.cast_one]
        linarith
      rw [if_pos habove, if_pos ⟨hg, Or.inl rfl⟩]

end FactorProofs.Rounding
