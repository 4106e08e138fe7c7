import Mathlib.Data.Int.GCD
import Mathlib.Tactic.Ring
import Mathlib.Tactic.LinearCombination

namespace FactorProofs.Math

/-! `gcd` of `math` and the modular words `mod-inv` and `^mod` of
`math.functions` built on it. `/mod` on integers truncates, so a remainder
takes the sign of its dividend. -/

/-- `(gcd) ( b a x y -- a d )`: divide `y` by `x`, with `b` and `a` the
cofactors that carry `y` and `x`. -/
def gcdAux (b a x y : Int) : Int × Int :=
  if x = 0 then (b, y)
  else gcdAux a (b - y.tdiv x * a) (y.tmod x) x
termination_by x.natAbs
decreasing_by
  rw [Int.natAbs_tmod]
  exact Nat.mod_lt _ (Int.natAbs_pos.mpr ‹_›)

/-- `gcd ( x y -- a d )`: only `d` is made nonnegative. -/
def gcd (x y : Int) : Int × Int :=
  let r := gcdAux 0 1 x y
  (r.1, if r.2 < 0 then -r.2 else r.2)

/-- `>positive-mod`. -/
def positiveMod (x n : Int) : Int := if x < 0 then x + n else x

/-- `mod-inv`; `none` where the word throws `non-trivial-divisor`. -/
def modInv (x n : Int) : Option Int :=
  if (gcd x n).2 = 1 then some (positiveMod (gcd x n).1 n) else none

/-- `make-bits`: the bits of `n`, lowest first; zero has one bit. -/
def makeBits (n : Nat) : List Bool :=
  if n = 0 then [false] else (List.range (n.log2 + 1)).map n.testBit

/-- `(^mod)`: square and multiply over the bits of `y`, with `mod` after
each product. -/
def powModAux (x : Int) (y : Nat) (n : Int) : Int :=
  ((makeBits y).foldl
    (fun (acc : Int × Int) bit => ((acc.1 * acc.1).tmod n, if bit then (acc.2 * acc.1).tmod n else acc.2))
    (x, 1)).2

/-- `^mod`: a negative exponent inverts the power of the base. -/
def powMod (x y n : Int) : Option Int :=
  if y < 0 then modInv (powModAux x (-y).toNat n) n else some (powModAux x y.toNat n)

theorem gcdAux_zero (b a y : Int) : gcdAux b a 0 y = (b, y) := by
  rw [gcdAux, if_pos rfl]

theorem gcdAux_of_ne {b a x y : Int} (hx : x ≠ 0) :
    gcdAux b a x y = gcdAux a (b - y.tdiv x * a) (y.tmod x) x := by
  rw [gcdAux, if_neg hx]

section Invariant

variable {x₀ y₀ : Int}

theorem dvd_step {b a x y : Int} (hb : y₀ ∣ b * x₀ - y) (ha : y₀ ∣ a * x₀ - x) :
    y₀ ∣ (b - y.tdiv x * a) * x₀ - y.tmod x := by
  have hsplit := Int.tmod_add_mul_tdiv y x
  have heq : (b - y.tdiv x * a) * x₀ - y.tmod x = (b * x₀ - y) - y.tdiv x * (a * x₀ - x) := by
    linear_combination -hsplit
  rw [heq]
  exact Int.dvd_sub hb (dvd_mul_of_dvd_right ha _)

theorem gcd_tmod (x y : Int) : Int.gcd (y.tmod x) x = Int.gcd x y := by
  have hsplit : y.tmod x = y + x * -y.tdiv x := by
    have := Int.tmod_add_mul_tdiv y x
    linear_combination this
  rw [hsplit, Int.gcd_comm, Int.gcd_add_mul_left_right]

theorem gcdAux_spec (b a x y : Int) (hb : y₀ ∣ b * x₀ - y) (ha : y₀ ∣ a * x₀ - x) :
    y₀ ∣ (gcdAux b a x y).1 * x₀ - (gcdAux b a x y).2 ∧ (gcdAux b a x y).2.natAbs = Int.gcd x y := by
  induction b, a, x, y using gcdAux.induct with
  | case1 b a y =>
    rw [gcdAux_zero]
    exact ⟨hb, by rw [Int.gcd_zero_left]⟩
  | case2 b a x y hx ih =>
    rw [gcdAux_of_ne hx, ← gcd_tmod]
    exact ih ha (dvd_step hb ha)

theorem gcdAux_nonneg (b a x y : Int) (hx : 0 ≤ x) (hy : 0 ≤ y) : 0 ≤ (gcdAux b a x y).2 := by
  induction b, a, x, y using gcdAux.induct with
  | case1 b a y => rw [gcdAux_zero]; exact hy
  | case2 b a x y hne ih =>
    rw [gcdAux_of_ne hne]
    exact ih (Int.tmod_nonneg x hy) hx

end Invariant

/-- `gcd` returns the gcd, and its cofactor gives `a * x ≡ d` or `a * x ≡ -d`
modulo `y`, by the sign of the last remainder. -/
theorem gcd_spec (x y : Int) :
    (gcd x y).2 = Int.gcd x y ∧ (y ∣ (gcd x y).1 * x - (gcd x y).2 ∨ y ∣ (gcd x y).1 * x + (gcd x y).2) := by
  obtain ⟨hdvd, habs⟩ := @gcdAux_spec x y 0 1 x y (by simp) (by simp)
  simp only [gcd]
  split
  · rename_i hneg
    refine ⟨by omega, Or.inr ?_⟩
    rwa [sub_eq_add_neg] at hdvd
  · exact ⟨by omega, Or.inl hdvd⟩

theorem gcd_law_of_nonneg {x y : Int} (hx : 0 ≤ x) (hy : 0 ≤ y) : y ∣ (gcd x y).1 * x - (gcd x y).2 := by
  obtain ⟨hdvd, -⟩ := @gcdAux_spec x y 0 1 x y (by simp) (by simp)
  have hnonneg := gcdAux_nonneg 0 1 x y hx hy
  simp only [gcd, if_neg (not_lt.mpr hnonneg)]
  exact hdvd

theorem dvd_positiveMod_sub (a n : Int) : n ∣ positiveMod a n - a := by
  unfold positiveMod
  split
  · simp
  · simp

/-- On a nonnegative number `mod-inv` returns an inverse modulo `n`. -/
theorem modInv_spec_of_nonneg {x n y : Int} (hx : 0 ≤ x) (hn : 0 ≤ n) (h : modInv x n = some y) :
    n ∣ x * y - 1 := by
  unfold modInv at h
  split at h
  · rename_i hone
    have hlaw := gcd_law_of_nonneg hx hn
    rw [hone] at hlaw
    obtain rfl := Option.some.inj h
    have heq : x * positiveMod (gcd x n).1 n - 1 =
        ((gcd x n).1 * x - 1) + x * (positiveMod (gcd x n).1 n - (gcd x n).1) := by ring
    rw [heq]
    exact Int.dvd_add hlaw (dvd_mul_of_dvd_right (dvd_positiveMod_sub _ _) x)
  · cases h

theorem modInv_spec_three_seven :
    0 ≤ (3 : Int) ∧ 0 ≤ (7 : Int) ∧ modInv 3 7 = some 5 ∧ (7 : Int) ∣ 3 * 5 - 1 :=
  have h : modInv 3 7 = some 5 := by simp [modInv, gcd, gcdAux, positiveMod]
  ⟨by decide, by decide, h, modInv_spec_of_nonneg (by decide) (by decide) h⟩

/-- The truncated remainders of `-132 64 gcd` end at `-4`: `gcd` negates `d` but
keeps `a = 1`, and `1 * -132 - 4` is not a multiple of `64`. The same sign
makes `-5 7 mod-inv` return `3`, which is no inverse of `-5`, and with it
`-5 -1 7 ^mod`. -/
theorem gcd_negative_cofactor_law_fails :
    gcd (-132) 64 = (1, 4) ∧ ¬ (64 : Int) ∣ 1 * -132 - 4 ∧
      modInv (-5) 7 = some 3 ∧ ¬ (7 : Int) ∣ 3 * -5 - 1 ∧
      powMod (-5) (-1) 7 = some 3 ∧ (7 : Int) ∣ -5 * 4 - 1 ∧ ¬ (7 : Int) ∣ 3 - 4 := by
  have hmodInv : modInv (-5) 7 = some 3 := by
    simp [modInv, gcd, gcdAux_of_ne, gcdAux_zero, positiveMod]
  have hpow : powModAux (-5) 1 7 = -5 := by decide
  refine ⟨by simp [gcd, gcdAux_of_ne, gcdAux_zero], by decide, hmodInv, by decide, ?_, by decide, by decide⟩
  rw [powMod, if_pos (by decide), show (-(-1 : Int)).toNat = 1 from rfl, hpow, hmodInv]

end FactorProofs.Math
