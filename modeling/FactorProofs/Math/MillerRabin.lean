import FactorProofs.Library.PowMod

namespace FactorProofs.Math.MillerRabin

open FactorProofs.PowMod

/-! math.primes.miller-rabin, with factor-2s and ^mod of math.functions. ^mod
runs the binary method over make-bits and reduces modulo `n` at each step.
Each trial of (miller-rabin) draws its base with random from
2 n 2 - [a..b]; the draws are a parameter, `draw k` being the base of the
trial `k`. -/

/-- The while loop of factor-2s on `r n`: halve while even. Halving an even
positive number takes at least one from it, so `n` is fuel enough. -/
def factor2sLoop : ℕ → ℕ → ℕ → ℕ × ℕ
  | 0, r, n => (r, n)
  | fuel + 1, r, n => if n % 2 = 0 then factor2sLoop fuel (r + 1) (n / 2) else (r, n)

/-- factor-2s: `n = 2 ^ r * s` with `s` odd, and `0 1` for 0. -/
def factor2s (n : ℕ) : ℕ × ℕ := if n = 0 then (0, 1) else factor2sLoop n 0 n

/-- make-bits: the bits of `y` from the lowest, `log2 y + 1` of them, and one
bit for 0. -/
def makeBits (y : ℕ) : List Bool :=
  (List.range (if y = 0 then 1 else Nat.log2 y + 1)).map y.testBit

/-- The quotation that (^mod) reduces over the bits, on the base and the
accumulator. -/
def powModStep (n : ℕ) (p : ℕ × ℕ) (b : Bool) : ℕ × ℕ :=
  (p.1 * p.1 % n, if b then p.2 * p.1 % n else p.2)

/-- ^mod at a nonnegative exponent, which is (^mod). -/
def powMod (x y n : ℕ) : ℕ := ((makeBits y).foldl (powModStep n) (x, 1)).2

/-- One trial of (miller-rabin) at the base `a`: true when `a` witnesses that
`n` is composite. -/
def trial (n r s a : ℕ) : Bool :=
  if powMod a s n = 1 then false
  else (List.range r).all fun i => powMod a (2 ^ i * s) n != n - 1

/-- (miller-rabin) with `trials` draws: none of them is a witness. -/
def millerRabinAux (n trials : ℕ) (draw : ℕ → ℕ) : Bool :=
  !(List.range trials).any fun k => trial n (factor2s (n - 1)).1 (factor2s (n - 1)).2 (draw k)

def millerRabinStar (n : ℤ) (numtrials : ℕ) (draw : ℕ → ℕ) : Bool :=
  if n ≤ 1 then false
  else if n % 2 = 0 then decide (n = 2)
  else millerRabinAux n.toNat numtrials draw

def millerRabin (n : ℤ) (draw : ℕ → ℕ) : Bool := millerRabinStar n 10 draw

/-- The values random answers for 2 n 2 - [a..b], a range that counts down
when `n - 2 < 2`. -/
def Drawable (n a : ℕ) : Prop := min 2 (n - 2) ≤ a ∧ a ≤ max 2 (n - 2)

instance (n a : ℕ) : Decidable (Drawable n a) := inferInstanceAs (Decidable (_ ∧ _))

theorem factor2sLoop_spec (fuel : ℕ) : ∀ r n, 0 < n → n ≤ fuel →
    2 ^ r * n = 2 ^ (factor2sLoop fuel r n).1 * (factor2sLoop fuel r n).2 ∧
      (factor2sLoop fuel r n).2 % 2 = 1 := by
  induction fuel with
  | zero => intro r n hn hf; omega
  | succ fuel ih =>
    intro r n hn hf
    rw [factor2sLoop]
    split_ifs with h2
    · -- n = 2 * (n / 2), and n / 2 is positive and within the fuel left
      obtain ⟨he, hodd⟩ := ih (r + 1) (n / 2) (by omega) (by omega)
      refine ⟨?_, hodd⟩
      rw [← he, pow_succ, mul_assoc, Nat.mul_div_cancel' (Nat.dvd_of_mod_eq_zero h2)]
    · exact ⟨rfl, by omega⟩

theorem factor2s_spec {n : ℕ} (hn : 0 < n) :
    n = 2 ^ (factor2s n).1 * (factor2s n).2 ∧ (factor2s n).2 % 2 = 1 := by
  rw [factor2s, if_neg (by omega)]
  have h := factor2sLoop_spec n 0 n hn le_rfl
  rwa [pow_zero, one_mul] at h

theorem ofBits_makeBits (y : ℕ) : ofBits (makeBits y) = y := by
  rw [makeBits, ofBits_map_testBit]
  split_ifs with hy
  · subst hy
    rfl
  · exact Nat.mod_eq_of_lt (Nat.lt_log2_self)

theorem cast_powModStep (n : ℕ) (p : ℕ × ℕ) (b : Bool) :
    Prod.map (Nat.cast : ℕ → ZMod n) Nat.cast (powModStep n p b) =
      ladderStep (Prod.map (Nat.cast : ℕ → ZMod n) Nat.cast p) b := by
  cases b <;> simp [powModStep, ladderStep]

theorem foldl_powModStep_lt {n : ℕ} (bits : List Bool) :
    ∀ p : ℕ × ℕ, p.2 < n → (bits.foldl (powModStep n) p).2 < n := by
  induction bits with
  | nil => intro p hp; exact hp
  | cons b bs ih =>
    intro p hp
    refine ih _ ?_
    cases b
    · exact hp
    · exact Nat.mod_lt _ (by omega)

theorem powMod_eq {n : ℕ} (hn : 1 < n) (x y : ℕ) : powMod x y n = x ^ y % n := by
  have hcast : ((powMod x y n : ℕ) : ZMod n) = ((x ^ y : ℕ) : ZMod n) := by
    have hfold := @List.foldl_hom _ _ _ (Prod.map (Nat.cast : ℕ → ZMod n) Nat.cast) _ _ (makeBits y)
      (x, 1) fun p b => (cast_powModStep n p b).symm
    have h2 := congrArg Prod.snd hfold
    simp only [Prod.map_apply, Prod.map_snd, Nat.cast_one, foldl_ladderStep, one_mul, ofBits_makeBits] at h2
    rw [powMod, ← h2, Nat.cast_pow]
  have hlt : powMod x y n < n := foldl_powModStep_lt _ _ hn
  rw [ZMod.natCast_eq_natCast_iff', Nat.mod_eq_of_lt hlt] at hcast
  exact hcast

theorem trial_eq_false_iff {n : ℕ} (hn : 1 < n) (r s a : ℕ) :
    trial n r s a = false ↔ IsStrongProbablePrime n a r s := by
  simp only [trial, powMod_eq hn, IsStrongProbablePrime]
  split_ifs with h1
  · exact ⟨fun _ => Or.inl h1, fun _ => rfl⟩
  · simp [h1]

theorem not_dvd_of_drawable {p a : ℕ} (hp3 : 3 ≤ p) (ha : Drawable p a) : ¬p ∣ a := by
  obtain ⟨hlo, hhi⟩ := ha
  have h1 : 1 ≤ a := le_trans (by omega) hlo
  have h2 : a < p := lt_of_le_of_lt hhi (by omega)
  exact fun hd => absurd (Nat.le_of_dvd (by omega) hd) (by omega)

theorem millerRabinAux_of_prime {p : ℕ} (hp : p.Prime) (hp3 : 3 ≤ p) (trials : ℕ) (draw : ℕ → ℕ)
    (hdraw : ∀ k, k < trials → Drawable p (draw k)) : millerRabinAux p trials draw = true := by
  have hrs := (factor2s_spec (show 0 < p - 1 by omega)).1
  rw [millerRabinAux, Bool.not_eq_true', List.any_eq_false]
  intro k hk
  rw [Bool.not_eq_true, trial_eq_false_iff hp.one_lt]
  exact isStrongProbablePrime_of_prime hp (not_dvd_of_drawable hp3 (hdraw k (List.mem_range.mp hk))) hrs

theorem millerRabinStar_of_prime {p : ℕ} (hp : p.Prime) (numtrials : ℕ) (draw : ℕ → ℕ)
    (hdraw : ∀ k, k < numtrials → Drawable p (draw k)) : millerRabinStar p numtrials draw = true := by
  have h2 := hp.two_le
  rw [millerRabinStar, if_neg (by omega)]
  split_ifs with heven
  · -- the even prime is 2
    have : p = 2 := (Nat.Prime.eq_one_or_self_of_dvd hp 2 (by omega)).resolve_left (by norm_num) |>.symm
    simp [this]
  · exact millerRabinAux_of_prime hp (by omega) numtrials draw hdraw

end FactorProofs.Math.MillerRabin
