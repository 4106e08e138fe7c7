import Mathlib.FieldTheory.Finite.Basic

namespace FactorProofs.PowMod

/-! Modular powers. The right-to-left binary method squares the base once per
bit and multiplies it into the accumulator at each set bit, so over a list of
bits it computes the power whose exponent the bits spell from the lowest.
Over a prime, Fermat's little theorem and the square roots of 1 make every
prime a strong probable prime to each base it does not divide. -/

/-- The number a list of bits spells, lowest bit first. -/
def ofBits : List Bool → ℕ
  | [] => 0
  | b :: bs => b.toNat + 2 * ofBits bs

theorem ofBits_map_testBit (k : ℕ) : ∀ y : ℕ, ofBits ((List.range k).map y.testBit) = y % 2 ^ k := by
  induction k with
  | zero => intro y; simp [ofBits, Nat.mod_one]
  | succ k ih =>
    intro y
    have hbit : (y.testBit 0).toNat = y % 2 := by
      rw [Nat.testBit_zero]
      rcases Nat.mod_two_eq_zero_or_one y with h | h <;> simp [h]
    have hrest : (List.range k).map (fun i => y.testBit (i + 1)) = (List.range k).map (y / 2).testBit := by
      refine List.map_congr_left fun i _ => ?_
      rw [Nat.testBit_succ]
    rw [List.range_succ_eq_map, List.map_cons, List.map_map, ofBits, Function.comp_def, hrest, ih, hbit,
      pow_succ', Nat.mod_mul]

section Ladder

variable {M : Type*} [Monoid M]

/-- One step of the binary method on (base, accumulator). -/
def ladderStep (p : M × M) (b : Bool) : M × M := (p.1 * p.1, if b then p.2 * p.1 else p.2)

theorem foldl_ladderStep (bits : List Bool) :
    ∀ x acc : M, bits.foldl ladderStep (x, acc) = (x ^ 2 ^ bits.length, acc * x ^ ofBits bits) := by
  induction bits with
  | nil => intro x acc; simp [ofBits]
  | cons b bs ih =>
    intro x acc
    have hsq : ∀ k, (x * x) ^ k = x ^ (2 * k) := fun k => by rw [← pow_two, ← pow_mul]
    rw [List.foldl_cons, ladderStep, ih, hsq, hsq, ← pow_succ', List.length_cons, ofBits]
    cases b with
    | false => simp
    | true => simp [pow_add, mul_assoc]

end Ladder

section SquareRoots

variable {R : Type*} [CommRing R] [NoZeroDivisors R]

theorem eq_one_or_exists_pow_two_pow_eq_neg_one {x : R} :
    ∀ r, x ^ 2 ^ r = 1 → x = 1 ∨ ∃ i, i < r ∧ x ^ 2 ^ i = -1
  | 0, h => Or.inl (by simpa using h)
  | r + 1, h => by
    have hsq : x ^ 2 ^ r * x ^ 2 ^ r = 1 := by rw [← pow_add, ← two_mul, ← pow_succ']; exact h
    rcases mul_self_eq_one_iff.mp hsq with h1 | hneg
    · rcases eq_one_or_exists_pow_two_pow_eq_neg_one r h1 with hx | ⟨i, hi, hx⟩
      · exact Or.inl hx
      · exact Or.inr ⟨i, by omega, hx⟩
    · exact Or.inr ⟨r, by omega, hneg⟩

end SquareRoots

/-- `n` passes the strong test to the base `a`, for `n - 1 = 2 ^ r * s`. -/
def IsStrongProbablePrime (n a r s : ℕ) : Prop :=
  a ^ s % n = 1 ∨ ∃ i, i < r ∧ a ^ (2 ^ i * s) % n = n - 1

theorem isStrongProbablePrime_of_prime {p a r s : ℕ} (hp : p.Prime) (ha : ¬p ∣ a)
    (hrs : p - 1 = 2 ^ r * s) : IsStrongProbablePrime p a r s := by
  have : Fact p.Prime := ⟨hp⟩
  have ha0 : (a : ZMod p) ≠ 0 := by rwa [Ne, ZMod.natCast_eq_zero_iff]
  have hfermat : ((a : ZMod p) ^ s) ^ 2 ^ r = 1 := by
    rw [← pow_mul, mul_comm, ← hrs]
    exact ZMod.pow_card_sub_one_eq_one ha0
  rcases eq_one_or_exists_pow_two_pow_eq_neg_one r hfermat with h1 | ⟨i, hi, hneg⟩
  · -- a ^ s is 1 modulo p
    left
    have hcast : ((a ^ s : ℕ) : ZMod p) = ((1 : ℕ) : ZMod p) := by push_cast; exact h1
    rwa [ZMod.natCast_eq_natCast_iff', Nat.mod_eq_of_lt hp.one_lt] at hcast
  · -- some a ^ (2 ^ i * s) is -1, which is p - 1 modulo p
    right
    refine ⟨i, hi, ?_⟩
    have hcast : ((a ^ (2 ^ i * s) : ℕ) : ZMod p) = ((p - 1 : ℕ) : ZMod p) := by
      rw [Nat.cast_sub hp.one_le, ZMod.natCast_self, zero_sub, Nat.cast_one, Nat.cast_pow, mul_comm,
        pow_mul]
      exact hneg
    rwa [ZMod.natCast_eq_natCast_iff', Nat.mod_eq_of_lt (Nat.sub_lt hp.pos one_pos)] at hcast

end FactorProofs.PowMod
