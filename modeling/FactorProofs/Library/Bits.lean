import Mathlib.Tactic.NormNum
import Mathlib.Data.Nat.Find
import Mathlib.Data.BitVec
import Mathlib.Data.Rat.Floor

namespace FactorProofs.Bits

open BitVec

variable {w : Nat}

theorem toNat_lowMask {k : Nat} (hk : k < w) : (1#w <<< k - 1).toNat = 2 ^ k - 1 := by
  have hpow : 2 ^ k < 2 ^ w := Nat.pow_lt_pow_right (by decide) hk
  have hone : (1 : BitVec w).toNat = 1 := by
    rw [show (1 : BitVec w) = 1#w from rfl, toNat_ofNat,
      Nat.mod_eq_of_lt (Nat.one_lt_two_pow (n := w) (by omega))]
  rw [← twoPow_eq, toNat_sub, toNat_twoPow_of_lt hk, hone]
  have h1 : 1 ≤ 2 ^ k := Nat.one_le_two_pow
  rw [show 2 ^ w - 1 + 2 ^ k = 2 ^ w + (2 ^ k - 1) by omega, Nat.add_mod_left,
    Nat.mod_eq_of_lt (by omega)]

theorem getLsbD_lowMask {k : Nat} (hk : k < w) (i : Nat) :
    (1#w <<< k - 1).getLsbD i = decide (i < k) := by
  rw [getLsbD, toNat_lowMask hk, Nat.testBit_two_pow_sub_one]

theorem lowMask_eq_zero_iff {k : Nat} (hk : k < w) : 1#w <<< k - 1 = 0 ↔ k = 0 := by
  constructor
  · intro h
    have := congrArg BitVec.toNat h
    rw [toNat_lowMask hk] at this
    simp only [ofNat_eq_ofNat, toNat_ofNat, Nat.zero_mod] at this
    have h2 : 2 ^ k ≤ 2 ^ 0 := by omega
    exact Nat.le_zero.mp ((Nat.pow_le_pow_iff_right (by decide)).mp h2)
  · rintro rfl
    apply eq_of_toNat_eq
    rw [toNat_lowMask hk]
    simp

theorem and_not_add_one_eq_twoPow {x : BitVec w} {k : Nat} (hk : x.getLsbD k = true)
    (hlow : ∀ j < k, x.getLsbD j = false) : x &&& (~~~x + 1) = twoPow w k := by
  have hkw : k < w := lt_of_getLsbD hk
  rw [show (1 : BitVec w) = 1#w from rfl, ← neg_eq_not_add]
  apply eq_of_getLsbD_eq
  intro i hi
  rw [getLsbD_and, getLsbD_neg, getLsbD_twoPow]
  rcases Nat.lt_trichotomy i k with hik | rfl | hki
  · simp [hlow i hik, Nat.ne_of_gt hik]
  · have hnone : ¬∃ j < i, x.getLsbD j = true := fun ⟨j, hj, hx⟩ => by simp [hlow j hj] at hx
    simp [hk, hnone, hi]
  · have hsome : ∃ j < i, x.getLsbD j = true := ⟨k, hki, hk⟩
    cases hx : x.getLsbD i <;> simp [hsome, hi, Nat.ne_of_lt hki]

theorem ushiftRight_eq_zero {x : BitVec w} {b : Nat}
    (h : ∀ j, b ≤ j → j < w → x.getLsbD j = false) : x >>> b = 0 := by
  apply eq_of_getLsbD_eq
  intro j hj
  rw [getLsbD_ushiftRight, show (0 : BitVec w) = 0#w from rfl, getLsbD_zero]
  by_cases hbj : b + j < w
  · exact h _ (by omega) hbj
  · exact getLsbD_of_ge _ _ (by omega)

theorem getLsbD_sshiftRight_of_lt {x : BitVec w} {b j : Nat} (h : b + j < w) :
    (x.sshiftRight b).getLsbD j = x.getLsbD (b + j) := by
  rw [getLsbD_sshiftRight, if_pos h]
  simp [show ¬w ≤ j by omega]

theorem not_sshiftRight_eq_zero {x : BitVec w} {b : Nat} (hb : b < w)
    (h : ∀ j, b ≤ j → j < w → x.getLsbD j = true) : ~~~(x.sshiftRight b) = 0 := by
  apply eq_of_getLsbD_eq
  intro j hj
  have hmsb : x.msb = true := by
    rw [msb_eq_getLsbD_last]
    exact h _ (by omega) (by omega)
  rw [getLsbD_not, getLsbD_sshiftRight, show (0 : BitVec w) = 0#w from rfl, getLsbD_zero]
  by_cases hbj : b + j < w
  · simp [hj, hbj, h (b + j) (by omega) hbj]
  · simp [hj, hbj, hmsb]

theorem log2_twoPow {k : Nat} (hk : k < w) : (twoPow w k).toNat.log2 = k := by
  rw [toNat_twoPow_of_lt hk, Nat.log2_two_pow]

theorem cpopNatRec_and_lowMask {x : BitVec w} {k : Nat} (hk : k < w) (n acc : Nat) :
    (x &&& (1#w <<< k - 1)).cpopNatRec n acc = x.cpopNatRec (min n k) acc := by
  induction n generalizing acc with
  | zero => simp
  | succ n ih =>
    rw [cpopNatRec_succ, ih, getLsbD_and, getLsbD_lowMask hk]
    by_cases hn : n < k
    · rw [show min (n + 1) k = min n k + 1 by omega, cpopNatRec_succ, show min n k = n by omega]
      simp [hn]
    · rw [show min (n + 1) k = min n k by omega]
      simp [hn]

theorem cpopNatRec_eq_countP (x : BitVec w) (n : Nat) :
    x.cpopNatRec n 0 = (List.range n).countP (fun i => x.getLsbD i) := by
  induction n with
  | zero => rfl
  | succ n ih =>
    rw [cpopNatRec_succ, cpopNatRec_add, ih, List.range_succ, List.countP_append]
    cases h : x.getLsbD n <;> simp [h]

theorem sshiftRight_sub_one_eq (z : BitVec w) :
    z.sshiftRight (w - 1) = if z.msb then allOnes w else 0 := by
  ext i hi
  rw [getElem_sshiftRight]
  split
  · -- only the lowest bit of the result reads a bit of `z`, its top one
    have hi0 : w - 1 + i = w - 1 := by omega
    simp only [hi0, ← getLsbD_eq_getElem, ← msb_eq_getLsbD_last]
    cases z.msb <;> simp [hi]
  · cases z.msb <;> simp

theorem and_sshiftRight_sub_one (z : BitVec w) :
    z &&& z.sshiftRight (w - 1) = if z.msb then z else 0 := by
  rw [sshiftRight_sub_one_eq]
  split <;> simp

theorem xor_sshiftRight_sub_sshiftRight (z : BitVec w) :
    (z ^^^ z.sshiftRight (w - 1)) - z.sshiftRight (w - 1) = if z.msb then -z else z := by
  rw [sshiftRight_sub_one_eq]
  split
  · rw [xor_allOnes, ← neg_one_eq_allOnes, BitVec.sub_eq_add_neg, BitVec.neg_neg, BitVec.neg_eq_not_add]
  · simp

theorem neg_shiftLeft_eq_not_lowMask (k : Nat) : -(1#w <<< k) = ~~~(1#w <<< k - 1) := by
  have hnot := neg_eq_not_add (1#w <<< k - 1)
  rw [← sub_eq_iff_eq_add] at hnot
  rw [← hnot]
  simp only [ofNat_eq_ofNat]
  ring

theorem getLsbD_and_not_lowMask {k : Nat} (hk : k < w) (z : BitVec w) (i : Nat) :
    (z &&& ~~~(1#w <<< k - 1)).getLsbD i = (z.toNat.testBit i && decide (k ≤ i)) := by
  rw [getLsbD_and, getLsbD_not, getLsbD_lowMask hk, getLsbD]
  by_cases hiw : i < w
  · by_cases hik : i < k <;> simp [hiw, hik, Nat.not_lt.mp]
  · have hfalse : z.toNat.testBit i = false :=
      Nat.testBit_lt_two_pow (z.isLt.trans_le (Nat.pow_le_pow_right (by decide) (by omega)))
    simp [hfalse]

theorem and_neg_shiftLeft_eq_zero_iff {k : Nat} (hk : k < w) (z : BitVec w) :
    z &&& -(1#w <<< k) = 0 ↔ z.toNat < 2 ^ k := by
  rw [neg_shiftLeft_eq_not_lowMask]
  constructor
  · intro h
    apply Nat.lt_pow_two_of_testBit
    intro i hi
    have hbit := getLsbD_and_not_lowMask hk z i
    rw [h] at hbit
    simpa [hi] using hbit.symm
  · intro h
    apply eq_of_getLsbD_eq
    intro i _
    rw [getLsbD_and_not_lowMask hk]
    by_cases hik : k ≤ i
    · simp [Nat.testBit_lt_two_pow (h.trans_le (Nat.pow_le_pow_right (by decide) hik))]
    · simp [hik]

theorem ediv_eq_neg_ediv_not {d : Int} (hd : 0 < d) (a : Int) : a / d = -((-a - 1) / d) - 1 := by
  have hsplit := Int.mul_ediv_add_emod (-a - 1) d
  have hlt := Int.emod_lt_of_pos (-a - 1) hd
  have hnonneg := Int.emod_nonneg (-a - 1) hd.ne'
  have hunique : a / d = -((-a - 1) / d) - 1 ∧ a % d = d - (-a - 1) % d - 1 :=
    (Int.ediv_emod_unique hd).mpr ⟨by linarith, by omega, by omega⟩
  exact hunique.1

theorem ediv_two_pow_of_bounds {a : Int} {k : Nat} (hlo : -2 ^ k ≤ a) (hhi : a < 2 ^ k) :
    a / 2 ^ k = if a < 0 then -1 else 0 := by
  have hpos : (0 : Int) < 2 ^ k := by positivity
  split
  · have hunique : a / 2 ^ k = -1 ∧ a % 2 ^ k = a + 2 ^ k :=
      (Int.ediv_emod_unique hpos).mpr ⟨by ring, by omega, by omega⟩
    exact hunique.1
  · exact Int.ediv_eq_zero_of_lt (by omega) hhi

theorem floor_mul_two_pow (a : Int) (k : Nat) : ⌊(a : ℚ) * 2 ^ (k : Int)⌋ = a * 2 ^ k := by
  rw [zpow_natCast, ← Int.cast_two, ← Int.cast_pow, ← Int.cast_mul, Int.floor_intCast]

theorem floor_mul_two_zpow_neg (a : Int) (k : Nat) : ⌊(a : ℚ) * 2 ^ (-(k : Int))⌋ = a / 2 ^ k := by
  rw [zpow_neg, zpow_natCast, ← div_eq_mul_inv, ← Nat.cast_ofNat, ← Nat.cast_pow,
    Rat.floor_intCast_div_natCast]
  simp

end FactorProofs.Bits
