import Mathlib.Tactic.Ring

namespace FactorProofs.BitFields

/-! Bit fields of an instruction word. A value is written into the field
`lsb..msb` through a mask, and read back signed by shifting the field to the
top of the word and arithmetically back down; the read gives the value's low
bits sign-extended. -/

/-- The `n` bits from `lsb`. -/
def fieldMask (w lsb n : Nat) : BitVec w := (BitVec.allOnes w >>> (w - n)) <<< lsb

/-- `x` as read back from a signed field holding its low `k` bits. -/
def signExtendLow (k : Nat) {w : Nat} (x : BitVec w) : BitVec w := (x.setWidth k).signExtend w

variable {w : Nat}

theorem getLsbD_fieldMask {lsb n : Nat} (hn : n ≤ w) (i : Nat) :
    (fieldMask w lsb n).getLsbD i = decide (i < w ∧ lsb ≤ i ∧ i < lsb + n) := by
  rw [fieldMask, BitVec.getLsbD_shiftLeft, BitVec.getLsbD_ushiftRight, BitVec.getLsbD_allOnes,
    Bool.eq_iff_iff]
  simp only [Bool.and_eq_true, decide_eq_true_eq, Bool.not_eq_true', decide_eq_false_iff_not]
  omega

theorem getLsbD_signExtendLow {k : Nat} (hk : 0 < k) (x : BitVec w) (i : Nat) :
    (signExtendLow k x).getLsbD i = (decide (i < w) && if i < k then x.getLsbD i else x.getLsbD (k - 1)) := by
  rw [signExtendLow, BitVec.getLsbD_signExtend, BitVec.msb_eq_getLsbD_last, BitVec.getLsbD_setWidth,
    BitVec.getLsbD_setWidth]
  by_cases hi : i < k
  · simp [hi]
  · simp [hi, show k - 1 < k by omega]

theorem signExtendLow_eq_self_iff {k : Nat} (hk : 0 < k) (hkw : k ≤ w) (x : BitVec w) :
    signExtendLow k x = x ↔ -2 ^ (k - 1) ≤ x.toInt ∧ x.toInt < 2 ^ (k - 1) := by
  obtain ⟨j, rfl⟩ : ∃ j, k = j + 1 := ⟨k - 1, by omega⟩
  have hpow : ((2 ^ (j + 1) : Nat) : Int) = 2 * 2 ^ j := by push_cast; ring
  have hread : (signExtendLow (j + 1) x).toInt = x.toInt.bmod (2 ^ (j + 1)) := by
    rw [signExtendLow, BitVec.toInt_signExtend_of_le hkw, BitVec.toInt_setWidth, BitVec.toInt_eq_toNat_bmod,
      Int.bmod_bmod_of_dvd (Nat.pow_dvd_pow 2 hkw)]
  rw [← BitVec.toInt_inj, hread, Nat.add_sub_cancel]
  constructor
  · intro h
    have hlo := Int.le_bmod (x := x.toInt) (m := 2 ^ (j + 1)) (Nat.two_pow_pos _)
    have hhi := Int.bmod_lt (x := x.toInt) (m := 2 ^ (j + 1)) (Nat.two_pow_pos _)
    rw [h, hpow] at hlo hhi
    omega
  · rintro ⟨hlo, hhi⟩
    apply Int.bmod_eq_of_le <;> rw [hpow] <;> omega

theorem getLsbD_sshiftRight_shiftLeft {y : BitVec w} {d lsb msb : Nat} (hd : d + msb + 1 = w)
    (hlm : lsb ≤ msb) (i : Nat) :
    ((y <<< d).sshiftRight (d + lsb)).getLsbD i =
      (decide (i < w) && if i ≤ msb - lsb then y.getLsbD (lsb + i) else y.getLsbD msb) := by
  rw [BitVec.getLsbD_sshiftRight, BitVec.msb_eq_getLsbD_last, BitVec.getLsbD_shiftLeft,
    BitVec.getLsbD_shiftLeft]
  by_cases hi : i < w
  · by_cases hf : i ≤ msb - lsb
    · rw [if_pos (by omega), if_pos hf, show d + lsb + i - d = lsb + i by omega]
      simp [hi, show ¬w ≤ i by omega, show ¬d + lsb + i < d by omega, show d + lsb + i < w by omega]
    · rw [if_neg (by omega), if_neg hf, show w - 1 - d = msb by omega]
      simp [hi, show w - 1 < w by omega, show ¬w - 1 < d by omega]
  · simp [hi, Nat.le_of_not_lt hi]

theorem getLsbD_insert {W lsb msb s : Nat} {x : BitVec W} {word : BitVec w} (hwW : w ≤ W)
    (hlm : lsb ≤ msb) (hmsb : msb < w) (hs : s + (msb - lsb) < W) (i : Nat) :
    (((word.setWidth W &&& ~~~fieldMask W lsb (msb + 1 - lsb)) |||
        (x.sshiftRight s <<< lsb &&& fieldMask W lsb (msb + 1 - lsb))).setWidth w).getLsbD i =
      (decide (i < w) && if lsb ≤ i ∧ i ≤ msb then x.getLsbD (s + (i - lsb)) else word.getLsbD i) := by
  rw [BitVec.getLsbD_setWidth, BitVec.getLsbD_or, BitVec.getLsbD_and, BitVec.getLsbD_and,
    BitVec.getLsbD_not, getLsbD_fieldMask (by omega), BitVec.getLsbD_setWidth, BitVec.getLsbD_shiftLeft,
    BitVec.getLsbD_sshiftRight]
  by_cases hi : i < w
  · by_cases hf : lsb ≤ i ∧ i ≤ msb
    · rw [if_pos hf, if_pos (by omega)]
      simp [hi, show i < W by omega, show ¬i < lsb by omega, show ¬W ≤ i - lsb by omega,
        show i < lsb + (msb + 1 - lsb) by omega, hf.1]
    · rw [if_neg hf]
      by_cases hl : lsb ≤ i
      · simp [hi, hl, show i < W by omega, show ¬i < lsb + (msb + 1 - lsb) by omega]
      · simp [hi, hl, show i < W by omega]
  · simp [hi]

theorem getLsbD_of_mod_two_pow {W s : Nat} {x : BitVec W} (halign : x.toNat % 2 ^ s = 0) {j : Nat}
    (hj : j < s) : x.getLsbD j = false := by
  have h := Nat.testBit_mod_two_pow x.toNat s j
  rw [halign, Nat.zero_testBit, decide_eq_true hj, Bool.true_and, BitVec.testBit_toNat] at h
  exact h.symm

theorem signExtend_field {W lsb msb s d : Nat} {x : BitVec W} {word : BitVec w} (hwW : w ≤ W)
    (hlm : lsb ≤ msb) (hd : d + msb + 1 = w) (hs : s + (msb + 1 - lsb) ≤ w)
    (halign : x.toNat % 2 ^ s = 0) :
    ((((word.setWidth W &&& ~~~fieldMask W lsb (msb + 1 - lsb)) |||
        (x.sshiftRight s <<< lsb &&& fieldMask W lsb (msb + 1 - lsb))).setWidth w <<< d).sshiftRight
          (d + lsb) <<< s).signExtend W =
      signExtendLow (s + (msb + 1 - lsb)) x := by
  apply BitVec.eq_of_getLsbD_eq
  intro j hj
  have hfield : ∀ k, k < w → ((((word.setWidth W &&& ~~~fieldMask W lsb (msb + 1 - lsb)) |||
      (x.sshiftRight s <<< lsb &&& fieldMask W lsb (msb + 1 - lsb))).setWidth w <<< d).sshiftRight
        (d + lsb) <<< s).getLsbD k = (!decide (k < s) && x.getLsbD (min k (s + (msb - lsb)))) := by
    intro k hk
    rw [BitVec.getLsbD_shiftLeft, getLsbD_sshiftRight_shiftLeft hd hlm]
    by_cases hks : k < s
    · simp [hks]
    · by_cases hkf : k - s ≤ msb - lsb
      · rw [if_pos hkf, getLsbD_insert hwW hlm (by omega) (by omega), if_pos (by omega),
          (by omega : s + (lsb + (k - s) - lsb) = min k (s + (msb - lsb)))]
        simp [hk, hks, show k - s < w by omega, show lsb + (k - s) < w by omega]
      · rw [if_neg hkf, getLsbD_insert hwW hlm (by omega) (by omega), if_pos (by omega),
          (by omega : s + (msb - lsb) = min k (s + (msb - lsb)))]
        simp [hk, hks, show k - s < w by omega, show msb < w by omega]
  rw [BitVec.getLsbD_signExtend, getLsbD_signExtendLow (by omega), BitVec.msb_eq_getLsbD_last,
    decide_eq_true hj, Bool.true_and, Bool.true_and]
  by_cases hjs : j < s
  · rw [if_pos (by omega), if_pos (by omega), hfield j (by omega), getLsbD_of_mod_two_pow halign hjs]
    simp [hjs]
  · by_cases hjw : j < w
    · rw [if_pos hjw, hfield j hjw]
      by_cases hjk : j < s + (msb + 1 - lsb)
      · rw [if_pos hjk, (by omega : min j (s + (msb - lsb)) = j)]
        simp [hjs]
      · rw [if_neg hjk, (by omega : min j (s + (msb - lsb)) = s + (msb + 1 - lsb) - 1)]
        simp [hjs]
    · rw [if_neg hjw, hfield (w - 1) (by omega), if_neg (by omega),
        (by omega : min (w - 1) (s + (msb - lsb)) = s + (msb + 1 - lsb) - 1)]
      simp [show ¬w - 1 < s by omega]

end FactorProofs.BitFields
