import Mathlib.Tactic.Linarith
import Mathlib.Tactic.Ring
import FactorProofs.Math.FloatDivision

namespace FactorProofs.Math

/-! `integer-sqrt`: the Newton iteration of CPython's `isqrt`, run over the
bits of `c = (bit-length x - 1) / 2` from the top. After the turn at bit `s`,
`d` holds the bits of `c` from `s` up, and `a` is within one of the square
root of `x >> 2 (c - d)`; at the end `d = c`, and one correction gives the
floor of the square root. -/

/-- `bit-length` of a non-negative integer. -/
def bitLength (x : ℕ) : ℕ := if x > 1 then Nat.log2 x + 1 else x

/-- One turn of the loop of `integer-sqrt` at the bit `s` of `c`, on `(a, d)`. -/
def integerSqrtStep (x c : ℕ) (ad : ℕ × ℕ) (s : ℕ) : ℕ × ℕ :=
  let e := ad.2
  let d := c >>> s
  (shiftNat ad.1 ((d : ℤ) - e - 1) + shiftNat x (-(2 * (c : ℤ) - e - d + 1)) / ad.1, d)

/-- `integer-sqrt`; `none` is the `non-negative-number-expected` error. -/
def integerSqrt (x : ℤ) : Option ℕ :=
  if x = 0 then some 0
  else if x < 0 then none
  else
    let n := x.toNat
    let c := (bitLength n - 1) / 2
    let a := ((List.range (bitLength c)).reverse.foldl (integerSqrtStep n c) (1, 0)).1
    some (if a * a > n then a - 1 else a)

/-- `a` is within one of the square root of `n`. -/
def NearSqrt (n a : ℕ) : Prop := (a - 1) ^ 2 < n ∧ n < (a + 1) ^ 2

theorem bitLength_sub_one {x : ℕ} (hx : x ≠ 0) : bitLength x - 1 = Nat.log2 x := by
  unfold bitLength
  split
  · rfl
  · have : x = 1 := by omega
    subst this
    rfl

theorem lt_two_pow_bitLength (x : ℕ) : x < 2 ^ bitLength x := by
  unfold bitLength
  split
  · exact Nat.lt_log2_self
  · exact Nat.lt_two_pow_self

theorem two_pow_le_of_lt_bitLength {x s : ℕ} (hs : s < bitLength x) : 2 ^ s ≤ x := by
  unfold bitLength at hs
  split at hs
  · exact (Nat.pow_le_pow_right (by decide) (by omega)).trans (Nat.log2_self_le (by omega))
  · have : s = 0 := by omega
    subst this
    exact hs

theorem four_pow_bounds {n : ℕ} (hn : n ≠ 0) :
    4 ^ ((bitLength n - 1) / 2) ≤ n ∧ n < 4 ^ ((bitLength n - 1) / 2 + 1) := by
  rw [bitLength_sub_one hn]
  have hfour : ∀ j, 4 ^ j = 2 ^ (2 * j) := fun j => by rw [Nat.pow_mul]
  constructor
  · rw [hfour]
    exact (Nat.pow_le_pow_right (by decide) (by omega)).trans (Nat.log2_self_le hn)
  · rw [hfour]
    exact Nat.lt_log2_self.trans_le (Nat.pow_le_pow_right (by decide) (by omega))

theorem nearSqrt_newton {m a t : ℕ} (ht : 0 < t) (hta : t ≤ a) (h : NearSqrt (m / (4 * t ^ 2)) a) :
    NearSqrt m (a * t + m / (a * (4 * t))) := by
  obtain ⟨hlo, hhi⟩ := h
  have ha : 0 < a := lt_of_lt_of_le ht hta
  have h4t : 0 < 4 * t ^ 2 := by positivity
  have hlo' : ((a - 1) ^ 2 + 1) * (4 * t ^ 2) ≤ m := (Nat.le_div_iff_mul_le h4t).mp hlo
  have hhi' : m < (a + 1) ^ 2 * (4 * t ^ 2) := (Nat.div_lt_iff_lt_mul h4t).mp hhi
  set q := m / (a * (4 * t)) with hq
  have hq1 : a * (4 * t) * q ≤ m := Nat.mul_div_le m _
  have hq2 : m < a * (4 * t) * (q + 1) := Nat.lt_mul_div_succ m (by positivity)
  have hat : 1 ≤ a * t := Nat.one_le_iff_ne_zero.mpr (by positivity)
  have hx1 : ((a * t + q - 1 : ℕ) : ℤ) = a * t + q - 1 := by
    rw [Nat.cast_sub (Nat.le_add_right_of_le hat), Nat.cast_add, Nat.cast_mul, Nat.cast_one]
  zify at hlo' hhi' hq1 hq2 hta ht
  rw [Nat.cast_sub ha, Nat.cast_one] at hlo'
  refine ⟨?_, ?_⟩
  · have key : ((a * t + q - 1 : ℕ) : ℤ) ^ 2 < m := by
      rw [hx1]
      set X : ℤ := a * t + q - 1 with hX
      set B : ℤ := 2 * (a * t) with hB
      by_contra hcon
      have hx : (m : ℤ) ≤ X ^ 2 := not_lt.mp hcon
      have hXnn : 0 ≤ X := by
        have : (1 : ℤ) ≤ a * t := by exact_mod_cast hat
        omega
      have hfar : 2 * B ≤ (X - B) ^ 2 := by
        have : (X - B) ^ 2 - 2 * B = X ^ 2 - a * (4 * t) * q := by rw [hX, hB]; ring
        linarith
      have hup : X - B < 2 * t := by
        have e1 : (t : ℤ) * (a * q) < t * (t * (a + 1) ^ 2) := by linarith
        have e2 : (a : ℤ) * q < a * (a * t + 2 * t + 1) := by
          have := lt_of_mul_lt_mul_left e1 ht.le
          nlinarith
        have := lt_of_mul_lt_mul_left e2 (by positivity)
        omega
      have hdown : B - X < 2 * t := by
        by_contra hge
        have hle : X ≤ 2 * (a * t) - 2 * t := by omega
        have h1 : X ^ 2 ≤ (2 * (a * t) - 2 * t) ^ 2 := pow_le_pow_left₀ hXnn hle 2
        have h2 : (2 * ((a : ℤ) * t) - 2 * t) ^ 2 = (a - 1) ^ 2 * (4 * t ^ 2) := by ring
        have h3 : (0 : ℤ) < 4 * t ^ 2 := by positivity
        linarith
      have hnear : (X - B) ^ 2 < (2 * t) ^ 2 := sq_lt_sq' (by omega) hup
      have : (2 * (t : ℤ)) ^ 2 ≤ 2 * B := by
        have := mul_le_mul_of_nonneg_left hta ht.le
        rw [hB]
        nlinarith
      linarith
    exact_mod_cast key
  · have key : (m : ℤ) < ((a : ℤ) * t + q + 1) ^ 2 := by
      have hsq := sq_nonneg ((a : ℤ) * t - q - 1)
      have : ((a : ℤ) * t + q + 1) ^ 2 = ((a : ℤ) * t - q - 1) ^ 2 + a * (4 * t) * (q + 1) := by ring
      linarith
    exact_mod_cast key

section Loop

variable {n c : ℕ}

theorem integerSqrtStep_near (hn : 4 ^ c ≤ n) {s : ℕ} (hs : s < bitLength c) {a : ℕ}
    (h : NearSqrt (n / 4 ^ (c - c >>> (s + 1))) a) :
    (integerSqrtStep n c (a, c >>> (s + 1)) s).2 = c >>> s ∧
      NearSqrt (n / 4 ^ (c - c >>> s)) (integerSqrtStep n c (a, c >>> (s + 1)) s).1 := by
  refine ⟨rfl, ?_⟩
  set e := c >>> (s + 1) with he
  set d := c >>> s with hd
  have hed : e = d / 2 := Nat.shiftRight_succ c s
  have hd1 : 1 ≤ d := by
    rw [hd, Nat.shiftRight_eq_div_pow]
    exact (Nat.one_le_div_iff (by positivity)).mpr (two_pow_le_of_lt_bitLength hs)
  have hdc : d ≤ c := by
    rw [hd, Nat.shiftRight_eq_div_pow]
    exact Nat.div_le_self c _
  obtain ⟨k, hk⟩ : ∃ k, d = e + k + 1 := ⟨d - e - 1, by omega⟩
  have hke : k ≤ e := by omega
  have hae : 2 ^ e ≤ a := by
    have htop : 4 ^ e ≤ n / 4 ^ (c - e) := by
      rw [Nat.le_div_iff_mul_le (by positivity), ← Nat.pow_add, show e + (c - e) = c by omega]
      exact hn
    have hsq : (2 ^ e) ^ 2 < (a + 1) ^ 2 := by
      rw [← Nat.pow_mul, Nat.mul_comm, Nat.pow_mul]
      exact lt_of_le_of_lt htop h.2
    have := (Nat.pow_lt_pow_iff_left (by decide)).mp hsq
    omega
  have hta : 2 ^ k ≤ a := (Nat.pow_le_pow_right (by decide) hke).trans hae
  have hleft : shiftNat a ((d : ℤ) - e - 1) = a * 2 ^ k := by
    rw [shiftNat_of_nonneg (by omega)]
    congr 2
    omega
  have hright : shiftNat n (-(2 * (c : ℤ) - e - d + 1)) = n / 4 ^ (c - d) / (4 * 2 ^ k) := by
    rw [show -(2 * (c : ℤ) - e - d + 1) = -((2 * (c - d) + (k + 2) : ℕ) : ℤ) by push_cast; omega,
      shiftNat_neg_natCast, Nat.div_div_eq_div_mul]
    congr 1
    rw [Nat.pow_add, Nat.pow_mul, Nat.pow_add]
    ring
  have hprev : n / 4 ^ (c - e) = n / 4 ^ (c - d) / (4 * (2 ^ k) ^ 2) := by
    have h4 : (2 ^ k) ^ 2 = 4 ^ k := by rw [← Nat.pow_mul, Nat.mul_comm, Nat.pow_mul]
    rw [Nat.div_div_eq_div_mul, show c - e = c - d + (k + 1) by omega, Nat.pow_add, h4]
    congr 1
    ring
  have hstep := nearSqrt_newton (m := n / 4 ^ (c - d)) (Nat.two_pow_pos k) hta (hprev ▸ h)
  show NearSqrt _ (shiftNat a ((d : ℤ) - e - 1) + shiftNat n (-(2 * (c : ℤ) - e - d + 1)) / a)
  rwa [hleft, hright, Nat.div_div_eq_div_mul, Nat.mul_comm (4 * 2 ^ k) a]

theorem foldl_integerSqrtStep_near (hn : 4 ^ c ≤ n) :
    ∀ m, m ≤ bitLength c → ∀ a, NearSqrt (n / 4 ^ (c - c >>> m)) a →
      ((List.range m).reverse.foldl (integerSqrtStep n c) (a, c >>> m)).2 = c ∧
        NearSqrt n ((List.range m).reverse.foldl (integerSqrtStep n c) (a, c >>> m)).1
  | 0, _, a, h => by simpa using h
  | m + 1, hm, a, h => by
    rw [List.range_succ, List.reverse_append, List.reverse_singleton, List.singleton_append, List.foldl_cons]
    obtain ⟨hd, hnear⟩ := integerSqrtStep_near hn (by omega : m < bitLength c) h
    rw [show integerSqrtStep n c (a, c >>> (m + 1)) m = ((integerSqrtStep n c (a, c >>> (m + 1)) m).1, c >>> m)
      from Prod.ext rfl hd]
    exact foldl_integerSqrtStep_near hn m (by omega) _ hnear

end Loop

theorem integerSqrt_spec (x : ℤ) :
    (0 ≤ x → ∃ r, integerSqrt x = some r ∧ (r : ℤ) ^ 2 ≤ x ∧ x < ((r : ℤ) + 1) ^ 2) ∧
      (x < 0 → integerSqrt x = none) := by
  refine ⟨fun hx => ?_, fun hx => by rw [integerSqrt, if_neg (by omega), if_pos hx]⟩
  by_cases hx0 : x = 0
  · exact ⟨0, by rw [integerSqrt, if_pos hx0], by simp [hx0], by simp [hx0]⟩
  obtain ⟨n, rfl⟩ := Int.eq_ofNat_of_zero_le hx
  have hn : n ≠ 0 := by omega
  obtain ⟨hlo, hhi⟩ := four_pow_bounds hn
  set c := (bitLength n - 1) / 2 with hc
  have hstart : c >>> bitLength c = 0 := by
    rw [Nat.shiftRight_eq_div_pow]
    exact Nat.div_eq_of_lt (lt_two_pow_bitLength c)
  have hinit : NearSqrt (n / 4 ^ (c - c >>> bitLength c)) 1 := by
    rw [hstart, Nat.sub_zero]
    refine ⟨Nat.div_pos hlo (by positivity), ?_⟩
    rw [Nat.div_lt_iff_lt_mul (by positivity)]
    rw [Nat.pow_succ] at hhi
    omega
  obtain ⟨-, ha⟩ := foldl_integerSqrtStep_near hlo _ (Nat.le_refl _) 1 hinit
  rw [hstart] at ha
  set a := ((List.range (bitLength c)).reverse.foldl (integerSqrtStep n c) (1, 0)).1 with hadef
  have hres : integerSqrt n = some (if a * a > n then a - 1 else a) := by
    rw [integerSqrt, if_neg hx0, if_neg (by omega)]
    rfl
  refine ⟨_, hres, ?_⟩
  obtain ⟨hlo', hhi'⟩ := ha
  split
  · -- the last step overshot by one
    rename_i hover
    have ha1 : 1 ≤ a := by
      rcases Nat.eq_zero_or_pos a with h0 | h0
      · rw [h0] at hover
        omega
      · exact h0
    have hcast : ((a - 1 : ℕ) : ℤ) + 1 = a := by omega
    zify at hlo' hover
    rw [hcast]
    constructor
    · push_cast [Nat.cast_sub ha1]
      push_cast [Nat.cast_sub ha1] at hlo'
      exact le_of_lt hlo'
    · nlinarith
  · rename_i hover
    zify at hhi' hover
    constructor
    · nlinarith
    · exact hhi'

example : integerSqrt 1000000 = some 1000 := by decide

end FactorProofs.Math
