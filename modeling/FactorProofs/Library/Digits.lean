import Mathlib.Data.Nat.Digits.Lemmas
import Mathlib.Data.List.DropRight

namespace FactorProofs.Digits

/-! Little-endian digit lists in a base `b`, as Mathlib's `Nat.ofDigits` reads
them: the value of a list is unchanged by zeros at its high end, and a list of
digits below the base with a nonzero last digit is the expansion of its value. -/

variable {b : Nat}

theorem ofDigits_eq_zero_of_forall {l : List Nat} (h : ∀ d ∈ l, d = 0) : Nat.ofDigits b l = 0 := by
  rw [List.eq_replicate_iff.mpr ⟨rfl, h⟩, Nat.ofDigits_replicate_zero]

theorem ofDigits_rdropWhile_zero (l : List Nat) :
    Nat.ofDigits b (l.rdropWhile (· == 0)) = Nat.ofDigits b l := by
  conv_rhs => rw [← List.rdropWhile_append_rtakeWhile (p := (· == 0)) (l := l)]
  have hzero : Nat.ofDigits b (l.rtakeWhile (· == 0)) = 0 :=
    ofDigits_eq_zero_of_forall fun d hd => by simpa using List.mem_rtakeWhile_imp hd
  rw [Nat.ofDigits_append, hzero, Nat.mul_zero, Nat.add_zero]

theorem ofDigits_replicate_zero_append (k : Nat) (l : List Nat) :
    Nat.ofDigits b (List.replicate k 0 ++ l) = b ^ k * Nat.ofDigits b l := by
  rw [Nat.ofDigits_append, Nat.ofDigits_replicate_zero, List.length_replicate, Nat.zero_add]

theorem getLast_rdropWhile_zero_ne (l : List Nat) (h : l.rdropWhile (· == 0) ≠ []) :
    (l.rdropWhile (· == 0)).getLast h ≠ 0 := by
  simpa using List.rdropWhile_last_not (· == 0) l h

theorem lt_of_mem_rdropWhile {l : List Nat} {d : Nat} (hl : ∀ x ∈ l, x < b)
    (hd : d ∈ l.rdropWhile (· == 0)) : d < b :=
  hl d ((List.rdropWhile_prefix (· == 0) l).subset hd)

section Shifts

variable {w s : Nat}

theorem two_pow_eq_mul (hs : s ≤ w) : 2 ^ w = 2 ^ (w - s) * 2 ^ s := by
  rw [← Nat.pow_add, Nat.sub_add_cancel hs]

theorem mod_mul_add_div (hs : s ≤ w) (d : Nat) :
    d % 2 ^ (w - s) * 2 ^ s + 2 ^ w * (d / 2 ^ (w - s)) = d * 2 ^ s := by
  calc d % 2 ^ (w - s) * 2 ^ s + 2 ^ w * (d / 2 ^ (w - s))
      = (d % 2 ^ (w - s) + 2 ^ (w - s) * (d / 2 ^ (w - s))) * 2 ^ s := by
        rw [two_pow_eq_mul hs, Nat.add_mul, Nat.mul_assoc, Nat.mul_comm (2 ^ s), ← Nat.mul_assoc]
    _ = d * 2 ^ s := by rw [Nat.mod_add_div]

theorem mul_add_mod (hs : s ≤ w) (d : Nat) {carry : Nat} (hc : carry < 2 ^ s) :
    (d * 2 ^ s + carry) % 2 ^ w = d % 2 ^ (w - s) * 2 ^ s + carry := by
  have hsplit := mod_mul_add_div hs d
  have hlow : d % 2 ^ (w - s) * 2 ^ s + carry < 2 ^ w := by
    have hd : d % 2 ^ (w - s) + 1 ≤ 2 ^ (w - s) := Nat.mod_lt _ (Nat.two_pow_pos _)
    have := Nat.mul_le_mul_right (2 ^ s) hd
    rw [Nat.add_mul, Nat.one_mul, ← two_pow_eq_mul hs] at this
    omega
  rw [← hsplit, Nat.add_right_comm, Nat.add_mul_mod_self_left, Nat.mod_eq_of_lt hlow]

theorem div_lt_two_pow {d : Nat} (hs : s ≤ w) (hd : d < 2 ^ w) : d / 2 ^ (w - s) < 2 ^ s := by
  rw [Nat.div_lt_iff_lt_mul (Nat.two_pow_pos _), Nat.mul_comm, ← two_pow_eq_mul hs]
  exact hd

theorem div_add_mul_mod (hs : s ≤ w) {d : Nat} (hd : d < 2 ^ w) (e : Nat) :
    (d / 2 ^ s + e * 2 ^ (w - s)) % 2 ^ w = d / 2 ^ s + e % 2 ^ s * 2 ^ (w - s) := by
  have hs' : w - s ≤ w := Nat.sub_le w s
  have hlow : d / 2 ^ s < 2 ^ (w - s) := by
    have := div_lt_two_pow hs' hd
    rwa [Nat.sub_sub_self hs] at this
  rw [Nat.add_comm, mul_add_mod hs' e hlow, Nat.sub_sub_self hs, Nat.add_comm]

theorem add_two_pow_mul_div (hs : s ≤ w) (d x : Nat) :
    (d + 2 ^ w * x) / 2 ^ s = d / 2 ^ s + 2 ^ (w - s) * x := by
  rw [two_pow_eq_mul hs, Nat.mul_comm (2 ^ (w - s)), Nat.mul_assoc,
    Nat.add_mul_div_left _ _ (Nat.two_pow_pos s)]

theorem two_pow_mul_eq (hs : s ≤ w) (x : Nat) :
    2 ^ (w - s) * x = x % 2 ^ s * 2 ^ (w - s) + 2 ^ w * (x / 2 ^ s) := by
  conv_lhs => rw [← Nat.mod_add_div x (2 ^ s)]
  rw [two_pow_eq_mul hs, Nat.mul_add, Nat.mul_comm (2 ^ (w - s)) (x % 2 ^ s), Nat.mul_assoc]

end Shifts

end FactorProofs.Digits
