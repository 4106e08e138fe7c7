import Mathlib.Data.Nat.ModEq
import Mathlib.Data.Fintype.Card
import Mathlib.Data.Fintype.Fin
import Mathlib.Data.Nat.Prime.Basic
import Mathlib.Algebra.Group.Nat.Even
import Mathlib.Tactic.Ring

namespace FactorProofs.TriangularProbing

/-! Open addressing with triangular probing: the `k`-th probe from slot `h`
of a table of `n` slots is `h + (1 + 2 + ... + k)` modulo `n`. When `n` is a
power of two, the first `n` probes visit every slot once. -/

/-- The `k`-th triangular number, `1 + 2 + ... + k`. -/
def tri (k : Nat) : Nat := k * (k + 1) / 2

/-- The `k`-th probe from `h` in a table of `n` slots. -/
def triProbe (n h k : Nat) : Nat := (h + tri k) % n

@[simp] theorem tri_zero : tri 0 = 0 := rfl

theorem two_mul_tri (k : Nat) : 2 * tri k = k * (k + 1) :=
  Nat.mul_div_cancel' (Nat.even_mul_succ_self k).two_dvd

theorem two_mul_tri_add (a d : Nat) : 2 * tri (a + d) = 2 * tri a + d * (a + (a + d) + 1) := by
  rw [two_mul_tri, two_mul_tri]
  ring

theorem tri_succ (k : Nat) : tri (k + 1) = tri k + (k + 1) := by
  have h := two_mul_tri_add k 1
  rw [Nat.one_mul] at h
  omega

theorem triProbe_zero (n h : Nat) : triProbe n h 0 = h % n := rfl

theorem triProbe_succ (n h k : Nat) : triProbe n h (k + 1) = (triProbe n h k + (k + 1)) % n := by
  rw [triProbe, triProbe, tri_succ, ← Nat.add_assoc, Nat.mod_add_mod]

theorem triProbe_lt {n : Nat} (hn : 0 < n) (h k : Nat) : triProbe n h k < n := Nat.mod_lt _ hn

theorem triProbe_ne {m a b : Nat} (h : Nat) (hb : b < 2 ^ m) (hab : a < b) :
    triProbe (2 ^ m) h a ≠ triProbe (2 ^ m) h b := by
  intro heq
  obtain ⟨d, rfl⟩ := Nat.exists_eq_add_of_le hab.le
  have hd : 0 < d := by omega
  have hstep := two_mul_tri_add a d
  have hle : tri a ≤ tri (a + d) := by omega
  obtain ⟨c, hc⟩ := (Nat.modEq_iff_dvd' hle).mp (Nat.ModEq.add_left_cancel' h heq)
  have hprod : d * (a + (a + d) + 1) = 2 ^ (m + 1) * c := by
    rw [Nat.pow_succ]
    have : 2 ^ m * 2 * c = 2 * (2 ^ m * c) := by ring
    omega
  have hdvd : 2 ^ (m + 1) ∣ d * (a + (a + d) + 1) := ⟨c, hprod⟩
  have hpow : 2 ^ (m + 1) = 2 * 2 ^ m := by rw [Nat.pow_succ, Nat.mul_comm]
  rcases Nat.even_or_odd d with he | ho
  · -- `d` is even, so the other factor is odd and `2 ^ (m + 1)` divides `d`
    have hodd : Odd (a + (a + d) + 1) := by
      obtain ⟨r, hr⟩ := he
      exact ⟨a + r, by omega⟩
    have hco := ((Odd.coprime_two_right hodd).pow_right (m + 1)).symm
    have := Nat.le_of_dvd hd (hco.dvd_of_dvd_mul_right hdvd)
    omega
  · -- `d` is odd, so `2 ^ (m + 1)` divides `a + b + 1`
    have hco := ((Odd.coprime_two_right ho).pow_right (m + 1)).symm
    have := Nat.le_of_dvd (by omega) (hco.dvd_of_dvd_mul_left hdvd)
    omega

theorem triProbe_injective {m a b : Nat} (h : Nat) (ha : a < 2 ^ m) (hb : b < 2 ^ m)
    (heq : triProbe (2 ^ m) h a = triProbe (2 ^ m) h b) : a = b := by
  rcases Nat.lt_trichotomy a b with hab | hab | hab
  · exact absurd heq (triProbe_ne h hb hab)
  · exact hab
  · exact absurd heq.symm (triProbe_ne h ha hab)

theorem exists_triProbe_eq (m h : Nat) {i : Nat} (hi : i < 2 ^ m) :
    ∃ k < 2 ^ m, triProbe (2 ^ m) h k = i := by
  let f : Fin (2 ^ m) → Fin (2 ^ m) := fun k => ⟨triProbe (2 ^ m) h k, triProbe_lt (Nat.two_pow_pos m) h k⟩
  have hinj : Function.Injective f := fun a b hab =>
    Fin.ext (triProbe_injective h a.2 b.2 (congrArg Fin.val hab))
  obtain ⟨k, hk⟩ := Finite.injective_iff_surjective.mp hinj ⟨i, hi⟩
  exact ⟨k, k.2, congrArg Fin.val hk⟩

end FactorProofs.TriangularProbing
