import Mathlib.Logic.Function.Basic
import Mathlib.Algebra.GroupWithZero.Nat

namespace FactorProofs.LittleEndian

/-! Loads and stores of `n` bytes, least significant first, in a
byte-addressed memory. -/

/-- The `n` bytes from `a`, least significant first, as a number. -/
def load (mem : Nat → BitVec 8) (a : Nat) : Nat → Nat
  | 0 => 0
  | n + 1 => (mem a).toNat + 256 * load mem (a + 1) n

/-- Store the low `n` bytes of `v` from `a`, least significant first: the
cast to an `n`-byte integer and the write. -/
def store (mem : Nat → BitVec 8) (a : Nat) : Nat → Nat → Nat → BitVec 8
  | 0, _ => mem
  | n + 1, v => store (Function.update mem a (BitVec.ofNat 8 v)) (a + 1) n (v / 256)

variable {mem mem' : Nat → BitVec 8} {a : Nat}

theorem load_lt (mem : Nat → BitVec 8) (a n : Nat) : load mem a n < 256 ^ n := by
  induction n generalizing a with
  | zero => exact Nat.one_pos
  | succ n ih =>
    have hb := (mem a).isLt
    have := ih (a + 1)
    rw [load, Nat.pow_succ]
    simp only [Nat.reducePow] at hb
    omega

theorem store_of_lt_or_le {n v b : Nat} (hb : b < a ∨ a + n ≤ b) : store mem a n v b = mem b := by
  induction n generalizing mem a v with
  | zero => rfl
  | succ n ih =>
    rw [store, ih (by omega), Function.update_of_ne (by omega)]

theorem load_congr {n : Nat} (h : ∀ i < n, mem (a + i) = mem' (a + i)) : load mem a n = load mem' a n := by
  induction n generalizing a with
  | zero => rfl
  | succ n ih =>
    have h0 := h 0 (Nat.succ_pos n)
    rw [Nat.add_zero] at h0
    rw [load, load, h0, ih fun i hi => by rw [Nat.add_right_comm, Nat.add_assoc]; exact h (i + 1) (by omega)]

theorem load_store (mem : Nat → BitVec 8) (a n v : Nat) : load (store mem a n v) a n = v % 256 ^ n := by
  induction n generalizing mem a v with
  | zero => exact (Nat.mod_one v).symm
  | succ n ih =>
    have hbyte : store (Function.update mem a (BitVec.ofNat 8 v)) (a + 1) n (v / 256) a = BitVec.ofNat 8 v := by
      rw [store_of_lt_or_le (.inl (Nat.lt_succ_self a)), Function.update_self]
    rw [store, load, hbyte, ih, BitVec.toNat_ofNat, show 2 ^ 8 = 256 from rfl, Nat.pow_succ,
      Nat.mul_comm (256 ^ n), Nat.mod_mul]

end FactorProofs.LittleEndian
