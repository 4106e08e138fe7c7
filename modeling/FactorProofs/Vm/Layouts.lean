import Mathlib.Tactic.NormNum
import Mathlib.Tactic.Ring

namespace FactorProofs.Vm

def wordSize : Nat := 64

def tagBits : Nat := 4

def dataAlignment : Nat := 16

/-- `align(a, b)` is `(a + (b - 1)) & ~(b - 1)`; for a power of two `b`,
clearing the low bits rounds down to a multiple of `b`. -/
def align (a b : Nat) : Nat := (a + (b - 1)) / b * b

theorem dvd_align (a : Nat) {b : Nat} : b ∣ align a b := Nat.dvd_mul_left b _

theorem le_align (a : Nat) {b : Nat} (hb : 0 < b) : a ≤ align a b := by
  have := Nat.div_add_mod (a + (b - 1)) b
  have := Nat.mod_lt (a + (b - 1)) hb
  rw [align, Nat.mul_comm]
  omega

theorem align_lt (a : Nat) {b : Nat} (hb : 0 < b) : align a b < a + b := by
  have := Nat.div_add_mod (a + (b - 1)) b
  rw [align, Nat.mul_comm]
  omega

def fixnumMax : Int := 2 ^ (wordSize - tagBits - 1) - 1

def fixnumMin : Int := -2 ^ (wordSize - tagBits - 1)

/-- A fixnum is an immediate integer: a cell shifted left by the tag bits,
so only values between `fixnum_min` and `fixnum_max` are representable. -/
structure Fixnum where
  val : Int
  min_le : fixnumMin ≤ val
  le_max : val ≤ fixnumMax
  deriving DecidableEq

/-- `untag_fixnum (tag_fixnum x)`: the arithmetic shift undoes the left shift of
the tagged cell, which keeps only the low `wordSize - tagBits` bits of `x`. -/
def retagFixnum (x : Int) : Int := Int.bmod x (2 ^ (wordSize - tagBits))

theorem retagFixnum_min_le (x : Int) : fixnumMin ≤ retagFixnum x := by
  have h := Int.le_bmod (x := x) (m := 2 ^ (wordSize - tagBits)) (by decide)
  simp only [retagFixnum, fixnumMin, wordSize, tagBits] at *
  norm_num at *
  omega

theorem retagFixnum_le_max (x : Int) : retagFixnum x ≤ fixnumMax := by
  have h := Int.bmod_lt (x := x) (m := 2 ^ (wordSize - tagBits)) (by decide)
  simp only [retagFixnum, fixnumMax, wordSize, tagBits] at *
  norm_num at *
  omega

theorem retagFixnum_of_range {x : Int} (h1 : fixnumMin ≤ x) (h2 : x ≤ fixnumMax) :
    retagFixnum x = x := by
  simp only [retagFixnum, fixnumMin, fixnumMax, wordSize, tagBits] at *
  apply Int.bmod_eq_of_le <;> norm_num <;> omega

def Fixnum.ofInt (x : Int) : Fixnum := ⟨retagFixnum x, retagFixnum_min_le x, retagFixnum_le_max x⟩

end FactorProofs.Vm
