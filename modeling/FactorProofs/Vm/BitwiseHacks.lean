import FactorProofs.Library.Bits

namespace FactorProofs.Vm

open FactorProofs.Bits

/-- A machine word, `cell` in the VM. -/
abbrev Cell := BitVec 64

/-- `log2` is `bsr`: the index of the highest set bit. The instruction leaves
the result for zero undefined; no caller passes zero. -/
def log2 (x : Cell) : Cell := BitVec.ofNat 64 x.toNat.log2

def rightmostClearBit (x : Cell) : Cell := log2 (~~~x &&& (x + 1))

def rightmostSetBit (x : Cell) : Cell := log2 (x &&& (~~~x + 1))

/-- `__builtin_popcountll`. -/
def popcount (x : Cell) : Cell := x.cpop

theorem toNat_rightmostSetBit {x : Cell} {k : Nat} (hk : x.getLsbD k = true)
    (hlow : ∀ j < k, x.getLsbD j = false) : (rightmostSetBit x).toNat = k := by
  have hk64 : k < 64 := BitVec.lt_of_getLsbD hk
  rw [rightmostSetBit, log2, and_not_add_one_eq_twoPow hk hlow, log2_twoPow hk64,
    BitVec.toNat_ofNat, Nat.mod_eq_of_lt (by omega)]

theorem rightmostClearBit_eq (x : Cell) : rightmostClearBit x = rightmostSetBit (~~~x) := by
  rw [rightmostClearBit, rightmostSetBit, BitVec.not_not]

end FactorProofs.Vm
