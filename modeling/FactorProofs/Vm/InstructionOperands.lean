import FactorProofs.Vm.BitwiseHacks
import FactorProofs.Library.LittleEndian
import FactorProofs.Library.BitFields

namespace FactorProofs.Vm

open FactorProofs.LittleEndian FactorProofs.BitFields

/-- `relocation_class`: where and how an operand's value sits in the code. -/
inductive RelocationClass
  | absoluteCell
  | absolute
  | relative
  | relativeArmB
  | relativeArmBCondLdr
  | absoluteArmLdur
  | absoluteArmCmp
  | absolute2
  | absolute1
  deriving DecidableEq, Repr

def relArmBMask : Cell := 0x03ffffff

def relArmBCondLdrMask : Cell := 0x00ffffe0

def relArmLdurMask : Cell := 0x001ff000

def relArmCmpMask : Cell := 0x003ffc00

/-- An `instruction_operand`: the class of its relocation and `pointer`, the
code address (`entry_point() + offset()`) just past the operand's bytes. The
code is a byte memory passed to each access. -/
structure InstructionOperand where
  klass : RelocationClass
  pointer : Cell

namespace InstructionOperand

variable (op : InstructionOperand) (mem : Nat → BitVec 8)

/-- The address `pointer - n` of the `n` bytes before `pointer`. -/
def slot (n : Nat) : Nat := (op.pointer - BitVec.ofNat 64 n).toNat

/-- `*(uintN_t*)(pointer - n)` for an `n`-byte integer, widened to a cell. -/
def loadSlot (n : Nat) : Cell := BitVec.ofNat 64 (load mem (op.slot n) n)

/-- `*(uintN_t*)(pointer - n) = (uintN_t)value`. -/
def storeSlot (n : Nat) (value : Cell) : Nat → BitVec 8 := store mem (op.slot n) n value.toNat

/-- `load_value_masked`: the `int32_t` word before `pointer`, shifted so that
bit `msb` is the sign and back down arithmetically past `lsb`, then scaled. -/
def loadValueMasked (msb lsb scaling : Nat) : Cell :=
  let ptr : BitVec 32 := BitVec.ofNat 32 (load mem (op.slot 4) 4)
  ((ptr <<< (31 - msb)).sshiftRight (31 - msb + lsb) <<< scaling).signExtend 64

def loadValue (relativeTo : Cell) : Cell :=
  match op.klass with
  | .absoluteCell => op.loadSlot mem 8
  | .absolute => op.loadSlot mem 4
  | .absolute2 => op.loadSlot mem 2
  | .absolute1 => op.loadSlot mem 1
  | .relative => (BitVec.ofNat 32 (load mem (op.slot 4) 4)).signExtend 64 + relativeTo
  | .relativeArmB => op.loadValueMasked mem 25 0 2 + relativeTo - 4
  | .relativeArmBCondLdr => op.loadValueMasked mem 23 5 2 + relativeTo - 4
  | .absoluteArmLdur => op.loadValueMasked mem 20 12 0
  | .absoluteArmCmp => op.loadValueMasked mem 21 10 0

/-- `store_value_masked`: the bits of `value >> scaling << lsb` under `mask`
replace those of the `uint32_t` word before `pointer`. -/
def storeValueMasked (value mask : Cell) (lsb scaling : Nat) : Nat → BitVec 8 :=
  op.storeSlot mem 4 ((op.loadSlot mem 4 &&& ~~~mask) ||| (value.sshiftRight scaling <<< lsb &&& mask))

/-- `store_value`, with `none` where a `FACTOR_ASSERT` aborts. The value is a
`fixnum`, so the assertions compare signed. -/
def storeValue (absoluteValue : Cell) : Option (Nat → BitVec 8) :=
  let relativeValue := absoluteValue - op.pointer
  match op.klass with
  | .absoluteCell => some (op.storeSlot mem 8 absoluteValue)
  | .absolute => some (op.storeSlot mem 4 absoluteValue)
  | .absolute2 => some (op.storeSlot mem 2 absoluteValue)
  | .absolute1 => some (op.storeSlot mem 1 absoluteValue)
  | .relative => some (op.storeSlot mem 4 relativeValue)
  | .relativeArmB =>
    if (relativeValue + 4).toInt < 0x8000000 ∧ -0x8000000 ≤ (relativeValue + 4).toInt ∧
        relativeValue &&& 3 = 0 then
      some (op.storeValueMasked mem (relativeValue + 4) relArmBMask 0 2)
    else none
  | .relativeArmBCondLdr =>
    if (relativeValue + 4).toInt < 0x2000000 ∧ -0x2000000 ≤ (relativeValue + 4).toInt ∧
        relativeValue &&& 3 = 0 then
      some (op.storeValueMasked mem (relativeValue + 4) relArmBCondLdrMask 5 2)
    else none
  | .absoluteArmLdur =>
    if -256 ≤ absoluteValue.toInt ∧ absoluteValue.toInt ≤ 255 then
      some (op.storeValueMasked mem absoluteValue relArmLdurMask 12 0)
    else none
  | .absoluteArmCmp =>
    if 0 ≤ absoluteValue.toInt ∧ absoluteValue.toInt ≤ 4095 then
      some (op.storeValueMasked mem absoluteValue relArmCmpMask 10 0)
    else none

end InstructionOperand

/-- The slot bytes a class writes. -/
def RelocationClass.width : RelocationClass → Nat
  | .absoluteCell => 8
  | .absolute2 => 2
  | .absolute1 => 1
  | _ => 4

/-- The bits `(lsb, msb)` of the word an ARM class writes through its mask;
the other classes write their whole slot. -/
def RelocationClass.fieldBits : RelocationClass → Option (Nat × Nat)
  | .relativeArmB => some (0, 25)
  | .relativeArmBCondLdr => some (5, 23)
  | .absoluteArmLdur => some (12, 20)
  | .absoluteArmCmp => some (10, 21)
  | _ => none

/-- What an operand of class `k` at `pointer` reads back after `store_value`
of `v`: the value cut to its slot, or sign-extended from its field with the
pc adjustment undone. -/
def readBack (k : RelocationClass) (pointer v : Cell) : Cell :=
  match k with
  | .absoluteCell => v
  | .absolute => BitVec.ofNat 64 (v.toNat % 2 ^ 32)
  | .absolute2 => BitVec.ofNat 64 (v.toNat % 2 ^ 16)
  | .absolute1 => BitVec.ofNat 64 (v.toNat % 2 ^ 8)
  | .relative => signExtendLow 32 (v - pointer) + pointer
  | .relativeArmB => signExtendLow 28 (v - pointer + 4) + pointer - 4
  | .relativeArmBCondLdr => signExtendLow 21 (v - pointer + 4) + pointer - 4
  | .absoluteArmLdur => signExtendLow 9 v
  | .absoluteArmCmp => signExtendLow 12 v

/-- The values an operand of class `k` at `pointer` holds exactly: those its
slot or field has room for. -/
def Representable (k : RelocationClass) (pointer v : Cell) : Prop :=
  match k with
  | .absoluteCell => True
  | .absolute => v.toNat < 2 ^ 32
  | .absolute2 => v.toNat < 2 ^ 16
  | .absolute1 => v.toNat < 2 ^ 8
  | .relative => -2 ^ 31 ≤ (v - pointer).toInt ∧ (v - pointer).toInt < 2 ^ 31
  | .relativeArmB => -2 ^ 27 ≤ (v - pointer + 4).toInt ∧ (v - pointer + 4).toInt < 2 ^ 27
  | .relativeArmBCondLdr => -2 ^ 20 ≤ (v - pointer + 4).toInt ∧ (v - pointer + 4).toInt < 2 ^ 20
  | .absoluteArmLdur => -2 ^ 8 ≤ v.toInt ∧ v.toInt < 2 ^ 8
  | .absoluteArmCmp => -2 ^ 11 ≤ v.toInt ∧ v.toInt < 2 ^ 11

namespace InstructionOperand

variable {op : InstructionOperand} {mem mem' : Nat → BitVec 8}

section Slots

theorem storeSlot_of_lt_or_le {n b : Nat} {value : Cell} (hb : b < op.slot n ∨ op.slot n + n ≤ b) :
    op.storeSlot mem n value b = mem b :=
  store_of_lt_or_le hb

theorem loadSlot_storeSlot (n : Nat) (value : Cell) :
    op.loadSlot (op.storeSlot mem n value) n = BitVec.ofNat 64 (value.toNat % 2 ^ (8 * n)) := by
  rw [loadSlot, storeSlot, load_store, Nat.pow_mul]

theorem word_storeSlot (value : Cell) :
    BitVec.ofNat 32 (load (op.storeSlot mem 4 value) (op.slot 4) 4) = value.setWidth 32 := by
  rw [storeSlot, load_store, ← BitVec.ofNat_toNat]
  apply BitVec.eq_of_toNat_eq
  simp only [BitVec.toNat_ofNat]
  omega

theorem loadSlot_four : op.loadSlot mem 4 = (BitVec.ofNat 32 (load mem (op.slot 4) 4)).setWidth 64 := by
  have hlt := load_lt mem (op.slot 4) 4
  simp only [Nat.reducePow] at hlt
  apply BitVec.eq_of_toNat_eq
  simp only [loadSlot, BitVec.toNat_setWidth, BitVec.toNat_ofNat]
  omega

theorem loadValueMasked_storeValueMasked {value mask : Cell} {msb lsb s : Nat}
    (hmask : mask = fieldMask 64 lsb (msb + 1 - lsb)) (hlm : lsb ≤ msb) (hmsb : msb < 32)
    (hs : s + (msb + 1 - lsb) ≤ 32) (halign : value.toNat % 2 ^ s = 0) :
    op.loadValueMasked (op.storeValueMasked mem value mask lsb s) msb lsb s =
      signExtendLow (s + (msb + 1 - lsb)) value := by
  simp only [loadValueMasked, storeValueMasked, word_storeSlot, loadSlot_four, hmask]
  exact signExtend_field (by decide) hlm (by omega) hs halign

theorem getLsbD_storeValueMasked {value mask : Cell} {msb lsb s : Nat}
    (hmask : mask = fieldMask 64 lsb (msb + 1 - lsb)) (hlm : lsb ≤ msb) (hmsb : msb < 32)
    (hs : s + (msb - lsb) < 64) {i : Nat} (hi : ¬(lsb ≤ i ∧ i ≤ msb)) :
    (BitVec.ofNat 32 (load (op.storeValueMasked mem value mask lsb s) (op.slot 4) 4)).getLsbD i =
      (BitVec.ofNat 32 (load mem (op.slot 4) 4)).getLsbD i := by
  rw [storeValueMasked, word_storeSlot, loadSlot_four, hmask, getLsbD_insert (by decide) hlm hmsb hs, if_neg hi]
  by_cases hi32 : i < 32
  · simp [hi32]
  · simp [hi32, BitVec.getLsbD_of_ge _ i (Nat.le_of_not_lt hi32)]

end Slots

theorem toNat_add_four_mod {x : Cell} (h : x &&& 3 = 0) : (x + 4).toNat % 2 ^ 2 = 0 := by
  have hx : x.toNat % 4 = 0 := by
    have := congrArg BitVec.toNat h
    rwa [BitVec.toNat_and, show (3 : Cell).toNat = 2 ^ 2 - 1 from rfl, Nat.and_two_pow_sub_one_eq_mod] at this
  rw [BitVec.toNat_add, show (4 : Cell).toNat = 4 from rfl]
  omega

theorem loadValue_storeValue {v : Cell} (h : op.storeValue mem v = some mem') :
    op.loadValue mem' op.pointer = readBack op.klass op.pointer v := by
  obtain ⟨k, p⟩ := op
  cases k with
  | absoluteCell =>
    cases h
    simp only [loadValue, readBack, loadSlot_storeSlot, Nat.mod_eq_of_lt v.isLt, BitVec.ofNat_toNat,
      BitVec.setWidth_eq]
  | absolute =>
    cases h
    simp only [loadValue, readBack, loadSlot_storeSlot]
  | absolute2 =>
    cases h
    simp only [loadValue, readBack, loadSlot_storeSlot]
  | absolute1 =>
    cases h
    simp only [loadValue, readBack, loadSlot_storeSlot]
  | relative =>
    cases h
    simp only [loadValue, readBack, word_storeSlot]
    rfl
  | relativeArmB =>
    simp only [storeValue] at h
    split at h
    · rename_i hc
      cases h
      simp only [loadValue, readBack]
      rw [loadValueMasked_storeValueMasked (by decide : relArmBMask = fieldMask 64 0 (25 + 1 - 0)) (by decide)
        (by decide) (by decide) (toNat_add_four_mod hc.2.2)]
    · cases h
  | relativeArmBCondLdr =>
    simp only [storeValue] at h
    split at h
    · rename_i hc
      cases h
      simp only [loadValue, readBack]
      rw [loadValueMasked_storeValueMasked (by decide : relArmBCondLdrMask = fieldMask 64 5 (23 + 1 - 5))
        (by decide) (by decide) (by decide) (toNat_add_four_mod hc.2.2)]
    · cases h
  | absoluteArmLdur =>
    simp only [storeValue] at h
    split at h
    · cases h
      simp only [loadValue, readBack]
      rw [loadValueMasked_storeValueMasked (by decide : relArmLdurMask = fieldMask 64 12 (20 + 1 - 12))
        (by decide) (by decide) (by decide) (Nat.mod_one _)]
    · cases h
  | absoluteArmCmp =>
    simp only [storeValue] at h
    split at h
    · cases h
      simp only [loadValue, readBack]
      rw [loadValueMasked_storeValueMasked (by decide : relArmCmpMask = fieldMask 64 10 (21 + 1 - 10))
        (by decide) (by decide) (by decide) (Nat.mod_one _)]
    · cases h

theorem ofNat_toNat_mod_eq_self_iff {m : Nat} (v : Cell) :
    BitVec.ofNat 64 (v.toNat % 2 ^ m) = v ↔ v.toNat < 2 ^ m := by
  constructor
  · intro h
    have hv := congrArg BitVec.toNat h
    rw [BitVec.toNat_ofNat, Nat.mod_eq_of_lt (Nat.lt_of_le_of_lt (Nat.mod_le _ _) v.isLt)] at hv
    rw [← hv]
    exact Nat.mod_lt _ (Nat.two_pow_pos m)
  · intro h
    rw [Nat.mod_eq_of_lt h, BitVec.ofNat_toNat, BitVec.setWidth_eq]

theorem readBack_eq_self_iff (k : RelocationClass) (pointer v : Cell) :
    readBack k pointer v = v ↔ Representable k pointer v := by
  cases k with
  | absoluteCell => exact iff_of_true rfl trivial
  | absolute => exact ofNat_toNat_mod_eq_self_iff v
  | absolute2 => exact ofNat_toNat_mod_eq_self_iff v
  | absolute1 => exact ofNat_toNat_mod_eq_self_iff v
  | relative =>
    rw [readBack, Representable, ← BitVec.eq_sub_iff_add_eq]
    exact signExtendLow_eq_self_iff (by decide) (by decide) _
  | relativeArmB =>
    rw [readBack, Representable, show ∀ a : Cell, a + pointer - 4 = v ↔ a = v - pointer + 4 by
      intro a; bv_omega]
    exact signExtendLow_eq_self_iff (by decide) (by decide) _
  | relativeArmBCondLdr =>
    rw [readBack, Representable, show ∀ a : Cell, a + pointer - 4 = v ↔ a = v - pointer + 4 by
      intro a; bv_omega]
    exact signExtendLow_eq_self_iff (by decide) (by decide) _
  | absoluteArmLdur => exact signExtendLow_eq_self_iff (by decide) (by decide) _
  | absoluteArmCmp => exact signExtendLow_eq_self_iff (by decide) (by decide) _

theorem storeValue_eq_storeSlot {v : Cell} (h : op.storeValue mem v = some mem') :
    ∃ value, mem' = op.storeSlot mem op.klass.width value := by
  obtain ⟨k, p⟩ := op
  cases k <;> simp only [storeValue] at h
  all_goals first
    | (cases h; exact ⟨_, rfl⟩)
    | (split at h
       · cases h
         exact ⟨_, rfl⟩
       · cases h)

theorem storeValue_eq_storeValueMasked {v : Cell} {lsb msb : Nat} (h : op.storeValue mem v = some mem')
    (hf : op.klass.fieldBits = some (lsb, msb)) :
    ∃ value s, s ≤ 2 ∧ mem' = op.storeValueMasked mem value (fieldMask 64 lsb (msb + 1 - lsb)) lsb s := by
  obtain ⟨k, p⟩ := op
  cases k <;> simp only [RelocationClass.fieldBits, Option.some.injEq, Prod.mk.injEq, reduceCtorEq] at hf <;>
    obtain ⟨rfl, rfl⟩ := hf <;> simp only [storeValue] at h <;> split at h <;> cases h
  · exact ⟨_, 2, Nat.le_refl 2, by rw [show relArmBMask = fieldMask 64 0 (25 + 1 - 0) by decide]⟩
  · exact ⟨_, 2, Nat.le_refl 2, by rw [show relArmBCondLdrMask = fieldMask 64 5 (23 + 1 - 5) by decide]⟩
  · exact ⟨_, 0, Nat.zero_le 2, by rw [show relArmLdurMask = fieldMask 64 12 (20 + 1 - 12) by decide]⟩
  · exact ⟨_, 0, Nat.zero_le 2, by rw [show relArmCmpMask = fieldMask 64 10 (21 + 1 - 10) by decide]⟩

theorem fieldBits_bounds {k : RelocationClass} {lsb msb : Nat} (hf : k.fieldBits = some (lsb, msb)) :
    lsb ≤ msb ∧ msb < 32 := by
  cases k <;> simp only [RelocationClass.fieldBits, Option.some.injEq, Prod.mk.injEq, reduceCtorEq] at hf <;>
    obtain ⟨rfl, rfl⟩ := hf <;> decide

theorem storeValue_frame {v : Cell} (h : op.storeValue mem v = some mem') :
    (∀ b, b < op.slot op.klass.width ∨ op.slot op.klass.width + op.klass.width ≤ b → mem' b = mem b) ∧
    ∀ lsb msb, op.klass.fieldBits = some (lsb, msb) → ∀ i, ¬(lsb ≤ i ∧ i ≤ msb) →
      (BitVec.ofNat 32 (load mem' (op.slot 4) 4)).getLsbD i = (BitVec.ofNat 32 (load mem (op.slot 4) 4)).getLsbD i := by
  refine ⟨fun b hb => ?_, fun lsb msb hf i hi => ?_⟩
  · obtain ⟨value, rfl⟩ := storeValue_eq_storeSlot h
    exact storeSlot_of_lt_or_le hb
  · obtain ⟨value, s, hs, rfl⟩ := storeValue_eq_storeValueMasked h hf
    obtain ⟨hlm, hmsb⟩ := fieldBits_bounds hf
    exact getLsbD_storeValueMasked rfl hlm hmsb (by omega) hi

theorem loadValue_storeValue_eq_iff {v : Cell} (h : op.storeValue mem v = some mem') :
    op.loadValue mem' op.pointer = v ↔ Representable op.klass op.pointer v := by
  rw [loadValue_storeValue h]
  exact readBack_eq_self_iff _ _ _

theorem representable_of_storeValue {v : Cell} (h : op.storeValue mem v = some mem')
    (hk : op.klass = .relativeArmB ∨ op.klass = .absoluteArmLdur) : Representable op.klass op.pointer v := by
  obtain ⟨k, p⟩ := op
  rcases hk with rfl | rfl <;> simp only [storeValue] at h <;> split at h
  · rename_i hc
    exact ⟨by simpa using hc.2.1, by simpa using hc.1⟩
  · cases h
  · rename_i hc
    have hlo := hc.1
    have hhi := hc.2
    exact ⟨by simp only [Int.reducePow, Int.reduceNeg]; omega, by simp only [Int.reducePow]; omega⟩
  · cases h

/-- The compare class admits 2048, which its signed 12-bit field reads back
as -2048; the branch-and-literal class admits a distance of 2^20, which its
19-bit field of words reads back as -2^20. This holds for every instruction
word and every operand position. -/
theorem storeValue_overflow_loadValue (mem : Nat → BitVec 8) (pointer : Cell) :
    (∃ mem', (⟨.absoluteArmCmp, pointer⟩ : InstructionOperand).storeValue mem 2048 = some mem' ∧
      (⟨.absoluteArmCmp, pointer⟩ : InstructionOperand).loadValue mem' pointer = -2048) ∧
    (∃ mem', (⟨.relativeArmBCondLdr, pointer⟩ : InstructionOperand).storeValue mem
        (pointer + 0x100000 - 4) = some mem' ∧
      (⟨.relativeArmBCondLdr, pointer⟩ : InstructionOperand).loadValue mem' pointer = pointer - 0x100000 - 4) := by
  have hrv : pointer + 0x100000 - 4 - pointer = 0x100000 - 4 := by bv_omega
  constructor
  · have hs : (⟨.absoluteArmCmp, pointer⟩ : InstructionOperand).storeValue mem 2048 =
        some (InstructionOperand.storeValueMasked ⟨.absoluteArmCmp, pointer⟩ mem 2048 relArmCmpMask 10 0) := by
      simp only [storeValue]
      rw [if_pos (by decide)]
    refine ⟨_, hs, ?_⟩
    rw [loadValue_storeValue hs]
    simp only [readBack]
    decide
  · have hs : (⟨.relativeArmBCondLdr, pointer⟩ : InstructionOperand).storeValue mem (pointer + 0x100000 - 4) =
        some (InstructionOperand.storeValueMasked ⟨.relativeArmBCondLdr, pointer⟩ mem (0x100000 - 4 + 4)
          relArmBCondLdrMask 5 2) := by
      simp only [storeValue, hrv]
      rw [if_pos (by decide)]
    refine ⟨_, hs, ?_⟩
    rw [loadValue_storeValue hs]
    simp only [readBack, hrv]
    rw [show signExtendLow 21 (0x100000 - 4 + 4 : Cell) = -0x100000 by decide]
    bv_omega

end InstructionOperand

end FactorProofs.Vm
