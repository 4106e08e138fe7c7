import FactorProofs.Vm.BitwiseHacks
import Mathlib.Data.Int.Bitwise

namespace FactorProofs.Compiler

open FactorProofs.Vm

/-! The integer instructions of the low-level IR (`compiler.cfg.instructions`)
and what the generated x86-64 code computes for each on cell-sized words. -/

/-- The binary integer instructions `##add` ... `##sar`; each has an `-imm`
form whose second operand is a literal. -/
inductive BinaryOp
  | add | sub | mul | and | or | xor | shl | shr | sar
  deriving DecidableEq, Repr

inductive UnaryOp
  | neg | not
  deriving DecidableEq, Repr

abbrev Vreg := Nat

inductive Insn
  | loadInteger (dst : Vreg) (val : Int)
  | copy (dst src : Vreg)
  | unary (op : UnaryOp) (dst src : Vreg)
  | binary (op : BinaryOp) (dst src1 src2 : Vreg)
  | binaryImm (op : BinaryOp) (dst src1 : Vreg) (src2 : Int)
  deriving DecidableEq, Repr

/-- `cell-bits` on x86-64. -/
def cellBits : Nat := 64

/-- Arithmetic wraps modulo `2^64`; a shift uses the low six bits of its
count, as the x86-64 shift instructions do, and `##sar` shifts the
two's-complement reading. -/
def BinaryOp.eval : BinaryOp → Cell → Cell → Cell
  | .add, x, y => x + y
  | .sub, x, y => x - y
  | .mul, x, y => x * y
  | .and, x, y => x &&& y
  | .or, x, y => x ||| y
  | .xor, x, y => x ^^^ y
  | .shl, x, y => x <<< (y.toNat % cellBits)
  | .shr, x, y => x >>> (y.toNat % cellBits)
  | .sar, x, y => x.sshiftRight (y.toNat % cellBits)

def UnaryOp.eval : UnaryOp → Cell → Cell
  | .neg, x => -x
  | .not, x => ~~~x

/-- The contents of the virtual registers. -/
abbrev Regs := Vreg → Cell

def Insn.dst : Insn → Vreg
  | .loadInteger dst _ | .copy dst _ | .unary _ dst _ | .binary _ dst _ _ | .binaryImm _ dst _ _ => dst

/-- A literal is loaded as the word with its low 64 bits. -/
def Insn.value (r : Regs) : Insn → Cell
  | .loadInteger _ val => BitVec.ofInt 64 val
  | .copy _ src => r src
  | .unary op _ src => op.eval (r src)
  | .binary op _ src1 src2 => op.eval (r src1) (r src2)
  | .binaryImm op _ src1 src2 => op.eval (r src1) (BitVec.ofInt 64 src2)

def Insn.exec (r : Regs) (insn : Insn) : Regs := Function.update r insn.dst (insn.value r)

def execBlock (r : Regs) (insns : List Insn) : Regs := insns.foldl Insn.exec r

@[simp]
theorem execBlock_nil (r : Regs) : execBlock r [] = r := rfl

@[simp]
theorem execBlock_cons (r : Regs) (insn : Insn) (insns : List Insn) :
    execBlock r (insn :: insns) = execBlock (insn.exec r) insns := rfl

theorem execBlock_append (r : Regs) (insns insns' : List Insn) :
    execBlock r (insns ++ insns') = execBlock (execBlock r insns) insns' := List.foldl_append

theorem execBlock_of_not_mem (r : Regs) {insns : List Insn} {v : Vreg} (hv : ∀ insn ∈ insns, insn.dst ≠ v) :
    execBlock r insns v = r v := by
  induction insns generalizing r with
  | nil => rfl
  | cons insn insns ih =>
    rw [execBlock_cons, ih _ fun i hi => hv i (List.mem_cons_of_mem _ hi), Insn.exec,
      Function.update_of_ne (hv insn List.mem_cons_self).symm]

end FactorProofs.Compiler
