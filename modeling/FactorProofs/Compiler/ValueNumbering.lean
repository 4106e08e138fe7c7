import FactorProofs.Compiler.Cfg

namespace FactorProofs.Compiler

/-! Local value numbering (`compiler.cfg.value-numbering`) over the integer
instructions: the value graph, the rewrite rules of `value-numbering.math`
and `value-numbering.folding`, and redundancy elimination through
`exprs>vns`. The target is x86-64. -/

/-- `immediate-arithmetic?` and `immediate-bitwise?` on x86: a sign-extended
32-bit immediate. -/
def immediateArithmetic (n : Int) : Bool := decide (-0x80000000 ≤ n ∧ n ≤ 0x7fffffff)

def immediateBitwise (n : Int) : Bool := decide (-0x80000000 ≤ n ∧ n ≤ 0x7fffffff)

def immediateShiftCount (n : Int) : Bool := decide (0 ≤ n ∧ n ≤ (cellBits : Int) - 1)

/-- `shift` on integers: `x * 2^n`, rounded down when `n < 0`. -/
def shift (x n : Int) : Int := if 0 ≤ n then x * 2 ^ n.toNat else x / 2 ^ (-n).toNat

/-- `wrap` of `math.bitwise`: `m n 1 - bitand`. -/
def wrap (m n : Int) : Int := Int.land m (n - 1)

def powerOf2 (n : Int) : Bool := if n ≤ 0 then false else Int.land n (n - 1) = 0

/-- `binary-constant-fold*`: the value of an `-imm` instruction whose input is
the literal `x`, computed on integers. -/
def BinaryOp.constantFold : BinaryOp → Int → Int → Int
  | .add, x, y => x + y
  | .sub, x, y => x - y
  | .mul, x, y => x * y
  | .and, x, y => Int.land x y
  | .or, x, y => Int.lor x y
  | .xor, x, y => Int.xor x y
  | .shr, x, y => shift (wrap x (2 ^ cellBits)) (-y)
  | .sar, x, y => shift x (-y)
  | .shl, x, y => shift x y

/-- `unary-constant-fold*`. -/
def UnaryOp.constantFold : UnaryOp → Int → Int
  | .neg, x => -x
  | .not, x => Int.not x

/-- `>expr`: an instruction with each input replaced by its value number. -/
inductive Expr
  | integer (val : Int)
  | unary (op : UnaryOp) (src : Vreg)
  | binary (op : BinaryOp) (src1 src2 : Vreg)
  | binaryImm (op : BinaryOp) (src1 : Vreg) (src2 : Int)
  deriving DecidableEq, Repr

/-- The three tables of `compiler.cfg.value-numbering.graph`, and the
compiler's `vreg-counter` that `next-vreg` advances. Value numbers are vregs. -/
structure ValueGraph where
  vregsToVns : Vreg → Option Vreg
  exprsToVns : Expr → Option Vreg
  vnsToInsns : Vreg → Option Insn
  vregCounter : Nat

namespace ValueGraph

/-- `init-value-graph`. -/
def init (vregCounter : Nat) : ValueGraph := ⟨fun _ => none, fun _ => none, fun _ => none, vregCounter⟩

/-- `vreg>vn`: a vreg not seen yet is its own value number. -/
def vregToVn (g : ValueGraph) (vreg : Vreg) : Vreg := (g.vregsToVns vreg).getD vreg

def setVn (g : ValueGraph) (vn vreg : Vreg) : ValueGraph :=
  { g with vregsToVns := Function.update g.vregsToVns vreg (some vn) }

/-- `vreg>insn`. -/
def vregToInsn (g : ValueGraph) (vreg : Vreg) : Option Insn := g.vnsToInsns (g.vregToVn vreg)

/-- The literal of `vreg>insn` when it is a `##load-integer` whose value
passes `immediate?`. -/
def vregImmediate (g : ValueGraph) (immediate : Int → Bool) (vreg : Vreg) : Option Int :=
  match g.vregToInsn vreg with
  | some (.loadInteger _ val) => if immediate val then some val else none
  | _ => none

/-- `next-vreg`. -/
def nextVreg (g : ValueGraph) : Vreg × ValueGraph :=
  (g.vregCounter + 1, { g with vregCounter := g.vregCounter + 1 })

end ValueGraph

open ValueGraph

/-- `binary-constant-fold`. -/
def binaryConstantFold (op : BinaryOp) (dst : Vreg) (x src2 : Int) : List Insn :=
  [.loadInteger dst (op.constantFold x src2)]

/-- `reassociate-arithmetic` and `reassociate-bitwise`: two `-imm`
instructions of one associative operation become one, when the combined
immediate still fits. -/
def reassociate (immediate : Int → Bool) (op : BinaryOp) (dst src1 : Vreg) (x y : Int) : Option (List Insn) :=
  let imm := op.constantFold x y
  if immediate imm then some [.binaryImm op dst src1 imm] else none

/-- `reassociate-shift`: two shifts of one kind add their counts. -/
def reassociateShift (op : BinaryOp) (dst src1 : Vreg) (x y : Int) : Option (List Insn) :=
  if immediateShiftCount (x + y) then some [.binaryImm op dst src1 (x + y)] else none

/-- `distribute`: `(src1 + x) * y` becomes `src1 * y + x * y` through a new
vreg, when `x * y` is an immediate. `next-vreg` runs before the check. -/
def distribute (g : ValueGraph) (addOp mulOp : BinaryOp) (dst src1 : Vreg) (x y : Int) :
    Option (List Insn) × ValueGraph :=
  let imm := mulOp.constantFold x y
  let (temp, g') := g.nextVreg
  if immediateArithmetic imm then (some [.binaryImm mulOp temp src1 y, .binaryImm addOp dst temp imm], g')
  else (none, g')

/-- The `rewrite` methods of `##neg` and `##not`: a double negation is a copy,
and a literal input folds. -/
def rewriteUnary (g : ValueGraph) (op : UnaryOp) (dst src : Vreg) : Option (List Insn) :=
  match g.vregToInsn src with
  | some (.unary op' _ src') => if op' = op then some [.copy dst src'] else none
  | some (.loadInteger _ x) => some [.loadInteger dst (op.constantFold x)]
  | _ => none

/-- The `rewrite` methods of the `-imm` instructions, each with its own order
of identities, folds, reassociation and distribution. -/
def rewriteBinaryImm (g : ValueGraph) (op : BinaryOp) (dst src1 : Vreg) (src2 : Int) :
    Option (List Insn) × ValueGraph :=
  let inner := g.vregToInsn src1
  match op with
  | .add =>
    if src2 = 0 then (some [.copy dst src1], g)
    else match inner with
      | some (.loadInteger _ x) => (some (binaryConstantFold .add dst x src2), g)
      | some (.binaryImm .add _ s x) => (reassociate immediateArithmetic .add dst s x src2, g)
      | _ => (none, g)
  | .sub =>
    -- `sub-imm>add-imm`
    (if immediateArithmetic (-src2) then some [.binaryImm .add dst src1 (-src2)] else none, g)
  | .mul =>
    match inner with
    | some (.loadInteger _ x) => (some (binaryConstantFold .mul dst x src2), g)
    | _ =>
      if src2 = -1 then (some [.unary .neg dst src1], g)
      else if powerOf2 src2 then (some [.binaryImm .shl dst src1 (src2.toNat.log2 : Int)], g)
      else match inner with
        | some (.binaryImm .mul _ s x) => (reassociate immediateArithmetic .mul dst s x src2, g)
        | some (.binaryImm .add _ s x) => distribute g .add .mul dst s x src2
        | some (.binaryImm .sub _ s x) => distribute g .sub .mul dst s x src2
        | _ => (none, g)
  | .and =>
    match inner with
    | some (.loadInteger _ x) => (some (binaryConstantFold .and dst x src2), g)
    | some (.binaryImm .and _ s x) => (reassociate immediateBitwise .and dst s x src2, g)
    | _ =>
      if src2 = 0 then (some [.loadInteger dst 0], g)
      else if src2 = -1 then (some [.copy dst src1], g)
      else (none, g)
  | .or =>
    if src2 = 0 then (some [.copy dst src1], g)
    else if src2 = -1 then (some [.loadInteger dst (-1)], g)
    else match inner with
      | some (.loadInteger _ x) => (some (binaryConstantFold .or dst x src2), g)
      | some (.binaryImm .or _ s x) => (reassociate immediateBitwise .or dst s x src2, g)
      | _ => (none, g)
  | .xor =>
    if src2 = 0 then (some [.copy dst src1], g)
    else if src2 = -1 then (some [.unary .not dst src1], g)
    else match inner with
      | some (.loadInteger _ x) => (some (binaryConstantFold .xor dst x src2), g)
      | some (.binaryImm .xor _ s x) => (reassociate immediateBitwise .xor dst s x src2, g)
      | _ => (none, g)
  | .shl =>
    if src2 = 0 then (some [.copy dst src1], g)
    else match inner with
      | some (.loadInteger _ x) => (some (binaryConstantFold .shl dst x src2), g)
      | some (.binaryImm .shl _ s x) => (reassociateShift .shl dst s x src2, g)
      | some (.binaryImm .add _ s x) => distribute g .add .shl dst s x src2
      | some (.binaryImm .sub _ s x) => distribute g .sub .shl dst s x src2
      | _ => (none, g)
  | .shr =>
    if src2 = 0 then (some [.copy dst src1], g)
    else match inner with
      | some (.loadInteger _ x) => (some (binaryConstantFold .shr dst x src2), g)
      | some (.binaryImm .shr _ s x) => (reassociateShift .shr dst s x src2, g)
      | _ => (none, g)
  | .sar =>
    if src2 = 0 then (some [.copy dst src1], g)
    else match inner with
      | some (.loadInteger _ x) => (some (binaryConstantFold .sar dst x src2), g)
      | some (.binaryImm .sar _ s x) => (reassociateShift .sar dst s x src2, g)
      | _ => (none, g)

/-- `insn>imm-insn` for the operand that is a literal: the second one, or,
for a commutative operation, the first. -/
def toImmInsn (g : ValueGraph) (immediate : Int → Bool) (op : BinaryOp) (commutes : Bool)
    (dst src1 src2 : Vreg) : Option (List Insn) :=
  match g.vregImmediate immediate src2 with
  | some y => some [.binaryImm op dst src1 y]
  | none =>
    if commutes then (g.vregImmediate immediate src1).map fun x => [.binaryImm op dst src2 x] else none

/-- `zero-insn?`. -/
def zeroInsn : Option Insn → Bool
  | some (.loadInteger _ val) => val == 0
  | _ => false

/-- The `rewrite` methods of the register forms. -/
def rewriteBinary (g : ValueGraph) (op : BinaryOp) (dst src1 src2 : Vreg) : Option (List Insn) :=
  -- `diagonal?`: both inputs have one value number
  let diagonal := g.vregToVn src1 = g.vregToVn src2
  match op with
  | .add => toImmInsn g immediateArithmetic .add true dst src1 src2
  | .sub =>
    if zeroInsn (g.vregToInsn src1) then some [.unary .neg dst src2]
    else if diagonal then some [.loadInteger dst 0]
    else toImmInsn g immediateArithmetic .sub false dst src1 src2
  | .mul => toImmInsn g immediateArithmetic .mul true dst src1 src2
  | .and => if diagonal then some [.copy dst src1] else toImmInsn g immediateBitwise .and true dst src1 src2
  | .or => if diagonal then some [.copy dst src1] else toImmInsn g immediateBitwise .or true dst src1 src2
  | .xor => if diagonal then some [.loadInteger dst 0] else toImmInsn g immediateBitwise .xor true dst src1 src2
  | .shl => toImmInsn g immediateBitwise .shl false dst src1 src2
  | .shr => toImmInsn g immediateBitwise .shr false dst src1 src2
  | .sar => toImmInsn g immediateBitwise .sar false dst src1 src2

/-- `rewrite`: the replacement of an instruction, if any. -/
def rewrite (g : ValueGraph) : Insn → Option (List Insn) × ValueGraph
  | .loadInteger _ _ | .copy _ _ => (none, g)
  | .unary op dst src => (rewriteUnary g op dst src, g)
  | .binaryImm op dst src1 src2 => rewriteBinaryImm g op dst src1 src2
  | .binary op dst src1 src2 => (rewriteBinary g op dst src1 src2, g)

def Insn.toExpr (g : ValueGraph) : Insn → Option Expr
  | .loadInteger _ val => some (.integer val)
  | .copy _ _ => none
  | .unary op _ src => some (.unary op (g.vregToVn src))
  | .binary op _ src1 src2 => some (.binary op (g.vregToVn src1) (g.vregToVn src2))
  | .binaryImm op _ src1 src2 => some (.binaryImm op (g.vregToVn src1) src2)

/-- `check-redundancy`: an instruction whose expression has a value number
already becomes a copy of it (`redundant-instruction`); otherwise its
destination becomes the value number of its expression (`useful-instruction`). -/
def checkRedundancy (g : ValueGraph) (insn : Insn) : List Insn × ValueGraph :=
  match insn.toExpr g with
  | none => ([insn], g)
  | some expr =>
    match g.exprsToVns expr with
    | some vn => ([.copy insn.dst vn], g.setVn vn insn.dst)
    | none =>
      let vn := insn.dst
      ([insn], { g with
        vregsToVns := Function.update g.vregsToVns vn (some vn)
        exprsToVns := Function.update g.exprsToVns expr (some vn)
        vnsToInsns := Function.update g.vnsToInsns vn (some insn) })

/-- `M: array process-instruction`: the instructions of a rewrite in order,
each with the graph the previous one left. -/
def processList (process : ValueGraph → Insn → Option (List Insn × ValueGraph)) :
    ValueGraph → List Insn → Option (List Insn × ValueGraph)
  | g, [] => some ([], g)
  | g, insn :: insns =>
    match process g insn with
    | none => none
    | some (out, g) =>
      match processList process g insns with
      | none => none
      | some (out', g) => some (out ++ out', g)

/-- `process-instruction`. A rewrite is processed again, so chains of
rewrites are followed; `fuel` bounds their length and `none` means it ran
out. -/
def processInstruction : Nat → ValueGraph → Insn → Option (List Insn × ValueGraph)
  | 0, _, _ => none
  | _ + 1, g, .copy dst src => some ([.copy dst src], g.setVn (g.vregToVn src) dst)
  | fuel + 1, g, insn =>
    match rewrite g insn with
    | (some insns, g) => processList (processInstruction fuel) g insns
    | (none, g) => some (checkRedundancy g insn)

/-- `value-numbering-step` on one basic block; `vregCounter` is the
compiler's counter when the pass starts. -/
def valueNumberingStep (fuel vregCounter : Nat) (insns : List Insn) : Option (List Insn) :=
  (processList (processInstruction fuel) (ValueGraph.init vregCounter) insns).map Prod.fst

theorem processList_mono {p q : ValueGraph → Insn → Option (List Insn × ValueGraph)}
    (hpq : ∀ g insn out, p g insn = some out → q g insn = some out) {g : ValueGraph} {insns : List Insn}
    {out : List Insn × ValueGraph} (h : processList p g insns = some out) : processList q g insns = some out := by
  induction insns generalizing g out with
  | nil => exact h
  | cons insn insns ih =>
    simp only [processList] at h ⊢
    cases hp : p g insn with
    | none => simp [hp] at h
    | some first =>
      obtain ⟨out₁, g₁⟩ := first
      rw [hpq g insn _ hp]
      simp only [hp] at h
      cases hrest : processList p g₁ insns with
      | none => simp [hrest] at h
      | some rest =>
        simp only [hrest] at h
        simp only [ih hrest]
        exact h

theorem processInstruction_succ {fuel : Nat} {g : ValueGraph} {insn : Insn} {out : List Insn × ValueGraph}
    (h : processInstruction fuel g insn = some out) : processInstruction (fuel + 1) g insn = some out := by
  induction fuel generalizing g insn out with
  | zero => simp [processInstruction] at h
  | succ fuel ih =>
    cases insn with
    | copy dst src => exact h
    | loadInteger | unary | binary | binaryImm =>
      simp only [processInstruction] at h ⊢
      split at h
      · exact processList_mono (fun _ _ _ hp => ih hp) h
      · exact h

theorem valueNumberingStep_mono {fuel fuel' vregCounter : Nat} (hle : fuel ≤ fuel') {insns out : List Insn}
    (h : valueNumberingStep fuel vregCounter insns = some out) :
    valueNumberingStep fuel' vregCounter insns = some out := by
  induction hle with
  | refl => exact h
  | step _ ih =>
    obtain ⟨run, hrun, hout⟩ := Option.map_eq_some_iff.mp ih
    exact Option.map_eq_some_iff.mpr ⟨run, processList_mono (fun _ _ _ hp => processInstruction_succ hp) hrun, hout⟩

/-- The folded `##shl-imm` leaves the integer `2^63`, which the machine holds
as the word `-2^63`; `##sar-imm` then folds `2^63 >> 63 = 1`, where the
machine shifts the sign in and gets `-1`, and the literal `1` is found
redundant with vreg 1. -/
theorem valueNumbering_sar_fold_diverges :
    valueNumberingStep 2 3 [.loadInteger 1 1, .binaryImm .shl 2 1 63, .binaryImm .sar 3 2 63] =
        some [.loadInteger 1 1, .loadInteger 2 (2 ^ 63), .copy 3 1] ∧
      ∀ r : Regs, execBlock r [.loadInteger 1 1, .binaryImm .shl 2 1 63, .binaryImm .sar 3 2 63] 3 = -1 ∧
        execBlock r [.loadInteger 1 1, .loadInteger 2 (2 ^ 63), .copy 3 1] 3 = 1 := by
  refine ⟨by decide, fun r => ⟨?_, ?_⟩⟩
  · simp only [execBlock_cons, execBlock_nil, Insn.exec, Insn.dst, Insn.value, Function.update_self]
    decide
  · -- the copy reads vreg 1 past the update of vreg 2
    simp only [execBlock_cons, execBlock_nil, Insn.exec, Insn.dst, Insn.value, Function.update_self,
      Function.update_of_ne (show (1 : Vreg) ≠ 2 by decide)]
    decide

end FactorProofs.Compiler
