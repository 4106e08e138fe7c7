import FactorProofs.Compiler.Rpo
import FactorProofs.Core.Sorting

namespace FactorProofs.Compiler.Dominance

open FactorProofs.Core.Sorting

/-! `compiler.cfg.dominance`: the dominator tree by the iteration of Cooper,
Harvey and Kennedy over the reverse post-order, its children lists, and the
preorder numbering of the tree that `dominates?` reads. The hash tables are
functions to `Option`; `none` stands for a missing entry, and a computation
that would fail (a missing number or parent, `map-reduce` on nothing, a loop
out of fuel) returns `none`. -/

variable {V : Type} [DecidableEq V]

/-- `set-idom`: `maybe-set-at` on `dom-parents`, answering whether the entry changed. -/
def setIdom (idom bb : V) (domParents : V → Option V) : Bool × (V → Option V) :=
  (domParents bb != some idom, Function.update domParents bb (some idom))

/-- `intersect`: the finger with the larger `number>>` moves to its parent until
the fingers meet. -/
def intersect (number : V → Option ℕ) (domParents : V → Option V) : ℕ → V → V → Option V
  | 0, _, _ => none
  | fuel + 1, finger1, finger2 => do
    let n1 ← number finger1
    let n2 ← number finger2
    match compare n1 n2 with
    | .gt => intersect number domParents fuel (← domParents finger1) finger2
    | .lt => intersect number domParents fuel finger1 (← domParents finger2)
    | .eq => pure finger1

/-- `compute-idom`: the predecessors that have a parent already, reduced by
`intersect`. -/
def computeIdom (cfg : Cfg V) (number : V → Option ℕ) (domParents : V → Option V) (fuel : ℕ) (bb : V) :
    Option V :=
  match (cfg.predecessors bb).filter fun p => (domParents p).isSome with
  | [] => none
  | p :: ps => ps.foldlM (intersect number domParents fuel) p

/-- The quotation of `iterate`'s `reduce`: `compute-idom` and `set-idom` of
one block, or-ed into whether a parent changed. -/
def iterateStep (cfg : Cfg V) (number : V → Option ℕ) (fuel : ℕ) (acc : Bool × (V → Option V)) (bb : V) :
    Option (Bool × (V → Option V)) := do
  let idom ← computeIdom cfg number acc.2 fuel bb
  let r := setIdom idom bb acc.2
  pure (acc.1 || r.1, r.2)

/-- `iterate`: one pass over the blocks, answering whether any parent changed. -/
def iterate (cfg : Cfg V) (number : V → Option ℕ) (fuel : ℕ) (rpo : List V) (domParents : V → Option V) :
    Option (Bool × (V → Option V)) :=
  rpo.foldlM (iterateStep cfg number fuel) (false, domParents)

/-- `[ _ iterate ] loop` -/
def domLoop (cfg : Cfg V) (number : V → Option ℕ) (fuel : ℕ) (rpo : List V) :
    ℕ → (V → Option V) → Option (V → Option V)
  | 0, _ => none
  | passes + 1, domParents => do
    let r ← iterate cfg number fuel rpo domParents
    if r.1 then domLoop cfg number fuel rpo passes r.2 else pure r.2

/-- `compute-dom-parents`: the entry is its own parent, then the loop over
the rest of the reverse post-order. -/
def computeDomParents (cfg : Cfg V) (fuel : ℕ) : Option (V → Option V) := do
  let po ← postOrder cfg fuel
  match po.reverse with
  | [] => none
  | entry :: rest => domLoop cfg (numberBlocks po) fuel rest fuel (setIdom entry entry fun _ => none).2

/-- The quotation of `assoc-each` in `compute-dom-children`: a block that is
not its own parent is pushed onto the list of its parent. -/
def pushChild (domParents : V → Option V) (childrens : V → List V) (bb : V) : V → List V :=
  match domParents bb with
  | some parent => if bb = parent then childrens else Function.update childrens parent (childrens parent ++ [bb])
  | none => childrens

/-- The `push-at` loop of `compute-dom-children` over the entries of
`dom-parents`, in the order `blocks` lists them. -/
def pushChildren (blocks : List V) (domParents : V → Option V) : V → List V :=
  blocks.foldl (pushChild domParents) fun _ => []

/-- `number>>` as the key of `sort-by`; only numbered blocks reach it. -/
def numberKey (number : V → Option ℕ) (b : V) : WithBot ℕ := number b

/-- `compute-dom-children`: each list sorted by `number>>`. -/
def computeDomChildren (number : V → Option ℕ) (blocks : List V) (domParents : V → Option V) : V → List V :=
  fun bb => sortBy (numberKey number) (pushChildren blocks domParents bb)

/-- The `preorder` and `maxpreorder` tables. -/
structure Numbering (V : Type) where
  preorder : V → Option ℕ
  maxpreorder : V → Option ℕ

/-- `(compute-dfs)`: the next number is the preorder number of `bb`; the
children are numbered after it, and the last number used is its
`maxpreorder`. -/
def computeDfsAux (domChildren : V → List V) : ℕ → ℕ → V → Numbering V → Option (ℕ × Numbering V)
  | 0, _, _, _ => none
  | fuel + 1, n, bb, t => do
    let t := { t with preorder := Function.update t.preorder bb (some (n + 1)) }
    let r ← (domChildren bb).foldlM (fun r c => computeDfsAux domChildren fuel r.1 c r.2) (n + 1, t)
    pure (r.1, { r.2 with maxpreorder := Function.update r.2.maxpreorder bb (some r.1) })

def computeDfs (entry : V) (domChildren : V → List V) (fuel : ℕ) : Option (Numbering V) :=
  (computeDfsAux domChildren fuel 0 entry ⟨fun _ => none, fun _ => none⟩).map Prod.snd

/-- The tables `compute-dominance` leaves. -/
structure Tables (V : Type) where
  domParents : V → Option V
  domChildrens : V → List V
  numbering : Numbering V

/-- `compute-dominance`. The children are pushed in the order of the reverse
post-order, the blocks that have entries in `dom-parents`. -/
def computeDominance (cfg : Cfg V) (fuel : ℕ) : Option (Tables V) := do
  let domParents ← computeDomParents cfg fuel
  let po ← postOrder cfg fuel
  let domChildrens := computeDomChildren (numberBlocks po) po.reverse domParents
  let numbering ← computeDfs cfg.entry domChildrens fuel
  pure ⟨domParents, domChildrens, numbering⟩

def Tables.domParent (d : Tables V) (bb : V) : Option V := d.domParents bb

def Tables.domChildren (d : Tables V) (bb : V) : List V := d.domChildrens bb

def Tables.preOf (d : Tables V) (bb : V) : Option ℕ := d.numbering.preorder bb

def Tables.maxpreOf (d : Tables V) (bb : V) : Option ℕ := d.numbering.maxpreorder bb

/-- `dominates?`: `pre-of bb2` is between `pre-of bb1` and `maxpre-of bb1`;
`none` where `between?` would meet `f`. -/
def Tables.dominatesP (d : Tables V) (bb1 bb2 : V) : Option Bool := do
  let x ← d.preOf bb2
  let lo ← d.preOf bb1
  let hi ← d.maxpreOf bb1
  pure (decide (lo ≤ x ∧ x ≤ hi))

end FactorProofs.Compiler.Dominance
