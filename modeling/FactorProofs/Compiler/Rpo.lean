import FactorProofs.Library.Dominators
import FactorProofs.Library.Containers
import Mathlib.Data.Fintype.Card

namespace FactorProofs.Compiler

open FactorProofs.Dominators FactorProofs.Containers

/-! `compiler.cfg` and `compiler.cfg.rpo`: the blocks of a control-flow graph
and the post-order a depth-first traversal from the entry gives them, which
`number-blocks` turns into the numbering of the reverse post-order. -/

/-- The slots of `basic-block` and `cfg` that the traversals read. -/
structure Cfg (V : Type) where
  entry : V
  successors : V → List V
  predecessors : V → List V

namespace Cfg

variable {V : Type}

def Edge (cfg : Cfg V) (p x : V) : Prop := x ∈ cfg.successors p

/-- `compute-predecessors` has made the predecessor lists the inverse of the
successor lists. -/
def PredsInverse (cfg : Cfg V) : Prop := ∀ p x, p ∈ cfg.predecessors x ↔ x ∈ cfg.successors p

end Cfg

variable {V : Type} [DecidableEq V]

/-- The `visited` hash set and what `,` has emitted into the `make` accumulator. -/
structure Traversal (V : Type) where
  visited : Finset V
  out : List V

/-- `post-order-traversal`; `none` when the recursion runs out of fuel. -/
def postOrderTraversal (successors : V → List V) : ℕ → V → Traversal V → Option (Traversal V)
  | 0, _, _ => none
  | fuel + 1, bb, t =>
    if bb ∈ t.visited then some t
    else do
      let t' ← (successors bb).reverse.foldlM (fun t s => postOrderTraversal successors fuel s t)
        ⟨insert bb t.visited, t.out⟩
      pure ⟨t'.visited, t'.out ++ [bb]⟩

/-- `number-blocks`: the blocks get the numbers of `length <iota> <reversed>`. -/
def numberBlocks (blocks : List V) : V → Option ℕ :=
  (blocks.zip (List.range blocks.length).reverse).foldl
    (fun number p => Function.update number p.1 (some p.2)) fun _ => none

def postOrder (cfg : Cfg V) (fuel : ℕ) : Option (List V) :=
  (postOrderTraversal cfg.successors fuel cfg.entry ⟨∅, []⟩).map Traversal.out

def reversePostOrder (cfg : Cfg V) (fuel : ℕ) : Option (List V) :=
  (postOrder cfg fuel).map List.reverse

section Traversal

variable (cfg : Cfg V)

structure Traversal.Good (S : List V) (t : Traversal V) : Prop where
  out_nodup : t.out.Nodup
  mem_visited : ∀ x, x ∈ t.visited ↔ x ∈ t.out ∨ x ∈ S
  out_not_mem : ∀ x ∈ t.out, x ∉ S
  closed : ∀ x ∈ t.out, ∀ y ∈ cfg.successors x, y ∈ t.visited
  reachable : ∀ x ∈ t.visited, Reachable cfg.Edge cfg.entry x
  parent : ∀ x ∈ t.out, x ≠ cfg.entry →
    ∃ p, cfg.Edge p x ∧ (p ∈ S ∨ (p ∈ t.out ∧ t.out.idxOf x < t.out.idxOf p))

/-- A later state of the traversal: more visited, more emitted. -/
structure Traversal.Le (t t' : Traversal V) : Prop where
  visited : t.visited ⊆ t'.visited
  out : ∃ new, t'.out = t.out ++ new

variable {cfg}

omit [DecidableEq V] in
theorem Traversal.Le.refl (t : Traversal V) : t.Le t := ⟨subset_refl _, [], (List.append_nil _).symm⟩

omit [DecidableEq V] in
theorem Traversal.Le.trans {t₁ t₂ t₃ : Traversal V} (h₁ : t₁.Le t₂) (h₂ : t₂.Le t₃) : t₁.Le t₃ := by
  obtain ⟨n₁, h₁o⟩ := h₁.out
  obtain ⟨n₂, h₂o⟩ := h₂.out
  exact ⟨subset_trans h₁.visited h₂.visited, n₁ ++ n₂, by rw [h₂o, h₁o, List.append_assoc]⟩

theorem Traversal.Good.push {S : List V} {t : Traversal V} (ht : t.Good cfg S) {bb : V}
    (hbb : bb ∉ t.visited) (hreach : Reachable cfg.Edge cfg.entry bb) :
    Traversal.Good cfg (bb :: S) ⟨insert bb t.visited, t.out⟩ where
  out_nodup := ht.out_nodup
  mem_visited x := by
    rw [Finset.mem_insert, ht.mem_visited, List.mem_cons]
    tauto
  out_not_mem x hx := by
    rw [List.mem_cons, not_or]
    exact ⟨fun h => hbb (h ▸ (ht.mem_visited x).mpr (.inl hx)), ht.out_not_mem x hx⟩
  closed x hx y hy := Finset.mem_insert_of_mem (ht.closed x hx y hy)
  reachable x hx := by
    rcases Finset.mem_insert.mp hx with rfl | hx
    · exact hreach
    · exact ht.reachable x hx
  parent x hx hxe := by
    obtain ⟨p, hp, hS⟩ := ht.parent x hx hxe
    exact ⟨p, hp, hS.imp (List.mem_cons_of_mem bb) id⟩

theorem Traversal.Good.pop {S : List V} {t : Traversal V} {bb : V} (ht : t.Good cfg (bb :: S))
    (hS : bb ∉ S) (hsucc : ∀ y ∈ cfg.successors bb, y ∈ t.visited)
    (hcaller : bb ≠ cfg.entry → ∃ p ∈ S, cfg.Edge p bb) :
    Traversal.Good cfg S ⟨t.visited, t.out ++ [bb]⟩ := by
  have hbb : bb ∉ t.out := fun h => ht.out_not_mem bb h List.mem_cons_self
  refine ⟨?_, fun x => ?_, fun x hx => ?_, fun x hx => ?_, ht.reachable, fun x hx hxe => ?_⟩
  · rw [← List.concat_eq_append, List.nodup_concat]
    exact ⟨hbb, ht.out_nodup⟩
  · rw [ht.mem_visited, List.mem_append, List.mem_singleton, List.mem_cons]
    tauto
  · rcases List.mem_append.mp hx with hx | hx
    · exact fun h => ht.out_not_mem x hx (List.mem_cons_of_mem _ h)
    · exact List.mem_singleton.mp hx ▸ hS
  · rcases List.mem_append.mp hx with hx | hx
    · exact ht.closed x hx
    · exact List.mem_singleton.mp hx ▸ hsucc
  · dsimp only at hx ⊢
    rcases List.mem_append.mp hx with hxo | hxb
    · obtain ⟨p, hp, hpS⟩ := ht.parent x hxo hxe
      refine ⟨p, hp, ?_⟩
      rcases hpS with hpS | ⟨hpo, hlt⟩
      · rcases List.mem_cons.mp hpS with rfl | hpS
        · -- the open call of `p` is the one being closed
          refine .inr ⟨List.mem_append_right _ (List.mem_singleton_self p), ?_⟩
          rw [List.idxOf_append_of_mem hxo, List.idxOf_append_of_notMem hbb, List.idxOf_cons_self]
          exact Nat.lt_of_lt_of_le (List.idxOf_lt_length_of_mem hxo) (Nat.le_add_right _ _)
        · exact .inl hpS
      · refine .inr ⟨List.mem_append_left _ hpo, ?_⟩
        rwa [List.idxOf_append_of_mem hxo, List.idxOf_append_of_mem hpo]
    · obtain ⟨p, hpS, hp⟩ := hcaller (List.mem_singleton.mp hxb ▸ hxe)
      exact ⟨p, List.mem_singleton.mp hxb ▸ hp, .inl hpS⟩

variable [Fintype V]

/-- The spec of one call: run from a state with the calls of `S` open, with
fuel above the number of blocks not yet visited. -/
def TraversalSpec (cfg : Cfg V) (fuel : ℕ) : Prop :=
  ∀ bb t S, t.Good cfg S → (Finset.univ \ t.visited).card < fuel → Reachable cfg.Edge cfg.entry bb →
    (bb ≠ cfg.entry → ∃ p ∈ S, cfg.Edge p bb) →
    ∃ t', postOrderTraversal cfg.successors fuel bb t = some t' ∧ t'.Good cfg S ∧ bb ∈ t'.visited ∧
      t.Le t' ∧ (bb ∉ t.visited → ∃ new, t'.out = t.out ++ new ++ [bb])

theorem foldlM_postOrderTraversal {fuel : ℕ} (ih : TraversalSpec cfg fuel) {b : V} {S : List V}
    (hb : Reachable cfg.Edge cfg.entry b) :
    ∀ ss : List V, (∀ s ∈ ss, cfg.Edge b s) → ∀ t : Traversal V, t.Good cfg (b :: S) →
      (Finset.univ \ t.visited).card < fuel →
      ∃ t', ss.foldlM (fun t s => postOrderTraversal cfg.successors fuel s t) t = some t' ∧
        t'.Good cfg (b :: S) ∧ (∀ s ∈ ss, s ∈ t'.visited) ∧ t.Le t'
  | [], _, t, ht, _ => ⟨t, rfl, ht, by simp, .refl t⟩
  | s :: ss, hss, t, ht, hfuel => by
    have hbs : cfg.Edge b s := hss s List.mem_cons_self
    obtain ⟨hreach, -⟩ : Reachable cfg.Edge cfg.entry s ∧ True := by
      obtain ⟨l, hl⟩ := hb
      exact ⟨⟨_, hl.step hbs⟩, trivial⟩
    obtain ⟨t₁, h₁, ht₁, hs₁, hle₁, -⟩ := ih s t (b :: S) ht hfuel hreach fun _ => ⟨b, List.mem_cons_self, hbs⟩
    have hfuel₁ : (Finset.univ \ t₁.visited).card < fuel :=
      lt_of_le_of_lt (Finset.card_le_card (Finset.sdiff_subset_sdiff (subset_refl _) hle₁.visited)) hfuel
    obtain ⟨t₂, h₂, ht₂, hss₂, hle₂⟩ :=
      foldlM_postOrderTraversal ih hb ss (fun s hs => hss s (List.mem_cons_of_mem _ hs)) t₁ ht₁ hfuel₁
    refine ⟨t₂, by rw [List.foldlM_cons, h₁]; exact h₂, ht₂, fun x hx => ?_, hle₁.trans hle₂⟩
    rcases List.mem_cons.mp hx with rfl | hx
    · exact hle₂.visited hs₁
    · exact hss₂ x hx

theorem postOrderTraversal_spec : ∀ fuel, TraversalSpec cfg fuel
  | 0 => fun _ _ _ _ hfuel => absurd hfuel (Nat.not_lt_zero _)
  | fuel + 1 => by
    intro bb t S ht hfuel hreach hcaller
    by_cases hbb : bb ∈ t.visited
    · exact ⟨t, by rw [postOrderTraversal, if_pos hbb], ht, hbb, .refl t, fun h => absurd hbb h⟩
    have hfuel₀ : (Finset.univ \ insert bb t.visited).card < fuel := by
      have hpos : 0 < (Finset.univ \ t.visited).card :=
        Finset.card_pos.mpr ⟨bb, Finset.mem_sdiff.mpr ⟨Finset.mem_univ bb, hbb⟩⟩
      rw [Finset.sdiff_insert, Finset.card_erase_of_mem (Finset.mem_sdiff.mpr ⟨Finset.mem_univ bb, hbb⟩)]
      omega
    obtain ⟨t₁, h₁, ht₁, hsucc, hle₁⟩ :=
      foldlM_postOrderTraversal (postOrderTraversal_spec fuel) hreach (cfg.successors bb).reverse
        (fun s hs => List.mem_reverse.mp hs) _ (ht.push hbb hreach) hfuel₀
    have hS : bb ∉ S := fun h => hbb ((ht.mem_visited bb).mpr (.inr h))
    obtain ⟨new, hnew⟩ := hle₁.out
    refine ⟨⟨t₁.visited, t₁.out ++ [bb]⟩, ?_, ht₁.pop hS (fun y hy => hsucc y (List.mem_reverse.mpr hy)) hcaller,
      hle₁.visited (Finset.mem_insert_self bb _), ⟨fun x hx => hle₁.visited (Finset.mem_insert_of_mem hx),
        new ++ [bb], by rw [hnew]; simp⟩, fun _ => ⟨new, by rw [hnew]⟩⟩
    rw [postOrderTraversal, if_neg hbb, h₁]
    rfl

theorem postOrder_spec {fuel : ℕ} (hfuel : Fintype.card V < fuel) :
    ∃ po, postOrder cfg fuel = some po ∧ po.Nodup ∧ (∀ x, x ∈ po ↔ Reachable cfg.Edge cfg.entry x) ∧
      po.getLast? = some cfg.entry ∧
      ∀ x ∈ po, x ≠ cfg.entry → ∃ p, cfg.Edge p x ∧ p ∈ po ∧ po.idxOf x < po.idxOf p := by
  have hgood : (⟨∅, []⟩ : Traversal V).Good cfg [] := ⟨List.nodup_nil, by simp, by simp, by simp, by simp, by simp⟩
  obtain ⟨t, ht, hgood', hentry, -, hlast⟩ := postOrderTraversal_spec fuel cfg.entry ⟨∅, []⟩ [] hgood
    (by simpa using hfuel) ⟨_, .root⟩ (fun h => absurd rfl h)
  have hvis : ∀ x, x ∈ t.visited ↔ x ∈ t.out := fun x => by simpa using hgood'.mem_visited x
  have hall : ∀ x l, Walk cfg.Edge cfg.entry x l → x ∈ t.out := by
    intro x l hl
    induction hl with
    | root => exact (hvis _).mp hentry
    | step _ he ih => exact (hvis _).mp (hgood'.closed _ ih _ he)
  refine ⟨t.out, by rw [postOrder, ht]; rfl, hgood'.out_nodup, fun x => ⟨fun hx => hgood'.reachable x ((hvis x).mpr hx),
    fun ⟨l, hl⟩ => hall x l hl⟩, ?_, fun x hx hxe => ?_⟩
  · obtain ⟨new, hnew⟩ := hlast (Finset.notMem_empty _)
    rw [hnew, List.getLast?_append, List.getLast?_singleton]
    rfl
  · obtain ⟨p, hp, hpS⟩ := hgood'.parent x hx hxe
    rcases hpS with hpS | ⟨hpo, hlt⟩
    · exact absurd hpS (List.not_mem_nil)
    · exact ⟨p, hp, hpo, hlt⟩

end Traversal

theorem foldl_numberBlocks {l : List V} (hl : l.Nodup) (g : V → Option ℕ) (x : V) :
    (l.zip (List.range l.length).reverse).foldl
      (fun (number : V → Option ℕ) (p : V × ℕ) => Function.update number p.1 (some p.2)) g x =
      if x ∈ l then some (l.length - 1 - l.idxOf x) else g x := by
  induction l generalizing g with
  | nil => simp
  | cons a l ih =>
    obtain ⟨ha, hl⟩ := List.nodup_cons.mp hl
    rw [List.length_cons, List.range_succ, List.reverse_append, List.reverse_singleton, List.singleton_append,
      List.zip_cons_cons, List.foldl_cons, ih hl]
    by_cases hxa : x = a
    · subst hxa
      simp [ha]
    · by_cases hxl : x ∈ l
      · have := List.idxOf_lt_length_of_mem hxl
        simp only [hxl, if_true, List.mem_cons, hxa, or_true, List.idxOf_cons_ne _ (Ne.symm hxa), Option.some.injEq]
        omega
      · simp [hxl, hxa]

theorem numberBlocks_eq {po : List V} (hpo : po.Nodup) (x : V) :
    numberBlocks po x = if x ∈ po.reverse then some (po.reverse.idxOf x) else none := by
  rw [numberBlocks, foldl_numberBlocks hpo]
  by_cases hx : x ∈ po
  · rw [if_pos hx, if_pos (List.mem_reverse.mpr hx), idxOf_reverse hpo hx]
  · rw [if_neg hx, if_neg (mt List.mem_reverse.mp hx)]

/-- What the dominance computation uses of the reverse post-order and of the
numbers of its blocks. -/
structure Numbered (cfg : Cfg V) (rpo : List V) (number : V → Option ℕ) : Prop where
  nodup : rpo.Nodup
  head : rpo.head? = some cfg.entry
  mem_iff : ∀ x, x ∈ rpo ↔ Reachable cfg.Edge cfg.entry x
  number_eq : ∀ x, number x = if x ∈ rpo then some (rpo.idxOf x) else none
  forward : ∀ x ∈ rpo, x ≠ cfg.entry → ∃ p, cfg.Edge p x ∧ p ∈ rpo ∧ rpo.idxOf p < rpo.idxOf x

/-- An edge that does not climb in the reverse post-order. -/
def Retreating (rpo : List V) (p x : V) : Prop := rpo.idxOf x ≤ rpo.idxOf p

section Numbered

variable {cfg : Cfg V} {rpo : List V} {number : V → Option ℕ} (hN : Numbered cfg rpo number)
include hN

theorem Numbered.idxOf_entry : rpo.idxOf cfg.entry = 0 := by
  obtain ⟨rest, hrpo⟩ : ∃ rest, rpo = cfg.entry :: rest := List.head?_eq_some_iff.mp hN.head
  rw [hrpo, List.idxOf_cons_self]

theorem Numbered.entry_mem : cfg.entry ∈ rpo := List.mem_of_mem_head? hN.head

theorem Numbered.number_of_mem {x : V} (hx : x ∈ rpo) : number x = some (rpo.idxOf x) := by
  rw [hN.number_eq, if_pos hx]

theorem Numbered.forward_avoids {x : V} (hx : x ∈ rpo) :
    Avoids cfg.Edge cfg.entry (Retreating rpo) (fun _ => False) x 0 := by
  suffices ∀ n x, x ∈ rpo → rpo.idxOf x < n → Avoids cfg.Edge cfg.entry (Retreating rpo) (fun _ => False) x 0 from
    this _ x hx (Nat.lt_succ_self _)
  intro n
  induction n with
  | zero => intro x _ h; omega
  | succ n ih =>
    intro x hx hn
    by_cases hxe : x = cfg.entry
    · rw [hxe]
      exact .root not_false
    obtain ⟨p, hp, hpr, hlt⟩ := hN.forward x hx hxe
    exact .fwd (ih p hpr (by omega)) hp (by unfold Retreating; omega) not_false

end Numbered

theorem postOrder_numbered [Fintype V] (cfg : Cfg V) {fuel : ℕ} (hfuel : Fintype.card V < fuel) :
    ∃ po, postOrder cfg fuel = some po ∧ Numbered cfg po.reverse (numberBlocks po) := by
  obtain ⟨po, hpo, hnodup, hmem, hlast, hparent⟩ := postOrder_spec hfuel
  refine ⟨po, hpo, List.nodup_reverse.mpr hnodup, by rw [List.head?_reverse]; exact hlast,
    fun x => by rw [List.mem_reverse]; exact hmem x, numberBlocks_eq hnodup, fun x hx hxe => ?_⟩
  have hx' := List.mem_reverse.mp hx
  obtain ⟨p, hp, hpo', hlt⟩ := hparent x hx' hxe
  refine ⟨p, hp, List.mem_reverse.mpr hpo', ?_⟩
  rw [idxOf_reverse hnodup hpo', idxOf_reverse hnodup hx']
  have := List.idxOf_lt_length_of_mem hpo'
  omega

end FactorProofs.Compiler
