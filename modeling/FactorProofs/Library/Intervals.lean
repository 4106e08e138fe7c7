import Mathlib.Data.List.Perm.Basic

namespace FactorProofs.Intervals

/-- Blocks `b` and `c`, each an address and a size, share no address. -/
def NoOverlap (b c : Nat × Nat) : Prop := b.1 + b.2 ≤ c.1 ∨ c.1 + c.2 ≤ b.1

instance : DecidableRel NoOverlap := fun _ _ => inferInstanceAs (Decidable (_ ∨ _))

/-- Block `b` lies inside block `c`. -/
def Within (b c : Nat × Nat) : Prop := c.1 ≤ b.1 ∧ b.1 + b.2 ≤ c.1 + c.2

/-- Block `b` is disjoint from every block of `l`. -/
def Fresh (b : Nat × Nat) (l : List (Nat × Nat)) : Prop := ∀ c ∈ l, NoOverlap b c

variable {b b' c : Nat × Nat} {l l' : List (Nat × Nat)}

theorem NoOverlap.symm (h : NoOverlap b c) : NoOverlap c b := Or.symm h

theorem NoOverlap.of_within (hb : Within b b') (h : NoOverlap b' c) : NoOverlap b c := by
  unfold NoOverlap Within at *
  omega

theorem NoOverlap.fst_ne {a : Nat} (h : NoOverlap b c) (ha : b.1 ≤ a) (hab : a < b.1 + b.2)
    (hc : 0 < c.2) : a ≠ c.1 := by
  unfold NoOverlap at h
  omega

theorem Within.trans (h : Within b b') (h' : Within b' c) : Within b c := by
  unfold Within at *
  omega

theorem disjoint_split (a n m : Nat) : NoOverlap (a, n) (a + n, m) := Or.inl (Nat.le_refl _)

theorem within_split_left (a n m : Nat) : Within (a, n) (a, n + m) := by
  unfold Within
  omega

theorem within_split_right (a n m : Nat) : Within (a + n, m) (a, n + m) := by
  unfold Within
  omega

theorem Fresh.of_within (hb : Within b b') (h : Fresh b' l) : Fresh b l :=
  fun c hc => (h c hc).of_within hb

theorem Fresh.of_perm (hp : l.Perm l') (h : Fresh b l) : Fresh b l' :=
  fun c hc => h c (hp.symm.subset hc)

theorem Fresh.cons (hbc : NoOverlap b c) (h : Fresh b l) : Fresh b (c :: l) := by
  intro d hd
  rcases List.mem_cons.mp hd with rfl | hd
  · exact hbc
  · exact h d hd

theorem pairwise_cons_of_fresh (h : Fresh b l) (hl : l.Pairwise NoOverlap) :
    (b :: l).Pairwise NoOverlap :=
  List.pairwise_cons.mpr ⟨h, hl⟩

theorem nodup_map_fst (hpos : ∀ b ∈ l, 0 < b.2) (h : l.Pairwise NoOverlap) :
    (l.map Prod.fst).Nodup := by
  induction l with
  | nil => exact List.nodup_nil
  | cons b l ih =>
    obtain ⟨hb, hl⟩ := List.pairwise_cons.mp h
    rw [List.map_cons, List.nodup_cons]
    refine ⟨?_, ih (fun c hc => hpos c (List.mem_cons_of_mem _ hc)) hl⟩
    intro hmem
    obtain ⟨c, hc, hcb⟩ := List.mem_map.mp hmem
    exact (hb c hc).fst_ne (Nat.le_refl _) (by have := hpos b (List.mem_cons_self ..); omega)
      (hpos c (List.mem_cons_of_mem _ hc)) hcb.symm

end FactorProofs.Intervals
