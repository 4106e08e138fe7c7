import Mathlib.Data.Finset.Card
import Mathlib.Dynamics.PeriodicPts.Defs

namespace FactorProofs.FunctionalGraph

/-! A partial function `p` read as a graph with an edge from `p d` to `d`, so
that each node has at most one predecessor, and the cycles of such a graph
that no edge leaves. -/

variable {α : Type}

section Finite

variable {f : α → α} {U : Finset α}

theorem mapsTo_injOn_of_subset_image [DecidableEq α] (h : U ⊆ U.image f) : (∀ x ∈ U, f x ∈ U) ∧ Set.InjOn f U := by
  have heq : U = U.image f := Finset.eq_of_subset_of_card_le h Finset.card_image_le
  refine ⟨fun x hx => heq ▸ Finset.mem_image_of_mem f hx, ?_⟩
  exact Finset.card_image_iff.mp (congrArg Finset.card heq).symm

variable (hmaps : ∀ x ∈ U, f x ∈ U) (hinj : Set.InjOn f U)
include hmaps

theorem iterate_mem {b : α} (hb : b ∈ U) (k : ℕ) : f^[k] b ∈ U := by
  induction k with
  | zero => exact hb
  | succ k ih =>
    rw [Function.iterate_succ_apply']
    exact hmaps _ ih

include hinj

theorem iterate_eq_self_of_iterate_eq {b : α} (hb : b ∈ U) (m : ℕ) :
    ∀ i, f^[i] b = f^[i + m] b → f^[m] b = b := by
  intro i
  induction i with
  | zero => exact fun h => by rw [Nat.zero_add] at h; exact h.symm
  | succ i ih =>
    intro h
    rw [Function.iterate_succ_apply', Nat.add_right_comm, Function.iterate_succ_apply'] at h
    exact ih (hinj (iterate_mem hmaps hb i) (iterate_mem hmaps hb (i + m)) h)

theorem exists_isPeriodicPt {b : α} (hb : b ∈ U) : ∃ n, 0 < n ∧ Function.IsPeriodicPt f n b := by
  have hcard : U.card < (Finset.range (U.card + 1)).card := by
    rw [Finset.card_range]
    exact Nat.lt_succ_self _
  obtain ⟨x, _, y, _, hxy, hfxy⟩ := Finset.exists_ne_map_eq_of_card_lt_of_maps_to hcard
    (f := fun k => f^[k] b) (fun k _ => iterate_mem hmaps hb k)
  obtain ⟨i, m, hm, him⟩ : ∃ i m, 0 < m ∧ f^[i] b = f^[i + m] b := by
    rcases Nat.lt_or_gt_of_ne hxy with h | h
    · exact ⟨x, y - x, by omega, by rw [Nat.add_sub_cancel' h.le]; exact hfxy⟩
    · exact ⟨y, x - y, by omega, by rw [Nat.add_sub_cancel' h.le]; exact hfxy.symm⟩
  exact ⟨m, hm, iterate_eq_self_of_iterate_eq hmaps hinj hb m i him⟩

end Finite

variable (p : α → Option α)

/-- `p` made total: a node without a predecessor is its own. -/
def step (x : α) : α := (p x).getD x

/-- A cycle that no edge leaves: the predecessor of each node is in it, a
node whose predecessor is in it is in it, and each node is reached from each
other one by following predecessors. -/
structure IsClosedCycle (C : Finset α) : Prop where
  nonempty : C.Nonempty
  pred_mem : ∀ c ∈ C, ∃ a ∈ C, p c = some a
  mem_of_pred : ∀ d a, p d = some a → a ∈ C → d ∈ C
  connected : ∀ c ∈ C, ∀ c' ∈ C, ∃ k, (step p)^[k] c = c'

variable {p}

namespace IsClosedCycle

variable {C : Finset α} (hC : IsClosedCycle p C)
include hC

theorem step_mem {c : α} (hc : c ∈ C) : step p c ∈ C ∧ p c = some (step p c) := by
  obtain ⟨a, ha, hca⟩ := hC.pred_mem c hc
  rw [step, hca, Option.getD_some]
  exact ⟨ha, rfl⟩

theorem iterate_mem {c : α} (hc : c ∈ C) (k : ℕ) : (step p)^[k] c ∈ C := by
  induction k with
  | zero => exact hc
  | succ k ih =>
    rw [Function.iterate_succ_apply']
    exact (hC.step_mem ih).1

theorem exists_succ {c : α} (hc : c ∈ C) : ∃ d ∈ C, p d = some c := by
  obtain ⟨hstep, hpc⟩ := hC.step_mem hc
  obtain ⟨k, hk⟩ := hC.connected (step p c) hstep c hc
  cases k with
  | zero =>
    rw [Function.iterate_zero_apply] at hk
    exact ⟨c, hc, hpc.trans (congrArg some hk)⟩
  | succ k =>
    rw [Function.iterate_succ_apply'] at hk
    have hmem := hC.iterate_mem hstep k
    exact ⟨_, hmem, (hC.step_mem hmem).2.trans (congrArg some hk)⟩

end IsClosedCycle

theorem exists_isClosedCycle [DecidableEq α] {U : Finset α} (hpred : ∀ u ∈ U, (p u).isSome)
    (hsucc : ∀ u ∈ U, ∃ c ∈ U, p c = some u) (hclosed : ∀ d a, p d = some a → a ∈ U → d ∈ U)
    {b : α} (hb : b ∈ U) : ∃ C, IsClosedCycle p C ∧ b ∈ C := by
  have hstep : ∀ d a, p d = some a → step p d = a := fun d a h => by rw [step, h, Option.getD_some]
  have himage : U ⊆ U.image (step p) := by
    intro u hu
    obtain ⟨c, hc, hcu⟩ := hsucc u hu
    exact Finset.mem_image.mpr ⟨c, hc, hstep c u hcu⟩
  obtain ⟨hmaps, hinj⟩ := mapsTo_injOn_of_subset_image himage
  obtain ⟨n, hn, hper⟩ := exists_isPeriodicPt hmaps hinj hb
  have horbit : ∀ k, (step p)^[k] b = (step p)^[k % n] b := fun k => (hper.iterate_mod_apply k).symm
  have hmemC : ∀ k, (step p)^[k] b ∈ (Finset.range n).image fun k => (step p)^[k] b := fun k =>
    Finset.mem_image.mpr ⟨k % n, Finset.mem_range.mpr (Nat.mod_lt k hn), (horbit k).symm⟩
  refine ⟨(Finset.range n).image fun k => (step p)^[k] b, ⟨⟨b, hmemC 0⟩, ?_, ?_, ?_⟩, hmemC 0⟩
  · intro c hc
    obtain ⟨k, -, rfl⟩ := Finset.mem_image.mp hc
    obtain ⟨a, ha⟩ := Option.isSome_iff_exists.mp (hpred _ (iterate_mem hmaps hb k))
    refine ⟨a, ?_, ha⟩
    rw [← hstep _ a ha, ← Function.iterate_succ_apply' (step p) k b]
    exact hmemC (k + 1)
  · intro d a hda ha
    obtain ⟨k, -, rfl⟩ := Finset.mem_image.mp ha
    have hd : d ∈ U := hclosed d _ hda (iterate_mem hmaps hb k)
    have hprev : step p ((step p)^[k + n - 1] b) = (step p)^[k] b := by
      rw [← Function.iterate_succ_apply' (step p) (k + n - 1) b, show (k + n - 1).succ = k + n by omega,
        Function.iterate_add_apply, hper.eq]
    have heq : d = (step p)^[k + n - 1] b :=
      hinj hd (iterate_mem hmaps hb _) ((hstep d _ hda).trans hprev.symm)
    rw [heq]
    exact hmemC _
  · intro c hc c' hc'
    obtain ⟨i, hi, rfl⟩ := Finset.mem_image.mp hc
    obtain ⟨j, -, rfl⟩ := Finset.mem_image.mp hc'
    refine ⟨j + n - i, ?_⟩
    rw [← Function.iterate_add_apply, show j + n - i + i = j + n by
      have := Finset.mem_range.mp hi
      omega, Function.iterate_add_apply, hper.eq]

end FactorProofs.FunctionalGraph
