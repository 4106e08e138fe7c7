import Mathlib.Data.List.Sort
import FactorProofs.Library.Groups

namespace FactorProofs.MergeSort

open FactorProofs.Groups List

/-! Bottom-up merge sort. A pass merges the runs of width `w` two by two into
runs of width `2 * w`. For a total preorder, merging the stably sorted halves
of a list gives the stably sorted list, so after each pass the runs are the
sorted pieces of the input, and once one run covers the input it is
`mergeSort` of it. -/

variable {α : Type} (le : α → α → Bool)

/-- Merging the pieces two by two; a last piece without a partner stays. -/
def mergePairs : List (List α) → List (List α)
  | a :: b :: rest => merge a b le :: mergePairs rest
  | L => L

theorem mergePairs_eq_map_range : ∀ B : List (List α),
    mergePairs le B = (List.range ((B.length + 1) / 2)).map
      (fun i => merge (B.getD (2 * i) []) (B.getD (2 * i + 1) []) le)
  | a :: b :: rest => by
    rw [mergePairs, mergePairs_eq_map_range rest, List.length_cons, List.length_cons,
      show (rest.length + 1 + 1 + 1) / 2 = (rest.length + 1) / 2 + 1 by omega, List.range_succ_eq_map,
      List.map_cons, List.map_map]
    congr 1
  | [a] => by simp [mergePairs]
  | [] => by simp [mergePairs]

theorem mergeSort_pair (a b : α) : [a, b].mergeSort le = if le a b then [a, b] else [b, a] := by
  rw [List.mergeSort]
  simp only [List.MergeSort.Internal.splitInTwo_fst, List.MergeSort.Internal.splitInTwo_snd]
  simp [List.cons_merge_cons]

theorem flatten_mergePairs_perm : ∀ B : List (List α), (mergePairs le B).flatten ~ B.flatten
  | a :: b :: rest => by
    rw [mergePairs, List.flatten_cons, List.flatten_cons, List.flatten_cons, ← List.append_assoc]
    exact (merge_perm_append le).append (flatten_mergePairs_perm rest)
  | [a] => Perm.refl _
  | [] => Perm.refl _

theorem flatten_map_mergeSort_perm : ∀ L : List (List α), (L.map (mergeSort · le)).flatten ~ L.flatten
  | g :: L => by
    rw [List.map_cons, List.flatten_cons, List.flatten_cons]
    exact (mergeSort_perm g le).append (flatten_map_mergeSort_perm L)
  | [] => Perm.refl _

section Stable

variable {le}

theorem eq_of_zipIdxLE {l : List α} {k : ℕ} {x y : α × ℕ} (hx : x ∈ l.zipIdx k) (hy : y ∈ l.zipIdx k)
    (hxy : zipIdxLE le x y = true) (hyx : zipIdxLE le y x = true) : x = y := by
  obtain ⟨a, i⟩ := x
  obtain ⟨b, j⟩ := y
  have hij : i = j := by
    simp only [zipIdxLE] at hxy hyx
    split at hxy <;> split at hyx <;> simp_all
    omega
  subst hij
  rw [(mem_zipIdx hx).2.2, (mem_zipIdx hy).2.2]

theorem mergeSort_zipIdx_from (l : List α) (i : ℕ) :
    (mergeSort (l.zipIdx i) (zipIdxLE le)).map (·.1) = mergeSort l le := by
  have hshift : l.zipIdx i = l.zipIdx.map (Prod.map id (· + i)) := by
    rw [map_snd_add_zipIdx_eq_zipIdx, Nat.add_zero]
  have hle : ∀ x ∈ l.zipIdx, ∀ y ∈ l.zipIdx,
      zipIdxLE le x y = zipIdxLE le (Prod.map id (· + i) x) (Prod.map id (· + i) y) := by
    intro x _ y _
    simp [zipIdxLE]
  rw [hshift, ← map_mergeSort hle, List.map_map]
  exact mergeSort_zipIdx

variable (trans : ∀ a b c, le a b → le b c → le a c) (total : ∀ a b, le a b || le b a)
include trans total

theorem mergeSort_append (a b : List α) :
    mergeSort (a ++ b) le = merge (mergeSort a le) (mergeSort b le) le := by
  have htrans := zipIdxLE_trans trans
  have htotal := zipIdxLE_total total
  have htagged : mergeSort ((a ++ b).zipIdx) (zipIdxLE le) =
      merge (mergeSort a.zipIdx (zipIdxLE le)) (mergeSort (b.zipIdx a.length) (zipIdxLE le)) (zipIdxLE le) := by
    have hperm : mergeSort ((a ++ b).zipIdx) (zipIdxLE le) ~
        merge (mergeSort a.zipIdx (zipIdxLE le)) (mergeSort (b.zipIdx a.length) (zipIdxLE le)) (zipIdxLE le) := by
      refine (mergeSort_perm _ _).trans ?_
      rw [zipIdx_append, Nat.zero_add]
      exact ((merge_perm_append _).trans ((mergeSort_perm _ _).append (mergeSort_perm _ _))).symm
    have hsorted₁ : (mergeSort ((a ++ b).zipIdx) (zipIdxLE le)).Pairwise (fun x y => zipIdxLE le x y) :=
      pairwise_mergeSort htrans htotal _
    have hsorted₂ : (merge (mergeSort a.zipIdx (zipIdxLE le)) (mergeSort (b.zipIdx a.length) (zipIdxLE le))
        (zipIdxLE le)).Pairwise (fun x y => zipIdxLE le x y) :=
      pairwise_merge htrans htotal _ _ (pairwise_mergeSort htrans htotal _) (pairwise_mergeSort htrans htotal _)
    refine hperm.eq_of_pairwise (fun x y hx hy hxy hyx => ?_) hsorted₁ hsorted₂
    exact eq_of_zipIdxLE (mem_mergeSort.mp hx) (mem_mergeSort.mp (hperm.symm.subset hy)) hxy hyx
  have hbefore : ∀ x y, x ∈ mergeSort a.zipIdx (zipIdxLE le) →
      y ∈ mergeSort (b.zipIdx a.length) (zipIdxLE le) → x.2 ≤ y.2 := by
    intro x y hx hy
    have hx' := (mem_zipIdx (x := x.1) (i := x.2) (mem_mergeSort.mp hx)).2.1
    have hy' := (mem_zipIdx (x := y.1) (i := y.2) (mem_mergeSort.mp hy)).1
    omega
  calc mergeSort (a ++ b) le
      = (mergeSort ((a ++ b).zipIdx) (zipIdxLE le)).map (·.1) := mergeSort_zipIdx.symm
    _ = merge ((mergeSort a.zipIdx (zipIdxLE le)).map (·.1))
          ((mergeSort (b.zipIdx a.length) (zipIdxLE le)).map (·.1)) le := by
        rw [htagged, merge_stable _ _ hbefore]
    _ = merge (mergeSort a le) (mergeSort b le) le := by
        rw [mergeSort_zipIdx, mergeSort_zipIdx_from]

theorem mergePairs_map_mergeSort : ∀ B : List (List α),
    mergePairs le (B.map (mergeSort · le)) = (appendPairs B).map (mergeSort · le)
  | a :: b :: rest => by
    rw [List.map_cons, List.map_cons, mergePairs, appendPairs, List.map_cons,
      mergeSort_append trans total, mergePairs_map_mergeSort rest]
  | [a] => rfl
  | [] => rfl

theorem mergePairs_groups {w : ℕ} (hw : 0 < w) (L : List α) :
    (mergePairs le (groups w ((groups w L).map (mergeSort · le)).flatten)).flatten =
      ((groups (2 * w) L).map (mergeSort · le)).flatten := by
  have hgroups : groups w ((groups w L).map (mergeSort · le)).flatten = (groups w L).map (mergeSort · le) := by
    apply groups_flatten_of_map_length hw L
    rw [List.map_map]
    exact List.map_congr_left fun g _ => length_mergeSort g
  rw [hgroups, mergePairs_map_mergeSort trans total, ← groups_two_mul hw]

end Stable

theorem flatten_groups_mergeSort {w : ℕ} (hw : 0 < w) {L : List α} (hL : L.length ≤ w) :
    ((groups w L).map (mergeSort · le)).flatten = mergeSort L le := by
  by_cases hnil : L = []
  · subst hnil
    rw [groups_nil, List.map_nil, List.flatten_nil, mergeSort_nil]
  · rw [groups_of_length_le hw hnil hL, List.map_singleton, List.flatten_singleton]

end FactorProofs.MergeSort
