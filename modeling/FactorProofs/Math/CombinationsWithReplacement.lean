import Mathlib.Data.Rat.Cast.Defs
import Mathlib.Data.Sym.Card
import Mathlib.Tactic.FieldSimp
import FactorProofs.Math.Combinations

namespace FactorProofs.Math.CombinationsWithReplacement

open FactorProofs.Lex FactorProofs.Math.Combinatorics FactorProofs.Math.Combinations

/-! math.combinatorics: nCk-with-replacement and the walk of
each-combination-with-replacement over the non-decreasing index arrays, with
next-combination-with-replacement. nCk-with-replacement divides with `/`, so its
value is a rational, and <iota> takes it only when it is a non-negative
integer. -/

variable {α : Type*}

/-- nCk-with-replacement: `(k - 1 + n)! / k! / (n - 1)!` as rationals. -/
def nCkWithReplacement (n k : ℤ) : ℚ := (factorial (k - 1 + n) : ℚ) / factorial k / factorial (n - 1)

/-- The count <iota> accepts: a non-negative integer, and an error otherwise. -/
def iotaCount (q : ℚ) : Option ℕ := if q.den = 1 ∧ 0 ≤ q.num then some q.num.toNat else none

/-- next-combination-with-replacement: find-last of an element other than
`n - 1`, then that element plus one from there to the end. -/
def nextCombinationWithReplacement (seq : List ℕ) (n : ℕ) : List ℕ :=
  match findLast (fun i => decide (seq.getD i 0 + 1 ≠ n)) seq.length with
  | some i => seq.take i ++ List.replicate (seq.length - i) (seq.getD i 0 + 1)
  | none => seq

/-- The loop of combinations-with-replacement-quot over `count` steps. -/
def combinationsWithReplacementVisit (n : ℕ) : ℕ → List ℕ → List (List ℕ)
  | 0, _ => []
  | count + 1, idx => idx :: combinationsWithReplacementVisit n count (nextCombinationWithReplacement idx n)

/-- all-combinations-with-replacement, from `k` zeros; `none` where <iota>
rejects the count. -/
def allCombinationsWithReplacement (seq : List α) (k : ℕ) : Option (List (List α)) :=
  (iotaCount (nCkWithReplacement seq.length k)).map fun count =>
    (combinationsWithReplacementVisit seq.length count (List.replicate k 0)).map fun idx => nthsUnsafe idx seq

/-- The non-decreasing lists of `k` naturals below `n`, as the sorted
multisets of `k` of them. -/
def multisets (k n : ℕ) : Finset (List ℕ) :=
  (Finset.univ : Finset (Sym (Fin n) k)).image fun s : Sym (Fin n) k => (s.1.map Fin.val).sort (· ≤ ·)

theorem nCkWithReplacement_eq {n : ℕ} (hn : 0 < n) (k : ℕ) :
    nCkWithReplacement n k = ((n + k - 1).choose k : ℚ) := by
  have h := Nat.choose_mul_factorial_mul_factorial (show k ≤ n + k - 1 by omega)
  rw [show n + k - 1 - k = n - 1 by omega] at h
  rw [nCkWithReplacement, factorial_eq, factorial_eq, factorial_eq, show ((k : ℤ) - 1 + n).toNat = n + k - 1 by omega,
    Int.toNat_natCast, show ((n : ℤ) - 1).toNat = n - 1 by omega, ← h]
  have hk : (k.factorial : ℚ) ≠ 0 := Nat.cast_ne_zero.mpr (Nat.factorial_ne_zero k)
  have hn' : ((n - 1).factorial : ℚ) ≠ 0 := Nat.cast_ne_zero.mpr (Nat.factorial_ne_zero _)
  push_cast
  field_simp

theorem iotaCount_natCast (m : ℕ) : iotaCount m = some m := by
  simp [iotaCount]

theorem iotaCount_nCkWithReplacement_zero {k : ℕ} (hk : 2 ≤ k) : iotaCount (nCkWithReplacement 0 k) = none := by
  have hval : nCkWithReplacement 0 k = ((k : ℕ) : ℚ)⁻¹ := by
    obtain ⟨m, rfl⟩ : ∃ m, k = m + 1 := ⟨k - 1, by omega⟩
    rw [nCkWithReplacement, factorial_eq, factorial_eq, factorial_eq, show ((m + 1 : ℕ) : ℤ) - 1 + 0 = m by omega,
      Int.toNat_natCast, Int.toNat_natCast, show ((0 : ℤ) - 1).toNat = 0 from rfl]
    have hm : (m.factorial : ℚ) ≠ 0 := Nat.cast_ne_zero.mpr (Nat.factorial_ne_zero m)
    rw [Nat.factorial_succ, Nat.factorial_zero]
    push_cast
    field_simp
  rw [iotaCount, hval, Rat.inv_natCast_den_of_pos (by omega), if_neg (fun h => by omega)]

theorem mem_multisets {k n : ℕ} {σ : List ℕ} :
    σ ∈ multisets k n ↔ σ.Pairwise (· ≤ ·) ∧ σ.length = k ∧ ∀ a ∈ σ, a < n := by
  constructor
  · intro h
    obtain ⟨s, -, rfl⟩ := Finset.mem_image.mp h
    refine ⟨Multiset.pairwise_sort _ _, by rw [Multiset.length_sort, Multiset.card_map, s.2], fun a ha => ?_⟩
    obtain ⟨b, -, rfl⟩ := Multiset.mem_map.mp ((Multiset.mem_sort _).mp ha)
    exact b.isLt
  · rintro ⟨hp, rfl, hb⟩
    refine Finset.mem_image.mpr ⟨⟨(σ.pmap Fin.mk hb : List (Fin n)), by simp⟩, Finset.mem_univ _, ?_⟩
    show ((↑(σ.pmap Fin.mk hb) : Multiset (Fin n)).map Fin.val).sort (· ≤ ·) = σ
    rw [Multiset.map_coe, List.map_pmap, List.pmap_eq_map, List.map_id', Multiset.coe_sort,
      List.mergeSort_eq_self _ hp]

theorem card_multisets (k n : ℕ) : (multisets k n).card = (n + k - 1).choose k := by
  have hinj : Function.Injective fun s : Sym (Fin n) k => (s.1.map Fin.val).sort (· ≤ ·) := by
    intro s t h
    have hmap : s.1.map Fin.val = t.1.map Fin.val := by
      rw [← Multiset.sort_eq (s.1.map Fin.val) (· ≤ ·), ← Multiset.sort_eq (t.1.map Fin.val) (· ≤ ·)]
      exact congrArg _ h
    exact Subtype.ext (Multiset.map_injective Fin.val_injective hmap)
  rw [multisets, Finset.card_image_of_injective _ hinj, Finset.card_univ, Sym.card_sym_eq_choose, Fintype.card_fin]

section Fill

variable {x : List ℕ} {j t m v : ℕ} (hj : j ≤ x.length)
include hj

theorem getElem_fill_of_lt (h : t < (x.take j ++ List.replicate m v).length) (htj : t < j) :
    (x.take j ++ List.replicate m v)[t] = x[t] := by
  rw [List.getElem_append_left (by rw [List.length_take]; omega), List.getElem_take]

theorem getElem_fill_of_ge (h : t < (x.take j ++ List.replicate m v).length) (hjt : j ≤ t) :
    (x.take j ++ List.replicate m v)[t] = v := by
  rw [List.getElem_append_right (by rw [List.length_take]; omega), List.getElem_replicate]

end Fill

theorem nextCombinationWithReplacement_lt_of_lt {n : ℕ} {x y : List ℕ} (hxp : x.Pairwise (· ≤ ·))
    (hx : ∀ a ∈ x, a < n) (hy : ∀ a ∈ y, a < n) (hyp : y.Pairwise (· ≤ ·)) (hlen : y.length = x.length)
    (hxy : x < y) :
    (nextCombinationWithReplacement x n).Pairwise (· ≤ ·) ∧ (nextCombinationWithReplacement x n).length = x.length ∧
      (∀ a ∈ nextCombinationWithReplacement x n, a < n) ∧ x < nextCombinationWithReplacement x n ∧
      nextCombinationWithReplacement x n ≤ y := by
  have hgetx : ∀ a b (ha : a < x.length) (hb : b < x.length), a < b → x[a] ≤ x[b] :=
    fun a b ha hb hab => List.pairwise_iff_getElem.mp hxp a b ha hb hab
  have hgety : ∀ a b (ha : a < y.length) (hb : b < y.length), a < b → y[a] ≤ y[b] :=
    fun a b ha hb hab => List.pairwise_iff_getElem.mp hyp a b ha hb hab
  have hdigit : ∀ t (ht : t < x.length), decide (x.getD t 0 + 1 ≠ n) = false ↔ x[t] + 1 = n := fun t ht => by
    rw [List.getD_eq_getElem _ _ ht, decide_eq_false_iff_not, not_not]
  cases hfind : findLast (fun i => decide (x.getD i 0 + 1 ≠ n)) x.length with
  | none =>
    refine absurd hxy (not_lt_of_ge (le_of_forall_getElem_le hlen fun t h1 h2 => ?_))
    have := hy _ (List.getElem_mem h1)
    have := (hdigit t h2).mp (findLast_eq_none hfind t h2)
    omega
  | some j =>
    obtain ⟨hj, hpj, hlast⟩ := findLast_eq_some hfind
    have hjn : x[j] + 1 < n := by
      have := hx _ (List.getElem_mem hj)
      rw [List.getD_eq_getElem _ _ hj, decide_eq_true_iff] at hpj
      omega
    have htop : ∀ t (ht : t < x.length), j < t → x[t] + 1 = n := fun t ht hjt => (hdigit t ht).mp (hlast t hjt ht)
    have hnext : nextCombinationWithReplacement x n = x.take j ++ List.replicate (x.length - j) (x[j] + 1) := by
      simp only [nextCombinationWithReplacement, hfind, List.getD_eq_getElem _ _ hj]
    rw [hnext]
    have hrlen : (x.take j ++ List.replicate (x.length - j) (x[j] + 1)).length = x.length := by
      simp only [List.length_append, List.length_take, List.length_replicate]
      omega
    have htake : (x.take j ++ List.replicate (x.length - j) (x[j] + 1)).take j = x.take j :=
      List.take_left' (List.length_take_of_le hj.le)
    refine ⟨?_, hrlen, fun a ha => ?_, ?_, ?_⟩
    · refine List.pairwise_iff_getElem.mpr fun a b ha hb hab => ?_
      rcases lt_or_ge b j with hbj | hbj
      · rw [getElem_fill_of_lt hj.le ha (by omega), getElem_fill_of_lt hj.le hb hbj]
        exact hgetx a b _ _ hab
      · rw [getElem_fill_of_ge hj.le hb hbj]
        rcases lt_or_ge a j with haj | haj
        · rw [getElem_fill_of_lt hj.le ha haj]
          have := hgetx a j (by omega) hj haj
          omega
        · rw [getElem_fill_of_ge hj.le ha haj]
    · rcases List.mem_append.mp ha with ha | ha
      · exact hx a (List.mem_of_mem_take ha)
      · rw [List.eq_of_mem_replicate ha]
        exact hjn
    · refine lt_of_take_eq_of_getElem_lt hj (by omega) htake.symm ?_
      rw [getElem_fill_of_ge hj.le _ le_rfl]
      omega
    · refine le_of_lt_of_agree hlen hj (by omega) htake (fun t h1 h2 hjt => ?_) (fun hpre hjy hlt => ?_) hxy
      · have := hy _ (List.getElem_mem h2)
        have := htop t h1 hjt
        omega
      refine le_of_forall_getElem_le (by omega) fun t h1 h2 => ?_
      rcases lt_or_ge t j with htj | hjt
      · rw [getElem_fill_of_lt hj.le h1 htj]
        exact (getElem_eq_of_take_eq hpre htj (by omega) h2).le
      · rw [getElem_fill_of_ge hj.le h1 hjt]
        rcases hjt.lt_or_eq with hjt | rfl
        · have := hgety j t hjy h2 hjt
          omega
        · omega

theorem combinationsWithReplacementVisit_eq_map_iterate (n count : ℕ) :
    ∀ idx, combinationsWithReplacementVisit n count idx =
      (List.range count).map fun i => (nextCombinationWithReplacement · n)^[i] idx := by
  induction count with
  | zero => intro idx; rfl
  | succ count ih =>
    intro idx
    rw [combinationsWithReplacementVisit, ih, List.range_succ_eq_map, List.map_cons, List.map_map]
    rfl

theorem combinationsWithReplacementVisit_eq_sort {n : ℕ} (hn : 0 < n) (k : ℕ) :
    combinationsWithReplacementVisit n ((n + k - 1).choose k) (List.replicate k 0) =
      (multisets k n).sort (· ≤ ·) := by
  rw [combinationsWithReplacementVisit_eq_map_iterate, ← card_multisets k n]
  have hzeros : List.replicate k 0 ∈ multisets k n :=
    mem_multisets.mpr ⟨List.pairwise_replicate.mpr (Or.inr le_rfl), List.length_replicate,
      fun a ha => (List.eq_of_mem_replicate ha).symm ▸ hn⟩
  refine map_iterate_eq_sort _ (fun x hx y hy hxy => ?_) hzeros fun y hy => ?_
  · obtain ⟨hxp, hxk, hxl⟩ := mem_multisets.mp hx
    obtain ⟨hyp, hyk, hyl⟩ := mem_multisets.mp hy
    obtain ⟨h1, h2, h3, h4, h5⟩ := nextCombinationWithReplacement_lt_of_lt hxp hxl hyl hyp (hyk.trans hxk.symm) hxy
    exact ⟨mem_multisets.mpr ⟨h1, h2.trans hxk, h3⟩, h4, h5⟩
  · obtain ⟨-, hyk, -⟩ := mem_multisets.mp hy
    refine le_of_forall_getElem_le (by rw [List.length_replicate, hyk]) fun t h1 h2 => ?_
    rw [List.getElem_replicate]
    exact Nat.zero_le _

/-- For `n ≥ 1` elements, <iota> takes the count of
each-combination-with-replacement, `(n + k - 1).choose k`, and the walk hands
on every non-decreasing list of `k` indices below `n` once, in increasing
lexicographic order. -/
theorem combinationsWithReplacementVisit_lex {n : ℕ} (hn : 0 < n) (k : ℕ) :
    iotaCount (nCkWithReplacement n k) = some ((n + k - 1).choose k) ∧
      (combinationsWithReplacementVisit n ((n + k - 1).choose k) (List.replicate k 0)).Pairwise (· < ·) ∧
      ∀ σ, σ ∈ combinationsWithReplacementVisit n ((n + k - 1).choose k) (List.replicate k 0) ↔
        σ.Pairwise (· ≤ ·) ∧ σ.length = k ∧ ∀ a ∈ σ, a < n := by
  rw [nCkWithReplacement_eq hn, iotaCount_natCast, combinationsWithReplacementVisit_eq_sort hn]
  exact ⟨rfl, pairwise_lt_sort _, fun σ => by rw [Finset.mem_sort, mem_multisets]⟩

theorem combinationsWithReplacementVisit_lex_three_two :
    0 < 3 ∧ (iotaCount (nCkWithReplacement 3 2) = some ((3 + 2 - 1).choose 2) ∧
      (combinationsWithReplacementVisit 3 ((3 + 2 - 1).choose 2) (List.replicate 2 0)).Pairwise (· < ·) ∧
      ∀ σ, σ ∈ combinationsWithReplacementVisit 3 ((3 + 2 - 1).choose 2) (List.replicate 2 0) ↔
        σ.Pairwise (· ≤ ·) ∧ σ.length = 2 ∧ ∀ a ∈ σ, a < 3) :=
  ⟨by decide, combinationsWithReplacementVisit_lex (by decide) 2⟩

/-- On an empty sequence all-combinations-with-replacement fails for `k ≥ 2`:
its count is `1 / k`, not an integer. -/
theorem allCombinationsWithReplacement_nil {k : ℕ} (hk : 2 ≤ k) :
    allCombinationsWithReplacement ([] : List α) k = none := by
  rw [allCombinationsWithReplacement, List.length_nil, Nat.cast_zero, iotaCount_nCkWithReplacement_zero hk,
    Option.map_none]

theorem allCombinationsWithReplacement_nil_two :
    2 ≤ 2 ∧ allCombinationsWithReplacement ([] : List ℕ) 2 = none :=
  ⟨le_rfl, allCombinationsWithReplacement_nil le_rfl⟩

end FactorProofs.Math.CombinationsWithReplacement
