import Mathlib.Data.List.GetD
import Mathlib.Data.List.Sort
import Mathlib.Data.List.Sublists
import Mathlib.Data.Nat.Choose.Basic
import Mathlib.Data.Int.Cast.Lemmas
import Mathlib.Tactic.Ring
import FactorProofs.Math.Combinatorics

namespace FactorProofs.Math.Combinations

open FactorProofs.Lex FactorProofs.Math.Combinatorics

/-! math.combinatorics: factorial, nPk and nCk over the integers the words
take, and next-combination with the walk of each-combination over the index
arrays. An index array is a list of naturals. -/

variable {α : Type*}

def factorial (n : ℤ) : ℤ := if 1 < n then ((List.range n.toNat).map fun i : ℕ => (i : ℤ) + 1).prod else 1

/-- possible? -/
def possible (n m : ℤ) : Bool := decide (0 ≤ m ∧ m ≤ n)

/-- twiddle, on the `k` it leaves above `n`. -/
def twiddle (n k : ℤ) : ℤ := if k > n - k then n - k else k

/-- nPk: the product of [n..n-k), which counts down from `n`. -/
def nPk (n k : ℤ) : ℤ := if possible n k then ((List.range k.toNat).map fun i : ℕ => n - i).prod else 0

def nCk (n k : ℤ) : ℤ := (nPk n (twiddle n k)).tdiv (factorial (twiddle n k))

/-- find-max-index: the first position `i` whose element is at least
`i + n - length`, compared without leaving the naturals. -/
def findMaxIndex (seq : List ℕ) (n : ℕ) : Option ℕ :=
  (List.range seq.length).find? fun i => decide (i + n ≤ seq.getD i 0 + seq.length)

/-- increment-rest: from position `i` on, the element at `i` plus one, two, ... -/
def incrementRest (i : ℕ) (seq : List ℕ) : List ℕ :=
  seq.take i ++ (List.range (seq.length - i)).map fun j => seq.getD i 0 + 1 + j

def incrementLast (seq : List ℕ) : List ℕ :=
  if seq.isEmpty then seq else seq.modify (seq.length - 1) (· + 1)

/-- next-combination; `1 [-]` is the truncated `i - 1`. -/
def nextCombination (seq : List ℕ) (n : ℕ) : List ℕ :=
  match findMaxIndex seq n with
  | some i => incrementRest (i - 1) seq
  | none => incrementLast seq

/-- The loop of combinations-quot: the index array it hands on at each of
`count` steps, with next-combination between them. -/
def combinationsVisit (n : ℕ) : ℕ → List ℕ → List (List ℕ)
  | 0, _ => []
  | count + 1, idx => idx :: combinationsVisit n count (nextCombination idx n)

/-- all-combinations: map-combinations with the empty quotation, over the
index arrays from `0 .. k - 1`. -/
def allCombinations (seq : List α) (k : ℕ) : List (List α) :=
  (combinationsVisit seq.length (nCk seq.length k).toNat (List.range k)).map fun idx => nthsUnsafe idx seq

theorem prod_map_range_add_one (m : ℕ) : ((List.range m).map fun i : ℕ => (i : ℤ) + 1).prod = m.factorial := by
  induction m with
  | zero => rfl
  | succ m ih =>
    rw [List.range_succ, List.map_append, List.prod_append, ih, Nat.factorial_succ, List.map_singleton,
      List.prod_singleton]
    push_cast
    ring

theorem prod_map_range_sub {n : ℕ} : ∀ k, k ≤ n →
    ((List.range k).map fun i : ℕ => (n : ℤ) - i).prod = n.descFactorial k
  | 0, _ => rfl
  | k + 1, hk => by
    rw [List.range_succ, List.map_append, List.prod_append, prod_map_range_sub k (by omega),
      Nat.descFactorial_succ, List.map_singleton, List.prod_singleton]
    push_cast [Nat.cast_sub (show k ≤ n by omega)]
    ring

theorem factorial_eq (n : ℤ) : factorial n = (n.toNat.factorial : ℤ) := by
  unfold factorial
  split_ifs with h
  · exact prod_map_range_add_one _
  · rw [Nat.factorial_eq_one.mpr (by omega), Nat.cast_one]

theorem nPk_eq (n k : ℤ) : nPk n k = if 0 ≤ k ∧ k ≤ n then (n.toNat.descFactorial k.toNat : ℤ) else 0 := by
  unfold nPk possible
  split_ifs with h1 h2 h2
  · have hn : n = (n.toNat : ℤ) := by omega
    rw [hn, prod_map_range_sub _ (by omega), Int.toNat_natCast]
  · simp only [decide_eq_true_eq] at h1
    exact absurd h1 h2
  · simp only [decide_eq_true_eq] at h1
    exact absurd h2 h1
  · rfl

theorem twiddle_mem_iff (n k : ℤ) : (0 ≤ twiddle n k ∧ twiddle n k ≤ n) ↔ (0 ≤ k ∧ k ≤ n) := by
  unfold twiddle
  split_ifs <;> omega

/-- nCk is the binomial coefficient inside `0 ≤ k ≤ n` and 0 outside. -/
theorem nCk_eq (n k : ℤ) : nCk n k = if 0 ≤ k ∧ k ≤ n then (n.toNat.choose k.toNat : ℤ) else 0 := by
  rw [nCk, nPk_eq, factorial_eq]
  by_cases h : 0 ≤ k ∧ k ≤ n
  · have hfac : ((twiddle n k).toNat.factorial : ℤ) ≠ 0 := Nat.cast_ne_zero.mpr (Nat.factorial_ne_zero _)
    rw [if_pos ((twiddle_mem_iff n k).mpr h), if_pos h, Nat.descFactorial_eq_factorial_mul_choose, Nat.cast_mul,
      Int.mul_tdiv_cancel_left _ hfac]
    unfold twiddle
    split_ifs with ht
    · rw [show (n - k).toNat = n.toNat - k.toNat by omega, Nat.choose_symm (by omega)]
    · rfl
  · rw [if_neg (mt (twiddle_mem_iff n k).mp h), if_neg h, Int.zero_tdiv]

theorem nCk_natCast (n k : ℕ) : (nCk n k).toNat = n.choose k := by
  rw [nCk_eq]
  split_ifs with h
  · simp
  · rw [Nat.choose_eq_zero_of_lt (by omega)]
    rfl

theorem sublist_range_iff {n : ℕ} {xs : List ℕ} :
    xs.Sublist (List.range n) ↔ xs.Pairwise (· < ·) ∧ ∀ x ∈ xs, x < n := by
  constructor
  · intro h
    exact ⟨List.pairwise_lt_range.sublist h, fun x hx => List.mem_range.mp (h.subset hx)⟩
  · rintro ⟨hc, hlt⟩
    exact List.sublist_of_subperm_of_pairwise (hc.nodup.subperm fun x hx => List.mem_range.mpr (hlt x hx)) hc
      List.pairwise_lt_range

section Bounds

variable {n : ℕ} {xs : List ℕ} (hc : xs.Pairwise (· < ·)) (hn : ∀ x ∈ xs, x < n)
include hc hn

theorem getElem_add_length_le {i : ℕ} (hi : i < xs.length) : xs[i] + xs.length ≤ i + n := by
  have hlast : xs.length - 1 < xs.length := by omega
  have h1 := getElem_add_le_getElem hc hi hlast (by omega)
  have h2 := hn _ (List.getElem_mem hlast)
  omega

theorem getElem_add_length_eq {i t : ℕ} (hi : i < xs.length) (ht : t < xs.length) (hit : i ≤ t)
    (hmax : i + n ≤ xs[i] + xs.length) : xs[t] + xs.length = t + n := by
  have h1 := getElem_add_le_getElem hc hi ht hit
  have h2 := getElem_add_length_le hc hn ht
  omega

end Bounds

theorem findMaxIndex_eq_some {seq : List ℕ} {n i : ℕ} (h : findMaxIndex seq n = some i) :
    ∃ hi : i < seq.length, i + n ≤ seq[i] + seq.length ∧
      ∀ t (ht : t < seq.length), t < i → seq[t] + seq.length < t + n := by
  rw [findMaxIndex, List.find?_range_eq_some] at h
  obtain ⟨hp, hmem, hfirst⟩ := h
  have hi := List.mem_range.mp hmem
  refine ⟨hi, ?_, fun t ht hti => ?_⟩
  · simp only [List.getD_eq_getElem _ _ hi, decide_eq_true_eq] at hp
    exact hp
  · have hnot := hfirst t hti
    simp only [List.getD_eq_getElem _ _ ht, Bool.not_eq_eq_eq_not, Bool.not_true, decide_eq_false_iff_not,
      not_le] at hnot
    exact hnot

theorem findMaxIndex_eq_none {seq : List ℕ} {n : ℕ} (h : findMaxIndex seq n = none) :
    ∀ t (ht : t < seq.length), seq[t] + seq.length < t + n := by
  rw [findMaxIndex, List.find?_range_eq_none] at h
  intro t ht
  have hnot := h t ht
  simp only [List.getD_eq_getElem _ _ ht, Bool.not_eq_eq_eq_not, Bool.not_true, decide_eq_false_iff_not,
    not_le] at hnot
  exact hnot

theorem length_incrementRest {i : ℕ} {seq : List ℕ} (hi : i ≤ seq.length) :
    (incrementRest i seq).length = seq.length := by
  simp only [incrementRest, List.length_append, List.length_take, List.length_map, List.length_range]
  omega

theorem getElem_incrementRest_of_lt {i t : ℕ} {seq : List ℕ} (hr : t < (incrementRest i seq).length)
    (hs : t < seq.length) (hti : t < i) : (incrementRest i seq)[t] = seq[t] := by
  simp only [incrementRest]
  rw [List.getElem_append_left (by rw [List.length_take]; omega), List.getElem_take]

theorem getElem_incrementRest_of_le {i t : ℕ} {seq : List ℕ} (hr : t < (incrementRest i seq).length)
    (hi : i < seq.length) (hit : i ≤ t) : (incrementRest i seq)[t] = seq[i] + 1 + (t - i) := by
  have htake : (seq.take i).length = i := List.length_take_of_le hi.le
  simp only [incrementRest]
  rw [List.getElem_append_right (by omega)]
  simp only [List.getElem_map, List.getElem_range, htake, List.getD_eq_getElem _ _ hi]

theorem incrementLast_eq {seq : List ℕ} (h : seq ≠ []) : incrementLast seq = incrementRest (seq.length - 1) seq := by
  have hpos := List.length_pos_of_ne_nil h
  have hlen := length_incrementRest (show seq.length - 1 ≤ seq.length by omega)
  rw [incrementLast, if_neg (by simpa using h)]
  refine List.ext_getElem (by rw [List.length_modify, hlen]) fun t h1 h2 => ?_
  rw [List.getElem_modify]
  split_ifs with ht
  · subst ht
    rw [getElem_incrementRest_of_le h2 (by omega) le_rfl, Nat.sub_self, Nat.add_zero]
  · rw [getElem_incrementRest_of_lt h2 (by rw [List.length_modify] at h1; exact h1) (by omega)]

theorem incrementRest_spec {n : ℕ} {xs : List ℕ} (hc : xs.Pairwise (· < ·)) (hn : ∀ x ∈ xs, x < n) {j : ℕ}
    (hj : j < xs.length) (hfree : xs[j] + xs.length < j + n)
    (hmax : ∀ t (ht : t < xs.length), j < t → xs[t] + xs.length = t + n) :
    (incrementRest j xs).Sublist (List.range n) ∧ (incrementRest j xs).length = xs.length ∧
      xs < incrementRest j xs ∧ ∀ ys, ys.Sublist (List.range n) → ys.length = xs.length → xs < ys → incrementRest j xs ≤ ys := by
  have hlen := length_incrementRest hj.le
  have hcget : ∀ a b (ha : a < xs.length) (hb : b < xs.length), a < b → xs[a] < xs[b] :=
    fun a b ha hb hab => List.pairwise_iff_getElem.mp hc a b ha hb hab
  have hinc : (incrementRest j xs).Pairwise (· < ·) := by
    refine List.pairwise_iff_getElem.mpr fun a b ha hb hab => ?_
    rcases lt_or_ge b j with hbj | hbj
    · rw [getElem_incrementRest_of_lt ha (by omega) (by omega), getElem_incrementRest_of_lt hb (by omega) hbj]
      exact hcget a b _ _ hab
    · rw [getElem_incrementRest_of_le hb hj hbj]
      rcases lt_or_ge a j with haj | haj
      · rw [getElem_incrementRest_of_lt ha (by omega) haj]
        have := hcget a j (by omega) hj haj
        omega
      · rw [getElem_incrementRest_of_le ha hj haj]
        omega
  have hbound : ∀ x ∈ incrementRest j xs, x < n := by
    intro x hx
    obtain ⟨t, ht, rfl⟩ := List.getElem_of_mem hx
    rcases lt_or_ge t j with htj | htj
    · rw [getElem_incrementRest_of_lt ht (by omega) htj]
      exact hn _ (List.getElem_mem _)
    · rw [getElem_incrementRest_of_le ht hj htj]
      omega
  have htake : ∀ p, p ≤ j → (incrementRest j xs).take p = xs.take p := by
    intro p hp
    have hleft : (incrementRest j xs).take j = xs.take j := List.take_left' (List.length_take_of_le hj.le)
    rw [← Nat.min_eq_left hp, ← List.take_take, hleft, List.take_take]
  refine ⟨sublist_range_iff.mpr ⟨hinc, hbound⟩, hlen, ?_, fun ys hd hdl hcd => ?_⟩
  · refine lt_of_take_eq_of_getElem_lt hj (by omega) (htake j le_rfl).symm ?_
    rw [getElem_incrementRest_of_le (by omega) hj le_rfl]
    omega
  obtain ⟨hdp, hdn⟩ := sublist_range_iff.mp hd
  obtain ⟨p, hpc, hpd, hpre, hlt⟩ := exists_take_eq_of_lt hdl.symm hcd
  have hagree : ∀ t (h1 : t < xs.length) (h2 : t < ys.length), t < p → xs[t] = ys[t] := by
    intro t h1 h2 htp
    have hget := congrArg (fun l : List ℕ => l[t]?) hpre
    simp only [List.getElem?_take, if_pos htp, List.getElem?_eq_getElem h1, List.getElem?_eq_getElem h2,
      Option.some_inj] at hget
    exact hget
  rcases lt_trichotomy p j with hpj | rfl | hjp
  · -- ys leaves xs before j, where the next combination still follows xs
    refine le_of_lt (lt_of_take_eq_of_getElem_lt (by omega) hpd ((htake p hpj.le).trans hpre) ?_)
    rw [getElem_incrementRest_of_lt (by omega) hpc hpj]
    exact hlt
  · -- ys is above xs at j, so it is at least xs[j] + 1 there and grows from it
    refine le_of_forall_getElem_le (by omega) fun t h1 h2 => ?_
    rcases lt_or_ge t p with htp | htp
    · rw [getElem_incrementRest_of_lt h1 (by omega) htp]
      exact (hagree t _ h2 htp).le
    · rw [getElem_incrementRest_of_le h1 hj htp]
      have := getElem_add_le_getElem hdp hpd h2 htp
      omega
  · -- after j xs is at its maximum, which ys cannot pass
    have h1 := hmax p hpc hjp
    have h2 := getElem_add_length_le hdp hdn hpd
    omega

theorem nextCombination_lt_of_lt {n : ℕ} {xs ys : List ℕ} (hc : xs.Sublist (List.range n))
    (hd : ys.Sublist (List.range n)) (hlen : ys.length = xs.length) (hcd : xs < ys) :
    (nextCombination xs n).Sublist (List.range n) ∧ (nextCombination xs n).length = xs.length ∧
      xs < nextCombination xs n ∧ nextCombination xs n ≤ ys := by
  obtain ⟨hcp, hcn⟩ := sublist_range_iff.mp hc
  obtain ⟨hdp, hdn⟩ := sublist_range_iff.mp hd
  have hnotmax : ¬∀ t (ht : t < xs.length), xs[t] + xs.length = t + n := by
    intro hall
    refine absurd hcd (not_lt_of_ge (le_of_forall_getElem_le hlen fun t h1 h2 => ?_))
    have := getElem_add_length_le hdp hdn h1
    have := hall t h2
    omega
  cases hfind : findMaxIndex xs n with
  | none =>
    have hfree := findMaxIndex_eq_none hfind
    have hne : xs ≠ [] := by
      rintro rfl
      exact hnotmax fun t ht => absurd ht (Nat.not_lt_zero t)
    have hj : xs.length - 1 < xs.length := by
      have := List.length_pos_of_ne_nil hne
      omega
    simp only [nextCombination, hfind]
    rw [incrementLast_eq hne]
    obtain ⟨h1, h2, h3, h4⟩ := incrementRest_spec hcp hcn hj (hfree _ hj) fun t ht hjt => by omega
    exact ⟨h1, h2, h3, h4 ys hd hlen hcd⟩
  | some i =>
    obtain ⟨hi, hmaxi, hfirst⟩ := findMaxIndex_eq_some hfind
    have hi0 : i ≠ 0 := by
      rintro rfl
      exact hnotmax fun t ht => getElem_add_length_eq hcp hcn hi ht (Nat.zero_le t) hmaxi
    simp only [nextCombination, hfind]
    obtain ⟨h1, h2, h3, h4⟩ := incrementRest_spec hcp hcn (show i - 1 < xs.length by omega)
      (hfirst _ _ (by omega)) fun t ht hjt => getElem_add_length_eq hcp hcn hi ht (by omega) hmaxi
    exact ⟨h1, h2, h3, h4 ys hd hlen hcd⟩

theorem combinationsVisit_eq_map_iterate (n count : ℕ) :
    ∀ idx, combinationsVisit n count idx = (List.range count).map fun i => (nextCombination · n)^[i] idx := by
  induction count with
  | zero => intro idx; rfl
  | succ count ih =>
    intro idx
    rw [combinationsVisit, ih, List.range_succ_eq_map, List.map_cons, List.map_map]
    rfl

theorem range_le_of_sublist {n k : ℕ} {ys : List ℕ} (hd : ys.Sublist (List.range n)) (hdk : ys.length = k) :
    List.range k ≤ ys := by
  have hdp := (sublist_range_iff.mp hd).1
  refine le_of_forall_getElem_le (by rw [List.length_range, hdk]) fun t h1 h2 => ?_
  rw [List.getElem_range]
  have := getElem_add_le_getElem hdp (show 0 < ys.length by omega) h2 (Nat.zero_le t)
  omega

theorem combinationsVisit_eq_sort {n k : ℕ} (hk : k ≤ n) :
    combinationsVisit n (n.choose k) (List.range k) = (((List.range n).sublistsLen k).toFinset).sort (· ≤ ·) := by
  have hmem : ∀ ys, ys ∈ ((List.range n).sublistsLen k).toFinset ↔ ys.Sublist (List.range n) ∧ ys.length = k :=
    fun ys => by rw [List.mem_toFinset, List.mem_sublistsLen]
  have hcard : (((List.range n).sublistsLen k).toFinset).card = n.choose k := by
    rw [List.toFinset_card_of_nodup (List.nodup_sublistsLen k List.nodup_range), List.length_sublistsLen,
      List.length_range]
  rw [combinationsVisit_eq_map_iterate, ← hcard]
  refine map_iterate_eq_sort _ (fun x hx y hy hxy => ?_)
    ((hmem _).mpr ⟨List.range_sublist.mpr hk, List.length_range⟩) fun y hy => ?_
  · obtain ⟨hxs, hxk⟩ := (hmem x).mp hx
    obtain ⟨hys, hyk⟩ := (hmem y).mp hy
    obtain ⟨h1, h2, h3, h4⟩ := nextCombination_lt_of_lt hxs hys (hyk.trans hxk.symm) hxy
    exact ⟨(hmem _).mpr ⟨h1, h2.trans hxk⟩, h3, h4⟩
  · obtain ⟨hys, hyk⟩ := (hmem y).mp hy
    exact range_le_of_sublist hys hyk

theorem length_combinationsVisit (n count : ℕ) (idx : List ℕ) : (combinationsVisit n count idx).length = count := by
  rw [combinationsVisit_eq_map_iterate, List.length_map, List.length_range]

theorem pairwise_combinationsVisit (n k : ℕ) :
    (combinationsVisit n (nCk n k).toNat (List.range k)).Pairwise (· < ·) := by
  rw [nCk_natCast]
  by_cases hk : k ≤ n
  · rw [combinationsVisit_eq_sort hk]
    exact pairwise_lt_sort _
  · rw [Nat.choose_eq_zero_of_lt (by omega)]
    exact List.Pairwise.nil

theorem mem_combinationsVisit {n k : ℕ} {σ : List ℕ} :
    σ ∈ combinationsVisit n (nCk n k).toNat (List.range k) ↔ σ.Sublist (List.range n) ∧ σ.length = k := by
  rw [nCk_natCast]
  by_cases hk : k ≤ n
  · rw [combinationsVisit_eq_sort hk, Finset.mem_sort, List.mem_toFinset, List.mem_sublistsLen]
  · rw [Nat.choose_eq_zero_of_lt (by omega)]
    refine ⟨fun h => absurd h List.not_mem_nil, ?_⟩
    rintro ⟨hs, rfl⟩
    exact absurd hs.length_le (by rw [List.length_range]; omega)

/-- each-combination hands on every combination of `k` of the indices below
`n`, as an increasing sequence, once each and in increasing lexicographic
order; for `k > n` it hands on none. -/
theorem combinationsVisit_lex (n k : ℕ) :
    (combinationsVisit n (nCk n k).toNat (List.range k)).Pairwise (· < ·) ∧
      ∀ σ, σ ∈ combinationsVisit n (nCk n k).toNat (List.range k) ↔ σ.Sublist (List.range n) ∧ σ.length = k :=
  ⟨pairwise_combinationsVisit n k, fun _ => mem_combinationsVisit⟩

/-- all-combinations lists `seq.length` choose `k` entries, and a list is among
them exactly when it is a sublist of the sequence of length `k`. -/
theorem allCombinations_spec (seq : List α) (k : ℕ) :
    (allCombinations seq k).length = seq.length.choose k ∧
      ∀ m, m ∈ allCombinations seq k ↔ m.Sublist seq ∧ m.length = k := by
  refine ⟨by rw [allCombinations, List.length_map, length_combinationsVisit, nCk_natCast], fun m => ?_⟩
  rw [allCombinations, List.mem_map]
  constructor
  · rintro ⟨σ, hσ, rfl⟩
    obtain ⟨hs, hk⟩ := mem_combinationsVisit.mp hσ
    have hin : ∀ j ∈ σ, j < seq.length := fun j hj => List.mem_range.mp (hs.subset hj)
    have hsub := hs.filterMap (seq[·]?)
    rw [filterMap_getElem?_range] at hsub
    exact ⟨hsub, by rw [nthsUnsafe, length_filterMap_getElem? hin, hk]⟩
  · rintro ⟨hm, hk⟩
    obtain ⟨σ, hσ, hread⟩ := exists_sublist_range_of_sublist hm
    have hin : ∀ j ∈ σ, j < seq.length := fun j hj => List.mem_range.mp (hσ.subset hj)
    refine ⟨σ, mem_combinationsVisit.mpr ⟨hσ, ?_⟩, hread⟩
    rw [← hk, ← hread, length_filterMap_getElem? hin]

end FactorProofs.Math.Combinations
