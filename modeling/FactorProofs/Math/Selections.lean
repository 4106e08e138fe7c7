import Mathlib.Data.Fintype.BigOperators
import Mathlib.Data.List.GetD
import Mathlib.Data.List.OfFn
import FactorProofs.Math.Combinations

namespace FactorProofs.Math.Selections

open FactorProofs.Lex FactorProofs.Math.Combinatorics

/-! math.combinatorics: next-selection and the walk of each-selection, which
counts the index array up like an odometer in base `len`. -/

variable {α : Type*}

/-- The do-until loop of next-selection at position `i` with the carry: the
body adds the carry to the element and keeps the remainder, and the loop stops
past position 0 or once the carry is 0. -/
def nextSelectionLoop (n : ℕ) : ℕ → ℕ → List ℕ → List ℕ
  | carry, 0, seq => seq.set 0 ((carry + seq.getD 0 0) % n)
  | carry, i + 1, seq =>
    if (carry + seq.getD (i + 1) 0) / n = 0 then seq.set (i + 1) ((carry + seq.getD (i + 1) 0) % n)
    else nextSelectionLoop n ((carry + seq.getD (i + 1) 0) / n) i
      (seq.set (i + 1) ((carry + seq.getD (i + 1) 0) % n))

/-- next-selection: the loop from the last position with carry 1. -/
def nextSelection (seq : List ℕ) (n : ℕ) : List ℕ := nextSelectionLoop n 1 (seq.length - 1) seq

/-- The loop of selections-quot over `count` steps. -/
def selectionsVisit (len : ℕ) : ℕ → List ℕ → List (List ℕ)
  | 0, _ => []
  | count + 1, idx => idx :: selectionsVisit len count (nextSelection idx len)

/-- all-selections: `len ^ n` steps from the zero array, and none for `n = 0`. -/
def allSelections (seq : List α) (n : ℕ) : List (List α) :=
  (selectionsVisit seq.length (if n = 0 then 0 else seq.length ^ n) (List.replicate n 0)).map
    fun idx => nthsUnsafe idx seq

/-- The lists of `k` naturals below `len`. -/
def tuples (k len : ℕ) : Finset (List ℕ) :=
  (Finset.univ : Finset (Fin k → Fin len)).image fun f => List.ofFn fun i => (f i : ℕ)

theorem length_nextSelectionLoop (n : ℕ) : ∀ carry i (seq : List ℕ), (nextSelectionLoop n carry i seq).length = seq.length
  | carry, 0, seq => by rw [nextSelectionLoop, List.length_set]
  | carry, i + 1, seq => by
    rw [nextSelectionLoop]
    split_ifs
    · rw [List.length_set]
    · rw [length_nextSelectionLoop n _ i, List.length_set]

theorem nextSelectionLoop_stop {n j : ℕ} {seq : List ℕ} (hj : j < seq.length) (hjn : seq[j] + 1 < n) :
    nextSelectionLoop n 1 j seq = seq.set j (seq[j] + 1) := by
  cases j with
  | zero =>
    simp only [nextSelectionLoop, List.getD_eq_getElem _ _ hj]
    rw [Nat.mod_eq_of_lt (by omega), Nat.add_comm]
  | succ i =>
    simp only [nextSelectionLoop, List.getD_eq_getElem _ _ hj, Nat.div_eq_of_lt (show 1 + seq[i + 1] < n by omega),
      if_true, Nat.mod_eq_of_lt (show 1 + seq[i + 1] < n by omega)]
    rw [Nat.add_comm 1]

theorem nextSelectionLoop_carry {n i : ℕ} {seq : List ℕ} (hi : i + 1 < seq.length) (htop : seq[i + 1] + 1 = n) :
    nextSelectionLoop n 1 (i + 1) seq = nextSelectionLoop n 1 i (seq.set (i + 1) 0) := by
  have hv : 1 + seq[i + 1] = n := by omega
  simp only [nextSelectionLoop, List.getD_eq_getElem _ _ hi, hv, Nat.div_self (show 0 < n by omega),
    Nat.mod_self, one_ne_zero, if_false]

theorem nextSelectionLoop_eq {n j : ℕ} :
    ∀ i (seq : List ℕ) (hi : i < seq.length) (hji : j ≤ i) (hjn : seq[j] + 1 < n),
      (∀ t (ht : t < seq.length), j < t → t ≤ i → seq[t] + 1 = n) →
      nextSelectionLoop n 1 i seq = seq.take j ++ (seq[j] + 1) :: (List.replicate (i - j) 0 ++ seq.drop (i + 1)) := by
  intro i
  induction i with
  | zero =>
    intro seq hi hji hjn _
    obtain rfl : j = 0 := by omega
    rw [nextSelectionLoop_stop hi hjn, List.set_eq_take_append_cons_drop, if_pos hi]
    rfl
  | succ i ih =>
    intro seq hi hji hjn htop
    rcases Nat.lt_or_ge j (i + 1) with hji' | hji'
    · -- the top digit at i + 1 turns to 0 and the carry goes on
      have hlen : (seq.set (i + 1) 0).length = seq.length := List.length_set ..
      have hj' : (seq.set (i + 1) 0)[j] = seq[j] := by
        rw [List.getElem_set, if_neg (by omega)]
      have htop' : ∀ t (ht : t < (seq.set (i + 1) 0).length), j < t → t ≤ i → (seq.set (i + 1) 0)[t] + 1 = n :=
        fun t ht hjt hti => by
          rw [List.getElem_set, if_neg (by omega)]
          exact htop t (by omega) hjt (by omega)
      have hdrop : (seq.set (i + 1) 0).drop (i + 1) = 0 :: seq.drop (i + 2) := by
        rw [List.drop_set, if_neg (by omega), Nat.sub_self, List.drop_eq_getElem_cons hi, List.set_cons_zero]
      rw [nextSelectionLoop_carry hi (htop (i + 1) hi hji' le_rfl),
        ih (seq.set (i + 1) 0) (by omega) (by omega) (hj' ▸ hjn) htop', hj', List.take_set_of_le (by omega), hdrop,
        show i + 1 - j = i - j + 1 by omega, List.replicate_succ', List.append_assoc, List.singleton_append]
    · -- the digit at j = i + 1 goes up by one and the carry stops
      obtain rfl : j = i + 1 := by omega
      rw [nextSelectionLoop_stop hi hjn, List.set_eq_take_append_cons_drop, if_pos hi, Nat.sub_self]
      rfl

theorem nextSelection_eq {n j : ℕ} {x : List ℕ} (hj : j < x.length) (hjn : x[j] + 1 < n)
    (htop : ∀ t (ht : t < x.length), j < t → x[t] + 1 = n) :
    nextSelection x n = x.take j ++ (x[j] + 1) :: List.replicate (x.length - 1 - j) 0 := by
  rw [nextSelection, nextSelectionLoop_eq (x.length - 1) x (by omega) (by omega) hjn fun t ht hjt _ => htop t ht hjt,
    List.drop_eq_nil_of_le (by omega), List.append_nil]

section Odometer

variable {x : List ℕ} {j t v m : ℕ} (hj : j < x.length)
include hj

theorem getElem_odometer_of_lt (h : t < (x.take j ++ v :: List.replicate m 0).length) (htj : t < j) :
    (x.take j ++ v :: List.replicate m 0)[t] = x[t] := by
  rw [List.getElem_append_left (by rw [List.length_take]; omega), List.getElem_take]

theorem getElem_odometer_self (h : j < (x.take j ++ v :: List.replicate m 0).length) :
    (x.take j ++ v :: List.replicate m 0)[j] = v := by
  rw [List.getElem_append_right (by rw [List.length_take]; omega)]
  simp [List.length_take, Nat.min_eq_left hj.le]

theorem getElem_odometer_of_gt (h : t < (x.take j ++ v :: List.replicate m 0).length) (hjt : j < t) :
    (x.take j ++ v :: List.replicate m 0)[t] = 0 := by
  have htake : (x.take j).length = j := List.length_take_of_le hj.le
  have hsub : t - (x.take j).length = (t - j - 1) + 1 := by omega
  rw [List.getElem_append_right (by omega)]
  simp only [hsub, List.getElem_cons_succ, List.getElem_replicate]

end Odometer

theorem exists_last_below_top {n : ℕ} {x : List ℕ} (hx : ∀ a ∈ x, a < n)
    (hnotmax : ∃ t, ∃ ht : t < x.length, x[t] + 1 < n) :
    ∃ j, ∃ hj : j < x.length, x[j] + 1 < n ∧ ∀ t (ht : t < x.length), j < t → x[t] + 1 = n := by
  have hdigit : ∀ t (ht : t < x.length), decide (x.getD t 0 + 1 < n) = true ↔ x[t] + 1 < n := fun t ht => by
    rw [List.getD_eq_getElem _ _ ht, decide_eq_true_iff]
  cases hfind : findLast (fun t => decide (x.getD t 0 + 1 < n)) x.length with
  | none =>
    obtain ⟨t0, ht0, hlt0⟩ := hnotmax
    exact absurd ((hdigit t0 ht0).mpr hlt0) (by rw [findLast_eq_none hfind t0 ht0]; exact Bool.false_ne_true)
  | some j =>
    obtain ⟨hj, hpj, hlast⟩ := findLast_eq_some hfind
    refine ⟨j, hj, (hdigit j hj).mp hpj, fun t ht hjt => ?_⟩
    have hnot := hlast t hjt ht
    have := hx _ (List.getElem_mem ht)
    by_contra hne
    exact absurd ((hdigit t ht).mpr (by omega)) (by rw [hnot]; exact Bool.false_ne_true)

theorem nextSelection_lt_of_lt {n : ℕ} {x y : List ℕ} (hx : ∀ a ∈ x, a < n) (hy : ∀ a ∈ y, a < n)
    (hlen : y.length = x.length) (hxy : x < y) :
    (nextSelection x n).length = x.length ∧ (∀ a ∈ nextSelection x n, a < n) ∧
      x < nextSelection x n ∧ nextSelection x n ≤ y := by
  have hnotmax : ∃ t, ∃ ht : t < x.length, x[t] + 1 < n := by
    by_contra hall
    push Not at hall
    refine absurd hxy (not_lt_of_ge (le_of_forall_getElem_le hlen fun t h1 h2 => ?_))
    have := hy _ (List.getElem_mem h1)
    have := hall t h2
    omega
  obtain ⟨j, hj, hjn, htop⟩ := exists_last_below_top hx hnotmax
  rw [nextSelection_eq hj hjn htop]
  have hrlen : (x.take j ++ (x[j] + 1) :: List.replicate (x.length - 1 - j) 0).length = x.length := by
    simp only [List.length_append, List.length_take, List.length_cons, List.length_replicate]
    omega
  have htake : (x.take j ++ (x[j] + 1) :: List.replicate (x.length - 1 - j) 0).take j = x.take j :=
    List.take_left' (List.length_take_of_le hj.le)
  refine ⟨hrlen, fun a ha => ?_, ?_, ?_⟩
  · simp only [List.mem_append, List.mem_cons, List.mem_replicate] at ha
    rcases ha with ha | rfl | ⟨-, rfl⟩
    · exact hx a (List.mem_of_mem_take ha)
    · exact hjn
    · omega
  · refine lt_of_take_eq_of_getElem_lt hj (by omega) htake.symm ?_
    rw [getElem_odometer_self hj]
    omega
  · refine le_of_lt_of_agree hlen hj (by omega) htake (fun t h1 h2 hjt => ?_) (fun hpre hjy hlt => ?_) hxy
    · have := hy _ (List.getElem_mem h2)
      have := htop t h1 hjt
      omega
    refine le_of_forall_getElem_le (by omega) fun t h1 h2 => ?_
    rcases lt_trichotomy t j with htj | rfl | hjt
    · rw [getElem_odometer_of_lt hj h1 htj]
      exact (getElem_eq_of_take_eq hpre htj (by omega) h2).le
    · rw [getElem_odometer_self hj]
      omega
    · rw [getElem_odometer_of_gt hj h1 hjt]
      exact Nat.zero_le _

theorem selectionsVisit_eq_map_iterate (len count : ℕ) :
    ∀ idx, selectionsVisit len count idx = (List.range count).map fun i => (nextSelection · len)^[i] idx := by
  induction count with
  | zero => intro idx; rfl
  | succ count ih =>
    intro idx
    rw [selectionsVisit, ih, List.range_succ_eq_map, List.map_cons, List.map_map]
    rfl

theorem mem_tuples {k len : ℕ} {σ : List ℕ} : σ ∈ tuples k len ↔ σ.length = k ∧ ∀ a ∈ σ, a < len := by
  constructor
  · intro h
    obtain ⟨f, -, rfl⟩ := Finset.mem_image.mp h
    refine ⟨List.length_ofFn, fun a ha => ?_⟩
    obtain ⟨i, rfl⟩ := List.mem_ofFn.mp ha
    exact (f i).isLt
  · rintro ⟨rfl, hlt⟩
    refine Finset.mem_image.mpr ⟨fun i => ⟨σ.get i, hlt _ (List.get_mem σ i)⟩, Finset.mem_univ _, ?_⟩
    exact List.ofFn_get σ

theorem card_tuples (k len : ℕ) : (tuples k len).card = len ^ k := by
  have hinj : Function.Injective fun f : Fin k → Fin len => List.ofFn fun i => (f i : ℕ) := by
    intro f g h
    funext i
    exact Fin.ext (congrFun (List.ofFn_injective h) i)
  rw [tuples, Finset.card_image_of_injective _ hinj, Finset.card_univ, Fintype.card_fun, Fintype.card_fin,
    Fintype.card_fin]

theorem selectionsVisit_eq_sort (len k : ℕ) :
    selectionsVisit len (len ^ k) (List.replicate k 0) = (tuples k len).sort (· ≤ ·) := by
  rw [selectionsVisit_eq_map_iterate, ← card_tuples k len]
  by_cases hzero : 0 < k ∧ len = 0
  · -- no digits for a nonempty list: there is nothing to list
    have hempty : tuples k len = ∅ :=
      Finset.card_eq_zero.mp (by rw [card_tuples, hzero.2, zero_pow hzero.1.ne'])
    rw [hempty, Finset.card_empty, Finset.sort_empty]
    rfl
  have hzeros : ∀ a ∈ List.replicate k 0, a < len := fun a ha => by
    have := List.eq_of_mem_replicate ha
    have : 0 < k := List.length_pos_of_mem ha |>.trans_eq List.length_replicate
    omega
  refine map_iterate_eq_sort _ (fun x hx y hy hxy => ?_)
    (mem_tuples.mpr ⟨List.length_replicate, hzeros⟩)
    fun y hy => ?_
  · obtain ⟨hxk, hxl⟩ := mem_tuples.mp hx
    obtain ⟨hyk, hyl⟩ := mem_tuples.mp hy
    obtain ⟨h1, h2, h3, h4⟩ := nextSelection_lt_of_lt hxl hyl (hyk.trans hxk.symm) hxy
    exact ⟨mem_tuples.mpr ⟨h1.trans hxk, h2⟩, h3, h4⟩
  · obtain ⟨hyk, -⟩ := mem_tuples.mp hy
    refine le_of_forall_getElem_le (by rw [List.length_replicate, hyk]) fun t h1 h2 => ?_
    rw [List.getElem_replicate]
    exact Nat.zero_le _

theorem pairwise_selectionsVisit (len k : ℕ) :
    (selectionsVisit len (if k = 0 then 0 else len ^ k) (List.replicate k 0)).Pairwise (· < ·) := by
  split_ifs
  · exact List.Pairwise.nil
  · rw [selectionsVisit_eq_sort]
    exact pairwise_lt_sort _

theorem mem_selectionsVisit {len k : ℕ} {σ : List ℕ} :
    σ ∈ selectionsVisit len (if k = 0 then 0 else len ^ k) (List.replicate k 0) ↔
      0 < k ∧ σ.length = k ∧ ∀ a ∈ σ, a < len := by
  split_ifs with hk
  · exact ⟨fun h => absurd h List.not_mem_nil, fun h => absurd h.1 (by omega)⟩
  · rw [selectionsVisit_eq_sort, Finset.mem_sort, mem_tuples]
    exact ⟨fun h => ⟨by omega, h⟩, fun h => h.2⟩

/-- each-selection hands on every list of `k` digits below `len` once, in
increasing lexicographic order, and none at all for `k = 0`. -/
theorem selectionsVisit_lex (len k : ℕ) :
    (selectionsVisit len (if k = 0 then 0 else len ^ k) (List.replicate k 0)).Pairwise (· < ·) ∧
      ∀ σ, σ ∈ selectionsVisit len (if k = 0 then 0 else len ^ k) (List.replicate k 0) ↔
        0 < k ∧ σ.length = k ∧ ∀ a ∈ σ, a < len :=
  ⟨pairwise_selectionsVisit len k, fun _ => mem_selectionsVisit⟩

/-- all-selections lists `seq.length ^ n` entries for `n > 0`, and a list is
among them exactly when it has `n` elements, each from the sequence. -/
theorem allSelections_spec (seq : List α) (n : ℕ) :
    (allSelections seq n).length = (if n = 0 then 0 else seq.length ^ n) ∧
      ∀ m, m ∈ allSelections seq n ↔ 0 < n ∧ m.length = n ∧ ∀ a ∈ m, a ∈ seq := by
  classical
  have hlen : ∀ count idx, (selectionsVisit seq.length count idx).length = count := fun count idx => by
    rw [selectionsVisit_eq_map_iterate, List.length_map, List.length_range]
  refine ⟨by rw [allSelections, List.length_map, hlen], fun m => ?_⟩
  rw [allSelections, List.mem_map]
  constructor
  · rintro ⟨σ, hσ, rfl⟩
    obtain ⟨hn, hσn, hσl⟩ := mem_selectionsVisit.mp hσ
    refine ⟨hn, by rw [nthsUnsafe, length_filterMap_getElem? hσl, hσn], fun a ha => ?_⟩
    obtain ⟨i, hi, ha⟩ := List.mem_filterMap.mp ha
    exact List.mem_of_getElem? ha
  · rintro ⟨hn, hmn, hmem⟩
    have hidx : ∀ a ∈ m, seq.idxOf a < seq.length := fun a ha => List.idxOf_lt_length_iff.mpr (hmem a ha)
    refine ⟨m.map seq.idxOf, mem_selectionsVisit.mpr ⟨hn, by rw [List.length_map, hmn], ?_⟩, ?_⟩
    · intro i hi
      obtain ⟨a, ha, rfl⟩ := List.mem_map.mp hi
      exact hidx a ha
    · rw [nthsUnsafe, List.filterMap_map]
      refine (List.filterMap_eq_map_iff_forall_eq_some.mpr fun a ha => ?_).trans (List.map_id m)
      show seq[seq.idxOf a]? = some a
      rw [List.getElem?_eq_getElem (hidx a ha), List.getElem_idxOf (hidx a ha)]

end FactorProofs.Math.Selections
