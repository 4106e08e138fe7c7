import Mathlib.Data.Finset.Sort
import Mathlib.Data.List.Permutation
import FactorProofs.Core.Sorting
import FactorProofs.Library.Lex

namespace FactorProofs.Math.Combinatorics

open FactorProofs.Lex

/-! math.combinatorics: next-permutation and the words that walk the
permutations of a sequence with it. The sequences are lists; the in-place
words (exchange-unsafe, reverse! of a tail) return the list they leave. -/

variable {α : Type*}

/-- find-last over the positions below `n`: the last one at which `p` holds. -/
def findLast (p : ℕ → Bool) : ℕ → Option ℕ
  | 0 => none
  | n + 1 => if p n then some n else findLast p n

/-- exchange-unsafe -/
def exchange (m n : ℕ) (seq : List α) : List α :=
  match seq[m]?, seq[n]? with
  | some x, some y => (seq.set m y).set n x
  | _, _ => seq

/-- reverse-tail!: the elements after position `n` reversed. -/
def reverseTail (n : ℕ) (seq : List α) : List α := seq.take (n + 1) ++ (seq.drop (n + 1)).reverse

section Order

variable [LinearOrder α]

/-- The quotation of find-last in cut-point: the element at `i` is below the
one after it. find-last carries the element after each position, and the last
element against itself. -/
def ascent (seq : List α) (i : ℕ) : Bool :=
  match seq[i]?, seq[i + 1]? with
  | some x, some y => decide (x < y)
  | _, _ => false

/-- cut-point -/
def cutPoint (seq : List α) : Option ℕ := findLast (ascent seq) seq.length

/-- The quotation of find-last in greater-from-last: the element at `j` is
above the one at `n`. -/
def above (seq : List α) (n j : ℕ) : Bool :=
  match seq[j]?, seq[n]? with
  | some x, some y => decide (y < x)
  | _, _ => false

/-- greater-from-last -/
def greaterFromLast (n : ℕ) (seq : List α) : Option ℕ := findLast (above seq n) seq.length

/-- (next-permutation). After a cut point some later element is above it, so
the branch without one is never taken. -/
def nextPermutationAux (seq : List α) : List α :=
  match cutPoint seq with
  | some n =>
    match greaterFromLast n seq with
    | some j => reverseTail n (exchange j n seq)
    | none => seq
  | none => seq.reverse

def nextPermutation (seq : List α) : List α := if seq.isEmpty then seq else nextPermutationAux seq

end Order

/-- The loop of permutations-quot: the index array it hands on at each of `k`
steps, with next-permutation between them. -/
def permutationsVisit : ℕ → List ℕ → List (List ℕ)
  | 0, _ => []
  | k + 1, idx => idx :: permutationsVisit k (nextPermutation idx)

/-- nths-unsafe, at indices inside the sequence. -/
def nthsUnsafe (indices : List ℕ) (seq : List α) : List α := indices.filterMap fun i => seq[i]?

/-- all-permutations: map-permutations with the empty quotation, over the
index arrays from the identity. -/
def allPermutations (seq : List α) : List (List α) :=
  (permutationsVisit seq.length.factorial (List.range seq.length)).map fun idx => nthsUnsafe idx seq

section Inverse

variable {β : Type}

/-- <enumerated> as a sequence: each element after its index. -/
def enumerated (seq : List β) : List (ℕ × β) := (List.range seq.length).zip seq

variable [LinearOrder β]

/-- inverse-permutation: the keys of <enumerated> sorted by value. -/
def inversePermutation (seq : List β) : List ℕ := (Core.Sorting.sortValues (enumerated seq)).map Prod.fst

end Inverse

theorem findLast_eq_some {p : ℕ → Bool} {n i : ℕ} (h : findLast p n = some i) :
    i < n ∧ p i = true ∧ ∀ j, i < j → j < n → p j = false := by
  induction n with
  | zero => exact absurd h (by simp [findLast])
  | succ n ih =>
    rw [findLast] at h
    split_ifs at h with hn
    · obtain rfl := Option.some.inj h
      exact ⟨by omega, hn, fun j hij hjn => by omega⟩
    · obtain ⟨hi, hp, hlast⟩ := ih h
      refine ⟨by omega, hp, fun j hij hjn => ?_⟩
      rcases Nat.lt_succ_iff_lt_or_eq.mp hjn with hj | rfl
      · exact hlast j hij hj
      · simpa using hn

theorem findLast_eq_none {p : ℕ → Bool} {n : ℕ} (h : findLast p n = none) : ∀ j, j < n → p j = false := by
  induction n with
  | zero => intro j hj; omega
  | succ n ih =>
    rw [findLast] at h
    split_ifs at h with hn
    intro j hj
    rcases Nat.lt_succ_iff_lt_or_eq.mp hj with hj | rfl
    · exact ih h j hj
    · simpa using hn

section Steps

variable [LinearOrder α]

theorem ascent_eq_true_iff {seq : List α} {i : ℕ} :
    ascent seq i = true ↔ ∃ h : i + 1 < seq.length, seq[i] < seq[i + 1] := by
  unfold ascent
  by_cases h : i + 1 < seq.length
  · rw [List.getElem?_eq_getElem (show i < seq.length by omega), List.getElem?_eq_getElem h]
    simp [h]
  · rw [List.getElem?_eq_none (show seq.length ≤ i + 1 by omega)]
    cases seq[i]? <;> simp [h]

theorem above_eq_true_iff {seq : List α} {n j : ℕ} (hn : n < seq.length) :
    above seq n j = true ↔ ∃ h : j < seq.length, seq[n] < seq[j] := by
  unfold above
  rw [List.getElem?_eq_getElem hn]
  by_cases h : j < seq.length
  · rw [List.getElem?_eq_getElem h]
    simp [h]
  · rw [List.getElem?_eq_none (not_lt.mp h)]
    simp [h]

theorem pairwise_ge_of_cutPoint_eq_none {seq : List α} (h : cutPoint seq = none) : seq.Pairwise (· ≥ ·) := by
  refine (List.isChain_iff_getElem.mpr fun i hi => ?_).pairwise
  have hf := findLast_eq_none h i (by omega)
  by_contra hlt
  exact absurd (ascent_eq_true_iff.mpr ⟨hi, not_le.mp hlt⟩) (by rw [hf]; exact Bool.false_ne_true)

theorem cutPoint_eq_some {seq : List α} {n : ℕ} (h : cutPoint seq = some n) :
    ∃ hn : n + 1 < seq.length, seq[n] < seq[n + 1] ∧ (seq.drop (n + 1)).Pairwise (· ≥ ·) := by
  obtain ⟨-, hp, hlast⟩ := findLast_eq_some h
  obtain ⟨hn, hlt⟩ := ascent_eq_true_iff.mp hp
  refine ⟨hn, hlt, (List.isChain_iff_getElem.mpr fun i hi => ?_).pairwise⟩
  rw [List.length_drop] at hi
  have hf := hlast (n + 1 + i) (by omega) (by omega)
  rw [List.getElem_drop, List.getElem_drop]
  by_contra hgt
  have hasc : ascent seq (n + 1 + i) = true := ascent_eq_true_iff.mpr ⟨by omega, not_le.mp hgt⟩
  rw [hf] at hasc
  exact Bool.false_ne_true hasc

theorem greaterFromLast_of_cutPoint {seq : List α} {n : ℕ} (h : cutPoint seq = some n) :
    ∃ t, ∃ ht : n + 1 + t < seq.length, greaterFromLast n seq = some (n + 1 + t) ∧ seq[n] < seq[n + 1 + t] ∧
      ∀ j (hj : j < seq.length), n + 1 + t < j → seq[j] ≤ seq[n] := by
  obtain ⟨hn, hlt, -⟩ := cutPoint_eq_some h
  have hnl : n < seq.length := by omega
  cases hg : greaterFromLast n seq with
  | none =>
    have hf := findLast_eq_none hg (n + 1) hn
    exact absurd ((above_eq_true_iff hnl).mpr ⟨hn, hlt⟩) (by rw [hf]; exact Bool.false_ne_true)
  | some j =>
    obtain ⟨hj, hp, hlast⟩ := findLast_eq_some hg
    obtain ⟨hjl, hgt⟩ := (above_eq_true_iff hnl).mp hp
    have hnj : n + 1 ≤ j := by
      by_contra hjn
      have hf := hlast (n + 1) (by omega) hn
      exact absurd ((above_eq_true_iff hnl).mpr ⟨hn, hlt⟩) (by rw [hf]; exact Bool.false_ne_true)
    refine ⟨j - (n + 1), by omega, by rw [show n + 1 + (j - (n + 1)) = j by omega], ?_, fun i hi hji => ?_⟩
    · simpa [show n + 1 + (j - (n + 1)) = j by omega] using hgt
    · by_contra hgti
      have hf := hlast i (by omega) hi
      exact absurd ((above_eq_true_iff hnl).mpr ⟨hi, not_le.mp hgti⟩) (by rw [hf]; exact Bool.false_ne_true)

omit [LinearOrder α] in
theorem reverseTail_exchange (pre suf : List α) (a : α) {t : ℕ} (ht : t < suf.length) :
    reverseTail pre.length (exchange (pre.length + 1 + t) pre.length (pre ++ a :: suf)) =
      pre ++ suf[t] :: (suf.set t a).reverse := by
  have hj : (pre ++ a :: suf)[pre.length + 1 + t]? = some suf[t] := by
    rw [List.getElem?_append_right (by omega), show pre.length + 1 + t - pre.length = t + 1 by omega,
      List.getElem?_cons_succ, List.getElem?_eq_getElem ht]
  have hn : (pre ++ a :: suf)[pre.length]? = some a := by
    rw [List.getElem?_append_right le_rfl, Nat.sub_self, List.getElem?_cons_zero]
  have hset : ((pre ++ a :: suf).set (pre.length + 1 + t) a).set pre.length suf[t] =
      (pre ++ [suf[t]]) ++ suf.set t a := by
    rw [List.set_append_right _ _ (by omega), show pre.length + 1 + t - pre.length = t + 1 by omega,
      List.set_cons_succ, List.set_append_right _ _ le_rfl, Nat.sub_self, List.set_cons_zero,
      List.append_assoc, List.singleton_append]
  have hlen : (pre ++ [suf[t]]).length = pre.length + 1 := by simp
  rw [exchange, hj, hn]
  dsimp only
  rw [hset, reverseTail, List.take_left' hlen, List.drop_left' hlen, List.append_assoc, List.singleton_append]

theorem nextPermutation_of_cutPoint {seq : List α} {n : ℕ} (h : cutPoint seq = some n) :
    ∃ (pre suf : List α) (a : α) (t : ℕ) (ht : t < suf.length),
      seq = pre ++ a :: suf ∧ suf.Pairwise (· ≥ ·) ∧ a < suf[t] ∧
      (∀ i (hi : i < suf.length), t < i → suf[i] ≤ a) ∧
      nextPermutation seq = pre ++ suf[t] :: (suf.set t a).reverse := by
  obtain ⟨hn, -, hdesc⟩ := cutPoint_eq_some h
  obtain ⟨t, ht, hg, hgt, hlast⟩ := greaterFromLast_of_cutPoint h
  have hseq : seq = seq.take n ++ seq[n] :: seq.drop (n + 1) := by
    rw [List.getElem_cons_drop, List.take_append_drop]
  have hpre : (seq.take n).length = n := List.length_take_of_le (by omega)
  have hts : t < (seq.drop (n + 1)).length := by rw [List.length_drop]; omega
  refine ⟨seq.take n, seq.drop (n + 1), seq[n], t, hts, hseq, hdesc, ?_, fun i hi hti => ?_, ?_⟩
  · rw [List.getElem_drop]
    exact hgt
  · rw [List.getElem_drop]
    exact hlast _ _ (by omega)
  · have key := reverseTail_exchange (seq.take n) (seq.drop (n + 1)) seq[n] hts
    rw [hpre, ← hseq] at key
    have hne : seq ≠ [] := List.ne_nil_of_length_pos (by omega)
    rw [nextPermutation, if_neg (by simpa using hne)]
    simp only [nextPermutationAux, h, hg]
    exact key

theorem nextPermutation_of_cutPoint_eq_none {seq : List α} (h : cutPoint seq = none) :
    nextPermutation seq = seq.reverse := by
  unfold nextPermutation
  split_ifs with he
  · rw [List.isEmpty_iff.mp he]
    rfl
  · simp only [nextPermutationAux, h]

theorem pairwise_ge_set {suf : List α} (hdesc : suf.Pairwise (· ≥ ·)) {a : α} {t : ℕ} (ht : t < suf.length)
    (hat : a < suf[t]) (hlast : ∀ i (hi : i < suf.length), t < i → suf[i] ≤ a) :
    (suf.set t a).Pairwise (· ≥ ·) := by
  refine List.pairwise_iff_getElem.mpr fun i j hi hj hij => ?_
  rw [List.length_set] at hi hj
  simp only [List.getElem_set]
  split_ifs with hti htj htj
  · omega
  · exact hlast j hj (by omega)
  · have hit : suf[t] ≤ suf[i] := List.pairwise_iff_getElem.mp hdesc i t hi ht (by omega)
    exact le_of_lt (lt_of_lt_of_le hat hit)
  · exact List.pairwise_iff_getElem.mp hdesc i j hi hj hij

theorem getElem_le_of_mem {suf : List α} (hdesc : suf.Pairwise (· ≥ ·)) {a c : α} {t : ℕ}
    (ht : t < suf.length) (hlast : ∀ i (hi : i < suf.length), t < i → suf[i] ≤ a) (hc : c ∈ suf)
    (hac : a < c) : suf[t] ≤ c := by
  obtain ⟨i, hi, rfl⟩ := List.getElem_of_mem hc
  rcases lt_trichotomy i t with hit | rfl | hti
  · exact List.pairwise_iff_getElem.mp hdesc i t hi ht hit
  · exact le_rfl
  · exact absurd (hlast i hi hti) (not_le_of_gt hac)

end Steps

section Successor

variable [LinearOrder α] {pre suf : List α} {a : α} {t : ℕ}

omit [LinearOrder α] in
theorem successor_perm (ht : t < suf.length) :
    (pre ++ suf[t] :: (suf.set t a).reverse).Perm (pre ++ a :: suf) :=
  (((List.reverse_perm _).cons _).trans (cons_set_perm suf a ht)).append_left pre

theorem successor_gt {b : α} (hab : a < b) (rest : List α) : pre ++ a :: suf < pre ++ b :: rest :=
  (append_lt_append_left_iff pre).mpr (cons_lt_cons_iff.mpr (Or.inl hab))

theorem successor_le (ht : t < suf.length) (hdesc : suf.Pairwise (· ≥ ·)) (hat : a < suf[t])
    (hlast : ∀ i (hi : i < suf.length), t < i → suf[i] ≤ a) (m : List α) (hm : m.Perm (pre ++ a :: suf))
    (hlt : pre ++ a :: suf < m) : pre ++ suf[t] :: (suf.set t a).reverse ≤ m := by
  have hlen : pre.length ≤ m.length := by rw [hm.length_eq, List.length_append]; omega
  obtain ⟨m1, m2, rfl, hm1⟩ : ∃ m1 m2, m = m1 ++ m2 ∧ m1.length = pre.length :=
    ⟨_, _, (List.take_append_drop pre.length m).symm, List.length_take_of_le hlen⟩
  rcases lt_or_eq_of_append_lt hm1.symm hlt with hpre | ⟨rfl, hrest⟩
  · exact le_of_lt (append_lt_append_of_lt hm1.symm hpre _ _)
  have hm2 := (List.perm_append_left_iff pre).mp hm
  cases m2 with
  | nil => exact absurd hrest (not_lt_nil _)
  | cons c m3 =>
    rcases cons_lt_cons_iff.mp hrest with hac | ⟨rfl, hsuf⟩
    · -- c comes from suf and is above a, so it is at least suf[t]
      have hcmem : c ∈ suf := (List.mem_cons.mp (hm2.subset List.mem_cons_self)).resolve_left (ne_of_gt hac)
      rcases (getElem_le_of_mem hdesc ht hlast hcmem hac).lt_or_eq with hbc | rfl
      · exact le_of_lt (successor_gt hbc _)
      · -- the same element in front: the rest rearranges the increasing tail
        have hm3 : m3.Perm (suf.set t a).reverse :=
          ((hm2.trans (cons_set_perm suf a ht).symm).cons_inv).trans (List.reverse_perm _).symm
        have hinc : (suf.set t a).reverse.Pairwise (· ≤ ·) :=
          List.pairwise_reverse.mpr (pairwise_ge_set hdesc ht hat hlast)
        exact append_le_append_left (List.cons_le_cons _ (le_of_perm_of_pairwise_le hinc hm3))
    · -- the same first element and a greater rest: impossible, the rest is the greatest
      exact absurd hsuf (not_lt_of_ge (le_of_perm_of_pairwise_ge hdesc hm2.cons_inv))

end Successor

section Order

variable [LinearOrder α]

theorem nextPermutation_perm (seq : List α) : (nextPermutation seq).Perm seq := by
  cases h : cutPoint seq with
  | none =>
    rw [nextPermutation_of_cutPoint_eq_none h]
    exact List.reverse_perm _
  | some n =>
    obtain ⟨pre, suf, a, t, ht, hseq, -, -, -, hnext⟩ := nextPermutation_of_cutPoint h
    rw [hnext, hseq]
    exact successor_perm ht

theorem nextPermutation_lt_of_lt {seq m : List α} (hm : m.Perm seq) (hlt : seq < m) :
    seq < nextPermutation seq ∧ nextPermutation seq ≤ m := by
  cases h : cutPoint seq with
  | none =>
    exact absurd hlt (not_lt_of_ge (le_of_perm_of_pairwise_ge (pairwise_ge_of_cutPoint_eq_none h) hm))
  | some n =>
    obtain ⟨pre, suf, a, t, ht, hseq, hdesc, hat, hlast, hnext⟩ := nextPermutation_of_cutPoint h
    subst hseq
    rw [hnext]
    exact ⟨successor_gt hat _, successor_le ht hdesc hat hlast m hm hlt⟩

theorem nextPermutation_le_of_greatest {seq : List α} (hmax : ∀ m, m.Perm seq → m ≤ seq) {m : List α}
    (hm : m.Perm seq) : nextPermutation seq ≤ m := by
  cases h : cutPoint seq with
  | none =>
    rw [nextPermutation_of_cutPoint_eq_none h]
    have hinc : seq.reverse.Pairwise (· ≤ ·) := List.pairwise_reverse.mpr (pairwise_ge_of_cutPoint_eq_none h)
    exact le_of_perm_of_pairwise_le hinc (hm.trans (List.reverse_perm _).symm)
  | some n =>
    obtain ⟨pre, suf, a, t, ht, hseq, -, hat, -, -⟩ := nextPermutation_of_cutPoint h
    subst hseq
    exact absurd (hmax _ (successor_perm ht)) (not_le_of_gt (successor_gt hat _))

/-- next-permutation gives the lexicographically next rearrangement of the
sequence, and from the greatest one it wraps around to the least. -/
theorem nextPermutation_lex_successor (seq : List α) :
    (nextPermutation seq).Perm seq ∧
      (∀ m, m.Perm seq → seq < m → seq < nextPermutation seq ∧ nextPermutation seq ≤ m) ∧
      ((∀ m, m.Perm seq → m ≤ seq) → ∀ m, m.Perm seq → nextPermutation seq ≤ m) :=
  ⟨nextPermutation_perm seq, fun _ hm hlt => nextPermutation_lt_of_lt hm hlt,
    fun hmax _ hm => nextPermutation_le_of_greatest hmax hm⟩

end Order

theorem permutationsVisit_eq_map_iterate (k : ℕ) :
    ∀ idx, permutationsVisit k idx = (List.range k).map fun i => nextPermutation^[i] idx := by
  induction k with
  | zero => intro idx; rfl
  | succ k ih =>
    intro idx
    rw [permutationsVisit, ih, List.range_succ_eq_map, List.map_cons, List.map_map]
    rfl

theorem range_le_of_perm {n : ℕ} {m : List ℕ} (hm : m.Perm (List.range n)) : List.range n ≤ m :=
  le_of_perm_of_pairwise_le (List.pairwise_lt_range.imp le_of_lt) hm

theorem permutationsVisit_eq_sort (n : ℕ) :
    permutationsVisit n.factorial (List.range n) = ((List.range n).permutations.toFinset).sort (· ≤ ·) := by
  have hmem : ∀ m, m ∈ (List.range n).permutations.toFinset ↔ m.Perm (List.range n) := fun m => by
    rw [List.mem_toFinset, List.mem_permutations]
  have hcard : ((List.range n).permutations.toFinset).card = n.factorial := by
    rw [List.toFinset_card_of_nodup (List.nodup_permutations _ List.nodup_range), List.length_permutations,
      List.length_range]
  rw [permutationsVisit_eq_map_iterate, ← hcard]
  refine map_iterate_eq_sort nextPermutation (fun x hx y hy hxy => ?_) ((hmem _).mpr (List.Perm.refl _))
    fun y hy => range_le_of_perm ((hmem y).mp hy)
  have hx' := (hmem x).mp hx
  obtain ⟨hlt, hle⟩ := nextPermutation_lt_of_lt (((hmem y).mp hy).trans hx'.symm) hxy
  exact ⟨(hmem _).mpr ((nextPermutation_perm x).trans hx'), hlt, hle⟩

theorem length_permutationsVisit (k : ℕ) (idx : List ℕ) : (permutationsVisit k idx).length = k := by
  rw [permutationsVisit_eq_map_iterate, List.length_map, List.length_range]

theorem getElem_permutationsVisit {k : ℕ} {idx : List ℕ} {i : ℕ} (hi : i < (permutationsVisit k idx).length) :
    (permutationsVisit k idx)[i] = nextPermutation^[i] idx := by
  simp only [permutationsVisit_eq_map_iterate, List.getElem_map, List.getElem_range]

theorem mem_permutationsVisit {n : ℕ} {σ : List ℕ} :
    σ ∈ permutationsVisit n.factorial (List.range n) ↔ σ.Perm (List.range n) := by
  rw [permutationsVisit_eq_sort, Finset.mem_sort, List.mem_toFinset, List.mem_permutations]

theorem pairwise_permutationsVisit (n : ℕ) : (permutationsVisit n.factorial (List.range n)).Pairwise (· < ·) := by
  rw [permutationsVisit_eq_sort]
  exact pairwise_lt_sort _

/-- each-permutation hands on every arrangement of the indices once, in
increasing lexicographic order, and leaves the index array as it found it. -/
theorem permutationsVisit_lex (n : ℕ) :
    (permutationsVisit n.factorial (List.range n)).Pairwise (· < ·) ∧
      (∀ σ, σ ∈ permutationsVisit n.factorial (List.range n) ↔ σ.Perm (List.range n)) ∧
      nextPermutation^[n.factorial] (List.range n) = List.range n := by
  have hV := pairwise_permutationsVisit n
  refine ⟨hV, fun σ => mem_permutationsVisit, ?_⟩
  have hlen := length_permutationsVisit n.factorial (List.range n)
  have hpos := Nat.factorial_pos n
  have hk : n.factorial - 1 < (permutationsVisit n.factorial (List.range n)).length := by omega
  have hlast : nextPermutation^[n.factorial - 1] (List.range n) ∈ permutationsVisit n.factorial (List.range n) := by
    rw [← getElem_permutationsVisit hk]
    exact List.getElem_mem _
  have hmax : ∀ m, m.Perm (nextPermutation^[n.factorial - 1] (List.range n)) →
      m ≤ nextPermutation^[n.factorial - 1] (List.range n) := fun m hm => by
    obtain ⟨i, hi, rfl⟩ := List.getElem_of_mem (mem_permutationsVisit.mpr (hm.trans (mem_permutationsVisit.mp hlast)))
    rw [← getElem_permutationsVisit hk]
    exact getElem_le_getElem hV hi hk (by omega)
  have hperm := (nextPermutation_perm _).trans (mem_permutationsVisit.mp hlast)
  rw [show n.factorial = n.factorial - 1 + 1 by omega, Function.iterate_succ_apply']
  exact le_antisymm (nextPermutation_le_of_greatest hmax (mem_permutationsVisit.mp hlast).symm)
    (range_le_of_perm hperm)

theorem mem_allPermutations {seq m : List α} : m ∈ allPermutations seq ↔ m.Perm seq := by
  rw [allPermutations, List.mem_map]
  constructor
  · rintro ⟨σ, hσ, rfl⟩
    have hread := (mem_permutationsVisit.mp hσ).filterMap (seq[·]?)
    rwa [filterMap_getElem?_range] at hread
  · intro hm
    obtain ⟨σ, hσ, hread⟩ := exists_perm_range_of_perm hm
    exact ⟨σ, mem_permutationsVisit.mpr hσ, hread⟩

/-- all-permutations lists the rearrangements of the sequence, all of them and
nothing else, in `seq.length !` entries. -/
theorem allPermutations_spec (seq : List α) :
    (allPermutations seq).length = seq.length.factorial ∧ ∀ m, m ∈ allPermutations seq ↔ m.Perm seq :=
  ⟨by rw [allPermutations, List.length_map, length_permutationsVisit], fun _ => mem_allPermutations⟩

section Inverse

open FactorProofs.Core.Sorting

variable {β : Type}

theorem length_enumerated (seq : List β) : (enumerated seq).length = seq.length := by
  simp [enumerated]

theorem getElem_enumerated (seq : List β) {i : ℕ} (h : i < (enumerated seq).length) (hi : i < seq.length) :
    (enumerated seq)[i] = (i, seq[i]) := by
  simp [enumerated, List.getElem_zip]

theorem getElem?_of_mem_enumerated {seq : List β} {p : ℕ × β} (hp : p ∈ enumerated seq) : seq[p.1]? = some p.2 := by
  obtain ⟨i, hi, rfl⟩ := List.getElem_of_mem hp
  have hi' : i < seq.length := by rwa [length_enumerated] at hi
  rw [getElem_enumerated seq hi hi']
  exact List.getElem?_eq_getElem hi'

theorem nthsUnsafe_map_fst {seq : List β} {r : List (ℕ × β)} (hr : ∀ p ∈ r, seq[p.1]? = some p.2) :
    nthsUnsafe (r.map Prod.fst) seq = r.map Prod.snd := by
  induction r with
  | nil => rfl
  | cons p r ih =>
    simp only [nthsUnsafe, List.map_cons, List.filterMap_cons, hr p List.mem_cons_self] at ih ⊢
    exact congrArg (p.2 :: ·) (ih fun q hq => hr q (List.mem_cons_of_mem _ hq))

variable [LinearOrder β]

theorem stablySorts_enumerated (seq : List β) :
    StablySorts (fun a b => compare a.2 b.2) (enumerated seq) (sortValues (enumerated seq)) :=
  stablySorts_sortValues (enumerated seq)

theorem perm_inversePermutation (seq : List β) : (inversePermutation seq).Perm (List.range seq.length) := by
  have hfst : (enumerated seq).map Prod.fst = List.range seq.length := List.map_fst_zip (by simp)
  rw [inversePermutation, ← hfst]
  exact (stablySorts_enumerated seq).perm.map _

theorem nthsUnsafe_inversePermutation (seq : List β) :
    nthsUnsafe (inversePermutation seq) seq = (sortValues (enumerated seq)).map Prod.snd :=
  nthsUnsafe_map_fst fun _ hp => getElem?_of_mem_enumerated ((stablySorts_enumerated seq).perm.subset hp)

theorem pairwise_nthsUnsafe_inversePermutation (seq : List β) :
    (nthsUnsafe (inversePermutation seq) seq).Pairwise (· ≤ ·) := by
  rw [nthsUnsafe_inversePermutation, List.pairwise_map]
  exact (stablySorts_enumerated seq).sorted.imp compare_le_iff_le.mp

theorem sublist_inversePermutation {seq : List β} {i j : ℕ} (hi : i < seq.length) (hj : j < seq.length)
    (hij : i < j) (heq : seq[i] = seq[j]) : [i, j].Sublist (inversePermutation seq) := by
  have hi' : i < (enumerated seq).length := by rw [length_enumerated]; exact hi
  have hj' : j < (enumerated seq).length := by rw [length_enumerated]; exact hj
  have hpair := pair_sublist hij hj'
  have htie : [(enumerated seq)[i], (enumerated seq)[j]].Pairwise fun a b => compare a.2 b.2 = .eq := by
    rw [getElem_enumerated seq hi' hi, getElem_enumerated seq hj' hj, List.pairwise_pair, heq]
    exact compare_eq_iff_eq.mpr rfl
  have hsub := ((stablySorts_enumerated seq).stable _ hpair htie).map Prod.fst
  rwa [getElem_enumerated seq hi' hi, getElem_enumerated seq hj' hj] at hsub

/-- inverse-permutation gives the indices in the order that sorts the sequence,
the indices of equal elements in increasing order. -/
theorem inversePermutation_spec (seq : List β) :
    (inversePermutation seq).Perm (List.range seq.length) ∧
      (nthsUnsafe (inversePermutation seq) seq).Pairwise (· ≤ ·) ∧
      ∀ i j (hi : i < seq.length) (hj : j < seq.length), i < j → seq[i] = seq[j] →
        [i, j].Sublist (inversePermutation seq) :=
  ⟨perm_inversePermutation seq, pairwise_nthsUnsafe_inversePermutation seq,
    fun _ _ hi hj hij heq => sublist_inversePermutation hi hj hij heq⟩

end Inverse

/-- Of an arrangement of the indices, inverse-permutation is the inverse: each
read at the other is the identity. -/
theorem inversePermutation_inverse {σ : List ℕ} (hσ : σ.Perm (List.range σ.length)) :
    nthsUnsafe (inversePermutation σ) σ = List.range σ.length ∧
      nthsUnsafe σ (inversePermutation σ) = List.range σ.length := by
  have hperm := perm_inversePermutation σ
  have hin : ∀ j ∈ inversePermutation σ, j < σ.length := fun j hj => List.mem_range.mp (hperm.subset hj)
  have hτlen : (inversePermutation σ).length = σ.length := by rw [hperm.length_eq, List.length_range]
  have hinσ : ∀ j ∈ σ, j < (inversePermutation σ).length := fun j hj => by
    rw [hτlen]
    exact List.mem_range.mp (hσ.subset hj)
  have hread : (nthsUnsafe (inversePermutation σ) σ).Perm σ := by
    have h := hperm.filterMap (σ[·]?)
    rwa [filterMap_getElem?_range] at h
  have h1 : nthsUnsafe (inversePermutation σ) σ = List.range σ.length :=
    List.Perm.eq_of_pairwise (fun _ _ _ _ h h' => le_antisymm h h') (pairwise_nthsUnsafe_inversePermutation σ)
      (List.pairwise_lt_range.imp le_of_lt) (hread.trans hσ)
  refine ⟨h1, List.ext_getElem? fun i => ?_⟩
  rw [nthsUnsafe, getElem?_filterMap_getElem? hinσ i]
  rcases lt_or_ge i σ.length with hi | hi
  · have hj : σ[i] < (inversePermutation σ).length := hinσ _ (List.getElem_mem hi)
    rw [List.getElem?_eq_getElem hi, Option.bind_some, List.getElem?_range hi, List.getElem?_eq_getElem hj]
    have hat := congrArg (·[σ[i]]?) h1
    simp only [nthsUnsafe, getElem?_filterMap_getElem? hin, List.getElem?_eq_getElem hj, Option.bind_some,
      List.getElem?_range (hτlen ▸ hj)] at hat
    rw [List.getElem?_eq_getElem (hin _ (List.getElem_mem hj)), Option.some_inj] at hat
    exact congrArg some ((hσ.nodup_iff.mpr List.nodup_range).getElem_inj_iff.mp hat)
  · rw [List.getElem?_eq_none hi, Option.bind_none, List.getElem?_eq_none (by rw [List.length_range]; exact hi)]

theorem inversePermutation_inverse_two_zero_one :
    [2, 0, 1].Perm (List.range [2, 0, 1].length) ∧
      nthsUnsafe (inversePermutation [2, 0, 1]) [2, 0, 1] = List.range 3 ∧
      nthsUnsafe [2, 0, 1] (inversePermutation [2, 0, 1]) = List.range 3 :=
  ⟨by decide, inversePermutation_inverse (by decide)⟩

end FactorProofs.Math.Combinatorics
