import Mathlib.Data.List.GetD
import FactorProofs.Library.Ranking
import FactorProofs.Math.Combinations

namespace FactorProofs.Math.PermutationIndices

open FactorProofs.Lex FactorProofs.Ranking FactorProofs.Math.Combinatorics FactorProofs.Math.Combinations

/-! math.combinatorics: the factoradic methodology of permutation-indices. The
digits of `n` in the factorial number system, most significant first and
padded with zeros to the length of the sequence, are turned into the indices of
the `n`-th permutation by bump-indices from the lowest digit up. -/

variable {α : Type*}

/-- The produce loop of factoradic on `n` and the counter `i`: while `n > 0`,
the remainder of `n` by `i + 1`, with `n / (i + 1)` and `i + 1` after. -/
def factoradicLoop (n i : ℕ) : List ℕ :=
  if h : 0 < n then n % (i + 1) :: factoradicLoop (n / (i + 1)) (i + 1) else []
termination_by 2 * n + (if i = 0 then 1 else 0)
decreasing_by
  rcases Nat.eq_zero_or_pos i with rfl | hi
  · simp
  · have := Nat.div_lt_self h (show 1 < i + 1 by omega)
    simp only [show i ≠ 0 by omega, if_false]
    omega

/-- factoradic: the remainders reversed, most significant digit first. -/
def factoradic (n : ℕ) : List ℕ := (factoradicLoop n 0).reverse

/-- bump-indices: every element at least `n` goes up by one. -/
def bumpIndices (seq : List ℕ) (n : ℕ) : List ℕ := seq.map fun x => if n ≤ x then x + 1 else x

/-- (>permutation): bump-indices on the elements before `index`. -/
def toPermutationStep (seq : List ℕ) (n index : ℕ) : List ℕ := bumpIndices (seq.take index) n ++ seq.drop index

/-- >permutation: each-index over the reversed digits, each read from the
array as it stands, and the array reversed again. -/
def toPermutation (factoradic : List ℕ) : List ℕ :=
  ((List.range factoradic.length).foldl (fun seq i => toPermutationStep seq (seq.getD i 0) i)
    factoradic.reverse).reverse

/-- pad-head: `elt` repeated in front up to length `n`. -/
def padHead (seq : List ℕ) (n elt : ℕ) : List ℕ := List.replicate (n - seq.length) elt ++ seq

def permutationIndices (n : ℕ) (seq : List α) : List ℕ := toPermutation (padHead (factoradic n) seq.length 0)

/-- permutation, which <permutations> answers for nth. -/
def permutation (n : ℕ) (seq : List α) : List α := nthsUnsafe (permutationIndices n seq) seq

/-- The tuple k-permutations: its length, the stride `skip` through the
permutations, how many entries of each it keeps, and the sequence. -/
structure KPermutations (α : Type*) where
  length : ℤ
  skip : ℤ
  k : ℕ
  seq : List α

/-- nth-unsafe of k-permutations: the first `k` entries of the permutation at `n * skip`. -/
def KPermutations.nthUnsafe (t : KPermutations α) (n : ℕ) : List α :=
  nthsUnsafe ((permutationIndices ((n : ℤ) * t.skip).toNat t.seq).take t.k) t.seq

/-- <k-permutations>, as the list of the elements of the sequence it builds:
empty when there is no arrangement, <permutations> when `k` is the whole
length, and else the tuple with `n! / nPk n k` as its stride. -/
def kPermutations (seq : List α) (k : ℕ) : List (List α) :=
  let n := seq.length
  let len := nPk n k
  if len = 0 then []
  else if n = k then (List.range (factorial n).toNat).map fun i => permutation i seq
  else
    let t : KPermutations α := ⟨len, (factorial n).tdiv len, k, seq⟩
    (List.range t.length.toNat).map t.nthUnsafe

theorem factoradicLoop_pos {n i : ℕ} (h : 0 < n) :
    factoradicLoop n i = n % (i + 1) :: factoradicLoop (n / (i + 1)) (i + 1) := by
  rw [factoradicLoop, dif_pos h]

theorem factoradicLoop_zero (i : ℕ) : factoradicLoop 0 i = [] := by
  rw [factoradicLoop, dif_neg (Nat.lt_irrefl 0)]

theorem valueFrom_factoradicLoop (n i : ℕ) : valueFrom i (factoradicLoop n i) = n * i.factorial := by
  induction n, i using factoradicLoop.induct with
  | case1 n i h ih =>
    rw [factoradicLoop_pos h, valueFrom, ih, Nat.factorial_succ, ← Nat.mul_assoc, ← Nat.add_mul,
      Nat.mul_comm (n / (i + 1)), Nat.mod_add_div]
  | case2 n i h =>
    obtain rfl : n = 0 := by omega
    rw [factoradicLoop_zero, valueFrom, Nat.zero_mul]

theorem getElem_factoradicLoop_le (n i : ℕ) :
    ∀ t (ht : t < (factoradicLoop n i).length), (factoradicLoop n i)[t] ≤ i + t := by
  induction n, i using factoradicLoop.induct with
  | case1 n i h ih =>
    intro t ht
    simp only [factoradicLoop_pos h] at ht ⊢
    cases t with
    | zero =>
      have := Nat.mod_lt n (show 0 < i + 1 by omega)
      simp only [List.getElem_cons_zero]
      omega
    | succ t =>
      have := ih t (by simpa using ht)
      simp only [List.getElem_cons_succ]
      omega
  | case2 n i h =>
    intro t ht
    obtain rfl : n = 0 := by omega
    simp [factoradicLoop_zero] at ht

theorem length_factoradicLoop_le {L : ℕ} (n i : ℕ) (h : n * i.factorial < L.factorial) (hi : i ≤ L) :
    (factoradicLoop n i).length + i ≤ L := by
  induction n, i using factoradicLoop.induct with
  | case1 n i hn ih =>
    have hiL : i < L := by
      by_contra hge
      have := Nat.factorial_le (not_lt.mp hge)
      have : i.factorial ≤ n * i.factorial := Nat.le_mul_of_pos_left _ hn
      omega
    have hnext : n / (i + 1) * (i + 1).factorial < L.factorial := by
      calc n / (i + 1) * (i + 1).factorial = n / (i + 1) * (i + 1) * i.factorial := by
            rw [Nat.factorial_succ, Nat.mul_assoc]
        _ ≤ n * i.factorial := Nat.mul_le_mul_right _ (Nat.div_mul_le_self n (i + 1))
        _ < L.factorial := h
    have := ih hnext hiL
    rw [factoradicLoop_pos hn, List.length_cons]
    omega
  | case2 n i hn =>
    obtain rfl : n = 0 := by omega
    rw [factoradicLoop_zero, List.length_nil, Nat.zero_add]
    exact hi

section Padded

variable {n L : ℕ}

theorem length_padHead {seq : List ℕ} {n : ℕ} (elt : ℕ) (h : seq.length ≤ n) : (padHead seq n elt).length = n := by
  rw [padHead, List.length_append, List.length_replicate]
  omega

theorem length_factoradic_le (hn : n < L.factorial) : (factoradic n).length ≤ L := by
  have := length_factoradicLoop_le n 0 (by rwa [Nat.factorial_zero, Nat.mul_one]) (Nat.zero_le L)
  rwa [factoradic, List.length_reverse, ← Nat.add_zero (factoradicLoop n 0).length]

theorem rank_padHead_factoradic (n L : ℕ) : rank (padHead (factoradic n) L 0) = n := by
  rw [padHead, rank_replicate_zero_append, factoradic, rank_eq_rankFrom, rankFrom_reverse,
    valueFrom_factoradicLoop, Nat.factorial_zero, Nat.mul_one]

theorem isDigits_padHead_factoradic (n L : ℕ) : IsDigits (padHead (factoradic n) L 0) := by
  have hc : ∀ t (ht : t < (factoradicLoop n 0 ++ List.replicate (L - (factoradic n).length) 0).length),
      (factoradicLoop n 0 ++ List.replicate (L - (factoradic n).length) 0)[t] ≤ t := by
    intro t ht
    by_cases hlt : t < (factoradicLoop n 0).length
    · rw [List.getElem_append_left hlt]
      have := getElem_factoradicLoop_le n 0 t hlt
      omega
    · rw [List.getElem_append_right (Nat.not_lt.mp hlt), List.getElem_replicate]
      exact Nat.zero_le t
  have h := isDigits_reverse_iff.mpr hc
  rwa [List.reverse_append, List.reverse_replicate, ← factoradic, ← padHead] at h

end Padded

/-- The array of >permutation after its first `t` steps, least significant
digit first: the first `t` digits turned into an arrangement of `0, …, t - 1`. -/
def bumpedPrefix (ds : List ℕ) : ℕ → List ℕ
  | 0 => []
  | t + 1 => bumpIndices (bumpedPrefix ds t) (ds.getD t 0) ++ [ds.getD t 0]

theorem length_bumpedPrefix (ds : List ℕ) : ∀ t, (bumpedPrefix ds t).length = t
  | 0 => rfl
  | t + 1 => by
    rw [bumpedPrefix, List.length_append, bumpIndices, List.length_map, length_bumpedPrefix ds t,
      List.length_singleton]

theorem foldl_toPermutationStep (ds : List ℕ) : ∀ t, t ≤ ds.length →
    (List.range t).foldl (fun seq i => toPermutationStep seq (seq.getD i 0) i) ds = bumpedPrefix ds t ++ ds.drop t
  | 0, _ => rfl
  | t + 1, ht => by
    have hlen := length_bumpedPrefix ds t
    have hread : (bumpedPrefix ds t ++ ds.drop t).getD t 0 = ds.getD t 0 := by
      simp [List.getD_eq_getElem?_getD, List.getElem?_append_right, hlen]
    rw [List.range_succ, List.foldl_append, foldl_toPermutationStep ds t (by omega), List.foldl_cons,
      List.foldl_nil, hread, toPermutationStep, List.take_left' hlen, List.drop_left' hlen, bumpedPrefix,
      List.append_assoc, List.singleton_append, List.getD_eq_getElem ds 0 (by omega),
      ← List.drop_eq_getElem_cons]

theorem toPermutation_eq_bumpedPrefix (F : List ℕ) : toPermutation F = (bumpedPrefix F.reverse F.length).reverse := by
  rw [toPermutation, ← (List.length_reverse : F.reverse.length = F.length), foldl_toPermutationStep _ _ le_rfl, List.drop_length,
    List.append_nil]

theorem reverse_bumpedPrefix {ds : List ℕ} (hds : ∀ t (ht : t < ds.length), ds[t] ≤ t) :
    ∀ t, t ≤ ds.length → (bumpedPrefix ds t).reverse = decode (List.range t) (ds.take t).reverse
  | 0, _ => rfl
  | t + 1, ht => by
    have htake : (ds.take (t + 1)).reverse = ds[t] :: (ds.take t).reverse := by
      rw [List.take_add_one, List.getElem?_eq_getElem (by omega), Option.toList_some, List.reverse_append,
        List.reverse_singleton, List.singleton_append]
    rw [bumpedPrefix, List.reverse_append, List.reverse_singleton, List.singleton_append, htake,
      List.getD_eq_getElem ds 0 (by omega), decode_range_succ (hds t (by omega)),
      ← reverse_bumpedPrefix hds t (by omega), bumpIndices, List.map_reverse]

theorem toPermutation_eq_decode {F : List ℕ} (hF : IsDigits F) : toPermutation F = decode (List.range F.length) F := by
  have hds := isDigits_reverse_iff.mp (by rwa [List.reverse_reverse])
  rw [toPermutation_eq_bumpedPrefix, ← (List.length_reverse : F.reverse.length = F.length),
    reverse_bumpedPrefix hds _ le_rfl, List.take_length, List.reverse_reverse]

theorem getElem?_sortedPermutations_permutationIndices {n : ℕ} {seq : List α} (hn : n < seq.length.factorial) :
    (sortedPermutations (List.range seq.length))[n]? = some (permutationIndices n seq) := by
  have hdig := isDigits_padHead_factoradic n seq.length
  have hlen := length_padHead 0 (length_factoradic_le hn)
  have hdec := toPermutation_eq_decode hdig
  rw [hlen] at hdec
  have h := getElem?_sortedPermutations_rank _ List.pairwise_lt_range (by rw [hlen, List.length_range]) hdig
  rwa [rank_padHead_factoradic, ← hdec] at h

theorem permutationIndices_eq_iterate {n : ℕ} {seq : List α} (hn : n < seq.length.factorial) :
    permutationIndices n seq = nextPermutation^[n] (List.range seq.length) := by
  have h := getElem?_sortedPermutations_permutationIndices hn
  rw [sortedPermutations, ← permutationsVisit_eq_sort,
    List.getElem?_eq_getElem (by rw [length_permutationsVisit]; exact hn), getElem_permutationsVisit] at h
  exact (Option.some.inj h).symm

theorem permutationIndices_eq_iterate_three :
    3 < [7, 8, 9].length.factorial ∧ permutationIndices 3 [7, 8, 9] = nextPermutation^[3] (List.range 3) :=
  ⟨by decide, permutationIndices_eq_iterate (by decide)⟩

theorem getElem?_allPermutations {n : ℕ} {seq : List α} (hn : n < seq.length.factorial) :
    (allPermutations seq)[n]? = some (permutation n seq) := by
  have h := getElem?_sortedPermutations_permutationIndices hn
  rw [sortedPermutations, ← permutationsVisit_eq_sort] at h
  rw [allPermutations, List.getElem?_map, h, Option.map_some]
  rfl

theorem getElem?_allPermutations_five :
    5 < [7, 8, 9].length.factorial ∧ (allPermutations [7, 8, 9])[5]? = some (permutation 5 [7, 8, 9]) :=
  ⟨by decide, getElem?_allPermutations (by decide)⟩

theorem length_permutationIndices {n : ℕ} {seq : List α} (hn : n < seq.length.factorial) :
    (permutationIndices n seq).length = seq.length := by
  have hmem := List.mem_of_getElem? (getElem?_sortedPermutations_permutationIndices hn)
  rw [(mem_sortedPermutations.mp hmem).length_eq, List.length_range]

section KPermutations

variable {seq : List α} {k : ℕ}

theorem getElem?_arrangements_range {i : ℕ} (hk : k ≤ seq.length) (hi : i < seq.length.descFactorial k) :
    (arrangements (List.range seq.length) k)[i]? =
      some ((permutationIndices (i * (seq.length - k).factorial) seq).take k) := by
  have hlt : i * (seq.length - k).factorial < seq.length.factorial := by
    rw [← Nat.factorial_mul_descFactorial hk, Nat.mul_comm (seq.length - k).factorial]
    exact Nat.mul_lt_mul_of_pos_right hi (Nat.factorial_pos _)
  have h : ((sortedPermutations (List.range seq.length))[i * ((List.range seq.length).length - k).factorial]?).map
      (List.take k) = (arrangements (List.range seq.length) k)[i]? :=
    getElem?_sortedPermutations_take k List.pairwise_lt_range (by rwa [List.length_range]) (by rwa [List.length_range])
  rw [List.length_range, getElem?_sortedPermutations_permutationIndices hlt, Option.map_some] at h
  exact h.symm

theorem nPk_natCast (n k : ℕ) : nPk n k = (n.descFactorial k : ℤ) := by
  rw [nPk_eq]
  split_ifs with h
  · simp
  · rw [(Nat.descFactorial_eq_zero_iff_lt).mpr (by omega), Nat.cast_zero]

theorem factorial_tdiv_nPk {n : ℕ} (hk : k ≤ n) : (factorial n).tdiv (nPk n k) = ((n - k).factorial : ℤ) := by
  rw [factorial_eq, nPk_natCast, Int.toNat_natCast, ← Int.ofNat_tdiv,
    Nat.div_eq_of_eq_mul_left (Nat.descFactorial_pos.mpr hk) (Nat.factorial_mul_descFactorial hk).symm]

theorem kPermutations_eq (seq : List α) (k : ℕ) :
    kPermutations seq k = (arrangements (List.range seq.length) k).map (nthsUnsafe · seq) := by
  have hlen : (arrangements (List.range seq.length) k).length = seq.length.descFactorial k := by
    rw [length_arrangements, List.length_range]
  by_cases hk : k ≤ seq.length
  · have hpos : seq.length.descFactorial k ≠ 0 := (Nat.descFactorial_pos.mpr hk).ne'
    simp only [kPermutations]
    rw [factorial_tdiv_nPk hk, nPk_natCast, if_neg (by exact_mod_cast hpos)]
    split_ifs with hnk
    · -- k is the whole length: <permutations>
      subst hnk
      rw [factorial_eq, Int.toNat_natCast, Int.toNat_natCast]
      refine List.ext_getElem (by rw [List.length_map, List.length_map, List.length_range, hlen,
        Nat.descFactorial_self]) fun i h1 h2 => ?_
      have hi : i < seq.length.descFactorial seq.length := by simpa [hlen] using h2
      have h := getElem?_arrangements_range le_rfl hi
      rw [Nat.sub_self, Nat.factorial_zero, Nat.mul_one, List.getElem?_eq_getElem (by simpa using h2)] at h
      rw [List.getElem_map, List.getElem_map, List.getElem_range, Option.some.inj h, permutation,
        List.take_of_length_le (length_permutationIndices (by rwa [Nat.descFactorial_self] at hi)).le]
    · refine List.ext_getElem (by rw [List.length_map, List.length_map, List.length_range, hlen,
        Int.toNat_natCast]) fun i h1 h2 => ?_
      have hi : i < seq.length.descFactorial k := by simpa [hlen] using h2
      have h := getElem?_arrangements_range hk hi
      rw [List.getElem?_eq_getElem (by simpa using h2)] at h
      rw [List.getElem_map, List.getElem_map, List.getElem_range, Option.some.inj h, KPermutations.nthUnsafe]
      norm_cast
  · -- no arrangement of more than the whole length
    have hzero : seq.length.descFactorial k = 0 := Nat.descFactorial_eq_zero_iff_lt.mpr (by omega)
    simp only [kPermutations]
    rw [nPk_natCast, hzero, Nat.cast_zero, if_pos rfl, List.eq_nil_of_length_eq_zero (hlen.trans hzero), List.map_nil]

/-- <k-permutations> holds `n! / (n - k)!` elements: each arrangement of `k`
distinct positions of the sequence, read off it, once and in the
lexicographic order of the positions. -/
theorem kPermutations_spec (seq : List α) (k : ℕ) :
    kPermutations seq k = (arrangements (List.range seq.length) k).map (nthsUnsafe · seq) ∧
      (kPermutations seq k).length = seq.length.descFactorial k ∧
      (arrangements (List.range seq.length) k).Pairwise (· < ·) ∧
      ∀ σ, σ ∈ arrangements (List.range seq.length) k ↔ σ.Nodup ∧ σ.length = k ∧ ∀ x ∈ σ, x < seq.length := by
  refine ⟨kPermutations_eq seq k, ?_, pairwise_arrangements k List.pairwise_lt_range, fun σ => ?_⟩
  · rw [kPermutations_eq, List.length_map, length_arrangements, List.length_range]
  · simp only [mem_arrangements k List.nodup_range, List.mem_range]

end KPermutations

end FactorProofs.Math.PermutationIndices
