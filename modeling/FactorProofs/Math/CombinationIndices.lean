import FactorProofs.Library.Ranking
import FactorProofs.Math.Combinations

namespace FactorProofs.Math.CombinationIndices

open FactorProofs.Ranking FactorProofs.Math.Combinatorics FactorProofs.Math.Combinations

/-! math.combinatorics: combination-indices, Algorithm 515 of Buckles and
Lybanon, which finds the combination at a lexicographic index directly. The
array holds one-based entries; at each position but the last a do-while loop
moves the entry up, adding the number of combinations each value starts, until
the count passes the index. -/

variable {α : Type*}

/-- The do-while loop of combination-indices at position `i`: the entry `ci`
goes up by one and the count `k` by the number `r` of combinations that start
with the entries so far, while the count stays below `x`. The loop need not
stop, so it runs on fuel. -/
def combinationIndicesLoop (x : ℤ) (n p i : ℕ) : ℕ → ℤ × ℤ → Option (ℤ × ℤ × ℤ)
  | 0, _ => none
  | fuel + 1, (ci, k) =>
    let r := nCk ((n : ℤ) - (ci + 1)) ((p : ℤ) - (i + 1))
    if k + r < x then combinationIndicesLoop x n p i fuel (ci + 1, k + r) else some (ci + 1, k + r, r)

/-- One position of the each-integer loop: the entry starts from the one before
it, the do-while loop moves it up, and the count goes back by the last `r`. -/
def combinationIndicesStep (x : ℤ) (n p fuel : ℕ) (st : Option (List ℤ × ℤ)) (i : ℕ) : Option (List ℤ × ℤ) :=
  st.bind fun (c, k) =>
    let c := c.set i (if i = 0 then 0 else c.getD (i - 1) 0)
    (combinationIndicesLoop x n p i fuel (c.getD i 0, k)).map fun (ci, k, r) => (c.set i ci, k - r)

/-- combination-indices on the index `m`, `p` entries and `n` elements, with
`fuel` rounds for each do-while loop: the last entry is placed by the rest of
the count, and all entries made zero-based. -/
def combinationIndices (fuel m p n : ℕ) : Option (List ℤ) :=
  let x : ℤ := m + 1
  ((List.range (p - 1)).foldl (combinationIndicesStep x n p fuel) (some (List.replicate p 0, 0))).map fun (c, k) =>
    let v := if p < 2 then 0 else c.getD (p - 2) 0
    let c := if p < 1 then c else c.set (p - 1) (v + x - k)
    c.map (· - 1)

/-- combination, which <combinations> answers for nth: nths-unsafe at the indices. -/
def combination (fuel m : ℕ) (seq : List α) (k : ℕ) : Option (List α) :=
  (combinationIndices fuel m k seq.length).map fun c => nthsUnsafe (c.map Int.toNat) seq

theorem nCk_ofNat (a b : ℕ) : nCk a b = (a.choose b : ℤ) := by
  rw [nCk_eq]
  split_ifs with h
  · simp
  · rw [Nat.choose_eq_zero_of_lt (by omega), Nat.cast_zero]

/-- The first value left, one past the last entry placed. -/
def lowFrom (pre : List ℕ) : ℕ := (pre.getLast?.map (· + 1)).getD 0

theorem unrankSublist_range'_succ {n lo q j : ℕ} (hlo : lo < n) :
    unrankSublist (List.range' lo (n - lo)) (q + 1) j =
      if j < (n - (lo + 1)).choose q then lo :: unrankSublist (List.range' (lo + 1) (n - (lo + 1))) q j
      else unrankSublist (List.range' (lo + 1) (n - (lo + 1))) (q + 1) (j - (n - (lo + 1)).choose q) := by
  rw [show n - lo = n - (lo + 1) + 1 by omega, List.range'_succ, unrankSublist, List.length_range']

section Loop

variable {n p i m : ℕ}

theorem combinationIndicesLoop_spec (hq : i + 2 ≤ p) :
    ∀ (fuel lo j : ℕ), n - lo ≤ fuel → j < (n - lo).choose (p - i) →
      ∃ lo' j' r : ℕ, combinationIndicesLoop (m + 1) n p i fuel ((lo : ℤ), (m : ℤ) - j) =
          some ((lo' : ℤ) + 1, (m : ℤ) - j' + r, (r : ℤ)) ∧
        j' < (n - (lo' + 1)).choose (p - (i + 1)) ∧
        unrankSublist (List.range' lo (n - lo)) (p - i) j =
          lo' :: unrankSublist (List.range' (lo' + 1) (n - (lo' + 1))) (p - (i + 1)) j' := by
  intro fuel
  induction fuel with
  | zero =>
    intro lo j hfuel hj
    rw [show n - lo = 0 by omega, Nat.choose_eq_zero_of_lt (by omega)] at hj
    exact absurd hj (Nat.not_lt_zero j)
  | succ fuel ih =>
    intro lo j hfuel hj
    have hlo : lo < n := by
      by_contra hge
      rw [show n - lo = 0 by omega, Nat.choose_eq_zero_of_lt (by omega)] at hj
      exact absurd hj (Nat.not_lt_zero j)
    set R := (n - (lo + 1)).choose (p - (i + 1)) with hRdef
    have hr : nCk ((n : ℤ) - ((lo : ℤ) + 1)) ((p : ℤ) - ((i : ℤ) + 1)) = R := by
      rw [← nCk_ofNat, Nat.cast_sub (by omega), Nat.cast_sub (by omega), Nat.cast_succ, Nat.cast_succ]
    have hpascal : (n - lo).choose (p - i) = R + (n - (lo + 1)).choose (p - i) := by
      rw [show n - lo = n - (lo + 1) + 1 by omega, show p - i = p - (i + 1) + 1 by omega, Nat.choose_succ_succ',
        show p - (i + 1) + 1 = p - i by omega]
    have hU := unrankSublist_range'_succ (q := p - (i + 1)) (j := j) hlo
    rw [show p - (i + 1) + 1 = p - i by omega] at hU
    simp only [combinationIndicesLoop, hr]
    by_cases hj' : j < R
    · -- the count passes `x`: the entry is `lo`
      rw [if_neg (by omega)]
      exact ⟨lo, j, R, rfl, hj', by rw [hU, if_pos hj']⟩
    · -- the whole block of `lo` lies below the index: skip it
      rw [if_pos (by omega), show (m : ℤ) - j + R = m - (j - R : ℕ) by rw [Nat.cast_sub (by omega)]; ring,
        show (lo : ℤ) + 1 = (lo + 1 : ℕ) by push_cast; rfl]
      obtain ⟨lo', j'', r, hrun, hj'', hrest⟩ := ih (lo + 1) (j - R) (by omega) (by omega)
      exact ⟨lo', j'', r, hrun, hj'', by rw [hU, if_neg hj', hrest]⟩

end Loop

/-- The state after the first `i` positions of the combination `t`: the array
holds `pre`, the first `i` entries of `t`, one-based and zeros after them, and
the count is `m - j`, where the rest of `t` is the combination at `j` among
those of the values from `lowFrom pre` on. -/
def Placed (n p m i : ℕ) (t : List ℕ) (st : Option (List ℤ × ℤ)) : Prop :=
  ∃ (pre : List ℕ) (j : ℕ), pre.length = i ∧
    st = some (pre.map (fun v : ℕ => (v : ℤ) + 1) ++ List.replicate (p - i) 0, (m : ℤ) - j) ∧
    j < (n - lowFrom pre).choose (p - i) ∧
    t = pre ++ unrankSublist (List.range' (lowFrom pre) (n - lowFrom pre)) (p - i) j

theorem startEntry_eq {pre : List ℕ} {i z : ℕ} (hlen : pre.length = i) :
    (if i = 0 then 0 else (pre.map (fun v : ℕ => (v : ℤ) + 1) ++ List.replicate z 0).getD (i - 1) 0) =
      (lowFrom pre : ℤ) := by
  split_ifs with h
  · subst h
    rw [List.length_eq_zero_iff.mp hlen]
    rfl
  · have hi : i - 1 < pre.length := by omega
    rw [List.getD_eq_getElem _ _ (by simp; omega), List.getElem_append_left (by simpa using hi), List.getElem_map,
      lowFrom, List.getLast?_eq_getElem?, List.getElem?_eq_getElem (by omega)]
    simp [hlen]

theorem set_placed (pre : List ℕ) (b a : ℤ) (rest : List ℤ) :
    (pre.map (fun v : ℕ => (v : ℤ) + 1) ++ b :: rest).set pre.length a = pre.map (fun v : ℕ => (v : ℤ) + 1) ++ a :: rest := by
  rw [List.set_append_right _ _ (by simp), List.length_map, Nat.sub_self, List.set_cons_zero]

section Run

variable {n p m fuel : ℕ}

theorem placed_step {i : ℕ} {t : List ℕ} {st : Option (List ℤ × ℤ)} (hfuel : n ≤ fuel) (hi : i + 2 ≤ p)
    (h : Placed n p m i t st) : Placed n p m (i + 1) t (combinationIndicesStep (m + 1) n p fuel st i) := by
  obtain ⟨pre, j, rfl, rfl, hj, ht⟩ := h
  obtain ⟨lo', j', r, hrun, hj', hU⟩ := combinationIndicesLoop_spec (m := m) hi fuel (lowFrom pre) j (by omega) hj
  have hz : p - pre.length = p - (pre.length + 1) + 1 := by omega
  have hlow : lowFrom (pre ++ [lo']) = lo' + 1 := by rw [lowFrom, List.getLast?_concat]; rfl
  have hread : (pre.map (fun v : ℕ => (v : ℤ) + 1) ++ (lowFrom pre : ℤ) :: List.replicate (p - (pre.length + 1)) 0).getD
      pre.length 0 = lowFrom pre := by
    simp [List.getD_eq_getElem?_getD]
  refine ⟨pre ++ [lo'], j', by rw [List.length_append, List.length_singleton], ?_, by rwa [hlow], ?_⟩
  · simp only [combinationIndicesStep, Option.bind_some]
    rw [startEntry_eq rfl, hz, List.replicate_succ, set_placed, hread, hrun, Option.map_some]
    dsimp only
    rw [set_placed, add_sub_cancel_right, List.map_append, List.map_singleton, List.append_assoc, List.singleton_append]
  · rw [ht, hU, hlow, List.append_assoc, List.singleton_append]

theorem placed_foldl (hfuel : n ≤ fuel) (hm : m < n.choose p) : ∀ i, i + 1 ≤ p →
    Placed n p m i (unrankSublist (List.range n) p m)
      ((List.range i).foldl (combinationIndicesStep (m + 1) n p fuel) (some (List.replicate p 0, 0)))
  | 0, _ => ⟨[], m, rfl, by simp, by simpa [lowFrom] using hm, by simp [lowFrom, List.range_eq_range']⟩
  | i + 1, hi => by
    rw [List.range_succ, List.foldl_append, List.foldl_cons, List.foldl_nil]
    exact placed_step hfuel (by omega) (placed_foldl hfuel hm i (by omega))

theorem combinationIndices_eq_unrank (hfuel : n ≤ fuel) (hm : m < n.choose p) :
    combinationIndices fuel m p n = some ((unrankSublist (List.range n) p m).map fun v : ℕ => (v : ℤ)) := by
  cases p with
  | zero => simp [combinationIndices, unrankSublist]
  | succ q =>
    obtain ⟨pre, j, rfl, hst, hj, ht⟩ := placed_foldl hfuel hm q (by omega)
    rw [show pre.length + 1 - pre.length = 1 by omega] at hst hj ht
    have hv : (if pre.length + 1 < 2 then (0 : ℤ)
        else (pre.map (fun v : ℕ => (v : ℤ) + 1) ++ List.replicate 1 0).getD (pre.length + 1 - 2) 0) = lowFrom pre := by
      rw [← startEntry_eq rfl, show pre.length + 1 - 2 = pre.length - 1 by omega]
      exact if_congr (by omega) rfl rfl
    have hlast : unrankSublist (List.range' (lowFrom pre) (n - lowFrom pre)) 1 j = [lowFrom pre + j] :=
      unrankSublist_range'_one (by rwa [Nat.choose_one_right] at hj)
    simp only [combinationIndices, show pre.length + 1 - 1 = pre.length by omega, hst, Option.map_some]
    rw [if_neg (show ¬ pre.length + 1 < 1 by omega), hv, List.replicate_one, set_placed, ht, hlast]
    have hcomp : ((fun x : ℤ => x - 1) ∘ fun v : ℕ => (v : ℤ) + 1) = fun v : ℕ => (v : ℤ) := by
      funext v
      simp
    simp only [List.map_append, List.map_map, List.map_cons, List.map_nil, hcomp]
    congr 3
    push_cast
    ring

end Run

theorem getElem?_combinationsVisit {n p m : ℕ} (hm : m < n.choose p) :
    (combinationsVisit n (n.choose p) (List.range p))[m]? = some (unrankSublist (List.range n) p m) := by
  have hp : p ≤ n := by
    by_contra h
    rw [Nat.choose_eq_zero_of_lt (by omega)] at hm
    exact absurd hm (Nat.not_lt_zero m)
  have h : (sortedSublists (List.range n) p)[m]? = some (unrankSublist (List.range n) p m) :=
    getElem?_sortedSublists List.pairwise_lt_range (by rwa [List.length_range])
  rw [sortedSublists] at h
  rw [combinationsVisit_eq_sort hp, h]

theorem combinationIndices_eq_visit {fuel m p n : ℕ} (hfuel : n ≤ fuel) (hm : m < n.choose p) :
    combinationIndices fuel m p n =
      ((combinationsVisit n (n.choose p) (List.range p))[m]?).map (List.map fun v : ℕ => (v : ℤ)) := by
  rw [combinationIndices_eq_unrank hfuel hm, getElem?_combinationsVisit hm, Option.map_some]

theorem combinationIndices_eq_visit_five :
    4 ≤ 4 ∧ 5 < Nat.choose 4 2 ∧
      combinationIndices 4 5 2 4 = ((combinationsVisit 4 (Nat.choose 4 2) (List.range 2))[5]?).map
        (List.map fun v : ℕ => (v : ℤ)) :=
  ⟨by decide, by decide, combinationIndices_eq_visit (by decide) (by decide)⟩

example : combinationIndices 4 5 2 4 = some [2, 3] := by decide

theorem getElem?_allCombinations {fuel m k : ℕ} {seq : List α} (hfuel : seq.length ≤ fuel)
    (hm : m < seq.length.choose k) : (allCombinations seq k)[m]? = combination fuel m seq k := by
  rw [combination, combinationIndices_eq_unrank hfuel hm, Option.map_some, allCombinations, nCk_natCast,
    List.getElem?_map, getElem?_combinationsVisit hm, Option.map_some, List.map_map]
  have hcast : (Int.toNat ∘ fun v : ℕ => (v : ℤ)) = id := by
    funext v
    simp
  rw [hcast, List.map_id]

theorem getElem?_allCombinations_three :
    3 ≤ 3 ∧ 2 < Nat.choose 3 2 ∧ (allCombinations [7, 8, 9] 2)[2]? = combination 3 2 [7, 8, 9] 2 :=
  ⟨by decide, by decide, getElem?_allCombinations (by decide) (by decide)⟩

end FactorProofs.Math.CombinationIndices
