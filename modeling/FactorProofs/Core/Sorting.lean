import FactorProofs.Library.Containers
import FactorProofs.Library.MergeSort
import FactorProofs.Vm.Layouts

namespace FactorProofs.Core.Sorting

open FactorProofs.Groups FactorProofs.MergeSort FactorProofs.Containers

/-! `sort-with` of `sorting`: a bottom-up merge sort. `sort-pairs` puts each
pair of neighbours in order, then each `sort-pass` merges the runs of
`size / 2` two by two, `size` doubling from 4 until one run covers the input.
The passes ping-pong between two vectors (`flip-accum`), and each pass writes
all of the elements, so the model hands what one pass wrote to the next. The
two runs of `(merge)`, the slices of `seq` from `from1` to `to1` and from
`from2` to `to2`, are the lists of what is left of them. -/

variable {α : Type} (quot : α → α → Ordering)

/-- `(merge)`: the left element goes first unless `quot` says `+gt+`. -/
def mergeAux : List α → List α → List α → List α
  | l, [], accum => accum ++ l
  | [], r, accum => accum ++ r
  | a :: l, b :: r, accum =>
    if quot a b = .gt then mergeAux (a :: l) r (accum ++ [b]) else mergeAux l (b :: r) (accum ++ [a])

/-- `merging`: the midpoint and the end are clipped to the length of `seq`. -/
def merging (from1 to2 : ℕ) (seq : List α) : List α × List α :=
  let to1 := min ((from1 + to2) / 2) seq.length
  let to2 := min to2 seq.length
  ((seq.drop from1).take (to1 - from1), (seq.drop to1).take (to2 - to1))

def merge (from1 to2 : ℕ) (seq accum : List α) : List α :=
  mergeAux quot (merging from1 to2 seq).1 (merging from1 to2 seq).2 accum

def nthChunk (n size : ℕ) : ℕ × ℕ := (n * size, n * size + size)

/-- `chunks`; for the powers of two that `sort-pass` is given, `align` is `Vm.align`. -/
def chunks (length size : ℕ) : ℕ := Vm.align length size / size

/-- `sort-pass`, `seq` being what the previous pass wrote. -/
def sortPass (size : ℕ) (seq : List α) : List α :=
  (List.range (chunks seq.length size)).foldl
    (fun accum i => merge quot (nthChunk i size).1 (nthChunk i size).2 seq accum) []

/-- `(sort-pairs)`: the last element of an odd-length `seq` is pushed alone. -/
def sortPairsAux (i1 i2 : ℕ) (seq accum : List α) : List α :=
  if i2 = seq.length then accum ++ seq[i1]?.toList
  else
    match seq[i1]?, seq[i2]? with
    | some a, some b => if quot a b = .gt then accum ++ [b, a] else accum ++ [a, b]
    | _, _ => accum

/-- `sort-pairs`, over the pairs of `each-pair`. -/
def sortPairs (seq : List α) : List α :=
  (List.range ((seq.length + 1) / 2)).foldl (fun accum i => sortPairsAux quot (2 * i) (2 * i + 1) seq accum) []

/-- The order `sort-with` sorts by: `a` may stay before `b` unless `quot a b` is `+gt+`. -/
def leOf (a b : α) : Bool := quot a b != .gt

theorem mergeAux_eq (l r accum : List α) : mergeAux quot l r accum = accum ++ l.merge r (leOf quot) := by
  fun_induction mergeAux quot l r accum with
  | case1 l accum => rw [List.merge_right]
  | case2 r accum h => rw [List.nil_merge]
  | case3 a l b r accum hgt ih =>
    rw [ih, List.cons_merge_cons, if_neg (by simp [leOf, hgt]), List.append_assoc, List.singleton_append]
  | case4 a l b r accum hgt ih =>
    rw [ih, List.cons_merge_cons, if_pos (by simp [leOf, hgt]), List.append_assoc, List.singleton_append]

theorem merging_map {β : Type} (f : β → α) (from1 to2 : ℕ) (seq : List β) :
    merging from1 to2 (seq.map f) = ((merging from1 to2 seq).1.map f, (merging from1 to2 seq).2.map f) := by
  simp only [merging, List.length_map, List.map_take, List.map_drop]

theorem sortPass_eq (size : ℕ) (seq : List α) :
    sortPass quot size seq = ((List.range (chunks seq.length size)).map fun i =>
      (merging (nthChunk i size).1 (nthChunk i size).2 seq).1.merge
        (merging (nthChunk i size).1 (nthChunk i size).2 seq).2 (leOf quot)).flatten := by
  simp only [sortPass, merge, mergeAux_eq]
  rw [foldl_append_map, List.nil_append]

theorem merging_nthChunk {w : ℕ} (hw : 0 < w) (seq : List α) (i : ℕ) :
    merging (nthChunk i (2 * w)).1 (nthChunk i (2 * w)).2 seq =
      ((groups w seq).getD (2 * i) [], (groups w seq).getD (2 * i + 1) []) := by
  have e1 : i * (2 * w) = 2 * (i * w) := Nat.mul_left_comm _ _ _
  have e2 : 2 * i * w = 2 * (i * w) := Nat.mul_assoc _ _ _
  have e3 : (2 * i + 1) * w = 2 * (i * w) + w := by rw [Nat.add_mul, Nat.one_mul, Nat.mul_assoc]
  rw [getD_groups hw, getD_groups hw, e2, e3]
  simp only [merging, nthChunk, e1]
  generalize i * w = x
  have hmid : (2 * x + (2 * x + 2 * w)) / 2 = 2 * x + w := by omega
  rw [hmid, Prod.mk.injEq]
  constructor
  · rw [List.take_eq_take_iff, List.length_drop]
    omega
  · by_cases hlen : 2 * x + w ≤ seq.length
    · rw [Nat.min_eq_left hlen, List.take_eq_take_iff, List.length_drop]
      omega
    · -- the left run reaches the end: both right runs are empty
      have hend : min (2 * x + w) seq.length = seq.length := Nat.min_eq_right (by omega)
      rw [hend, List.drop_eq_nil_of_le (le_refl _),
        List.drop_eq_nil_of_le (by omega), List.take_nil, List.take_nil]

theorem chunks_two_mul {w : ℕ} (hw : 0 < w) (n : ℕ) : chunks n (2 * w) = ((n + w - 1) / w + 1) / 2 := by
  rw [chunks, Vm.align, Nat.mul_div_cancel _ (by omega), ← Nat.add_div_right _ hw, Nat.div_div_eq_div_mul,
    Nat.mul_comm w 2]
  congr 1
  omega

theorem sortPass_groups {w : ℕ} (hw : 0 < w) (seq : List α) :
    sortPass quot (2 * w) seq = (mergePairs (leOf quot) (groups w seq)).flatten := by
  rw [sortPass_eq, mergePairs_eq_map_range, length_groups hw, chunks_two_mul hw]
  simp only [merging_nthChunk hw]

theorem length_sortPass {w : ℕ} (hw : 0 < w) (seq : List α) :
    (sortPass quot (2 * w) seq).length = seq.length := by
  rw [sortPass_groups quot hw, (flatten_mergePairs_perm _ _).length_eq, flatten_groups hw]

/-- `sort-loop` at `size = 2 ^ (k + 1)`: another pass while the runs are shorter than `seq`. -/
def sortLoop (k : ℕ) (seq : List α) : List α :=
  if _h : seq.length > 2 ^ (k + 1) then sortLoop (k + 1) (sortPass quot (2 ^ (k + 2)) seq) else seq
termination_by seq.length - 2 ^ (k + 1)
decreasing_by
  have hsize : 2 ^ (k + 2) = 2 * 2 ^ (k + 1) := Nat.pow_succ'
  have hpos := Nat.two_pow_pos (k + 1)
  rw [hsize, length_sortPass quot hpos]
  omega

def sortWith (seq : List α) : List α := sortLoop quot 0 (sortPairs quot seq)

theorem sortWith_of_length_le_two (seq : List α) (h : (sortPairs quot seq).length ≤ 2) :
    sortWith quot seq = sortPairs quot seq := by
  rw [sortWith, sortLoop, dif_neg (by omega)]

theorem sortPairsAux_eq (seq accum : List α) (i : ℕ) :
    sortPairsAux quot (2 * i) (2 * i + 1) seq accum =
      accum ++ ((groups 2 seq).getD i []).mergeSort (leOf quot) := by
  have h0 : seq[2 * i]? = (seq.drop (2 * i))[0]? := by rw [List.getElem?_drop, Nat.add_zero]
  have h1 : seq[2 * i + 1]? = (seq.drop (2 * i))[1]? := by rw [List.getElem?_drop]
  have hlen : 2 * i + 1 = seq.length ↔ (seq.drop (2 * i)).length = 1 := by
    rw [List.length_drop]
    omega
  rw [getD_groups (by decide), Nat.mul_comm i 2, sortPairsAux]
  simp only [h0, h1, hlen]
  match seq.drop (2 * i) with
  | [] => simp
  | [a] => simp
  | a :: b :: rest =>
    rw [if_neg (by simp), List.take_succ_cons, List.take_succ_cons, List.take_zero, mergeSort_pair]
    by_cases hgt : quot a b = .gt <;> simp [leOf, hgt]

theorem sortPairs_eq (seq : List α) :
    sortPairs quot seq = ((groups 2 seq).map (·.mergeSort (leOf quot))).flatten := by
  have hG : (groups 2 seq).length = (seq.length + 1) / 2 := by
    rw [length_groups (by decide)]
    omega
  simp only [sortPairs, sortPairsAux_eq]
  rw [foldl_append_map, List.nil_append, ← hG,
    map_range_getD (fun g : List α => g.mergeSort (leOf quot)) (groups 2 seq) []]

section Naturality

variable {β : Type} (f : β → α)

theorem sortPass_map (size : ℕ) (seq : List β) :
    sortPass quot size (seq.map f) = (sortPass (fun a b => quot (f a) (f b)) size seq).map f := by
  have hmerge : ∀ l l' : List β, (l.merge l' (leOf fun a b => quot (f a) (f b))).map f =
      (l.map f).merge (l'.map f) (leOf quot) := fun l l' => List.map_merge fun _ _ _ _ => rfl
  rw [sortPass_eq, sortPass_eq, List.map_flatten, List.map_map, List.length_map]
  congr 1
  refine List.map_congr_left fun i _ => ?_
  rw [merging_map, Function.comp_apply, hmerge]

theorem sortPairs_map (seq : List β) :
    sortPairs quot (seq.map f) = (sortPairs (fun a b => quot (f a) (f b)) seq).map f := by
  have hsort : ∀ g : List β, (g.mergeSort (leOf fun a b => quot (f a) (f b))).map f =
      (g.map f).mergeSort (leOf quot) := fun g => List.map_mergeSort fun _ _ _ _ => rfl
  rw [sortPairs_eq, sortPairs_eq, groups_map, List.map_flatten, List.map_map, List.map_map]
  congr 1
  refine List.map_congr_left fun g _ => ?_
  rw [Function.comp_apply, Function.comp_apply, hsort]

theorem sortLoop_map (k : ℕ) (seq : List β) :
    sortLoop quot k (seq.map f) = (sortLoop (fun a b => quot (f a) (f b)) k seq).map f := by
  fun_induction sortLoop (fun a b => quot (f a) (f b)) k seq with
  | case1 k seq hlen ih => rw [sortLoop, dif_pos (by rwa [List.length_map]), sortPass_map, ih]
  | case2 k seq hlen => rw [sortLoop, dif_neg (by rwa [List.length_map])]

theorem sortWith_map (seq : List β) :
    sortWith quot (seq.map f) = (sortWith (fun a b => quot (f a) (f b)) seq).map f := by
  rw [sortWith, sortWith, sortPairs_map, sortLoop_map]

end Naturality

section Refinement

variable {quot}
variable (trans : ∀ a b c, leOf quot a b → leOf quot b c → leOf quot a c)
  (total : ∀ a b, leOf quot a b || leOf quot b a)
include trans total

theorem sortLoop_eq_mergeSort (L : List α) (k : ℕ) (seq : List α)
    (hseq : seq = ((groups (2 ^ (k + 1)) L).map (·.mergeSort (leOf quot))).flatten) :
    sortLoop quot k seq = L.mergeSort (leOf quot) := by
  fun_induction sortLoop quot k seq with
  | case1 k seq hlen ih =>
    have hsize : 2 ^ (k + 2) = 2 * 2 ^ (k + 1) := Nat.pow_succ'
    apply ih
    rw [hsize, sortPass_groups quot (Nat.two_pow_pos _), hseq, mergePairs_groups trans total (Nat.two_pow_pos _)]
  | case2 k seq hlen =>
    have hL : L.length ≤ 2 ^ (k + 1) := by
      rw [← flatten_groups (Nat.two_pow_pos (k + 1)) L,
        ← (flatten_map_mergeSort_perm (leOf quot) _).length_eq, ← hseq]
      omega
    rw [hseq, flatten_groups_mergeSort _ (Nat.two_pow_pos _) hL]

theorem sortWith_eq_mergeSort (seq : List α) : sortWith quot seq = seq.mergeSort (leOf quot) :=
  sortLoop_eq_mergeSort trans total seq 0 _ (sortPairs_eq quot seq)

end Refinement

/-- `quot` is a total preorder on the elements of `s`: swapping the arguments
swaps the answer, and not being `+gt+` is transitive. -/
structure TotalPreorderOn (quot : α → α → Ordering) (s : List α) : Prop where
  swap : ∀ a ∈ s, ∀ b ∈ s, (quot a b).swap = quot b a
  trans : ∀ a ∈ s, ∀ b ∈ s, ∀ c ∈ s, quot a b ≠ .gt → quot b c ≠ .gt → quot a c ≠ .gt

instance (s : List α) : Decidable (TotalPreorderOn quot s) :=
  decidable_of_iff ((∀ a ∈ s, ∀ b ∈ s, (quot a b).swap = quot b a) ∧
      ∀ a ∈ s, ∀ b ∈ s, ∀ c ∈ s, quot a b ≠ .gt → quot b c ≠ .gt → quot a c ≠ .gt)
    ⟨fun h => ⟨h.1, h.2⟩, fun h => ⟨h.swap, h.trans⟩⟩

/-- `r` sorts `s` stably under `quot`: it is a permutation of `s`, no element
comes after one it is `+lt+`, and the elements of `s` that compare `+eq+` keep
their order. -/
structure StablySorts (quot : α → α → Ordering) (s r : List α) : Prop where
  perm : r.Perm s
  sorted : r.Pairwise fun a b => quot a b ≠ .gt
  stable : ∀ c : List α, c.Sublist s → c.Pairwise (fun a b => quot a b = .eq) → c.Sublist r

section Elements

variable {quot} {s : List α}

theorem TotalPreorderOn.leOf_trans (h : TotalPreorderOn quot s) (a b c : {x // x ∈ s}) :
    leOf (fun a b : {x // x ∈ s} => quot a.1 b.1) a b → leOf (fun a b : {x // x ∈ s} => quot a.1 b.1) b c →
      leOf (fun a b : {x // x ∈ s} => quot a.1 b.1) a c := by
  simp only [leOf, bne_iff_ne]
  exact h.trans a.1 a.2 b.1 b.2 c.1 c.2

theorem TotalPreorderOn.leOf_total (h : TotalPreorderOn quot s) (a b : {x // x ∈ s}) :
    (leOf (fun a b : {x // x ∈ s} => quot a.1 b.1) a b || leOf (fun a b : {x // x ∈ s} => quot a.1 b.1) b a) =
      true := by
  have hswap := h.swap a.1 a.2 b.1 b.2
  simp only [leOf, Bool.or_eq_true, bne_iff_ne]
  cases hab : quot a.1 b.1 with
  | gt =>
    rw [hab] at hswap
    exact Or.inr (by rw [← hswap]; decide)
  | lt => exact Or.inl (by decide)
  | eq => exact Or.inl (by decide)

theorem TotalPreorderOn.sortWith_eq (h : TotalPreorderOn quot s) :
    sortWith quot s = (s.attach.mergeSort (leOf fun a b : {x // x ∈ s} => quot a.1 b.1)).map Subtype.val := by
  calc sortWith quot s = sortWith quot (s.attach.map Subtype.val) := by rw [List.attach_map_subtype_val]
    _ = (sortWith (fun a b : {x // x ∈ s} => quot a.1 b.1) s.attach).map Subtype.val := sortWith_map quot _ _
    _ = _ := by rw [sortWith_eq_mergeSort h.leOf_trans h.leOf_total]

theorem TotalPreorderOn.stablySorts (h : TotalPreorderOn quot s) : StablySorts quot s (sortWith quot s) where
  perm := by
    have hperm := (List.mergeSort_perm s.attach (leOf fun a b : {x // x ∈ s} => quot a.1 b.1)).map Subtype.val
    rwa [List.attach_map_subtype_val, ← h.sortWith_eq] at hperm
  sorted := by
    rw [h.sortWith_eq, List.pairwise_map]
    refine (List.pairwise_mergeSort h.leOf_trans h.leOf_total _).imp fun hab => ?_
    simpa only [leOf, bne_iff_ne] using hab
  stable := by
    intro c hc hpair
    rw [← List.attach_map_subtype_val s] at hc
    obtain ⟨c', hc', rfl⟩ := List.sublist_map_iff.mp hc
    rw [h.sortWith_eq]
    refine (List.sublist_mergeSort h.leOf_trans h.leOf_total ?_ hc').map _
    exact (List.pairwise_map.mp hpair).imp fun hab => by simp [leOf, hab]

theorem TotalPreorderOn.invert (h : TotalPreorderOn quot s) : TotalPreorderOn (fun a b => (quot a b).swap) s where
  swap a ha b hb := by rw [h.swap a ha b hb]
  trans a ha b hb c hc hab hbc := by
    rw [h.swap a ha b hb] at hab
    rw [h.swap b hb c hc] at hbc
    rw [h.swap a ha c hc]
    exact h.trans c hc b hb a ha hbc hab

end Elements

theorem totalPreorderOn_compare {β : Type} [LinearOrder β] (key : α → β) (s : List α) :
    TotalPreorderOn (fun a b => compare (key a) (key b)) s where
  swap _ _ _ _ := Std.OrientedOrd.eq_swap.symm
  trans _ _ _ _ _ _ hab hbc := by
    rw [ne_eq, compare_gt_iff_gt, not_lt] at hab hbc ⊢
    exact le_trans hab hbc

/-- `inv-sort-with`; `invert-comparison` is `Ordering.swap`. -/
def invSortWith (seq : List α) : List α := sortWith (fun a b => (quot a b).swap) seq

section Words

variable {β γ : Type}

/-- `sort`: `<=>` on a linearly ordered type. -/
def sort [LinearOrder β] (seq : List β) : List β := sortWith compare seq

/-- `inv-sort`: `>=<`, the inverted `<=>`. -/
def invSort [LinearOrder β] (seq : List β) : List β := sortWith (fun a b => (compare a b).swap) seq

/-- `sort-by`: `compare` compares the keys. -/
def sortBy [LinearOrder β] (key : α → β) (seq : List α) : List α :=
  sortWith (fun a b => compare (key a) (key b)) seq

def invSortBy [LinearOrder β] (key : α → β) (seq : List α) : List α :=
  sortWith (fun a b => (compare (key a) (key b)).swap) seq

/-- `sort-keys` of a sequence of pairs: `sort-by` the first of each. -/
def sortKeys [LinearOrder β] (alist : List (β × γ)) : List (β × γ) := sortBy Prod.fst alist

/-- `sort-values`: `sort-by` the second of each. -/
def sortValues [LinearOrder γ] (alist : List (β × γ)) : List (β × γ) := sortBy Prod.snd alist

theorem TotalPreorderOn.stablySorts_invSortWith {s : List α} (h : TotalPreorderOn quot s) :
    StablySorts (fun a b => (quot a b).swap) s (invSortWith quot s) :=
  h.invert.stablySorts

theorem stablySorts_sort [LinearOrder β] (s : List β) : StablySorts compare s (sort s) :=
  (totalPreorderOn_compare id s).stablySorts

theorem stablySorts_invSort [LinearOrder β] (s : List β) :
    StablySorts (fun a b => (compare a b).swap) s (invSort s) :=
  (totalPreorderOn_compare id s).invert.stablySorts

theorem stablySorts_sortBy [LinearOrder β] (key : α → β) (s : List α) :
    StablySorts (fun a b => compare (key a) (key b)) s (sortBy key s) :=
  (totalPreorderOn_compare key s).stablySorts

theorem stablySorts_invSortBy [LinearOrder β] (key : α → β) (s : List α) :
    StablySorts (fun a b => (compare (key a) (key b)).swap) s (invSortBy key s) :=
  (totalPreorderOn_compare key s).invert.stablySorts

theorem stablySorts_sortKeys [LinearOrder β] (alist : List (β × γ)) :
    StablySorts (fun a b => compare a.1 b.1) alist (sortKeys alist) :=
  stablySorts_sortBy Prod.fst alist

theorem stablySorts_sortValues [LinearOrder γ] (alist : List (β × γ)) :
    StablySorts (fun a b => compare a.2 b.2) alist (sortValues alist) :=
  stablySorts_sortBy Prod.snd alist

end Words

/-- `sort-with` sorts stably for every comparator that is a total preorder on
the elements, and the words built on it for the orders they induce. -/
theorem sortWith_stable_sort :
    (∀ {α : Type} (quot : α → α → Ordering) (s : List α), TotalPreorderOn quot s →
      StablySorts quot s (sortWith quot s)) ∧
    (∀ {β : Type} [LinearOrder β] (s : List β),
      StablySorts compare s (sort s) ∧ StablySorts (fun a b => (compare a b).swap) s (invSort s)) ∧
    (∀ {α β : Type} [LinearOrder β] (key : α → β) (s : List α),
      StablySorts (fun a b => compare (key a) (key b)) s (sortBy key s)) ∧
    (∀ {β γ : Type} [LinearOrder β] (alist : List (β × γ)),
      StablySorts (fun a b => compare a.1 b.1) alist (sortKeys alist)) ∧
    (∀ {β γ : Type} [LinearOrder γ] (alist : List (β × γ)),
      StablySorts (fun a b => compare a.2 b.2) alist (sortValues alist)) :=
  ⟨fun _ _ h => h.stablySorts, fun s => ⟨stablySorts_sort s, stablySorts_invSort s⟩, stablySorts_sortBy,
    stablySorts_sortKeys, stablySorts_sortValues⟩

theorem sortWith_stable_sort_by_tens :
    TotalPreorderOn (fun a b : ℕ => compare (a / 10) (b / 10)) [31, 12, 35, 17] ∧
      StablySorts (fun a b : ℕ => compare (a / 10) (b / 10)) [31, 12, 35, 17]
        (sortWith (fun a b : ℕ => compare (a / 10) (b / 10)) [31, 12, 35, 17]) :=
  ⟨by decide, sortWith_stable_sort.1 _ _ (by decide)⟩

end FactorProofs.Core.Sorting
