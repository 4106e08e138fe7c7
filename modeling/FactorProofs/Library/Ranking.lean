import Mathlib.Data.List.InsertIdx
import Mathlib.Data.List.Permutation
import Mathlib.Tactic.Ring
import Mathlib.Data.List.Perm.Basic
import Mathlib.Data.List.Sublists
import FactorProofs.Library.Lex

namespace FactorProofs.Ranking

open FactorProofs.Lex

/-! Ranks in the factorial number system. A digit list `e`, most significant
first, names the rearrangement of a list `s` that takes the element at
position `e₀`, then from what is left the one at position `e₁`, and so on; its
rank is `Σ eⱼ · (m - 1 - j)!` for `m` digits. For a strictly increasing `s` the
rearrangement a digit list names is the one at its rank in lexicographic
order. -/

variable {β γ : Type*}

/-- The rearrangement of `s` the digits name. -/
def decode : List β → List ℕ → List β
  | _, [] => []
  | s, d :: e =>
    match s[d]? with
    | some a => a :: decode (s.eraseIdx d) e
    | none => []

/-- The rank of a digit list, most significant first. -/
def rank : List ℕ → ℕ
  | [] => 0
  | d :: e => d * e.length.factorial + rank e

/-- The rank of digits followed by `m` more places. -/
def rankFrom (m : ℕ) : List ℕ → ℕ
  | [] => 0
  | d :: e => d * (e.length + m).factorial + rankFrom m e

theorem rank_eq_rankFrom : ∀ e : List ℕ, rank e = rankFrom 0 e
  | [] => rfl
  | d :: e => by rw [rank, rankFrom, Nat.add_zero, rank_eq_rankFrom e]

theorem rankFrom_append (m : ℕ) (ys : List ℕ) :
    ∀ xs : List ℕ, rankFrom m (xs ++ ys) = rankFrom (ys.length + m) xs + rankFrom m ys
  | [] => by rw [List.nil_append, rankFrom, Nat.zero_add]
  | d :: xs => by
    rw [List.cons_append, rankFrom, rankFrom, rankFrom_append m ys xs, List.length_append,
      Nat.add_assoc xs.length, Nat.add_assoc]

theorem rank_replicate_zero_append (z : ℕ) (e : List ℕ) : rank (List.replicate z 0 ++ e) = rank e := by
  induction z with
  | zero => rfl
  | succ z ih => rw [List.replicate_succ, List.cons_append, rank, Nat.zero_mul, Nat.zero_add, ih]

/-- The value of digits least significant first, the first at the place `i!`. -/
def valueFrom (i : ℕ) : List ℕ → ℕ
  | [] => 0
  | d :: ds => d * i.factorial + valueFrom (i + 1) ds

theorem rankFrom_reverse (m : ℕ) : ∀ ds : List ℕ, rankFrom m ds.reverse = valueFrom m ds
  | [] => rfl
  | d :: ds => by
    rw [List.reverse_cons, rankFrom_append, rankFrom_reverse _ ds, List.length_singleton, Nat.add_comm 1 m,
      valueFrom, rankFrom, rankFrom, List.length_nil, Nat.zero_add]
    omega

/-- Each digit is below the number of positions from it to the end. -/
def IsDigits (e : List ℕ) : Prop := ∀ j (hj : j < e.length), e[j] + j < e.length

theorem isDigits_reverse_iff {ds : List ℕ} : IsDigits ds.reverse ↔ ∀ t (ht : t < ds.length), ds[t] ≤ t := by
  constructor
  · intro h t ht
    have := h (ds.length - 1 - t) (by rw [List.length_reverse]; omega)
    simp only [List.getElem_reverse, List.length_reverse, show ds.length - 1 - (ds.length - 1 - t) = t by omega]
      at this
    omega
  · intro h j hj
    rw [List.length_reverse] at hj ⊢
    have := h (ds.length - 1 - j) (by omega)
    rw [List.getElem_reverse]
    omega

theorem isDigits_cons {d : ℕ} {e : List ℕ} : IsDigits (d :: e) ↔ d ≤ e.length ∧ IsDigits e := by
  constructor
  · intro h
    have h0 := h 0 (by simp)
    simp only [List.getElem_cons_zero, List.length_cons] at h0
    refine ⟨by omega, fun j hj => ?_⟩
    have := h (j + 1) (by simp; omega)
    simp only [List.getElem_cons_succ, List.length_cons] at this
    omega
  · rintro ⟨hd, he⟩ j hj
    cases j with
    | zero => simp; omega
    | succ j =>
      have := he j (by simp at hj; omega)
      simp only [List.getElem_cons_succ, List.length_cons]
      omega

theorem rank_lt {e : List ℕ} (h : IsDigits e) : rank e < e.length.factorial := by
  induction e with
  | nil => exact Nat.one_pos
  | cons d e ih =>
    obtain ⟨hd, he⟩ := isDigits_cons.mp h
    have hlt := ih he
    have hmul : (d + 1) * e.length.factorial ≤ (e.length + 1) * e.length.factorial :=
      Nat.mul_le_mul_right _ (by omega)
    rw [rank, List.length_cons, Nat.factorial_succ]
    calc d * e.length.factorial + rank e < d * e.length.factorial + e.length.factorial := by omega
      _ = (d + 1) * e.length.factorial := by ring
      _ ≤ (e.length + 1) * e.length.factorial := hmul

theorem decode_map (f : β → γ) : ∀ (s : List β) (e : List ℕ), decode (s.map f) e = (decode s e).map f
  | _, [] => rfl
  | s, d :: e => by
    rw [decode, decode, List.getElem?_map]
    cases s[d]? with
    | none => rfl
    | some a =>
      rw [Option.map_some, List.eraseIdx_map, decode_map f _ e, List.map_cons]

theorem eraseIdx_range_succ {c t : ℕ} (hc : c ≤ t) :
    (List.range (t + 1)).eraseIdx c = (List.range t).map fun x => if c ≤ x then x + 1 else x := by
  refine List.ext_getElem (by simp [List.length_eraseIdx]; omega) fun j h1 h2 => ?_
  rw [List.getElem_eraseIdx, List.getElem_map, List.getElem_range]
  by_cases hj : j < c
  · simp only [dif_pos hj, List.getElem_range, if_neg (Nat.not_le.mpr hj)]
  · simp only [dif_neg hj, List.getElem_range, if_pos (Nat.not_lt.mp hj)]

theorem decode_range_succ {c t : ℕ} (hc : c ≤ t) (e : List ℕ) :
    decode (List.range (t + 1)) (c :: e) = c :: (decode (List.range t) e).map fun x => if c ≤ x then x + 1 else x := by
  rw [decode, List.getElem?_range (by omega), eraseIdx_range_succ hc, decode_map]

theorem getElem?_flatMap_of_length {α : Type*} (f : α → List γ) {B r : ℕ} (hr : r < B) :
    ∀ (L : List α), (∀ a ∈ L, (f a).length = B) → ∀ q, (L.flatMap f)[q * B + r]? = L[q]?.bind fun a => (f a)[r]?
  | [], _, q => rfl
  | a :: L, hB, q => by
    have ha := hB a List.mem_cons_self
    rw [List.flatMap_cons]
    cases q with
    | zero =>
      rw [Nat.zero_mul, Nat.zero_add, List.getElem?_append_left (by omega)]
      rfl
    | succ q =>
      have hq : B ≤ (q + 1) * B := Nat.le_mul_of_pos_left B (Nat.succ_pos q)
      rw [List.getElem?_append_right (by rw [ha]; omega), ha,
        show (q + 1) * B + r - B = q * B + r by rw [Nat.succ_mul]; omega,
        getElem?_flatMap_of_length f hr L (fun b hb => hB b (List.mem_cons_of_mem _ hb)) q]
      rfl

/-- The sublist of length `k` at position `j` among those of `s` in
lexicographic order: each element in turn is taken if `j` falls among the
sublists that start with it, and skipped with their count otherwise. -/
def unrankSublist : List β → ℕ → ℕ → List β
  | _, 0, _ => []
  | [], _ + 1, _ => []
  | a :: s, k + 1, j =>
    if j < s.length.choose k then a :: unrankSublist s k j else unrankSublist s (k + 1) (j - s.length.choose k)

theorem unrankSublist_range'_one : ∀ {lo len j : ℕ}, j < len → unrankSublist (List.range' lo len) 1 j = [lo + j]
  | _, 0, _, hj => absurd hj (Nat.not_lt_zero _)
  | lo, len + 1, j, hj => by
    rw [List.range'_succ, unrankSublist, List.length_range', Nat.choose_zero_right]
    by_cases h0 : j = 0
    · rw [if_pos (by omega), unrankSublist, h0, Nat.add_zero]
    · rw [if_neg (by omega), unrankSublist_range'_one (by omega), show lo + 1 + (j - 1) = lo + j by omega]

/-- The arrangements of `k` distinct entries of `s`, by their first element in
the order of `s`, then by the arrangements of what is left. -/
def arrangements (s : List β) : ℕ → List (List β)
  | 0 => [[]]
  | k + 1 => (List.finRange s.length).flatMap fun i : Fin s.length => (arrangements (s.eraseIdx i) k).map (s.get i :: ·)

theorem length_arrangements : ∀ (s : List β) (k : ℕ), (arrangements s k).length = s.length.descFactorial k
  | s, 0 => rfl
  | s, k + 1 => by
    have hblock : ∀ i ∈ List.finRange s.length,
        ((arrangements (s.eraseIdx i) k).map (s.get i :: ·)).length = (s.length - 1).descFactorial k := fun i _ => by
      rw [List.length_map, length_arrangements, List.length_eraseIdx_of_lt i.2]
    have hcount : ∀ N, N * (N - 1).descFactorial k = N.descFactorial (k + 1)
      | 0 => by rw [Nat.zero_mul, Nat.zero_descFactorial_succ]
      | N + 1 => by rw [Nat.succ_descFactorial_succ, Nat.add_sub_cancel]
    rw [arrangements, List.length_flatMap, List.map_congr_left hblock, List.map_const', List.length_finRange,
      List.sum_replicate_nat, hcount]

theorem mem_arrangements : ∀ {s : List β} (k : ℕ) {m : List β}, s.Nodup →
    (m ∈ arrangements s k ↔ m.Nodup ∧ m.length = k ∧ ∀ x ∈ m, x ∈ s)
  | s, 0, m, _ => by
    rw [arrangements, List.mem_singleton]
    constructor
    · rintro rfl
      exact ⟨List.nodup_nil, rfl, fun x hx => absurd hx List.not_mem_nil⟩
    · rintro ⟨-, hlen, -⟩
      exact List.length_eq_zero_iff.mp hlen
  | s, k + 1, m, hs => by
    rw [arrangements, List.mem_flatMap]
    constructor
    · rintro ⟨i, -, hm⟩
      obtain ⟨m', hm', rfl⟩ := List.mem_map.mp hm
      obtain ⟨hnd, hlen, hsub⟩ := (mem_arrangements k (hs.eraseIdx i)).mp hm'
      have hnot : s.get i ∉ m' := fun h => by
        obtain ⟨j, hj, hji, heq⟩ := List.mem_eraseIdx_iff_getElem.mp (hsub _ h)
        exact hji ((hs.getElem_inj_iff).mp heq)
      refine ⟨List.nodup_cons.mpr ⟨hnot, hnd⟩, by rw [List.length_cons, hlen], fun x hx => ?_⟩
      rcases List.mem_cons.mp hx with rfl | hx
      · exact List.getElem_mem _
      · exact List.mem_of_mem_eraseIdx (hsub x hx)
    · rintro ⟨hnd, hlen, hsub⟩
      cases m with
      | nil => exact absurd hlen (by simp)
      | cons a m' =>
        obtain ⟨i, hi, rfl⟩ := List.getElem_of_mem (hsub a List.mem_cons_self)
        have hrest : ∀ x ∈ m', x ∈ s.eraseIdx i := fun x hx => by
          obtain ⟨j, hj, rfl⟩ := List.getElem_of_mem (hsub x (List.mem_cons_of_mem _ hx))
          refine List.mem_eraseIdx_iff_getElem.mpr ⟨j, hj, fun hji => ?_, rfl⟩
          subst hji
          exact (List.nodup_cons.mp hnd).1 hx
        refine ⟨⟨i, hi⟩, List.mem_finRange _, List.mem_map.mpr ⟨m', (mem_arrangements k (hs.eraseIdx i)).mpr
          ⟨(List.nodup_cons.mp hnd).2, by simpa using hlen, hrest⟩, rfl⟩⟩

section Order

variable [LinearOrder β]

theorem pairwise_flatMap_cons {s : List β} (hs : s.Pairwise (· < ·)) {F : Fin s.length → List (List β)}
    (hF : ∀ i, (F i).Pairwise (· < ·)) :
    ((List.finRange s.length).flatMap fun i : Fin s.length => (F i).map (s.get i :: ·)).Pairwise (· < ·) := by
  refine List.pairwise_flatMap.mpr ⟨fun i _ => ?_, (List.pairwise_lt_finRange _).imp fun {i j} hij => ?_⟩
  · exact List.pairwise_map.mpr ((hF i).imp fun h => cons_lt_cons_iff.mpr (Or.inr ⟨rfl, h⟩))
  · intro x hx y hy
    obtain ⟨x', -, rfl⟩ := List.mem_map.mp hx
    obtain ⟨y', -, rfl⟩ := List.mem_map.mp hy
    exact cons_lt_cons_iff.mpr (Or.inl (List.pairwise_iff_getElem.mp hs i j i.2 j.2 hij))

theorem pairwise_arrangements : ∀ {s : List β} (k : ℕ), s.Pairwise (· < ·) → (arrangements s k).Pairwise (· < ·)
  | _, 0, _ => List.pairwise_singleton _ _
  | _, k + 1, hs => pairwise_flatMap_cons hs fun _ =>
    pairwise_arrangements k (hs.sublist (List.eraseIdx_sublist _ _))

/-- The rearrangements of `s` in increasing lexicographic order. -/
def sortedPermutations (s : List β) : List (List β) := (s.permutations.toFinset).sort (· ≤ ·)

theorem mem_sortedPermutations {s m : List β} : m ∈ sortedPermutations s ↔ m.Perm s := by
  rw [sortedPermutations, Finset.mem_sort, List.mem_toFinset, List.mem_permutations]

theorem pairwise_sortedPermutations (s : List β) : (sortedPermutations s).Pairwise (· < ·) :=
  pairwise_lt_sort _

theorem length_sortedPermutations {s : List β} (hs : s.Nodup) : (sortedPermutations s).length = s.length.factorial := by
  rw [sortedPermutations, Finset.length_sort, List.toFinset_card_of_nodup (List.nodup_permutations _ hs),
    List.length_permutations]

theorem sortedPermutations_nil : sortedPermutations ([] : List β) = [[]] := by
  rw [sortedPermutations, List.permutations_nil]
  simp

theorem sortedPermutations_eq_flatMap {s : List β} (hs : s.Pairwise (· < ·)) (hne : s ≠ []) :
    sortedPermutations s =
      (List.finRange s.length).flatMap fun i : Fin s.length => (sortedPermutations (s.eraseIdx i)).map (s.get i :: ·) := by
  have hR := pairwise_flatMap_cons hs fun i => pairwise_sortedPermutations (s.eraseIdx i)
  have hmem : ∀ m, m ∈ ((List.finRange s.length).flatMap fun i : Fin s.length =>
      (sortedPermutations (s.eraseIdx i)).map (s.get i :: ·)) ↔ m.Perm s := by
    intro m
    rw [List.mem_flatMap]
    constructor
    · rintro ⟨i, -, hm⟩
      obtain ⟨m', hm', rfl⟩ := List.mem_map.mp hm
      exact ((mem_sortedPermutations.mp hm').cons _).trans (List.getElem_cons_eraseIdx_perm i.2)
    · intro hm
      cases m with
      | nil => exact absurd (List.perm_nil.mp hm.symm) hne
      | cons a m' =>
        obtain ⟨i, hi, rfl⟩ := List.getElem_of_mem (hm.subset List.mem_cons_self)
        have hrest : m'.Perm (s.eraseIdx i) := (hm.trans (List.getElem_cons_eraseIdx_perm hi).symm).cons_inv
        exact ⟨⟨i, hi⟩, List.mem_finRange _, List.mem_map.mpr ⟨m', mem_sortedPermutations.mpr hrest, rfl⟩⟩
  refine List.Perm.eq_of_pairwise (fun _ _ _ _ h h' => le_antisymm h h')
    ((pairwise_sortedPermutations s).imp le_of_lt) (hR.imp le_of_lt) ?_
  refine (List.perm_ext_iff_of_nodup (pairwise_sortedPermutations s).nodup hR.nodup).mpr fun m => ?_
  rw [mem_sortedPermutations, hmem]

theorem getElem?_sortedPermutations_take : ∀ (k : ℕ) {s : List β} {i : ℕ}, s.Pairwise (· < ·) → k ≤ s.length →
    i < s.length.descFactorial k →
      ((sortedPermutations s)[i * (s.length - k).factorial]?).map (List.take k) = (arrangements s k)[i]?
  | 0, s, i, hs, _, hi => by
    obtain rfl : i = 0 := by rw [Nat.descFactorial_zero] at hi; omega
    have hpos : 0 < (sortedPermutations s).length := by
      rw [length_sortedPermutations hs.nodup]
      exact Nat.factorial_pos _
    rw [Nat.zero_mul, List.getElem?_eq_getElem hpos, Option.map_some, List.take_zero, arrangements]
    rfl
  | k + 1, s, i, hs, hk, hi => by
    obtain ⟨N, hN⟩ : ∃ N, s.length = N + 1 := ⟨s.length - 1, by omega⟩
    have hne : s ≠ [] := fun h => by rw [h, List.length_nil] at hN; omega
    have hB : 0 < N.descFactorial k := Nat.pos_of_ne_zero fun h => by
      rw [Nat.descFactorial_eq_zero_iff_lt] at h
      omega
    have hr : i % N.descFactorial k < N.descFactorial k := Nat.mod_lt _ hB
    have hq : i / N.descFactorial k < s.length := by
      rw [hN, Nat.div_lt_iff_lt_mul hB, ← Nat.succ_descFactorial_succ, ← hN]
      exact hi
    have hfac : (N - k).factorial * N.descFactorial k = N.factorial := Nat.factorial_mul_descFactorial (by omega)
    have hoff : i % N.descFactorial k * (N - k).factorial < N.factorial := by
      rw [← hfac, Nat.mul_comm (N - k).factorial]
      exact Nat.mul_lt_mul_of_pos_right hr (Nat.factorial_pos _)
    have hidx : i * (s.length - (k + 1)).factorial =
        i / N.descFactorial k * N.factorial + i % N.descFactorial k * (N - k).factorial := by
      conv_lhs => rw [← Nat.div_add_mod' i (N.descFactorial k)]
      rw [hN, show N + 1 - (k + 1) = N - k by omega, Nat.add_mul, ← hfac]
      ring
    have hlenq : (s.eraseIdx (i / N.descFactorial k)).length = N := by rw [List.length_eraseIdx_of_lt hq, hN]; rfl
    have hblockP : ∀ j ∈ List.finRange s.length,
        ((sortedPermutations (s.eraseIdx j)).map (s.get j :: ·)).length = N.factorial := fun j _ => by
      rw [List.length_map, length_sortedPermutations (hs.nodup.eraseIdx _), List.length_eraseIdx_of_lt j.2, hN]
      rfl
    have hblockA : ∀ j ∈ List.finRange s.length,
        ((arrangements (s.eraseIdx j) k).map (s.get j :: ·)).length = N.descFactorial k := fun j _ => by
      rw [List.length_map, length_arrangements, List.length_eraseIdx_of_lt j.2, hN]
      rfl
    have hrest := getElem?_sortedPermutations_take k (hs.sublist (List.eraseIdx_sublist s (i / N.descFactorial k)))
      (by rw [hlenq]; omega) (by rw [hlenq]; exact hr)
    rw [hlenq] at hrest
    rw [hidx, sortedPermutations_eq_flatMap hs hne, getElem?_flatMap_of_length _ hoff _ hblockP]
    conv_rhs => rw [← Nat.div_add_mod' i (N.descFactorial k), arrangements, getElem?_flatMap_of_length _ hr _ hblockA]
    rw [List.getElem?_eq_getElem (by rw [List.length_finRange]; exact hq)]
    simp only [Option.bind_some, List.getElem_finRange, Fin.cast_mk, List.get_eq_getElem, List.getElem?_map,
      Option.map_map, ← hrest]
    rfl

theorem getElem?_sortedPermutations_rank :
    ∀ {s : List β} (e : List ℕ), s.Pairwise (· < ·) → e.length = s.length → IsDigits e →
      (sortedPermutations s)[rank e]? = some (decode s e)
  | s, [], _, hlen, _ => by
    obtain rfl := List.length_eq_zero_iff.mp hlen.symm
    rw [sortedPermutations_nil]
    rfl
  | s, d :: e, hs, hlen, hd => by
    obtain ⟨hd, he⟩ := isDigits_cons.mp hd
    have hne : s ≠ [] := fun h => by rw [h] at hlen; exact absurd hlen (by simp)
    have hds : d < s.length := by rw [← hlen, List.length_cons]; omega
    have hblock : ∀ i ∈ List.finRange s.length,
        ((sortedPermutations (s.eraseIdx i)).map (s.get i :: ·)).length = e.length.factorial := by
      intro i _
      rw [List.length_map, length_sortedPermutations (hs.nodup.eraseIdx _), List.length_eraseIdx_of_lt i.2]
      congr 1
      simp only [List.length_cons] at hlen
      omega
    have hrest := getElem?_sortedPermutations_rank e (hs.eraseIdx d)
      (by rw [List.length_eraseIdx_of_lt hds]; simp only [List.length_cons] at hlen; omega) he
    rw [sortedPermutations_eq_flatMap hs hne, rank,
      getElem?_flatMap_of_length _ (rank_lt he) _ hblock, List.getElem?_eq_getElem (by rw [List.length_finRange]; exact hds),
      Option.bind_some, decode, List.getElem?_eq_getElem hds]
    simp only [List.getElem_finRange, Fin.cast_mk, List.getElem?_map, hrest, Option.map_some, List.get_eq_getElem]

/-- The sublists of `s` of length `k` in increasing lexicographic order. -/
def sortedSublists (s : List β) (k : ℕ) : List (List β) := ((s.sublistsLen k).toFinset).sort (· ≤ ·)

theorem mem_sortedSublists {s m : List β} {k : ℕ} : m ∈ sortedSublists s k ↔ m ∈ s.sublistsLen k := by
  rw [sortedSublists, Finset.mem_sort, List.mem_toFinset]

theorem pairwise_sortedSublists (s : List β) (k : ℕ) : (sortedSublists s k).Pairwise (· < ·) :=
  pairwise_lt_sort _

theorem length_sortedSublists {s : List β} (hs : s.Nodup) (k : ℕ) : (sortedSublists s k).length = s.length.choose k := by
  rw [sortedSublists, Finset.length_sort, List.toFinset_card_of_nodup (List.nodup_sublistsLen k hs),
    List.length_sublistsLen]

theorem sortedSublists_zero (s : List β) : sortedSublists s 0 = [[]] := by
  rw [sortedSublists, List.sublistsLen_zero]
  simp

theorem sortedSublists_cons {a : β} {s : List β} (hs : (a :: s).Pairwise (· < ·)) (k : ℕ) :
    sortedSublists (a :: s) (k + 1) = (sortedSublists s k).map (a :: ·) ++ sortedSublists s (k + 1) := by
  have ha := (List.pairwise_cons.mp hs).1
  have hR : ((sortedSublists s k).map (a :: ·) ++ sortedSublists s (k + 1)).Pairwise (· < ·) := by
    refine List.pairwise_append.mpr ⟨List.pairwise_map.mpr ((pairwise_sortedSublists s k).imp fun h =>
      cons_lt_cons_iff.mpr (Or.inr ⟨rfl, h⟩)), pairwise_sortedSublists s (k + 1), ?_⟩
    intro x hx y hy
    obtain ⟨x', -, rfl⟩ := List.mem_map.mp hx
    obtain ⟨hys, hyk⟩ := List.mem_sublistsLen.mp (mem_sortedSublists.mp hy)
    cases y with
    | nil => exact absurd hyk (by simp)
    | cons b y' => exact cons_lt_cons_iff.mpr (Or.inl (ha b (hys.subset List.mem_cons_self)))
  refine List.Perm.eq_of_pairwise (fun _ _ _ _ h h' => le_antisymm h h')
    ((pairwise_sortedSublists _ _).imp le_of_lt) (hR.imp le_of_lt) ?_
  refine (List.perm_ext_iff_of_nodup (pairwise_sortedSublists _ _).nodup hR.nodup).mpr fun m => ?_
  rw [mem_sortedSublists, List.sublistsLen_succ_cons, List.mem_append, List.mem_append, or_comm, List.mem_map,
    List.mem_map, mem_sortedSublists]
  simp only [mem_sortedSublists]

theorem getElem?_sortedSublists : ∀ {s : List β} {k j : ℕ}, s.Pairwise (· < ·) → j < s.length.choose k →
    (sortedSublists s k)[j]? = some (unrankSublist s k j)
  | s, 0, j, _, hj => by
    obtain rfl : j = 0 := by rw [Nat.choose_zero_right] at hj; omega
    rw [sortedSublists_zero, unrankSublist]
    rfl
  | [], k + 1, j, _, hj => absurd hj (by simp)
  | a :: s, k + 1, j, hs, hj => by
    have hs' := (List.pairwise_cons.mp hs).2
    have hlen := length_sortedSublists hs'.nodup k
    rw [List.length_cons, Nat.choose_succ_succ'] at hj
    rw [sortedSublists_cons hs, unrankSublist]
    by_cases hjk : j < s.length.choose k
    · rw [if_pos hjk, List.getElem?_append_left (by rw [List.length_map, hlen]; exact hjk), List.getElem?_map,
        getElem?_sortedSublists hs' hjk, Option.map_some]
    · rw [if_neg hjk, List.getElem?_append_right (by rw [List.length_map, hlen]; omega), List.length_map, hlen,
        getElem?_sortedSublists hs' (by omega)]

end Order

end FactorProofs.Ranking
