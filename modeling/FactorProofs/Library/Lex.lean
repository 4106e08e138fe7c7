import Mathlib.Data.Finset.Sort
import Mathlib.Data.List.Lex
import Mathlib.Data.List.Perm.Basic
import Mathlib.Logic.Function.Iterate

namespace FactorProofs.Lex

/-! The lexicographic order on lists over a linear order. Among the
rearrangements of a list a non-increasing one is the greatest and a
non-decreasing one the least, and two prefixes of one length decide the order
before what follows them. A function that sends each element of a strictly
increasing list to the least element of the list above it walks the list in
order from its first element, and so enumerates a finite set in order from its
least element. Every rearrangement of a list is the list read at a
rearrangement of its indices, and every sublist the list read at a sublist of
them. -/

section Order

variable {α : Type*} [LinearOrder α]

theorem cons_lt_cons_iff {a b : α} {l m : List α} : a :: l < b :: m ↔ a < b ∨ a = b ∧ l < m :=
  List.cons_lex_cons_iff

theorem not_lt_nil (l : List α) : ¬l < [] := fun h => nomatch h

theorem nil_lt_cons (a : α) (l : List α) : [] < a :: l := List.Lex.nil

theorem append_lt_append_left_iff (p : List α) {x y : List α} : p ++ x < p ++ y ↔ x < y := by
  induction p with
  | nil => exact Iff.rfl
  | cons a p ih =>
    rw [List.cons_append, List.cons_append, cons_lt_cons_iff, ih]
    simp

theorem append_lt_append_of_lt {p q : List α} (hlen : p.length = q.length) (h : p < q) (x y : List α) :
    p ++ x < q ++ y := by
  induction p generalizing q with
  | nil => exact absurd h (by rw [List.length_eq_zero_iff.mp hlen.symm]; exact not_lt_nil _)
  | cons a p ih =>
    cases q with
    | nil => exact absurd hlen (by simp)
    | cons b q =>
      rw [List.cons_append, List.cons_append, cons_lt_cons_iff]
      rcases cons_lt_cons_iff.mp h with hab | ⟨rfl, hpq⟩
      · exact Or.inl hab
      · exact Or.inr ⟨rfl, ih (by simpa using hlen) hpq⟩

theorem lt_or_eq_of_append_lt {p q x y : List α} (hlen : p.length = q.length) (h : p ++ x < q ++ y) :
    p < q ∨ p = q ∧ x < y := by
  induction p generalizing q with
  | nil =>
    obtain rfl := List.length_eq_zero_iff.mp hlen.symm
    exact Or.inr ⟨rfl, h⟩
  | cons a p ih =>
    cases q with
    | nil => exact absurd hlen (by simp)
    | cons b q =>
      rw [List.cons_append, List.cons_append, cons_lt_cons_iff] at h
      rcases h with hab | ⟨rfl, hpq⟩
      · exact Or.inl (cons_lt_cons_iff.mpr (Or.inl hab))
      · rcases ih (by simpa using hlen) hpq with hlt | ⟨rfl, hxy⟩
        · exact Or.inl (cons_lt_cons_iff.mpr (Or.inr ⟨rfl, hlt⟩))
        · exact Or.inr ⟨rfl, hxy⟩

theorem le_of_perm_of_pairwise_ge {l m : List α} (hl : l.Pairwise (· ≥ ·)) (hm : m.Perm l) : m ≤ l := by
  induction l generalizing m with
  | nil => rw [List.perm_nil.mp hm]
  | cons a l ih =>
    cases m with
    | nil => exact absurd hm.symm.eq_nil (List.cons_ne_nil a l)
    | cons c m =>
      have hc : c ≤ a := by
        rcases List.mem_cons.mp (hm.subset List.mem_cons_self) with rfl | h
        · exact le_rfl
        · exact List.rel_of_pairwise_cons hl h
      rcases hc.lt_or_eq with hlt | rfl
      · exact le_of_lt (cons_lt_cons_iff.mpr (Or.inl hlt))
      · exact List.cons_le_cons _ (ih hl.of_cons hm.cons_inv)

theorem le_of_perm_of_pairwise_le {l m : List α} (hl : l.Pairwise (· ≤ ·)) (hm : m.Perm l) : l ≤ m := by
  induction l generalizing m with
  | nil => rw [List.perm_nil.mp hm]
  | cons a l ih =>
    cases m with
    | nil => exact absurd hm.symm.eq_nil (List.cons_ne_nil a l)
    | cons c m =>
      have hc : a ≤ c := by
        rcases List.mem_cons.mp (hm.subset List.mem_cons_self) with rfl | h
        · exact le_rfl
        · exact List.rel_of_pairwise_cons hl h
      rcases hc.lt_or_eq with hlt | rfl
      · exact le_of_lt (cons_lt_cons_iff.mpr (Or.inl hlt))
      · exact List.cons_le_cons _ (ih hl.of_cons hm.cons_inv)

theorem append_le_append_left {p x y : List α} (h : x ≤ y) : p ++ x ≤ p ++ y := by
  rcases h.lt_or_eq with hlt | rfl
  · exact le_of_lt ((append_lt_append_left_iff p).mpr hlt)
  · exact le_rfl

theorem lt_of_take_eq_of_getElem_lt {l m : List α} {j : ℕ} (hl : j < l.length) (hm : j < m.length)
    (heq : l.take j = m.take j) (hlt : l[j] < m[j]) : l < m := by
  have hl' : l = l.take j ++ l[j] :: l.drop (j + 1) := by rw [List.getElem_cons_drop, List.take_append_drop]
  have hm' : m = m.take j ++ m[j] :: m.drop (j + 1) := by rw [List.getElem_cons_drop, List.take_append_drop]
  rw [hl', hm', heq]
  exact (append_lt_append_left_iff _).mpr (cons_lt_cons_iff.mpr (Or.inl hlt))

theorem exists_take_eq_of_lt {l m : List α} (hlen : l.length = m.length) (h : l < m) :
    ∃ j, ∃ hl : j < l.length, ∃ hm : j < m.length, l.take j = m.take j ∧ l[j] < m[j] := by
  induction l generalizing m with
  | nil =>
    obtain rfl := List.length_eq_zero_iff.mp hlen.symm
    exact absurd h (not_lt_nil _)
  | cons a l ih =>
    cases m with
    | nil => exact absurd hlen (by simp)
    | cons b m =>
      rcases cons_lt_cons_iff.mp h with hab | ⟨rfl, hlm⟩
      · exact ⟨0, by simp, by simp, rfl, hab⟩
      · obtain ⟨j, hl, hm, heq, hlt⟩ := ih (by simpa using hlen) hlm
        exact ⟨j + 1, by simpa using hl, by simpa using hm, by simp [heq], hlt⟩

omit [LinearOrder α] in
theorem getElem_eq_of_take_eq {l m : List α} {j t : ℕ} (h : l.take j = m.take j) (htj : t < j)
    (hl : t < l.length) (hm : t < m.length) : l[t] = m[t] := by
  have hget := congrArg (fun l : List α => l[t]?) h
  simp only [List.getElem?_take, if_pos htj, List.getElem?_eq_getElem hl, List.getElem?_eq_getElem hm,
    Option.some_inj] at hget
  exact hget

theorem le_of_lt_of_agree {x r y : List α} {j : ℕ} (hlen : y.length = x.length) (hjx : j < x.length)
    (hjr : j < r.length) (htake : r.take j = x.take j)
    (hafter : ∀ t (h1 : t < x.length) (h2 : t < y.length), j < t → y[t] ≤ x[t])
    (hat : x.take j = y.take j → ∀ hjy : j < y.length, x[j] < y[j] → r ≤ y) (hxy : x < y) : r ≤ y := by
  obtain ⟨p, hpx, hpy, hpre, hlt⟩ := exists_take_eq_of_lt hlen.symm hxy
  rcases lt_trichotomy p j with hpj | rfl | hjp
  · -- y leaves x before j, where r still follows x
    have hrp : r.take p = x.take p := by
      rw [← Nat.min_eq_left hpj.le, ← List.take_take, htake, List.take_take]
    have hget : r[p] = x[p] := getElem_eq_of_take_eq htake hpj (by omega) hpx
    exact le_of_lt (lt_of_take_eq_of_getElem_lt (by omega) hpy (hrp.trans hpre) (hget ▸ hlt))
  · exact hat hpre hpy hlt
  · exact absurd (hafter p hpx hpy hjp) (not_le_of_gt hlt)

theorem le_of_forall_getElem_le {l m : List α} (hlen : l.length = m.length)
    (h : ∀ i (hl : i < l.length) (hm : i < m.length), l[i] ≤ m[i]) : l ≤ m := by
  induction l generalizing m with
  | nil =>
    obtain rfl := List.length_eq_zero_iff.mp hlen.symm
    exact le_rfl
  | cons a l ih =>
    cases m with
    | nil => exact absurd hlen (by simp)
    | cons b m =>
      have hlen' : l.length = m.length := by simpa using hlen
      rcases (h 0 (by simp) (by simp)).lt_or_eq with hab | hab
      · exact le_of_lt (cons_lt_cons_iff.mpr (Or.inl hab))
      · have hab' : a = b := hab
        subst hab'
        exact List.cons_le_cons _ (ih hlen' fun i hl hm => h (i + 1) (by simpa using hl) (by simpa using hm))

end Order

theorem cons_set_perm {γ : Type*} (l : List γ) (a : γ) {t : ℕ} (ht : t < l.length) :
    (l[t] :: l.set t a).Perm (a :: l) := by
  have hl : l = l.take t ++ l[t] :: l.drop (t + 1) := by
    rw [List.getElem_cons_drop, List.take_append_drop]
  have hset : l.set t a = l.take t ++ a :: l.drop (t + 1) := by
    rw [List.set_eq_take_append_cons_drop, if_pos ht]
  rw [hset]
  conv_rhs => rw [hl]
  exact (List.perm_middle.cons _).trans ((List.Perm.swap _ _ _).trans (List.perm_middle.symm.cons _))

section Indices

variable {γ : Type*}

theorem filterMap_getElem?_range (l : List γ) : (List.range l.length).filterMap (l[·]?) = l := by
  induction l with
  | nil => rfl
  | cons a l ih =>
    rw [List.length_cons, List.range_succ_eq_map, List.filterMap_cons, List.getElem?_cons_zero,
      List.filterMap_map]
    exact congrArg (a :: ·) ih

theorem getElem?_filterMap_getElem? {σ : List ℕ} {l : List γ} (hσ : ∀ j ∈ σ, j < l.length) (i : ℕ) :
    (σ.filterMap (l[·]?))[i]? = σ[i]?.bind (l[·]?) := by
  induction σ generalizing i with
  | nil => rfl
  | cons j σ ih =>
    have hjl : j < l.length := hσ j List.mem_cons_self
    have hj : l[j]? = some l[j] := List.getElem?_eq_getElem hjl
    rw [List.filterMap_cons, hj]
    cases i with
    | zero => simp [hj]
    | succ i => simpa using ih (fun k hk => hσ k (List.mem_cons_of_mem _ hk)) i

theorem length_filterMap_getElem? {σ : List ℕ} {l : List γ} (hσ : ∀ j ∈ σ, j < l.length) :
    (σ.filterMap (l[·]?)).length = σ.length := by
  induction σ with
  | nil => rfl
  | cons j σ ih =>
    have hjl : j < l.length := hσ j List.mem_cons_self
    rw [List.filterMap_cons, List.getElem?_eq_getElem hjl, List.length_cons, List.length_cons,
      ih fun k hk => hσ k (List.mem_cons_of_mem _ hk)]

theorem exists_perm_range_of_perm {m l : List γ} (h : m.Perm l) :
    ∃ σ : List ℕ, σ.Perm (List.range l.length) ∧ σ.filterMap (l[·]?) = m := by
  induction h with
  | nil => exact ⟨[], List.Perm.refl _, rfl⟩
  | cons x _ ih =>
    obtain ⟨σ, hσ, hm⟩ := ih
    refine ⟨0 :: σ.map Nat.succ, ?_, ?_⟩
    · rw [List.length_cons, List.range_succ_eq_map]
      exact (hσ.map _).cons 0
    · rw [List.filterMap_cons, List.getElem?_cons_zero, List.filterMap_map]
      exact congrArg (x :: ·) hm
  | swap x y l =>
    refine ⟨1 :: 0 :: (List.range l.length).map (· + 2), ?_, ?_⟩
    · rw [List.length_cons, List.length_cons, List.range_succ_eq_map, List.range_succ_eq_map, List.map_cons,
        List.map_map]
      exact List.Perm.swap _ _ _
    · rw [List.filterMap_cons, List.getElem?_cons_succ, List.getElem?_cons_zero, List.filterMap_cons,
        List.getElem?_cons_zero, List.filterMap_map]
      exact congrArg (fun r => y :: x :: r) (filterMap_getElem?_range l)
  | @trans l1 l2 l3 _ h23 ih1 ih2 =>
    obtain ⟨σ1, h1, hm1⟩ := ih1
    obtain ⟨σ2, h2, hm2⟩ := ih2
    have hlen : l2.length = σ2.length := by rw [h23.length_eq, h2.length_eq, List.length_range]
    have hin : ∀ j ∈ σ2, j < l3.length := fun j hj => List.mem_range.mp (h2.subset hj)
    refine ⟨σ1.filterMap (σ2[·]?), ?_, ?_⟩
    · have hread := (h1.filterMap (σ2[·]?)).trans (by rw [hlen, filterMap_getElem?_range])
      exact hread.trans h2
    · rw [List.filterMap_filterMap, ← hm1, ← hm2]
      congr 1
      funext i
      exact (getElem?_filterMap_getElem? hin i).symm

theorem exists_sublist_range_of_sublist {m l : List γ} (h : m.Sublist l) :
    ∃ σ : List ℕ, σ.Sublist (List.range l.length) ∧ σ.filterMap (l[·]?) = m := by
  induction h with
  | slnil => exact ⟨[], List.Sublist.slnil, rfl⟩
  | cons x _ ih =>
    obtain ⟨σ, hσ, hm⟩ := ih
    refine ⟨σ.map Nat.succ, ?_, ?_⟩
    · rw [List.length_cons, List.range_succ_eq_map]
      exact (hσ.map _).cons 0
    · rw [List.filterMap_map]
      exact hm
  | cons_cons x _ ih =>
    obtain ⟨σ, hσ, hm⟩ := ih
    refine ⟨0 :: σ.map Nat.succ, ?_, ?_⟩
    · rw [List.length_cons, List.range_succ_eq_map]
      exact (hσ.map _).cons_cons 0
    · rw [List.filterMap_cons, List.getElem?_cons_zero, List.filterMap_map]
      exact congrArg (x :: ·) hm

theorem pair_sublist {l : List γ} {i j : ℕ} (hij : i < j) (hj : j < l.length) : [l[i], l[j]].Sublist l := by
  have h1 : l[i] ∈ l.take (i + 1) :=
    List.mem_iff_getElem.mpr ⟨i, by rw [List.length_take]; omega, List.getElem_take⟩
  have h2 : l[j] ∈ l.drop (i + 1) :=
    List.mem_iff_getElem.mpr ⟨j - (i + 1), by rw [List.length_drop]; omega, by
      rw [List.getElem_drop]
      congr 1
      omega⟩
  have hsub := (List.singleton_sublist.mpr h1).append (List.singleton_sublist.mpr h2)
  rwa [List.take_append_drop] at hsub

end Indices

section Walk

variable {β : Type*} [LinearOrder β]

theorem le_of_getElem_le {L : List β} (hL : L.Pairwise (· < ·)) {i j : ℕ} (hi : i < L.length)
    (hj : j < L.length) (h : L[i] ≤ L[j]) : i ≤ j := by
  by_contra hji
  exact absurd (List.pairwise_iff_getElem.mp hL j i hj hi (not_le.mp hji)) (not_lt.mpr h)

theorem getElem_le_getElem {L : List β} (hL : L.Pairwise (· < ·)) {i j : ℕ} (hi : i < L.length)
    (hj : j < L.length) (h : i ≤ j) : L[i] ≤ L[j] := by
  rcases h.lt_or_eq with hlt | rfl
  · exact le_of_lt (List.pairwise_iff_getElem.mp hL i j hi hj hlt)
  · exact le_rfl

theorem lt_of_getElem_lt {L : List β} (hL : L.Pairwise (· < ·)) {i j : ℕ} (hi : i < L.length)
    (hj : j < L.length) (h : L[i] < L[j]) : i < j := by
  rcases (le_of_getElem_le hL hi hj h.le).lt_or_eq with hlt | rfl
  · exact hlt
  · exact absurd h (lt_irrefl _)

theorem iterate_eq_getElem {L : List β} (hL : L.Pairwise (· < ·)) (f : β → β)
    (hf : ∀ x ∈ L, ∀ y ∈ L, x < y → f x ∈ L ∧ x < f x ∧ f x ≤ y) {x : β} (hx : L.head? = some x) :
    ∀ k (hk : k < L.length), f^[k] x = L[k] := by
  intro k
  induction k with
  | zero =>
    intro hk
    rw [List.head?_eq_getElem?, List.getElem?_eq_getElem hk, Option.some.injEq] at hx
    exact hx.symm
  | succ k ih =>
    intro hk
    have hlt : L[k] < L[k + 1] := List.pairwise_iff_getElem.mp hL k (k + 1) (by omega) hk (by omega)
    obtain ⟨hmem, hgt, hle⟩ := hf L[k] (List.getElem_mem _) L[k + 1] (List.getElem_mem _) hlt
    obtain ⟨j, hj, hfj⟩ := List.getElem_of_mem hmem
    have hkj : k < j := lt_of_getElem_lt hL (by omega) hj (hfj ▸ hgt)
    have hjk : j ≤ k + 1 := le_of_getElem_le hL hj hk (hfj ▸ hle)
    rw [Function.iterate_succ_apply', ih (by omega), ← hfj]
    congr 1
    omega

theorem pairwise_lt_sort (S : Finset β) : (S.sort (· ≤ ·)).Pairwise (· < ·) :=
  ((Finset.pairwise_sort S _).and (Finset.sort_nodup S _)).imp fun h => lt_of_le_of_ne h.1 h.2

theorem map_iterate_eq_sort {S : Finset β} (f : β → β)
    (hf : ∀ x ∈ S, ∀ y ∈ S, x < y → f x ∈ S ∧ x < f x ∧ f x ≤ y) {x : β} (hx : x ∈ S)
    (hmin : ∀ y ∈ S, x ≤ y) : (List.range S.card).map (fun k => f^[k] x) = S.sort (· ≤ ·) := by
  have hL := pairwise_lt_sort S
  have hlen : (S.sort (· ≤ ·)).length = S.card := Finset.length_sort _
  have hmem : ∀ y, y ∈ S.sort (· ≤ ·) ↔ y ∈ S := fun y => Finset.mem_sort _
  have hhead : (S.sort (· ≤ ·)).head? = some x := by
    obtain ⟨i, hi, hxi⟩ := List.getElem_of_mem ((hmem x).mpr hx)
    have h0 : 0 < (S.sort (· ≤ ·)).length := by omega
    have hle : (S.sort (· ≤ ·))[0] ≤ x := by
      rw [← hxi]
      exact getElem_le_getElem hL h0 hi (Nat.zero_le i)
    rw [List.head?_eq_getElem?, List.getElem?_eq_getElem h0,
      le_antisymm hle (hmin _ ((hmem _).mp (List.getElem_mem h0)))]
  have hf' : ∀ x ∈ S.sort (· ≤ ·), ∀ y ∈ S.sort (· ≤ ·), x < y → f x ∈ S.sort (· ≤ ·) ∧ x < f x ∧ f x ≤ y :=
    fun x hx y hy hxy => by
      obtain ⟨hfx, hlt, hle⟩ := hf x ((hmem x).mp hx) y ((hmem y).mp hy) hxy
      exact ⟨(hmem _).mpr hfx, hlt, hle⟩
  refine List.ext_getElem (by rw [List.length_map, List.length_range, hlen]) fun k h1 h2 => ?_
  rw [List.getElem_map, List.getElem_range]
  exact iterate_eq_getElem hL f hf' hhead k h2

theorem getElem_add_le_getElem {l : List ℕ} (hc : l.Pairwise (· < ·)) {i j : ℕ} (hi : i < l.length)
    (hj : j < l.length) (hij : i ≤ j) : l[i] + (j - i) ≤ l[j] := by
  induction j with
  | zero =>
    obtain rfl : i = 0 := by omega
    simp
  | succ j ih =>
    rcases Nat.lt_or_ge i (j + 1) with h | h
    · have h1 := ih (by omega) (by omega)
      have h2 : l[j] < l[j + 1] := List.pairwise_iff_getElem.mp hc j (j + 1) (by omega) hj (by omega)
      omega
    · obtain rfl : i = j + 1 := by omega
      simp

end Walk

end FactorProofs.Lex
