import Mathlib.Data.List.Sort
import Mathlib.Data.List.FinRange
import Mathlib.Data.List.ReduceOption

namespace FactorProofs.Containers

variable {ι α β : Type*}

section Lists

theorem getD_set (l : List α) (i : Nat) (x d : α) (j : Nat) :
    (l.set i x).getD j d = if i = j ∧ j < l.length then x else l.getD j d := by
  simp only [List.getD_eq_getElem?_getD, List.getElem?_set]
  by_cases hij : i = j
  · subst hij
    by_cases hi : i < l.length <;> simp [hi]
  · simp [hij]

theorem perm_set_set_getD {l : List α} {i j : Nat} (hi : i < l.length) (hj : j < l.length) (hij : i ≠ j)
    (x d : α) : ((l.set i (l.getD j d)).set j x).Perm (l.set i x) := by
  have hi' : i < (l.set i x).length := by rw [List.length_set]; exact hi
  have hj' : j < (l.set i x).length := by rw [List.length_set]; exact hj
  have hswap := List.set_set_perm hi' hj'
  rw [List.set_set, List.getElem_set_ne hij, List.getElem_set_self] at hswap
  rwa [List.getD_eq_getElem?_getD, List.getElem?_eq_getElem hj, Option.getD_some]

theorem set_perm_erase [DecidableEq α] {l : List α} (hl : l.Nodup) {n : Nat} (hn : n < l.length) (x : α) :
    (l.set n x).Perm ((l ++ [x]).erase l[n]) := by
  rw [List.erase_append_left _ (List.getElem_mem hn), hl.erase_getElem n hn, List.set_eq_take_append_cons_drop,
    if_pos hn, List.eraseIdx_eq_take_drop_succ]
  exact List.perm_middle.trans (List.perm_append_singleton _ _).symm

theorem foldl_append_map (f : α → List β) (l : List α) (acc : List β) :
    l.foldl (fun acc a => acc ++ f a) acc = acc ++ (l.map f).flatten := by
  induction l generalizing acc with
  | nil => rw [List.foldl_nil, List.map_nil, List.flatten_nil, List.append_nil]
  | cons a l ih => rw [List.foldl_cons, ih, List.map_cons, List.flatten_cons, List.append_assoc]

theorem map_range_getD (f : α → β) (l : List α) (d : α) :
    (List.range l.length).map (fun i => f (l.getD i d)) = l.map f := by
  apply List.ext_getElem (by simp)
  intro i h₁ h₂
  have hi : i < l.length := by simpa using h₂
  simp [List.getD_eq_getElem?_getD, List.getElem?_eq_getElem hi]

theorem isSome_lookup_iff {κ : Type*} [DecidableEq κ] (l : List (κ × α)) (k : κ) :
    (l.lookup k).isSome ↔ k ∈ l.map Prod.fst := by
  induction l with
  | nil => simp
  | cons p l ih =>
    obtain ⟨k', a⟩ := p
    by_cases hk : k = k'
    · subst hk
      simp
    · rw [List.lookup_cons, beq_eq_false_iff_ne.mpr hk]
      simp only [ih, List.map_cons, List.mem_cons, hk, false_or]

theorem lookup_eq_some_iff_mem {κ : Type*} [DecidableEq κ] {l : List (κ × α)} (hl : (l.map Prod.fst).Nodup)
    (k : κ) (a : α) : l.lookup k = some a ↔ (k, a) ∈ l := by
  induction l with
  | nil => simp
  | cons p l ih =>
    obtain ⟨k', a'⟩ := p
    rw [List.map_cons, List.nodup_cons] at hl
    by_cases hk : k = k'
    · subst hk
      have hnot : (k, a) ∉ l := fun h => hl.1 (List.mem_map.mpr ⟨(k, a), h, rfl⟩)
      simp [hnot, eq_comm]
    · rw [List.lookup_cons, beq_eq_false_iff_ne.mpr hk]
      simp only [ih hl.2, List.mem_cons, Prod.mk.injEq, hk, false_and, false_or]

theorem reduceOption_map_some (l : List α) : (l.map some).reduceOption = l := by
  induction l with
  | nil => exact List.reduceOption_nil
  | cons a l ih => rw [List.map_cons, List.reduceOption_cons_of_some, ih]

theorem idxOf_reverse [DecidableEq α] {l : List α} (hl : l.Nodup) {x : α} (hx : x ∈ l) :
    l.reverse.idxOf x = l.length - 1 - l.idxOf x := by
  induction l with
  | nil => simp at hx
  | cons a l ih =>
    obtain ⟨ha, hl⟩ := List.nodup_cons.mp hl
    rw [List.reverse_cons, List.length_cons]
    by_cases hxa : x = a
    · subst hxa
      rw [List.idxOf_append_of_notMem (by simpa using ha), List.idxOf_cons_self, List.idxOf_cons_self,
        List.length_reverse]
      omega
    · have hxl : x ∈ l := (List.mem_cons.mp hx).resolve_left hxa
      rw [List.idxOf_append_of_mem (List.mem_reverse.mpr hxl), ih hl hxl, List.idxOf_cons_ne _ (Ne.symm hxa)]
      have := List.idxOf_lt_length_of_mem hxl
      omega

theorem mem_of_idxOf_lt_idxOf [DecidableEq α] {A B : List α} {b p : α} (hb : b ∉ A)
    (h : (A ++ b :: B).idxOf p < (A ++ b :: B).idxOf b) : p ∈ A := by
  by_contra hp
  rw [List.idxOf_append_of_notMem hp, List.idxOf_append_of_notMem hb, List.idxOf_cons_self] at h
  omega

end Lists

section Maps

variable {κ : Type*} [DecidableEq κ] (key : α → κ)

theorem foldl_update_apply (l : List α) (hl : (l.map key).Nodup) (g : κ → Option α) (k : κ) :
    l.foldl (fun f a => Function.update f (key a) (some a)) g k = (l.find? fun a => key a = k).or (g k) := by
  induction l generalizing g with
  | nil => rfl
  | cons a l ih =>
    obtain ⟨ha, hl⟩ := List.nodup_cons.mp hl
    rw [List.foldl_cons, ih hl, List.find?_cons]
    by_cases hk : key a = k
    · -- `a` is the only element with this key
      have hnone : l.find? (fun b => key b = k) = none :=
        List.find?_eq_none.mpr fun b hb hbk => ha (hk ▸ List.mem_map.mpr ⟨b, hb, of_decide_eq_true hbk⟩)
      subst hk
      simp [hnone]
    · simp [hk, Function.update_of_ne (Ne.symm hk)]

end Maps

section Arrays

theorem foldl_set_succ (g : α → β) (l : List α) (pre rest : List β) (hl : l.length ≤ rest.length) :
    (l.foldl (fun acc a => (acc.1.set acc.2 (g a), acc.2 + 1)) (pre ++ rest, pre.length)).1 =
      pre ++ l.map g ++ rest.drop l.length := by
  induction l generalizing pre rest with
  | nil => simp
  | cons a l ih =>
    obtain ⟨r, rest, rfl⟩ : ∃ r rest', rest = r :: rest' :=
      List.exists_cons_of_length_pos (by simp at hl; omega)
    have hset : (pre ++ r :: rest).set pre.length (g a) = (pre ++ [g a]) ++ rest := by
      rw [List.set_append_right _ _ (Nat.le_refl _), Nat.sub_self, List.set_cons_zero]
      simp
    have hlen : pre.length + 1 = (pre ++ [g a]).length := by simp
    rw [List.foldl_cons, hset, hlen, ih _ _ (by simp at hl; omega)]
    simp

end Arrays

section Buckets

variable [DecidableEq ι] (f : ι → List α)

theorem flatMap_update_of_not_mem {l : List ι} {i : ι} (hi : i ∉ l) (x : List α) :
    l.flatMap (Function.update f i x) = l.flatMap f := by
  induction l with
  | nil => rfl
  | cons j l ih =>
    rw [List.flatMap_cons, List.flatMap_cons, ih (fun h => hi (List.mem_cons_of_mem _ h)),
      Function.update_of_ne (by rintro rfl; exact hi List.mem_cons_self)]

theorem flatMap_update_cons_perm {l : List ι} (hl : l.Nodup) {i : ι} (hi : i ∈ l) (a : α) :
    (l.flatMap (Function.update f i (a :: f i))).Perm (a :: l.flatMap f) := by
  induction l with
  | nil => simp at hi
  | cons j l ih =>
    obtain ⟨hj, hl⟩ := List.nodup_cons.mp hl
    rw [List.flatMap_cons, List.flatMap_cons]
    by_cases hji : j = i
    · subst hji
      rw [Function.update_self, flatMap_update_of_not_mem f hj]
      rfl
    · rw [Function.update_of_ne hji]
      have hi' : i ∈ l := (List.mem_cons.mp hi).resolve_left (Ne.symm hji)
      exact ((ih hl hi').append_left (f j)).trans List.perm_middle

theorem flatMap_perm_cons_of_eq_cons {l : List ι} (hl : l.Nodup) {i : ι} (hi : i ∈ l) {a : α}
    {rest : List α} (hf : f i = a :: rest) :
    (l.flatMap f).Perm (a :: l.flatMap (Function.update f i rest)) := by
  have h := flatMap_update_cons_perm (Function.update f i rest) hl hi a
  rwa [Function.update_self, Function.update_idem, ← hf, Function.update_eq_self] at h

end Buckets

section Ordered

variable [LinearOrder β] (key : α → β)

theorem pairwise_orderedInsert_lt (a : α) {l : List α}
    (h : l.Pairwise fun x y => key x ≤ key y) :
    (l.orderedInsert (fun x y => key x < key y) a).Pairwise fun x y => key x ≤ key y := by
  induction l with
  | nil => exact List.pairwise_singleton _ a
  | cons b l ih =>
    obtain ⟨hb, hl⟩ := List.pairwise_cons.mp h
    rw [List.orderedInsert_cons]
    split
    · rename_i hab
      refine List.pairwise_cons.mpr ⟨?_, h⟩
      intro c hc
      rcases List.mem_cons.mp hc with rfl | hc
      · exact le_of_lt hab
      · exact le_trans (le_of_lt hab) (hb c hc)
    · rename_i hab
      refine List.pairwise_cons.mpr ⟨?_, ih hl⟩
      intro c hc
      rcases List.mem_cons.mp ((List.perm_orderedInsert _ a l).subset hc) with rfl | hc
      · exact le_of_not_gt hab
      · exact hb c hc

end Ordered

end FactorProofs.Containers
