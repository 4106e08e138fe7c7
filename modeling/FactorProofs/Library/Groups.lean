import Mathlib.Algebra.Order.Group.Nat

namespace FactorProofs.Groups

/-! Cutting a list into consecutive pieces of one length, and how the pieces
of twice that length are made of them. -/

/-- Consecutive pieces of `n`, the last one shorter when `n` does not divide
the length. -/
def groups {α : Type} (n : ℕ) (l : List α) : List (List α) :=
  if _h : 0 < n ∧ l ≠ [] then l.take n :: groups n (l.drop n) else []
termination_by l.length
decreasing_by
  have := List.length_pos_iff.mpr _h.2
  rw [List.length_drop]
  omega

section Groups

variable {α : Type} {n : ℕ}

theorem groups_nil : groups n ([] : List α) = [] := by
  rw [groups, dif_neg (by simp)]

theorem groups_append {g : List α} (hg : g.length = n) (hn : 0 < n) (l : List α) :
    groups n (g ++ l) = g :: groups n l := by
  have hne : g ++ l ≠ [] := by
    intro h
    rw [List.append_eq_nil_iff] at h
    rw [h.1, List.length_nil] at hg
    omega
  rw [groups, dif_pos ⟨hn, hne⟩, List.take_left' hg, List.drop_left' hg]

theorem groups_flatten (hn : 0 < n) (L : List (List α)) (hL : ∀ g ∈ L, g.length = n) :
    groups n L.flatten = L := by
  induction L with
  | nil => exact groups_nil
  | cons g L ih =>
    rw [List.flatten_cons, groups_append (hL g List.mem_cons_self) hn,
      ih fun h hh => hL h (List.mem_cons_of_mem g hh)]

theorem flatten_groups (hn : 0 < n) (l : List α) : (groups n l).flatten = l := by
  fun_induction groups n l with
  | case1 l h ih => rw [List.flatten_cons, ih, List.take_append_drop]
  | case2 l h =>
    have hl : l = [] := by
      by_contra hne
      exact h ⟨hn, hne⟩
    rw [hl]
    rfl

theorem length_groups (hn : 0 < n) (l : List α) : (groups n l).length = (l.length + n - 1) / n := by
  fun_induction groups n l with
  | case1 l h ih =>
    have hl := List.length_pos_iff.mpr h.2
    rw [List.length_cons, ih, List.length_drop]
    by_cases hlen : n ≤ l.length
    · rw [← Nat.add_div_right _ hn]
      congr 1
      omega
    · -- the last piece: one piece for the `l.length < n` elements left
      have hrest : (l.length - n + n - 1) / n = 0 := Nat.div_eq_of_lt (by omega)
      have hlast : (l.length + n - 1) / n = 1 := Nat.div_eq_of_lt_le (by omega) (by omega)
      rw [hrest, hlast]
  | case2 l h =>
    have hl : l = [] := by
      by_contra hne
      exact h ⟨hn, hne⟩
    have hzero : (0 + n - 1) / n = 0 := Nat.div_eq_of_lt (by omega)
    rw [hl, List.length_nil, List.length_nil, hzero]

theorem groups_map {β : Type} (f : α → β) (l : List α) : groups n (l.map f) = (groups n l).map (List.map f) := by
  fun_induction groups n l with
  | case1 l h ih =>
    rw [groups, dif_pos ⟨h.1, by simpa using h.2⟩, ← List.map_drop, ih, ← List.map_take, List.map_cons]
  | case2 l h =>
    rw [groups, dif_neg (by simpa using h), List.map_nil]

theorem length_of_mem_groups (l : List α) (hdvd : n ∣ l.length) : ∀ g ∈ groups n l, g.length = n := by
  fun_induction groups n l with
  | case1 l h ih =>
    have hle : n ≤ l.length := Nat.le_of_dvd (List.length_pos_iff.mpr h.2) hdvd
    intro g hg
    rcases List.mem_cons.mp hg with rfl | hg
    · rw [List.length_take]
      omega
    · exact ih (by rw [List.length_drop]; exact Nat.dvd_sub hdvd (Nat.dvd_refl n)) g hg
  | case2 l h => simp

theorem groups_of_length_le {l : List α} (hn : 0 < n) (hl : l ≠ []) (hle : l.length ≤ n) :
    groups n l = [l] := by
  rw [groups, dif_pos ⟨hn, hl⟩, List.take_of_length_le hle, List.drop_of_length_le hle, groups_nil]

theorem groups_flatten_of_map_length (hn : 0 < n) (l : List α) :
    ∀ L : List (List α), L.map List.length = (groups n l).map List.length → groups n L.flatten = L := by
  fun_induction groups n l with
  | case1 l h ih =>
    intro L hL
    obtain ⟨g, L', rfl, hg, hL'⟩ : ∃ g L', L = g :: L' ∧ g.length = (l.take n).length ∧
        L'.map List.length = (groups n (l.drop n)).map List.length := by
      match L, hL with
      | g :: L', hL => exact ⟨g, L', rfl, (List.cons.inj hL).1, (List.cons.inj hL).2⟩
    rw [List.flatten_cons]
    by_cases hlen : n ≤ l.length
    · rw [groups_append (by rw [hg, List.length_take]; omega) hn, ih L' hL']
    · -- the last piece: nothing is left after it
      have hrest : l.drop n = [] := List.drop_eq_nil_of_le (by omega)
      rw [hrest, groups_nil, List.map_nil, List.map_eq_nil_iff] at hL'
      subst hL'
      have hg0 : 0 < g.length := by
        rw [hg, List.length_take]
        have := List.length_pos_iff.mpr h.2
        omega
      rw [List.flatten_nil, List.append_nil,
        groups_of_length_le hn (List.length_pos_iff.mp hg0) (by rw [hg, List.length_take]; omega)]
  | case2 l h =>
    intro L hL
    rw [List.map_nil, List.map_eq_nil_iff] at hL
    rw [hL, List.flatten_nil, groups_nil]

theorem getD_groups (hn : 0 < n) (l : List α) (k : ℕ) :
    (groups n l).getD k [] = (l.drop (k * n)).take n := by
  fun_induction groups n l generalizing k with
  | case1 l h ih =>
    cases k with
    | zero => simp
    | succ k => rw [List.getD_cons_succ, ih, List.drop_drop, Nat.succ_mul, Nat.add_comm]
  | case2 l h =>
    have hl : l = [] := by
      by_contra hne
      exact h ⟨hn, hne⟩
    simp [hl]

/-- Joining the pieces of `n` two by two. -/
def appendPairs : List (List α) → List (List α)
  | a :: b :: rest => (a ++ b) :: appendPairs rest
  | L => L

theorem groups_two_mul {w : ℕ} (hw : 0 < w) (l : List α) : groups (2 * w) l = appendPairs (groups w l) := by
  by_cases hl : l = []
  · subst hl
    rw [groups_nil, groups_nil]
    rfl
  by_cases hlw : l.length ≤ w
  · rw [groups_of_length_le (by omega) hl (by omega), groups_of_length_le hw hl hlw]
    rfl
  have hne : l.drop w ≠ [] := by
    rw [← List.length_pos_iff, List.length_drop]
    omega
  have h1 : groups w l = l.take w :: groups w (l.drop w) := by rw [groups, dif_pos ⟨hw, hl⟩]
  have h2 : groups w (l.drop w) = (l.drop w).take w :: groups w ((l.drop w).drop w) := by
    rw [groups, dif_pos ⟨hw, hne⟩]
  rw [h1, h2, appendPairs, ← groups_two_mul hw ((l.drop w).drop w), groups, dif_pos ⟨by omega, hl⟩,
    Nat.two_mul, List.take_add, List.drop_drop]
termination_by l.length
decreasing_by
  rw [List.length_drop, List.length_drop]
  omega

end Groups

end FactorProofs.Groups
