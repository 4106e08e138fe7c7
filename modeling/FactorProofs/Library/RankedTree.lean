import Mathlib.Logic.Function.Basic
import Mathlib.Order.Basic

namespace FactorProofs.RankedTree

/-! Trees given by a partial parent map whose root is its own parent and in
which every other vertex has a parent ranked below it: the ancestors of a
vertex form a chain, and moving one parent pointer changes only the chains
that pass through the moved vertex. -/

variable {α : Type} (parent : α → Option α)

/-- `Anc x y`: `y` is `x` or an ancestor of it. -/
inductive Anc : α → α → Prop
  | refl (x : α) : Anc x x
  | up {x y z : α} : parent x = some y → Anc y z → Anc x z

structure Ranked (rank : α → ℕ) (root : α) : Prop where
  root_parent : parent root = some root
  rank_lt : ∀ x y, parent x = some y → x ≠ root → rank y < rank x
  closed : ∀ x y, parent x = some y → (parent y).isSome

variable {parent}

theorem Anc.of_parent {x y : α} (h : parent x = some y) : Anc parent x y := .up h (.refl y)

theorem Anc.trans {x y z : α} (hxy : Anc parent x y) (hyz : Anc parent y z) : Anc parent x z := by
  induction hxy with
  | refl => exact hyz
  | up h _ ih => exact .up h (ih hyz)

theorem Anc.exists_parent {x z : α} (h : Anc parent x z) (hne : x ≠ z) :
    ∃ y, parent x = some y ∧ Anc parent y z := by
  cases h with
  | refl => exact absurd rfl hne
  | up h hyz => exact ⟨_, h, hyz⟩

theorem Anc.total {x y z : α} (hxy : Anc parent x y) (hxz : Anc parent x z) :
    Anc parent y z ∨ Anc parent z y := by
  induction hxy generalizing z with
  | refl => exact .inl hxz
  | @up x w y hw _ ih =>
    cases hxz with
    | refl => exact .inr (.up hw ‹_›)
    | up hw' hz =>
      rw [hw] at hw'
      cases hw'
      exact ih hz

theorem Anc.exists_child {y b : α} (h : Anc parent y b) (hne : y ≠ b) :
    ∃ c, c ≠ b ∧ parent c = some b ∧ Anc parent y c := by
  induction h with
  | refl => exact absurd rfl hne
  | @up x w b hw _ ih =>
    by_cases hwb : w = b
    · subst hwb
      exact ⟨x, hne, hw, .refl x⟩
    · obtain ⟨c, hcb, hc, hwc⟩ := ih hwb
      exact ⟨c, hcb, hc, .up hw hwc⟩

section Ranked

variable {rank : α → ℕ} {root : α} (hR : Ranked parent rank root)
include hR

theorem Anc.rank_le {x y : α} (h : Anc parent x y) : rank y ≤ rank x := by
  induction h with
  | refl => exact Nat.le_refl _
  | @up x w y hw _ ih =>
    by_cases hx : x = root
    · subst hx
      rw [hR.root_parent] at hw
      cases hw
      exact ih
    · have := hR.rank_lt x w hw hx
      omega

theorem Anc.rank_lt {x y : α} (h : Anc parent x y) (hne : x ≠ y) : rank y < rank x := by
  induction h with
  | refl => exact absurd rfl hne
  | @up x w y hw hwy ih =>
    by_cases hx : x = root
    · subst hx
      rw [hR.root_parent] at hw
      cases hw
      exact ih hne
    · have := hwy.rank_le hR
      have := hR.rank_lt x w hw hx
      omega

theorem Anc.antisymm {x y : α} (hxy : Anc parent x y) (hyx : Anc parent y x) : x = y := by
  by_contra hne
  have := hyx.rank_le hR
  have := hxy.rank_lt hR hne
  omega

theorem Anc.eq_root {x y : α} (h : Anc parent x y) (hx : x = root) : y = root := by
  induction h with
  | refl => exact hx
  | up hw _ ih =>
    subst hx
    rw [hR.root_parent] at hw
    exact ih (Option.some.inj hw).symm

theorem parent_eq_of_anc_iff {b o i : α} (hb : b ≠ root) (ho : parent b = some o)
    (hi : ∀ z, Anc parent b z ↔ z = b ∨ Anc parent i z) (hib : ¬ Anc parent i b) : o = i := by
  have hob : o ≠ b := by
    intro h
    have := hR.rank_lt b o ho hb
    rw [h] at this
    omega
  have hio : Anc parent i o := ((hi o).mp (.of_parent ho)).resolve_left hob
  have hbi : Anc parent b i := (hi i).mpr (.inr (.refl i))
  have hib' : b ≠ i := fun h => hib (h ▸ .refl b)
  obtain ⟨o', ho', hoi⟩ := hbi.exists_parent hib'
  rw [ho] at ho'
  cases ho'
  exact hoi.antisymm hR hio

theorem not_anc_of_siblings {b c c' : α} (hc : parent c = some b) (hc' : parent c' = some b) (hc'b : c' ≠ b)
    (hne : c ≠ c') : ¬ Anc parent c c' := by
  intro h
  obtain ⟨w, hw, hbc'⟩ := h.exists_parent hne
  rw [hc] at hw
  cases hw
  have hc'r : c' ≠ root := by
    intro hr
    rw [hr, hR.root_parent] at hc'
    exact hc'b (hr.trans (Option.some.inj hc'))
  have := hbc'.rank_le hR
  have := hR.rank_lt c' b hc' hc'r
  omega

theorem not_anc_of_sibling_subtrees {b c c' y z : α} (hc : parent c = some b) (hc' : parent c' = some b)
    (hcb : c ≠ b) (hc'b : c' ≠ b) (hne : c ≠ c') (hy : Anc parent y c) (hz : Anc parent z c') :
    ¬ Anc parent z y := by
  intro hzy
  rcases (hzy.trans hy).total hz with h | h
  · exact not_anc_of_siblings hR hc hc' hc'b hne h
  · exact not_anc_of_siblings hR hc' hc hcb (Ne.symm hne) h

theorem isSome_of_anc {x y : α} (hx : (parent x).isSome) (h : Anc parent x y) : (parent y).isSome := by
  induction h with
  | refl => exact hx
  | up hw _ ih => exact ih (hR.closed _ _ hw)

theorem anc_root {x : α} (hx : (parent x).isSome) : Anc parent x root := by
  suffices ∀ n x, rank x < n → (parent x).isSome → Anc parent x root from this _ x (Nat.lt_succ_self _) hx
  intro n
  induction n with
  | zero => intro x h; omega
  | succ n ih =>
    intro x hn hx
    by_cases hxr : x = root
    · rw [hxr]
      exact .refl root
    obtain ⟨y, hy⟩ := Option.isSome_iff_exists.mp hx
    have := hR.rank_lt x y hy hxr
    exact .up hy (ih y (by omega) (hR.closed x y hy))

end Ranked

section Update

variable [DecidableEq α] {b i : α}

theorem anc_update_iff_of_not_anc {x z : α} (hxb : ¬ Anc parent x b) :
    Anc (Function.update parent b (some i)) x z ↔ Anc parent x z := by
  constructor
  · intro h
    induction h with
    | refl => exact .refl _
    | @up x w z hw _ ih =>
      have hx : x ≠ b := by rintro rfl; exact hxb (.refl x)
      rw [Function.update_of_ne hx] at hw
      exact .up hw (ih fun h => hxb (.up hw h))
  · intro h
    induction h with
    | refl => exact .refl _
    | @up x w z hw _ ih =>
      have hx : x ≠ b := by rintro rfl; exact hxb (.refl x)
      exact .up (by rwa [Function.update_of_ne hx]) (ih fun h => hxb (.up hw h))

theorem anc_update_cases {y z : α} (h : Anc (Function.update parent b (some i)) y z) :
    Anc parent y z ∨ (Anc parent y b ∧ Anc (Function.update parent b (some i)) b z) := by
  induction h with
  | refl => exact .inl (.refl _)
  | @up x w z hw hwz ih =>
    by_cases hx : x = b
    · subst hx
      exact .inr ⟨.refl _, .up hw hwz⟩
    · rw [Function.update_of_ne hx] at hw
      rcases ih with ih | ⟨hwb, hbz⟩
      · exact .inl (.up hw ih)
      · exact .inr ⟨.up hw hwb, hbz⟩

theorem anc_update_self_iff {z : α} (hib : ¬ Anc parent i b) :
    Anc (Function.update parent b (some i)) b z ↔ z = b ∨ Anc parent i z := by
  constructor
  · intro h
    cases h with
    | refl => exact .inl rfl
    | up hw hwz =>
      rw [Function.update_self, Option.some.injEq] at hw
      subst hw
      exact .inr ((anc_update_iff_of_not_anc hib).mp hwz)
  · rintro (rfl | h)
    · exact .refl _
    · exact .up (Function.update_self b (some i) parent) ((anc_update_iff_of_not_anc hib).mpr h)

section Ranked

variable {rank : α → ℕ} {root : α} (hR : Ranked parent rank root)
include hR

theorem anc_update_of_anc {y d : α} (hyd : Anc parent y d) (hdb : Anc parent d b) :
    Anc (Function.update parent b (some i)) y d := by
  induction hyd with
  | refl => exact .refl _
  | @up x w d hw hwd ih =>
    by_cases hx : x = b
    · subst hx
      have hxd : x = d := (Anc.up hw hwd).antisymm hR hdb
      exact hxd ▸ .refl x
    · exact .up (by rwa [Function.update_of_ne hx]) (ih hdb)

theorem Ranked.update (hb : b ≠ root) (hi : (parent i).isSome) (hrank : rank i < rank b) :
    Ranked (Function.update parent b (some i)) rank root where
  root_parent := by rw [Function.update_of_ne hb.symm]; exact hR.root_parent
  rank_lt x y hxy hx := by
    by_cases hxb : x = b
    · subst hxb
      rw [Function.update_self, Option.some.injEq] at hxy
      exact hxy ▸ hrank
    · rw [Function.update_of_ne hxb] at hxy
      exact hR.rank_lt x y hxy hx
  closed x y hxy := by
    have hy : (parent y).isSome := by
      by_cases hxb : x = b
      · subst hxb
        rw [Function.update_self, Option.some.injEq] at hxy
        exact hxy ▸ hi
      · rw [Function.update_of_ne hxb] at hxy
        exact hR.closed x y hxy
    by_cases hyb : y = b
    · rw [hyb, Function.update_self]; rfl
    · rwa [Function.update_of_ne hyb]

end Ranked

end Update

end FactorProofs.RankedTree
