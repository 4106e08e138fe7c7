import Mathlib.Data.List.Basic

namespace FactorProofs.Core.BinarySearch

/-! `binary-search`: `(search)` halves a range `[from, to)` of a sequence by
the comparison `quot` gives at its midpoint, and returns a midpoint once the
range has one element or the comparison says `+eq+`. -/

variable {α : Type} [Inhabited α]

/-- `(search)` over `[from', to')`; `quot` tells how the key compares with an
element (`+lt+`: the key is below it). `fuel` bounds the halvings: each
shrinks the range, so `to' - from'` is enough. -/
def searchFrom (seq : List α) (quot : α → Ordering) (fuel from' to' : Nat) : Nat × α :=
  let midpoint := (from' + to') / 2
  let elt := seq.getD midpoint default
  if to' - from' ≤ 1 then (midpoint, elt)
  else
    match fuel with
    | 0 => (midpoint, elt)
    | fuel + 1 =>
      match quot elt with
      | .lt => searchFrom seq quot fuel from' midpoint
      | .gt => searchFrom seq quot fuel midpoint to'
      | .eq => (midpoint, elt)

/-- `search`: `f f` on an empty sequence. -/
def search (seq : List α) (quot : α → Ordering) : Option (Nat × α) :=
  if seq.isEmpty then none else some (searchFrom seq quot seq.length 0 seq.length)

section Spec

variable {seq : List α} {quot : α → Ordering}

/-- The comparison is monotone along the sequence: where the key is not below
an element, it is above every earlier one. A sorted sequence compared with a
key is. -/
def Monotone (seq : List α) (quot : α → Ordering) : Prop :=
  ∀ j k, j < k → k < seq.length → quot (seq.getD k default) ≠ .lt → quot (seq.getD j default) = .gt

theorem searchFrom_spec (hmono : Monotone seq quot) (fuel : Nat) {from' to' : Nat} (hft : from' < to')
    (hto : to' ≤ seq.length) (hfuel : to' - from' ≤ fuel + 1)
    (hlow : ∀ j, j < from' → quot (seq.getD j default) = .gt)
    (hhigh : ∀ j, to' ≤ j → j < seq.length → quot (seq.getD j default) = .lt) :
    from' ≤ (searchFrom seq quot fuel from' to').1 ∧ (searchFrom seq quot fuel from' to').1 < to' ∧
      (searchFrom seq quot fuel from' to').2 = seq.getD (searchFrom seq quot fuel from' to').1 default ∧
      (∀ j, j < (searchFrom seq quot fuel from' to').1 → quot (seq.getD j default) = .gt) ∧
      (∀ j, (searchFrom seq quot fuel from' to').1 < j → j < seq.length → quot (seq.getD j default) = .lt) := by
  induction fuel generalizing from' to' with
  | zero =>
    have hone : to' = from' + 1 := by omega
    subst hone
    rw [searchFrom, if_pos (by omega), show (from' + (from' + 1)) / 2 = from' by omega]
    exact ⟨Nat.le_refl _, Nat.lt_succ_self _, rfl, hlow, fun j hj hjl => hhigh j hj hjl⟩
  | succ fuel ih =>
    by_cases hsmall : to' - from' ≤ 1
    · have hone : to' = from' + 1 := by omega
      subst hone
      rw [searchFrom, if_pos hsmall, show (from' + (from' + 1)) / 2 = from' by omega]
      exact ⟨Nat.le_refl _, Nat.lt_succ_self _, rfl, hlow, fun j hj hjl => hhigh j hj hjl⟩
    · have hmid : from' < (from' + to') / 2 ∧ (from' + to') / 2 < to' := by omega
      rw [searchFrom, if_neg hsmall]
      cases hq : quot (seq.getD ((from' + to') / 2) default) with
      | lt =>
        dsimp only
        obtain ⟨h1, h2, h3, h4, h5⟩ := ih hmid.1 (by omega) (by omega) hlow fun j hj hjl => by
          rcases Nat.eq_or_lt_of_le hj with rfl | hlt
          · exact hq
          · by_contra hne
            rw [hmono _ _ hlt hjl hne] at hq
            cases hq
        exact ⟨h1, by omega, h3, h4, h5⟩
      | gt =>
        dsimp only
        obtain ⟨h1, h2, h3, h4, h5⟩ := ih hmid.2 hto (by omega) (fun j hj => by
          rcases Nat.lt_or_ge j from' with hlt | hge
          · exact hlow j hlt
          · exact hmono _ _ hj (by omega) (by rw [hq]; exact Ordering.noConfusion)) hhigh
        exact ⟨by omega, h2, h3, h4, h5⟩
      | eq =>
        dsimp only
        refine ⟨Nat.le_of_lt hmid.1, hmid.2, rfl, fun j hj => hmono _ _ hj (by omega) (by rw [hq]; decide),
          fun j hj hjl => ?_⟩
        by_contra hne
        rw [hmono _ _ hj hjl hne] at hq
        cases hq

theorem search_spec (hmono : Monotone seq quot) (hne : seq ≠ []) :
    ∃ i, search seq quot = some (i, seq.getD i default) ∧ i < seq.length ∧
      (∀ j, j < i → quot (seq.getD j default) = .gt) ∧
      (∀ j, i < j → j < seq.length → quot (seq.getD j default) = .lt) := by
  have hlen : 0 < seq.length := List.length_pos_of_ne_nil hne
  obtain ⟨-, h2, h3, h4, h5⟩ := searchFrom_spec hmono seq.length hlen (Nat.le_refl _) (by omega)
    (fun j hj => absurd hj (Nat.not_lt_zero j)) (fun j hj hjl => absurd hjl (Nat.not_lt.mpr hj))
  refine ⟨_, ?_, h2, h4, h5⟩
  rw [search, if_neg (by simpa using hne), ← h3]

theorem search_nil : search ([] : List α) quot = none := rfl

end Spec

end FactorProofs.Core.BinarySearch
