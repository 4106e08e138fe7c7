import Mathlib.Order.Defs.Unbundled
import Mathlib.Logic.Function.Iterate

namespace FactorProofs.BinaryHeap

/-! Binary heaps laid out in an array, the parent of `i > 0` at `(i - 1) / 2`,
ordered by a total preorder `le`: no child comes before its parent. The sifts
carry a hole through the array: toward the root while the hole's parent is
after the element put back, or toward the leaves along the lesser children.
The invariants of both are stated off the hole, as what each step keeps. -/

variable {α : Type*} (le : α → α → Prop)

def parent (i : ℕ) : ℕ := (i - 1) / 2

/-- `c` is a child of `p`; position 0 is no child, though `parent 0 = 0`. -/
def IsChild (c p : ℕ) : Prop := 0 < c ∧ parent c = p

/-- No child in the first `n` positions comes before its parent. -/
def Ordered (f : ℕ → α) (n : ℕ) : Prop := ∀ i, 0 < i → i < n → le (f (parent i)) (f i)

/-- Every parent and child pair that does not touch the hole is in order. -/
def OrderedExcept (f : ℕ → α) (n hole : ℕ) : Prop :=
  ∀ i, 0 < i → i < n → i ≠ hole → parent i ≠ hole → le (f (parent i)) (f i)

/-- What the descent toward the leaves needs: the pairs off the hole in order,
and the hole's parent not after the hole's children. -/
structure DownOrder (f : ℕ → α) (n hole : ℕ) : Prop where
  except : OrderedExcept le f n hole
  grand : hole ≠ 0 → ∀ c, IsChild c hole → c < n → le (f (parent hole)) (f c)

/-- What the sift toward the root needs besides: the element `x` to put back
not after the hole's children. -/
structure UpOrder (f : ℕ → α) (n hole : ℕ) (x : α) : Prop extends DownOrder le f n hole where
  below : ∀ c, IsChild c hole → c < n → le x (f c)

/-- `a` is `i` or one of its ancestors. -/
def Ancestor (a i : ℕ) : Prop := ∃ k, parent^[k] i = a

theorem parent_lt {i : ℕ} (h : 0 < i) : parent i < i := by
  unfold parent
  omega

theorem parent_le (i : ℕ) : parent i ≤ i := by
  unfold parent
  omega

theorem isChild_iff {c p : ℕ} : IsChild c p ↔ c = 2 * p + 1 ∨ c = 2 * p + 2 := by
  unfold IsChild parent
  omega

theorem IsChild.lt {c p : ℕ} (h : IsChild c p) : p < c := by
  rw [isChild_iff] at h
  omega

theorem ancestor_refl (i : ℕ) : Ancestor i i := ⟨0, rfl⟩

theorem Ancestor.le_index {a i : ℕ} (h : Ancestor a i) : a ≤ i := by
  obtain ⟨k, rfl⟩ := h
  induction k with
  | zero => exact Nat.le_refl i
  | succ k ih => exact Nat.le_trans (Function.iterate_succ_apply' parent k i ▸ parent_le _) ih

theorem Ancestor.child {a p c : ℕ} (h : Ancestor a p) (hc : IsChild c p) : Ancestor a c := by
  obtain ⟨k, rfl⟩ := h
  exact ⟨k + 1, by rw [Function.iterate_succ_apply, hc.2]⟩

theorem Ancestor.parent {a i : ℕ} (h : Ancestor a i) (hne : i ≠ a) : Ancestor a (parent i) := by
  obtain ⟨_ | k, hk⟩ := h
  · exact absurd hk hne
  · exact ⟨k, by rwa [Function.iterate_succ_apply] at hk⟩

theorem Ancestor.trans {a b i : ℕ} (hab : Ancestor a b) (hbi : Ancestor b i) : Ancestor a i := by
  obtain ⟨k, rfl⟩ := hab
  obtain ⟨m, rfl⟩ := hbi
  exact ⟨k + m, Function.iterate_add_apply BinaryHeap.parent k m i⟩

theorem Ancestor.eq_of_le {a i : ℕ} (h : Ancestor a i) (hle : i ≤ a) : i = a :=
  Nat.le_antisymm hle h.le_index

theorem ancestor_zero (i : ℕ) : Ancestor 0 i := by
  induction i using Nat.strongRecOn with
  | ind i ih =>
    rcases Nat.eq_zero_or_pos i with rfl | hpos
    · exact ancestor_refl 0
    · obtain ⟨k, hk⟩ := ih (parent i) (parent_lt hpos)
      exact ⟨k + 1, by rw [Function.iterate_succ_apply, hk]⟩

section Basic

variable {le}

theorem Ordered.congr {f g : ℕ → α} {n : ℕ} (ho : Ordered le f n) (hfg : ∀ i, i < n → f i = g i) :
    Ordered le g n := by
  intro i hi0 hi
  rw [← hfg i hi, ← hfg (parent i) (Nat.lt_trans (parent_lt hi0) hi)]
  exact ho i hi0 hi

theorem Ordered.mono {f : ℕ → α} {n m : ℕ} (ho : Ordered le f n) (hm : m ≤ n) : Ordered le f m :=
  fun i hi0 hi => ho i hi0 (Nat.lt_of_lt_of_le hi hm)

theorem DownOrder.congr {f g : ℕ → α} {n hole : ℕ} (o : DownOrder le f n hole)
    (hfg : ∀ i, i < n → i ≠ hole → f i = g i) : DownOrder le g n hole where
  except i hi0 hi hih hph := by
    rw [← hfg i hi hih, ← hfg (parent i) (Nat.lt_trans (parent_lt hi0) hi) hph]
    exact o.except i hi0 hi hih hph
  grand hne c hc hcn := by
    have hp : parent hole < hole := parent_lt (Nat.pos_of_ne_zero hne)
    have hhc : hole < c := hc.lt
    rw [← hfg c hcn (by omega), ← hfg (parent hole) (by omega) (by omega)]
    exact o.grand hne c hc hcn

theorem UpOrder.congr {f g : ℕ → α} {n hole : ℕ} {x : α} (o : UpOrder le f n hole x)
    (hfg : ∀ i, i < n → i ≠ hole → f i = g i) : UpOrder le g n hole x where
  toDownOrder := o.toDownOrder.congr hfg
  below c hc hcn := by
    have hhc : hole < c := hc.lt
    rw [← hfg c hcn (by omega)]
    exact o.below c hc hcn

theorem Ordered.upOrder_last {f : ℕ → α} {n : ℕ} (ho : Ordered le f n) (x : α) : UpOrder le f (n + 1) n x where
  except i hi0 hi hin _ := ho i hi0 (by omega)
  grand _ c hc hcn := absurd hcn (by have := hc.lt; rw [isChild_iff] at hc; omega)
  below c hc hcn := absurd hcn (by rw [isChild_iff] at hc; omega)

theorem UpOrder.finish {f : ℕ → α} {n hole : ℕ} {x : α} (o : UpOrder le f n hole x)
    (hstop : hole ≠ 0 → le (f (parent hole)) x) : Ordered le (Function.update f hole x) n := by
  intro i hi0 hi
  by_cases hih : i = hole
  · have hp : parent i ≠ i := by have := parent_lt hi0; omega
    rw [hih] at hp ⊢
    rw [Function.update_self, Function.update_of_ne hp]
    exact hstop (by omega)
  · rw [Function.update_of_ne hih]
    by_cases hph : parent i = hole
    · rw [hph, Function.update_self]
      exact o.below i ⟨hi0, hph⟩ hi
    · rw [Function.update_of_ne hph]
      exact o.except i hi0 hi hih hph

theorem DownOrder.move {f : ℕ → α} {n hole c : ℕ} (o : DownOrder le f n hole) (hc : IsChild c hole) (hcn : c < n)
    (hmin : ∀ c', IsChild c' hole → c' < n → le (f c) (f c')) :
    DownOrder le (Function.update f hole (f c)) n c := by
  have hhc : hole < c := hc.lt
  refine ⟨?_, ?_⟩
  · intro i hi0 hi hic hpi
    by_cases hih : i = hole
    · -- the child moved up sits below the hole's parent
      rw [hih, Function.update_self]
      have hp : parent hole ≠ hole := by have := parent_lt (show 0 < hole by omega); omega
      rw [Function.update_of_ne hp]
      exact o.grand (by omega) c hc hcn
    rw [Function.update_of_ne hih]
    by_cases hph : parent i = hole
    · rw [hph, Function.update_self]
      exact hmin i ⟨hi0, hph⟩ hi
    · rw [Function.update_of_ne hph]
      exact o.except i hi0 hi hih hph
  · intro _ c' hc' hcn'
    rw [hc.2, Function.update_self]
    have hc'c : c' ≠ hole := by have := hc'.lt; omega
    rw [Function.update_of_ne hc'c]
    have := o.except c' hc'.1 hcn' hc'c (by rw [hc'.2]; omega)
    rwa [hc'.2] at this

theorem DownOrder.leaf {f : ℕ → α} {n hole : ℕ} (o : DownOrder le f n hole) (hleaf : n ≤ 2 * hole + 1)
    (x : α) : UpOrder le f n hole x where
  toDownOrder := o
  below c hc hcn := absurd hcn (by rw [isChild_iff] at hc; omega)

end Basic

section Total

variable {le} [Std.Total le]

theorem le_refl' (x : α) : le x x := (total_of le x x).elim id id

theorem le_of_not_le {x y : α} (h : ¬le x y) : le y x := (total_of le x y).resolve_left h

theorem lesser_child_min [DecidableRel le] {f : ℕ → α} {n p : ℕ} (hl : 2 * p + 1 < n) :
    let chosen := if 2 * p + 2 < n ∧ ¬le (f (2 * p + 1)) (f (2 * p + 2)) then 2 * p + 2 else 2 * p + 1
    IsChild chosen p ∧ chosen < n ∧ ∀ c', IsChild c' p → c' < n → le (f chosen) (f c') := by
  intro chosen
  by_cases hr : 2 * p + 2 < n ∧ ¬le (f (2 * p + 1)) (f (2 * p + 2))
  · simp only [chosen, if_pos hr]
    refine ⟨isChild_iff.mpr (Or.inr rfl), hr.1, fun c' hc' _ => ?_⟩
    rcases isChild_iff.mp hc' with rfl | rfl
    · exact le_of_not_le hr.2
    · exact le_refl' _
  · simp only [chosen, if_neg hr]
    refine ⟨isChild_iff.mpr (Or.inl rfl), hl, fun c' hc' hc'n => ?_⟩
    rcases isChild_iff.mp hc' with rfl | rfl
    · exact le_refl' _
    · by_contra hne
      exact hr ⟨hc'n, hne⟩

variable [IsTrans α le]

theorem Ordered.root_le {f : ℕ → α} {n : ℕ} (ho : Ordered le f n) : ∀ i, i < n → le (f 0) (f i) := by
  intro i
  induction i using Nat.strongRecOn with
  | ind i ih =>
    intro hi
    rcases Nat.eq_zero_or_pos i with rfl | hpos
    · exact le_refl' _
    · exact trans_of le (ih _ (parent_lt hpos) (Nat.lt_trans (parent_lt hpos) hi)) (ho i hpos hi)

omit [Std.Total le] in
theorem Ordered.downOrder {f : ℕ → α} {n : ℕ} (ho : Ordered le f n) {hole : ℕ} {m : ℕ} (hm : m ≤ n) :
    DownOrder le f m hole where
  except i hi0 hi _ _ := ho i hi0 (by omega)
  grand hne c hc hcn := trans_of le (ho hole (Nat.pos_of_ne_zero hne) (by have := hc.lt; omega))
    (by have := ho c hc.1 (by omega); rwa [hc.2] at this)

omit [Std.Total le] in
theorem Ordered.upOrder {f : ℕ → α} {n : ℕ} (ho : Ordered le f n) {hole m : ℕ} (hm : m ≤ n) (hhole : hole < n)
    {x : α} (hx : hole ≠ 0 → le x (f (parent hole))) (hx0 : hole = 0 → ∀ c, IsChild c hole → c < m → le x (f c)) :
    UpOrder le f m hole x where
  toDownOrder := ho.downOrder hm
  below c hc hcn := by
    have hchild : le (f hole) (f c) := by have := ho c hc.1 (by omega); rwa [hc.2] at this
    rcases Nat.eq_zero_or_pos hole with h0 | hpos
    · exact hx0 h0 c hc hcn
    · exact trans_of le (trans_of le (hx (by omega)) (ho hole hpos hhole)) hchild

theorem UpOrder.move {f : ℕ → α} {n hole : ℕ} {x : α} (o : UpOrder le f n hole x) (hne : hole ≠ 0)
    (hlt : hole < n) (hb : ¬le (f (parent hole)) x) :
    UpOrder le (Function.update f hole (f (parent hole))) n (parent hole) x := by
  have hq : parent hole < hole := parent_lt (Nat.pos_of_ne_zero hne)
  have hxq : le x (f (parent hole)) := le_of_not_le hb
  have hq_up : parent hole ≠ 0 → le (f (parent (parent hole))) (f (parent hole)) := fun hq0 =>
    o.except (parent hole) (Nat.pos_of_ne_zero hq0) (by omega) (by omega)
      (by have := parent_lt (Nat.pos_of_ne_zero hq0); omega)
  have hsib : ∀ c, IsChild c (parent hole) → c < n → c ≠ hole → le (f (parent hole)) (f c) := by
    intro c hc hcn hch
    have := o.except c hc.1 hcn hch (by rw [hc.2]; omega)
    rwa [hc.2] at this
  refine ⟨⟨?_, ?_⟩, ?_⟩
  · intro i hi0 hi hiq hpi
    by_cases hih : i = hole
    · exact absurd (congrArg parent hih) hpi
    rw [Function.update_of_ne hih]
    by_cases hph : parent i = hole
    · rw [hph, Function.update_self]
      exact o.grand hne i ⟨hi0, hph⟩ hi
    · rw [Function.update_of_ne hph]
      exact o.except i hi0 hi hih hph
  · intro hq0 c hc hcl
    have hpq : parent (parent hole) ≠ hole := by have := parent_le (parent hole); omega
    rw [Function.update_of_ne hpq]
    by_cases hch : c = hole
    · rw [hch, Function.update_self]
      exact hq_up hq0
    · rw [Function.update_of_ne hch]
      exact trans_of le (hq_up hq0) (hsib c hc hcl hch)
  · intro c hc hcl
    by_cases hch : c = hole
    · rw [hch, Function.update_self]
      exact hxq
    · rw [Function.update_of_ne hch]
      exact trans_of le hxq (hsib c hc hcl hch)

end Total

end FactorProofs.BinaryHeap
