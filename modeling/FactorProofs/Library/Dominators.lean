import Mathlib.Data.Fintype.Card

namespace FactorProofs.Dominators

/-! Dominance in a graph with a root: `d` dominates `x` when every walk from
the root to `x` passes through `d`. Counting the edges that a relation `back`
singles out, `DomWithin k` is dominance over the walks with at most `k` such
edges. It shrinks as `k` grows, and on a finite graph it is dominance once
`k` reaches the number of vertices: this is what bounds the passes of an
iterative dominator computation. -/

variable {α : Type} (E : α → α → Prop) (r : α)

/-- A walk from `r` to `x`, its vertices listed from `x` back to `r`. -/
inductive Walk : α → List α → Prop
  | root : Walk r [r]
  | step {p x : α} {l : List α} : Walk p l → E p x → Walk x (x :: l)

def Reachable (x : α) : Prop := ∃ l, Walk E r x l

def Dominates (d x : α) : Prop := ∀ l, Walk E r x l → d ∈ l

/-- `i` is the immediate dominator of `x`: a strict dominator of `x` that
every strict dominator of `x` dominates. -/
def IsIdom (i x : α) : Prop :=
  i ≠ x ∧ Dominates E r i x ∧ ∀ d, d ≠ x → Dominates E r d x → Dominates E r d i

variable (back : α → α → Prop)

/-- A walk from `r` to `x` that avoids the vertices of `S` and takes at most
`k` edges of `back`. -/
inductive Avoids (S : α → Prop) : α → ℕ → Prop
  | root {k : ℕ} : ¬ S r → Avoids S r k
  | fwd {p x : α} {k : ℕ} : Avoids S p k → E p x → ¬ back p x → ¬ S x → Avoids S x k
  | bwd {p x : α} {k : ℕ} : Avoids S p k → E p x → back p x → ¬ S x → Avoids S x (k + 1)

def DomWithin (k : ℕ) (d x : α) : Prop := ¬ Avoids E r back (· = d) x k

variable {E r back}

section Walks

theorem Walk.mem_self {x : α} {l : List α} (h : Walk E r x l) : x ∈ l := by
  cases h with
  | root => exact List.mem_singleton_self r
  | step _ _ => exact List.mem_cons_self

theorem Walk.root_mem {x : α} {l : List α} (h : Walk E r x l) : r ∈ l := by
  induction h with
  | root => exact List.mem_singleton_self r
  | step _ _ ih => exact List.mem_cons_of_mem _ ih

theorem dominates_self (x : α) : Dominates E r x x := fun _ hl => hl.mem_self

theorem dominates_root_iff {d : α} : Dominates E r d r ↔ d = r := by
  constructor
  · intro h
    exact List.mem_singleton.mp (h [r] .root)
  · rintro rfl
    exact dominates_self _

theorem Dominates.pred {d x p : α} (h : Dominates E r d x) (hdx : d ≠ x) (he : E p x) :
    Dominates E r d p := by
  intro l hl
  rcases List.mem_cons.mp (h _ (hl.step he)) with h | h
  · exact absurd h hdx
  · exact h

theorem dominates_of_preds {d x : α} (hx : x ≠ r)
    (h : ∀ p, E p x → Reachable E r p → Dominates E r d p) : Dominates E r d x := by
  intro l hl
  cases hl with
  | root => exact absurd rfl hx
  | step hp he => exact List.mem_cons_of_mem _ (h _ he ⟨_, hp⟩ _ hp)

theorem dominates_iff_preds {d x : α} (hx : x ≠ r) :
    Dominates E r d x ↔ d = x ∨ ∀ p, E p x → Reachable E r p → Dominates E r d p := by
  constructor
  · intro h
    by_cases hdx : d = x
    · exact .inl hdx
    · exact .inr fun p he _ => h.pred hdx he
  · rintro (rfl | h)
    · exact dominates_self d
    · exact dominates_of_preds hx h

theorem dominates_of_closed (A : α → α → Prop) (hroot : ∀ d, A r d → d = r)
    (hstep : ∀ p x d, E p x → Reachable E r p → A x d → d = x ∨ A p d)
    {x d : α} (hx : Reachable E r x) (hA : A x d) : Dominates E r d x := by
  intro l hl
  induction hl generalizing d with
  | root => exact List.mem_singleton.mpr (hroot d hA)
  | step hp he ih =>
    rcases hstep _ _ d he ⟨_, hp⟩ hA with rfl | hd
    · exact List.mem_cons_self
    · exact List.mem_cons_of_mem _ (ih ⟨_, hp⟩ hd)

theorem Walk.suffix {x y : α} {A B : List α} (h : Walk E r x (A ++ y :: B)) : Walk E r y (y :: B) := by
  generalize hl : A ++ y :: B = l at h
  induction h generalizing A with
  | root =>
    cases A with
    | nil =>
      cases hl
      exact .root
    | cons a A => simp at hl
  | step hp he ih =>
    cases A with
    | nil =>
      cases hl
      exact .step hp he
    | cons a A =>
      cases hl
      exact ih rfl

theorem Walk.exists_nodup {x : α} {l : List α} (h : Walk E r x l) :
    ∃ l', Walk E r x l' ∧ l'.Nodup ∧ l' ⊆ l := by
  induction h with
  | root => exact ⟨[r], .root, List.nodup_singleton r, List.Subset.refl _⟩
  | @step p x l _ he ih =>
    obtain ⟨l', hl', hnd, hsub⟩ := ih
    by_cases hx : x ∈ l'
    · -- the walk to `p` already passed through `x`: keep its part from `x`
      obtain ⟨A, B, rfl⟩ := List.append_of_mem hx
      exact ⟨x :: B, hl'.suffix, hnd.sublist (List.sublist_append_right A _),
        fun v hv => List.mem_cons_of_mem _ (hsub (List.mem_append_right A hv))⟩
    · exact ⟨x :: l', hl'.step he, List.nodup_cons.mpr ⟨hx, hnd⟩, List.cons_subset_cons x hsub⟩

end Walks

section Avoiding

variable {S : α → Prop}

theorem Avoids.mono {x : α} {k k' : ℕ} (h : Avoids E r back S x k) (hk : k ≤ k') :
    Avoids E r back S x k' := by
  induction h generalizing k' with
  | root hr => exact .root hr
  | fwd _ he hb hx ih => exact .fwd (ih hk) he hb hx
  | @bwd p x k _ he hb hx ih =>
    obtain ⟨j, rfl⟩ : ∃ j, k' = j + 1 := ⟨k' - 1, by omega⟩
    exact .bwd (ih (by omega)) he hb hx

theorem Avoids.of_imp {T : α → Prop} {x : α} {k : ℕ} (h : Avoids E r back S x k) (hTS : ∀ v, T v → S v) :
    Avoids E r back T x k := by
  induction h with
  | root hr => exact .root fun hT => hr (hTS _ hT)
  | fwd _ he hb hx ih => exact .fwd ih he hb fun hT => hx (hTS _ hT)
  | bwd _ he hb hx ih => exact .bwd ih he hb fun hT => hx (hTS _ hT)

theorem Avoids.exists_walk {x : α} {k : ℕ} (h : Avoids E r back S x k) :
    ∃ l, Walk E r x l ∧ ∀ v ∈ l, ¬ S v := by
  induction h with
  | root hr => exact ⟨[r], .root, by simpa using hr⟩
  | fwd _ he _ hx ih | bwd _ he _ hx ih =>
    obtain ⟨l, hl, hS⟩ := ih
    refine ⟨_, hl.step he, fun v hv => ?_⟩
    rcases List.mem_cons.mp hv with rfl | hv
    · exact hx
    · exact hS v hv

theorem Avoids.reachable {x : α} {k : ℕ} (h : Avoids E r back S x k) : Reachable E r x :=
  let ⟨l, hl, _⟩ := h.exists_walk
  ⟨l, hl⟩

theorem Walk.avoids {x : α} {l : List α} (h : Walk E r x l) (hl : ∀ v ∈ l, ¬ S v) :
    ∃ k, k < l.length ∧ Avoids E r back S x k := by
  classical
  induction h with
  | root => exact ⟨0, Nat.zero_lt_one, .root (hl r (List.mem_singleton_self r))⟩
  | @step p x l _ he ih =>
    obtain ⟨k, hkl, hk⟩ := ih fun v hv => hl v (List.mem_cons_of_mem _ hv)
    have hx : ¬ S x := hl x List.mem_cons_self
    by_cases hb : back p x
    · exact ⟨k + 1, by rw [List.length_cons]; omega, .bwd hk he hb hx⟩
    · exact ⟨k, by rw [List.length_cons]; omega, .fwd hk he hb hx⟩

theorem Avoids.split {y : α} {k : ℕ} (h : Avoids E r back S y k) (b : α) :
    Avoids E r back (fun v => S v ∨ v = b) y k ∨ Avoids E r back S b k := by
  induction h with
  | @root k hr =>
    by_cases hb : r = b
    · exact .inr (hb ▸ .root hr)
    · exact .inl (.root (by tauto))
  | @fwd p x k hp he hback hx ih =>
    rcases ih with ih | ih
    · by_cases hb : x = b
      · exact .inr (hb ▸ .fwd hp he hback hx)
      · exact .inl (.fwd ih he hback (by tauto))
    · exact .inr ih
  | @bwd p x k hp he hback hx ih =>
    rcases ih with ih | ih
    · by_cases hb : x = b
      · exact .inr (hb ▸ .bwd hp he hback hx)
      · exact .inl (.bwd ih he hback (by tauto))
    · exact .inr (ih.mono (Nat.le_succ k))

end Avoiding

section Within

theorem dominates_iff_forall_domWithin {d x : α} :
    Dominates E r d x ↔ ∀ k, DomWithin E r back k d x := by
  constructor
  · intro h k hk
    obtain ⟨l, hl, hd⟩ := hk.exists_walk
    exact hd d (h l hl) rfl
  · intro h l hl
    by_contra hd
    obtain ⟨k, -, hk⟩ := hl.avoids (S := (· = d)) fun v hv hvd => hd (hvd ▸ hv)
    exact h k hk

theorem Dominates.domWithin {d x : α} (h : Dominates E r d x) (k : ℕ) : DomWithin E r back k d x :=
  dominates_iff_forall_domWithin.mp h k

theorem DomWithin.anti {d x : α} {k k' : ℕ} (h : DomWithin E r back k' d x) (hk : k ≤ k') :
    DomWithin E r back k d x :=
  fun ha => h (ha.mono hk)

theorem domWithin_self (k : ℕ) (x : α) : DomWithin E r back k x x := by
  intro h
  cases h <;> simp_all

theorem domWithin_of_not_reachable {d x : α} {k : ℕ} (hx : ¬ Reachable E r x) : DomWithin E r back k d x :=
  fun h => hx h.reachable

theorem DomWithin.trans {b d y : α} {k : ℕ} (hby : DomWithin E r back k b y) (hdb : DomWithin E r back k d b) :
    DomWithin E r back k d y := by
  intro h
  rcases h.split b with h | h
  · exact hby (h.of_imp fun v hv => Or.inr hv)
  · exact hdb h

theorem domWithin_of_preds {d x : α} {k : ℕ} (hx : x ≠ r)
    (hfwd : ∀ p, E p x → ¬ back p x → DomWithin E r back k d p)
    (hbwd : ∀ p j, E p x → back p x → k = j + 1 → DomWithin E r back j d p) :
    DomWithin E r back k d x := by
  intro h
  cases h with
  | root => exact hx rfl
  | fwd hp he hb _ => exact hfwd _ he hb hp
  | bwd hp he hb _ => exact hbwd _ _ he hb rfl hp

theorem DomWithin.dominates [Fintype α] {d x : α} {k : ℕ} (h : DomWithin E r back k d x)
    (hk : Fintype.card α ≤ k) : Dominates E r d x := by
  intro l hl
  by_contra hd
  obtain ⟨l', hl', hnd, hsub⟩ := hl.exists_nodup
  obtain ⟨k', hk', ha⟩ := hl'.avoids (S := (· = d)) fun v hv hvd => hd (hvd ▸ hsub hv)
  have := hnd.length_le_card
  exact h (ha.mono (by omega))

theorem dominates_of_forward (rank : α → ℕ) (hback : ∀ p x, back p x ↔ rank x ≤ rank p) {b d y : α}
    (hy : Avoids E r back (fun _ => False) y 0) (hdy : Dominates E r d y) (hby : DomWithin E r back 0 b y)
    (hdb : rank d < rank b) : Dominates E r d b := by
  by_contra hnd
  have hiff : Dominates E r d b ↔ ∀ k, DomWithin E r back k d b := dominates_iff_forall_domWithin
  obtain ⟨k, hk⟩ := not_forall.mp (mt hiff.mpr hnd)
  replace hk := not_not.mp hk
  have key : ∀ y n, Avoids E r back (fun _ => False) y n → n = 0 → DomWithin E r back 0 b y →
      rank b ≤ rank y ∧ ∃ k', Avoids E r back (· = d) y k' := by
    intro y n hy
    induction hy with
    | root _ =>
      intro _ hby
      have hrb : r = b := by
        by_contra hrb
        exact hby (.root hrb)
      exact ⟨hrb ▸ le_refl _, k, hrb ▸ hk⟩
    | @fwd p x n hp he hback' _ ih =>
      intro hn hbx
      by_cases hxb : x = b
      · exact ⟨hxb ▸ le_refl _, k, hxb ▸ hk⟩
      have hbp : DomWithin E r back 0 b p := fun h => hbx (.fwd (hn ▸ h) he hback' hxb)
      obtain ⟨hle, k', hk'⟩ := ih hn hbp
      have hlt : rank p < rank x := by
        by_contra h
        exact hback' ((hback p x).mpr (by omega))
      refine ⟨by omega, k', .fwd hk' he hback' ?_⟩
      rintro rfl
      omega
    | bwd _ _ _ _ _ => intro hn; omega
  obtain ⟨-, k', hk'⟩ := key y 0 hy rfl hby
  exact hdy.domWithin k' hk'

end Within

end FactorProofs.Dominators
