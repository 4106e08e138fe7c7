import Mathlib.Logic.Basic

namespace FactorProofs.Transition

variable {σ : Type*}

/-- The states reached from a state satisfying `init` by any number of steps
of `step`. -/
inductive Reachable (init : σ → Prop) (step : σ → σ → Prop) : σ → Prop
  | init {s : σ} : init s → Reachable init step s
  | step {s s' : σ} : Reachable init step s → step s s' → Reachable init step s'

variable {init : σ → Prop} {step : σ → σ → Prop}

theorem Reachable.invariant {P : σ → Prop} (hinit : ∀ s, init s → P s)
    (hstep : ∀ s s', P s → step s s' → P s') {s : σ} (h : Reachable init step s) : P s := by
  induction h with
  | init h => exact hinit _ h
  | step _ hs ih => exact hstep _ _ ih hs

section Runs

variable {α β τ : Type*}

/-- A deterministic machine run over a list of inputs, with the output of each. -/
def runList (step : σ → α → β × σ) : σ → List α → List β × σ
  | s, [] => ([], s)
  | s, a :: as =>
    let r := step s a
    let rs := runList step r.2 as
    (r.1 :: rs.1, rs.2)

/-- The runs of a labelled relation: from a state, a list of inputs with their
outputs leads to a state. -/
inductive Trace (spec : τ → α → β → τ → Prop) : τ → List α → List β → τ → Prop
  | nil {t : τ} : Trace spec t [] [] t
  | cons {t t' t'' : τ} {a : α} {b : β} {as : List α} {bs : List β} :
      spec t a b t' → Trace spec t' as bs t'' → Trace spec t (a :: as) (b :: bs) t''

theorem runList_trace {step : σ → α → β × σ} {spec : τ → α → β → τ → Prop} (abs : σ → τ)
    {inv : σ → Prop}
    (hstep : ∀ s a, inv s → spec (abs s) a (step s a).1 (abs (step s a).2) ∧ inv (step s a).2)
    (as : List α) {s : σ} (hs : inv s) :
    Trace spec (abs s) as (runList step s as).1 (abs (runList step s as).2) ∧
      inv (runList step s as).2 := by
  induction as generalizing s with
  | nil => exact ⟨.nil, hs⟩
  | cons a as ih =>
    obtain ⟨hspec, hinv⟩ := hstep s a hs
    obtain ⟨htrace, hend⟩ := ih hinv
    exact ⟨.cons hspec htrace, hend⟩

end Runs

end FactorProofs.Transition
