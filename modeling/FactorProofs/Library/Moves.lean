import Mathlib.Logic.Function.Basic
import Mathlib.Data.List.Basic

namespace FactorProofs.Moves

/-! Moves `(dst, src)` run one after another on a store. -/

variable {α β : Type} [DecidableEq α]

/-- Each move copies the value of its source into its destination. -/
def exec (moves : List (α × α)) (σ : α → β) : α → β :=
  moves.foldl (fun σ m => Function.update σ m.1 (σ m.2)) σ

@[simp] theorem exec_nil (σ : α → β) : exec [] σ = σ := rfl

theorem exec_append (ms ms' : List (α × α)) (σ : α → β) : exec (ms ++ ms') σ = exec ms' (exec ms σ) := by
  rw [exec, List.foldl_append]
  rfl

theorem exec_append_singleton (ms : List (α × α)) (d s : α) (σ : α → β) :
    exec (ms ++ [(d, s)]) σ = Function.update (exec ms σ) d (exec ms σ s) := by
  rw [exec_append]
  rfl

theorem exec_of_not_mem (ms : List (α × α)) (σ : α → β) {x : α} (hx : x ∉ ms.map Prod.fst) :
    exec ms σ x = σ x := by
  induction ms generalizing σ with
  | nil => rfl
  | cons m ms ih =>
    rw [List.map_cons, List.mem_cons, not_or] at hx
    rw [exec, List.foldl_cons, ← exec, ih _ hx.2, Function.update_of_ne hx.1]

end FactorProofs.Moves
