import Mathlib

/-!
# Labelled transition systems

The common shape of every run in this development: states, labels (a call, an instruction, a
processor's turn) and a step relation.  `Reachable` is the set of states of all runs,
`Reachable.invariant` the one induction over runs, and `restrict` the system that keeps only the
steps meeting a condition, whose reachable states are those of the runs all of whose steps meet it.
-/

namespace ZineOS
namespace Lib

/-- Start states and labelled steps. -/
structure System (σ α : Type*) where
  init : σ → Prop
  step : σ → α → σ → Prop

namespace System

variable {σ α : Type*} {S : System σ α}

/-- The states of all runs. -/
inductive Reachable (S : System σ α) : σ → Prop
  | init {s : σ} (h : S.init s) : Reachable S s
  | step {s s' : σ} {a : α} (hr : Reachable S s) (h : S.step s a s') : Reachable S s'

/-- What holds at the start and is preserved by every step from a reachable state holds in every
reachable state. -/
theorem Reachable.invariant {I : σ → Prop} (hinit : ∀ s, S.init s → I s)
    (hstep : ∀ s a s', S.Reachable s → I s → S.step s a s' → I s') {s : σ} (h : S.Reachable s) :
    I s := by
  induction h with
  | init h => exact hinit _ h
  | step hr h ih => exact hstep _ _ _ hr ih h

/-- A run of steps that are computed. -/
theorem Reachable.foldlM {step : σ → α → Option σ}
    (hstep : ∀ s a s', step s a = some s' → S.step s a s') {as : List α} {s s' : σ}
    (h : S.Reachable s) (hrun : as.foldlM step s = some s') : S.Reachable s' := by
  induction as generalizing s with
  | nil =>
      obtain rfl := Option.some.inj hrun
      exact h
  | cons a as ih =>
      rw [List.foldlM_cons, Option.bind_eq_bind, Option.bind_eq_some_iff] at hrun
      obtain ⟨mid, hfirst, hrest⟩ := hrun
      exact ih (.step h (hstep s a mid hfirst)) hrest

/-- The system whose steps also meet `P`. -/
def restrict (S : System σ α) (P : σ → α → σ → Prop) : System σ α where
  init := S.init
  step := fun s a s' => S.step s a s' ∧ P s a s'

/-- The deterministic system of an operation `run` that may be called when `ok` holds. -/
def ofCalls (start : σ) (run : σ → α → σ) (ok : σ → α → Prop) : System σ α where
  init := fun s => s = start
  step := fun s a s' => ok s a ∧ s' = run s a

theorem Reachable.call {start : σ} {run : σ → α → σ} {ok : σ → α → Prop} {s : σ}
    (h : (ofCalls start run ok).Reachable s) {a : α} (ha : ok s a) :
    (ofCalls start run ok).Reachable (run s a) :=
  .step h ⟨ha, rfl⟩

/-- Where every call is allowed, every list of calls is a run. -/
theorem Reachable.foldl {start : σ} {run : σ → α → σ} (calls : List α) {s : σ}
    (h : (ofCalls start run fun _ _ => True).Reachable s) :
    (ofCalls start run fun _ _ => True).Reachable (calls.foldl run s) := by
  induction calls generalizing s with
  | nil => exact h
  | cons a calls ih => exact ih (h.call trivial)

end System
end Lib
end ZineOS
