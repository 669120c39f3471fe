import ZineOS.Lib.Transition

/-!
# Threads over a shared state

Any number of threads, each with a local state, take atomic steps on a shared state in any order.
`Reachable.threads` is the proof rule of Owicki and Gries: a global invariant and one local
assertion per thread hold in every reachable state if a thread's own step keeps both, and the steps
of the other threads do not interfere with the assertion.
-/

namespace ZineOS
namespace Lib

/-- What one thread does to the shared state and to its own, given some input. -/
structure Threads (ι σ τ α : Type*) where
  step : ι → σ → τ → α → σ × τ

namespace Threads

variable {ι σ τ α : Type*} [DecidableEq ι]

/-- Thread `i` takes one step. -/
def run (T : Threads ι σ τ α) (s : σ × (ι → τ)) (c : ι × α) : σ × (ι → τ) :=
  let r := T.step c.1 s.1 (s.2 c.1) c.2
  (r.1, Function.update s.2 c.1 r.2)

/-- All interleavings from a shared state and local states. -/
def system (T : Threads ι σ τ α) (start : σ × (ι → τ)) : System (σ × (ι → τ)) (ι × α) :=
  System.ofCalls start T.run fun _ _ => True

variable {T : Threads ι σ τ α} {start s : σ × (ι → τ)} {G : σ → Prop} {L : ι → σ → τ → Prop}

/-- **The rule of non-interference.** -/
theorem reachable_threads (hglobal : G start.1) (hlocal : ∀ i, L i start.1 (start.2 i))
    (hown : ∀ i s t a, G s → L i s t →
      G (T.step i s t a).1 ∧ L i (T.step i s t a).1 (T.step i s t a).2)
    (hother : ∀ i j s t u a, j ≠ i → G s → L i s t → L j s u → L j (T.step i s t a).1 u)
    (h : (T.system start).Reachable s) : G s.1 ∧ ∀ i, L i s.1 (s.2 i) := by
  refine h.invariant (I := fun s => G s.1 ∧ ∀ i, L i s.1 (s.2 i)) ?_ ?_
  · intro s hs
    cases hs
    exact ⟨hglobal, hlocal⟩
  · rintro s ⟨i, a⟩ s' - ⟨hg, hl⟩ ⟨-, rfl⟩
    have hstep := hown i s.1 (s.2 i) a hg (hl i)
    refine ⟨hstep.1, fun j => ?_⟩
    simp only [run]
    by_cases hj : j = i
    · subst hj
      rw [Function.update_self]
      exact hstep.2
    · rw [Function.update_of_ne hj]
      exact hother i j s.1 (s.2 i) (s.2 j) a hj hg (hl i) (hl j)

end Threads
end Lib
end ZineOS
