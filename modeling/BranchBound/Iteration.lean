/-!
# Repetition without a limit

A loop that only ends when its step says so. It has a result if a number of steps leads to one, and
what holds where the result is given, and before a step whenever it holds after it, holds at the
start.
-/

namespace BranchBound

variable {σ ρ : Type} {f : σ → σ ⊕ ρ} {s : σ} {r : ρ}

/-- Repeats a step until it gives a result. There is none if it never gives one. -/
def iterate? (f : σ → σ ⊕ ρ) (s : σ) : Option ρ :=
  match f s with
  | .inl t => (iterate? (s := t)) f
  | .inr r => some r
partial_fixpoint

theorem iterate?_induction {P : σ → Prop} (hend : ∀ t, f t = .inr r → P t)
    (hnext : ∀ t u, f t = .inl u → P u → P t) (h : iterate? f s = some r) : P s := by
  refine iterate?.partial_correctness (fun g t v => g = f → v = r → P t) ?_ f s r h rfl rfl
  intro repeated ih g t v hv hg hr
  subst hg hr
  split at hv
  · next u hu => exact hnext t u hu (ih g u v hv rfl rfl)
  · next hresult =>
      cases hv
      exact hend t hresult

end BranchBound
