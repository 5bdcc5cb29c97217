import BranchBound.Conflict.Analysis
import BranchBound.Proofs.Domain.Operation

/-!
# Runs that can be computed

A loop without a limit and a sort by merging do not come down to a value by computation alone: the
loop is a fixed point, and merging recurs on two lists at once. Both equal a form that takes a given
number of steps by recursion on that number and is the original after that. With such forms in the
place of its loops and sorts, what is done to a domain is computed for any number of steps that is
large enough.
-/

namespace BranchBound

universe u

/-- A value in another form. -/
abbrev Unrolled {β : Sort u} (x : β) := { form : β // x = form }

/-! ## Loops and sorts -/

section Loops

variable {σ ρ : Type}

/-- Takes a number of steps before it repeats without a limit. -/
def iterateFrom (n : Nat) (f : σ → σ ⊕ ρ) (s : σ) : Option ρ :=
  match n with
  | 0 => iterate? f s
  | n + 1 =>
    match f s with
    | .inl t => iterateFrom n f t
    | .inr r => some r

theorem iterate?_unrolled (n : Nat) :
    @iterate? = fun σ ρ => iterateFrom (σ := σ) (ρ := ρ) n := by
  funext σ ρ f s
  induction n generalizing s with
  | zero => rfl
  | succ n ih =>
      rw [iterate?, iterateFrom]
      cases f s with
      | inl t => exact ih t
      | inr r => rfl

end Loops

section Sorts

variable {β : Type u} (le : β → β → Bool)

/-- Merges up to a number of entries one by one. -/
def mergeFrom (n : Nat) (xs ys : List β) : List β :=
  match n, xs, ys with
  | 0, xs, ys => xs.merge ys le
  | _ + 1, [], ys => ys
  | _ + 1, xs, [] => xs
  | n + 1, x :: xs, y :: ys =>
    if le x y then x :: mergeFrom n xs (y :: ys) else y :: mergeFrom n (x :: xs) ys

theorem mergeFrom_eq (n : Nat) (xs ys : List β) : mergeFrom le n xs ys = xs.merge ys le := by
  fun_induction mergeFrom le n xs ys with
  | case1 => rfl
  | case2 => simp
  | case3 => simp
  | case4 n x xs y ys hle ih => rw [ih, List.merge, if_pos hle]
  | case5 n x xs y ys hle ih => rw [ih, List.merge, if_neg hle]

/-- Sorts by merging sorted halves, with a number of levels of halves in halves. -/
def sortFrom (n : Nat) (xs : List β) : List β :=
  match n, xs with
  | 0, xs => xs.mergeSort le
  | _ + 1, [] => []
  | _ + 1, [x] => [x]
  | n + 1, x :: y :: xs =>
    let half := (xs.length + 3) / 2
    mergeFrom le (xs.length + 2) (sortFrom n ((x :: y :: xs).take half))
      (sortFrom n ((x :: y :: xs).drop half))

theorem sortFrom_eq (n : Nat) (xs : List β) : sortFrom le n xs = xs.mergeSort le := by
  fun_induction sortFrom le n xs with
  | case1 => rfl
  | case2 => simp
  | case3 => simp
  | case4 n x y xs half hfirst hsecond =>
      rw [mergeFrom_eq, hfirst, hsecond, List.mergeSort]
      simp [List.MergeSort.Internal.splitInTwo, half]

theorem mergeSort_unrolled (n : Nat) :
    @List.mergeSort.{u} = fun _ xs le => sortFrom le n xs := by
  funext β xs le
  exact (sortFrom_eq le n xs).symm

end Sorts

/-! ## Domains -/

variable {α : Type} [Scalar α]

def Domain.propagateUnrolled (n : Nat) : Unrolled (@Domain.propagate α _) :=
  ⟨_, by
    delta Domain.propagate PropagationStep.propagate PropagationStep.outcome?
    rw [iterate?_unrolled n]⟩

def Operation.performUnrolled (n : Nat) : Unrolled (@Operation.perform α _) :=
  ⟨_, by
    delta Operation.perform CutPool.insertWithAgeLimit Inequality.normalized ConflictPool.add
      ConflictPool.storedForm
    rw [(Domain.propagateUnrolled n).property, mergeSort_unrolled n]⟩

def Domain.conflictSetUnrolled (n : Nat) : Unrolled (@Domain.conflictSet? α _) :=
  ⟨_, by
    delta Domain.conflictSet? Domain.explainViolation Domain.explainInfeasibility
      Domain.explainAtLeast Domain.explainByObjective Domain.explainAtMost
    rw [mergeSort_unrolled n]⟩

def Domain.computeConflictsUnrolled (n : Nat) : Unrolled (@Domain.computeConflicts α _) :=
  ⟨_, by
    delta Domain.computeConflicts Domain.resolveWithin Domain.resolveWithin._f Domain.explainChange
      Domain.explainAtLeast Domain.explainByObjective Domain.explainAtMost
    rw [mergeSort_unrolled n]⟩

end BranchBound
