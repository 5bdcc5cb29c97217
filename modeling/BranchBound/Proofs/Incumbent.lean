import BranchBound.Heuristic
import BranchBound.Proofs.Checked
import BranchBound.Proofs.Number.Exact
import Mathlib.Algebra.Order.Group.MinMax

/-!
# Incumbents that were checked

A point becomes the incumbent only after it was checked, together with the objective value that it
has. So the solution and the objective value of an incumbent always belong together, whatever the
points were that were proposed. A value that is no number is not compared with anything: only if
no feasible point has such a value does an infinite objective value tell that there is no solution.
-/

namespace BranchBound

open Checked

variable {α η : Type} [Scalar α]

/-- No feasible point has an objective value that is no number: each of them can be compared with
infinity, and infinity with itself. -/
structure Model.Comparable (m : Model α) (feastol : α) : Prop where
  infinity : (Scalar.infinity : α) ≤ Scalar.infinity
  value : ∀ point, m.check point feastol = true → m.objectiveValue point ≤ Scalar.infinity

/-- The solution of an incumbent was checked and has its objective value, which is infinite if there
is no solution, and if objective values can be compared only then. -/
structure Incumbent.Vetted (m : Model α) (feastol : α) (i : Incumbent α) : Prop where
  checked : ∀ point, i.solution = some point →
    m.check point feastol = true ∧ i.objective = m.objectiveValue point
  empty : i.solution = none → i.objective = Scalar.infinity
  finite : m.Comparable feastol → i.solution ≠ none → i.objective ≠ Scalar.infinity

namespace Incumbent

variable {m : Model α} {feastol : α} {i : Incumbent α}

theorem vetted_empty (m : Model α) (feastol : α) (integralObjective : Bool) (tolerance : α) :
    (Incumbent.empty integralObjective tolerance).Vetted m feastol where
  checked := fun _ h => by cases h
  empty := fun _ => rfl
  finite := fun _ h => absurd rfl h

/-- The objective value of a vetted incumbent can be compared with infinity. -/
theorem Vetted.objective_le (h : i.Vetted m feastol) (hm : m.Comparable feastol) :
    i.objective ≤ Scalar.infinity := by
  cases hsolution : i.solution with
  | none =>
      rw [h.empty hsolution]
      exact hm.infinity
  | some point =>
      obtain ⟨hcheck, hobjective⟩ := h.checked point hsolution
      rw [hobjective]
      exact hm.value point hcheck

/-- A checked point may update a vetted incumbent. -/
theorem Vetted.tryUpdate (h : i.Vetted m feastol) {point : Array α}
    (hcheck : m.check point feastol = true) :
    (i.tryUpdate point (m.objectiveValue point)).2.Vetted m feastol := by
  unfold Incumbent.tryUpdate
  split
  · exact h
  · next hbetter =>
      refine ⟨fun other hother => ?_, fun hnone => (by cases hnone), fun hm _ hinfinite => ?_⟩
      · cases hother
        exact ⟨hcheck, rfl⟩
      · change m.objectiveValue point = Scalar.infinity at hinfinite
        exact hbetter (hinfinite ▸ h.objective_le hm)

end Incumbent

namespace HeuristicManager

variable [Proposer η α] {m : Model α} {feastol : α} {i : Incumbent α}

/-- Whatever heuristics propose, the incumbent has a property that updates by checked points
keep. -/
theorem runAll_keeps {P : Incumbent α → Prop} {d : Domain α} {solution : RelaxationSolution α}
    {heuristics : List (Heuristic α η)}
    (hP : ∀ (i : Incumbent α) point, P i → d.model.check point feastol = true →
      P (i.tryUpdate point (d.model.objectiveValue point)).2) (h : P i)
    {improvements : List (Improvement α)} {i' : Incumbent α} {rest : List (Heuristic α η)}
    (hrun : runAll feastol d solution heuristics i = .ok (improvements, i', rest)) : P i' := by
  have hsubmit (i : Incumbent α) (point : Array α) (hi : P i) :
      P (submit feastol d.model i point).2 := by
    unfold submit
    split
    · next hcheck => exact hP i point hi hcheck
    · exact hi
  induction heuristics generalizing i improvements rest with
  | nil =>
      cases hrun
      exact h
  | cons heuristic others ih =>
      simp only [runAll, bind_eq_ok, pure_eq_ok, Prod.mk.injEq] at hrun
      obtain ⟨⟨candidate, heuristic'⟩, -, ⟨improvements', i₂, rest'⟩, hrest, -, rfl, -⟩ := hrun
      cases candidate with
      | none => exact ih h hrest
      | some point => exact ih (hsubmit i point h) hrest

/-- Whatever heuristics propose, the incumbent was checked. -/
theorem runAll_vetted {d : Domain α} {solution : RelaxationSolution α}
    {heuristics : List (Heuristic α η)} (h : i.Vetted d.model feastol)
    {improvements : List (Improvement α)} {i' : Incumbent α} {rest : List (Heuristic α η)}
    (hrun : runAll feastol d solution heuristics i = .ok (improvements, i', rest)) :
    i'.Vetted d.model feastol :=
  runAll_keeps (fun _ _ h hcheck => h.tryUpdate hcheck) h hrun

end HeuristicManager

/-! ### Cutoffs -/

section Exact

open Exact

/-- Points that pass the check of a model have a number as their objective value. -/
def Model.Numeric (m : Model Exact) : Prop :=
  ∀ point tolerance, m.check point tolerance = true → ∃ q, m.objectiveValue point = number q

namespace Incumbent

/-- An incumbent of a solve: its objective value is a number, or infinite as it is without a
solution. -/
structure Fits (m : Model Exact) (f : ℚ) (i : Incumbent Exact) : Prop where
  feastol : i.feastol = number f
  integralObjective : i.integralObjective = m.integralObjective
  objective : i.objective = plus ∨ ∃ q, i.objective = number q
  empty : i.solution = none → i.objective = plus

/-- Nothing as good as a value is of interest any more. -/
def Excludes (i : Incumbent Exact) (v : ℚ) : Prop := i.cutoff ≤ number v

variable {m : Model Exact} {f v : ℚ} {i : Incumbent Exact} {point : Array Exact} {q : ℚ}

theorem fits_empty (m : Model Exact) (f : ℚ) :
    (Incumbent.empty m.integralObjective (number f)).Fits m f :=
  ⟨rfl, rfl, .inl rfl, fun _ => rfl⟩

/-- The cutoff of an objective value. -/
def cutoffOf (m : Model Exact) (f q : ℚ) : ℚ :=
  if m.integralObjective then q - 1 + f else q - f * max |q| 1

/-- A smaller objective value has a smaller cutoff. -/
theorem cutoffOf_mono (hf : 0 ≤ f) (hf' : f ≤ 1) {p : ℚ} (hle : p ≤ q) :
    cutoffOf m f p ≤ cutoffOf m f q := by
  unfold cutoffOf
  split
  · linarith
  · -- the allowance changes by no more than the objective value does
    have hchange : max |q| 1 - max |p| 1 ≤ q - p := calc
      max |q| 1 - max |p| 1 ≤ |max |q| 1 - max |p| 1| := le_abs_self _
      _ ≤ |(|q| - |p|)| := abs_max_sub_max_le_abs _ _ _
      _ ≤ |q - p| := abs_abs_sub_abs_le q p
      _ = q - p := abs_of_nonneg (sub_nonneg.mpr hle)
    have hscaled := mul_le_mul_of_nonneg_left hchange hf
    have hbelow := mul_le_mul_of_nonneg_right hf' (sub_nonneg.mpr hle)
    linarith

theorem cutoffOf_le (hf : 0 ≤ f) (hf' : f ≤ 1) (q : ℚ) : cutoffOf m f q ≤ q := by
  unfold cutoffOf
  split
  · linarith
  · have hallowance : 0 ≤ f * max |q| 1 := mul_nonneg hf (le_max_of_le_left (abs_nonneg q))
    linarith

theorem Fits.cutoff_plus (h : i.objective = plus) : i.cutoff = plus := by
  rw [cutoff, h]
  rfl

theorem Fits.cutoff_number (h : i.Fits m f) (hq : i.objective = number q) :
    i.cutoff = number (cutoffOf m f q) := by
  have habs : Scalar.max (Scalar.abs (number q)) 1 = number (max |q| 1) := by
    have hone : (1 : Exact) = number 1 := by simp
    rw [hone]
    exact max_number |q| 1
  have hfinite : ¬(number q == Scalar.infinity) = true := Bool.false_ne_true
  rw [cutoff, hq, if_neg hfinite, h.integralObjective, h.feastol, cutoffOf]
  split
  · simp
  · rw [habs, number_mul, number_sub]

/-- The cutoff of an incumbent is not above another one with a larger objective value. -/
theorem Fits.excludes (h : i.Fits m f) (hf : 0 ≤ f) (hf' : f ≤ 1) (hle : i.objective ≤ number v) :
    i.Excludes v := by
  rcases h.objective with hplus | ⟨q, hq⟩
  · rw [hplus] at hle
    cases hle
  · rw [hq, number_le] at hle
    rw [Excludes, h.cutoff_number hq, number_le]
    exact (cutoffOf_le hf hf' q).trans hle

/-- What is not excluded is below the cutoff. -/
theorem Fits.lt_cutoff (h : i.Fits m f) (hv : ¬i.Excludes v) : number v < i.cutoff := by
  rcases h.objective with hplus | ⟨q, hq⟩
  · rw [Fits.cutoff_plus hplus]
    rfl
  · rw [Excludes, h.cutoff_number hq, number_le] at hv
    rw [h.cutoff_number hq, number_lt]
    exact not_le.mp hv

/-- An update by a checked point keeps what is known of an incumbent, and what is excluded. -/
theorem Fits.tryUpdate (hm : m.Numeric) (h : i.Fits m f) {tolerance : Exact}
    (hcheck : m.check point tolerance = true) :
    (i.tryUpdate point (m.objectiveValue point)).2.Fits m f := by
  unfold Incumbent.tryUpdate
  split
  · exact h
  · exact ⟨h.feastol, h.integralObjective, .inr (hm _ _ hcheck), nofun⟩

theorem Excludes.tryUpdate (hm : m.Numeric) (hf : 0 ≤ f) (hf' : f ≤ 1) (h : i.Fits m f)
    (hv : i.Excludes v) {tolerance : Exact} (hcheck : m.check point tolerance = true) :
    (i.tryUpdate point (m.objectiveValue point)).2.Excludes v := by
  have hfits := h.tryUpdate hm hcheck
  obtain ⟨q, hq⟩ := hm _ _ hcheck
  unfold Incumbent.tryUpdate at hfits ⊢
  split
  · exact hv
  · next hbetter =>
      rw [if_neg hbetter] at hfits
      rcases h.objective with hplus | ⟨p, hp⟩
      · rw [Excludes, Fits.cutoff_plus hplus] at hv
        cases hv
      · rw [Excludes, h.cutoff_number hp, number_le] at hv
        rw [hp, hq, number_le] at hbetter
        rw [Excludes, hfits.cutoff_number hq, number_le]
        exact (cutoffOf_mono hf hf' (not_le.mp hbetter).le).trans hv

/-- After a submission nothing is of interest that is not better than the submitted point. -/
theorem Fits.excludes_tryUpdate (hm : m.Numeric) (hf : 0 ≤ f) (hf' : f ≤ 1) (h : i.Fits m f)
    {tolerance : Exact} (hcheck : m.check point tolerance = true)
    (hle : m.objectiveValue point ≤ number v) :
    (i.tryUpdate point (m.objectiveValue point)).2.Excludes v := by
  refine (h.tryUpdate hm hcheck).excludes hf hf' ?_
  unfold Incumbent.tryUpdate
  split
  · next hbetter => exact Exact.le_trans hbetter hle
  · exact hle

end Incumbent

end Exact

end BranchBound
