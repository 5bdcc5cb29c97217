import BranchBound.Proofs.Domain.State
import BranchBound.Proofs.Number.ExactSum
import BranchBound.Proofs.Number.Order

/-!
# Derived bounds are numbers

A change is only derived if it is worth making, and no comparison with a value which is not a
number succeeds. So propagation never derives a bound that is not a number, whatever the constraints
and the tolerance are, as long as the literals of the conflicts are numbers. This holds for floating
point numbers as it does for exact ones.
-/

namespace BranchBound

open Checked

namespace Domain

variable {α : Type} [Scalar α] {feastol : α}

/-- The columns of a partition are only ever fixed to zero or to one. -/
theorem partitionChanges_value {o : ObjectivePropagation α} {p : ObjectivePartition α}
    {change : BoundChange α} (h : change ∈ partitionChanges o feastol p) :
    change.value = 0 ∨ change.value = 1 := by
  have hexcluded : ∀ columns : List ColumnId,
      change ∈ columns.map (fun c => BoundChange.atMost c 0) → change.value = 0 := by
    intro columns hchange
    obtain ⟨c, -, rfl⟩ := List.mem_map.mp hchange
    rfl
  simp only [partitionChanges] at h
  split at h
  · cases h
  · split at h
    · split at h
      · rcases List.mem_append.mp h with h | h
        · exact .inl (hexcluded _ h)
        · rw [List.mem_singleton.mp h]
          exact .inr rfl
      · exact .inl (hexcluded _ h)
    · exact .inl (hexcluded _ h)

variable {d : Domain α} {kind : ColumnKind} {lower upper v : α} {bound : CompensatedSum α}
  {change : BoundChange α}

theorem number_of_isFinite (h : Scalar.isFinite v = true) : Scalar.isNaN v = false := by
  simp only [Scalar.isFinite, Bool.and_eq_true, Bool.not_eq_true'] at h
  exact h.1

variable [Scalar.Calculable α]

theorem acceptedUpper_number (h : acceptedUpper kind feastol lower upper bound = some v) :
    Scalar.isNaN v = false := by
  cases kind with
  | integer =>
      simp only [acceptedUpper] at h
      split at h
      · next hworth =>
          simp only [Bool.and_eq_true, decide_eq_true_eq] at hworth
          cases h
          exact (Scalar.number_of_lt hworth.1).1
      · cases h
  | continuous =>
      simp only [acceptedUpper] at h
      generalize (if Scalar.abs (bound.value - lower) ≤ boundEpsilon then lower else bound.value) =
        value at h
      generalize (if -Scalar.infinity < lower then upper - lower
        else Scalar.max (Scalar.abs upper) (Scalar.abs value)) = width at h
      split at h
      · split at h
        · next hfinite =>
            cases h
            exact number_of_isFinite hfinite
        · cases h
      · split at h
        · cases h
        · split at h
          · next hworth =>
              cases h
              have hquotient := Scalar.number_right hworth
              have hadvance := Scalar.Calculable.number_of_div _ _ hquotient
              exact (Scalar.Calculable.number_of_sub _ _ hadvance).2
          · cases h

theorem acceptedLower_number (h : acceptedLower kind feastol lower upper bound = some v) :
    Scalar.isNaN v = false := by
  cases kind with
  | integer =>
      simp only [acceptedLower] at h
      split at h
      · next hworth =>
          simp only [Bool.and_eq_true, decide_eq_true_eq] at hworth
          cases h
          exact (Scalar.number_of_lt hworth.1).2
      · cases h
  | continuous =>
      simp only [acceptedLower] at h
      generalize (if Scalar.abs (bound.value - upper) ≤ boundEpsilon then upper else bound.value) =
        value at h
      generalize (if upper < Scalar.infinity then upper - lower
        else Scalar.max (Scalar.abs lower) (Scalar.abs value)) = width at h
      split at h
      · split at h
        · next hfinite =>
            cases h
            exact number_of_isFinite hfinite
        · cases h
      · split at h
        · cases h
        · split at h
          · next hworth =>
              cases h
              have hquotient := Scalar.number_right hworth
              have hadvance := Scalar.Calculable.number_of_div _ _ hquotient
              exact (Scalar.Calculable.number_of_sub _ _ hadvance).1
          · cases h

theorem acceptedBound_number {side : Side} {c : ColumnId}
    (h : d.acceptedBound side c bound = .ok (some change)) : Scalar.isNaN change.value = false := by
  simp only [acceptedBound, bind_eq_ok, pure_eq_ok] at h
  obtain ⟨upper, -, lower, -, column, -, h⟩ := h
  obtain ⟨v, hv, rfl⟩ := Option.map_eq_some_iff.mp h
  cases side with
  | lower => exact acceptedLower_number hv
  | upper => exact acceptedUpper_number hv

theorem impliedChange_number {rhs : α} {min : PartialSum α} {entry : ColumnId × α}
    (h : d.impliedChange rhs min entry = .ok (some change)) :
    Scalar.isNaN change.value = false := by
  simp only [impliedChange, bind_eq_ok] at h
  obtain ⟨b, -, h⟩ := h
  split at h
  · cases h
  · exact acceptedBound_number h

/-- The negation of a literal with a number is a change to a number. -/
theorem flip_number {literal : BoundChange α} (hliteral : Scalar.isNaN literal.value = false)
    (h : d.flip literal = .ok change) : Scalar.isNaN change.value = false := by
  simp only [flip, bind_eq_ok, pure_eq_ok] at h
  obtain ⟨integral, -, rfl⟩ := h
  cases literal.side with
  | lower =>
      cases integral with
      | true => exact Scalar.Calculable.number_floor _ hliteral
      | false => exact hliteral
  | upper =>
      cases integral with
      | true => exact Scalar.Calculable.number_ceil _ hliteral
      | false => exact hliteral

/-- What a constraint says about a bound is a number, if the literals of known conflicts are. -/
theorem Derived.number {reason : Reason} (h : d.Derived change reason)
    (hliterals : ∀ (i : Nat) p id literals, d.conflictPropagations[i]? = some p →
      p.known id = some literals → ∀ l ∈ literals, Scalar.isNaN l.value = false) :
    Scalar.isNaN change.value = false := by
  cases h with
  | implication _ _ _ _ haccepted => exact acceptedBound_number haccepted
  | rowUpper _ _ _ _ hchange => exact impliedChange_number hchange
  | rowLower _ _ _ _ hchange => exact impliedChange_number hchange
  | cut _ _ _ hchange => exact impliedChange_number hchange
  | objective _ _ _ hchange => exact impliedChange_number hchange
  | conflict hpool hknown hinactive hchange =>
      refine flip_number (hliterals _ _ _ _ hpool hknown _ ?_) hchange
      exact (mem_keepIf hinactive (List.mem_singleton_self _)).1
  | partition _ _ _ _ hchange =>
      rcases partitionChanges_value hchange with hvalue | hvalue
      · rw [hvalue]
        exact Scalar.LinearlyOrdered.number_zero
      · rw [hvalue]
        exact Scalar.Calculable.number_one

end Domain

/-- Propagation derives only changes to numbers. -/
theorem Exact.derives_any (model : Model Exact) : (Tracking.exact .any).Derives model := by
  intro d change reason _ hliterals _ hderived
  refine Exact.isNaN_eq_false.mp (hderived.number fun i p id literals hp hknown l hl => ?_)
  exact Exact.isNaN_eq_false.mpr (hliterals i p id literals hp hknown l hl)

end BranchBound
