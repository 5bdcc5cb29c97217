import BranchBound.Domain.Change
import BranchBound.Proofs.Checked

/-!
# What follows a moved bound

When a bound moves, the activities of rows, cuts and the objective follow it, constraints are made
to wait, and a violated one may make the domain infeasible. None of that touches the box itself.
`Domain.core` is the domain without everything that follows the bounds, so that an operation which
only brings things up to date is one that leaves the core as it is. What it may do to the
feasibility is `Latched`: the first infeasibility stays, and a new one has the position of the
change that is being made.
-/

namespace BranchBound

open Checked

namespace Domain

variable {α : Type}

/-- A domain without what is kept up to date with its bounds. -/
def core (d : Domain α) : Domain α :=
  { d with
    activities := #[]
    waitingRows := []
    rowDirty := #[]
    movedSides := #[]
    movedColumns := []
    infeasible := none
    cutPropagations := #[]
    conflictPropagations := #[]
    objective := none }

/-- What a step at a position may do to the feasibility of a domain: nothing, or to record the
first infeasibility at that position. -/
def Latched (position : Option Nat) (before after : Option Infeasibility) : Prop :=
  after = before ∨
    before = none ∧ ∃ reason p, position = some p ∧ after = some ⟨reason, p⟩

theorem Latched.refl (position : Option Nat) (i : Option Infeasibility) :
    Latched position i i :=
  .inl rfl

theorem Latched.trans {position : Option Nat} {i j k : Option Infeasibility}
    (hij : Latched position i j) (hjk : Latched position j k) :
    Latched position i k := by
  rcases hij with rfl | ⟨rfl, reason, p, hp, rfl⟩
  · exact hjk
  · rcases hjk with rfl | ⟨hnone, -⟩
    · exact .inr ⟨rfl, reason, p, hp, rfl⟩
    · cases hnone

theorem Latched.of_none {i j : Option Infeasibility} (h : Latched none i j) : j = i := by
  rcases h with rfl | ⟨-, -, p, hp, -⟩
  · rfl
  · cases hp

/-- One domain follows from another one by bringing things up to date after the change at a
position. -/
structure Follows (position : Option Nat) (d d' : Domain α) : Prop where
  core : d'.core = d.core
  latched : Latched position d.infeasible d'.infeasible

namespace Follows

variable {position : Option Nat} {d d' d'' : Domain α}

theorem refl (position : Option Nat) (d : Domain α) : Follows position d d := ⟨rfl, .refl ..⟩

theorem trans (h : Follows position d d') (h' : Follows position d' d'') :
    Follows position d d'' :=
  ⟨h'.core.trans h.core, h.latched.trans h'.latched⟩

theorem model (h : Follows position d d') : d'.model = d.model :=
  (congrArg Domain.model h.core :)

theorem feastol (h : Follows position d d') : d'.feastol = d.feastol :=
  (congrArg Domain.feastol h.core :)

theorem log (h : Follows position d d') : d'.log = d.log :=
  (congrArg Domain.log h.core :)

end Follows

theorem setInfeasible_core (d : Domain α) (reason : Reason) (position : Nat) :
    (d.setInfeasible reason position).core = d.core := by
  unfold setInfeasible
  cases d.infeasible with
  | none => rfl
  | some i => rfl

theorem setInfeasible_follows (d : Domain α) (reason : Reason) (position : Nat) :
    Follows (some position) d (d.setInfeasible reason position) := by
  refine ⟨setInfeasible_core d reason position, ?_⟩
  unfold setInfeasible
  cases h : d.infeasible with
  | none => exact .inr ⟨rfl, reason, position, rfl, rfl⟩
  | some i => exact .inl h

/-- Making a row wait changes nothing but the list of waiting rows and its flags. -/
theorem markRowDirty_eq_ok {d d' : Domain α} {r : RowId} (h : d.markRowDirty r = .ok d') :
    d' = { d with waitingRows := d'.waitingRows, rowDirty := d'.rowDirty } := by
  simp only [markRowDirty, bind_eq_ok, fetch_eq_ok] at h
  obtain ⟨flag, -, h⟩ := h
  cases flag with
  | true =>
      simp only [if_true, pure_eq_ok] at h
      rw [← h]
  | false =>
      simp only [Bool.false_eq_true, if_false, bind_eq_ok, pure_eq_ok] at h
      obtain ⟨flags, -, rfl⟩ := h
      rfl

/-- Making a row wait keeps the number of flags. -/
theorem markRowDirty_size {d d' : Domain α} {r : RowId} (h : d.markRowDirty r = .ok d') :
    d'.rowDirty.size = d.rowDirty.size := by
  simp only [markRowDirty, bind_eq_ok] at h
  obtain ⟨flag, -, h⟩ := h
  split at h
  · rw [pure_eq_ok.mp h]
  · simp only [bind_eq_ok, store_eq_ok, pure_eq_ok] at h
    obtain ⟨flags, ⟨-, rfl⟩, rfl⟩ := h
    exact Array.size_setIfInBounds ..

/-- A row that waits did so before, or is the one that is made to wait. -/
theorem markRowDirty_waiting {d d' : Domain α} {r : RowId} (h : d.markRowDirty r = .ok d') :
    ∀ r' ∈ d'.waitingRows, r' ∈ d.waitingRows ∨ r' = r ∧ r < d.rowDirty.size := by
  intro r' hr'
  simp only [markRowDirty, bind_eq_ok, fetch_eq_ok] at h
  obtain ⟨flag, hflag, h⟩ := h
  have hlt := (Array.getElem?_eq_some_iff.mp hflag).1
  split at h
  · rw [pure_eq_ok.mp h]
    exact .inl hr'
  · simp only [bind_eq_ok, pure_eq_ok] at h
    obtain ⟨flags, -, rfl⟩ := h
    rcases List.mem_append.mp hr' with hr' | hr'
    · exact .inl hr'
    · exact .inr ⟨List.mem_singleton.mp hr', hlt⟩

theorem markRowDirty_returns {d : Domain α} {r : RowId} (h : r < d.rowDirty.size) :
    Returns (d.markRowDirty r) fun _ => True := by
  unfold markRowDirty
  refine (fetch_returns h).bind fun flag _ _ => ?_
  split
  · exact .pure trivial
  · exact (store_returns true h).bind fun flags _ _ => .pure trivial

theorem markRowDirty_follows {d d' : Domain α} {r : RowId} (position : Option Nat)
    (h : d.markRowDirty r = .ok d') :
    Follows position d d' := by
  rw [markRowDirty_eq_ok h]
  exact ⟨rfl, .refl ..⟩

/-- Recording an infeasibility changes nothing else. -/
theorem setInfeasibleAt_eq (d : Domain α) (condition : Bool) (reason : Reason)
    (position : Option Nat) : d.setInfeasibleAt condition reason position =
      { d with infeasible := (d.setInfeasibleAt condition reason position).infeasible } := by
  unfold Domain.setInfeasibleAt setInfeasible
  cases position with
  | none => rfl
  | some p =>
      cases condition with
      | false => rfl
      | true =>
          simp only [if_true]
          cases d.infeasible <;> rfl

theorem setInfeasibleAt_follows (d : Domain α) (condition : Bool) (reason : Reason)
    (position : Option Nat) :
    Follows position d (d.setInfeasibleAt condition reason position) := by
  cases position with
  | none => exact .refl ..
  | some p =>
      cases condition with
      | false => exact .refl ..
      | true => exact setInfeasible_follows d reason p

/-- Recording that a bound moved changes nothing but that record. -/
theorem markMoved_eq_ok {d d' : Domain α} {c : ColumnId} {side : Side}
    (h : d.markMoved c side = .ok d') :
    d' = { d with movedSides := d'.movedSides, movedColumns := d'.movedColumns } := by
  simp only [markMoved, bind_eq_ok, pure_eq_ok] at h
  obtain ⟨sides, -, table, -, rfl⟩ := h
  rfl

theorem markMoved_returns {d : Domain α} {c : ColumnId} (hc : c < d.movedSides.size) (side : Side) :
    Returns (d.markMoved c side) fun d' =>
      d' = { d with movedSides := d'.movedSides, movedColumns := d'.movedColumns } ∧
        d'.movedSides.size = d.movedSides.size := by
  refine (fetch_returns hc).bind fun sides _ _ => ?_
  refine (store_returns _ hc).bind fun table _ htable => ?_
  subst htable
  exact .pure ⟨rfl, Array.size_setIfInBounds ..⟩

theorem markMoved_follows {d d' : Domain α} {c : ColumnId} {side : Side} (position : Option Nat)
    (h : d.markMoved c side = .ok d') :
    Follows position d d' := by
  rw [markMoved_eq_ok h]
  exact ⟨rfl, .refl ..⟩

variable [Scalar α]

/-- What the term of a moved bound does to a row: the activity follows, and on a side where at
most one term is infinite the row waits and may turn out to be violated. -/
theorem moveRowTerm_eq_ok {side : Side} {old new : α} {position : Option Nat} {d d' : Domain α}
    {r : RowId} {a : α} (h : moveRowTerm side old new position d (r, a) = .ok d') :
    ∃ activity moved row, d.activities[r]? = some activity ∧
      activity.moveTerm (decide (0 < a) == (side == .lower)) a old new = .ok moved ∧
      d.model.rows[r]? = some row ∧
      (d' = { d with activities := d.activities.setIfInBounds r moved } ∨
        ∃ condition reason,
          ({ d with activities := d.activities.setIfInBounds r moved }.setInfeasibleAt
            condition reason position).markRowDirty r = .ok d' ∧
          ((reason = .rowUpper r ∧ condition = moved.min.exceeds row.upper d.feastol) ∨
            (reason = .rowLower r ∧ condition = moved.max.fallsShort row.lower d.feastol))) := by
  simp only [moveRowTerm, bind_eq_ok, fetch_eq_ok, store_eq_ok, Model.row] at h
  obtain ⟨activity, hactivity, moved, hmoved, activities, ⟨-, rfl⟩, row, hrow, h⟩ := h
  refine ⟨activity, moved, row, hactivity, hmoved, hrow, ?_⟩
  split at h
  · split at h
    · exact .inr ⟨_, _, h, .inl ⟨rfl, rfl⟩⟩
    · rw [pure_eq_ok] at h
      exact .inl h.symm
  · split at h
    · exact .inr ⟨_, _, h, .inr ⟨rfl, rfl⟩⟩
    · rw [pure_eq_ok] at h
      exact .inl h.symm

theorem moveRowTerm_follows {side : Side} {old new : α} {position : Option Nat} {d d' : Domain α}
    {occurrence : RowId × α} (h : moveRowTerm side old new position d occurrence = .ok d') :
    Follows position d d' := by
  obtain ⟨activity, moved, row, -, -, -, hd'⟩ := moveRowTerm_eq_ok h
  have hactivities : Follows position d
      { d with activities := d.activities.setIfInBounds occurrence.1 moved } := ⟨rfl, .refl ..⟩
  rcases hd' with rfl | ⟨condition, reason, hmark, -⟩
  · exact hactivities
  · exact (hactivities.trans (setInfeasibleAt_follows ..)).trans (markRowDirty_follows _ hmark)

/-- What a moved bound does to the cuts of an attached pool: they follow it, and a violated one
makes the domain infeasible. -/
theorem moveCutTerms_eq_ok {c : ColumnId} {side : Side} {old new : α} {position : Option Nat}
    {d d' : Domain α} {index : Nat} (h : moveCutTerms c side old new position d index = .ok d') :
    ∃ propagation violated moved, d.cutPropagations[index]? = some propagation ∧
      propagation.boundMoved c side old new d.feastol = .ok (violated, moved) ∧
      d' = violated.elim { d with cutPropagations := d.cutPropagations.setIfInBounds index moved }
        fun id => { d with
          cutPropagations := d.cutPropagations.setIfInBounds index moved }.setInfeasibleAt true
            (.cut index id) position := by
  simp only [moveCutTerms, bind_eq_ok, fetch_eq_ok, store_eq_ok] at h
  obtain ⟨propagation, hfetch, ⟨violated, moved⟩, hmoved, propagations, ⟨-, rfl⟩, h⟩ := h
  refine ⟨propagation, violated, moved, hfetch, hmoved, ?_⟩
  cases violated with
  | none => exact (pure_eq_ok.mp h).symm
  | some id => exact (pure_eq_ok.mp h).symm

theorem moveCutTerms_follows {c : ColumnId} {side : Side} {old new : α} {position : Option Nat}
    {d d' : Domain α} {index : Nat} (h : moveCutTerms c side old new position d index = .ok d') :
    Follows position d d' := by
  obtain ⟨propagation, violated, moved, -, -, rfl⟩ := moveCutTerms_eq_ok h
  have hcuts : Follows position d
      { d with cutPropagations := d.cutPropagations.setIfInBounds index moved } :=
    ⟨rfl, .refl ..⟩
  cases violated with
  | none => exact hcuts
  | some id => exact hcuts.trans (setInfeasibleAt_follows ..)

/-- What a moved bound does to the objective. -/
theorem moveObjectiveTerm_eq_ok {d d' : Domain α} {c : ColumnId} {side : Side} {old new : α}
    {position : Option Nat} (h : d.moveObjectiveTerm c side old new position = .ok d') :
    (d.objective = none ∧ d' = d) ∨
      ∃ o violated moved, d.objective = some o ∧
        o.boundMoved c side old new d.feastol = .ok (violated, moved) ∧
        d' = { d with objective := some moved }.setInfeasibleAt violated .objective position := by
  unfold moveObjectiveTerm at h
  split at h
  · next hnone => exact .inl ⟨hnone, (pure_eq_ok.mp h).symm⟩
  · next o ho =>
      simp only [bind_eq_ok] at h
      obtain ⟨⟨violated, moved⟩, hmoved, h⟩ := h
      exact .inr ⟨o, violated, moved, ho, hmoved, (pure_eq_ok.mp h).symm⟩

theorem moveObjectiveTerm_follows {d d' : Domain α} {c : ColumnId} {side : Side} {old new : α}
    {position : Option Nat} (h : d.moveObjectiveTerm c side old new position = .ok d') :
    Follows position d d' := by
  rcases moveObjectiveTerm_eq_ok h with ⟨-, rfl⟩ | ⟨o, violated, moved, -, -, rfl⟩
  · exact .refl ..
  · have hobjective : Follows position d { d with objective := some moved } := ⟨rfl, .refl ..⟩
    exact hobjective.trans (setInfeasibleAt_follows ..)

/-- What a moved bound does to a domain, in the order in which it is done: the rows follow it, then
the cuts, then the conflicts if the bound was tightened, and last the objective. -/
theorem boundMoved_eq_ok {d d' : Domain α} {c : ColumnId} {side : Side} {old new : α}
    {position : Option Nat} (h : d.boundMoved c side old new position = .ok d') :
    ∃ occurrences d₁ d₂ propagations, d.model.occurrences[c]? = some occurrences ∧
      occurrences.foldlM (moveRowTerm side old new position) d = .ok d₁ ∧
      (List.range d₁.cutPropagations.size).foldlM (moveCutTerms c side old new position) d₁ =
        .ok d₂ ∧
      ((position = none ∧ propagations = d₂.conflictPropagations) ∨
        ∃ found, position.isSome ∧
          d₂.conflictPropagations.toList.mapM (fun p => p.boundTightened c) = .ok found ∧
          propagations = found.toArray) ∧
      { d₂ with conflictPropagations := propagations }.moveObjectiveTerm c side old new position =
        .ok d' := by
  simp only [boundMoved, bind_eq_ok, fetch_eq_ok] at h
  obtain ⟨occurrences, hocc, d₁, hrows, d₂, hcuts, h⟩ := h
  cases position with
  | none =>
      simp only [bind_eq_ok, pure_eq_ok] at h
      obtain ⟨d₃, rfl, hobjective⟩ := h
      exact ⟨occurrences, d₁, d₂, _, hocc, hrows, hcuts, .inl ⟨rfl, rfl⟩, hobjective⟩
  | some p =>
      simp only [bind_eq_ok, pure_eq_ok] at h
      obtain ⟨found, hfound, d₃, rfl, hobjective⟩ := h
      exact ⟨occurrences, d₁, d₂, _, hocc, hrows, hcuts, .inr ⟨found, rfl, hfound, rfl⟩,
        hobjective⟩

/-- Bringing everything up to date after a bound moved leaves the box and the log alone. -/
theorem boundMoved_follows {d d' : Domain α} {c : ColumnId} {side : Side} {old new : α}
    {position : Option Nat} (h : d.boundMoved c side old new position = .ok d') :
    Follows position d d' := by
  obtain ⟨occurrences, d₁, d₂, propagations, -, hrows, hcuts, -, hobjective⟩ := boundMoved_eq_ok h
  have h₁ : Follows position d d₁ :=
    foldlM_keeps (P := Follows position d)
      (fun s _ s' _ hs hstep => hs.trans (moveRowTerm_follows hstep)) hrows (.refl ..)
  have h₂ : Follows position d₁ d₂ :=
    foldlM_keeps (P := Follows position d₁)
      (fun s _ s' _ hs hstep => hs.trans (moveCutTerms_follows hstep)) hcuts (.refl ..)
  have h₃ : Follows position d₂ { d₂ with conflictPropagations := propagations } :=
    ⟨rfl, .refl ..⟩
  exact ((h₁.trans h₂).trans h₃).trans (moveObjectiveTerm_follows hobjective)

end Domain

end BranchBound
