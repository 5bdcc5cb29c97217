import BranchBound.Proofs.Domain.Coherence
import BranchBound.Proofs.Domain.Conflicts
import BranchBound.Proofs.Domain.Cuts
import BranchBound.Proofs.Domain.Propagation
import BranchBound.Proofs.Domain.Trail

/-!
# What is known of pools while bounds change

When a bound moves, the minimal activities of the known cuts follow it and the cuts and conflicts it
affects are marked. Which cuts and conflicts are known stays the same, and so do the lists by which
they are found: `Domain.Stirs` says this of changes and of backtracking.
-/

namespace BranchBound

open Checked

namespace CutPropagation

variable {α : Type} {p p' p'' : CutPropagation α}

/-- What moving bounds does to what is known of a cut pool: only minimal activities change. -/
structure Stirs (p p' : CutPropagation α) : Prop extends SameCuts p p' where
  occurrences : p'.occurrences = p.occurrences

theorem Agrees.stirs (h : Agrees p p') : Stirs p p' :=
  ⟨⟨h.pool, h.seen, fun id => by rw [h.known]⟩, h.occurrences⟩

theorem Stirs.refl (p : CutPropagation α) : Stirs p p := ⟨.refl p, rfl⟩

theorem Stirs.trans (h : Stirs p p') (h' : Stirs p' p'') : Stirs p p'' :=
  ⟨h.toSameCuts.trans h'.toSameCuts, h'.occurrences.trans h.occurrences⟩

section Move

variable [Scalar α] {side : Side} {old new feastol : α}

theorem moveOccurrence_stirs {violated violated' : Option CutId} {occurrence : CutId × α}
    (h : moveOccurrence side old new feastol (violated, p) occurrence = .ok (violated', p')) :
    Stirs p p' := by
  obtain ⟨id, a⟩ := occurrence
  simp only [moveOccurrence] at h
  split at h
  · cases h
    exact .refl p
  · split at h
    · cases h
      exact .refl p
    · next known hknown =>
        simp only [bind_eq_ok, pure_eq_ok, Prod.mk.injEq] at h
        obtain ⟨min, -, -, rfl⟩ := h
        have hmin : Stirs p { p with cuts := p.cuts.insert id { known with min := min } } := by
          refine ⟨⟨rfl, rfl, fun other => ?_⟩, rfl⟩
          simp only [CutPropagation.known, Slots.get?_insert]
          split
          · next heq =>
              subst heq
              rw [hknown]
              rfl
          · rfl
        split
        · exact hmin.trans (agrees_markDirty _ id).stirs
        · exact hmin

theorem boundMoved_stirs {c : ColumnId} {violated : Option CutId}
    (h : p.boundMoved c side old new feastol = .ok (violated, p')) : Stirs p p' := by
  simp only [boundMoved, bind_eq_ok] at h
  obtain ⟨found, -, h⟩ := h
  exact foldlM_keeps (P := fun state : Option CutId × CutPropagation α => Stirs p state.2)
    (fun _ _ _ _ hs hstep => hs.trans (moveOccurrence_stirs hstep)) h (.refl p)

end Move

end CutPropagation

/-- A bound of a column became tighter: the conflicts over it are marked. -/
theorem ConflictPropagation.boundTightened_agrees {α : Type} {p p' : ConflictPropagation α}
    {c : ColumnId} (h : p.boundTightened c = .ok p') : Agrees p p' := by
  simp only [boundTightened, bind_eq_ok, pure_eq_ok] at h
  obtain ⟨found, -, rfl⟩ := h
  exact agrees_foldl_markDirty p found

/-- The kinds of constraints that come from pools. -/
inductive PooledKind where
  | cut
  | conflict
  deriving DecidableEq

namespace Domain

variable {α : Type}

/-- What moving bounds does to what is known of the attached pools. -/
structure Stirs (d d' : Domain α) : Prop where
  cuts : List.Forall₂ CutPropagation.Stirs d.cutPropagations.toList d'.cutPropagations.toList
  conflicts : List.Forall₂ ConflictPropagation.Agrees d.conflictPropagations.toList
    d'.conflictPropagations.toList

variable {d d' d'' : Domain α}

theorem Stirs.of_same (hcuts : d'.cutPropagations = d.cutPropagations)
    (hconflicts : d'.conflictPropagations = d.conflictPropagations) : Stirs d d' := by
  refine ⟨?_, ?_⟩
  · rw [hcuts]
    exact List.forall₂_same.mpr fun p _ => .refl p
  · rw [hconflicts]
    exact List.forall₂_same.mpr fun p _ => .refl p

theorem Stirs.refl (d : Domain α) : Stirs d d := .of_same rfl rfl

theorem Stirs.trans (h : Stirs d d') (h' : Stirs d' d'') : Stirs d d'' :=
  ⟨forall₂_trans (fun _ _ _ hxy hyz => hxy.trans hyz) h.cuts h'.cuts,
    forall₂_trans (fun _ _ _ hxy hyz => hxy.trans hyz) h.conflicts h'.conflicts⟩

variable [Scalar α]

/-- A moved bound marks what it affects. -/
theorem boundMoved_stirs {c : ColumnId} {side : Side} {old new : α} {position : Option Nat}
    (h : d.boundMoved c side old new position = .ok d') : Stirs d d' := by
  obtain ⟨occurrences, d₁, d₂, propagations, -, hrows, hcuts, hconflicts, hobjective⟩ :=
    boundMoved_eq_ok h
  have hset : ∀ (e : Domain α) condition reason,
      (e.setInfeasibleAt condition reason position).cutPropagations = e.cutPropagations ∧
        (e.setInfeasibleAt condition reason position).conflictPropagations =
          e.conflictPropagations := by
    intro e condition reason
    rw [setInfeasibleAt_eq]
    exact ⟨rfl, rfl⟩
  have h₁ : Stirs d d₁ := by
    refine foldlM_keeps (P := Stirs d) (fun e o e' _ he hstep => he.trans ?_) hrows (.refl d)
    obtain ⟨activity, moved, row, -, -, -, rfl | ⟨condition, reason, hmark, -⟩⟩ :=
      moveRowTerm_eq_ok hstep
    · exact .of_same rfl rfl
    · rw [markRowDirty_eq_ok hmark]
      obtain ⟨hsame, hsame'⟩ := hset _ condition reason
      exact .of_same hsame hsame'
  have h₂ : Stirs d₁ d₂ := by
    refine foldlM_keeps (P := Stirs d₁) (fun e index e' _ he hstep => he.trans ?_) hcuts
      (.refl d₁)
    obtain ⟨p, violated, moved, hp, hmoved, rfl⟩ := moveCutTerms_eq_ok hstep
    have hcut : Stirs e { e with
        cutPropagations := e.cutPropagations.setIfInBounds index moved } := by
      refine ⟨?_, List.forall₂_same.mpr fun p _ => .refl p⟩
      rw [Array.toList_setIfInBounds]
      exact forall₂_set CutPropagation.Stirs.refl (by simpa using hp)
        (CutPropagation.boundMoved_stirs hmoved)
    cases violated with
    | none => exact hcut
    | some id =>
        obtain ⟨hsame, hsame'⟩ := hset { e with
          cutPropagations := e.cutPropagations.setIfInBounds index moved } true (.cut index id)
        exact hcut.trans (.of_same hsame hsame')
  have h₃ : Stirs d₂ { d₂ with conflictPropagations := propagations } := by
    refine ⟨List.forall₂_same.mpr fun p _ => .refl p, ?_⟩
    rcases hconflicts with ⟨-, rfl⟩ | ⟨found, -, hfound, rfl⟩
    · exact List.forall₂_same.mpr fun p _ => .refl p
    · exact (mapM_eq_ok.mp hfound).imp fun _ _ hmark =>
        ConflictPropagation.boundTightened_agrees hmark
  refine ((h₁.trans h₂).trans h₃).trans ?_
  rcases moveObjectiveTerm_eq_ok hobjective with ⟨-, rfl⟩ | ⟨o, violated, moved, -, -, rfl⟩
  · exact .refl _
  · obtain ⟨hsame, hsame'⟩ := hset _ violated .objective
    exact .of_same hsame hsame'

omit [Scalar α] in
theorem markMoved_stirs {c : ColumnId} {side : Side} (h : d.markMoved c side = .ok d') :
    Stirs d d' := by
  rw [markMoved_eq_ok h]
  exact .of_same rfl rfl

omit [Scalar α] in
theorem logged_stirs (d : Domain α) (change : BoundChange α) (reason : Reason)
    (previous : Bound α) (crossing : Bool) :
    Stirs d (d.logged change reason previous crossing) := by
  unfold logged
  dsimp only
  split
  · unfold setInfeasible
    split <;> exact .of_same rfl rfl
  · exact .of_same rfl rfl

theorem changeBound_stirs {change : BoundChange α} {reason : Reason}
    (h : d.changeBound change reason = .ok d') : Stirs d d' := by
  rcases changeBound_eq_ok h with
    ⟨-, rfl⟩ | ⟨-, current, opposite, -, -, ⟨-, rfl⟩ | ⟨value, crossing, -, happly⟩⟩
  · exact .refl _
  · exact .refl _
  obtain ⟨previous, -, hd'⟩ := applyChange_eq_ok happly
  have hlogged := logged_stirs d { change with value := value } reason previous crossing
  rcases hd' with ⟨-, rfl⟩ | ⟨-, followed, hmoved, hmark⟩
  · exact hlogged
  · exact (hlogged.trans (boundMoved_stirs hmoved)).trans (markMoved_stirs hmark)

theorem changeBounds_stirs {changes : List (BoundChange α × Reason)}
    (h : d.changeBounds changes = .ok d') : Stirs d d' :=
  changeBounds_keeps (P := Stirs d)
    (fun _ _ _ _ hstirs hchange => hstirs.trans (changeBound_stirs hchange)) h (.refl d)

theorem undo_stirs {entry : LogEntry α} (h : d.undo entry = .ok d') : Stirs d d' := by
  obtain ⟨current, -, ⟨-, rfl⟩ | ⟨-, followed, hmoved, hmark⟩⟩ := undo_eq_ok h
  · exact .of_same rfl rfl
  · have hrestored : Stirs d (d.withTrail (d.trail.restore entry)) := .of_same rfl rfl
    exact (hrestored.trans (boundMoved_stirs hmoved)).trans (markMoved_stirs hmark)

theorem backtrackTo_stirs {position : Nat} (h : d.backtrackTo position = .ok d') : Stirs d d' := by
  rcases backtrackTo_eq_ok h with ⟨-, rfl⟩ | ⟨-, undone, hundone, rfl⟩
  · exact .refl _
  · have hshortened : Stirs d (d.shortened position) := .of_same rfl rfl
    have hundo : Stirs (d.shortened position) undone :=
      foldlM_keeps (P := Stirs (d.shortened position))
        (fun _ _ _ _ hs hstep => hs.trans (undo_stirs hstep)) hundone (.refl _)
    exact (hshortened.trans hundo).trans (.of_same rfl rfl)

end Domain

end BranchBound
