import BranchBound.Proofs.Domain.Violations

/-!
# What propagation leaves unviolated

Propagation that leaves a domain feasible leaves it with a box over which no constraint is violated,
for two kinds of constraints: the sides of rows and of cuts that were not violated by any earlier
box, and the objective, if every change of its bound or of the cutoff since the last comparison is
still on record. That record is the flag which makes the objective wait. Propagation lowers it
before it compares the bound with the cutoff, so what it finds is lost if backtracking does not
raise the flag again.
-/

namespace BranchBound

open Checked Exact

namespace Domain

variable {α : Type} [Scalar α] {d d' : Domain α}

/-- The objective is known not to exceed the cutoff, or it waits to be compared with it. -/
def ObjectiveTested (d : Domain α) : Prop :=
  ∀ o, d.objective = some o → o.needsPropagation = true ∨ o.isViolated d.feastol = false

/-- The objective waits. -/
def ObjectiveWaits (d : Domain α) : Prop :=
  ∀ o, d.objective = some o → o.needsPropagation = true

/-- The objective was found to exceed the cutoff after the last change. -/
def CutOff (d : Domain α) : Prop := d.infeasible = some ⟨.objective, d.log.size⟩

theorem ObjectiveWaits.tested (h : d.ObjectiveWaits) :
    d.ObjectiveTested := fun o ho => .inl (h o ho)

theorem ObjectiveTested.of_same (h : d.ObjectiveTested) (hobjective : d'.objective = d.objective)
    (hfeastol : d'.feastol = d.feastol) : d'.ObjectiveTested := by
  rwa [ObjectiveTested, hobjective, hfeastol]

theorem ObjectiveTested.moveRowTerm (h : d.ObjectiveTested) {side : Side} {old new : α}
    {position : Option Nat} {occurrence : RowId × α}
    (hmoved : moveRowTerm side old new position d occurrence = .ok d') : d'.ObjectiveTested := by
  obtain ⟨activity, moved, row, -, -, -, rfl | ⟨condition, reason, hmark, -⟩⟩ :=
    moveRowTerm_eq_ok hmoved
  · exact h
  · rw [markRowDirty_eq_ok hmark, setInfeasibleAt_eq]
    exact h

theorem ObjectiveTested.moveCutTerms (h : d.ObjectiveTested) {c : ColumnId} {side : Side}
    {old new : α}
    {position : Option Nat} {index : Nat}
    (hmoved : moveCutTerms c side old new position d index = .ok d') : d'.ObjectiveTested := by
  obtain ⟨p, violated, moved, -, -, rfl⟩ := moveCutTerms_eq_ok hmoved
  cases violated with
  | none => exact h
  | some id =>
      rw [Option.elim_some, setInfeasibleAt_eq]
      exact h

/-- A bound that moves leaves the objective alone or makes it wait. -/
theorem ObjectiveTested.boundMoved (h : d.ObjectiveTested) {c : ColumnId} {side : Side}
    {old new : α}
    {position : Option Nat} (hmoved : d.boundMoved c side old new position = .ok d') :
    d'.ObjectiveTested := by
  obtain ⟨occurrences, d₁, d₂, propagations, -, hrows, hcuts, -, hobjective⟩ :=
    boundMoved_eq_ok hmoved
  have h₁ : d₁.ObjectiveTested :=
    foldlM_keeps (fun _ _ _ _ he hstep => he.moveRowTerm hstep) hrows h
  have h₂ : d₂.ObjectiveTested :=
    foldlM_keeps (fun _ _ _ _ he hstep => he.moveCutTerms hstep) hcuts h₁
  rcases moveObjectiveTerm_eq_ok hobjective with ⟨-, rfl⟩ | ⟨o, violated, moved, ho, hmove, rfl⟩
  · exact h₂
  · rw [setInfeasibleAt_eq]
    intro o' ho'
    obtain rfl := Option.some.inj ho'
    rcases ObjectivePropagation.boundMoved_tested hmove with rfl | ⟨hwaits, -⟩
    · exact h₂ moved ho
    · exact .inl hwaits

theorem ObjectiveTested.changeBound (h : d.ObjectiveTested) {change : BoundChange α}
    {reason : Reason}
    (hchange : d.changeBound change reason = .ok d') : d'.ObjectiveTested := by
  rcases changeBound_eq_ok hchange with
    ⟨-, rfl⟩ | ⟨hnone, current, opposite, -, -, ⟨-, rfl⟩ | ⟨value, crossing, -, happly⟩⟩
  · exact h
  · exact h
  obtain ⟨previous, -, hd'⟩ := applyChange_eq_ok happly
  have hlogged :
    (d.logged { change with value := value } reason previous crossing).ObjectiveTested := by
    rw [logged_eq _ _ _ _ _ hnone]
    exact h
  rcases hd' with ⟨-, rfl⟩ | ⟨-, followed, hmoved, hmark⟩
  · exact hlogged
  · have hfollowed := hlogged.boundMoved hmoved
    rw [markMoved_eq_ok hmark]
    exact hfollowed

theorem ObjectiveTested.changeBounds (h : d.ObjectiveTested)
    {changes : List (BoundChange α × Reason)}
    (hchanges : d.changeBounds changes = .ok d') : d'.ObjectiveTested :=
  changeBounds_keeps (fun _ _ _ _ he hchange => he.changeBound hchange) hchanges h

theorem ObjectiveTested.backtrackTo (h : d.ObjectiveTested) {position : Nat}
    (hback : d.backtrackTo position = .ok d') : d'.ObjectiveTested := by
  rcases backtrackTo_eq_ok hback with ⟨-, rfl⟩ | ⟨-, undone, hundone, rfl⟩
  · exact h
  · have hundo : undone.ObjectiveTested :=
      foldlM_keeps (fun e entry e' _ he hundo => by
        obtain ⟨current, -, ⟨-, rfl⟩ | ⟨-, followed, hmoved, hmark⟩⟩ := undo_eq_ok hundo
        · exact he
        · have hrestored : (e.withTrail (e.trail.restore entry)).ObjectiveTested := he
          have hfollowed := hrestored.boundMoved hmoved
          rw [markMoved_eq_ok hmark]
          exact hfollowed) hundone h
    exact hundo

/-- Everything that is set without moving bounds makes the objective wait if it concerns it. -/
theorem ObjectiveTested.adjusts (h : d.ObjectiveTested) (hadjusts : d.Adjusts d') :
    d'.ObjectiveTested := by
  have hrecomputed : ∀ {o o' : ObjectivePropagation α} {lower upper : Array (Bound α)},
      o.recompute lower upper = .ok o' → o'.needsPropagation = true := by
    intro o o' lower upper hrecompute
    simp only [ObjectivePropagation.recompute, bind_eq_ok, pure_eq_ok] at hrecompute
    obtain ⟨_, -, _, -, rfl⟩ := hrecompute
    rfl
  cases hadjusts with
  | same | attachCuts _ | attachConflicts _ | setCliques _ | setVariableBounds _ | clearMoved =>
      exact h
  | markInfeasible reason =>
      rw [markInfeasible_eq]
      exact h
  | setupObjective hsetup =>
      simp only [Domain.setupObjective, bind_eq_ok, pure_eq_ok] at hsetup
      obtain ⟨_, -, o, hrecompute, rfl⟩ := hsetup
      intro o' ho'
      obtain rfl := Option.some.inj ho'
      exact .inl (hrecomputed hrecompute)
  | setObjectiveCutoff cutoff =>
      unfold Domain.setObjectiveCutoff
      split
      · exact h
      · dsimp only
        split
        · intro o' ho'
          obtain rfl := Option.some.inj ho'
          exact .inl rfl
        · exact h
  | refreshActivities hrefresh =>
      have hfeastol : d'.feastol = d.feastol := by rw [refreshActivities_eq_ok hrefresh]
      simp only [Domain.refreshActivities, bind_eq_ok] at hrefresh
      obtain ⟨d₁, hrows, hrefresh⟩ := hrefresh
      have hsame : d₁.objective = d.objective :=
        foldlM_keeps (P := fun e => e.objective = d.objective)
        (fun e r e' _ he hstep => by
          rw [bind_eq_ok] at hstep
          obtain ⟨fresh, hfresh, hmark⟩ := hstep
          rw [markRowDirty_eq_ok hmark, refreshActivity_eq_ok hfresh]
          exact he) hrows rfl
      split at hrefresh
      · obtain rfl := pure_eq_ok.mp hrefresh
        exact h.of_same hsame hfeastol
      · simp only [bind_eq_ok, pure_eq_ok] at hrefresh
        obtain ⟨o, hrecompute, rfl⟩ := hrefresh
        intro o' ho'
        obtain rfl := Option.some.inj ho'
        exact .inl (hrecomputed hrecompute)

section Stages

variable {pools pools' : Pools α}

theorem ObjectiveTested.propagateImplications (h : d.ObjectiveTested)
    (hrun : propagateImplications.perform d = (.ok (), d')) : d'.ObjectiveTested := by
  have hall : ∀ changes (e e' : Domain α), e.ObjectiveTested →
      (applyWorthwhile changes).perform e = (.ok (), e') → e'.ObjectiveTested := by
    intro changes
    induction changes with
    | nil =>
        intro e e' he hrun
        simp only [applyWorthwhile, Action.perform_pure, Prod.mk.injEq, true_and] at hrun
        exact hrun ▸ he
    | cons x rest ih =>
        intro e e' he hrun
        simp only [applyWorthwhile, Action.perform_bind_eq_ok, Action.perform_change_eq_ok,
          Action.perform_get, Prod.mk.injEq, Except.ok.injEq] at hrun
        obtain ⟨-, next, hnext, _, _, ⟨rfl, rfl⟩, hrun⟩ := hrun
        have hchanged : next.ObjectiveTested := by
          rcases changeIfWorthwhile_eq_ok hnext with rfl | ⟨accepted, -, hchange⟩
          · exact he
          · exact he.changeBound hchange
        split at hrun
        · exact ih next e' hchanged hrun
        · simp only [Action.perform_pure, Prod.mk.injEq, true_and] at hrun
          exact hrun ▸ hchanged
  simp only [Domain.propagateImplications, Action.perform_bind_eq_ok, Action.perform_get,
    Prod.mk.injEq, Except.ok.injEq] at hrun
  obtain ⟨_, _, ⟨rfl, rfl⟩, hrun⟩ := hrun
  split at hrun
  · simp only [Action.perform_set, Prod.mk.injEq, true_and] at hrun
    exact hrun ▸ h
  · simp only [Action.perform_bind_eq_ok] at hrun
    obtain ⟨changes, looked, hlooked, hrun⟩ := hrun
    refine hall changes looked d' ?_ hrun
    rw [(impliedByEntries_eq_ok hlooked).1]
    exact h

theorem ObjectiveTested.visitRows {rows : List RowId} (h : d.ObjectiveTested)
    (hvisit : d.visitRows rows = .ok d') : d'.ObjectiveTested := by
  induction rows generalizing d with
  | nil =>
      cases hvisit
      exact h
  | cons r rest ih =>
      simp only [Domain.visitRows, bind_eq_ok] at hvisit
      obtain ⟨⟨fresh, changes⟩, hchanges, changed, hchanged, hvisit⟩ := hvisit
      have hfresh : fresh.ObjectiveTested := by
        rcases (rowChanges_eq_ok hchanges).1 with rfl | hrefresh
        · exact h
        · rw [refreshActivity_eq_ok hrefresh]
          exact h
      have hall := hfresh.changeBounds hchanged
      split at hvisit
      · exact foldlM_keeps (fun e r e' _ he hmark => by
          rw [markRowDirty_eq_ok hmark]
          exact he) hvisit hall
      · exact ih hall hvisit

theorem ObjectiveTested.propagateRows (h : d.ObjectiveTested) (hrun : d.propagateRows = .ok d') :
    d'.ObjectiveTested := by
  simp only [Domain.propagateRows, bind_eq_ok] at hrun
  obtain ⟨flags, -, hvisit⟩ := hrun
  exact ObjectiveTested.visitRows (d := { d with waitingRows := [], rowDirty := flags }) h hvisit

theorem ObjectiveTested.visitCuts {index : Nat} {ids : List CutId} (h : d.ObjectiveTested)
    (hvisit : d.visitCuts index ids = .ok d') : d'.ObjectiveTested := by
  induction ids generalizing d with
  | nil =>
      cases hvisit
      exact h
  | cons id rest ih =>
      simp only [Domain.visitCuts, bind_eq_ok] at hvisit
      obtain ⟨p, -, hvisit⟩ := hvisit
      split at hvisit
      · exact ih h hvisit
      · simp only [bind_eq_ok] at hvisit
        obtain ⟨clean, hclean, hvisit⟩ := hvisit
        obtain ⟨q, -, htaken⟩ := onCuts_eq_ok hclean
        have h₁ : clean.ObjectiveTested := by
          rw [htaken]
          exact h
        split at hvisit
        · exact ih h₁ hvisit
        · simp only [bind_eq_ok] at hvisit
          obtain ⟨changes, -, changed, hchanged, hvisit⟩ := hvisit
          have hall := h₁.changeBounds hchanged
          split at hvisit
          · obtain ⟨q', -, rfl⟩ := onCuts_eq_ok hvisit
            exact hall
          · exact ih hall hvisit

theorem ObjectiveTested.visitConflicts {index : Nat} {ids : List ConflictId} (h : d.ObjectiveTested)
    (hvisit : visitConflicts pools d index ids = .ok (pools', d')) : d'.ObjectiveTested := by
  induction ids generalizing pools d with
  | nil =>
      cases hvisit
      exact h
  | cons id rest ih =>
      simp only [Domain.visitConflicts, bind_eq_ok] at hvisit
      obtain ⟨p, -, hvisit⟩ := hvisit
      split at hvisit
      · exact ih h hvisit
      · simp only [bind_eq_ok] at hvisit
        obtain ⟨clean, hclean, ⟨pools₁, visited⟩, hone, hvisit⟩ := hvisit
        obtain ⟨q, -, htaken⟩ := onConflicts_eq_ok hclean
        have h₁ : clean.ObjectiveTested := by
          rw [htaken]
          exact h
        have hvisited : visited.ObjectiveTested := by
          simp only [visitConflict, bind_eq_ok] at hone
          obtain ⟨_, -, inactive, -, hone⟩ := hone
          split at hone
          · simp only [bind_eq_ok, pure_eq_ok, Prod.mk.injEq] at hone
            obtain ⟨_, -, -, rfl⟩ := hone
            rw [markInfeasible_eq]
            exact h₁
          · simp only [← ite_bind] at hone
            simp only [bind_eq_ok, pure_eq_ok, Prod.mk.injEq] at hone
            obtain ⟨_, -, after, hchange, _, -, -, rfl⟩ := hone
            exact h₁.changeBound hchange
          · simp only [pure_eq_ok, Prod.mk.injEq] at hone
            rw [← hone.2]
            exact h₁
        split at hvisit
        · simp only [bind_eq_ok, pure_eq_ok, Prod.mk.injEq] at hvisit
          obtain ⟨requeued, hrequeued, -, rfl⟩ := hvisit
          obtain ⟨q', -, rfl⟩ := onConflicts_eq_ok hrequeued
          exact hvisited
        · exact ih hvisited hvisit

/-- Propagation of the objective of a feasible domain compares it with the cutoff. -/
theorem ObjectiveTested.propagateObjective (h : d.ObjectiveTested) (hfeasible : d.infeasible = none)
    (hrun : d.propagateObjective = .ok d') : d'.ObjectiveTested ∨ d'.CutOff := by
  unfold Domain.propagateObjective at hrun
  split at hrun
  · exact .inl (pure_eq_ok.mp hrun ▸ h)
  next o ho =>
    split at hrun
    · exact .inl (pure_eq_ok.mp hrun ▸ h)
    have hread : o.isViolated d.feastol = false →
        ({ d with objective := some { o with needsPropagation := false } } :
          Domain α).ObjectiveTested := by
      intro hholds o' ho'
      obtain rfl := Option.some.inj ho'
      exact .inr hholds
    dsimp only at hrun
    split at hrun
    · next hmany =>
        rw [← pure_eq_ok.mp hrun]
        refine .inl (hread ?_)
        rw [ObjectivePropagation.isViolated, PartialSum.exceeds,
          beq_eq_false_iff_ne.mpr (Nat.ne_of_gt (Nat.lt_of_succ_lt hmany)), Bool.false_and]
    split at hrun
    · rw [← pure_eq_ok.mp hrun, CutOff, markInfeasible, setInfeasible, hfeasible]
      exact .inr rfl
    · next hholds =>
        rw [bind_eq_ok] at hrun
        obtain ⟨changes, -, hchanged⟩ := hrun
        exact .inl ((hread (Bool.eq_false_iff.mpr hholds)).changeBounds hchanged)

end Stages

end Domain

/-- That the objective exceeds the cutoff is not forgotten while a domain is propagated. -/
theorem Domain.CutOff.advances {α : Type} [Scalar α] {s s' : PropagationState α}
    (h : s.domain.CutOff)
    (hadvances : Advances s s') : s'.domain.CutOff := by
  have hinfeasible : s.domain.infeasible ≠ none := by
    rw [h]
    exact Option.some_ne_none _
  obtain ⟨htrail, hsame⟩ := (Advances.grows hadvances).of_infeasible hinfeasible
  have hlog : s'.domain.log = s.domain.log := congrArg Trail.log htrail
  rw [CutOff, hsame, hlog]
  exact h

namespace PropagationStep

variable {α : Type} [Scalar α] {s s' : PropagationState α}

/-- What propagation keeps of the objective. -/
def Watches (s s' : PropagationState α) : Prop :=
  Advances s s' ∧ (s.domain.ObjectiveTested ∨ s.domain.CutOff →
    s'.domain.ObjectiveTested ∨ s'.domain.CutOff)

theorem Watches.of_tested (hadvances : Advances s s')
    (htested : s.domain.ObjectiveTested → s'.domain.ObjectiveTested) : Watches s s' :=
  ⟨hadvances, fun h => h.imp htested fun hcutOff => hcutOff.advances hadvances⟩

theorem watches_stages : Stages (Watches : PropagationState α → PropagationState α → Prop) where
  refl := fun _ => ⟨.refl, id⟩
  trans := fun _ _ _ h h' => ⟨h.1.trans h'.1, fun hs => h'.2 (h.2 hs)⟩
  implications := fun pools _ _ hrun =>
    .of_tested (Domain.propagateImplications_advances pools hrun)
    fun h => h.propagateImplications hrun
  rows := fun pools _ _ hrun => .of_tested (Domain.propagateRows_advances pools hrun)
    fun h => h.propagateRows hrun
  conflicts := fun index s s' hfeasible hrun => by
    refine .of_tested (propagateConflicts_advances hfeasible hrun) fun h => ?_
    simp only [propagateConflicts, Action.perform_bind_eq_ok, Action.perform_get,
      Action.perform_lift, Action.perform_set, Prod.mk.injEq, Except.ok.injEq, true_and] at hrun
    obtain ⟨⟨⟩, read, hread, _, _, ⟨rfl, rfl⟩, ⟨pools, d'⟩, _, ⟨hvisit, rfl⟩, rfl⟩ := hrun
    simp only [Domain.visitWaitingConflicts, bind_eq_ok] at hvisit
    obtain ⟨p, -, taken, htaken, hvisit⟩ := hvisit
    obtain ⟨q, -, htaken⟩ := Domain.onConflicts_eq_ok htaken
    have hread' : read.domain.ObjectiveTested := by
      simp only [synchroniseConflicts, Action.perform_bind_eq_ok, Action.perform_get,
        Action.perform_lift, changeDomain_eq_ok, Prod.mk.injEq, Except.ok.injEq] at hread
      obtain ⟨_, _, ⟨rfl, rfl⟩, _, _, ⟨-, rfl⟩, pool, _, ⟨-, rfl⟩, -, _, ⟨after, hafter, rfl⟩, -,
        rfl⟩ := hread
      obtain ⟨q, -, rfl⟩ := Domain.onConflicts_eq_ok hafter
      exact h
    have htaken' : taken.ObjectiveTested := by
      rw [htaken]
      exact hread'
    exact htaken'.visitConflicts hvisit
  cuts := fun index s s' hfeasible hrun => by
    refine .of_tested (propagateCuts_advances hfeasible hrun) fun h => ?_
    simp only [propagateCuts, Action.perform_bind_eq_ok, changeDomain_eq_ok] at hrun
    obtain ⟨⟨⟩, read, hread, d', hvisit, rfl⟩ := hrun
    simp only [Domain.visitWaitingCuts, bind_eq_ok] at hvisit
    obtain ⟨p, -, taken, htaken, hvisit⟩ := hvisit
    obtain ⟨q, -, htaken⟩ := Domain.onCuts_eq_ok htaken
    have hread' : read.domain.ObjectiveTested := by
      simp only [synchroniseCuts, Action.perform_bind_eq_ok, Action.perform_get,
        Action.perform_lift,
        changeDomain_eq_ok, Prod.mk.injEq, Except.ok.injEq] at hread
      obtain ⟨_, _, ⟨rfl, rfl⟩, _, _, ⟨-, rfl⟩, pool, _, ⟨-, rfl⟩, -, _, ⟨after, hafter, rfl⟩, -,
        rfl⟩ := hread
      obtain ⟨q, -, rfl⟩ := Domain.onCuts_eq_ok hafter
      exact h
    have htaken' : taken.ObjectiveTested := by
      rw [htaken]
      exact hread'
    exact htaken'.visitCuts hvisit
  objective := fun pools _ _ hfeasible hrun => by
    have hadvances := Domain.propagateObjective_advances pools hrun
    exact ⟨hadvances, fun h => h.elim (fun htested => htested.propagateObjective hfeasible hrun)
      fun hcutOff => .inr (hcutOff.advances hadvances)⟩

end PropagationStep

section Operations

variable {α : Type} [Scalar α] {s s' : PropagationState α} {op : Operation α}

/-- A domain that was cut off is only taken back if the objective waits again afterwards. -/
def Operation.Remembers (op : Operation α) (s : PropagationState α) : Prop :=
  s.domain.CutOff → ∀ s', op.perform s = .ok s' → s'.domain.CutOff ∨ s'.domain.ObjectiveWaits

theorem Operation.Remembers.of_feasible (h : s.domain.infeasible = none) : op.Remembers s := by
  intro hcutOff
  rw [Domain.CutOff, h] at hcutOff
  cases hcutOff

theorem Operation.Remembers.of_waits (hperform : op.perform s = .ok s')
    (h : s'.domain.ObjectiveWaits) : op.Remembers s := by
  intro _ s'' hs''
  obtain rfl := Except.ok.inj (hperform.symm.trans hs'')
  exact .inr h

theorem Operation.tested_or_cutOff (h : s.domain.ObjectiveTested ∨ s.domain.CutOff)
    (hremembers : op.Remembers s) (hperform : op.perform s = .ok s') :
    s'.domain.ObjectiveTested ∨ s'.domain.CutOff := by
  rcases h with htested | hcutOff
  · cases hmoves : op.movesBounds with
    | false => exact .inl (htested.adjusts (adjusts hmoves hperform))
    | true =>
        by_cases hpropagates : op = .propagate
        · subst hpropagates
          simp only [perform, Domain.propagate, bind_eq_ok, pure_eq_ok] at hperform
          obtain ⟨⟨pools, d⟩, ⟨⟨⟨⟩, after⟩, hfinish, rfl, rfl⟩, rfl⟩ := hperform
          exact (PropagationStep.propagate_related PropagationStep.watches_stages
            (Action.finish_eq_ok.mp hfinish)).2 (.inl htested)
        · have hall : ∀ t, Relation.ReflTransGen op.Stage s t → t.domain.ObjectiveTested := by
            intro t ht
            induction ht with
            | refl => exact htested
            | tail _ hstage ih =>
                cases hstage with
                | change _ _ hchange => exact ih.changeBound hchange
                | back hback => exact ih.backtrackTo hback
                | advance hop _ => exact absurd hop hpropagates
          exact .inl (hall s' (stages hmoves hperform))
  · exact (hremembers hcutOff s' hperform).symm.imp_left Domain.ObjectiveWaits.tested

theorem Operation.runs_tested_or_cutOff
    (hruns : Operation.Runs (fun s op => op.Remembers s) s s')
    (h : s.domain.ObjectiveTested ∨ s.domain.CutOff) :
    s'.domain.ObjectiveTested ∨ s'.domain.CutOff := by
  induction hruns with
  | refl => exact h
  | tail _ hstep ih =>
      obtain ⟨op, hremembers, hperform⟩ := hstep
      exact tested_or_cutOff ih hremembers hperform

end Operations

section Exact

variable {f : ℚ}

theorem PartialSum.exceeds_infinity (s : PartialSum Exact) :
    s.exceeds Scalar.infinity (number f) = false := by
  rw [exceeds, Bool.and_eq_false_iff]
  refine .inr (decide_eq_false fun hlt => ?_)
  cases hvalue : s.finite.value with
  | number _ | plus | minus | nan =>
      rw [hvalue] at hlt
      cases hlt

theorem eq_infinity_of_beq {x : Exact} (h : (x == Scalar.infinity) = true) :
    x = Scalar.infinity := by
  cases x with
  | plus => rfl
  | number _ | minus | nan => cases h

/-- Adding the same to both sides does not matter. -/
theorem add_lt_of_add_lt_add {x y z : Exact} (h : x + z + number f < y + z) : x + number f < y := by
  cases z with
  | number r =>
      cases x with
      | number p =>
          cases y with
          | number q =>
              rw [number_add, number_add, number_add, number_lt] at h
              rw [number_add, number_lt]
              linarith
          | plus => rfl
          | minus | nan => cases h
      | minus =>
          cases y with
          | number _ | plus => rfl
          | minus | nan => cases h
      | plus | nan => cases y <;> cases h
  | plus | minus | nan => cases x <;> cases y <;> cases h

/-- Propagation of the objective that changes nothing and leaves the domain feasible has compared
the bound of the objective with the cutoff. -/
theorem Domain.propagateObjective_quiet {d d' : Domain Exact} (hfeastol : d.feastol = number f)
    (h : d.ObjectiveTested) (hrun : d.propagateObjective = .ok d')
    (hfeasible : d'.infeasible = none)
    (hlog : d'.log.size = d.log.size) {o : ObjectivePropagation Exact}
    (ho : d'.objective = some o) :
    o.isViolated (number f) = false := by
  unfold propagateObjective at hrun
  split at hrun
  · next hnone =>
      rw [← pure_eq_ok.mp hrun, hnone] at ho
      cases ho
  next o' ho' =>
    split at hrun
    · next hguard =>
        rw [← pure_eq_ok.mp hrun] at ho
        rcases Bool.or_eq_true_iff.mp hguard with hrests | hinfinite
        · rw [← hfeastol]
          refine (h o ho).resolve_left fun hwaits => ?_
          obtain rfl := Option.some.inj (ho'.symm.trans ho)
          rw [hwaits] at hrests
          cases hrests
        · obtain rfl := Option.some.inj (ho'.symm.trans ho)
          rw [ObjectivePropagation.isViolated, eq_infinity_of_beq hinfinite]
          exact PartialSum.exceeds_infinity _
    dsimp only at hrun
    split at hrun
    · next hmany =>
        rw [← pure_eq_ok.mp hrun] at ho
        obtain rfl := Option.some.inj ho
        rw [ObjectivePropagation.isViolated, PartialSum.exceeds,
          beq_eq_false_iff_ne.mpr (Nat.ne_of_gt (Nat.lt_of_succ_lt hmany)), Bool.false_and]
    split at hrun
    · rw [← pure_eq_ok.mp hrun, markInfeasible, setInfeasible] at hfeasible
      split at hfeasible
      · next hsome =>
          rw [hsome] at hfeasible
          cases hfeasible
      · cases hfeasible
    · next hholds =>
        rw [bind_eq_ok] at hrun
        obtain ⟨changes, -, hchanged⟩ := hrun
        rcases changeBounds_same_or_longer hchanged with rfl | hlonger
        · obtain rfl := Option.some.inj ho
          rw [← hfeastol]
          exact Bool.eq_false_iff.mpr hholds
        · exact absurd hlog hlonger.ne'

/-- Propagation that leaves a domain feasible leaves the objective within the cutoff. -/
theorem PropagationState.objective_le_cutoff {s : PropagationState Exact} {pools : Pools Exact}
    {d : Domain Exact} (hsettled : s.Settled (.exact .any)) (hfeastol : s.domain.feastol = number f)
    (h : s.domain.ObjectiveTested ∨ s.domain.CutOff)
    (hpropagate : s.domain.propagate s.pools = .ok (pools, d)) (hfeasible : d.infeasible = none) :
    ¬d.objectiveCutoff + number f < d.objectiveLowerBound := by
  have hadvances := Domain.propagate_advances hpropagate
  have hperform : PropagationStep.propagate.perform s = (.ok (), ⟨pools, d⟩) := by
    simp only [Domain.propagate, bind_eq_ok, pure_eq_ok, Prod.mk.injEq] at hpropagate
    obtain ⟨⟨_, after⟩, hfinish, rfl, rfl⟩ := hpropagate
    exact Action.finish_eq_ok.mp hfinish
  obtain ⟨t, hwatches, hround, hlog⟩ :=
    PropagationStep.propagate_endsQuiet PropagationStep.watches_stages hperform hfeasible
  obtain ⟨s₂, s₃, s₄, h₂, h₃, h₄, h₅, -, -, hobjective⟩ := PropagationStep.propagateRound_quiet
    PropagationStep.watches_stages (fun _ _ h => h.1) hround hlog hfeasible
  have hbefore : Advances s s₄ := hwatches.1.trans (h₂.1.trans (h₃.1.trans h₄.1))
  have hfeasible₄ : s₄.domain.infeasible = none :=
    PropagationStep.feasible_of_advances h₅.1 hfeasible
  have htested : s₄.domain.ObjectiveTested := by
    refine (h₄.2 (h₃.2 (h₂.2 (hwatches.2 h)))).resolve_right fun hcutOff => ?_
    rw [Domain.CutOff, hfeasible₄] at hcutOff
    cases hcutOff
  have hsize : d.log.size = s₄.domain.log.size := by
    have hfirst := PropagationStep.log_size_le (h₂.1.trans (h₃.1.trans h₄.1))
    have hlast := PropagationStep.log_size_le h₅.1
    dsimp only at hlog hlast
    omega
  have hcoherent := (hadvances.settled (Exact.derives_any _) hsettled).domain.coherent
  rw [Domain.objectiveCutoff, Domain.objectiveLowerBound]
  cases ho : d.objective with
  | none => exact Bool.false_ne_true
  | some o =>
      have hholds := Domain.propagateObjective_quiet
        (hbefore.setting.feastol.trans hfeastol) htested hobjective hfeasible hsize ho
      have hmin := (hcoherent.objective o ho).tracks
      rw [Option.elim_some, Option.elim_some]
      intro hlt
      have hexceeds := (PartialSum.exceeds_iff hmin.finite).mpr (add_lt_of_add_lt_add hlt)
      exact absurd hexceeds (Bool.eq_false_iff.mp hholds)

/-- A state that a domain of a model reaches, at which the domain knows a side and had no box that
violates it. -/
theorem Reachable.sparing {draft : Draft Exact} {model : Model Exact} {s : PropagationState Exact}
    {reason : Reason} {side : LinearSide Exact} (hmodel : draft.build = .ok model)
    (h : Reachable (fun _ op => op.Brings (.exact .any)) model (number f) s)
    (hside : s.domain.sideBehind reason = some side) (hspares : s.domain.Spares side) :
    s.Sparing f reason side := by
  have hobserved : s.pools.Balanced ∧ s.domain.Observes s.pools := by
    clear hside hspares
    induction h with
    | start hstart => exact ⟨Pools.empty_balanced, Domain.ofModel_observes hstart _⟩
    | step _ _ hperform ih =>
        exact ⟨ih.1.develops (Operation.develops hperform), Operation.observes ih.1 ih.2 hperform⟩
  exact {
    settled := h.settled (Exact.derives_any model) (fun _ _ hbrings => hbrings)
      (Draft.wellFormed_of_build hmodel) (Draft.readable_of_build hmodel)
    feastol := h.constant.2
    latched := h.latchedAtEnd
    decisions := h.built.decisionsLogged (Trail.fresh_ofModel model)
    balanced := hobserved.1
    observes := hobserved.2
    kept := .inl ⟨hside, hspares⟩ }

theorem PropagationState.Sparing.runs {s t : PropagationState Exact} {reason : Reason}
    {side : LinearSide Exact} (h : s.Sparing f reason side)
    (hruns : Operation.Runs (fun _ op => op.Brings (.exact .any)) s t) :
    t.Sparing f reason side := by
  induction hruns with
  | refl => exact h
  | tail _ hstep ih =>
      obtain ⟨op, hbrings, hperform⟩ := hstep
      exact Operation.sparing ih hbrings hperform

/-- There is no side behind a reason whose cut was dropped. -/
theorem PropagationState.sideBehind_of_dropped {s : PropagationState Exact} {reason : Reason}
    {side : LinearSide Exact} (h : s.Dropped reason) : s.domain.sideBehind reason ≠ some side := by
  intro hside
  cases reason with
  | cut i id =>
      obtain ⟨p, hp, hgone⟩ := h
      obtain ⟨p', cut, hp', hknown, -⟩ := sideBehind_cut.mp hside
      obtain rfl := Option.some.inj (hp.symm.trans hp')
      rw [hgone.unknown] at hknown
      cases hknown
  | _ => exact h

/-- No violated constraint survives propagation, unless it was violated without being compared with
the box. From a state onwards, let no operation take back a domain that was cut off by the objective
without making the objective wait again. If propagation leaves the domain feasible after any such
run, then no side of a row or a cut is violated over the box, of those which the domain knew at the
start of the run and which no box violated that it had until then; and the lower bound of the
objective is at most the cutoff plus the tolerance, if at the start it was or the objective
waited. -/
theorem propagation_leaves_unviolated {draft : Draft Exact} {model : Model Exact}
    {s t : PropagationState Exact} {pools : Pools Exact} {d : Domain Exact}
    (hmodel : draft.build = .ok model)
    (hstart : Reachable (fun _ op => op.Brings (.exact .any)) model (number f) s)
    (hruns : Operation.Runs (fun s op => op.Brings (.exact .any) ∧ op.Remembers s) s t)
    (hpropagate : t.domain.propagate t.pools = .ok (pools, d)) (hfeasible : d.infeasible = none) :
    (∀ reason side side', s.domain.sideBehind reason = some side → s.domain.Spares side →
      d.sideBehind reason = some side' → side' = side ∧ ¬side.ViolatedOn (number f) d.values) ∧
    (s.domain.ObjectiveTested → ¬d.objectiveCutoff + number f < d.objectiveLowerBound) := by
  have hbrings : Operation.Runs (fun _ op => op.Brings (.exact .any)) s t :=
    Operation.Runs.mono (fun _ _ hop => hop.1) hruns
  refine ⟨fun reason side side' hside hspares hside' => ?_, fun htested => ?_⟩
  · have hperform : Operation.propagate.perform t = .ok ⟨pools, d⟩ := by
      simp only [Operation.perform, hpropagate, ok_bind]
      rfl
    have hend := Operation.sparing ((hstart.sparing hmodel hside hspares).runs hbrings)
      (show Operation.propagate.Brings (.exact .any) from trivial) hperform
    rcases hend.kept with ⟨hkept, hspared⟩ | hdropped
    · refine ⟨Option.some.inj (hside'.symm.trans hkept), ?_⟩
      have hlast :=
        hspared d.log.size (by rw [Domain.feasibleLength, hfeasible]; exact Nat.le_refl _)
      rwa [Domain.valuesBefore_size hend.decisions, hend.feastol] at hlast
    · exact absurd hside' (PropagationState.sideBehind_of_dropped hdropped)
  · have hreach := hstart.runs hbrings
    have hsettled : t.Settled (.exact .any) :=
      hreach.settled (Exact.derives_any model) (fun _ _ hbrings => hbrings)
        (Draft.wellFormed_of_build hmodel) (Draft.readable_of_build hmodel)
    have hheeded := Operation.runs_tested_or_cutOff
      (Operation.Runs.mono (fun _ _ hop => hop.2) hruns) (.inl htested)
    exact PropagationState.objective_le_cutoff hsettled hreach.constant.2 hheeded hpropagate
      hfeasible

end Exact

/-- A cost is paid for one of two columns which together are at least four. -/
def cover : Draft Exact :=
  ⟨#[⟨1, 0, 5, .integer⟩, ⟨0, 0, 5, .integer⟩], #[⟨4, Scalar.infinity, [(0, 1), (1, 1)]⟩], 0⟩

/-- A cut is read, and the objective is propagated from now on. -/
def coverSetup : List (Operation Exact) :=
  [.newCutPool 5, .attachCuts 0, .insertCut 0 ⟨[(0, 1), (1, 2)], 8⟩ 5,
    .setupObjective [], .propagate]

/-- The domain is cut off below a decision. -/
def coverDive : List (Operation Exact) :=
  [.changeBound (.atLeast 0 3) .branching, .propagate, .setObjectiveCutoff 2, .propagate]

/-- Nothing is violated after the domain that was cut off was taken back. -/
theorem cover_left_unviolated :
    ∃ (model : Model Exact) (s t : PropagationState Exact) (pools : Pools Exact) (d : Domain Exact),
      cover.build = .ok model ∧ s.domain.log.size = 1 ∧
      s.domain.sideBehind (.rowLower 0) = some (.atLeast [(0, 1), (1, 1)] 4) ∧
      s.domain.sideBehind (.cut 0 0) = some (.atMost [(0, 1), (1, 2)] 8) ∧
      t.domain.propagate t.pools = .ok (pools, d) ∧ d.infeasible = none ∧ d.log.size = 3 ∧
      ¬(LinearSide.atLeast [(0, 1), (1, 1)] 4).ViolatedOn (number (1 / 1000000)) d.values ∧
      ¬(LinearSide.atMost [(0, 1), (1, 2)] 8).ViolatedOn (number (1 / 1000000)) d.values ∧
      ¬d.objectiveCutoff + number (1 / 1000000) < d.objectiveLowerBound := by
  have hrun : passes cover.build (fun model =>
      passes (Domain.ofModel model (number (1 / 1000000))) fun start =>
        passes (coverSetup.foldlM (fun s op => op.perform s) ⟨.empty, start⟩) fun s =>
          passes (coverDive.foldlM (fun s op =>
              if s.domain.isInfeasible then throw .stepsExhausted else op.perform s) s) fun u =>
            passes (Operation.backtrack.perform u) fun t =>
              passes (t.domain.propagate t.pools) fun after =>
                s.domain.log.size == 1 &&
                  s.domain.sideBehind (.rowLower 0) == some (.atLeast [(0, 1), (1, 1)] 4) &&
                  s.domain.sideBehind (.cut 0 0) == some (.atMost [(0, 1), (1, 2)] 8) &&
                  decide (s.domain.Spares (.atLeast [(0, 1), (1, 1)] 4)) &&
                  decide (s.domain.Spares (.atMost [(0, 1), (1, 2)] 8)) &&
                  s.domain.objective.all (fun o => !o.isViolated s.domain.feastol) &&
                  t.domain.objective.all ObjectivePropagation.needsPropagation &&
                  after.2.infeasible.isNone && after.2.log.size == 3 &&
                  after.2.sideBehind (.rowLower 0) == some (.atLeast [(0, 1), (1, 1)] 4) &&
                  after.2.sideBehind (.cut 0 0) == some (.atMost [(0, 1), (1, 2)] 8)) = true := by
    rw [(Operation.performUnrolled 100).property, (Domain.propagateUnrolled 100).property]
    decide +kernel
  obtain ⟨model, hmodel, hrun⟩ := passes_eq_true.mp hrun
  obtain ⟨start, hstart, hrun⟩ := passes_eq_true.mp hrun
  obtain ⟨s, hs, hrun⟩ := passes_eq_true.mp hrun
  obtain ⟨u, hu, hrun⟩ := passes_eq_true.mp hrun
  obtain ⟨t, ht, hrun⟩ := passes_eq_true.mp hrun
  obtain ⟨⟨pools, d⟩, hpropagate, hrun⟩ := passes_eq_true.mp hrun
  simp only [Bool.and_eq_true, beq_iff_eq, decide_eq_true_eq, Option.isNone_iff_eq_none,
    Option.all_eq_true, Bool.not_eq_eq_eq_not, Bool.not_true] at hrun
  obtain ⟨⟨⟨⟨⟨⟨⟨⟨⟨⟨hlog, hrow⟩, hcut⟩, hsparesRow⟩, hsparesCut⟩, htested⟩, hwaits⟩, hfeasible⟩,
    hsize⟩, hrow'⟩, hcut'⟩ := hrun
  have hbrings : ∀ op ∈ coverSetup ++ coverDive, op.Brings (.exact .any) := by
    simp only [coverSetup, coverDive, List.cons_append, List.nil_append, List.forall_mem_cons,
      List.not_mem_nil, false_imp_iff, implies_true, and_true, Operation.Brings, Tracking.exact,
      Exact.Range.any, BoundChange.atLeast]
    refine ⟨trivial, trivial, ⟨⟨1, by simp⟩, ⟨2, by simp⟩⟩, trivial, trivial, ?_⟩
    decide
  have hbegin : Reachable (fun _ op => op.Brings (.exact .any)) model (number (1 / 1000000))
      ⟨.empty, start⟩ := .start hstart
  have hreach := hbegin.performAll (fun _ op hop => hbrings op (List.mem_append_left _ hop)) hs
  have hdive : Operation.Runs (fun s op => op.Brings (.exact .any) ∧ op.Remembers s) s u :=
    foldlM_keeps (fun v op w hop hv hstep => by
      split at hstep
      · cases hstep
      · next hopen => exact hv.tail ⟨op, ⟨hbrings op (List.mem_append_right _ hop),
          .of_feasible (by simpa [Domain.isInfeasible] using hopen)⟩, hstep⟩) hu .refl
  have hruns := hdive.tail ⟨.backtrack, ⟨trivial, .of_waits ht hwaits⟩, ht⟩
  obtain ⟨hsides, hcutoff⟩ :=
    propagation_leaves_unviolated hmodel hreach hruns hpropagate hfeasible
  exact ⟨model, s, t, pools, d, hmodel, hlog, hrow, hcut, hpropagate, hfeasible, hsize,
    (hsides _ _ _ hrow hsparesRow hrow').2, (hsides _ _ _ hcut hsparesCut hcut').2,
    hcutoff fun o ho => .inr (htested o ho)⟩

/-- One column with a cost, and another one. -/
def forgotten : Draft Exact := ⟨#[⟨1, 1, 2, .integer⟩, ⟨0, 0, 1, .integer⟩], #[], 0⟩

/-- The cutoff is below the cost at the root, and a decision which has nothing to do with it is
taken back when this was found. -/
def forgottenRun : List (Operation Exact) :=
  [.setupObjective [], .setObjectiveCutoff (1 / 2),
    .changeBound (.atLeast 1 1) .branching, .propagate,
    .backtrack]

/-- The objective exceeds the cutoff by more than the tolerance, and propagation leaves the domain
feasible. -/
theorem forgotten_objective_exceeds_cutoff :
    ∃ (model : Model Exact) (s t : PropagationState Exact) (pools : Pools Exact) (d : Domain Exact),
      forgotten.build = .ok model ∧ Domain.ofModel model (number (1 / 1000000)) = .ok s.domain ∧
      forgottenRun.foldlM (fun s op => op.perform s) s = .ok t ∧
      t.domain.propagate t.pools = .ok (pools, d) ∧ d.infeasible = none ∧
      d.objectiveCutoff + number (1 / 1000000) < d.objectiveLowerBound := by
  have hrun : passes forgotten.build (fun model =>
      passes (Domain.ofModel model (number (1 / 1000000))) fun start =>
        passes (forgottenRun.foldlM (fun s op => op.perform s) ⟨.empty, start⟩) fun t =>
          passes (t.domain.propagate t.pools) fun after =>
            after.2.infeasible.isNone &&
              decide (after.2.objectiveCutoff + number (1 / 1000000) <
                after.2.objectiveLowerBound)) = true := by
    rw [(Operation.performUnrolled 100).property, (Domain.propagateUnrolled 100).property]
    decide +kernel
  obtain ⟨model, hmodel, hrun⟩ := passes_eq_true.mp hrun
  obtain ⟨start, hstart, hrun⟩ := passes_eq_true.mp hrun
  obtain ⟨t, ht, hrun⟩ := passes_eq_true.mp hrun
  obtain ⟨⟨pools, d⟩, hpropagate, hrun⟩ := passes_eq_true.mp hrun
  rw [Bool.and_eq_true, Option.isNone_iff_eq_none, decide_eq_true_eq] at hrun
  exact ⟨model, ⟨.empty, start⟩, t, pools, d, hmodel, hstart, ht, hpropagate, hrun⟩

end BranchBound
