import BranchBound.Proofs.Counted
import BranchBound.Proofs.Domain.SettledRuns

/-!
# The counters of infinite terms

Over any numbers a settled domain counts its infinite terms. So a term that becomes finite is taken
off a counter which holds at least that term, in every change, in everything that propagation does
before it ends, whatever it ends with, and in every step of backtracking.
-/

namespace BranchBound

open Checked

variable {α : Type} [Scalar α]

namespace Domain

variable {d d' : Domain α}

omit [Scalar α] in
theorem boundValue_counted (d : Domain α) (side : Side) (c : ColumnId) :
    Counted (d.boundValue side c) :=
  (fetch_counted _ _).bind fun _ _ => .pure _

theorem isBinary_counted (d : Domain α) (c : ColumnId) : Counted (d.isBinary c) :=
  (fetch_counted _ _).bind fun _ _ => .pure _

omit [Scalar α] in
theorem markRowDirty_counted (d : Domain α) (r : RowId) : Counted (d.markRowDirty r) := by
  unfold markRowDirty
  refine (fetch_counted _ _).bind fun dirty _ => .ite (fun _ => .pure _) fun _ => ?_
  exact (store_counted _ _ _).bind fun _ _ => .pure _

omit [Scalar α] in
theorem foldlM_markRowDirty_counted (d : Domain α) (rows : List RowId) :
    Counted (rows.foldlM markRowDirty d) :=
  foldlM_counted (fun _ => True)
    (fun d r _ _ => ⟨d.markRowDirty_counted r, fun _ _ => trivial⟩) trivial

theorem acceptedBound_counted (d : Domain α) (side : Side) (c : ColumnId)
    (bound : CompensatedSum α) : Counted (d.acceptedBound side c bound) := by
  unfold acceptedBound
  refine (d.boundValue_counted .upper c).bind fun _ _ => ?_
  refine (d.boundValue_counted .lower c).bind fun _ _ => ?_
  exact (fetch_counted _ _).bind fun _ _ => .pure _

theorem impliedChange_counted (d : Domain α) (rhs : α) (min : PartialSum α)
    (entry : ColumnId × α) : Counted (d.impliedChange rhs min entry) := by
  unfold impliedChange
  refine (d.boundValue_counted _ _).bind fun _ _ => ?_
  split
  · exact .pure none
  · exact d.acceptedBound_counted _ _ _

theorem impliedChanges_counted (d : Domain α) (rhs : α) (min : PartialSum α)
    (entries : List (ColumnId × α)) : Counted (d.impliedChanges rhs min entries) :=
  collect_counted (d.impliedChange_counted rhs min) entries

theorem refreshActivity_counted (d : Domain α) (r : RowId) : Counted (d.refreshActivity r) := by
  unfold refreshActivity
  refine (fetch_counted _ _).bind fun row _ => ?_
  refine Counted.bind (foldlM_counted (fun _ => True) (fun activity e _ _ =>
    ⟨?_, fun _ _ => trivial⟩)
    trivial) fun _ _ => (store_counted _ _ _).bind fun _ _ => .pure _
  refine (d.boundValue_counted .lower e.1).bind fun _ _ => ?_
  exact (d.boundValue_counted .upper e.1).bind fun _ _ => .pure _

theorem rowChanges_counted (d : Domain α) (r : RowId) : Counted (d.rowChanges r) := by
  simp only [rowChanges, ← ite_bind]
  refine (fetch_counted _ _).bind fun _ _ => ?_
  refine Counted.bind (.ite (fun _ => d.refreshActivity_counted r)
    fun _ => .pure d) fun fresh _ => ?_
  refine (fetch_counted _ _).bind fun _ _ => (fetch_counted _ _).bind fun _ _ => ?_
  refine Counted.bind (.ite (fun _ => fresh.impliedChanges_counted _ _ _) fun _ => .pure [])
    fun _ _ => ?_
  exact Counted.bind (.ite (fun _ => fresh.impliedChanges_counted _ _ _) fun _ => .pure [])
    fun _ _ => .pure _

omit [Scalar α] in
theorem onCuts_counted (d : Domain α) (index : Nat) (f : CutPropagation α → CutPropagation α) :
    Counted (d.onCuts index f) :=
  (update_counted _ _ fun _ => .ok _).bind fun _ _ => .pure _

omit [Scalar α] in
theorem onConflicts_counted (d : Domain α) (index : Nat)
    (f : ConflictPropagation α → ConflictPropagation α) : Counted (d.onConflicts index f) :=
  (update_counted _ _ fun _ => .ok _).bind fun _ _ => .pure _

theorem fixedBy_counted (d : Domain α) (entry : LogEntry α) : Counted (d.fixedBy entry) := by
  unfold fixedBy
  refine (d.isBinary_counted _).bind fun _ _ => .ite (fun _ => .pure none) fun _ => ?_
  split
  · exact .pure _
  · exact .pure _

theorem gather_counted (t : CliqueTable) (l : BinaryLiteral) (cliques : List Nat)
    (seen : List BinaryLiteral) : Counted (t.gather l cliques seen) := by
  induction cliques generalizing seen with
  | nil => exact .ok seen
  | cons clique rest ih => exact (fetch_counted _ _).bind fun _ _ => ih _

theorem impliedByFixing_counted (d : Domain α) (c : ColumnId) (value : Bool) :
    Counted (d.impliedByFixing c value) := by
  have hcliques : ∀ t : CliqueTable, Counted (t.impliedBy ⟨c, value⟩) := fun t =>
    (fetch_counted _ _).bind fun _ _ => gather_counted t _ _ _
  have hbounds : ∀ t : VariableBounds α, Counted (t.impliedBy c value) := fun t =>
    (fetch_counted _ _).bind fun _ _ => Counted.bind (mapM_counted (fun _ =>
      (fetch_counted _ _).bind fun _ _ => (fetch_counted _ _).bind fun _ _ => .pure _) _)
        fun _ _ => .pure _
  unfold impliedByFixing
  cases d.cliques with
  | none =>
      cases d.variableBounds with
      | none => exact .pure _
      | some bounds => exact (hbounds bounds).bind fun _ _ => .pure _
  | some cliques =>
      refine (hcliques cliques).bind fun _ _ => ?_
      cases d.variableBounds with
      | none => exact .pure _
      | some bounds => exact (hbounds bounds).bind fun _ _ => .pure _

theorem impliedByEntries_counted (d : Domain α) (entries : List (LogEntry α)) :
    Counted ((impliedByEntries entries).perform d).1 := by
  induction entries generalizing d with
  | nil => exact .ok []
  | cons entry rest ih =>
      refine Action.bind_counted (.ok ()) fun _ t ht => ?_
      refine Action.bind_counted (.ok t) fun t' _ ht' => ?_
      refine Action.bind_counted (t'.fixedBy_counted entry) fun fixing u _ => ?_
      cases fixing with
      | none =>
          refine Action.bind_counted (.ok []) fun _ v _ => ?_
          exact Action.bind_counted (ih v) fun _ _ _ => .ok _
      | some fixing =>
          refine Action.bind_counted (t'.impliedByFixing_counted _ _) fun _ v _ => ?_
          exact Action.bind_counted (ih v) fun _ _ _ => .ok _

theorem minimalContribution_counted (p : ObjectivePartition α) (costs : Array α) :
    Counted (p.minimalContribution costs) := by
  unfold ObjectivePartition.minimalContribution
  split
  · exact (mapM_counted (fun c => fetch_counted costs c) _).bind fun _ _ => .pure _
  · split
    · exact .ok _
    · exact .ok _

theorem recompute_counted (o : ObjectivePropagation α) (lower upper : Array (Bound α)) :
    Counted (o.recompute lower upper) := by
  unfold ObjectivePropagation.recompute
  refine Counted.bind (foldlM_counted (fun _ => True) (fun o c _ _ => ⟨?_, fun _ _ => trivial⟩)
    trivial) fun o _ => ?_
  · refine (fetch_counted _ _).bind fun _ _ => (fetch_counted _ _).bind fun _ _ => ?_
    refine (fetch_counted _ _).bind fun cost _ => .ite (fun _ => .pure _) fun _ => ?_
    refine (fetch_counted _ _).bind fun index _ => ?_
    cases index with
    | none => exact .pure _
    | some index => exact (update_counted _ _ fun _ => .ok _).bind fun _ _ => .pure _
  · refine Counted.bind (foldlM_counted (fun _ => True) (fun o i _ _ => ⟨?_, fun _ _ => trivial⟩)
      trivial) fun _ _ => .pure _
    refine (fetch_counted _ _).bind fun p _ => (minimalContribution_counted p _).bind fun _ _ => ?_
    exact (store_counted _ _ _).bind fun _ _ => .pure _

/-- Activities that are computed anew need no counter. -/
theorem refreshActivities_counted (d : Domain α) : Counted d.refreshActivities := by
  unfold refreshActivities
  refine Counted.bind (foldlM_counted (fun _ => True) (fun e r _ _ => ⟨?_, fun _ _ => trivial⟩)
    trivial) fun fresh _ => ?_
  · exact (e.refreshActivity_counted r).bind fun fresh _ => fresh.markRowDirty_counted r
  · split
    · exact .pure _
    · exact (recompute_counted _ _ _).bind fun _ _ => .pure _

theorem numberPartitions_counted (d : Domain α) (numbered : Nat)
    (partitionOf : Array (Option Nat)) (partitions : List (List ColumnId)) :
    Counted (d.numberPartitions numbered partitionOf partitions) := by
  induction partitions generalizing numbered partitionOf with
  | nil => exact .ok _
  | cons columns rest ih =>
      refine Counted.bind ?_ fun valid _ => .ite (fun _ => ?_) fun _ => ih _ _
      · refine .ite (fun _ => .pure _) fun _ => allHold_counted (fun c => ?_) _
        refine (d.isBinary_counted c).bind fun _ _ => .ite (fun _ => .pure _) fun _ => ?_
        refine (fetch_counted _ _).bind fun _ _ => .ite (fun _ => .pure _) fun _ => ?_
        exact (fetch_counted _ _).bind fun _ _ => .pure _
      · exact Counted.bind (foldlM_counted (fun _ => True) (fun _ _ _ _ =>
          ⟨store_counted _ _ _, fun _ _ => trivial⟩) trivial) fun _ _ => ih _ _

theorem setupObjective_counted (d : Domain α) (partitions : List (List ColumnId)) :
    Counted (d.setupObjective partitions) := by
  refine (d.numberPartitions_counted _ _ _).bind fun numbered _ => ?_
  exact (recompute_counted _ _ _).bind fun _ _ => .pure _

end Domain

theorem minActivity_counted (lower upper : Array (Bound α)) (entries : List (ColumnId × α)) :
    Counted (CutPropagation.minActivity lower upper entries) :=
  foldlM_counted (fun _ => True) (fun _ _ _ _ =>
    ⟨(fetch_counted _ _).bind fun _ _ => .pure _, fun _ _ => trivial⟩) trivial

/-- Reading the news of a pool touches no counter, since activities are computed anew. -/
theorem readCutEvent_counted (pool : CutPool α) (lower upper : Array (Bound α))
    (p : CutPropagation α) (event : PoolEvent) :
    Counted (CutPropagation.readEvent pool lower upper p event) := by
  cases event with
  | added id =>
      simp only [CutPropagation.readEvent]
      split
      · exact .ok p
      · refine (minActivity_counted lower upper _).bind fun _ _ => ?_
        exact Counted.bind (foldlM_counted (fun _ => True) (fun _ _ _ _ =>
          ⟨update_counted _ _ fun _ => .ok _, fun _ _ => trivial⟩) trivial) fun _ _ => .pure _
  | removed id =>
      simp only [CutPropagation.readEvent]
      split
      · exact .ok p
      · exact Counted.bind (foldlM_counted (fun _ => True) (fun _ _ _ _ =>
          ⟨update_counted _ _ fun _ => .ok _, fun _ _ => trivial⟩) trivial) fun _ _ => .pure _

omit [Scalar α] in
theorem readConflictEvent_counted (pool : ConflictPool α) (p : ConflictPropagation α)
    (event : PoolEvent) : Counted (ConflictPropagation.readEvent pool p event) := by
  cases event with
  | added id =>
      simp only [ConflictPropagation.readEvent]
      split
      · exact .ok p
      · exact Counted.bind (foldlM_counted (fun _ => True) (fun _ _ _ _ =>
          ⟨update_counted _ _ fun _ => .ok _, fun _ _ => trivial⟩) trivial) fun _ _ => .pure _
  | removed id =>
      simp only [ConflictPropagation.readEvent]
      split
      · exact .ok p
      · exact Counted.bind (foldlM_counted (fun _ => True) (fun _ _ _ _ =>
          ⟨update_counted _ _ fun _ => .ok _, fun _ _ => trivial⟩) trivial) fun _ _ => .pure _

theorem synchroniseCuts_counted (pool : CutPool α) (lower upper : Array (Bound α))
    (p : CutPropagation α) :
    Counted ((CutPropagation.synchronise pool lower upper).perform p).1 := by
  unfold CutPropagation.synchronise
  rw [Action.perform_get_bind]
  refine Action.bind_counted (.ok ()) fun _ q _ => ?_
  exact Action.forM_change_counted (fun event q => readCutEvent_counted pool _ _ q event) _ q

omit [Scalar α] in
theorem synchroniseConflicts_counted (pool : ConflictPool α) (p : ConflictPropagation α) :
    Counted ((ConflictPropagation.synchronise pool).perform p).1 := by
  unfold ConflictPropagation.synchronise
  rw [Action.perform_get_bind]
  refine Action.bind_counted (.ok ()) fun _ q _ => ?_
  exact Action.forM_change_counted (fun event q => readConflictEvent_counted pool q event) _ q

section Counting

variable (hα : EqualInfinities α)

theorem counting_derives (model : Model α) : (Tracking.counting hα).Derives model :=
  fun _ _ _ _ _ _ _ => trivial

theorem counting_readable (model : Model α) : Domain.Readable (.counting hα) model :=
  ⟨fun _ _ _ _ _ => trivial, fun _ _ _ => trivial, fun _ _ _ => ⟨trivial, trivial⟩⟩

theorem counting_brings (op : Operation α) : op.Brings (.counting hα) := by
  cases op with
  | setStack _ _ => exact fun _ _ => trivial
  | insertCut _ _ _ => exact fun _ _ => trivial
  | addConflict _ _ => exact fun _ _ => trivial
  | _ => trivial

end Counting

variable {hα : EqualInfinities α}

namespace Domain

variable {d d' : Domain α}

/-- A change of a settled domain touches no counter that is zero. -/
theorem changeBound_counted (h : d.Settled (.counting hα)) (change : BoundChange α)
    (reason : Reason) : Counted (d.changeBound change reason) := by
  by_cases hc : change.column < d.model.columns.size
  · exact (changeBound_returns h hc trivial reason).counted
  · have hcount : d.columnCount ≤ change.column := by
      rw [← h.coherent.bounds_size .lower] at hc
      exact Nat.le_of_not_lt hc
    unfold changeBound
    split
    · exact .pure d
    · exact Counted.throw fun hfault => by cases hfault

theorem Settled.changeBounds_counted (h : d.Settled (.counting hα))
    (changes : List (BoundChange α × Reason)) : Counted (d.changeBounds changes) :=
  foldlM_counted (fun e => e.Settled (.counting hα)) (fun _ x _ he =>
    ⟨changeBound_counted he x.1 x.2, fun _ hchange => (changeBound_settled he trivial hchange).1⟩) h

theorem Settled.fixColumn_counted (h : d.Settled (.counting hα)) (c : ColumnId) (value : α)
    (reason : Reason) : Counted (d.fixColumn c value reason) := by
  simp only [fixColumn, ← ite_bind]
  refine (d.boundValue_counted _ _).bind fun _ _ => ?_
  refine Counted.bind (.ite (fun _ => changeBound_counted h _ _) fun _ => .pure d) fun e he => ?_
  have he : e.Settled (.counting hα) := by
    split at he
    · exact (changeBound_settled h trivial he).1
    · rw [← pure_eq_ok.mp he]
      exact h
  refine (e.boundValue_counted _ _).bind fun _ _ => .ite (fun _ => changeBound_counted he _ _)
    fun _ => .pure e

theorem Settled.applyStack_counted (h : d.Settled (.counting hα)) (branchings : List Nat)
    (index : Nat) (changes : List (BoundChange α)) :
    Counted ((applyStack branchings index changes).perform d).1 := by
  induction changes generalizing d index with
  | nil => exact .ok ()
  | cons change rest ih =>
      rw [applyStack, Action.perform_get_bind]
      split
      · exact .ok ()
      · refine Action.bind_counted (Action.change_counted (changeBound_counted h _ _))
          fun _ next hnext => ih ?_ _
        exact (changeBound_settled h trivial (Action.perform_change_eq_ok.mp hnext)).1

theorem Settled.setStack_counted (h : d.Settled (.counting hα)) (changes : List (BoundChange α))
    (branchings : List Nat) : Counted ((setStack changes branchings).perform d).1 := by
  have hreturns := backtrackTo_returns h d.globalLength
  refine Action.bind_counted (Action.change_counted hreturns.counted) fun _ next hnext => ?_
  exact (hreturns.of_eq_ok (Action.perform_change_eq_ok.mp hnext)).1.applyStack_counted _ _ _

theorem Settled.backtrack_counted (h : d.Settled (.counting hα)) : Counted d.backtrack := by
  unfold backtrack
  split
  · exact .pure _
  · refine (fetch_counted _ _).bind fun _ _ => ?_
    exact (backtrackTo_returns h _).counted.bind fun _ _ => .pure _

theorem Settled.visitRows_counted (h : d.Settled (.counting hα)) (rows : List RowId) :
    Counted (d.visitRows rows) := by
  induction rows generalizing d with
  | nil => exact .ok d
  | cons r rest ih =>
      refine (d.rowChanges_counted r).bind fun found hfound => ?_
      obtain ⟨fresh, changes⟩ := found
      have hfresh : fresh.Settled (.counting hα) := by
        rcases (rowChanges_eq_ok hfound).1 with rfl | hrefresh
        · exact h
        · exact (h.refreshActivity hrefresh).1
      refine (hfresh.changeBounds_counted changes).bind fun changed hchanged => ?_
      refine .ite (fun _ => changed.foldlM_markRowDirty_counted rest) fun _ => ih ?_
      exact (hfresh.changeBounds (fun _ _ => trivial) hchanged).1

theorem Settled.propagateRows_counted (h : d.Settled (.counting hα)) :
    Counted d.propagateRows := by
  unfold propagateRows
  refine Counted.bind (foldlM_counted (fun _ => True) (fun _ _ _ _ =>
    ⟨store_counted _ _ _, fun _ _ => trivial⟩) trivial) fun flags hflags => ?_
  exact (h.requeued (requeued_takeRows hflags)).visitRows_counted _

theorem Settled.visitCuts_counted (h : d.Settled (.counting hα)) (index : Nat)
    (ids : List CutId) : Counted (d.visitCuts index ids) := by
  induction ids generalizing d with
  | nil => exact .ok d
  | cons id rest ih =>
      refine (fetch_counted _ _).bind fun p hp => ?_
      rw [fetch_eq_ok] at hp
      split
      · exact ih h
      · next known hknown =>
          refine (d.onCuts_counted _ _).bind fun clean hclean => ?_
          obtain ⟨q, hq, rfl⟩ := onCuts_eq_ok hclean
          obtain rfl : q = p := by rw [hp] at hq; exact (Option.some.inj hq).symm
          have hclean := h.requeued
            (requeued_cuts hp (CutPropagation.agrees_insert q hknown false q.waiting))
          refine .ite (fun _ => ih hclean) fun _ => ?_
          refine (impliedChanges_counted _ _ _ _).bind fun changes _ => ?_
          refine (hclean.changeBounds_counted _).bind fun changed hchanged => ?_
          refine .ite (fun _ => changed.onCuts_counted _ _) fun _ => ih ?_
          exact (hclean.changeBounds (fun _ _ => trivial) hchanged).1

theorem Settled.visitWaitingCuts_counted (h : d.Settled (.counting hα)) (index : Nat) :
    Counted (d.visitWaitingCuts index) := by
  refine (fetch_counted _ _).bind fun p _ => (d.onCuts_counted _ _).bind fun taken htaken => ?_
  obtain ⟨q, hq, rfl⟩ := onCuts_eq_ok htaken
  have hagrees : q.Agrees { q with waiting := [] } := ⟨rfl, rfl, rfl, rfl⟩
  exact (h.requeued (requeued_cuts hq hagrees)).visitCuts_counted _ _

theorem Settled.visitConflict_counted (h : d.Settled (.counting hα)) (pools : Pools α)
    (index : Nat) (id : ConflictId) (literals : List (BoundChange α)) :
    Counted (visitConflict pools d index id literals) := by
  have hrenewed : ∀ pool, Counted
      (do return (← pools.onConflicts pool fun p => ((), p.resetAge id)).2) := fun pool =>
    Counted.bind ((fetch_counted _ _).bind fun _ _ => (store_counted _ _ _).bind fun _ _ => .pure _)
      fun _ _ => .pure _
  unfold visitConflict
  refine (fetch_counted _ _).bind fun p _ => ?_
  refine Counted.bind (keepIf_counted (fun literal => ?_) literals) fun inactive _ => ?_
  · exact Counted.bind ((d.boundValue_counted _ _).bind fun _ _ => .pure _) fun _ _ => .pure _
  split
  · exact (hrenewed _).bind fun _ _ => .pure _
  · next literal =>
      simp only [← ite_bind]
      refine Counted.bind ?_ fun change _ => (changeBound_counted h _ _).bind fun after _ => ?_
      · exact Counted.bind ((fetch_counted _ _).bind fun _ _ => .pure _) fun _ _ => .pure _
      · exact Counted.bind (.ite (fun _ => hrenewed _) fun _ => .pure _) fun _ _ => .pure _
  · exact .pure _

/-- A visited conflict leaves a settled domain. -/
theorem Settled.visitConflict (h : d.Settled (.counting hα)) {pools pools' : Pools α}
    {index : Nat} {id : ConflictId} {literals : List (BoundChange α)}
    (hvisit : Domain.visitConflict pools d index id literals = .ok (pools', d')) :
    d'.Settled (.counting hα) := by
  simp only [Domain.visitConflict, bind_eq_ok] at hvisit
  obtain ⟨_, -, inactive, -, hvisit⟩ := hvisit
  split at hvisit
  · simp only [bind_eq_ok, pure_eq_ok, Prod.mk.injEq] at hvisit
    obtain ⟨_, -, -, rfl⟩ := hvisit
    exact h.markInfeasible _
  · simp only [← ite_bind] at hvisit
    simp only [bind_eq_ok, pure_eq_ok, Prod.mk.injEq] at hvisit
    obtain ⟨_, -, after, hchange, _, -, -, rfl⟩ := hvisit
    exact (changeBound_settled h trivial hchange).1
  · simp only [pure_eq_ok, Prod.mk.injEq] at hvisit
    exact hvisit.2 ▸ h

theorem Settled.visitConflicts_counted (h : d.Settled (.counting hα)) (pools : Pools α)
    (index : Nat) (ids : List ConflictId) : Counted (visitConflicts pools d index ids) := by
  induction ids generalizing pools d with
  | nil => exact .ok _
  | cons id rest ih =>
      refine (fetch_counted _ _).bind fun p hp => ?_
      rw [fetch_eq_ok] at hp
      split
      · exact ih h pools
      · next known hknown =>
          refine (d.onConflicts_counted _ _).bind fun clean hclean => ?_
          obtain ⟨q, hq, rfl⟩ := onConflicts_eq_ok hclean
          obtain rfl : q = p := by rw [hp] at hq; exact (Option.some.inj hq).symm
          have hagrees := ConflictPropagation.agrees_insert q hknown false q.waiting
          have hclean := h.requeued (requeued_conflicts hp hagrees)
          refine (hclean.visitConflict_counted pools index id _).bind fun visited hvisited => ?_
          obtain ⟨pools', changed⟩ := visited
          exact .ite (fun _ => (changed.onConflicts_counted _ _).bind fun _ _ => .pure _)
            fun _ => ih (hclean.visitConflict hvisited) pools'

theorem Settled.visitWaitingConflicts_counted (h : d.Settled (.counting hα)) (pools : Pools α)
    (index : Nat) : Counted (visitWaitingConflicts pools d index) := by
  refine (fetch_counted _ _).bind fun p _ =>
    (d.onConflicts_counted _ _).bind fun taken htaken => ?_
  obtain ⟨q, hq, rfl⟩ := onConflicts_eq_ok htaken
  have hagrees : q.Agrees { q with waiting := [] } := ⟨rfl, rfl, rfl, rfl⟩
  exact (h.requeued (requeued_conflicts hq hagrees)).visitConflicts_counted _ _ _

theorem Settled.propagateObjective_counted (h : d.Settled (.counting hα)) :
    Counted d.propagateObjective := by
  unfold propagateObjective
  split
  · exact .pure d
  · next o ho =>
      refine .ite (fun _ => .pure d) fun _ => ?_
      refine .ite (fun _ => .pure _) fun _ => .ite (fun _ => .pure _) fun _ => ?_
      refine Counted.bind ((impliedChanges_counted _ _ _ _).bind fun _ _ => .pure _) fun _ _ => ?_
      refine Settled.changeBounds_counted (h.requeued ?_) _
      exact { Requeued.refl d with
        objective := .inr ⟨o, ho, rfl⟩
        setting := ⟨rfl, rfl, rfl, rfl⟩ }

theorem Settled.changeIfWorthwhile_counted (h : d.Settled (.counting hα))
    (change : BoundChange α) (reason : Reason) : Counted (d.changeIfWorthwhile change reason) := by
  refine (d.acceptedBound_counted _ _ _).bind fun accepted _ => ?_
  cases accepted with
  | none => exact .pure d
  | some accepted => exact changeBound_counted h accepted reason

theorem Settled.applyWorthwhile_counted (h : d.Settled (.counting hα))
    (changes : List (BoundChange α × Reason)) :
    Counted ((applyWorthwhile changes).perform d).1 := by
  induction changes generalizing d with
  | nil => exact .ok ()
  | cons x rest ih =>
      refine Action.bind_counted (Action.change_counted (h.changeIfWorthwhile_counted _ _))
        fun _ next hnext => ?_
      rw [Action.perform_get_bind]
      split
      · refine ih ?_
        rcases changeIfWorthwhile_eq_ok (Action.perform_change_eq_ok.mp hnext) with
          rfl | ⟨accepted, -, hchange⟩
        · exact h
        · exact (changeBound_settled h trivial hchange).1
      · exact .ok ()

theorem Settled.propagateImplications_counted (h : d.Settled (.counting hα)) :
    Counted (propagateImplications.perform d).1 := by
  unfold propagateImplications
  rw [Action.perform_get_bind]
  split
  · exact .ok ()
  · refine Action.bind_counted (d.impliedByEntries_counted _) fun changes looked hlooked => ?_
    obtain ⟨hcursor, -⟩ := impliedByEntries_eq_ok hlooked
    have hlooked : looked.Settled (.counting hα) := by
      rw [hcursor]
      exact h.requeued (requeued_cursor d _)
    exact hlooked.applyWorthwhile_counted changes

end Domain

namespace PropagationStep

variable {s s' : PropagationState α}

omit [Scalar α] in
theorem changeDomain_counted {f : Domain α → Checked (Domain α)} (h : Counted (f s.domain)) :
    Counted ((changeDomain f).perform s).1 :=
  Action.change_counted h

/-- Reading the news of a pool and visiting what waits there stops at no counter. -/
theorem propagateCuts_counted (h : s.Settled (.counting hα))
    (hfeasible : s.domain.infeasible = none) (index : Nat) :
    Counted ((propagateCuts index).perform s).1 := by
  refine Action.bind_counted ?_ fun _ read hread => ?_
  · unfold synchroniseCuts
    rw [Action.perform_get_bind]
    refine Action.bind_counted (fetch_counted _ _) fun p _ _ => ?_
    refine Action.bind_counted (fetch_counted _ _) fun pool t ht => ?_
    refine Action.bind_counted (changeDomain_counted (Domain.onCuts_counted _ _ _)) fun _ _ _ => ?_
    exact synchroniseCuts_counted pool _ _ p
  · have hsettled :=
      Advances.settled (counting_derives hα _) h (synchroniseCuts_advances hfeasible hread)
    exact changeDomain_counted (hsettled.domain.visitWaitingCuts_counted index)

theorem propagateConflicts_counted (h : s.Settled (.counting hα))
    (hfeasible : s.domain.infeasible = none) (index : Nat) :
    Counted ((propagateConflicts index).perform s).1 := by
  refine Action.bind_counted ?_ fun _ read hread => ?_
  · unfold synchroniseConflicts
    rw [Action.perform_get_bind]
    refine Action.bind_counted (fetch_counted _ _) fun p _ _ => ?_
    refine Action.bind_counted (fetch_counted _ _) fun pool t ht => ?_
    refine Action.bind_counted (changeDomain_counted (Domain.onConflicts_counted _ _ _))
      fun _ _ _ => ?_
    exact synchroniseConflicts_counted pool p
  · have hsettled := Advances.settled (counting_derives hα _) h
      (synchroniseConflicts_advances hfeasible hread)
    rw [Action.perform_get_bind]
    refine Action.bind_counted
      (hsettled.domain.visitWaitingConflicts_counted _ index) fun _ _ _ => ?_
    exact .ok ()

theorem untilInfeasible_counted {step : Nat → PropagationStep α Unit}
    (hcounted : ∀ index s, s.Settled (.counting hα) → s.domain.infeasible = none →
      Counted ((step index).perform s).1)
    (hadvances : ∀ index s s', s.domain.infeasible = none →
      (step index).perform s = (.ok (), s') → Advances s s')
    (h : s.Settled (.counting hα)) (hfeasible : s.domain.infeasible = none) (indices : List Nat) :
    Counted ((untilInfeasible step indices).perform s).1 := by
  induction indices generalizing s with
  | nil => exact .ok ()
  | cons index rest ih =>
      refine Action.bind_counted (hcounted index s h hfeasible) fun _ next hnext => ?_
      have hsettled := Advances.settled (counting_derives hα _) h
        (hadvances index s next hfeasible hnext)
      refine Action.bind_counted (.ok next.domain) fun d t ht => ?_
      obtain ⟨rfl, rfl⟩ := domain_eq_ok.mp ht
      split
      · next hnot => exact ih hsettled (by simpa [Domain.isInfeasible] using hnot)
      · exact .ok ()

omit [Scalar α] in
/-- A step that is only taken under a condition stops at no counter if it does not when taken. -/
theorem ite_counted {p : Prop} [Decidable p] {x : PropagationStep α Unit}
    (hx : p → Counted (x.perform s).1) :
    Counted ((if p then x else pure ()).perform s).1 := by
  split
  · next hp => exact hx hp
  · exact .ok ()

theorem propagateRound_counted (h : s.Settled (.counting hα)) :
    Counted (propagateRound.perform s).1 := by
  simp only [propagateRound, Action.ite_seq]
  have hsettled : ∀ {t : PropagationState α}, Advances s t → t.Settled (.counting hα) :=
    Advances.settled (counting_derives hα _) h
  refine Action.bind_counted (.ok s.domain) fun d s₀ hd => ?_
  obtain ⟨rfl, rfl⟩ := domain_eq_ok.mp hd
  refine Action.bind_counted h.domain.propagateImplications_counted fun _ s₁ h₁ => ?_
  obtain ⟨d₁, himplications, rfl⟩ := onDomain_eq_ok.mp h₁
  have h₁ := Domain.propagateImplications_advances s.pools himplications
  refine Action.bind_counted (.ok d₁) fun d s₁' hd => ?_
  obtain ⟨rfl, rfl⟩ := domain_eq_ok.mp hd
  refine Action.bind_counted (ite_counted fun _ =>
    changeDomain_counted (hsettled h₁).domain.propagateRows_counted) fun _ s₂ hrows => ?_
  have h₂ := h₁.trans <| ite_related advances_stages hrows fun _ h => by
    obtain ⟨d₂, hvisit, rfl⟩ := changeDomain_eq_ok.mp h
    exact Domain.propagateRows_advances _ hvisit
  refine Action.bind_counted (.ok s₂.domain) fun d s₂' hd => ?_
  obtain ⟨rfl, rfl⟩ := domain_eq_ok.mp hd
  refine Action.bind_counted (ite_counted fun hquiet => untilInfeasible_counted
    (fun index s hs hfeasible => propagateConflicts_counted hs hfeasible index)
    (fun _ _ _ => propagateConflicts_advances) (hsettled h₂)
    (Domain.feasible_of_isQuietSince hquiet) _) fun _ s₃ hconflicts => ?_
  have h₃ := h₂.trans <| ite_related advances_stages hconflicts fun hquiet =>
    untilInfeasible_related advances_stages (fun _ _ _ => propagateConflicts_advances)
      (Domain.feasible_of_isQuietSince hquiet)
  refine Action.bind_counted (.ok s₃.domain) fun d s₃' hd => ?_
  obtain ⟨rfl, rfl⟩ := domain_eq_ok.mp hd
  refine Action.bind_counted (ite_counted fun hquiet => untilInfeasible_counted
    (fun index s hs hfeasible => propagateCuts_counted hs hfeasible index)
    (fun _ _ _ => propagateCuts_advances) (hsettled h₃)
    (Domain.feasible_of_isQuietSince hquiet) _) fun _ s₄ hcuts => ?_
  have h₄ := h₃.trans <| ite_related advances_stages hcuts fun hquiet =>
    untilInfeasible_related advances_stages (fun _ _ _ => propagateCuts_advances)
      (Domain.feasible_of_isQuietSince hquiet)
  refine Action.bind_counted (.ok s₄.domain) fun d s₄' hd => ?_
  obtain ⟨rfl, rfl⟩ := domain_eq_ok.mp hd
  exact ite_counted fun _ => changeDomain_counted (hsettled h₄).domain.propagateObjective_counted

/-- Whatever propagation ends with, it is not a counter below zero. -/
theorem propagate_counted (h : s.Settled (.counting hα)) : Counted (propagate.perform s).1 := by
  change Counted ((outcome? s).getD (.error .stepsExhausted, s)).1
  cases hr : outcome? s with
  | none => exact fun hfault => by cases hfault
  | some r =>
      rw [Option.getD_some]
      refine iterate?_induction (P := fun s => s.Settled (.counting hα) → Counted r.1)
        (fun t hend ht => ?_) (fun t u hnext ih ht => ?_) hr h
      · unfold nextRound at hend
        have hround := propagateRound_counted ht
        split at hend
        · cases hend
          exact .ok ()
        · split at hend
          · next fault after hperform =>
              cases hend
              rw [hperform] at hround
              exact hround
          · split at hend
            · cases hend
              exact .ok ()
            · cases hend
      · exact ih (Advances.settled (counting_derives hα _) ht
          (propagateRound_related advances_stages (nextRound_eq_inl hnext).2))

end PropagationStep

namespace PropagationState

variable {s : PropagationState α}

omit [Scalar α] in
theorem onDomain_counted {f : Domain α → Checked (Domain α)} (h : Counted (f s.domain)) :
    Counted (s.onDomain f) :=
  h.bind fun _ _ => .pure _

omit [Scalar α] in
theorem onCutPool_counted (s : PropagationState α) (pool : PoolId) (f : CutPool α → CutPool α) :
    Counted (s.onCutPool pool f) :=
  Counted.bind ((fetch_counted _ _).bind fun _ _ => (store_counted _ _ _).bind fun _ _ => .pure _)
    fun _ _ => .pure _

omit [Scalar α] in
theorem onConflictPool_counted (s : PropagationState α) (pool : PoolId)
    (f : ConflictPool α → ConflictPool α) : Counted (s.onConflictPool pool f) :=
  Counted.bind ((fetch_counted _ _).bind fun _ _ => (store_counted _ _ _).bind fun _ _ => .pure _)
    fun _ _ => .pure _

/-- No operation on a settled state takes an infinite term off a counter that is zero. -/
theorem Settled.perform_counted (h : s.Settled (.counting hα)) (op : Operation α) :
    Counted (op.perform s) := by
  have hdomain := h.domain
  cases op with
  | changeBound change reason =>
      rw [Operation.perform]
      refine onDomain_counted ?_
      exact Domain.changeBound_counted hdomain change reason
  | fixColumn c value reason =>
      rw [Operation.perform]
      refine onDomain_counted ?_
      exact hdomain.fixColumn_counted c value reason
  | propagate =>
      refine Counted.bind ?_ fun _ _ => .pure _
      exact (Action.finish_counted (PropagationStep.propagate_counted h)).bind fun _ _ => .pure _
  | setStack changes branchings =>
      rw [Operation.perform]
      refine onDomain_counted (Counted.bind ?_ fun _ _ => .pure _)
      exact Action.finish_counted (hdomain.setStack_counted changes branchings)
  | backtrackTo position =>
      rw [Operation.perform]
      refine onDomain_counted ?_
      exact (Domain.backtrackTo_returns hdomain position).counted
  | backtrack =>
      rw [Operation.perform]
      refine onDomain_counted ?_
      exact hdomain.backtrack_counted.bind fun _ _ => .pure _
  | backtrackToGlobal =>
      rw [Operation.perform]
      refine onDomain_counted ?_
      exact (Domain.backtrackTo_returns hdomain _).counted
  | setupObjective partitions =>
      rw [Operation.perform]
      refine onDomain_counted ?_
      exact s.domain.setupObjective_counted partitions
  | refreshActivities =>
      rw [Operation.perform]
      refine onDomain_counted ?_
      exact s.domain.refreshActivities_counted
  | insertCut pool cut ageLimit => exact s.onCutPool_counted pool _
  | removeCut pool id => exact s.onCutPool_counted pool _
  | ageCuts pool used => exact s.onCutPool_counted pool _
  | addConflict pool literals => exact s.onConflictPool_counted pool _
  | removeConflict pool id => exact s.onConflictPool_counted pool _
  | resetAge pool id => exact s.onConflictPool_counted pool _
  | ageConflicts pool => exact s.onConflictPool_counted pool _
  | _ => exact fun hfault => by cases hfault

end PropagationState

end BranchBound
