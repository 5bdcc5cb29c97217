import BranchBound.Domain.Stack
import BranchBound.Proofs.Domain.State

/-!
# Runs of a domain

A domain is used by any sequence of operations: bounds are changed and fixed, propagation tightens
them, stacks of changes are applied, backtracking undoes them, pools are attached and change in
between. `Reachable` are the states at the end of such runs. What operations do to the box of a
domain is said by `Turn`: they change single bounds, they backtrack, or they leave the box alone.
-/

namespace BranchBound

open Checked

variable {α : Type}

/-- What can be done to a domain and to the pools it follows. -/
inductive Operation (α : Type) where
  | changeBound (change : BoundChange α) (reason : Reason)
  | fixColumn (c : ColumnId) (value : α) (reason : Reason)
  | markInfeasible (reason : Reason)
  | propagate
  | setStack (changes : List (BoundChange α)) (branchings : List Nat)
  | backtrackTo (position : Nat)
  | backtrack
  | backtrackToGlobal
  | attachCuts (pool : PoolId)
  | attachConflicts (pool : PoolId)
  | setCliques (cliques : CliqueTable)
  | setVariableBounds (bounds : VariableBounds α)
  | setupObjective (partitions : List (List ColumnId))
  | setObjectiveCutoff (cutoff : α)
  | refreshActivities
  | clearMoved
  | newCutPool (ageLimit : Nat)
  | newConflictPool (ageLimit softLimit : Nat)
  | insertCut (pool : PoolId) (cut : Inequality α) (ageLimit : Nat)
  | removeCut (pool : PoolId) (id : CutId)
  | ageCuts (pool : PoolId) (used : List CutId)
  | addConflict (pool : PoolId) (literals : List (BoundChange α))
  | removeConflict (pool : PoolId) (id : ConflictId)
  | resetAge (pool : PoolId) (id : ConflictId)
  | ageConflicts (pool : PoolId)

namespace PropagationState

/-- Performs an operation on the domain alone. -/
def onDomain (s : PropagationState α) (f : Domain α → Checked (Domain α)) :
    Checked (PropagationState α) := do
  return { s with domain := ← f s.domain }

/-- Changes a cut pool alone. -/
def onCutPool (s : PropagationState α) (pool : PoolId) (f : CutPool α → CutPool α) :
    Checked (PropagationState α) := do
  return { s with pools := (← s.pools.onCuts pool fun p => ((), f p)).2 }

/-- Changes a conflict pool alone. -/
def onConflictPool (s : PropagationState α) (pool : PoolId) (f : ConflictPool α → ConflictPool α) :
    Checked (PropagationState α) := do
  return { s with pools := (← s.pools.onConflicts pool fun p => ((), f p)).2 }

theorem onDomain_eq_ok {s s' : PropagationState α} {f : Domain α → Checked (Domain α)} :
    s.onDomain f = .ok s' ↔ ∃ d', f s.domain = .ok d' ∧ { s with domain := d' } = s' := by
  simp only [onDomain, bind_eq_ok, pure_eq_ok]

theorem onCutPool_eq_ok {s s' : PropagationState α} {pool : PoolId} {f : CutPool α → CutPool α}
    (h : s.onCutPool pool f = .ok s') :
    ∃ p, s.pools.cuts[pool]? = some p ∧ s' = { s with
      pools := { s.pools with cuts := s.pools.cuts.setIfInBounds pool (f p) } } := by
  simp only [onCutPool, Pools.onCuts, Pools.cutPool, bind_eq_ok, pure_eq_ok, fetch_eq_ok,
    store_eq_ok] at h
  obtain ⟨_, ⟨p, hp, _, ⟨-, rfl⟩, rfl⟩, rfl⟩ := h
  exact ⟨p, hp, rfl⟩

theorem onConflictPool_eq_ok {s s' : PropagationState α} {pool : PoolId}
    {f : ConflictPool α → ConflictPool α} (h : s.onConflictPool pool f = .ok s') :
    ∃ p, s.pools.conflicts[pool]? = some p ∧ s' = { s with
      pools := { s.pools with conflicts := s.pools.conflicts.setIfInBounds pool (f p) } } := by
  simp only [onConflictPool, Pools.onConflicts, Pools.conflictPool, bind_eq_ok, pure_eq_ok,
    fetch_eq_ok, store_eq_ok] at h
  obtain ⟨_, ⟨p, hp, _, ⟨-, rfl⟩, rfl⟩, rfl⟩ := h
  exact ⟨p, hp, rfl⟩

end PropagationState

variable [Scalar α]

/-- Performs an operation. -/
def Operation.perform (s : PropagationState α) : Operation α → Checked (PropagationState α)
  | changeBound change reason => s.onDomain fun d => d.changeBound change reason
  | fixColumn c value reason => s.onDomain fun d => d.fixColumn c value reason
  | markInfeasible reason => s.onDomain fun d => .ok (d.markInfeasible reason)
  | propagate => do
    let (pools, d) ← s.domain.propagate s.pools
    return ⟨pools, d⟩
  | setStack changes branchings => s.onDomain fun d => do
    return (← (Domain.setStack changes branchings).finish d).2
  | backtrackTo position => s.onDomain fun d => d.backtrackTo position
  | backtrack => s.onDomain fun d => do return (← d.backtrack).2
  | backtrackToGlobal => s.onDomain fun d => d.backtrackToGlobal
  | attachCuts pool => s.onDomain fun d => .ok (d.attachCuts pool).2
  | attachConflicts pool => s.onDomain fun d => .ok (d.attachConflicts pool).2
  | setCliques cliques => s.onDomain fun d => .ok (d.setCliques cliques)
  | setVariableBounds bounds => s.onDomain fun d => .ok (d.setVariableBounds bounds)
  | setupObjective partitions => s.onDomain fun d => d.setupObjective partitions
  | setObjectiveCutoff cutoff => s.onDomain fun d => .ok (d.setObjectiveCutoff cutoff)
  | refreshActivities => s.onDomain fun d => d.refreshActivities
  | clearMoved => s.onDomain fun d => .ok d.clearMoved
  | newCutPool ageLimit =>
    .ok { s with pools := { s.pools with cuts := s.pools.cuts.push (.empty ageLimit) } }
  | newConflictPool ageLimit softLimit =>
    .ok { s with
      pools := { s.pools with conflicts := s.pools.conflicts.push (.empty ageLimit softLimit) } }
  | insertCut pool cut ageLimit =>
    s.onCutPool pool fun p => (p.insertWithAgeLimit cut ageLimit).2
  | removeCut pool id => s.onCutPool pool fun p => p.remove id
  | ageCuts pool used => s.onCutPool pool fun p => (p.age used).2
  | addConflict pool literals => s.onConflictPool pool fun p => (p.add literals).2
  | removeConflict pool id => s.onConflictPool pool fun p => p.remove id
  | resetAge pool id => s.onConflictPool pool fun p => p.resetAge id
  | ageConflicts pool => s.onConflictPool pool fun p => p.age.2

/-- The states that a domain of a model reaches by permitted operations. -/
inductive Reachable (permitted : PropagationState α → Operation α → Prop) (model : Model α)
    (feastol : α) : PropagationState α → Prop
  | start {d : Domain α} (h : Domain.ofModel model feastol = .ok d) :
      Reachable permitted model feastol ⟨.empty, d⟩
  | step {s s' : PropagationState α} {op : Operation α}
      (h : Reachable permitted model feastol s) (hpermitted : permitted s op)
      (hperform : op.perform s = .ok s') : Reachable permitted model feastol s'

/-- The changes of bounds that an operation makes, with their reasons. -/
def Operation.changes : Operation α → List (BoundChange α × Reason)
  | changeBound change reason => [(change, reason)]
  | fixColumn c value reason => [(.atLeast c value, reason), (.atMost c value, reason)]
  | setStack changes _ => changes.flatMap fun change => [(change, .branching), (change, .unknown)]
  | _ => []

/-- Whether an operation moves bounds. -/
def Operation.movesBounds : Operation α → Bool
  | changeBound _ _ | fixColumn _ _ _ | propagate | setStack _ _ => true
  | backtrackTo _ | backtrack | backtrackToGlobal => true
  | _ => false

/-- One of the things which an operation that moves bounds does. -/
inductive Operation.Stage (op : Operation α) : PropagationState α → PropagationState α → Prop
  | change {pools : Pools α} {d d' : Domain α} (x : BoundChange α × Reason) (hx : x ∈ op.changes)
      (h : d.changeBound x.1 x.2 = .ok d') : Stage op ⟨pools, d⟩ ⟨pools, d'⟩
  | back {pools : Pools α} {d d' : Domain α} {position : Nat}
      (h : d.backtrackTo position = .ok d') : Stage op ⟨pools, d⟩ ⟨pools, d'⟩
  | advance {s s' : PropagationState α} (hop : op = .propagate) (h : Advance s s') : Stage op s s'

theorem Reachable.mono {permitted permitted' : PropagationState α → Operation α → Prop}
    (hle : ∀ s op, permitted s op → permitted' s op) {model : Model α} {feastol : α}
    {s : PropagationState α} (h : Reachable permitted model feastol s) :
    Reachable permitted' model feastol s := by
  induction h with
  | start hd => exact .start hd
  | step _ hop hperform ih => exact .step ih (hle _ _ hop) hperform

theorem Reachable.performEach {permitted : PropagationState α → Operation α → Prop}
    {model : Model α} {feastol : α} {s s' : PropagationState α} {ops : List (Operation α)}
    (h : Reachable permitted model feastol s)
    (hpermitted : ∀ t, Reachable permitted model feastol t → ∀ op ∈ ops, permitted t op)
    (hall : ops.foldlM (fun s op => op.perform s) s = .ok s') :
    Reachable permitted model feastol s' :=
  foldlM_keeps (fun t op _ hop ht hperform => ht.step (hpermitted t ht op hop) hperform) hall h

theorem Reachable.performAll {permitted : PropagationState α → Operation α → Prop}
    {model : Model α} {feastol : α} {s s' : PropagationState α} {ops : List (Operation α)}
    (h : Reachable permitted model feastol s) (hpermitted : ∀ s, ∀ op ∈ ops, permitted s op)
    (hall : ops.foldlM (fun s op => op.perform s) s = .ok s') :
    Reachable permitted model feastol s' :=
  h.performEach (fun t _ => hpermitted t) hall

/-- The states that operations which are permitted lead to. -/
abbrev Operation.Runs (permitted : PropagationState α → Operation α → Prop) :
    PropagationState α → PropagationState α → Prop :=
  Relation.ReflTransGen fun s s' => ∃ op, permitted s op ∧ op.perform s = .ok s'

theorem Operation.Runs.mono {permitted permitted' : PropagationState α → Operation α → Prop}
    {s s' : PropagationState α}
    (hle : ∀ s op, permitted s op → permitted' s op) (h : Operation.Runs permitted s s') :
    Operation.Runs permitted' s s' := by
  refine Relation.ReflTransGen.mono ?_ s s' h
  rintro t t' ⟨op, hop, hperform⟩
  exact ⟨op, hle t op hop, hperform⟩

theorem Reachable.runs {permitted : PropagationState α → Operation α → Prop} {model : Model α}
    {feastol : α} {s s' : PropagationState α} (h : Reachable permitted model feastol s)
    (hruns : Operation.Runs permitted s s') : Reachable permitted model feastol s' := by
  induction hruns with
  | refl => exact h
  | tail _ hstep ih =>
      obtain ⟨op, hpermitted, hperform⟩ := hstep
      exact ih.step hpermitted hperform

section Stages

variable {op : Operation α} {d d' : Domain α}

theorem advances_stages {s s' : PropagationState α} (h : Advances s s') :
    Relation.ReflTransGen (Operation.propagate : Operation α).Stage s s' := by
  induction h with
  | refl => exact .refl
  | tail _ hadvance ih => exact ih.tail (.advance rfl hadvance)

theorem fixColumn_stages (pools : Pools α) {c : ColumnId} {value : α} {reason : Reason}
    (h : d.fixColumn c value reason = .ok d') :
    Relation.ReflTransGen (Operation.fixColumn c value reason).Stage ⟨pools, d⟩ ⟨pools, d'⟩ := by
  refine Domain.fixColumn_keeps (P := fun e => Relation.ReflTransGen
    (Operation.fixColumn c value reason).Stage ⟨pools, d⟩ ⟨pools, e⟩)
    (fun e e' change hchange hstages hchanged => ?_) h .refl
  refine hstages.tail (.change (change, reason) ?_ hchanged)
  simpa [Operation.changes] using hchange

theorem applyStack_stages (pools : Pools α) {branchings : List Nat} {index : Nat}
    {changes : List (BoundChange α)}
    (hchanges : ∀ change ∈ changes,
      (change, .branching) ∈ op.changes ∧ (change, .unknown) ∈ op.changes)
    (h : (Domain.applyStack branchings index changes).perform d = (.ok (), d')) :
    Relation.ReflTransGen op.Stage ⟨pools, d⟩ ⟨pools, d'⟩ := by
  induction changes generalizing d index with
  | nil =>
      simp only [Domain.applyStack, Action.perform_pure, Prod.mk.injEq, true_and] at h
      rw [h]
  | cons change rest ih =>
      simp only [Domain.applyStack, Action.perform_bind_eq_ok, Action.perform_get, Prod.mk.injEq,
        Except.ok.injEq] at h
      obtain ⟨_, _, ⟨rfl, rfl⟩, h⟩ := h
      split at h
      · simp only [Action.perform_pure, Prod.mk.injEq, true_and] at h
        rw [h]
      · simp only [Action.perform_bind_eq_ok, Action.perform_change_eq_ok] at h
        obtain ⟨-, next, hchange, hrest⟩ := h
        obtain ⟨hbranching, hunknown⟩ := hchanges change (List.mem_cons_self ..)
        refine .head ?_ (ih (fun other hother => hchanges other (List.mem_cons_of_mem _ hother))
          hrest)
        split at hchange
        · exact .change (change, .branching) hbranching hchange
        · exact .change (change, .unknown) hunknown hchange

theorem setStack_stages (pools : Pools α) {changes : List (BoundChange α)} {branchings : List Nat}
    (h : (Domain.setStack changes branchings).perform d = (.ok (), d')) :
    Relation.ReflTransGen (Operation.setStack changes branchings).Stage ⟨pools, d⟩ ⟨pools, d'⟩ := by
  simp only [Domain.setStack, Action.perform_bind_eq_ok, Action.perform_change_eq_ok] at h
  obtain ⟨-, cleared, hback, happly⟩ := h
  refine .head (.back hback) (applyStack_stages pools (fun change hchange => ?_) happly)
  simp only [Operation.changes, List.mem_flatMap]
  exact ⟨⟨change, hchange, List.mem_cons_self ..⟩,
    ⟨change, hchange, List.mem_cons_of_mem _ (List.mem_singleton_self _)⟩⟩

theorem Domain.backtrack_eq_ok {decision : Option (BoundChange α)}
    (h : d.backtrack = .ok (decision, d')) :
    (d.branchings.back? = none ∧ decision = none ∧ d' = d) ∨
      ∃ position entry, d.branchings.back? = some position ∧ d.log[position]? = some entry ∧
        decision = some entry.change ∧ d.backtrackTo position = .ok d' := by
  unfold Domain.backtrack at h
  split at h
  · next hnone =>
      simp only [pure_eq_ok, Prod.mk.injEq] at h
      exact .inl ⟨hnone, h.1.symm, h.2.symm⟩
  · next position hposition =>
      simp only [bind_eq_ok, fetch_eq_ok, pure_eq_ok, Prod.mk.injEq] at h
      obtain ⟨entry, hentry, after, hback, rfl, rfl⟩ := h
      exact .inr ⟨position, entry, hposition, hentry, rfl, hback⟩

/-- An operation that moves bounds makes its changes, backtracks and propagates. -/
theorem Operation.stages {s s' : PropagationState α} (hmoves : op.movesBounds = true)
    (h : op.perform s = .ok s') : Relation.ReflTransGen op.Stage s s' := by
  cases op with
  | propagate =>
      simp only [perform, bind_eq_ok, pure_eq_ok] at h
      obtain ⟨⟨pools, d⟩, hpropagate, rfl⟩ := h
      exact advances_stages (Domain.propagate_advances hpropagate)
  | changeBound change reason =>
      rw [perform, PropagationState.onDomain_eq_ok] at h
      obtain ⟨d', hd', rfl⟩ := h
      exact .single (.change (change, reason) (List.mem_singleton_self _) hd')
  | fixColumn c value reason =>
      rw [perform, PropagationState.onDomain_eq_ok] at h
      obtain ⟨d', hd', rfl⟩ := h
      exact fixColumn_stages s.pools hd'
  | setStack changes branchings =>
      rw [perform, PropagationState.onDomain_eq_ok] at h
      obtain ⟨d', hd', rfl⟩ := h
      simp only [bind_eq_ok, pure_eq_ok] at hd'
      obtain ⟨⟨_, after⟩, hfinish, rfl⟩ := hd'
      exact setStack_stages s.pools (Action.finish_eq_ok.mp hfinish)
  | backtrackTo position =>
      rw [perform, PropagationState.onDomain_eq_ok] at h
      obtain ⟨d', hd', rfl⟩ := h
      exact .single (.back hd')
  | backtrack =>
      rw [perform, PropagationState.onDomain_eq_ok] at h
      obtain ⟨d', hd', rfl⟩ := h
      simp only [bind_eq_ok, pure_eq_ok] at hd'
      obtain ⟨⟨decision, after⟩, hback, rfl⟩ := hd'
      rcases Domain.backtrack_eq_ok hback with ⟨-, -, rfl⟩ | ⟨position, entry, -, -, -, hback⟩
      · exact .refl
      · exact .single (.back hback)
  | backtrackToGlobal =>
      rw [perform, PropagationState.onDomain_eq_ok] at h
      obtain ⟨d', hd', rfl⟩ := h
      exact .single (.back hd')
  | _ => cases hmoves

end Stages

namespace Domain

variable {d d' : Domain α}

/-- The box and its record stay; an infeasibility may be found. -/
structure Still (d d' : Domain α) : Prop where
  trail : d'.trail = d.trail
  model : d'.model = d.model
  feastol : d'.feastol = d.feastol
  infeasible : d'.infeasible = d.infeasible ∨
    d.infeasible = none ∧ ∃ reason, d'.infeasible = some ⟨reason, d.log.size⟩

omit [Scalar α] in
theorem Still.refl (d : Domain α) : Still d d := ⟨rfl, rfl, rfl, .inl rfl⟩

/-- What an operation can do to a domain, as far as its box is concerned. -/
inductive Turn (d d' : Domain α) : Prop
  | keep (h : Still d d')
  | change {change : BoundChange α} {reason : Reason} (h : d.changeBound change reason = .ok d')
  | back {position : Nat} (h : d.backtrackTo position = .ok d')

/-- What operations can do to a domain, one after the other. -/
abbrev Turns : Domain α → Domain α → Prop := Relation.ReflTransGen Turn

theorem Turns.keep (htrail : d'.trail = d.trail) (hmodel : d'.model = d.model)
    (hfeastol : d'.feastol = d.feastol) (hinfeasible : d'.infeasible = d.infeasible) :
    Turns d d' :=
  .single (.keep ⟨htrail, hmodel, hfeastol, .inl hinfeasible⟩)

/-- Backtracking does not change the setting of a domain. -/
theorem backtrackTo_sameSetting {position : Nat} (h : d.backtrackTo position = .ok d') :
    SameSetting d d' := by
  rcases backtrackTo_eq_ok h with ⟨-, rfl⟩ | ⟨hlt, -⟩
  · exact .refl _
  · exact (backtrackTo_trail h hlt).2.2

theorem Turn.constant (h : Turn d d') : d'.model = d.model ∧ d'.feastol = d.feastol := by
  cases h with
  | keep hstill => exact ⟨hstill.model, hstill.feastol⟩
  | change hchange =>
      have hsetting := changeBound_sameSetting hchange
      exact ⟨hsetting.model, hsetting.feastol⟩
  | back hback =>
      have hsetting := backtrackTo_sameSetting hback
      exact ⟨hsetting.model, hsetting.feastol⟩

theorem Turns.constant (h : Turns d d') : d'.model = d.model ∧ d'.feastol = d.feastol := by
  induction h with
  | refl => exact ⟨rfl, rfl⟩
  | tail _ hturn ih =>
      obtain ⟨hmodel, hfeastol⟩ := hturn.constant
      exact ⟨hmodel.trans ih.1, hfeastol.trans ih.2⟩

omit [Scalar α] in
theorem markInfeasible_eq (d : Domain α) (reason : Reason) :
    d.markInfeasible reason = { d with infeasible := (d.markInfeasible reason).infeasible } := by
  unfold markInfeasible setInfeasible
  split <;> rfl

omit [Scalar α] in
theorem markInfeasible_still (d : Domain α) (reason : Reason) :
    Still d (d.markInfeasible reason) := by
  unfold markInfeasible setInfeasible
  split
  · exact .refl d
  · next hnone => exact ⟨rfl, rfl, rfl, .inr ⟨hnone, reason, rfl⟩⟩

theorem changeBounds_turns {changes : List (BoundChange α × Reason)}
    (h : d.changeBounds changes = .ok d') : Turns d d' :=
  changeBounds_keeps (P := Turns d) (fun _ _ _ _ hturns hchange => hturns.tail (.change hchange)) h
    .refl

theorem refreshActivity_eq_ok {r : RowId} (h : d.refreshActivity r = .ok d') :
    d' = { d with activities := d'.activities } := by
  simp only [refreshActivity, bind_eq_ok, pure_eq_ok] at h
  obtain ⟨_, -, _, -, _, -, rfl⟩ := h
  rfl

/-- Computing everything anew changes what follows the bounds and makes rows wait. -/
theorem refreshActivities_eq_ok (h : d.refreshActivities = .ok d') :
    d' = { d with
      activities := d'.activities
      waitingRows := d'.waitingRows
      rowDirty := d'.rowDirty
      objective := d'.objective } := by
  simp only [refreshActivities, bind_eq_ok] at h
  obtain ⟨d₁, hloop, h⟩ := h
  have hkept : d₁ = { d with
      activities := d₁.activities
      waitingRows := d₁.waitingRows
      rowDirty := d₁.rowDirty } := by
    refine foldlM_keeps (P := fun e : Domain α => e = { d with
      activities := e.activities
      waitingRows := e.waitingRows
      rowDirty := e.rowDirty }) (fun e r e' _ he hstep => ?_) hloop rfl
    rw [bind_eq_ok] at hstep
    obtain ⟨fresh, hfresh, hmark⟩ := hstep
    rw [markRowDirty_eq_ok hmark, refreshActivity_eq_ok hfresh, he]
  split at h
  · rw [← pure_eq_ok.mp h, hkept]
  · simp only [bind_eq_ok, pure_eq_ok] at h
    obtain ⟨_, -, rfl⟩ := h
    rw [hkept]

/-- Setting up the objective changes nothing else. -/
theorem setupObjective_eq_ok {partitions : List (List ColumnId)}
    (h : d.setupObjective partitions = .ok d') : d' = { d with objective := d'.objective } := by
  simp only [setupObjective, bind_eq_ok, pure_eq_ok] at h
  obtain ⟨_, -, _, -, rfl⟩ := h
  rfl

theorem setObjectiveCutoff_eq (d : Domain α) (cutoff : α) :
    d.setObjectiveCutoff cutoff =
      { d with objective := (d.setObjectiveCutoff cutoff).objective } := by
  unfold setObjectiveCutoff
  split
  · rfl
  · dsimp only
    split <;> rfl

/-- A domain of a model starts without a log, feasible, and with no pools attached. -/
theorem ofModel_record {model : Model α} {feastol : α} (h : ofModel model feastol = .ok d) :
    d.log = #[] ∧ d.branchings = #[] ∧ d.infeasible = none := by
  unfold ofModel at h
  rw [refreshActivities_eq_ok h]
  exact ⟨rfl, rfl, rfl⟩

theorem ofModel_pools {model : Model α} {feastol : α} (h : ofModel model feastol = .ok d) :
    d.cutPropagations = #[] ∧ d.conflictPropagations = #[] := by
  unfold ofModel at h
  rw [refreshActivities_eq_ok h]
  exact ⟨rfl, rfl⟩

end Domain

/-- An advance of propagation changes single bounds or leaves the box alone. -/
theorem Advance.turns {s s' : PropagationState α} (h : Advance s s') :
    Domain.Turns s.domain s'.domain := by
  have hsetting := h.setting
  cases h with
  | requeue hrequeued =>
      exact .keep hrequeued.trail hsetting.model hsetting.feastol hrequeued.infeasible
  | refresh hrefresh =>
      rw [Domain.refreshActivity_eq_ok hrefresh]
      exact .keep rfl rfl rfl rfl
  | readCuts _ _ _ => exact .keep rfl rfl rfl rfl
  | readConflicts _ _ _ => exact .keep rfl rfl rfl rfl
  | change _ _ hchanges => exact Domain.changeBounds_turns hchanges
  | refute _ => exact .single (.keep (Domain.markInfeasible_still ..))
  | renew _ => exact .refl

theorem Operation.Stage.turns {op : Operation α} {s s' : PropagationState α} (h : op.Stage s s') :
    Domain.Turns s.domain s'.domain := by
  cases h with
  | change x hx hchange => exact .single (.change hchange)
  | back hback => exact .single (.back hback)
  | advance _ hadvance => exact hadvance.turns

/-- What is done to a domain without moving a bound. -/
inductive Domain.Adjusts (d : Domain α) : Domain α → Prop
  | same : Adjusts d d
  | markInfeasible (reason : Reason) : Adjusts d (d.markInfeasible reason)
  | attachCuts (pool : PoolId) : Adjusts d (d.attachCuts pool).2
  | attachConflicts (pool : PoolId) : Adjusts d (d.attachConflicts pool).2
  | setCliques (cliques : CliqueTable) : Adjusts d (d.setCliques cliques)
  | setVariableBounds (bounds : VariableBounds α) : Adjusts d (d.setVariableBounds bounds)
  | setupObjective {partitions : List (List ColumnId)} {d' : Domain α}
      (h : d.setupObjective partitions = .ok d') : Adjusts d d'
  | setObjectiveCutoff (cutoff : α) : Adjusts d (d.setObjectiveCutoff cutoff)
  | refreshActivities {d' : Domain α} (h : d.refreshActivities = .ok d') : Adjusts d d'
  | clearMoved : Adjusts d d.clearMoved

/-- What is done without moving a bound leaves the box alone. -/
theorem Domain.Adjusts.still {d d' : Domain α} (h : d.Adjusts d') : d.Still d' := by
  cases h with
  | same | attachCuts _ | attachConflicts _ | setCliques _ | setVariableBounds _ | clearMoved =>
      exact ⟨rfl, rfl, rfl, .inl rfl⟩
  | markInfeasible reason => exact markInfeasible_still ..
  | setupObjective hsetup =>
      rw [setupObjective_eq_ok hsetup]
      exact ⟨rfl, rfl, rfl, .inl rfl⟩
  | setObjectiveCutoff cutoff =>
      rw [setObjectiveCutoff_eq]
      exact ⟨rfl, rfl, rfl, .inl rfl⟩
  | refreshActivities hrefresh =>
      rw [refreshActivities_eq_ok hrefresh]
      exact ⟨rfl, rfl, rfl, .inl rfl⟩

theorem Operation.adjusts {s s' : PropagationState α} {op : Operation α}
    (hmoves : op.movesBounds = false) (h : op.perform s = .ok s') : s.domain.Adjusts s'.domain := by
  cases op with
  | newCutPool _ | newConflictPool _ _ =>
      cases h
      exact .same
  | insertCut _ _ _ | removeCut _ _ | ageCuts _ _ =>
      obtain ⟨p, -, rfl⟩ := PropagationState.onCutPool_eq_ok h
      exact .same
  | addConflict _ _ | removeConflict _ _ | resetAge _ _ | ageConflicts _ =>
      obtain ⟨p, -, rfl⟩ := PropagationState.onConflictPool_eq_ok h
      exact .same
  | setupObjective partitions =>
      rw [perform, PropagationState.onDomain_eq_ok] at h
      obtain ⟨d', hd', rfl⟩ := h
      exact .setupObjective hd'
  | refreshActivities =>
      rw [perform, PropagationState.onDomain_eq_ok] at h
      obtain ⟨d', hd', rfl⟩ := h
      exact .refreshActivities hd'
  | markInfeasible _ | attachCuts _ | attachConflicts _ | setCliques _ | setVariableBounds _
  | setObjectiveCutoff _ | clearMoved =>
      rw [perform, PropagationState.onDomain_eq_ok] at h
      obtain ⟨d', hd', rfl⟩ := h
      cases hd'
      first
        | exact .markInfeasible _
        | exact .attachCuts _
        | exact .attachConflicts _
        | exact .setCliques _
        | exact .setVariableBounds _
        | exact .setObjectiveCutoff _
        | exact .clearMoved
  | _ => cases hmoves

theorem Operation.still {s s' : PropagationState α} {op : Operation α}
    (hmoves : op.movesBounds = false) (h : op.perform s = .ok s') :
    s.domain.Still s'.domain :=
  (adjusts hmoves h).still

/-- An operation changes single bounds, backtracks, or leaves the box alone. -/
theorem Operation.turns {s s' : PropagationState α} {op : Operation α}
    (h : op.perform s = .ok s') : Domain.Turns s.domain s'.domain := by
  cases hmoves : op.movesBounds with
  | false => exact .single (.keep (still hmoves h))
  | true =>
      have hall : ∀ t, Relation.ReflTransGen op.Stage s t → Domain.Turns s.domain t.domain := by
        intro t ht
        induction ht with
        | refl => exact .refl
        | tail _ hstage ih => exact ih.trans hstage.turns
      exact hall s' (stages hmoves h)

/-- The model and the tolerance stay as they were. -/
theorem Reachable.constant {permitted : PropagationState α → Operation α → Prop} {model : Model α}
    {feastol : α} {s : PropagationState α} (h : Reachable permitted model feastol s) :
    s.domain.model = model ∧ s.domain.feastol = feastol := by
  induction h with
  | start hstart =>
      unfold Domain.ofModel at hstart
      rw [Domain.refreshActivities_eq_ok hstart]
      exact ⟨rfl, rfl⟩
  | step _ _ hperform ih =>
      obtain ⟨hmodel, hfeastol⟩ := (Operation.turns hperform).constant
      exact ⟨hmodel.trans ih.1, hfeastol.trans ih.2⟩

end BranchBound
