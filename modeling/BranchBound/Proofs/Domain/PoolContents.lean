import BranchBound.Proofs.Domain.Operation

/-!
# What the pools hold

Only insertions bring cuts and conflicts into the pools. Propagation never does, it only makes
conflicts young again. So what is true of everything that is inserted is true of what the pools
hold.
-/

namespace BranchBound

open Checked

variable {α : Type}

/-- The same cuts and conflicts, of which conflicts may have other ages. -/
structure Pools.SameContents (pools pools' : Pools α) : Prop where
  cuts : pools'.cuts = pools.cuts
  size : pools'.conflicts.size = pools.conflicts.size
  conflicts : ∀ (i : PoolId) p', pools'.conflicts[i]? = some p' →
    ∃ p, pools.conflicts[i]? = some p ∧ p'.record = p.record

namespace Pools.SameContents

variable {pools pools' pools'' : Pools α}

theorem refl (pools : Pools α) : pools.SameContents pools := ⟨rfl, rfl, fun _ p hp => ⟨p, hp, rfl⟩⟩

theorem trans (h : pools.SameContents pools') (h' : pools'.SameContents pools'') :
    pools.SameContents pools'' := by
  refine ⟨h'.cuts.trans h.cuts, h'.size.trans h.size, fun i p'' hp'' => ?_⟩
  obtain ⟨p', hp', hrecord'⟩ := h'.conflicts i p'' hp''
  obtain ⟨p, hp, hrecord⟩ := h.conflicts i p' hp'
  exact ⟨p, hp, hrecord'.trans hrecord⟩

end Pools.SameContents

namespace PropagationState

variable {s : PropagationState α}

/-- Every cut in the pools has a property. -/
def PooledCuts (P : Inequality α → Prop) (s : PropagationState α) : Prop :=
  ∀ (i : PoolId) pool id cut, s.pools.cuts[i]? = some pool → pool.get? id = some cut → P cut

/-- Every conflict in the pools has a property. -/
def PooledConflicts (P : List (BoundChange α) → Prop) (s : PropagationState α) : Prop :=
  ∀ (i : PoolId) pool id literals, s.pools.conflicts[i]? = some pool →
    pool.get? id = some literals → P literals

/-- What is true of the conflicts in the pools does not depend on their ages. -/
theorem PooledConflicts.sameContents {P : List (BoundChange α) → Prop} (h : s.PooledConflicts P)
    {t : PropagationState α} (hsame : s.pools.SameContents t.pools) : t.PooledConflicts P := by
  intro i pool' id literals hpool' hget
  obtain ⟨pool, hpool, hrecord⟩ := hsame.conflicts i pool' hpool'
  have hentry : pool'.get? id = pool.get? id := congrArg (fun r => r.entry? id) hrecord
  exact h i pool id literals hpool (hentry ▸ hget)

/-- A step of a cut pool that brings only cuts with a property. -/
theorem PooledCuts.onCutPool {P Q : Inequality α → Prop}
    (h : s.PooledCuts P) {pool : PoolId} {p p' : CutPool α} (hp : s.pools.cuts[pool]? = some p)
    (hstep : PoolRecord.Step Q p.record p'.record) (hnew : ∀ cut, Q cut → P cut) :
    PooledCuts P
      { s with pools := { s.pools with cuts := s.pools.cuts.setIfInBounds pool p' } } := by
  intro i q id cut hq hcut
  rcases of_getElem?_setIfInBounds hq with ⟨-, rfl⟩ | ⟨-, hq⟩
  · rcases hstep.entry? hcut with hold | hadded
    · exact h pool p id cut hp hold
    · exact hnew cut hadded
  · exact h i q id cut hq hcut

/-- A step of a conflict pool that brings only conflicts with a property. -/
theorem PooledConflicts.onConflictPool {P Q : List (BoundChange α) → Prop} (h : s.PooledConflicts P)
    {pool : PoolId} {p p' : ConflictPool α} (hp : s.pools.conflicts[pool]? = some p)
    (hstep : PoolRecord.Step Q p.record p'.record) (hnew : ∀ literals, Q literals → P literals) :
    PooledConflicts P
      { s with pools := {
        s.pools with conflicts := s.pools.conflicts.setIfInBounds pool p' } } := by
  intro i q id literals hq hget
  rcases of_getElem?_setIfInBounds hq with ⟨-, rfl⟩ | ⟨-, hq⟩
  · rcases hstep.entry? hget with hold | hadded
    · exact h pool p id literals hp hold
    · exact hnew literals hadded
  · exact h i q id literals hq hget

end PropagationState

variable [Scalar α] {s s' : PropagationState α} {op : Operation α}

/-- Propagation leaves the contents of the pools as they are. -/
theorem Advance.contents (hadvance : Advance s s') : s.pools.SameContents s'.pools := by
  cases hadvance with
  | renew hrenew =>
      obtain ⟨hcuts, hconflicts⟩ := Pools.resetAge_eq_ok hrenew
      refine ⟨hcuts, ?_, hconflicts⟩
      simp only [Pools.onConflicts, bind_eq_ok, pure_eq_ok, store_eq_ok, Prod.mk.injEq,
        true_and] at hrenew
      obtain ⟨_, -, _, ⟨-, rfl⟩, rfl⟩ := hrenew
      exact Array.size_setIfInBounds ..
  | _ => exact ⟨rfl, rfl, fun i p hp => ⟨p, hp, rfl⟩⟩

/-- Operations that do not move bounds keep what is said of all cuts in the pools, if it is true of
the cut that is inserted. -/
theorem Operation.pooledCuts {P : Inequality α → Prop} (h : s.PooledCuts P)
    (hinsert : ∀ pool cut ageLimit, op = insertCut pool cut ageLimit → P cut.normalized)
    (hmoves : op.movesBounds = false) (hperform : op.perform s = .ok s') : s'.PooledCuts P := by
  cases op with
  | newCutPool ageLimit =>
      cases hperform
      intro i p id cut hp hcut
      rcases Domain.of_getElem?_push hp with hp | ⟨-, rfl⟩
      · exact h i p id cut hp hcut
      · simp [CutPool.get?, CutPool.pooled?, CutPool.empty, Table.get?, Table.empty] at hcut
  | insertCut pool cut ageLimit =>
      obtain ⟨p, hp, rfl⟩ := PropagationState.onCutPool_eq_ok hperform
      exact h.onCutPool hp (p.insertWithAgeLimit_step cut ageLimit) fun _ heq =>
        heq ▸ hinsert pool cut ageLimit rfl
  | removeCut pool id =>
      obtain ⟨p, hp, rfl⟩ := PropagationState.onCutPool_eq_ok hperform
      exact h.onCutPool (Q := fun _ => False) hp (.keep (p.remove_keeps id)) fun _ hf => hf.elim
  | ageCuts pool used =>
      obtain ⟨p, hp, rfl⟩ := PropagationState.onCutPool_eq_ok hperform
      exact h.onCutPool (Q := fun _ => False) hp (.keep (p.age_keeps used)) fun _ hf => hf.elim
  | newConflictPool _ _ =>
      cases hperform
      exact h
  | addConflict _ _ | removeConflict _ _ | resetAge _ _ | ageConflicts _ =>
      obtain ⟨p, -, rfl⟩ := PropagationState.onConflictPool_eq_ok hperform
      exact h
  | attachCuts _ | attachConflicts _ | setCliques _ | setVariableBounds _ | setupObjective _
  | setObjectiveCutoff _ | refreshActivities | clearMoved | markInfeasible _ =>
      rw [perform, PropagationState.onDomain_eq_ok] at hperform
      obtain ⟨d', -, rfl⟩ := hperform
      exact h
  | _ => cases hmoves

/-- Every operation does. -/
theorem PropagationState.PooledCuts.perform {P : Inequality α → Prop} (h : s.PooledCuts P)
    (hinsert : ∀ pool cut ageLimit, op = .insertCut pool cut ageLimit → P cut.normalized)
    (hperform : op.perform s = .ok s') : s'.PooledCuts P := by
  cases hmoves : op.movesBounds with
  | false => exact Operation.pooledCuts h hinsert hmoves hperform
  | true =>
      have hall : ∀ t, Relation.ReflTransGen op.Stage s t → t.pools.cuts = s.pools.cuts := by
        intro t ht
        induction ht with
        | refl => rfl
        | tail _ hstage ih =>
            cases hstage with
            | change _ _ _ | back _ => exact ih
            | advance _ hadvance => exact hadvance.contents.1.trans ih
      intro i pool id cut hpool
      exact h i pool id cut (hall s' (Operation.stages hmoves hperform) ▸ hpool)

/-- In every run the cuts in the pools are among those which operations inserted. -/
theorem Reachable.pooledCuts {P : Inequality α → Prop}
    {permitted : PropagationState α → Operation α → Prop} {model : Model α} {feastol : α}
    (hinsert : ∀ t pool cut ageLimit, permitted t (.insertCut pool cut ageLimit) → P cut.normalized)
    (h : Reachable permitted model feastol s) : s.PooledCuts P := by
  induction h with
  | start _ => exact fun i pool id cut hpool _ => by simp [Pools.empty] at hpool
  | @step s s' op _ hop hperform ih =>
      exact ih.perform (fun pool cut ageLimit heq => hinsert s pool cut ageLimit (heq ▸ hop))
        hperform

/-- Operations that do not move bounds keep what is said of all conflicts in the pools, if it is
true of the conflict that is added. -/
theorem Operation.pooledConflicts {P : List (BoundChange α) → Prop} (h : s.PooledConflicts P)
    (hadd : ∀ pool literals, op = addConflict pool literals → P (ConflictPool.storedForm literals))
    (hmoves : op.movesBounds = false) (hperform : op.perform s = .ok s') :
    s'.PooledConflicts P := by
  cases op with
  | newConflictPool ageLimit softLimit =>
      cases hperform
      intro i p id literals hp hget
      rcases Domain.of_getElem?_push hp with hp | ⟨-, rfl⟩
      · exact h i p id literals hp hget
      · simp [ConflictPool.get?, ConflictPool.pooled?, ConflictPool.empty, Table.get?,
          Table.empty] at hget
  | addConflict pool literals =>
      obtain ⟨p, hp, rfl⟩ := PropagationState.onConflictPool_eq_ok hperform
      exact h.onConflictPool hp (p.add_step literals) fun _ heq => heq ▸ hadd pool literals rfl
  | removeConflict pool id =>
      obtain ⟨p, hp, rfl⟩ := PropagationState.onConflictPool_eq_ok hperform
      exact h.onConflictPool (Q := fun _ => False) hp
        (.keep (p.remove_keeps id)) fun _ hf => hf.elim
  | resetAge pool id =>
      obtain ⟨p, hp, rfl⟩ := PropagationState.onConflictPool_eq_ok hperform
      have hkeeps : PoolRecord.Keeps p.record (p.resetAge id).record := by
        rw [p.resetAge_record]
        exact .refl _
      exact h.onConflictPool (Q := fun _ => False) hp (.keep hkeeps) fun _ hf => hf.elim
  | ageConflicts pool =>
      obtain ⟨p, hp, rfl⟩ := PropagationState.onConflictPool_eq_ok hperform
      exact h.onConflictPool (Q := fun _ => False) hp (.keep p.age_keeps) fun _ hf => hf.elim
  | newCutPool _ =>
      cases hperform
      exact h
  | insertCut _ _ _ | removeCut _ _ | ageCuts _ _ =>
      obtain ⟨p, -, rfl⟩ := PropagationState.onCutPool_eq_ok hperform
      exact h
  | attachCuts _ | attachConflicts _ | setCliques _ | setVariableBounds _ | setupObjective _
  | setObjectiveCutoff _ | refreshActivities | clearMoved | markInfeasible _ =>
      rw [perform, PropagationState.onDomain_eq_ok] at hperform
      obtain ⟨d', -, rfl⟩ := hperform
      exact h
  | _ => cases hmoves

end BranchBound
