import BranchBound.Proofs.Domain.Marking
import BranchBound.Proofs.Domain.SettledRuns

/-!
# Where literals come from

Propagation and the aging of pools never make up a literal. So what holds of the literals of every
conflict that is added to a pool holds of the literals of every conflict in the pools, and of every
conflict that a domain still knows.
-/

namespace BranchBound

open Checked

variable {α : Type} {Q : BoundChange α → Prop}

/-- The literals of all conflicts in the pools have a property. -/
def Pools.LiteralsAre (Q : BoundChange α → Prop) (pools : Pools α) : Prop :=
  ∀ (i : PoolId) pool id literals, pools.conflicts[i]? = some pool →
    pool.get? id = some literals → ∀ l ∈ literals, Q l

/-- The literals of all conflicts that a domain knows have a property. -/
def Domain.LiteralsAre (Q : BoundChange α → Prop) (d : Domain α) : Prop :=
  ∀ (i : Nat) p id literals, d.conflictPropagations[i]? = some p →
    p.known id = some literals → ∀ l ∈ literals, Q l

/-- The literals of all conflicts in the pools or known to the domain have a property. -/
structure PropagationState.LiteralsAre (Q : BoundChange α → Prop) (s : PropagationState α) :
    Prop where
  pools : s.pools.LiteralsAre Q
  domain : s.domain.LiteralsAre Q

namespace Domain

variable {d d' : Domain α}

theorem LiteralsAre.agrees (h : d.LiteralsAre Q)
    (hagrees : List.Forall₂ ConflictPropagation.Agrees d.conflictPropagations.toList
      d'.conflictPropagations.toList) : d'.LiteralsAre Q := by
  intro i p' id literals hp' hknown
  obtain ⟨p, hp, hsame⟩ := forall₂_getElem? hagrees hp'
  exact h i p id literals hp (hsame.known ▸ hknown)

theorem LiteralsAre.stirs (h : d.LiteralsAre Q) (hstirs : Stirs d d') : d'.LiteralsAre Q :=
  h.agrees hstirs.conflicts

/-- Nor were other conflicts known before. -/
theorem LiteralsAre.of_stirs (h : d'.LiteralsAre Q) (hstirs : Stirs d d') : d.LiteralsAre Q := by
  intro i p id literals hp hknown
  obtain ⟨p', hp', hstirs⟩ := forall₂_getElem? hstirs.conflicts.flip hp
  exact h i p' id literals hp' (by rw [hstirs.known]; exact hknown)

end Domain

/-- What is done to a pool of conflicts adds only literals with the property. -/
theorem Pools.LiteralsAre.onConflictPool {pools : Pools α} (h : pools.LiteralsAre Q) {pool : PoolId}
    {p p' : ConflictPool α} (hp : pools.conflicts[pool]? = some p)
    (new : List (BoundChange α) → Prop) (hstep : PoolRecord.Step new p.record p'.record)
    (hnew : ∀ literals, new literals → ∀ l ∈ literals, Q l) :
    ({ pools with conflicts := pools.conflicts.setIfInBounds pool p' } : Pools α).LiteralsAre
      Q := by
  intro i q id literals hq hget
  rcases of_getElem?_setIfInBounds hq with ⟨-, rfl⟩ | ⟨-, hq⟩
  · rcases hstep.entry? hget with hold | hadded
    · exact h pool p id literals hp hold
    · exact hnew literals hadded
  · exact h i q id literals hq hget

variable [Scalar α]

/-- Propagation only reads conflicts and makes them young again. -/
theorem Advance.literalsAre {s s' : PropagationState α} (h : s.LiteralsAre Q)
    (hadvance : Advance s s') : s'.LiteralsAre Q := by
  cases hadvance with
  | requeue hrequeued => exact ⟨h.pools, h.domain.agrees hrequeued.conflicts⟩
  | refresh hrefresh =>
      rw [Domain.refreshActivity_eq_ok hrefresh]
      exact ⟨h.pools, h.domain⟩
  | readCuts _ _ _ _ => exact ⟨h.pools, h.domain⟩
  | @readConflicts pools d index p p' pool hindex hpool hread _ =>
      refine ⟨h.pools, fun i q id literals hq hknown => ?_⟩
      rcases of_getElem?_setIfInBounds hq with ⟨-, rfl⟩ | ⟨-, hq⟩
      · rcases (ConflictPropagation.synchronise_reads hread).known id literals hknown with
          hknown | hpooled
        · exact h.domain index p id literals hindex hknown
        · exact h.pools _ pool id literals hpool hpooled
      · exact h.domain i q id literals hq hknown
  | change changes _ hchanges =>
      exact ⟨h.pools, h.domain.stirs (Domain.changeBounds_stirs hchanges)⟩
  | refute _ =>
      rw [Domain.markInfeasible_eq]
      exact ⟨h.pools, h.domain⟩
  | renew hrenew =>
      refine ⟨fun i p' id literals hp' hget => ?_, h.domain⟩
      obtain ⟨p, hp, hrecord⟩ := (Pools.resetAge_eq_ok hrenew).2 i p' hp'
      have hsame : p'.get? id = p.get? id := congrArg (fun r => r.entry? id) hrecord
      exact h.pools i p id literals hp (hsame ▸ hget)

theorem Operation.Stage.literalsAre {op : Operation α} {s s' : PropagationState α}
    (h : s.LiteralsAre Q) (hstage : op.Stage s s') : s'.LiteralsAre Q := by
  cases hstage with
  | change x _ hchange =>
      exact ⟨h.pools, h.domain.stirs (Domain.changeBound_stirs hchange)⟩
  | back hback => exact ⟨h.pools, h.domain.stirs (Domain.backtrackTo_stirs hback)⟩
  | advance _ hadvance => exact hadvance.literalsAre h

/-- An operation that adds only literals with the property leaves only such literals. -/
theorem Operation.literalsAre {s s' : PropagationState α} {op : Operation α} (h : s.LiteralsAre Q)
    (hadd : ∀ pool literals, op = .addConflict pool literals → ∀ l ∈ literals, Q l)
    (hperform : op.perform s = .ok s') : s'.LiteralsAre Q := by
  by_cases hmoves : op.movesBounds = true
  · have hall : ∀ t, Relation.ReflTransGen op.Stage s t → t.LiteralsAre Q := by
      intro t ht
      induction ht with
      | refl => exact h
      | tail _ hstage ih => exact hstage.literalsAre ih
    exact hall s' (stages hmoves hperform)
  cases op with
  | newCutPool _ =>
      cases hperform
      exact ⟨h.pools, h.domain⟩
  | newConflictPool ageLimit softLimit =>
      cases hperform
      refine ⟨fun i q id literals hq hget => ?_, h.domain⟩
      rcases Domain.of_getElem?_push hq with hq | ⟨-, rfl⟩
      · exact h.pools i q id literals hq hget
      · exact nomatch (ConflictPool.record_empty ageLimit softLimit).entry_lt id literals hget
  | insertCut _ _ _ | removeCut _ _ | ageCuts _ _ =>
      obtain ⟨p, -, rfl⟩ := PropagationState.onCutPool_eq_ok hperform
      exact ⟨h.pools, h.domain⟩
  | addConflict pool literals =>
      obtain ⟨p, hp, rfl⟩ := PropagationState.onConflictPool_eq_ok hperform
      exact ⟨h.pools.onConflictPool hp _ (p.add_step literals) fun _ heq l hl =>
        hadd pool literals rfl l (mem_storedForm (heq ▸ hl)), h.domain⟩
  | removeConflict pool id =>
      obtain ⟨p, hp, rfl⟩ := PropagationState.onConflictPool_eq_ok hperform
      exact ⟨h.pools.onConflictPool hp (fun _ => False)
        (.keep (p.remove_keeps id)) fun _ hf => hf.elim,
        h.domain⟩
  | resetAge pool id =>
      obtain ⟨p, hp, rfl⟩ := PropagationState.onConflictPool_eq_ok hperform
      have hkeeps : PoolRecord.Keeps p.record (p.resetAge id).record := by
        rw [p.resetAge_record]
        exact .refl _
      exact ⟨h.pools.onConflictPool hp (fun _ => False) (.keep hkeeps) fun _ hf => hf.elim,
        h.domain⟩
  | ageConflicts pool =>
      obtain ⟨p, hp, rfl⟩ := PropagationState.onConflictPool_eq_ok hperform
      exact ⟨h.pools.onConflictPool hp (fun _ => False) (.keep p.age_keeps) fun _ hf => hf.elim,
        h.domain⟩
  | attachConflicts pool =>
      rw [perform, PropagationState.onDomain_eq_ok] at hperform
      obtain ⟨d', hd', rfl⟩ := hperform
      cases hd'
      refine ⟨h.pools, fun i p id literals hp hknown => ?_⟩
      rcases Domain.of_getElem?_push hp with hp | ⟨-, rfl⟩
      · exact h.domain i p id literals hp hknown
      · simp [ConflictPropagation.known, ConflictPropagation.ofPool, Slots.get?_empty] at hknown
  | markInfeasible reason =>
      rw [perform, PropagationState.onDomain_eq_ok] at hperform
      obtain ⟨d', hd', rfl⟩ := hperform
      cases hd'
      rw [Domain.markInfeasible_eq]
      exact ⟨h.pools, h.domain⟩
  | setupObjective partitions =>
      rw [perform, PropagationState.onDomain_eq_ok] at hperform
      obtain ⟨d', hd', rfl⟩ := hperform
      rw [Domain.setupObjective_eq_ok hd']
      exact ⟨h.pools, h.domain⟩
  | setObjectiveCutoff cutoff =>
      rw [perform, PropagationState.onDomain_eq_ok] at hperform
      obtain ⟨d', hd', rfl⟩ := hperform
      cases hd'
      rw [Domain.setObjectiveCutoff_eq]
      exact ⟨h.pools, h.domain⟩
  | refreshActivities =>
      rw [perform, PropagationState.onDomain_eq_ok] at hperform
      obtain ⟨d', hd', rfl⟩ := hperform
      rw [Domain.refreshActivities_eq_ok hd']
      exact ⟨h.pools, h.domain⟩
  | attachCuts _ | setCliques _ | setVariableBounds _ | clearMoved =>
      rw [perform, PropagationState.onDomain_eq_ok] at hperform
      obtain ⟨d', hd', rfl⟩ := hperform
      cases hd'
      exact ⟨h.pools, h.domain⟩
  | _ => exact absurd rfl hmoves

/-- In every run the literals are among those which operations added. -/
theorem Reachable.literalsAre {permitted : PropagationState α → Operation α → Prop}
    {model : Model α} {feastol : α} {s : PropagationState α}
    (hadd : ∀ t pool literals, permitted t (.addConflict pool literals) → ∀ l ∈ literals, Q l)
    (h : Reachable permitted model feastol s) : s.LiteralsAre Q := by
  induction h with
  | start hstart =>
      obtain ⟨-, hconflicts⟩ := Domain.ofModel_pools hstart
      exact ⟨fun i p id literals hp => by simp [Pools.empty] at hp,
        fun i p id literals hp => by simp [hconflicts] at hp⟩
  | step _ hop hperform ih =>
      exact Operation.literalsAre ih (fun pool literals hadded => hadd _ pool literals
        (hadded ▸ hop))
        hperform

end BranchBound
