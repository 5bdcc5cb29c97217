import BranchBound.Proofs.Domain.Operation

/-!
# Runs through settled states

The domain of a model is settled, and every operation that brings only admissible numbers takes
settled states to settled states. So everything fits the bounds in every state that is reached.
-/

namespace BranchBound

open Checked

variable {α : Type} [Scalar α] {T : Tracking α}

namespace PropagationState

variable {s s' : PropagationState α}

/-- A settled domain in place of another one that has read as much of the pools. -/
theorem Settled.withDomain (h : s.Settled T) {d : Domain α} (hd : d.Settled T)
    (hcuts : ∀ (i : Nat) p', d.cutPropagations[i]? = some p' →
      ∃ p, s.domain.cutPropagations[i]? = some p ∧ p.SameCuts p')
    (hliterals : d.KnowsAdmissible T) :
    ({ s with domain := d } : PropagationState α).Settled T := by
  refine ⟨hd, h.pools, fun i p' hp' => ?_, hliterals⟩
  obtain ⟨p, hp, hsame⟩ := hcuts i p' hp'
  have hread := (h.upTo i p hp).of_sameCuts hsame
  rw [← hsame.pool] at hread
  exact hread

/-- Steps of a cut pool that insert admissible cuts leave a state settled. -/
theorem Settled.onCutPool (h : s.Settled T) {pool : PoolId} {p p' : CutPool α}
    (hp : s.pools.cuts[pool]? = some p) (new : Inequality α → Prop)
    (hstep : PoolRecord.Step new p.record p'.record)
    (hnew : ∀ cut, new cut → ∀ e ∈ cut.entries, T.coefficient e.2) :
    ({ s with pools := { s.pools with cuts := s.pools.cuts.setIfInBounds pool p' } } :
      PropagationState α).Settled T := by
  refine ⟨h.domain, ⟨fun i q hq => ?_, fun i q id cut hq hcut => ?_, h.pools.literals⟩,
    fun i q hq => ?_, h.literals⟩
  · rcases of_getElem?_setIfInBounds hq with ⟨-, rfl⟩ | ⟨-, hq⟩
    · exact (h.pools.faithful pool p hp).step hstep
    · exact h.pools.faithful i q hq
  · rcases of_getElem?_setIfInBounds hq with ⟨-, rfl⟩ | ⟨-, hq⟩
    · rcases hstep.entry? hcut with hold | hadded
      · exact h.pools.coefficients pool p id cut hp hold
      · exact hnew cut hadded
    · exact h.pools.coefficients i q id cut hq hcut
  · have hread := h.upTo i q hq
    by_cases hpool : pool = q.pool
    · subst hpool
      have hlt := (Array.getElem?_eq_some_iff.mp hp).1
      rw [Pools.cutEvents_eq hp] at hread
      rw [Pools.cutEvents_eq (Array.getElem?_setIfInBounds_self_of_lt hlt)]
      exact hread.mono hstep.events
    · unfold Pools.cutEvents at hread ⊢
      rw [Array.getElem?_setIfInBounds_ne hpool]
      exact hread

end PropagationState

/-- The numbers which an operation brings are admissible. -/
def Operation.Brings (T : Tracking α) : Operation α → Prop
  | changeBound change _ => T.value change.value
  | fixColumn _ value _ => T.value value
  | setStack changes _ => ∀ change ∈ changes, T.value change.value
  | insertCut _ cut _ => ∀ e ∈ cut.entries, T.coefficient e.2
  | addConflict _ literals => ∀ l ∈ literals, T.value l.value
  | _ => True

theorem mem_normalized {cut : Inequality α} {e : ColumnId × α} (h : e ∈ cut.normalized.entries) :
    e ∈ cut.entries :=
  List.mem_of_mem_filter (List.mem_mergeSort.mp h)

theorem mem_storedForm {literals : List (BoundChange α)} {l : BoundChange α}
    (h : l ∈ ConflictPool.storedForm literals) : l ∈ literals := by
  have hrest : ∀ (rest : List (BoundChange α)) (last : BoundChange α),
      l ∈ ConflictPool.withoutRepeatsOf last rest → l ∈ rest := by
    intro rest
    induction rest with
    | nil => exact fun _ hl => hl
    | cons x rest ih =>
        intro last hl
        simp only [ConflictPool.withoutRepeatsOf] at hl
        split at hl
        · exact List.mem_cons_of_mem _ (ih _ hl)
        · rcases List.mem_cons.mp hl with rfl | hl
          · exact List.mem_cons_self ..
          · exact List.mem_cons_of_mem _ (ih _ hl)
  have hmem : l ∈ literals.mergeSort BoundChange.storedBefore → l ∈ literals :=
    List.mem_mergeSort.mp
  refine hmem ?_
  unfold ConflictPool.storedForm at h
  cases hsorted : literals.mergeSort BoundChange.storedBefore with
  | nil =>
      rw [hsorted] at h
      exact h
  | cons x rest =>
      rw [hsorted] at h
      rcases List.mem_cons.mp h with rfl | h
      · exact List.mem_cons_self ..
      · exact List.mem_cons_of_mem _ (hrest rest x h)

namespace PropagationState

variable {s s' : PropagationState α}

theorem Settled.carried (h : s.Settled T) {d : Domain α}
    (hd : d.Settled T ∧ Domain.Carried T s.domain d) :
    ({ s with domain := d } : PropagationState α).Settled T :=
  h.withDomain hd.1 hd.2.cuts (h.literals.agrees hd.2.conflicts)

/-- What does not change what is known of the pools leaves a state settled if the domain is. -/
theorem Settled.samePools (h : s.Settled T) {d : Domain α} (hd : d.Settled T)
    (hcuts : d.cutPropagations = s.domain.cutPropagations)
    (hconflicts : d.conflictPropagations = s.domain.conflictPropagations) :
    ({ s with domain := d } : PropagationState α).Settled T :=
  h.withDomain hd (fun _ p' hp' => ⟨p', hcuts ▸ hp', .refl p'⟩) fun i p id literals hp =>
    h.literals i p id literals (hconflicts ▸ hp)

/-- Conflict pools with admissible literals leave a state settled. -/
theorem Settled.withConflicts (h : s.Settled T) {conflicts : Array (ConflictPool α)}
    (hliterals : ∀ (i : PoolId) pool id literals, conflicts[i]? = some pool →
      pool.get? id = some literals → ∀ l ∈ literals, T.value l.value) :
    ({ s with pools := { s.pools with conflicts := conflicts } } : PropagationState α).Settled T :=
  ⟨h.domain, ⟨h.pools.faithful, h.pools.coefficients, hliterals⟩, h.upTo, h.literals⟩

/-- Steps of a conflict pool that add admissible conflicts leave a state settled. -/
theorem Settled.onConflictPool (h : s.Settled T) {pool : PoolId} {p p' : ConflictPool α}
    (hp : s.pools.conflicts[pool]? = some p) (new : List (BoundChange α) → Prop)
    (hstep : PoolRecord.Step new p.record p'.record)
    (hnew : ∀ literals, new literals → ∀ l ∈ literals, T.value l.value) :
    ({ s with pools := { s.pools with conflicts := s.pools.conflicts.setIfInBounds pool p' } } :
      PropagationState α).Settled T := by
  refine h.withConflicts fun i q id literals hq hget => ?_
  rcases of_getElem?_setIfInBounds hq with ⟨-, rfl⟩ | ⟨-, hq⟩
  · rcases hstep.entry? hget with hold | hadded
    · exact h.pools.literals pool p id literals hp hold
    · exact hnew literals hadded
  · exact h.pools.literals i q id literals hq hget

end PropagationState

theorem Operation.Brings.change {op : Operation α} (h : op.Brings T) :
    ∀ x ∈ op.changes, T.value x.1.value := by
  intro x hx
  cases op with
  | changeBound change reason =>
      rw [List.mem_singleton.mp hx]
      exact h
  | fixColumn c value reason =>
      rcases List.mem_cons.mp hx with rfl | hx
      · exact h
      · rw [List.mem_singleton.mp hx]
        exact h
  | setStack changes branchings =>
      simp only [Operation.changes, List.mem_flatMap, List.mem_cons, List.not_mem_nil,
        or_false] at hx
      obtain ⟨change, hchange, rfl | rfl⟩ := hx
      · exact h change hchange
      · exact h change hchange
  | _ => cases hx

theorem Operation.Stage.settled {op : Operation α} (hbrings : op.Brings T)
    {s s' : PropagationState α} (hT : T.Derives s.domain.model) (h : s.Settled T)
    (hstage : op.Stage s s') : s'.Settled T := by
  cases hstage with
  | change x hx hchange =>
      obtain ⟨hsettled, heffect⟩ :=
        Domain.changeBound_settled h.domain (hbrings.change x hx) hchange
      exact h.carried ⟨hsettled, heffect.carried⟩
  | @back _ _ _ position hback =>
      exact h.carried ((Domain.backtrackTo_returns h.domain position).of_eq_ok hback)
  | advance _ hadvance => exact hadvance.settled hT h

theorem Operation.stages_settled {op : Operation α} (hbrings : op.Brings T)
    {s s' : PropagationState α} (hT : T.Derives s.domain.model) (h : s.Settled T)
    (hstages : Relation.ReflTransGen op.Stage s s') :
    s'.Settled T ∧ s'.domain.model = s.domain.model := by
  induction hstages with
  | refl => exact ⟨h, rfl⟩
  | tail _ hstage ih =>
      obtain ⟨hsettled, hmodel⟩ := ih
      exact ⟨hstage.settled hbrings (hmodel.symm ▸ hT) hsettled,
        hstage.turns.constant.1.trans hmodel⟩

/-- An operation that brings only admissible numbers takes a settled state to a settled state. -/
theorem Operation.settled {s s' : PropagationState α} (hT : T.Derives s.domain.model)
    (h : s.Settled T) {op : Operation α} (hbrings : op.Brings T)
    (hperform : op.perform s = .ok s') :
    s'.Settled T := by
  by_cases hmoves : op.movesBounds = true
  · exact (stages_settled hbrings hT h (stages hmoves hperform)).1
  cases op with
  | newCutPool ageLimit =>
      cases hperform
      refine ⟨h.domain, ⟨fun i q hq => ?_, fun i q id cut hq hcut => ?_, h.pools.literals⟩,
        fun i q hq => ?_, h.literals⟩
      · rcases Domain.of_getElem?_push hq with hq | ⟨-, rfl⟩
        · exact h.pools.faithful i q hq
        · exact CutPool.record_empty ageLimit
      · rcases Domain.of_getElem?_push hq with hq | ⟨-, rfl⟩
        · exact h.pools.coefficients i q id cut hq hcut
        · exact nomatch (CutPool.record_empty ageLimit).entry_lt id cut hcut
      · refine (h.upTo i q hq).mono ?_
        unfold Pools.cutEvents
        cases hpool : s.pools.cuts[q.pool]? with
        | none => exact List.nil_prefix
        | some p =>
            have hlt := (Array.getElem?_eq_some_iff.mp hpool).1
            rw [Array.getElem?_push_lt hlt, ← Array.getElem?_eq_getElem hlt, hpool]
  | newConflictPool ageLimit softLimit =>
      cases hperform
      refine h.withConflicts fun i q id literals hq hget => ?_
      rcases Domain.of_getElem?_push hq with hq | ⟨-, rfl⟩
      · exact h.pools.literals i q id literals hq hget
      · exact nomatch (ConflictPool.record_empty ageLimit softLimit).entry_lt id literals hget
  | insertCut pool cut ageLimit =>
      obtain ⟨p, hp, rfl⟩ := PropagationState.onCutPool_eq_ok hperform
      exact h.onCutPool hp _ (p.insertWithAgeLimit_step cut ageLimit) fun _ heq e he =>
        hbrings e (mem_normalized (heq ▸ he))
  | removeCut pool id =>
      obtain ⟨p, hp, rfl⟩ := PropagationState.onCutPool_eq_ok hperform
      exact h.onCutPool hp (fun _ => False) (.keep (p.remove_keeps id)) fun _ hf => hf.elim
  | ageCuts pool used =>
      obtain ⟨p, hp, rfl⟩ := PropagationState.onCutPool_eq_ok hperform
      exact h.onCutPool hp (fun _ => False) (.keep (p.age_keeps used)) fun _ hf => hf.elim
  | addConflict pool literals =>
      obtain ⟨p, hp, rfl⟩ := PropagationState.onConflictPool_eq_ok hperform
      exact h.onConflictPool hp _ (p.add_step literals) fun _ heq l hl =>
        hbrings l (mem_storedForm (heq ▸ hl))
  | removeConflict pool id =>
      obtain ⟨p, hp, rfl⟩ := PropagationState.onConflictPool_eq_ok hperform
      exact h.onConflictPool hp (fun _ => False) (.keep (p.remove_keeps id)) fun _ hf => hf.elim
  | resetAge pool id =>
      obtain ⟨p, hp, rfl⟩ := PropagationState.onConflictPool_eq_ok hperform
      have hkeeps : PoolRecord.Keeps p.record (p.resetAge id).record := by
        rw [p.resetAge_record]
        exact .refl _
      exact h.onConflictPool hp (fun _ => False) (.keep hkeeps) fun _ hf => hf.elim
  | ageConflicts pool =>
      obtain ⟨p, hp, rfl⟩ := PropagationState.onConflictPool_eq_ok hperform
      exact h.onConflictPool hp (fun _ => False) (.keep p.age_keeps) fun _ hf => hf.elim
  | markInfeasible reason =>
      rw [perform, PropagationState.onDomain_eq_ok] at hperform
      obtain ⟨d', hd', rfl⟩ := hperform
      cases hd'
      refine h.samePools (h.domain.markInfeasible reason) ?_ ?_ <;>
        rw [Domain.markInfeasible_eq]
  | attachCuts pool =>
      rw [perform, PropagationState.onDomain_eq_ok] at hperform
      obtain ⟨d', hd', rfl⟩ := hperform
      cases hd'
      refine ⟨h.domain.attachCuts pool, h.pools, fun i p hp => ?_, h.literals⟩
      rcases Domain.of_getElem?_push hp with hp | ⟨-, rfl⟩
      · exact h.upTo i p hp
      · exact CutPropagation.upTo_ofPool ..
  | setupObjective partitions =>
      rw [perform, PropagationState.onDomain_eq_ok] at hperform
      obtain ⟨d', hd', rfl⟩ := hperform
      refine h.samePools (h.domain.setupObjective hd').1 ?_ ?_ <;>
        rw [Domain.setupObjective_eq_ok hd']
  | setObjectiveCutoff cutoff =>
      rw [perform, PropagationState.onDomain_eq_ok] at hperform
      obtain ⟨d', hd', rfl⟩ := hperform
      cases hd'
      refine h.samePools (h.domain.setObjectiveCutoff cutoff) ?_ ?_ <;>
        rw [Domain.setObjectiveCutoff_eq]
  | refreshActivities =>
      rw [perform, PropagationState.onDomain_eq_ok] at hperform
      obtain ⟨d', hd', rfl⟩ := hperform
      refine h.samePools (h.domain.refreshActivities hd').1 ?_ ?_ <;>
        rw [Domain.refreshActivities_eq_ok hd']
  | attachConflicts pool =>
      rw [perform, PropagationState.onDomain_eq_ok] at hperform
      obtain ⟨d', hd', rfl⟩ := hperform
      cases hd'
      refine h.withDomain (h.domain.attachConflicts pool) (fun _ p' hp' => ⟨p', hp', .refl p'⟩)
        fun i p id literals hp hknown => ?_
      rcases Domain.of_getElem?_push hp with hp | ⟨-, rfl⟩
      · exact h.literals i p id literals hp hknown
      · simp [ConflictPropagation.known, ConflictPropagation.ofPool, Slots.get?_empty] at hknown
  | setCliques cliques =>
      rw [perform, PropagationState.onDomain_eq_ok] at hperform
      obtain ⟨d', hd', rfl⟩ := hperform
      cases hd'
      exact h.samePools (h.domain.setCliques cliques) rfl rfl
  | setVariableBounds bounds =>
      rw [perform, PropagationState.onDomain_eq_ok] at hperform
      obtain ⟨d', hd', rfl⟩ := hperform
      cases hd'
      exact h.samePools (h.domain.setVariableBounds bounds) rfl rfl
  | clearMoved =>
      rw [perform, PropagationState.onDomain_eq_ok] at hperform
      obtain ⟨d', hd', rfl⟩ := hperform
      cases hd'
      exact h.samePools h.domain.clearMoved rfl rfl
  | _ => exact absurd rfl hmoves

/-- Every reachable state is settled. -/
theorem Reachable.settled {model : Model α} (hT : T.Derives model)
    {permitted : PropagationState α → Operation α → Prop}
    (hpermitted : ∀ s op, permitted s op → op.Brings T)
    (hmodel : model.WellFormed) (hread : Domain.Readable T model) {feastol : α}
    {s : PropagationState α} (h : Reachable permitted model feastol s) : s.Settled T := by
  induction h with
  | start hstart =>
      obtain ⟨hcuts, hconflicts⟩ := Domain.ofModel_pools hstart
      refine ⟨(Domain.ofModel_settled hmodel hread hstart).1, ⟨fun i p hp => ?_,
        fun i p id cut hp => ?_, fun i p id literals hp => ?_⟩, fun i p hp => ?_,
        fun i p id literals hp => ?_⟩
      · simp [Pools.empty] at hp
      · simp [Pools.empty] at hp
      · simp [Pools.empty] at hp
      · simp [hcuts] at hp
      · simp [hconflicts] at hp
  | step hbefore hop hperform ih =>
      exact Operation.settled (hbefore.constant.1.symm ▸ hT) ih (hpermitted _ _ hop) hperform

end BranchBound
