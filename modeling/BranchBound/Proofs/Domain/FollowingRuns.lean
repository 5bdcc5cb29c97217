import BranchBound.Proofs.Domain.FixedPoint
import BranchBound.Proofs.Domain.Following

/-!
# Domains that keep up with their pools

A domain observes its pools if it follows the ledger of every pool that is attached to it. Every
operation on the domain keeps this, and so does every event that is posted by others. A round of
propagation which changes nothing reads the news of all pools; so a domain that propagation leaves
feasible is up to date.
-/

namespace BranchBound

open Checked

variable {α : Type}

namespace Pools

/-- Two collections of pools with the same ledgers. -/
structure SameLedgers (pools pools' : Pools α) : Prop where
  cuts : pools'.cutLedger = pools.cutLedger
  conflicts : pools'.conflictLedger = pools.conflictLedger
  cutCount : pools'.cuts.size = pools.cuts.size
  conflictCount : pools'.conflicts.size = pools.conflicts.size

variable {pools pools' pools'' : Pools α}

theorem SameLedgers.refl (pools : Pools α) : SameLedgers pools pools := ⟨rfl, rfl, rfl, rfl⟩

theorem SameLedgers.develops (h : SameLedgers pools pools') : pools.Develops pools' :=
  ⟨fun _ => h.cuts ▸ .refl, fun _ => h.conflicts ▸ .refl⟩

end Pools

/-- The news of an attached cut pool is read, or nothing is learnt about it. -/
def CutPropagation.Updates (pools : Pools α) (columnCount : Nat) (p p' : CutPropagation α) : Prop :=
  p.follower.Updates listing columnCount (pools.cutLedger p.pool) p'.follower

/-- The news of an attached conflict pool is read, or nothing is learnt about it. -/
def ConflictPropagation.Updates (pools : Pools α) (columnCount : Nat)
    (p p' : ConflictPropagation α) : Prop :=
  p.follower.Updates listing columnCount (pools.conflictLedger p.pool) p'.follower

namespace Domain

/-- A domain follows the pools that are attached to it. -/
structure Observes (d : Domain α) (pools : Pools α) : Prop where
  cuts : ∀ (i : Nat) p, d.cutPropagations[i]? = some p →
    p.follower.Follows CutPropagation.listing d.columnCount (pools.cutLedger p.pool)
  conflicts : ∀ (i : Nat) p, d.conflictPropagations[i]? = some p →
    p.follower.Follows ConflictPropagation.listing d.columnCount (pools.conflictLedger p.pool)

/-- The news of some of the attached pools is read, and nothing else is learnt about them. -/
structure Updates (pools : Pools α) (d d' : Domain α) : Prop where
  columnCount : d'.columnCount = d.columnCount
  cuts : List.Forall₂ (CutPropagation.Updates pools d.columnCount) d.cutPropagations.toList
    d'.cutPropagations.toList
  conflicts : List.Forall₂ (ConflictPropagation.Updates pools d.columnCount)
    d.conflictPropagations.toList d'.conflictPropagations.toList

variable {d d' : Domain α} {pools pools' : Pools α}

theorem Observes.of_same (h : d.Observes pools) (hcount : d'.columnCount = d.columnCount)
    (hcuts : d'.cutPropagations = d.cutPropagations)
    (hconflicts : d'.conflictPropagations = d.conflictPropagations) : d'.Observes pools := by
  refine ⟨?_, ?_⟩
  · rw [hcuts, hcount]
    exact h.cuts
  · rw [hconflicts, hcount]
    exact h.conflicts

theorem Observes.develops (h : d.Observes pools) (hbalanced : pools.Balanced)
    (hdevelops : pools.Develops pools') : d.Observes pools' :=
  ⟨fun i p hp => (h.cuts i p hp).develops (hbalanced.cuts _) (hdevelops.cuts _),
    fun i p hp => (h.conflicts i p hp).develops (hbalanced.conflicts _) (hdevelops.conflicts _)⟩

theorem Observes.updates (h : d.Observes pools) (hbalanced : pools.Balanced)
    (hupdates : Updates pools d d') : d'.Observes pools := by
  refine ⟨fun i p' hp' => ?_, fun i p' hp' => ?_⟩
  · obtain ⟨p, hp, hread⟩ := forall₂_getElem? hupdates.cuts hp'
    have hpool : p'.pool = p.pool := hread.pool
    rw [hpool, hupdates.columnCount]
    exact (h.cuts i p hp).updates (hbalanced.cuts _) hread
  · obtain ⟨p, hp, hread⟩ := forall₂_getElem? hupdates.conflicts hp'
    have hpool : p'.pool = p.pool := hread.pool
    rw [hpool, hupdates.columnCount]
    exact (h.conflicts i p hp).updates (hbalanced.conflicts _) hread

/-- Moving bounds teaches a domain nothing about its pools. -/
theorem Stirs.updates (pools : Pools α) (h : Stirs d d') (hcount : d'.columnCount = d.columnCount) :
    Updates pools d d' where
  columnCount := hcount
  cuts := h.cuts.imp fun _ _ hstirs => by
    rw [CutPropagation.Updates, hstirs.toSameCuts.follower hstirs.occurrences]
    exact .same
  conflicts := h.conflicts.imp fun _ _ hagrees => by
    rw [ConflictPropagation.Updates, hagrees.follower]
    exact .same

/-- A newly attached pool is followed from its first event on. -/
theorem Observes.attachCuts (h : d.Observes pools) (pool : PoolId) :
    (d.attachCuts pool).2.Observes pools := by
  refine ⟨fun i p hp => ?_, h.conflicts⟩
  rcases of_getElem?_push hp with hp | ⟨-, rfl⟩
  · exact h.cuts i p hp
  · rw [CutPropagation.follower_ofPool]
    exact Follower.follows_ofPool ..

theorem Observes.attachConflicts (h : d.Observes pools) (pool : PoolId) :
    (d.attachConflicts pool).2.Observes pools := by
  refine ⟨h.cuts, fun i p hp => ?_⟩
  rcases of_getElem?_push hp with hp | ⟨-, rfl⟩
  · exact h.conflicts i p hp
  · rw [ConflictPropagation.follower_ofPool]
    exact Follower.follows_ofPool ..

end Domain

section Columns

variable {d d' : Domain α}

theorem Trail.append_lower_size (t : Trail α) (change : BoundChange α) (reason : Reason)
    (previous : Bound α) : (t.append change reason previous).lower.size = t.lower.size := by
  obtain ⟨c, side, value⟩ := change
  cases side with
  | lower => exact Array.size_setIfInBounds ..
  | upper => rfl

theorem Trail.rewindTo_lower_size (t : Trail α) (position : Nat) :
    (t.rewindTo position).lower.size = t.lower.size := by
  have hrestored : ∀ (entries : List (LogEntry α)) (t : Trail α),
      (entries.foldl restore t).lower.size = t.lower.size := by
    intro entries
    induction entries with
    | nil => exact fun t => rfl
    | cons entry rest ih =>
        intro t
        rw [List.foldl_cons, ih]
        obtain ⟨⟨c, side, value⟩, reason, previous⟩ := entry
        cases side with
        | lower => exact Array.size_setIfInBounds ..
        | upper => rfl
  exact hrestored ..

variable [Scalar α]

/-- What is done to a domain keeps its columns. -/
theorem Domain.Turn.columnCount (h : Turn d d') : d'.columnCount = d.columnCount := by
  cases h with
  | keep hstill => exact congrArg (fun t : Trail α => t.lower.size) hstill.trail
  | change hchange =>
      rcases changeBound_trail hchange with rfl | ⟨-, value, previous, -, hfollows⟩
      · rfl
      · exact (congrArg (fun t : Trail α => t.lower.size) hfollows.trail).trans
          (Trail.append_lower_size ..)
  | @back position hback =>
      rcases backtrackTo_eq_ok hback with ⟨-, rfl⟩ | ⟨hlt, -⟩
      · rfl
      · exact (congrArg (fun t : Trail α => t.lower.size) (backtrackTo_trail hback hlt).1).trans
          (Trail.rewindTo_lower_size ..)

theorem Domain.Turns.columnCount (h : Turns d d') : d'.columnCount = d.columnCount := by
  induction h with
  | refl => rfl
  | tail _ hturn ih => exact hturn.columnCount.trans ih

end Columns

variable [Scalar α]

section Advance

variable {s s' : PropagationState α}

/-- Propagation posts no events. -/
theorem Advance.sameLedgers (h : Advance s s') : s.pools.SameLedgers s'.pools := by
  cases h with
  | @renew pools pools' d pool id hrenew =>
      simp only [Pools.onConflicts, Pools.conflictPool, bind_eq_ok, pure_eq_ok, fetch_eq_ok,
        store_eq_ok, Prod.mk.injEq, true_and] at hrenew
      obtain ⟨p, hp, _, ⟨-, rfl⟩, rfl⟩ := hrenew
      refine ⟨rfl, funext fun other => ?_, rfl, Array.size_setIfInBounds ..⟩
      simp only [Pools.conflictLedger, Array.getElem?_setIfInBounds]
      split
      · next heq =>
          subst heq
          have hlt := (Array.getElem?_eq_some_iff.mp hp).1
          rw [hp, if_pos hlt, Option.elim_some, Option.elim_some, ConflictPool.resetAge_ledger]
      · rfl
  | _ => exact .refl _

/-- Propagation reads the news of the attached pools. -/
theorem Advance.updates (h : Advance s s') : Domain.Updates s.pools s.domain s'.domain := by
  have hcount : s'.domain.columnCount = s.domain.columnCount := h.turns.columnCount
  have hsame : ∀ d : Domain α, Domain.Updates s.pools d d := fun d =>
    (Domain.Stirs.refl d).updates s.pools rfl
  cases h with
  | requeue hrequeued =>
      refine ⟨hcount, hrequeued.cuts.imp fun _ _ hagrees => ?_,
        hrequeued.conflicts.imp fun _ _ hagrees => ?_⟩
      · rw [CutPropagation.Updates, hagrees.follower]
        exact .same
      · rw [ConflictPropagation.Updates, hagrees.follower]
        exact .same
  | refresh hrefresh =>
      rw [Domain.refreshActivity_eq_ok hrefresh]
      exact { hsame _ with }
  | @readCuts pools d index p p' pool hindex hpool hread _ =>
      refine { hsame d with cuts := ?_ }
      have hupdates : CutPropagation.Updates pools d.columnCount p p' := by
        rw [CutPropagation.Updates, Pools.cutLedger_eq hpool]
        exact .read (CutPropagation.synchronise_reads hread).pool_eq fun hbalanced hfollows =>
          CutPropagation.synchronise_follower hbalanced hfollows hread
      dsimp only
      rw [Array.toList_setIfInBounds]
      exact Domain.forall₂_set (R := CutPropagation.Updates pools d.columnCount) (fun _ => .same)
        (by simpa using hindex) hupdates
  | @readConflicts pools d index p p' pool hindex hpool hread _ =>
      refine { hsame d with conflicts := ?_ }
      have hupdates : ConflictPropagation.Updates pools d.columnCount p p' := by
        rw [ConflictPropagation.Updates, Pools.conflictLedger_eq hpool]
        exact .read (ConflictPropagation.synchronise_reads hread).pool_eq fun hbalanced hfollows =>
          ConflictPropagation.synchronise_follower hbalanced hfollows hread
      dsimp only
      rw [Array.toList_setIfInBounds]
      exact Domain.forall₂_set (R := ConflictPropagation.Updates pools d.columnCount)
        (fun _ => .same) (by simpa using hindex) hupdates
  | change _ _ hchanges => exact (Domain.changeBounds_stirs hchanges).updates _ hcount
  | refute _ =>
      rw [Domain.markInfeasible_eq]
      exact { hsame _ with }
  | renew _ => exact hsame _

theorem Advances.observes (h : Advances s s') (hbalanced : s.pools.Balanced)
    (hobserves : s.domain.Observes s.pools) :
    s'.pools.Balanced ∧ s'.domain.Observes s'.pools := by
  induction h with
  | refl => exact ⟨hbalanced, hobserves⟩
  | tail _ hlast ih =>
      have hdevelops := hlast.sameLedgers.develops
      exact ⟨ih.1.develops hdevelops, (ih.2.updates ih.1 hlast.updates).develops ih.1 hdevelops⟩

end Advance

namespace PropagationState

/-- All events of an attached pool were read. -/
def UpToDate (s : PropagationState α) : PooledKind → Nat → Prop
  | .cut, i => ∀ p, s.domain.cutPropagations[i]? = some p →
      p.pool < s.pools.cuts.size ∧ p.seen = (s.pools.cutLedger p.pool).events.length
  | .conflict, i => ∀ p, s.domain.conflictPropagations[i]? = some p →
      p.pool < s.pools.conflicts.size ∧ p.seen = (s.pools.conflictLedger p.pool).events.length

variable {s s' : PropagationState α} {k : PooledKind} {i : Nat}

theorem UpToDate.advance (h : s.UpToDate k i) (hbalanced : s.pools.Balanced)
    (hobserves : s.domain.Observes s.pools) (hadvance : Advance s s') : s'.UpToDate k i := by
  have hsame := hadvance.sameLedgers
  cases k with
  | cut =>
      intro p' hp'
      obtain ⟨p, hp, hread⟩ := Domain.forall₂_getElem? hadvance.updates.cuts hp'
      have hpool : p'.pool = p.pool := hread.pool
      rw [hsame.cuts, hsame.cutCount, hpool]
      exact ⟨(h p hp).1, hread.seen_eq (hbalanced.cuts _) (hobserves.cuts i p hp) (h p hp).2⟩
  | conflict =>
      intro p' hp'
      obtain ⟨p, hp, hread⟩ := Domain.forall₂_getElem? hadvance.updates.conflicts hp'
      have hpool : p'.pool = p.pool := hread.pool
      rw [hsame.conflicts, hsame.conflictCount, hpool]
      exact ⟨(h p hp).1, hread.seen_eq (hbalanced.conflicts _) (hobserves.conflicts i p hp)
        (h p hp).2⟩

theorem UpToDate.advances (h : s.UpToDate k i) (hbalanced : s.pools.Balanced)
    (hobserves : s.domain.Observes s.pools) (hadvances : Advances s s') : s'.UpToDate k i := by
  induction hadvances with
  | refl => exact h
  | tail hfirst hlast ih =>
      obtain ⟨hbalanced', hobserves'⟩ := Advances.observes hfirst hbalanced hobserves
      exact ih.advance hbalanced' hobserves' hlast

end PropagationState

namespace PropagationStep

variable {s s' : PropagationState α}

/-- What was feasible at the end of a part of propagation was so at its start. -/
theorem feasible_of_advances (h : Advances s s') (hfeasible : s'.domain.infeasible = none) :
    s.domain.infeasible = none := by
  by_contra hinfeasible
  exact hinfeasible (((Advances.grows h).of_infeasible hinfeasible).2.symm.trans hfeasible)

theorem log_size_le (h : Advances s s') : s.domain.log.size ≤ s'.domain.log.size := by
  have hlength := (Advances.grows h).log_extends.length_le
  simpa only [Array.length_toList] using hlength

/-- Steps which leave a domain feasible were all taken. -/
theorem untilInfeasible_each {step : Nat → PropagationStep α Unit} {indices : List Nat}
    (hstep : ∀ index s s', s.domain.infeasible = none →
      (step index).perform s = (.ok (), s') → Advances s s')
    (hstart : s.domain.infeasible = none)
    (h : (untilInfeasible step indices).perform s = (.ok (), s'))
    (hfeasible : s'.domain.infeasible = none) {index : Nat} (hindex : index ∈ indices) :
    ∃ t t', Advances s t ∧ t.domain.infeasible = none ∧ (step index).perform t = (.ok (), t') ∧
      Advances t' s' := by
  induction indices generalizing s with
  | nil => cases hindex
  | cons first rest ih =>
      simp only [untilInfeasible, Action.perform_bind_eq_ok, domain_eq_ok] at h
      obtain ⟨⟨⟩, next, hnext, _, _, ⟨rfl, rfl⟩, h⟩ := h
      have hfirst := hstep first s next hstart hnext
      split at h
      · next hnot =>
          have hgoes : next.domain.infeasible = none := by simpa [Domain.isInfeasible] using hnot
          rcases List.mem_cons.mp hindex with rfl | hindex
          · exact ⟨s, next, .refl, hstart, hnext, untilInfeasible_related advances_stages hstep
              hgoes h⟩
          · obtain ⟨t, t', hbefore, hopen, hvisit, hafter⟩ := ih hgoes h hindex
            exact ⟨t, t', hfirst.trans hbefore, hopen, hvisit, hafter⟩
      · next hinfeasible =>
          simp only [Action.perform_pure, Prod.mk.injEq, true_and] at h
          rw [h, Domain.isInfeasible, hfeasible] at hinfeasible
          exact absurd rfl hinfeasible

/-- A round that finds nothing to change visits the attached conflict pools, then the attached cut
pools and last the objective. -/
theorem propagateRound_quiet {R : PropagationState α → PropagationState α → Prop} (hR : Stages R)
    (hadvances : ∀ t t', R t t' → Advances t t') (h : propagateRound.perform s = (.ok (), s'))
    (hlog : s'.domain.log.size = s.domain.log.size) (hfeasible : s'.domain.infeasible = none) :
    ∃ s₂ s₃ s₄, R s s₂ ∧ R s₂ s₃ ∧ R s₃ s₄ ∧ R s₄ s' ∧
      (untilInfeasible propagateConflicts
        (List.range s₂.domain.conflictPropagations.size)).perform s₂ = (.ok (), s₃) ∧
      (untilInfeasible propagateCuts
        (List.range s₃.domain.cutPropagations.size)).perform s₃ = (.ok (), s₄) ∧
      s₄.domain.propagateObjective = .ok s'.domain := by
  simp only [propagateRound, Action.ite_seq] at h
  simp only [Action.perform_bind_eq_ok, domain_eq_ok, onDomain_eq_ok] at h
  obtain ⟨_, _, ⟨rfl, rfl⟩, ⟨⟩, s₁, ⟨d₁, himplications, rfl⟩, _, _, ⟨rfl, rfl⟩, ⟨⟩, s₂, hrows, _, _,
    ⟨rfl, rfl⟩, ⟨⟩, s₃, hconflicts, _, _, ⟨rfl, rfl⟩, ⟨⟩, s₄, hcuts, _, _, ⟨rfl, rfl⟩,
    hobjective⟩ := h
  have h₁ : R s { s with domain := d₁ } := hR.implications s.pools s.domain d₁ himplications
  have h₂ : R { s with domain := d₁ } s₂ := ite_related hR hrows fun _ h => by
    obtain ⟨d₂, hvisit, rfl⟩ := changeDomain_eq_ok.mp h
    exact hR.rows _ _ _ hvisit
  have h₃ : R s₂ s₃ := ite_related hR hconflicts fun hquiet =>
    untilInfeasible_related hR hR.conflicts (Domain.feasible_of_isQuietSince hquiet)
  have h₄ : R s₃ s₄ := ite_related hR hcuts fun hquiet =>
    untilInfeasible_related hR hR.cuts (Domain.feasible_of_isQuietSince hquiet)
  have h₅ : R s₄ s' := ite_related hR hobjective fun hquiet h => by
    obtain ⟨d₅, hvisit, rfl⟩ := changeDomain_eq_ok.mp h
    exact hR.objective _ _ _ (Domain.feasible_of_isQuietSince hquiet) hvisit
  have h₁₂ := hR.trans _ _ _ h₁ h₂
  have h₁₃ := hR.trans _ _ _ h₁₂ h₃
  have h₄₅ := hR.trans _ _ _ h₄ h₅
  -- nothing was logged before the last stages either, so all of them are entered
  have hquiet : ∀ t, R s t → R t s' → t.domain.isQuietSince s.domain.log.size = true := by
    intro t hbefore hafter
    have hfirst := log_size_le (hadvances _ _ hbefore)
    have hlast := log_size_le (hadvances _ _ hafter)
    have hsize : t.domain.log.size = s.domain.log.size := by omega
    rw [Domain.isQuietSince, Domain.isInfeasible,
      feasible_of_advances (hadvances _ _ hafter) hfeasible, hsize]
    exact beq_self_eq_true _
  rw [hquiet s₂ h₁₂ (hR.trans _ _ _ h₃ h₄₅), if_pos rfl] at hconflicts
  rw [hquiet s₃ h₁₃ h₄₅, if_pos rfl] at hcuts
  rw [hquiet s₄ (hR.trans _ _ _ h₁₃ h₄) h₅, if_pos rfl, changeDomain_eq_ok] at hobjective
  obtain ⟨d₅, hvisit, rfl⟩ := hobjective
  exact ⟨s₂, s₃, s₄, h₁₂, h₃, h₄, h₅, hconflicts, hcuts, hvisit⟩

/-- Propagation which leaves a domain feasible ends with a round that finds nothing to change. -/
theorem propagate_endsQuiet {R : PropagationState α → PropagationState α → Prop} (hR : Stages R)
    (h : propagate.perform s = (.ok (), s')) (hfeasible : s'.domain.infeasible = none) :
    ∃ t, R s t ∧ propagateRound.perform t = (.ok (), s') ∧
      s'.domain.log.size = t.domain.log.size := by
  refine propagate_rounds (P := fun u => ∃ t, R u t ∧ propagateRound.perform t = (.ok (), s') ∧
    s'.domain.log.size = t.domain.log.size) (fun u hend => ?_) (fun u u' hnext ih => ?_) h
  · rcases nextRound_eq_inr hend with ⟨hinfeasible, rfl⟩ | ⟨-, hround, hends⟩
    · rw [Domain.isInfeasible, hfeasible] at hinfeasible
      cases hinfeasible
    · rw [Domain.isInfeasible, hfeasible] at hends
      simp only [goesOn, Option.isSome_none, Bool.false_or, Bool.not_eq_eq_eq_not, Bool.not_true,
        Bool.or_eq_false_iff, bne_eq_false_iff_eq] at hends
      exact ⟨u, hR.refl u, hround, hends.1⟩
  · obtain ⟨t, hrest, hround, hlog⟩ := ih
    exact ⟨t, hR.trans _ _ _ (propagateRound_related hR (nextRound_eq_inl hnext).2) hrest, hround,
      hlog⟩

section Reading

variable (hbalanced : s.pools.Balanced) (hobserves : s.domain.Observes s.pools) {index : Nat}

include hbalanced hobserves

/-- A visit to a cut pool reads all of its events. -/
theorem propagateCuts_upToDate (hfeasible : s.domain.infeasible = none)
    (h : (propagateCuts index).perform s = (.ok (), s')) : s'.UpToDate .cut index := by
  simp only [propagateCuts, Action.perform_bind_eq_ok, changeDomain_eq_ok] at h
  obtain ⟨⟨⟩, read, hread, d', hvisit, rfl⟩ := h
  obtain ⟨hbalanced', hobserves'⟩ :=
    (synchroniseCuts_advances hfeasible hread).observes hbalanced hobserves
  refine PropagationState.UpToDate.advances ?_ hbalanced' hobserves'
    (Domain.visitWaitingCuts_advances read.pools hvisit)
  simp only [synchroniseCuts, Action.perform_bind_eq_ok, Action.perform_get, Action.perform_lift,
    changeDomain_eq_ok, Prod.mk.injEq, Except.ok.injEq] at hread
  obtain ⟨_, _, ⟨rfl, rfl⟩, p, _, ⟨hp, rfl⟩, pool, _, ⟨hpool, rfl⟩, -, _, ⟨after, hafter, rfl⟩,
    houtcome, rfl⟩ := hread
  obtain ⟨q, hq, rfl⟩ := Domain.onCuts_eq_ok hafter
  have hledger := Pools.cutLedger_eq (fetch_eq_ok.mp hpool)
  let synchronised := (CutPropagation.synchronise pool s.domain.lower s.domain.upper).perform p
  have hsynchronised : synchronised = (.ok (), synchronised.2) := Prod.ext houtcome rfl
  have hfollows := hobserves.cuts index p (fetch_eq_ok.mp hp)
  have hpools := hbalanced.cuts p.pool
  rw [hledger] at hfollows hpools
  have hseen := (CutPropagation.synchronise_follower hpools hfollows hsynchronised).2
  intro p' hp'
  dsimp only at hp'
  rw [Array.getElem?_setIfInBounds, if_pos rfl] at hp'
  split at hp'
  · obtain rfl := Option.some.inj hp'
    rw [(CutPropagation.synchronise_reads hsynchronised).pool_eq]
    refine ⟨(Array.getElem?_eq_some_iff.mp (fetch_eq_ok.mp hpool)).1, hseen.trans ?_⟩
    dsimp only
    rw [hledger]
  · cases hp'

/-- A visit to a conflict pool reads all of its events. -/
theorem propagateConflicts_upToDate (hfeasible : s.domain.infeasible = none)
    (h : (propagateConflicts index).perform s = (.ok (), s')) : s'.UpToDate .conflict index := by
  simp only [propagateConflicts, Action.perform_bind_eq_ok, Action.perform_get,
    Action.perform_lift, Action.perform_set, Prod.mk.injEq, Except.ok.injEq, true_and] at h
  obtain ⟨⟨⟩, read, hread, _, _, ⟨rfl, rfl⟩, ⟨pools, d'⟩, _, ⟨hvisit, rfl⟩, rfl⟩ := h
  obtain ⟨hbalanced', hobserves'⟩ :=
    (synchroniseConflicts_advances hfeasible hread).observes hbalanced hobserves
  refine PropagationState.UpToDate.advances ?_ hbalanced' hobserves'
    (Domain.visitWaitingConflicts_advances hvisit)
  simp only [synchroniseConflicts, Action.perform_bind_eq_ok, Action.perform_get,
    Action.perform_lift, changeDomain_eq_ok, Prod.mk.injEq, Except.ok.injEq] at hread
  obtain ⟨_, _, ⟨rfl, rfl⟩, p, _, ⟨hp, rfl⟩, pool, _, ⟨hpool, rfl⟩, -, _, ⟨after, hafter, rfl⟩,
    houtcome, rfl⟩ := hread
  obtain ⟨q, hq, rfl⟩ := Domain.onConflicts_eq_ok hafter
  have hledger := Pools.conflictLedger_eq (fetch_eq_ok.mp hpool)
  let synchronised := (ConflictPropagation.synchronise pool).perform p
  have hsynchronised : synchronised = (.ok (), synchronised.2) := Prod.ext houtcome rfl
  have hfollows := hobserves.conflicts index p (fetch_eq_ok.mp hp)
  have hpools := hbalanced.conflicts p.pool
  rw [hledger] at hfollows hpools
  have hseen := (ConflictPropagation.synchronise_follower hpools hfollows hsynchronised).2
  intro p' hp'
  dsimp only at hp'
  rw [Array.getElem?_setIfInBounds, if_pos rfl] at hp'
  split at hp'
  · obtain rfl := Option.some.inj hp'
    rw [(ConflictPropagation.synchronise_reads hsynchronised).pool_eq]
    refine ⟨(Array.getElem?_eq_some_iff.mp (fetch_eq_ok.mp hpool)).1, hseen.trans ?_⟩
    dsimp only
    rw [hledger]
  · cases hp'

/-- Visits to all attached pools of a kind that leave a domain feasible read all events. -/
theorem untilInfeasible_upToDate {step : Nat → PropagationStep α Unit} {k : PooledKind}
    (hstep : ∀ index s s', s.domain.infeasible = none →
      (step index).perform s = (.ok (), s') → Advances s s')
    (hread : ∀ index (s s' : PropagationState α), s.pools.Balanced → s.domain.Observes s.pools →
      s.domain.infeasible = none → (step index).perform s = (.ok (), s') → s'.UpToDate k index)
    {count : Nat} (hstart : s.domain.infeasible = none)
    (h : (untilInfeasible step (List.range count)).perform s = (.ok (), s'))
    (hfeasible : s'.domain.infeasible = none) (hcount : ∀ i, count ≤ i → s.UpToDate k i) (i : Nat) :
    s'.UpToDate k i := by
  by_cases hi : i < count
  · obtain ⟨t, t', hbefore, hopen, hvisit, hafter⟩ :=
      untilInfeasible_each hstep hstart h hfeasible (List.mem_range.mpr hi)
    obtain ⟨hbalanced', hobserves'⟩ := hbefore.observes hbalanced hobserves
    have hvisited := hstep i t t' hopen hvisit
    obtain ⟨hbalanced'', hobserves''⟩ := hvisited.observes hbalanced' hobserves'
    exact (hread i t t' hbalanced' hobserves' hopen hvisit).advances hbalanced'' hobserves'' hafter
  · exact (hcount i (Nat.le_of_not_lt hi)).advances hbalanced hobserves
      (untilInfeasible_related advances_stages hstep hstart h)

/-- A round that finds nothing to change reads the news of all attached pools. -/
theorem upToDate_of_quiet (h : propagateRound.perform s = (.ok (), s'))
    (hlog : s'.domain.log.size = s.domain.log.size) (hfeasible : s'.domain.infeasible = none)
    (k : PooledKind) (i : Nat) : s'.UpToDate k i := by
  obtain ⟨s₂, s₃, s₄, h₂, h₃, h₄, h₅, hconflicts, hcuts, -⟩ :=
    propagateRound_quiet advances_stages (fun _ _ => id) h hlog hfeasible
  have hfeasible₄ := feasible_of_advances h₅ hfeasible
  have hfeasible₃ := feasible_of_advances h₄ hfeasible₄
  have hfeasible₂ := feasible_of_advances h₃ hfeasible₃
  obtain ⟨hbalanced₂, hobserves₂⟩ := h₂.observes hbalanced hobserves
  obtain ⟨hbalanced₃, hobserves₃⟩ := h₃.observes hbalanced₂ hobserves₂
  obtain ⟨hbalanced₄, hobserves₄⟩ := h₄.observes hbalanced₃ hobserves₃
  refine PropagationState.UpToDate.advances ?_ hbalanced₄ hobserves₄ h₅
  cases k with
  | conflict =>
      have hread := untilInfeasible_upToDate (k := .conflict) hbalanced₂ hobserves₂
        advances_stages.conflicts (fun _ _ _ hbalanced hobserves hopen hvisit =>
          propagateConflicts_upToDate hbalanced hobserves hopen hvisit) hfeasible₂ hconflicts
            hfeasible₃
        (fun i hi p hp => absurd (Array.getElem?_eq_some_iff.mp hp).1 (Nat.not_lt_of_le hi)) i
      exact hread.advances hbalanced₃ hobserves₃ h₄
  | cut =>
      exact untilInfeasible_upToDate (k := .cut) hbalanced₃ hobserves₃ advances_stages.cuts
        (fun _ _ _ hbalanced hobserves hopen hvisit =>
          propagateCuts_upToDate hbalanced hobserves hopen hvisit) hfeasible₃ hcuts hfeasible₄
        (fun i hi p hp => absurd (Array.getElem?_eq_some_iff.mp hp).1 (Nat.not_lt_of_le hi)) i

/-- Propagation which leaves a domain feasible reads the news of all attached pools. -/
theorem propagate_upToDate (h : propagate.perform s = (.ok (), s'))
    (hfeasible : s'.domain.infeasible = none) (k : PooledKind) (i : Nat) : s'.UpToDate k i := by
  obtain ⟨t, hbefore, hround, hlog⟩ := propagate_endsQuiet advances_stages h hfeasible
  obtain ⟨hbalanced', hobserves'⟩ := hbefore.observes hbalanced hobserves
  exact upToDate_of_quiet hbalanced' hobserves' hround hlog hfeasible k i

end Reading

end PropagationStep

section Operations

variable {s s' : PropagationState α} {op : Operation α}

omit [Scalar α] in
/-- Posting events to one cut pool. -/
theorem Pools.Develops.setCuts {pools : Pools α} {pool : PoolId} {p p' : CutPool α}
    (hp : pools.cuts[pool]? = some p) (h : p.ledger.Develops p'.ledger) :
    pools.Develops { pools with cuts := pools.cuts.setIfInBounds pool p' } := by
  refine ⟨fun other => ?_, fun _ => .refl⟩
  simp only [cutLedger, Array.getElem?_setIfInBounds]
  split
  · next heq =>
      subst heq
      rw [if_pos (Array.getElem?_eq_some_iff.mp hp).1, hp]
      exact h
  · exact .refl

omit [Scalar α] in
/-- Posting events to one conflict pool. -/
theorem Pools.Develops.setConflicts {pools : Pools α} {pool : PoolId} {p p' : ConflictPool α}
    (hp : pools.conflicts[pool]? = some p) (h : p.ledger.Develops p'.ledger) :
    pools.Develops { pools with conflicts := pools.conflicts.setIfInBounds pool p' } := by
  refine ⟨fun _ => .refl, fun other => ?_⟩
  simp only [conflictLedger, Array.getElem?_setIfInBounds]
  split
  · next heq =>
      subst heq
      rw [if_pos (Array.getElem?_eq_some_iff.mp hp).1, hp]
      exact h
  · exact .refl

omit [Scalar α] in
/-- A new pool has a blank ledger. -/
theorem Pools.Develops.pushCuts (pools : Pools α) (ageLimit : Nat) :
    pools.Develops { pools with cuts := pools.cuts.push (.empty ageLimit) } := by
  refine ⟨fun other => ?_, fun _ => .refl⟩
  simp only [cutLedger, Array.getElem?_push]
  split
  · next heq =>
      rw [Array.getElem?_eq_none (Nat.le_of_eq heq.symm)]
      exact .refl
  · exact .refl

omit [Scalar α] in
theorem Pools.Develops.pushConflicts (pools : Pools α) (ageLimit softLimit : Nat) :
    pools.Develops
      { pools with conflicts := pools.conflicts.push (.empty ageLimit softLimit) } := by
  refine ⟨fun _ => .refl, fun other => ?_⟩
  simp only [conflictLedger, Array.getElem?_push]
  split
  · next heq =>
      rw [Array.getElem?_eq_none (Nat.le_of_eq heq.symm)]
      exact .refl
  · exact .refl

theorem Operation.Stage.develops (h : op.Stage s s') : s.pools.Develops s'.pools := by
  cases h with
  | change _ _ _ | back _ => exact .refl _
  | advance _ hadvance => exact hadvance.sameLedgers.develops

theorem Operation.Stage.observes (h : op.Stage s s') (hbalanced : s.pools.Balanced)
    (hobserves : s.domain.Observes s.pools) : s'.domain.Observes s'.pools := by
  have hcount := h.turns.columnCount
  cases h with
  | change x hx hchange =>
      exact hobserves.updates hbalanced
        ((Domain.changeBound_stirs hchange).updates _ hcount)
  | back hback =>
      exact hobserves.updates hbalanced ((Domain.backtrackTo_stirs hback).updates _ hcount)
  | advance _ hadvance =>
      exact (hobserves.updates hbalanced hadvance.updates).develops hbalanced
        hadvance.sameLedgers.develops

/-- What is done to a domain without moving a bound leaves what it observes alone. -/
theorem Domain.Observes.adjusts {d d' : Domain α} {pools : Pools α} (h : d.Observes pools)
    (hadjusts : d.Adjusts d') : d'.Observes pools := by
  cases hadjusts with
  | same => exact h
  | attachCuts pool => exact h.attachCuts pool
  | attachConflicts pool => exact h.attachConflicts pool
  | setCliques _ | setVariableBounds _ | clearMoved => exact h.of_same rfl rfl rfl
  | markInfeasible reason =>
      rw [markInfeasible_eq]
      exact h.of_same rfl rfl rfl
  | setupObjective hsetup =>
      rw [setupObjective_eq_ok hsetup]
      exact h.of_same rfl rfl rfl
  | setObjectiveCutoff cutoff =>
      rw [setObjectiveCutoff_eq]
      exact h.of_same rfl rfl rfl
  | refreshActivities hrefresh =>
      rw [refreshActivities_eq_ok hrefresh]
      exact h.of_same rfl rfl rfl

/-- An operation that does not move bounds posts events to the pools, if it does anything to
them. -/
theorem Operation.posts (hmoves : op.movesBounds = false) (h : op.perform s = .ok s') :
    s.pools.Develops s'.pools := by
  cases op with
  | newCutPool ageLimit =>
      cases h
      exact .pushCuts ..
  | newConflictPool ageLimit softLimit =>
      cases h
      exact .pushConflicts ..
  | insertCut pool cut ageLimit =>
      obtain ⟨p, hp, rfl⟩ := PropagationState.onCutPool_eq_ok h
      exact .setCuts hp (p.insertWithAgeLimit_develops cut ageLimit)
  | removeCut pool id =>
      obtain ⟨p, hp, rfl⟩ := PropagationState.onCutPool_eq_ok h
      exact .setCuts hp (p.remove_develops id)
  | ageCuts pool used =>
      obtain ⟨p, hp, rfl⟩ := PropagationState.onCutPool_eq_ok h
      exact .setCuts hp (p.age_develops used)
  | addConflict pool literals =>
      obtain ⟨p, hp, rfl⟩ := PropagationState.onConflictPool_eq_ok h
      exact .setConflicts hp (p.add_develops literals)
  | removeConflict pool id =>
      obtain ⟨p, hp, rfl⟩ := PropagationState.onConflictPool_eq_ok h
      exact .setConflicts hp (p.remove_develops id)
  | resetAge pool id =>
      obtain ⟨p, hp, rfl⟩ := PropagationState.onConflictPool_eq_ok h
      exact .setConflicts hp (p.resetAge_ledger id ▸ .refl)
  | ageConflicts pool =>
      obtain ⟨p, hp, rfl⟩ := PropagationState.onConflictPool_eq_ok h
      exact .setConflicts hp p.age_develops
  | markInfeasible _ | attachCuts _ | attachConflicts _ | setCliques _ | setVariableBounds _
  | setupObjective _ | setObjectiveCutoff _ | refreshActivities | clearMoved =>
      rw [perform, PropagationState.onDomain_eq_ok] at h
      obtain ⟨d', -, rfl⟩ := h
      exact .refl _
  | _ => cases hmoves

/-- Whatever is done to a domain or to the pools, events are only posted. -/
theorem Operation.develops (h : op.perform s = .ok s') : s.pools.Develops s'.pools := by
  cases hmoves : op.movesBounds with
  | false => exact posts hmoves h
  | true =>
      have hall : ∀ t, Relation.ReflTransGen op.Stage s t → s.pools.Develops t.pools := by
        intro t ht
        induction ht with
        | refl => exact .refl _
        | tail _ hstage ih => exact ih.trans hstage.develops
      exact hall s' (stages hmoves h)

/-- Whatever is done to a domain or to the pools, the domain goes on observing the pools. -/
theorem Operation.observes (hbalanced : s.pools.Balanced) (hobserves : s.domain.Observes s.pools)
    (h : op.perform s = .ok s') : s'.domain.Observes s'.pools := by
  cases hmoves : op.movesBounds with
  | false =>
      exact (hobserves.adjusts (adjusts hmoves h)).develops hbalanced (posts hmoves h)
  | true =>
      have hall : ∀ t, Relation.ReflTransGen op.Stage s t →
          t.pools.Balanced ∧ t.domain.Observes t.pools := by
        intro t ht
        induction ht with
        | refl => exact ⟨hbalanced, hobserves⟩
        | tail _ hstage ih => exact ⟨ih.1.develops hstage.develops, hstage.observes ih.1 ih.2⟩
      exact (hall s' (stages hmoves h)).2

/-- A domain of a model has no pools attached. -/
theorem Domain.ofModel_observes {model : Model α} {feastol : α} {d : Domain α}
    (h : Domain.ofModel model feastol = .ok d) (pools : Pools α) : d.Observes pools := by
  obtain ⟨hcuts, hconflicts⟩ := Domain.ofModel_pools h
  exact ⟨fun i p hp => by simp [hcuts] at hp, fun i p hp => by simp [hconflicts] at hp⟩

end Operations

end BranchBound
