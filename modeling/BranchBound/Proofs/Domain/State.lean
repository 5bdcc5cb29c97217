import BranchBound.Proofs.Domain.Preparation
import BranchBound.Proofs.Domain.Propagation

/-!
# Settled states

A domain and the pools which it follows are settled together if the domain is settled and has read
a part of the events of every attached pool. One advance of propagation takes a settled state to a
settled state; so does everything that happens to the pools in between.
-/

namespace BranchBound

open Checked

variable {α : Type}

/-- The events of a cut pool; there are none of a pool that does not exist yet. -/
def Pools.cutEvents (pools : Pools α) (pool : PoolId) : List PoolEvent :=
  pools.cuts[pool]?.elim [] fun p => p.events.toList

theorem Pools.cutEvents_eq {pools : Pools α} {pool : PoolId} {p : CutPool α}
    (h : pools.cuts[pool]? = some p) : pools.cutEvents pool = p.events.toList := by
  rw [cutEvents, h, Option.elim_some]

/-- What is known of a cut pool was read from a part of its events. -/
structure CutPropagation.UpTo (p : CutPropagation α) (events : List PoolEvent) : Prop where
  seen : p.seen ≤ events.length
  known : p.KnowsOnly (events.take p.seen)

theorem CutPropagation.upTo_ofPool (pool : PoolId) (columnCount : Nat) (events : List PoolEvent) :
    (ofPool pool columnCount : CutPropagation α).UpTo events :=
  ⟨Nat.zero_le _, fun id known h => by simp [CutPropagation.known, ofPool, Slots.get?_empty] at h⟩

/-- Events that are appended do not matter to what was read before. -/
theorem CutPropagation.UpTo.mono {p : CutPropagation α} {events events' : List PoolEvent}
    (h : p.UpTo events) (hextends : events <+: events') : p.UpTo events' := by
  obtain ⟨news, rfl⟩ := hextends
  refine ⟨?_, ?_⟩
  · rw [List.length_append]
    exact Nat.le_add_right_of_le h.seen
  · rw [List.take_append_of_le_length h.seen]
    exact h.known

theorem CutPropagation.UpTo.of_sameCuts {p p' : CutPropagation α} {events : List PoolEvent}
    (h : p.UpTo events) (hsame : p.SameCuts p') : p'.UpTo events := by
  refine ⟨hsame.seen ▸ h.seen, fun id known hknown => ?_⟩
  have hcut := hsame.cuts id
  rw [hknown, Option.map_some] at hcut
  obtain ⟨found, hfound, -⟩ := Option.map_eq_some_iff.mp hcut.symm
  rw [hsame.seen]
  exact h.known id found hfound

theorem CutPropagation.Agrees.sameCuts {p p' : CutPropagation α} (h : p.Agrees p') :
    p.SameCuts p' :=
  ⟨h.pool, h.seen, fun id => by rw [h.known]⟩

variable [Scalar α] (T : Tracking α)

/-- The insertions into the cut pools are recorded, and the numbers in the pools are admissible. -/
structure Pools.Recorded (pools : Pools α) : Prop where
  faithful : ∀ (i : PoolId) pool, pools.cuts[i]? = some pool → pool.record.Faithful
  coefficients : ∀ (i : PoolId) pool id cut, pools.cuts[i]? = some pool →
    pool.get? id = some cut → ∀ e ∈ cut.entries, T.coefficient e.2
  literals : ∀ (i : PoolId) pool id literals, pools.conflicts[i]? = some pool →
    pool.get? id = some literals → ∀ l ∈ literals, T.value l.value

/-- The literals of the conflicts which a domain knows have admissible values. -/
def Domain.KnowsAdmissible (d : Domain α) : Prop :=
  ∀ (i : Nat) p id literals, d.conflictPropagations[i]? = some p →
    p.known id = some literals → ∀ l ∈ literals, T.value l.value

namespace PropagationState

/-- A settled domain that has read a part of the events of every attached pool. -/
structure Settled (s : PropagationState α) : Prop where
  domain : s.domain.Settled T
  pools : s.pools.Recorded T
  upTo : ∀ (i : Nat) p, s.domain.cutPropagations[i]? = some p → p.UpTo (s.pools.cutEvents p.pool)
  literals : s.domain.KnowsAdmissible T

end PropagationState

namespace Domain

variable {T} {d d' : Domain α}

theorem KnowsAdmissible.agrees (h : d.KnowsAdmissible T)
    (hagrees : List.Forall₂ ConflictPropagation.Agrees d.conflictPropagations.toList
      d'.conflictPropagations.toList) :
    d'.KnowsAdmissible T := by
  intro i p' id literals hp' hknown
  obtain ⟨p, hp, hsame⟩ := forall₂_getElem? hagrees hp'
  exact h i p id literals hp (hsame.known ▸ hknown)

theorem Settled.requeued (h : d.Settled T) (hrequeued : d.Requeued d') : d'.Settled T := by
  refine h.congr hrequeued.trail hrequeued.setting.model hrequeued.rowDirty
    (congrArg Array.size hrequeued.movedSides) (fun r hr => ?_) hrequeued.activities
    (fun i p hp => forall₂_getElem? hrequeued.cuts hp)
    (fun i p hp => forall₂_getElem? hrequeued.conflicts hp) fun o' ho' => ?_
  · rcases hrequeued.waiting r hr with hr | ⟨-, hlt⟩
    · exact .inl hr
    · exact .inr (h.coherent.rowDirty_size ▸ hlt)
  rcases hrequeued.objective with hsame | ⟨o, ho, hread⟩
  · exact ⟨o', hsame ▸ ho', rfl⟩
  · obtain rfl := Option.some.inj (hread.symm.trans ho')
    exact ⟨o, ho, rfl⟩

/-- Refreshing the activity of a row changes nothing else. -/
theorem Settled.refreshActivity (h : d.Settled T) {r : RowId}
    (hrefresh : d.refreshActivity r = .ok d') :
    d'.Settled T ∧ d' = { d with activities := d'.activities } := by
  have hr : r < d.model.rows.size := by
    simp only [Domain.refreshActivity, bind_eq_ok, Model.row, fetch_eq_ok] at hrefresh
    obtain ⟨row, hrow, -⟩ := hrefresh
    exact (Array.getElem?_eq_some_iff.mp hrow).1
  exact (h.refreshActivity_returns hr).of_eq_ok hrefresh

/-- Changes with admissible values take settled domains to settled domains. -/
theorem Settled.changeBounds (h : d.Settled T) {changes : List (BoundChange α × Reason)}
    (hvalues : ∀ x ∈ changes, T.value x.1.value) (hchanges : d.changeBounds changes = .ok d') :
    d'.Settled T ∧ Carried T d d' := by
  refine changeBounds_keeps (P := fun e => e.Settled T ∧ Carried T d e)
    (fun e e' x hx he hchange => ?_) hchanges ⟨h, .refl d⟩
  obtain ⟨hsettled, heffect⟩ := changeBound_settled he.1 (hvalues x hx) hchange
  exact ⟨hsettled, he.2.trans heffect.carried⟩

end Domain

/-- The values which propagation derives in settled domains of a model may be bounds. -/
def Tracking.Derives (model : Model α) : Prop :=
  ∀ (d : Domain α) change reason, d.Settled T → d.KnowsAdmissible T → d.model = model →
    d.Derived change reason → T.value change.value

variable {T}

omit [Scalar α] in
/-- Making a conflict young again does not matter to what can be seen of the pools. -/
theorem Pools.resetAge_eq_ok {pools pools' : Pools α} {pool : PoolId} {id : ConflictId}
    (h : pools.onConflicts pool (fun p => ((), p.resetAge id)) = .ok ((), pools')) :
    pools'.cuts = pools.cuts ∧ ∀ (i : PoolId) p', pools'.conflicts[i]? = some p' →
      ∃ p, pools.conflicts[i]? = some p ∧ p'.record = p.record := by
  simp only [onConflicts, conflictPool, bind_eq_ok, pure_eq_ok, fetch_eq_ok, store_eq_ok,
    Prod.mk.injEq, true_and] at h
  obtain ⟨p, hp, _, ⟨-, rfl⟩, rfl⟩ := h
  refine ⟨rfl, fun i p' hp' => ?_⟩
  rcases of_getElem?_setIfInBounds hp' with ⟨rfl, rfl⟩ | ⟨-, hp'⟩
  · exact ⟨p, hp, p.resetAge_record id⟩
  · exact ⟨p', hp', rfl⟩

/-- Propagation does not change the setting of a domain. -/
theorem Advance.setting {s s' : PropagationState α} (h : Advance s s') :
    Domain.SameSetting s.domain s'.domain := by
  cases h with
  | requeue hrequeued => exact hrequeued.setting
  | refresh hrefresh =>
      simp only [Domain.refreshActivity, bind_eq_ok, pure_eq_ok] at hrefresh
      obtain ⟨_, -, _, -, _, -, rfl⟩ := hrefresh
      exact ⟨rfl, rfl, rfl, rfl⟩
  | readCuts _ _ _ => exact ⟨rfl, rfl, rfl, rfl⟩
  | readConflicts _ _ _ => exact ⟨rfl, rfl, rfl, rfl⟩
  | @change pools d d' changes _ hchanges =>
      exact Domain.changeBounds_keeps (P := Domain.SameSetting d)
        (fun _ _ _ _ hsetting hchange => hsetting.trans (Domain.changeBound_sameSetting hchange))
        hchanges (.refl d)
  | refute _ =>
      unfold Domain.markInfeasible Domain.setInfeasible
      split <;> exact ⟨rfl, rfl, rfl, rfl⟩
  | renew _ => exact .refl _

/-- One advance of propagation takes a settled state to a settled state. -/
theorem Advance.settled {s s' : PropagationState α} (hT : T.Derives s.domain.model)
    (h : s.Settled T)
    (hadvance : Advance s s') : s'.Settled T := by
  cases hadvance with
  | requeue hrequeued =>
      refine ⟨h.domain.requeued hrequeued, h.pools, fun i p' hp' => ?_,
        h.literals.agrees hrequeued.conflicts⟩
      obtain ⟨p, hp, hagrees⟩ := Domain.forall₂_getElem? hrequeued.cuts hp'
      have hread := (h.upTo i p hp).of_sameCuts hagrees.sameCuts
      rw [← hagrees.pool] at hread
      exact hread
  | refresh hrefresh =>
      obtain ⟨hsettled, hsame⟩ := h.domain.refreshActivity hrefresh
      refine ⟨hsettled, h.pools, fun i p hp => h.upTo i p ?_, ?_⟩
      · rw [hsame] at hp
        exact hp
      · rw [hsame]
        exact h.literals
  | @readCuts pools d index p p' pool hindex hpool hread =>
      have hevents := Pools.cutEvents_eq hpool
      have hupTo := h.upTo index p hindex
      rw [hevents] at hupTo
      obtain ⟨hcoherent, hknows, hsame, hseen⟩ :=
        (h.domain.coherent.cuts index p hindex).synchronise h.domain.admissible
          (fun _ _ => Domain.values_lower)
          (fun _ _ => Domain.values_upper)
          (fun id cut hcut => h.pools.coefficients _ pool id cut hpool hcut)
          (h.pools.faithful _ pool hpool) hupTo.seen hupTo.known hread
      refine ⟨⟨⟨{ h.domain.coherent.toFramed with cuts := fun i q hq => ?_ },
        h.domain.coherent.rows, h.domain.coherent.objective⟩, h.domain.admissible,
        h.domain.logged⟩, h.pools, fun i q hq => ?_, h.literals⟩
      · rcases of_getElem?_setIfInBounds hq with ⟨-, rfl⟩ | ⟨-, hq⟩
        · exact hcoherent
        · exact h.domain.coherent.cuts i q hq
      · rcases of_getElem?_setIfInBounds hq with ⟨-, rfl⟩ | ⟨-, hq⟩
        · rw [hsame, hevents]
          refine ⟨Nat.le_of_eq (hseen.trans Array.length_toList.symm), ?_⟩
          rw [hseen, ← Array.length_toList, List.take_length]
          exact hknows
        · exact h.upTo i q hq
  | @readConflicts pools d index p p' pool hindex hpool hread =>
      have hreads := ConflictPropagation.synchronise_reads hread
      refine ⟨⟨⟨{ h.domain.coherent.toFramed with conflicts := fun i q hq => ?_ },
        h.domain.coherent.rows, h.domain.coherent.objective⟩, h.domain.admissible,
        h.domain.logged⟩, h.pools, h.upTo, fun i q id literals hq hknown => ?_⟩
      · rcases of_getElem?_setIfInBounds hq with ⟨-, rfl⟩ | ⟨-, hq⟩
        · exact hreads.occurrences_size.trans (h.domain.coherent.conflicts index p hindex)
        · exact h.domain.coherent.conflicts i q hq
      · rcases of_getElem?_setIfInBounds hq with ⟨-, rfl⟩ | ⟨-, hq⟩
        · rcases hreads.known id literals hknown with hknown | hpooled
          · exact h.literals index p id literals hindex hknown
          · exact h.pools.literals _ pool id literals hpool hpooled
        · exact h.literals i q id literals hq hknown
  | change changes hderived hchanges =>
      obtain ⟨hsettled, hcarried⟩ := h.domain.changeBounds
        (fun x hx => hT _ _ _ h.domain h.literals rfl (hderived x hx)) hchanges
      refine ⟨hsettled, h.pools, fun i p' hp' => ?_, h.literals.agrees hcarried.conflicts⟩
      obtain ⟨p, hp, hsame⟩ := hcarried.cuts i p' hp'
      have hread := (h.upTo i p hp).of_sameCuts hsame
      rw [← hsame.pool] at hread
      exact hread
  | refute _ =>
      refine ⟨h.domain.markInfeasible _, h.pools, fun i p hp => h.upTo i p ?_, ?_⟩
      · unfold Domain.markInfeasible Domain.setInfeasible at hp
        split at hp <;> exact hp
      · unfold Domain.markInfeasible Domain.setInfeasible
        split <;> exact h.literals
  | @renew pools pools' d pool id hrenew =>
      obtain ⟨hcuts, hconflicts⟩ := Pools.resetAge_eq_ok hrenew
      refine ⟨h.domain, ⟨?_, ?_, fun i p' id literals hp' hget => ?_⟩, fun i p hp => ?_, h.literals⟩
      · rw [hcuts]
        exact h.pools.faithful
      · rw [hcuts]
        exact h.pools.coefficients
      · obtain ⟨p, hp, hrecord⟩ := hconflicts i p' hp'
        have hsame : p'.get? id = p.get? id := congrArg (fun r => r.entry? id) hrecord
        exact h.pools.literals i p id literals hp (hsame ▸ hget)
      · have hread := h.upTo i p hp
        unfold Pools.cutEvents at hread ⊢
        rw [hcuts]
        exact hread

theorem Advances.setting {s s' : PropagationState α} (h : Advances s s') :
    Domain.SameSetting s.domain s'.domain := by
  induction h with
  | refl => exact .refl _
  | tail _ hadvance ih => exact ih.trans hadvance.setting

theorem Advances.settled {s s' : PropagationState α} (hT : T.Derives s.domain.model)
    (h : s.Settled T) (hadvances : Advances s s') : s'.Settled T := by
  induction hadvances with
  | refl => exact h
  | @tail t _ hadvances hadvance ih =>
      have hmodel : t.domain.model = s.domain.model := (Advances.setting hadvances).model
      exact hadvance.settled (hmodel.symm ▸ hT) ih

end BranchBound
