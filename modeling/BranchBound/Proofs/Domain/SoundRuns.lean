import BranchBound.Proofs.Domain.PoolContents
import BranchBound.Proofs.Domain.Survival

/-!
# Every run is sound

The pools hold cuts and conflicts over the columns of the model, as long as only such are inserted.
One advance of propagation keeps a state sound and a point allowed, so every reachable state is
sound whatever was changed, propagated and undone before.
-/

namespace BranchBound

open Checked Exact

variable {x : Point} {f : ℚ} {a : Domain.Anchor}

namespace PropagationState

/-- The attached pools exist. -/
structure Attached (s : PropagationState Exact) : Prop where
  cuts : ∀ (i : Nat) p, s.domain.cutPropagations[i]? = some p → p.pool < s.pools.cuts.size
  conflicts : ∀ (i : Nat) p, s.domain.conflictPropagations[i]? = some p →
    p.pool < s.pools.conflicts.size

/-- The pools hold cuts over the columns of the model, and conflicts over them whose literals can be
negated. -/
structure WellPooled (s : PropagationState Exact) : Prop where
  cuts : ∀ (i : PoolId) pool id cut, s.pools.cuts[i]? = some pool → pool.get? id = some cut →
    ∀ e ∈ cut.entries, e.1 < s.domain.model.columns.size
  conflicts : ∀ (i : PoolId) pool id literals, s.pools.conflicts[i]? = some pool →
    pool.get? id = some literals → NegatableLiterals s.domain.model.columns.size literals

/-- A sound domain that has read a part of the events of the attached pools. -/
structure Sound (a : Domain.Anchor) (f : ℚ) (s : PropagationState Exact) : Prop where
  domain : s.domain.Sound a f
  settled : s.Settled (.exact .any)
  attached : s.Attached
  wellPooled : s.WellPooled

/-- The points which satisfy everything that a domain knows, and what the attached pools hold. -/
structure Allows (s : PropagationState Exact) (x : Point) : Prop where
  domain : s.domain.Allows x
  cuts : ∀ (i : Nat) p pool id cut, s.domain.cutPropagations[i]? = some p →
    s.pools.cuts[p.pool]? = some pool → pool.get? id = some cut → cut.HoldsAt x
  conflicts : ∀ (i : Nat) p pool id literals, s.domain.conflictPropagations[i]? = some p →
    s.pools.conflicts[p.pool]? = some pool → pool.get? id = some literals →
    ConflictHoldsAt literals x

theorem allows_iff {s : PropagationState Exact} {x : Point} :
    s.Allows x ↔ s.domain.Allows x ∧
      (∀ p ∈ s.domain.cutPropagations, ∀ pool ∈ s.pools.cuts[p.pool]?,
        ∀ entry ∈ pool.cuts.entries, ∀ pooled ∈ entry, pooled.cut.HoldsAt x) ∧
      ∀ p ∈ s.domain.conflictPropagations, ∀ pool ∈ s.pools.conflicts[p.pool]?,
        ∀ entry ∈ pool.conflicts.entries, ∀ pooled ∈ entry, ConflictHoldsAt pooled.literals x := by
  simp only [← forall_getElem?_iff]
  constructor
  · rintro ⟨hdomain, hcuts, hconflicts⟩
    refine ⟨hdomain, fun i p hp pool hpool id entry hentry pooled hpooled => ?_,
      fun i p hp pool hpool id entry hentry pooled hpooled => ?_⟩
    · refine hcuts i p pool id pooled.cut hp hpool (Option.map_eq_some_iff.mpr ⟨pooled, ?_, rfl⟩)
      exact Option.join_eq_some_iff.mpr (hentry.trans (congrArg some hpooled))
    · refine hconflicts i p pool id pooled.literals hp hpool
        (Option.map_eq_some_iff.mpr ⟨pooled, ?_, rfl⟩)
      exact Option.join_eq_some_iff.mpr (hentry.trans (congrArg some hpooled))
  · rintro ⟨hdomain, hcuts, hconflicts⟩
    refine ⟨hdomain, fun i p pool id cut hp hpool hget => ?_,
      fun i p pool id literals hp hpool hget => ?_⟩
    · obtain ⟨pooled, hpooled, rfl⟩ := Option.map_eq_some_iff.mp hget
      exact hcuts i p hp pool hpool id _ (Option.join_eq_some_iff.mp hpooled) pooled rfl
    · obtain ⟨pooled, hpooled, rfl⟩ := Option.map_eq_some_iff.mp hget
      exact hconflicts i p hp pool hpool id _ (Option.join_eq_some_iff.mp hpooled) pooled rfl

instance {s : PropagationState Exact} {x : Point} : Decidable (s.Allows x) :=
  decidable_of_iff _ allows_iff.symm

end PropagationState

namespace Domain

variable {d d' : Domain Exact}

theorem contains_of_trail_eq {columnCount : Nat} (h : d'.trail = d.trail)
    (hx : d.values.Contains columnCount x) : d'.values.Contains columnCount x := by
  rw [← trail_values, h, trail_values]
  exact hx

theorem Requeued.still (h : Requeued d d') : Still d d' :=
  ⟨h.trail, h.setting.model, h.setting.feastol, .inl h.infeasible⟩

theorem Requeued.sameConstraints (h : Requeued d d') : SameConstraints d d' where
  setting := h.setting
  cuts := by
    funext index id
    refine getElem?_bind_eq h.cuts.length_eq.symm (fun i p' hp' => ?_) index
    obtain ⟨p, hp, hagrees⟩ := forall₂_getElem? h.cuts hp'
    exact ⟨p, hp, congrArg (Option.map Prod.fst) (congrFun hagrees.known id)⟩
  conflicts := by
    funext index id
    refine getElem?_bind_eq h.conflicts.length_eq.symm (fun i p' hp' => ?_) index
    obtain ⟨p, hp, hagrees⟩ := forall₂_getElem? h.conflicts hp'
    exact ⟨p, hp, congrFun hagrees.known id⟩
  demand := by
    rcases h.objective with hsame | ⟨o, ho, hread⟩
    · rw [Domain.demand, Domain.demand, hsame]
    · rw [Domain.demand, Domain.demand, ho, hread]
      rfl

theorem WellMade.requeued {pinned : ColumnId → Prop} (h : d.WellMade pinned)
    (hrequeued : Requeued d d') : d'.WellMade pinned := by
  refine hrequeued.sameConstraints.wellMade h fun o' ho' => ?_
  have hvalues : d'.values = d.values := by rw [← trail_values, hrequeued.trail, trail_values]
  rw [hvalues]
  rcases hrequeued.objective with hsame | ⟨o, ho, hread⟩
  · exact h.placed o' (hsame ▸ ho')
  · obtain rfl := Option.some.inj (hread.symm.trans ho')
    have hplaced := h.placed o ho
    exact ⟨hplaced.costs, hplaced.columns, hplaced.partitions⟩

/-- A table to which an entry is appended in which nothing is found holds what it held. -/
theorem push_bind_eq {β γ : Type} {xs : Array β} {y : β} {g : β → Option γ} (hy : g y = none)
    (i : Nat) : (xs.push y)[i]?.bind g = xs[i]?.bind g := by
  rw [Array.getElem?_push]
  split
  · next hend => rw [Option.bind_some, hy, hend, Array.getElem?_size, Option.bind_none]
  · rfl

/-- A domain knows nothing of a pool when it is attached. -/
theorem cut?_attachCuts (d : Domain Exact) (pool : PoolId) :
    (d.attachCuts pool).2.cut? = d.cut? := by
  funext index id
  exact push_bind_eq (by simp [CutPropagation.known, CutPropagation.ofPool, Slots.get?_empty]) index

theorem conflict?_attachConflicts (d : Domain Exact) (pool : PoolId) :
    (d.attachConflicts pool).2.conflict? = d.conflict? := by
  funext index id
  exact push_bind_eq (by simp [ConflictPropagation.known, ConflictPropagation.ofPool,
    Slots.get?_empty]) index

/-- A domain that keeps its box keeps the constraints and stays infeasible only if it was before. -/
theorem Sound.keep (h : d.Sound a f) (hstill : Still d d') (hsettled : d'.Settled (.exact .any))
    (hmade : d'.WellMade a.pinned) (hsame : SameConstraints d d')
    (hinfeasible : d'.infeasible = d.infeasible) :
    d'.Sound a f :=
  h.still hstill hsettled hmade fun hfound _ hx => ⟨hinfeasible ▸ hfound,
    hsame.symm.admits hx (contains_of_trail_eq hstill.trail.symm hx.box)⟩

/-- What is known of the cuts of an attached pool is what was known before and what the pool
holds. -/
theorem cut?_readCuts {index : Nat} {p p' : CutPropagation Exact} {pool : CutPool Exact}
    (hindex : d.cutPropagations[index]? = some p)
    (hread : (CutPropagation.synchronise pool d.lower d.upper).perform p = (.ok (), p'))
    {i : Nat} {id : CutId} {cut : Inequality Exact}
    (hcut : Domain.cut? { d with
      cutPropagations := d.cutPropagations.setIfInBounds index p' } i id = some cut) :
    d.cut? i id = some cut ∨ pool.get? id = some cut := by
  obtain ⟨q, hq, hknown⟩ := Option.bind_eq_some_iff.mp hcut
  rcases of_getElem?_setIfInBounds hq with ⟨rfl, rfl⟩ | ⟨-, hq⟩
  · rcases (CutPropagation.synchronise_reads hread).cuts id cut hknown with hbefore | hpooled
    · exact .inl (by rw [cut?, hindex]; exact hbefore)
    · exact .inr hpooled
  · refine .inl ?_
    rw [cut?, hq]
    exact hknown

theorem conflict?_readConflicts {index : Nat} {p p' : ConflictPropagation Exact}
    {pool : ConflictPool Exact} (hindex : d.conflictPropagations[index]? = some p)
    (hread : (ConflictPropagation.synchronise pool).perform p = (.ok (), p'))
    {i : Nat} {id : ConflictId} {literals : List (BoundChange Exact)}
    (hconflict : Domain.conflict? { d with
      conflictPropagations := d.conflictPropagations.setIfInBounds index p' } i id =
        some literals) :
    d.conflict? i id = some literals ∨ pool.get? id = some literals := by
  obtain ⟨q, hq, hknown⟩ := Option.bind_eq_some_iff.mp hconflict
  rcases of_getElem?_setIfInBounds hq with ⟨rfl, rfl⟩ | ⟨-, hq⟩
  · rcases (ConflictPropagation.synchronise_reads hread).known id literals hknown with
      hbefore | hpooled
    · exact .inl (by rw [conflict?, hindex]; exact hbefore)
    · exact .inr hpooled
  · refine .inl ?_
    rw [conflict?, hq]
    exact hknown

end Domain

section Advances

variable {s s' : PropagationState Exact}

/-- Propagation attaches no pools. -/
theorem Advance.attachments (hsettled : s.Settled (.exact .any)) (hadvance : Advance s s') :
    (∀ (i : Nat) p', s'.domain.cutPropagations[i]? = some p' →
      ∃ p, s.domain.cutPropagations[i]? = some p ∧ p'.pool = p.pool) ∧
    ∀ (i : Nat) p', s'.domain.conflictPropagations[i]? = some p' →
      ∃ p, s.domain.conflictPropagations[i]? = some p ∧ p'.pool = p.pool := by
  cases hadvance with
  | requeue hrequeued =>
      refine ⟨fun i p' hp' => ?_, fun i p' hp' => ?_⟩
      · obtain ⟨p, hp, hagrees⟩ := Domain.forall₂_getElem? hrequeued.cuts hp'
        exact ⟨p, hp, hagrees.pool⟩
      · obtain ⟨p, hp, hagrees⟩ := Domain.forall₂_getElem? hrequeued.conflicts hp'
        exact ⟨p, hp, hagrees.pool⟩
  | refresh hrefresh =>
      rw [Domain.refreshActivity_eq_ok hrefresh]
      exact ⟨fun i p hp => ⟨p, hp, rfl⟩, fun i p hp => ⟨p, hp, rfl⟩⟩
  | @readCuts pools d index p p' pool hindex hpool hread _ =>
      refine ⟨fun i q hq => ?_, fun i p hp => ⟨p, hp, rfl⟩⟩
      rcases of_getElem?_setIfInBounds hq with ⟨rfl, rfl⟩ | ⟨-, hq⟩
      · exact ⟨p, hindex, (CutPropagation.synchronise_reads hread).pool_eq⟩
      · exact ⟨q, hq, rfl⟩
  | @readConflicts pools d index p p' pool hindex hpool hread =>
      refine ⟨fun i p hp => ⟨p, hp, rfl⟩, fun i q hq => ?_⟩
      rcases of_getElem?_setIfInBounds hq with ⟨rfl, rfl⟩ | ⟨-, hq⟩
      · exact ⟨p, hindex, (ConflictPropagation.synchronise_reads hread).pool_eq⟩
      · exact ⟨q, hq, rfl⟩
  | change changes hderived hchanges =>
      obtain ⟨-, hcarried⟩ := hsettled.domain.changeBounds (fun y hy =>
        Exact.derives_any _ _ _ _ hsettled.domain hsettled.literals rfl (hderived y hy)) hchanges
      refine ⟨fun i p' hp' => ?_, fun i p' hp' => ?_⟩
      · obtain ⟨p, hp, hsame⟩ := hcarried.cuts i p' hp'
        exact ⟨p, hp, hsame.pool⟩
      · obtain ⟨p, hp, hagrees⟩ := Domain.forall₂_getElem? hcarried.conflicts hp'
        exact ⟨p, hp, hagrees.pool⟩
  | refute _ =>
      rw [Domain.markInfeasible_eq]
      exact ⟨fun i p hp => ⟨p, hp, rfl⟩, fun i p hp => ⟨p, hp, rfl⟩⟩
  | renew _ => exact ⟨fun i p hp => ⟨p, hp, rfl⟩, fun i p hp => ⟨p, hp, rfl⟩⟩

theorem Advance.sizes (hsettled : s.Settled (.exact .any)) (hadvance : Advance s s') :
    s'.domain.cutPropagations.size = s.domain.cutPropagations.size ∧
      s'.domain.conflictPropagations.size = s.domain.conflictPropagations.size := by
  cases hadvance with
  | requeue hrequeued => exact ⟨hrequeued.cuts.length_eq.symm, hrequeued.conflicts.length_eq.symm⟩
  | refresh hrefresh =>
      rw [Domain.refreshActivity_eq_ok hrefresh]
      exact ⟨rfl, rfl⟩
  | readCuts _ _ _ => exact ⟨Array.size_setIfInBounds .., rfl⟩
  | readConflicts _ _ _ => exact ⟨rfl, Array.size_setIfInBounds ..⟩
  | change changes hderived hchanges =>
      obtain ⟨-, hcarried⟩ := hsettled.domain.changeBounds (fun y hy =>
        Exact.derives_any _ _ _ _ hsettled.domain hsettled.literals rfl (hderived y hy)) hchanges
      exact ⟨hcarried.cuts_size, hcarried.conflicts.length_eq.symm⟩
  | refute _ =>
      rw [Domain.markInfeasible_eq]
      exact ⟨rfl, rfl⟩
  | renew _ => exact ⟨rfl, rfl⟩

theorem Advance.attached (hsettled : s.Settled (.exact .any)) (hadvance : Advance s s')
    (h : s.Attached) : s'.Attached := by
  obtain ⟨hattachedCuts, hattachedConflicts⟩ := hadvance.attachments hsettled
  obtain ⟨hcuts, hsize, -⟩ := hadvance.contents
  refine ⟨fun i p' hp' => ?_, fun i p' hp' => ?_⟩
  · obtain ⟨p, hp, hpool⟩ := hattachedCuts i p' hp'
    rw [hcuts, hpool]
    exact h.cuts i p hp
  · obtain ⟨p, hp, hpool⟩ := hattachedConflicts i p' hp'
    rw [hsize, hpool]
    exact h.conflicts i p hp

theorem Advance.wellPooled (hadvance : Advance s s') (h : s.WellPooled) : s'.WellPooled := by
  have hsame := hadvance.contents
  have hmodel := hadvance.setting.model
  refine ⟨hmodel ▸ hsame.cuts ▸ h.cuts, hmodel ▸ ?_⟩
  exact PropagationState.PooledConflicts.sameContents h.conflicts hsame

/-- What propagation reads and changes is sound. -/
theorem Advance.sound_domain (h : s.Sound a f) (hadvance : Advance s s') : s'.domain.Sound a f := by
  have hsettled := hadvance.settled (Exact.derives_any _) h.settled
  have hd := h.domain
  have hmade := hd.wellMade
  cases hadvance with
  | requeue hrequeued =>
      exact hd.keep hrequeued.still hsettled.domain (hmade.requeued hrequeued)
        hrequeued.sameConstraints hrequeued.infeasible
  | @refresh pools d d' r hrefresh =>
      rw [Domain.refreshActivity_eq_ok hrefresh] at hsettled ⊢
      exact hd.keep ⟨rfl, rfl, rfl, .inl rfl⟩ hsettled.domain
        ⟨hmade.placed, hmade.cliques, hmade.variableBounds, hmade.conflicts⟩
        ⟨⟨rfl, rfl, rfl, rfl⟩, rfl, rfl, rfl⟩ rfl
  | @readCuts pools d index p p' pool hindex hpool hread hfeasible =>
      exact hd.still ⟨rfl, rfl, rfl, .inl rfl⟩ hsettled.domain
        ⟨hmade.placed, hmade.cliques, hmade.variableBounds, hmade.conflicts⟩
        fun hfound => absurd hfeasible hfound
  | @readConflicts pools d index p p' pool hindex hpool hread hfeasible =>
      refine hd.still ⟨rfl, rfl, rfl, .inl rfl⟩ hsettled.domain
        ⟨hmade.placed, hmade.cliques, hmade.variableBounds, fun i id literals hknown => ?_⟩
        fun hfound => absurd hfeasible hfound
      rcases Domain.conflict?_readConflicts hindex hread hknown with hknown | hpooled
      · exact hmade.conflicts i id literals hknown
      · exact h.wellPooled.conflicts p.pool pool id literals hpool hpooled
  | @change pools d d' changes hderived hchanges =>
      refine Domain.changeBounds_keeps (P := fun e : Domain Exact => e.Sound a f)
        (fun e e' y hy he hchange => ?_) hchanges hd
      exact he.changeBound (Exact.derives_any _ _ _ _ h.settled.domain h.settled.literals rfl
        (hderived y hy)) hchange
  | @refute pools d reason hrefuted =>
      have hstill := Domain.markInfeasible_still d reason
      refine hd.still hstill hsettled.domain ?_ fun _ x hx =>
        absurd hrefuted (hd.not_refuted (x := x) ?_)
      · rw [Domain.markInfeasible_eq]
        exact ⟨hmade.placed, hmade.cliques, hmade.variableBounds, hmade.conflicts⟩
      · rw [Domain.markInfeasible_eq] at hx
        exact ⟨hx.box, hx.rows, hx.cuts, hx.conflicts, hx.objective⟩
  | renew _ => exact hd

/-- One advance of propagation keeps a state sound. -/
theorem Advance.sound (h : s.Sound a f) (hadvance : Advance s s') : s'.Sound a f :=
  ⟨hadvance.sound_domain h, hadvance.settled (Exact.derives_any _) h.settled,
    hadvance.attached h.settled h.attached, hadvance.wellPooled h.wellPooled⟩

/-- What propagation reads and changes allows the points that are allowed. -/
theorem Advance.allows_domain (h : s.Sound a f) (hadvance : Advance s s') (hx : s.Allows x) :
    s'.domain.Allows x := by
  have hd := h.domain
  have hallowed := hx.domain
  cases hadvance with
  | requeue hrequeued =>
      exact hrequeued.sameConstraints.allows hallowed
        (Domain.contains_of_trail_eq hrequeued.trail hallowed.box)
  | @refresh pools d d' r hrefresh =>
      rw [Domain.refreshActivity_eq_ok hrefresh]
      exact ⟨⟨hallowed.box, hallowed.rows, hallowed.cuts, hallowed.conflicts, hallowed.objective⟩,
        hallowed.cliques, hallowed.variableBounds⟩
  | @readCuts pools d index p p' pool hindex hpool hread _ =>
      refine ⟨⟨hallowed.box, hallowed.rows, fun i id cut hcut => ?_, hallowed.conflicts,
        hallowed.objective⟩, hallowed.cliques, hallowed.variableBounds⟩
      rcases Domain.cut?_readCuts hindex hread hcut with hknown | hpooled
      · exact hallowed.cuts i id cut hknown
      · exact hx.cuts index p pool id cut hindex hpool hpooled
  | @readConflicts pools d index p p' pool hindex hpool hread _ =>
      refine ⟨⟨hallowed.box, hallowed.rows, hallowed.cuts, fun i id literals hconflict => ?_,
        hallowed.objective⟩, hallowed.cliques, hallowed.variableBounds⟩
      rcases Domain.conflict?_readConflicts hindex hread hconflict with hknown | hpooled
      · exact hallowed.conflicts i id literals hknown
      · exact hx.conflicts index p pool id literals hindex hpool hpooled
  | @change pools d d' changes hderived hchanges =>
      refine (Domain.changeBounds_keeps (P := fun e : Domain Exact => e.Sound a f ∧ e.Allows x)
        (fun e e' y hy he hchange => ?_) hchanges ⟨hd, hallowed⟩).2
      have hnan : y.1.value ≠ nan :=
        Exact.derives_any _ _ _ _ h.settled.domain h.settled.literals rfl (hderived y hy)
      exact ⟨he.1.changeBound hnan hchange,
        he.1.allows_changeBound he.2 (hd.holds hallowed (hderived y hy)) hchange⟩
  | @refute pools d reason hrefuted =>
      exact absurd hrefuted (hd.not_refuted hallowed.toAdmits)
  | renew _ => exact hallowed

/-- One advance of propagation keeps a point allowed. -/
theorem Advance.allows (h : s.Sound a f) (hadvance : Advance s s') (hx : s.Allows x) :
    s'.Allows x := by
  obtain ⟨hattachedCuts, hattachedConflicts⟩ := hadvance.attachments h.settled
  obtain ⟨hcuts, -, hconflicts⟩ := hadvance.contents
  refine ⟨hadvance.allows_domain h hx, fun i p' pool id cut hp' hpool hcut => ?_,
    fun i p' pool' id literals hp' hpool' hget => ?_⟩
  · obtain ⟨p, hp, hsame⟩ := hattachedCuts i p' hp'
    rw [hcuts, hsame] at hpool
    exact hx.cuts i p pool id cut hp hpool hcut
  · obtain ⟨p, hp, hsame⟩ := hattachedConflicts i p' hp'
    obtain ⟨pool, hpool, hrecord⟩ := hconflicts _ pool' hpool'
    have hentry : pool'.get? id = pool.get? id := congrArg (fun r => r.entry? id) hrecord
    exact hx.conflicts i p pool id literals hp (hsame ▸ hpool) (hentry ▸ hget)

theorem Advances.sound (h : s.Sound a f) (hadvances : Advances s s') : s'.Sound a f := by
  induction hadvances with
  | refl => exact h
  | tail _ hadvance ih => exact hadvance.sound ih

theorem Advances.allows (h : s.Sound a f) (hadvances : Advances s s') (hx : s.Allows x) :
    s'.Allows x := by
  induction hadvances with
  | refl => exact hx
  | tail hbefore hadvance ih => exact hadvance.allows (Advances.sound h hbefore) ih

theorem Advances.sizes (h : s.Sound a f) (hadvances : Advances s s') :
    s'.domain.cutPropagations.size = s.domain.cutPropagations.size ∧
      s'.domain.conflictPropagations.size = s.domain.conflictPropagations.size := by
  induction hadvances with
  | refl => exact ⟨rfl, rfl⟩
  | tail hbefore hadvance ih =>
      obtain ⟨hcuts, hconflicts⟩ := hadvance.sizes (Advances.sound h hbefore).settled
      exact ⟨hcuts.trans ih.1, hconflicts.trans ih.2⟩

end Advances

/-- The operations of a run. Numbers and tables are given that fit the model, pools are attached
that exist, and the objective is set up once, while no column of its partitions is fixed to one,
unless the model forces it to be. -/
def Operation.Proper (s : PropagationState Exact) : Operation Exact → Prop
  | markInfeasible _ => False
  | attachCuts pool => pool < s.pools.cuts.size
  | attachConflicts pool => pool < s.pools.conflicts.size
  | setCliques t => t.Made s.domain.model.columns.size s.domain.model.Binary
  | setVariableBounds t => t.Made s.domain.model.columns.size
  | setupObjective partitions => s.domain.objective = none ∧
      ∀ d o, s.domain.setupObjective partitions = .ok d → d.objective = some o →
        ∀ (c : ColumnId) i, o.partitionOf[c]? = some (some i) → 1 ≤ s.domain.values .lower c →
          s.domain.model.Forced c
  | refreshActivities => s.domain.objective = none
  | insertCut pool cut ageLimit => (insertCut pool cut ageLimit).Brings (.exact .any) ∧
      ∀ e ∈ cut.entries, e.1 < s.domain.model.columns.size
  | addConflict _ literals => WholeLiterals s.domain.model.columns.size literals
  | op => op.Brings (.exact .any)

/-- Proper operations, but the columns of the partitions that are fixed to one when the objective is
set up are among given ones. -/
def Operation.ProperFor (pinned : ColumnId → Prop) (s : PropagationState Exact) :
    Operation Exact → Prop
  | setupObjective partitions => s.domain.objective = none ∧
      ∀ d o, s.domain.setupObjective partitions = .ok d → d.objective = some o →
        ∀ (c : ColumnId) i, o.partitionOf[c]? = some (some i) → 1 ≤ s.domain.values .lower c →
        pinned c
  | op => op.Proper s

theorem Operation.Proper.properFor {s : PropagationState Exact} {op : Operation Exact}
    (h : op.Proper s) {pinned : ColumnId → Prop} (hforced : ∀ c, s.domain.model.Forced c →
      pinned c) :
    op.ProperFor pinned s := by
  cases op with
  | setupObjective partitions =>
      exact ⟨h.1, fun d o hd ho c i hi hone => hforced c (h.2 d o hd ho c i hi hone)⟩
  | _ => exact h

/-- Proper operations, but the values of the literals of a conflict need not be whole. It is enough
that each is at most one half looser than a whole value. -/
def Operation.Suitable (pinned : ColumnId → Prop) (s : PropagationState Exact) :
    Operation Exact → Prop
  | addConflict _ literals => NegatableLiterals s.domain.model.columns.size literals
  | op => op.ProperFor pinned s

theorem Operation.ProperFor.suitable {s : PropagationState Exact} {op : Operation Exact}
    {pinned : ColumnId → Prop} (h : op.ProperFor pinned s) : op.Suitable pinned s := by
  cases op with
  | addConflict _ _ => exact WholeLiterals.negatable h
  | _ => exact h

theorem Operation.Proper.suitable {s : PropagationState Exact} {op : Operation Exact}
    (h : op.Proper s) {pinned : ColumnId → Prop} (hforced : ∀ c, s.domain.model.Forced c →
      pinned c) :
    op.Suitable pinned s :=
  (h.properFor hforced).suitable

theorem Operation.Suitable.brings {s : PropagationState Exact} {op : Operation Exact}
    {pinned : ColumnId → Prop} (h : op.Suitable pinned s) : op.Brings (.exact .any) := by
  cases op with
  | changeBound _ _ | fixColumn _ _ _ | setStack _ _ => exact h
  | insertCut _ _ _ => exact h.1
  | addConflict _ _ =>
      intro l hl
      obtain ⟨-, k, hk⟩ := h l hl
      exact hk.not_nan
  | _ => trivial

theorem Operation.ProperFor.brings {s : PropagationState Exact} {op : Operation Exact}
    {pinned : ColumnId → Prop} (h : op.ProperFor pinned s) : op.Brings (.exact .any) :=
  h.suitable.brings

theorem Operation.Proper.brings {s : PropagationState Exact} {op : Operation Exact}
    (h : op.Proper s) : op.Brings (.exact .any) :=
  (h.properFor fun _ hforced => hforced).brings

namespace Domain

variable {d d' : Domain Exact}

/-- An objective that was not set up is not computed anew. -/
theorem refreshActivities_objective (hnone : d.objective = none)
    (h : d.refreshActivities = .ok d') : d'.objective = none := by
  simp only [refreshActivities, bind_eq_ok] at h
  obtain ⟨rows, hloop, h⟩ := h
  have hrows : rows.objective = none := by
    refine foldlM_keeps (P := fun e : Domain Exact => e.objective = none)
      (fun e r e' _ he hstep => ?_) hloop hnone
    rw [bind_eq_ok] at hstep
    obtain ⟨fresh, hfresh, hmark⟩ := hstep
    rw [markRowDirty_eq_ok hmark, refreshActivity_eq_ok hfresh]
    exact he
  rw [hrows] at h
  rw [← pure_eq_ok.mp h, hrows]

/-- The objective that is set up puts the columns of its partitions where they belong. -/
theorem setupObjective_placed (hsettled : d.Settled (.exact .any))
    {partitions : List (List ColumnId)}
    {pinned : ColumnId → Prop}
    (hpinned : ∀ d' o, d.setupObjective partitions = .ok d' → d'.objective = some o →
      ∀ (c : ColumnId) i, o.partitionOf[c]? = some (some i) → 1 ≤ d.values .lower c → pinned c)
    (hsetup : d.setupObjective partitions = .ok d') :
    ∀ o, d'.objective = some o → o.Placed pinned d.model d.values := by
  intro o ho
  have hpinned := hpinned d' o hsetup ho
  have hcosts := hsettled.coherent.costs
  simp only [Domain.setupObjective, bind_eq_ok, pure_eq_ok] at hsetup
  obtain ⟨⟨count, table⟩, hnumber, objective, hrecompute, rfl⟩ := hsetup
  obtain rfl : objective = o := Option.some.inj ho
  obtain ⟨-, htable⟩ := numberPartitions_eq_ok hnumber fun c i hi => by
    rw [Array.getElem?_replicate] at hi
    split at hi <;> simp at hi
  have hpartitionOf : objective.partitionOf = table :=
    (ObjectivePropagation.recompute_same hrecompute).partitionOf
  rw [hpartitionOf] at hpinned
  refine ObjectivePropagation.recompute_placed rfl (fun c i hi => ?_) (fun _ _ => values_lower)
    (fun _ _ => values_upper) hsettled.admissible hpinned hrecompute
  obtain ⟨hbinary, column, hcolumn, hnegative⟩ := (htable c i hi).2
  obtain ⟨q, hq⟩ : ∃ q, column.cost = number q := hcosts c column hcolumn
  refine ⟨hbinary, q, ?_, ?_⟩
  · rw [hq] at hnegative
    simpa using hnegative
  · rw [Array.getElem?_map, hcolumn, Option.map_some, hq]

end Domain

section Operations

variable {s s' : PropagationState Exact} {op : Operation Exact} {pinned : ColumnId → Prop}

/-- An operation that does not move bounds leaves the box alone, and takes no constraint away that
can have been found violated. -/
theorem Operation.keeps_domain (h : s.Sound a f) (hop : op.Suitable a.pinned s)
    (hmoves : op.movesBounds = false) (hperform : op.perform s = .ok s') :
    s'.domain.WellMade a.pinned ∧
      s'.domain.infeasible = s.domain.infeasible ∧ ∀ x, s'.domain.Admits x → s.domain.Admits x := by
  have hmade := h.domain.wellMade
  have hkeep : ∀ x, s.domain.Admits x → s.domain.Admits x := fun _ hx => hx
  cases op with
  | newCutPool _ | newConflictPool _ _ =>
      cases hperform
      exact ⟨hmade, rfl, hkeep⟩
  | insertCut _ _ _ | removeCut _ _ | ageCuts _ _ =>
      obtain ⟨p, -, rfl⟩ := PropagationState.onCutPool_eq_ok hperform
      exact ⟨hmade, rfl, hkeep⟩
  | addConflict _ _ | removeConflict _ _ | resetAge _ _ | ageConflicts _ =>
      obtain ⟨p, -, rfl⟩ := PropagationState.onConflictPool_eq_ok hperform
      exact ⟨hmade, rfl, hkeep⟩
  | markInfeasible reason => exact hop.elim
  | attachCuts pool =>
      rw [perform, PropagationState.onDomain_eq_ok] at hperform
      obtain ⟨d', hd', rfl⟩ := hperform
      cases hd'
      have hsame := s.domain.cut?_attachCuts pool
      exact ⟨⟨hmade.placed, hmade.cliques, hmade.variableBounds, hmade.conflicts⟩, rfl,
        fun x hx => ⟨hx.box, hx.rows, hsame ▸ hx.cuts, hx.conflicts, hx.objective⟩⟩
  | attachConflicts pool =>
      rw [perform, PropagationState.onDomain_eq_ok] at hperform
      obtain ⟨d', hd', rfl⟩ := hperform
      cases hd'
      have hsame := s.domain.conflict?_attachConflicts pool
      exact ⟨⟨hmade.placed, hmade.cliques, hmade.variableBounds, hsame ▸ hmade.conflicts⟩, rfl,
        fun x hx => ⟨hx.box, hx.rows, hx.cuts, hsame ▸ hx.conflicts, hx.objective⟩⟩
  | setCliques t =>
      rw [perform, PropagationState.onDomain_eq_ok] at hperform
      obtain ⟨d', hd', rfl⟩ := hperform
      cases hd'
      refine ⟨⟨hmade.placed, fun t' ht' => ?_, hmade.variableBounds, hmade.conflicts⟩, rfl,
        fun x hx => ⟨hx.box, hx.rows, hx.cuts, hx.conflicts, hx.objective⟩⟩
      obtain rfl := Option.some.inj ht'
      exact hop
  | setVariableBounds t =>
      rw [perform, PropagationState.onDomain_eq_ok] at hperform
      obtain ⟨d', hd', rfl⟩ := hperform
      cases hd'
      refine ⟨⟨hmade.placed, hmade.cliques, fun t' ht' => ?_, hmade.conflicts⟩, rfl,
        fun x hx => ⟨hx.box, hx.rows, hx.cuts, hx.conflicts, hx.objective⟩⟩
      obtain rfl := Option.some.inj ht'
      exact hop
  | setupObjective partitions =>
      rw [perform, PropagationState.onDomain_eq_ok] at hperform
      obtain ⟨d', hd', rfl⟩ := hperform
      have hplaced : ∀ o, d'.objective = some o →
        o.Placed a.pinned s.domain.model s.domain.values :=
        Domain.setupObjective_placed h.domain.settled hop.2 hd'
      rw [Domain.setupObjective_eq_ok hd'] at hplaced ⊢
      refine ⟨⟨hplaced, hmade.cliques, hmade.variableBounds, hmade.conflicts⟩, rfl,
        fun x hx => ⟨hx.box, hx.rows, hx.cuts, hx.conflicts, fun o ho => ?_⟩⟩
      rw [hop.1] at ho
      cases ho
  | setObjectiveCutoff cutoff =>
      rw [perform, PropagationState.onDomain_eq_ok] at hperform
      obtain ⟨d', hd', rfl⟩ := hperform
      cases hd'
      dsimp only
      unfold Domain.setObjectiveCutoff
      split
      · exact ⟨hmade, rfl, hkeep⟩
      · next o ho =>
          dsimp only
          split
          · next hlower =>
              refine ⟨⟨fun o' ho' => ?_, hmade.cliques, hmade.variableBounds, hmade.conflicts⟩, rfl,
                fun x hx => ⟨hx.box, hx.rows, hx.cuts, hx.conflicts, fun o' ho' => ?_⟩⟩
              · obtain rfl := Option.some.inj ho'
                have hplaced := hmade.placed o ho
                exact ⟨hplaced.costs, hplaced.columns, hplaced.partitions⟩
              · obtain rfl : o = o' := Option.some.inj (ho.symm.trans ho')
                have hlowered := hx.objective _ rfl
                exact ⟨hlowered.chooses, Exact.le_trans hlowered.cutoff (Exact.le_of_lt hlower)⟩
          · exact ⟨hmade, rfl, hkeep⟩
  | refreshActivities =>
      rw [perform, PropagationState.onDomain_eq_ok] at hperform
      obtain ⟨d', hd', rfl⟩ := hperform
      have hsame := Domain.refreshActivities_eq_ok hd'
      have hnone : d'.objective = none := Domain.refreshActivities_objective hop hd'
      rw [hnone] at hsame
      rw [hsame]
      refine ⟨⟨fun o ho => (by cases ho), hmade.cliques,
        hmade.variableBounds, hmade.conflicts⟩, rfl,
        fun x hx => ⟨hx.box, hx.rows, hx.cuts, hx.conflicts, fun o ho => ?_⟩⟩
      rw [show s.domain.objective = none from hop] at ho
      cases ho
  | clearMoved =>
      rw [perform, PropagationState.onDomain_eq_ok] at hperform
      obtain ⟨d', hd', rfl⟩ := hperform
      cases hd'
      exact ⟨⟨hmade.placed, hmade.cliques, hmade.variableBounds, hmade.conflicts⟩, rfl,
        fun x hx => ⟨hx.box, hx.rows, hx.cuts, hx.conflicts, hx.objective⟩⟩
  | _ => cases hmoves

/-- Suitable operations keep the pools well formed. -/
theorem Operation.wellPooled (h : s.WellPooled) (hop : op.Suitable pinned s)
    (hmoves : op.movesBounds = false) (hperform : op.perform s = .ok s') : s'.WellPooled := by
  have hmodel : s'.domain.model = s.domain.model := (Operation.still hmoves hperform).model
  refine ⟨hmodel ▸ Operation.pooledCuts h.cuts (fun pool cut ageLimit heq e he => ?_) hmoves
    hperform,
    hmodel ▸ Operation.pooledConflicts h.conflicts (fun pool literals heq l hl => ?_) hmoves
      hperform⟩
  · subst heq
    exact hop.2 e (mem_normalized he)
  · subst heq
    exact hop l (mem_storedForm hl)

/-- Operations attach only existing pools, and no pool is ever given up. -/
theorem Operation.attached (h : s.Attached) (hop : op.Suitable pinned s)
    (hmoves : op.movesBounds = false) (hperform : op.perform s = .ok s') : s'.Attached := by
  have hsame : ∀ d : Domain Exact, d.cutPropagations = s.domain.cutPropagations →
      d.conflictPropagations = s.domain.conflictPropagations →
        ({ s with domain := d } : PropagationState Exact).Attached := fun d hcuts hconflicts =>
    ⟨fun i p hp => h.cuts i p (hcuts ▸ hp), fun i p hp => h.conflicts i p (hconflicts ▸ hp)⟩
  cases op with
  | newCutPool ageLimit =>
      cases hperform
      refine ⟨fun i p hp => ?_, h.conflicts⟩
      rw [Array.size_push]
      exact Nat.lt_succ_of_lt (h.cuts i p hp)
  | newConflictPool ageLimit softLimit =>
      cases hperform
      refine ⟨h.cuts, fun i p hp => ?_⟩
      rw [Array.size_push]
      exact Nat.lt_succ_of_lt (h.conflicts i p hp)
  | insertCut _ _ _ | removeCut _ _ | ageCuts _ _ =>
      obtain ⟨p, -, rfl⟩ := PropagationState.onCutPool_eq_ok hperform
      refine ⟨fun i p hp => ?_, h.conflicts⟩
      rw [Array.size_setIfInBounds]
      exact h.cuts i p hp
  | addConflict _ _ | removeConflict _ _ | resetAge _ _ | ageConflicts _ =>
      obtain ⟨p, -, rfl⟩ := PropagationState.onConflictPool_eq_ok hperform
      refine ⟨h.cuts, fun i p hp => ?_⟩
      rw [Array.size_setIfInBounds]
      exact h.conflicts i p hp
  | attachCuts pool =>
      rw [perform, PropagationState.onDomain_eq_ok] at hperform
      obtain ⟨d', hd', rfl⟩ := hperform
      cases hd'
      refine ⟨fun i p hp => ?_, h.conflicts⟩
      rcases Domain.of_getElem?_push hp with hp | ⟨-, rfl⟩
      · exact h.cuts i p hp
      · exact hop
  | attachConflicts pool =>
      rw [perform, PropagationState.onDomain_eq_ok] at hperform
      obtain ⟨d', hd', rfl⟩ := hperform
      cases hd'
      refine ⟨h.cuts, fun i p hp => ?_⟩
      rcases Domain.of_getElem?_push hp with hp | ⟨-, rfl⟩
      · exact h.conflicts i p hp
      · exact hop
  | markInfeasible reason => exact hop.elim
  | setupObjective partitions =>
      rw [perform, PropagationState.onDomain_eq_ok] at hperform
      obtain ⟨d', hd', rfl⟩ := hperform
      rw [Domain.setupObjective_eq_ok hd']
      exact hsame _ rfl rfl
  | setObjectiveCutoff cutoff =>
      rw [perform, PropagationState.onDomain_eq_ok] at hperform
      obtain ⟨d', hd', rfl⟩ := hperform
      cases hd'
      rw [Domain.setObjectiveCutoff_eq]
      exact hsame _ rfl rfl
  | refreshActivities =>
      rw [perform, PropagationState.onDomain_eq_ok] at hperform
      obtain ⟨d', hd', rfl⟩ := hperform
      rw [Domain.refreshActivities_eq_ok hd']
      exact hsame _ rfl rfl
  | setCliques _ | setVariableBounds _ | clearMoved =>
      rw [perform, PropagationState.onDomain_eq_ok] at hperform
      obtain ⟨d', hd', rfl⟩ := hperform
      cases hd'
      exact hsame _ rfl rfl
  | _ => cases hmoves

/-- A sound domain with what a state knows of the pools in place of the domain of the state. -/
theorem PropagationState.Sound.carried (h : s.Sound a f) {d : Domain Exact} (hd : d.Sound a f)
    (hcarried : Domain.Carried (.exact .any) s.domain d) :
    ({ s with domain := d } : PropagationState Exact).Sound a f := by
  have hmodel := hcarried.setting.model
  refine ⟨hd, h.settled.carried ⟨hd.settled, hcarried⟩, ⟨fun i p' hp' => ?_, fun i p' hp' => ?_⟩,
    ⟨hmodel ▸ h.wellPooled.cuts, hmodel ▸ h.wellPooled.conflicts⟩⟩
  · obtain ⟨p, hp, hsame⟩ := hcarried.cuts i p' hp'
    exact hsame.pool ▸ h.attached.cuts i p hp
  · obtain ⟨p, hp, hagrees⟩ := Domain.forall₂_getElem? hcarried.conflicts hp'
    exact hagrees.pool ▸ h.attached.conflicts i p hp

theorem PropagationState.Sound.changeBound {pools : Pools Exact} {d d' : Domain Exact}
    {change : BoundChange Exact} {reason : Reason} (h : Sound a f ⟨pools, d⟩)
    (hnan : change.value ≠ nan) (hchange : d.changeBound change reason = .ok d') :
    Sound a f ⟨pools, d'⟩ :=
  h.carried (h.domain.changeBound hnan hchange)
    (Domain.changeBound_settled h.settled.domain hnan hchange).2.carried

theorem PropagationState.Sound.fixColumn {pools : Pools Exact} {d d' : Domain Exact} {c : ColumnId}
    {value : Exact} {reason : Reason} (h : Sound a f ⟨pools, d⟩) (hnan : value ≠ nan)
    (hfix : d.fixColumn c value reason = .ok d') : Sound a f ⟨pools, d'⟩ := by
  refine Domain.fixColumn_keeps (P := fun e => Sound a f ⟨pools, e⟩)
    (fun e e' change hchange he hchanged => he.changeBound ?_ hchanged) hfix h
  rcases hchange with rfl | rfl
  · exact hnan
  · exact hnan

/-- A state is sound whatever the ages of the conflicts in the pools are. -/
theorem PropagationState.Sound.withPools (h : s.Sound a f) {pools : Pools Exact}
    (hsame : s.pools.SameContents pools) :
    ({ s with pools := pools } : PropagationState Exact).Sound a f := by
  have hcuts := hsame.cuts
  have hrecorded := h.settled.pools
  refine ⟨h.domain,
    ⟨h.settled.domain, ⟨hcuts ▸ hrecorded.faithful, hcuts ▸ hrecorded.coefficients, ?_⟩,
    ?_, h.settled.literals⟩, ⟨hcuts ▸ h.attached.cuts, hsame.size ▸ h.attached.conflicts⟩,
    ⟨hcuts ▸ h.wellPooled.cuts, ?_⟩⟩
  · exact PooledConflicts.sameContents (s := s) hrecorded.literals hsame
  · unfold Pools.cutEvents
    rw [hcuts]
    exact h.settled.upTo
  · exact PooledConflicts.sameContents (s := s) h.wellPooled.conflicts hsame

/-- Each change of a bound, each backtrack and each advance of propagation keeps a state sound, if
every change may be undone. -/
theorem Operation.Stage.sound (h : s.Sound a f) (hstart : a.position = 0)
    (hbrings : op.Brings (.exact .any)) (hstage : op.Stage s s') : s'.Sound a f := by
  cases hstage with
  | change y hy hchange =>
      have hnan : y.1.value ≠ nan := hbrings.change y hy
      exact h.changeBound hnan hchange
  | back hback =>
      exact h.carried (h.domain.backtrackTo (hstart ▸ Nat.zero_le _) hback)
        ((Domain.backtrackTo_returns h.settled.domain _).of_eq_ok hback).2
  | advance _ hadvance => exact hadvance.sound h

/-- A suitable operation that does not move bounds keeps a state sound. -/
theorem Operation.sound_still (h : s.Sound a f) (hop : op.Suitable a.pinned s)
    (hmoves : op.movesBounds = false) (hperform : op.perform s = .ok s') : s'.Sound a f := by
  obtain ⟨hmade, hinfeasible, hadmits⟩ := Operation.keeps_domain h hop hmoves hperform
  have hsettled := Operation.settled (Exact.derives_any _) h.settled hop.brings hperform
  exact ⟨h.domain.still (Operation.still hmoves hperform) hsettled.domain hmade
    fun hfound x hx => ⟨hinfeasible ▸ hfound, hadmits x hx⟩, hsettled,
      Operation.attached h.attached hop hmoves hperform,
      Operation.wellPooled h.wellPooled hop hmoves hperform⟩

/-- A suitable operation keeps a state sound, if every change may be undone. -/
theorem Operation.sound (h : s.Sound a f) (hstart : a.position = 0) (hop : op.Suitable a.pinned s)
    (hperform : op.perform s = .ok s') : s'.Sound a f := by
  cases hmoves : op.movesBounds with
  | false => exact Operation.sound_still h hop hmoves hperform
  | true =>
      have hall : ∀ t, Relation.ReflTransGen op.Stage s t → t.Sound a f := by
        intro t ht
        induction ht with
        | refl => exact h
        | tail _ hlast ih => exact hlast.sound ih hstart hop.brings
      exact hall s' (Operation.stages hmoves hperform)

end Operations

/-- The domain of a model was told nothing but the model. -/
theorem Domain.ofModel_untold {model : Model Exact} {feastol : Exact} {d : Domain Exact}
    (h : Domain.ofModel model feastol = .ok d) : d.objective = none ∧ d.cliques = none ∧
      d.variableBounds = none ∧ d.model = model ∧ d.feastol = feastol := by
  unfold Domain.ofModel at h
  have hobjective := Domain.refreshActivities_objective rfl h
  rw [Domain.refreshActivities_eq_ok h]
  exact ⟨hobjective, rfl, rfl, rfl, rfl⟩

/-- The domain of a model is sound. -/
theorem Domain.sound_ofModel {draft : Draft Exact} {model : Model Exact} {d : Domain Exact}
    (hmodel : draft.build = .ok model) (hinteger : model.AllInteger) (hf : 0 < f)
    (h : Domain.ofModel model (number f) = .ok d) : d.Sound (.ofModel model) f := by
  have hread := Draft.readable_of_build hmodel
  have hwell := Draft.wellFormed_of_build hmodel
  obtain ⟨hsettled, -⟩ := Domain.ofModel_settled hwell hread h
  obtain ⟨hcuts, hconflicts⟩ := Domain.ofModel_pools h
  obtain ⟨-, -, hnone⟩ := Domain.ofModel_record h
  have htrail := Domain.ofModel_trail h
  obtain ⟨hobjective, hcliques, hbounds, rfl, hfeastol⟩ := Domain.ofModel_untold h
  refine ⟨hf, hinteger, hread, hfeastol, hsettled, ⟨htrail ▸ .start, fun _ => htrail ▸
    Trail.ordered_ofModel fun c column hc => (Draft.checkedColumn_of_build hmodel hc).ordered⟩,
    fun _ hc => hc, fun _ hc => .inl hc, ⟨fun o ho => ?_, fun t ht => ?_, fun t ht => ?_,
      fun i id literals hknown => ?_⟩, fun i hi => ?_, fun hinfeasible => absurd hnone hinfeasible⟩
  · rw [hobjective] at ho
    cases ho
  · rw [hcliques] at ht
    cases ht
  · rw [hbounds] at ht
    cases ht
  · simp [conflict?, hconflicts] at hknown
  · rw [hnone] at hi
    cases hi

/-- Every state that is reached by suitable operations is sound. -/
theorem Reachable.sound_of_suitable {draft : Draft Exact} {model : Model Exact}
    {s : PropagationState Exact} (hmodel : draft.build = .ok model) (hinteger : model.AllInteger)
    (hf : 0 < f)
    (h : Reachable (fun s op => op.Suitable s.domain.model.Forced s) model (number f) s) :
    s.Sound (.ofModel model) f := by
  induction h with
  | @start d hd =>
      have hstart : Reachable (fun _ (op : Operation Exact) => op.Brings (.exact .any)) model
          (number f) ⟨.empty, d⟩ := .start hd
      obtain ⟨hcuts, hconflicts⟩ := Domain.ofModel_pools hd
      refine ⟨Domain.sound_ofModel hmodel hinteger hf hd,
        hstart.settled (Exact.derives_any model) (fun _ _ hop => hop)
          (Draft.wellFormed_of_build hmodel) (Draft.readable_of_build hmodel),
        ⟨fun i p hp => ?_, fun i p hp => ?_⟩,
        ⟨fun i p id cut hp => ?_, fun i p id literals hp => ?_⟩⟩
      · simp [hcuts] at hp
      · simp [hconflicts] at hp
      · simp [Pools.empty] at hp
      · simp [Pools.empty] at hp
  | step hbefore hop hperform ih => exact Operation.sound ih rfl (hbefore.constant.1 ▸ hop) hperform

/-- Every reachable state is sound. -/
theorem Reachable.sound {draft : Draft Exact} {model : Model Exact} {s : PropagationState Exact}
    (hmodel : draft.build = .ok model) (hinteger : model.AllInteger) (hf : 0 < f)
    (h : Reachable (fun s op => op.Proper s) model (number f) s) : s.Sound (.ofModel model) f :=
  (h.mono fun _ _ hop => hop.suitable fun _ hforced => hforced).sound_of_suitable hmodel hinteger hf

end BranchBound
