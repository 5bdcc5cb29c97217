import BranchBound.Proofs.Coverage.Spared

/-!
# Runs that lose no point

Decisions and changes on some depth level do not touch the global part of the log, propagation only
logs what holds at the points of the box, and backtracking takes changes away. So a state that
regards a point goes on doing so, whatever operations are performed that tell nothing wrong about
the point.
-/

namespace BranchBound

open Checked Exact

variable {x : Point} {f : ℚ} {a : Domain.Anchor}

namespace Domain

variable {d d' : Domain Exact} {change : BoundChange Exact} {reason : Reason} {q : Nat}

theorem Deepened.globalLength (h : Deepened d d') (hlevels : d.branchings ≠ #[]) :
    d'.globalLength = d.globalLength := by
  rw [Domain.globalLength, Domain.globalLength, h.branchings]
  cases hfirst : d.branchings[0]? with
  | some first => rfl
  | none => exact absurd (Array.size_eq_zero_iff.mp (by simpa using hfirst)) hlevels

theorem Opened.globalLength (h : Opened d change d') : d'.globalLength = d.globalLength := by
  rw [Domain.globalLength, Domain.globalLength, h.branchings, Array.getElem?_push]
  cases hfirst : d.branchings[0]? with
  | some first =>
      have hne : 0 ≠ d.branchings.size := fun hzero => by
        rw [Array.getElem?_eq_none (Nat.le_of_eq hzero.symm)] at hfirst
        cases hfirst
      rw [if_neg hne]
      rfl
  | none =>
      rw [if_pos (Nat.le_zero.mp (Array.getElem?_eq_none_iff.mp hfirst)).symm]
      rfl

theorem Opened.extends (h : Opened d change d') : d.log.toList <+: d'.log.toList := by
  obtain ⟨entry, -, hlog⟩ := h.log
  rw [hlog, Array.toList_push]
  exact List.prefix_append _ _

/-- Backtracking takes changes off the log. -/
theorem log_backtrackTo {position : Nat} (hback : d.backtrackTo position = .ok d') :
    d'.log.toList <+: d.log.toList := by
  rcases backtrackTo_eq_ok hback with ⟨-, rfl⟩ | ⟨hlt, -⟩
  · exact List.prefix_rfl
  · obtain ⟨htrail, -, -⟩ := backtrackTo_trail hback hlt
    rw [← trail_log d', htrail, Trail.rewindTo_log, trail_log]
    simpa using List.take_prefix _ _

/-- Backtracking does not lengthen the global part of the log. -/
theorem Leveled.globalLength_backtrackTo (h : d.Leveled) {position : Nat}
    (hback : d.backtrackTo position = .ok d') (hlt : position < d.log.size) :
    d'.globalLength ≤ d.globalLength := by
  obtain ⟨htrail, -, -⟩ := backtrackTo_trail hback hlt
  have hlog : d'.log = d.log.take position := by
    rw [← trail_log d', htrail, Trail.rewindTo_log, trail_log]
  have hbranchings : d'.branchings.toList = d.branchings.toList.filter (· < position) := by
    rw [← trail_branchings d', htrail, Trail.rewindTo_branchings, trail_branchings,
      Array.toList_filter]
  have hsize : d'.log.size = position := by
    rw [hlog, Array.take_eq_extract, Array.size_extract]
    omega
  rw [globalLength, globalLength, ← Array.getElem?_toList,
    ← Array.getElem?_toList, hbranchings, hsize]
  cases hlevels : d.branchings.toList with
  | nil => simpa using Nat.le_of_lt hlt
  | cons first rest =>
      by_cases hfirst : first < position
      · simp [hfirst]
      · -- all levels lie behind the first one
        have hnone : (first :: rest).filter (· < position) = [] := by
          refine List.filter_eq_nil_iff.mpr fun p hp => ?_
          have hincreasing := h.increasing
          rw [hlevels, List.pairwise_cons] at hincreasing
          rcases List.mem_cons.mp hp with rfl | hp
          · simpa using hfirst
          · have hlater := hincreasing.1 p hp
            simp only [decide_eq_true_eq]
            omega
        rw [hnone]
        simpa using hfirst

theorem Deepened.globalLength_le (h : Deepened d d') : d.globalLength ≤ d'.globalLength := by
  by_cases hlevels : d.branchings = #[]
  · rw [Domain.globalLength, Domain.globalLength, h.branchings, hlevels]
    simpa using h.log.length_le
  · rw [h.globalLength hlevels]

/-- Undoing later changes does not take away from a part of the log that is global. -/
theorem Leveled.le_globalLength_backtrackTo (h : d.Leveled) {position : Nat}
    (hq : q ≤ d.globalLength)
    (hle : q ≤ position) (hback : d.backtrackTo position = .ok d') : q ≤ d'.globalLength := by
  rcases backtrackTo_eq_ok hback with ⟨-, rfl⟩ | ⟨hlt, -⟩
  · exact hq
  · obtain ⟨htrail, -, -⟩ := backtrackTo_trail hback hlt
    have hbranchings : d'.branchings = d.branchings.filter (· < position) := by
      rw [← trail_branchings d', htrail, Trail.rewindTo_branchings, trail_branchings]
    have hlog : d'.log = d.log.take position := by
      rw [← trail_log d', htrail, Trail.rewindTo_log, trail_log]
    rw [globalLength]
    cases hfirst : d'.branchings[0]? with
    | none =>
        rw [Option.getD_none, hlog, Array.take_eq_extract, Array.size_extract]
        omega
    | some first =>
        have hmem : first ∈ d.branchings.filter (· < position) :=
          hbranchings ▸ Array.mem_of_getElem? hfirst
        exact Nat.le_trans hq (h.globalLength_le_of_mem (Array.mem_filter.mp hmem).1)

/-- A change does not make the global part of the log shorter. -/
theorem globalLength_changeBound (hchange : d.changeBound change reason = .ok d') :
    d.globalLength ≤ d'.globalLength := by
  by_cases hbranching : reason = .branching
  · subst hbranching
    by_cases hfeasible : d.infeasible = none
    · rw [(changeBound_opened hchange hfeasible).globalLength]
    · rcases changeBound_eq_ok hchange with ⟨-, rfl⟩ | ⟨hnone, -⟩
      · exact Nat.le_refl _
      · exact absurd hnone hfeasible
  · exact (changeBound_deepened hchange hbranching).globalLength_le

/-- A change that cannot take a point out of the global box: a decision, a change on some depth
level, or a change that holds at the point. -/
def Harmless (d : Domain Exact) (x : Point) (change : BoundChange Exact) (reason : Reason) : Prop :=
  reason = .branching ∨ d.branchings ≠ #[] ∨ change.HoldsAt x

/-- A change does not close a depth level. -/
theorem branchings_changeBound (hlevels : d.branchings ≠ #[])
    (hchange : d.changeBound change reason = .ok d') : d'.branchings ≠ #[] := by
  by_cases hbranching : reason = .branching
  · subst hbranching
    by_cases hfeasible : d.infeasible = none
    · rw [(changeBound_opened hchange hfeasible).branchings]
      simp
    · rcases changeBound_eq_ok hchange with ⟨-, rfl⟩ | ⟨hnone, -⟩
      · exact hlevels
      · exact absurd hnone hfeasible
  · rw [(changeBound_deepened hchange hbranching).branchings]
    exact hlevels

/-- What is harmless stays so when another bound is changed. -/
theorem Harmless.changeBound {other : BoundChange Exact} {reason' : Reason}
    (h : d.Harmless x change reason) (hchange : d.changeBound other reason' = .ok d') :
    d'.Harmless x change reason := by
  rcases h with hbranching | hlevels | hholds
  · exact .inl hbranching
  · exact .inr (.inl (branchings_changeBound hlevels hchange))
  · exact .inr (.inr hholds)

/-- The global part of the log is all of it as long as no decision was made. -/
theorem globalLength_of_no_levels (h : d.branchings = #[]) : d.globalLength = d.log.size := by
  rw [globalLength, h]
  rfl

end Domain

namespace PropagationState

variable {s s' : PropagationState Exact} {pools : Pools Exact} {d d' : Domain Exact}
  {change : BoundChange Exact} {reason : Reason}

/-- A state with the same pools and the same constraints spares the same points. -/
theorem Spares.carried (h : Spares x ⟨pools, d⟩) (hd : d.Sound a f)
    (hcarried : Domain.Carried (.exact .any) d d') : Spares x ⟨pools, d'⟩ :=
  h.of_same (hcarried.sameConstraints hd.settled hd.wellMade.placed)

/-- Propagation tells a domain what the pools hold, and nothing else. -/
theorem Spares.advance (h : s.Spares x) (hs : s.Sound a f) (hadvance : Advance s s') :
    s'.Spares x := by
  have hsame := hadvance.contents
  have hcuts : s'.PooledCuts fun cut => cut.HoldsAt x :=
    fun i pool id cut hpool => h.cuts i pool id cut (hsame.cuts ▸ hpool)
  have hconflicts := h.conflicts.sameContents hsame
  cases hadvance with
  | requeue hrequeued => exact h.of_same hrequeued.sameConstraints
  | refresh hrefresh =>
      rw [Domain.refreshActivity_eq_ok hrefresh]
      exact h.of_same ⟨⟨rfl, rfl, rfl, rfl⟩, rfl, rfl, rfl⟩
  | @readCuts pools d index p p' pool hindex hpool hread _ =>
      refine ⟨h.rows, fun i id cut hcut => ?_, h.knownConflicts, h.cliques, h.variableBounds,
        h.objective, hcuts, hconflicts⟩
      rcases Domain.cut?_readCuts hindex hread hcut with hknown | hpooled
      · exact h.knownCuts i id cut hknown
      · exact h.cuts p.pool pool id cut hpool hpooled
  | @readConflicts pools d index p p' pool hindex hpool hread _ =>
      refine ⟨h.rows, h.knownCuts, fun i id literals hconflict => ?_, h.cliques, h.variableBounds,
        h.objective, hcuts, hconflicts⟩
      rcases Domain.conflict?_readConflicts hindex hread hconflict with hknown | hpooled
      · exact h.knownConflicts i id literals hknown
      · exact h.conflicts p.pool pool id literals hpool hpooled
  | @change pools d d' changes hderived hchanges =>
      refine (Domain.changeBounds_keeps (P := fun e : Domain Exact => e.Sound a f ∧
        Spares x ⟨pools, e⟩)
        (fun e e' y hy he hchange => ?_) hchanges ⟨hs.domain, h⟩).2
      have hnan : y.1.value ≠ nan :=
        Exact.derives_any _ _ _ _ hs.settled.domain hs.settled.literals rfl (hderived y hy)
      exact ⟨he.1.changeBound hnan hchange,
        he.2.carried he.1 (Domain.changeBound_settled he.1.settled hnan hchange).2.carried⟩
  | refute _ => exact h.of_same (Domain.markInfeasible_sameConstraints _ _)
  | renew _ =>
      exact ⟨h.rows, h.knownCuts, h.knownConflicts, h.cliques, h.variableBounds, h.objective, hcuts,
        hconflicts⟩

namespace Regards

/-- A harmless change leaves the point in the global box. -/
theorem global_changeBound (h : Regards a f x ⟨pools, d⟩) (hharmless : d.Harmless x change reason)
    (hchange : d.changeBound change reason = .ok d') : d'.HeldBefore d'.globalLength x := by
  have hglobal : d.HeldBefore d.globalLength x := h.global
  have hle : d.globalLength ≤ d.log.size := Domain.Leveled.globalLength_le h.leveled
  by_cases hbranching : reason = .branching
  · subst hbranching
    by_cases hfeasible : d.infeasible = none
    · have hopened := Domain.changeBound_opened hchange hfeasible
      rw [hopened.globalLength]
      exact hglobal.extend hle hopened.extends
    · rcases Domain.changeBound_eq_ok hchange with ⟨-, rfl⟩ | ⟨hnone, -⟩
      · exact hglobal
      · exact absurd hnone hfeasible
  · have hdeepened := Domain.changeBound_deepened hchange hbranching
    by_cases hlevels : d.branchings = #[]
    · have hholds := (hharmless.resolve_left hbranching).resolve_left (not_not_intro hlevels)
      rw [Domain.globalLength_of_no_levels hlevels] at hglobal
      have hd : d.Sound a f := h.sound.domain
      have hallows := hd.allows_changeBound (h.allows hglobal).domain hholds hchange
      exact (hd.changeBound hholds.not_nan hchange).held_of_contains hallows.box _
    · rw [hdeepened.globalLength hlevels]
      exact hglobal.extend hle hdeepened.log

/-- A change that holds at a point at which the log holds keeps it so. -/
theorem held_changeBound (h : Regards a f x ⟨pools, d⟩) (hheld : d.HeldBefore d.log.size x)
    (hholds : change.HoldsAt x) (hchange : d.changeBound change reason = .ok d') (p : Nat) :
    d'.HeldBefore p x := by
  have hd : d.Sound a f := h.sound.domain
  have hallows := hd.allows_changeBound (h.allows hheld).domain hholds hchange
  exact (hd.changeBound hholds.not_nan hchange).held_of_contains hallows.box _

theorem changeBound (h : Regards a f x ⟨pools, d⟩)
    (hinforms : (reason = .branching ∨ reason = .unknown) ∧ ∃ k : ℤ, change.value = number k)
    (hharmless : d.Harmless x change reason) (hchange : d.changeBound change reason = .ok d') :
    Regards a f x ⟨pools, d'⟩ := by
  obtain ⟨hreason, hvalue⟩ := hinforms
  have hd : d.Sound a f := h.sound.domain
  have hnan : change.value ≠ nan := by
    obtain ⟨k, hk⟩ := hvalue
    simp [hk]
  have hcarried := (Domain.changeBound_settled hd.settled hnan hchange).2.carried
  have hmodel := hcarried.setting.model
  refine ⟨h.below, hmodel ▸ h.whole, h.sound.carried (hd.changeBound hnan hchange) hcarried,
    Nat.le_trans h.anchored (Domain.globalLength_changeBound hchange), ?_,
    Domain.Turns.leveled h.leveled (.single (.change hchange)),
    hd.logsIntegers_changeBound h.below h.whole h.inModel h.integers hvalue hchange,
    h.spares.carried hd hcarried, hmodel ▸ h.inModel, h.global_changeBound hharmless hchange⟩
  refine h.justified.changeBound hd h.below h.whole hvalue (fun hnot => ?_) hchange
  rw [hreason.resolve_left hnot]
  trivial

/-- Fixing a column is harmless if both changes are. -/
theorem fixColumn (h : Regards a f x ⟨pools, d⟩) {c : ColumnId} {value : Exact}
    (hinforms : (reason = .branching ∨ reason = .unknown) ∧ ∃ k : ℤ, value = number k)
    (hharmless : d.Harmless x (.atLeast c value) reason ∧ d.Harmless x (.atMost c value) reason)
    (hfix : d.fixColumn c value reason = .ok d') : Regards a f x ⟨pools, d'⟩ := by
  refine (Domain.fixColumn_keeps (P := fun e => Regards a f x ⟨pools, e⟩ ∧
    e.Harmless x (.atLeast c value) reason ∧ e.Harmless x (.atMost c value) reason)
    (fun e e' change hchange he hchanged => ?_) hfix ⟨h, hharmless⟩).1
  obtain ⟨hregards, hraise, hlower⟩ := he
  refine ⟨?_, hraise.changeBound hchanged, hlower.changeBound hchanged⟩
  rcases hchange with rfl | rfl
  · exact hregards.changeBound hinforms hraise hchanged
  · exact hregards.changeBound hinforms hlower hchanged

theorem backtrackTo (h : Regards a f x ⟨pools, d⟩) {position : Nat}
    (hanchor : a.position ≤ position)
    (hback : d.backtrackTo position = .ok d') : Regards a f x ⟨pools, d'⟩ := by
  have hd : d.Sound a f := h.sound.domain
  have hlevels : d.Leveled := h.leveled
  have hcarried := ((Domain.backtrackTo_returns hd.settled position).of_eq_ok hback).2
  have hmodel := hcarried.setting.model
  refine ⟨h.below, hmodel ▸ h.whole, h.sound.carried (hd.backtrackTo hanchor hback) hcarried,
    hlevels.le_globalLength_backtrackTo h.anchored hanchor hback,
    h.justified.backtrackTo hd hback, Domain.Turns.leveled h.leveled (.single (.back hback)), ?_,
    h.spares.carried hd hcarried, hmodel ▸ h.inModel, ?_⟩
  · exact Domain.LogsIntegers.of_extends h.integers (Domain.log_backtrackTo hback)
  rcases Domain.backtrackTo_eq_ok hback with ⟨-, rfl⟩ | ⟨hlt, -⟩
  · exact h.global
  · have hglobal : d.HeldBefore d.globalLength x := h.global
    exact (hglobal.mono (hlevels.globalLength_backtrackTo hback hlt)).of_extends
      (Domain.log_backtrackTo hback)

/-- An advance keeps the whole log to a point to which it kept before. -/
theorem held_advance (h : s.Regards a f x) (hadvance : Advance s s')
    (hheld : s.domain.HeldBefore s.domain.log.size x) (p : Nat) : s'.domain.HeldBefore p x :=
  (hadvance.sound h.sound).domain.held_of_contains
    (hadvance.allows h.sound (h.allows hheld)).domain.box p

/-- What propagation derives are whole numbers. -/
theorem integers_advance (h : s.Regards a f x) (hadvance : Advance s s') :
    s'.domain.LogsIntegers := by
  have hd := h.sound.domain
  cases hadvance with
  | @requeue pools d d' hrequeued =>
      have hlog : d'.log = d.log := congrArg Trail.log hrequeued.trail
      exact fun entry hentry => h.integers entry (hlog ▸ hentry)
  | refresh hrefresh =>
      rw [Domain.refreshActivity_eq_ok hrefresh]
      exact h.integers
  | @change pools d d' changes hderived hchanges =>
      refine (Domain.changeBounds_keeps (P := fun e : Domain Exact => e.Sound a f ∧
        e.model = d.model ∧
        e.LogsIntegers) (fun e e' y hy he hchange => ?_) hchanges ⟨hd, rfl, h.integers⟩).2.2
      obtain ⟨he, hmodel, hlog⟩ := he
      have hvalue := (h.sound.supports h.justified.namesAgree (hderived y hy)).1
      have hnan : y.1.value ≠ nan := by
        obtain ⟨k, hk⟩ := hvalue
        simp [hk]
      refine ⟨he.changeBound hnan hchange, (Domain.changeBound_sameSetting hchange).model.trans
        hmodel,
        he.logsIntegers_changeBound (x := x) h.below (hmodel ▸ h.whole) (hmodel ▸ h.inModel) hlog
          hvalue
          hchange⟩
  | refute _ =>
      rw [Domain.markInfeasible_eq]
      exact h.integers
  | readCuts _ _ _ | readConflicts _ _ _ | renew _ => exact h.integers

theorem advance (h : s.Regards a f x) (hadvance : Advance s s') : s'.Regards a f x := by
  have hmodel := hadvance.setting.model
  refine ⟨h.below, hmodel ▸ h.whole, hadvance.sound h.sound,
    Nat.le_trans h.anchored hadvance.deepened.globalLength_le,
    hadvance.justified h.justified h.sound h.below h.whole, Domain.Turns.leveled h.leveled
      hadvance.turns,
    h.integers_advance hadvance, h.spares.advance h.sound hadvance, hmodel ▸ h.inModel, ?_⟩
  by_cases hlevels : s.domain.branchings = #[]
  · exact h.held_advance hadvance (Domain.globalLength_of_no_levels hlevels ▸ h.global) _
  · rw [hadvance.deepened.globalLength hlevels]
    exact h.global.extend h.leveled.globalLength_le hadvance.deepened.log

theorem advances (h : s.Regards a f x) (hadvances : Advances s s') : s'.Regards a f x := by
  induction hadvances with
  | refl => exact h
  | tail _ hadvance ih => exact ih.advance hadvance

theorem held_advances (h : s.Regards a f x) (hadvances : Advances s s')
    (hheld : s.domain.HeldBefore s.domain.log.size x) :
    s'.domain.HeldBefore s'.domain.log.size x := by
  induction hadvances with
  | refl => exact hheld
  | tail hbefore hadvance ih => exact (h.advances hbefore).held_advance hadvance ih _

end Regards

end PropagationState

/-- The operations that say nothing wrong about a point. Bounds may be changed to exclude it on a
depth level only, and what the objective was set up with is not undone. -/
def Operation.Respects (a : Domain.Anchor) (x : Point) (s : PropagationState Exact) :
    Operation Exact → Prop
  | backtrackTo position => a.position ≤ position
  | changeBound change reason => s.domain.Harmless x change reason
  | fixColumn c value reason =>
      s.domain.Harmless x (.atLeast c value) reason ∧ s.domain.Harmless x (.atMost c value) reason
  | setCliques t => t.HoldsAt x
  | setVariableBounds t => t.HoldsAt x
  | setupObjective partitions => ∀ d o, s.domain.setupObjective partitions = .ok d →
      d.objective = some o → o.HoldsAt x
  | setObjectiveCutoff cutoff => ∀ o, s.domain.objective = some o →
      number (dot (o.entries : List (ColumnId × Exact)) x) ≤ cutoff - s.domain.model.offset
  | insertCut _ cut _ => cut.HoldsAt x
  | addConflict _ literals => ConflictHoldsAt literals x
  | _ => True

section Operations

variable {s s' : PropagationState Exact} {op : Operation Exact}

/-- What is told to a domain or a pool without moving a bound holds at a respected point. -/
theorem Operation.spares {pinned : ColumnId → Prop} (h : s.Spares x) (hop : op.ProperFor pinned s)
    (hrespects : op.Respects a x s) (hmoves : op.movesBounds = false)
    (hperform : op.perform s = .ok s') :
    s'.Spares x := by
  have hcuts : s'.PooledCuts fun cut => cut.HoldsAt x :=
    Operation.pooledCuts h.cuts (fun pool cut ageLimit heq => by
      subst heq
      exact Inequality.HoldsAt.normalized hrespects) hmoves hperform
  have hconflicts : s'.PooledConflicts fun literals => ConflictHoldsAt literals x :=
    Operation.pooledConflicts h.conflicts (fun pool literals heq => by
      subst heq
      exact ConflictHoldsAt.storedForm hrespects) hmoves hperform
  cases op with
  | newCutPool _ | newConflictPool _ _ =>
      cases hperform
      exact ⟨h.rows, h.knownCuts, h.knownConflicts, h.cliques, h.variableBounds, h.objective, hcuts,
        hconflicts⟩
  | insertCut _ _ _ | removeCut _ _ | ageCuts _ _ =>
      obtain ⟨p, -, rfl⟩ := PropagationState.onCutPool_eq_ok hperform
      exact ⟨h.rows, h.knownCuts, h.knownConflicts, h.cliques, h.variableBounds, h.objective, hcuts,
        hconflicts⟩
  | addConflict _ _ | removeConflict _ _ | resetAge _ _ | ageConflicts _ =>
      obtain ⟨p, -, rfl⟩ := PropagationState.onConflictPool_eq_ok hperform
      exact ⟨h.rows, h.knownCuts, h.knownConflicts, h.cliques, h.variableBounds, h.objective, hcuts,
        hconflicts⟩
  | markInfeasible reason => exact hop.elim
  | attachCuts pool =>
      rw [perform, PropagationState.onDomain_eq_ok] at hperform
      obtain ⟨d', hd', rfl⟩ := hperform
      cases hd'
      exact h.of_same ⟨⟨rfl, rfl, rfl, rfl⟩, s.domain.cut?_attachCuts pool, rfl, rfl⟩
  | attachConflicts pool =>
      rw [perform, PropagationState.onDomain_eq_ok] at hperform
      obtain ⟨d', hd', rfl⟩ := hperform
      cases hd'
      exact h.of_same ⟨⟨rfl, rfl, rfl, rfl⟩, rfl, s.domain.conflict?_attachConflicts pool, rfl⟩
  | clearMoved =>
      rw [perform, PropagationState.onDomain_eq_ok] at hperform
      obtain ⟨d', hd', rfl⟩ := hperform
      cases hd'
      exact h.of_same ⟨⟨rfl, rfl, rfl, rfl⟩, rfl, rfl, rfl⟩
  | setCliques t =>
      rw [perform, PropagationState.onDomain_eq_ok] at hperform
      obtain ⟨d', hd', rfl⟩ := hperform
      cases hd'
      refine ⟨h.rows, h.knownCuts, h.knownConflicts, fun t' ht' => ?_,
        h.variableBounds, h.objective,
        hcuts, hconflicts⟩
      obtain rfl := Option.some.inj ht'
      exact hrespects
  | setVariableBounds t =>
      rw [perform, PropagationState.onDomain_eq_ok] at hperform
      obtain ⟨d', hd', rfl⟩ := hperform
      cases hd'
      refine ⟨h.rows, h.knownCuts, h.knownConflicts, h.cliques, fun t' ht' => ?_, h.objective,
        hcuts, hconflicts⟩
      obtain rfl := Option.some.inj ht'
      exact hrespects
  | setupObjective partitions =>
      rw [perform, PropagationState.onDomain_eq_ok] at hperform
      obtain ⟨d', hd', rfl⟩ := hperform
      have hholds := hrespects d'
      rw [Domain.setupObjective_eq_ok hd']
      exact ⟨h.rows, h.knownCuts, h.knownConflicts, h.cliques, h.variableBounds,
        fun o ho => hholds o hd' ho, hcuts, hconflicts⟩
  | setObjectiveCutoff cutoff =>
      rw [perform, PropagationState.onDomain_eq_ok] at hperform
      obtain ⟨d', hd', rfl⟩ := hperform
      cases hd'
      unfold Domain.setObjectiveCutoff
      split
      · exact h
      · next o ho =>
          dsimp only
          split
          · refine ⟨h.rows, h.knownCuts, h.knownConflicts, h.cliques, h.variableBounds,
              fun o' ho' => ?_, h.cuts, h.conflicts⟩
            obtain rfl := Option.some.inj ho'
            exact ⟨(h.objective o ho).chooses, hrespects o ho⟩
          · exact h
  | refreshActivities =>
      rw [perform, PropagationState.onDomain_eq_ok] at hperform
      obtain ⟨d', hd', rfl⟩ := hperform
      have hnone : d'.objective = none := Domain.refreshActivities_objective hop hd'
      rw [Domain.refreshActivities_eq_ok hd', hnone]
      exact ⟨h.rows, h.knownCuts, h.knownConflicts, h.cliques, h.variableBounds,
        fun o ho => (by cases ho), h.cuts, h.conflicts⟩
  | _ => cases hmoves

namespace PropagationState.Regards

/-- Applying the changes of a stack leaves the point in the global box, if a level was opened before
or the first of them opens one. -/
theorem applyStack (h : s.Regards a f x) {branchings : List Nat} {index : Nat}
    {changes : List (BoundChange Exact)}
      (hvalues : ∀ change ∈ changes, ∃ k : ℤ, change.value = number k)
    (hlevel : s.domain.branchings ≠ #[] ∨ index = 0) {d' : Domain Exact}
    (happly : (Domain.applyStack branchings index changes).perform s.domain = (.ok (), d')) :
    Regards a f x ⟨s.pools, d'⟩ := by
  obtain ⟨pools, d⟩ := s
  induction changes generalizing d index with
  | nil =>
      simp only [Domain.applyStack, Action.perform_pure, Prod.mk.injEq, true_and] at happly
      exact happly ▸ h
  | cons change rest ih =>
      simp only [Domain.applyStack, Action.perform_bind_eq_ok, Action.perform_get, Prod.mk.injEq,
        Except.ok.injEq] at happly
      obtain ⟨_, _, ⟨rfl, rfl⟩, happly⟩ := happly
      split at happly
      · simp only [Action.perform_pure, Prod.mk.injEq, true_and] at happly
        exact happly ▸ h
      · next hfeasible =>
          simp only [Action.perform_bind_eq_ok, Action.perform_change_eq_ok] at happly
          obtain ⟨-, next, hchange, hrest⟩ := happly
          have hnone : d.infeasible = none := by simpa [Domain.isInfeasible] using hfeasible
          have hvalue := hvalues change (List.mem_cons_self ..)
          have hstep : Regards a f x ⟨pools, next⟩ ∧ next.branchings ≠ #[] := by
            split at hchange
            · refine ⟨h.changeBound ⟨.inl rfl, hvalue⟩ (.inl rfl) hchange, ?_⟩
              rw [(Domain.changeBound_opened hchange hnone).branchings]
              simp
            · next hnot =>
                have hopen : d.branchings ≠ #[] :=
                  hlevel.resolve_right fun hzero => hnot (by simp [hzero])
                refine ⟨h.changeBound ⟨.inr rfl, hvalue⟩ (.inr (.inl hopen)) hchange, ?_⟩
                rw [(Domain.changeBound_deepened hchange (by simp)).branchings]
                exact hopen
          exact ih (fun other hother => hvalues other (List.mem_cons_of_mem _ hother)) next hstep.1
            (.inl hstep.2) hrest

/-- If all changes of a stack hold at the point, then it is in the box to which they lead. -/
theorem held_applyStack (h : s.Regards a f x) {branchings : List Nat} {index : Nat}
    {changes : List (BoundChange Exact)}
      (hvalues : ∀ change ∈ changes, ∃ k : ℤ, change.value = number k)
    (hholds : ∀ change ∈ changes, change.HoldsAt x)
    (hheld : s.domain.HeldBefore s.domain.log.size x) {d' : Domain Exact}
    (happly : (Domain.applyStack branchings index changes).perform s.domain = (.ok (), d')) :
    d'.HeldBefore d'.log.size x := by
  obtain ⟨pools, d⟩ := s
  induction changes generalizing d index with
  | nil =>
      simp only [Domain.applyStack, Action.perform_pure, Prod.mk.injEq, true_and] at happly
      exact happly ▸ hheld
  | cons change rest ih =>
      simp only [Domain.applyStack, Action.perform_bind_eq_ok, Action.perform_get, Prod.mk.injEq,
        Except.ok.injEq] at happly
      obtain ⟨_, _, ⟨rfl, rfl⟩, happly⟩ := happly
      split at happly
      · simp only [Action.perform_pure, Prod.mk.injEq, true_and] at happly
        exact happly ▸ hheld
      · simp only [Action.perform_bind_eq_ok, Action.perform_change_eq_ok] at happly
        obtain ⟨-, next, hchange, hrest⟩ := happly
        have hvalue := hvalues change (List.mem_cons_self ..)
        have hhere := hholds change (List.mem_cons_self ..)
        refine ih (fun other hother => hvalues other (List.mem_cons_of_mem _ hother))
          (fun other hother => hholds other (List.mem_cons_of_mem _ hother)) next ?_ ?_ hrest
        · refine h.changeBound ⟨?_, hvalue⟩ (.inr (.inr hhere)) hchange
          split
          · exact .inl rfl
          · exact .inr rfl
        · exact h.held_changeBound hheld hhere hchange _

end PropagationState.Regards

namespace PropagationState.Regards

theorem propagate (h : s.Regards a f x) {pools : Pools Exact} {d : Domain Exact}
    (hpropagate : s.domain.propagate s.pools = .ok (pools, d)) : Regards a f x ⟨pools, d⟩ :=
  h.advances (Domain.propagate_advances hpropagate)

theorem held_propagate (h : s.Regards a f x) {pools : Pools Exact} {d : Domain Exact}
    (hpropagate : s.domain.propagate s.pools = .ok (pools, d))
    (hheld : s.domain.HeldBefore s.domain.log.size x) : d.HeldBefore d.log.size x :=
  h.held_advances (Domain.propagate_advances hpropagate) hheld

/-- A state that regards a point goes on doing so. -/
theorem perform (h : s.Regards a f x) (hinforms : op.Informs s) (hrespects : op.Respects a x s)
    (hperform : op.perform s = .ok s') : s'.Regards a f x := by
  cases hmoves : op.movesBounds with
  | false =>
      have hstill := Operation.still hmoves hperform
      have hproper : op.ProperFor a.pinned s := hinforms.proper.properFor h.sound.domain.forced
      have hlog : s'.domain.log = s.domain.log := congrArg Trail.log hstill.trail
      have hlevels : s'.domain.branchings = s.domain.branchings :=
        congrArg Trail.branchings hstill.trail
      have hglobal : s'.domain.globalLength = s.domain.globalLength := by
        rw [Domain.globalLength, Domain.globalLength, hlevels, hlog]
      refine ⟨h.below, hstill.model ▸ h.whole,
        Operation.sound_still h.sound hproper.suitable hmoves hperform, hglobal ▸ h.anchored,
        Operation.justified_still h.justified h.sound hinforms hmoves hperform,
        Domain.Turns.leveled h.leveled (Operation.turns hperform),
        h.integers.of_extends (congrArg (fun t => t.log.toList) hstill.trail ▸ List.prefix_rfl),
        Operation.spares h.spares hproper hrespects hmoves hperform,
        hstill.model ▸ h.inModel, ?_⟩
      rw [hglobal]
      exact h.global.of_log hlog
  | true =>
      cases op with
      | propagate =>
          simp only [Operation.perform, bind_eq_ok, pure_eq_ok] at hperform
          obtain ⟨⟨pools, d⟩, hpropagate, rfl⟩ := hperform
          exact h.propagate hpropagate
      | changeBound change reason =>
          rw [Operation.perform, onDomain_eq_ok] at hperform
          obtain ⟨d', hd', rfl⟩ := hperform
          exact h.changeBound hinforms hrespects hd'
      | fixColumn c value reason =>
          rw [Operation.perform, onDomain_eq_ok] at hperform
          obtain ⟨d', hd', rfl⟩ := hperform
          exact h.fixColumn hinforms hrespects hd'
      | setStack changes branchings =>
          rw [Operation.perform, onDomain_eq_ok] at hperform
          obtain ⟨d', hd', rfl⟩ := hperform
          simp only [bind_eq_ok, pure_eq_ok] at hd'
          obtain ⟨⟨_, after⟩, hfinish, rfl⟩ := hd'
          have happly := Action.finish_eq_ok.mp hfinish
          simp only [Domain.setStack, Action.perform_bind_eq_ok, Action.perform_change_eq_ok]
            at happly
          obtain ⟨-, cleared, hback, happly⟩ := happly
          exact (h.backtrackTo h.anchored hback).applyStack hinforms (.inr rfl) happly
      | backtrackTo position =>
          rw [Operation.perform, onDomain_eq_ok] at hperform
          obtain ⟨d', hd', rfl⟩ := hperform
          exact h.backtrackTo hrespects hd'
      | backtrack =>
          rw [Operation.perform, onDomain_eq_ok] at hperform
          obtain ⟨d', hd', rfl⟩ := hperform
          simp only [bind_eq_ok, pure_eq_ok] at hd'
          obtain ⟨⟨decision, after⟩, hback, rfl⟩ := hd'
          rcases Domain.backtrack_eq_ok hback with ⟨-, -, rfl⟩ |
            ⟨position, entry, hlast, -, -, hback⟩
          · exact h
          · have hlevel := h.leveled.globalLength_le_of_mem (Array.mem_of_back? hlast)
            exact h.backtrackTo (Nat.le_trans h.anchored hlevel) hback
      | backtrackToGlobal =>
          rw [Operation.perform, onDomain_eq_ok] at hperform
          obtain ⟨d', hd', rfl⟩ := hperform
          exact h.backtrackTo h.anchored hd'
      | _ => cases hmoves

end PropagationState.Regards

end Operations

end BranchBound
