import BranchBound.Proofs.Conflict.Support

/-!
# The log is justified

Every change that was not decided stands on its reason: the reason supports it, for the bounds there
were when it was logged. A run keeps this: constraints are only added, their names keep their
meaning, and bounds are only tightened until they are restored. So long after a change was derived,
its reason still explains it.
-/

namespace BranchBound

open Checked Exact

variable {x : Point} {f : ℚ} {a : Domain.Anchor}

/-- No column has two entries. -/
def Inequality.Distinct (i : Inequality Exact) : Prop := (i.entries.map Prod.fst).Nodup

/-- A normalized cut repeats a column only if the cut does. -/
theorem Inequality.Distinct.normalized {i : Inequality Exact} (h : i.Distinct) :
    i.normalized.Distinct := by
  have hperm := (List.mergeSort_perm (i.entries.filter fun (_, a) => a != 0)
    fun x y => x.1 ≤ y.1).map Prod.fst
  refine hperm.nodup_iff.mpr ?_
  exact h.sublist (List.filter_sublist.map Prod.fst)

namespace Domain

variable {d d' : Domain Exact} {reason : Reason}

/-- A domain with the same record and box which is told no less and has lost nothing that can be
blamed. -/
structure Retains (d d' : Domain Exact) : Prop where
  trail : d'.trail = d.trail
  model : d'.model = d.model
  heeds : ∀ x, d'.Heeds x → d.Heeds x
  cuts : d'.cut? = d.cut?
  conflicts : d'.conflict? = d.conflict?
  limited : ∀ o, d.objective = some o → o.cutoff ≠ plus →
    ∃ o', d'.objective = some o' ∧ o'.cutoff ≠ plus

theorem SameConstraints.retains (h : SameConstraints d d') (htrail : d'.trail = d.trail) :
    d.Retains d' where
  trail := htrail
  model := h.setting.model
  heeds := fun _ => h.heeds
  cuts := h.cuts
  conflicts := h.conflicts
  limited := fun o ho hcutoff => by
    obtain ⟨o', ho', hsame⟩ := objective_of_demand h.demand ho
    exact ⟨o', ho', hsame.cutoff ▸ hcutoff⟩

theorem Retains.violated (h : d.Retains d') (hviolated : d.Violated reason) :
    d'.Violated reason := by
  have hvalues : d'.values = d.values := by rw [← trail_values, h.trail, trail_values]
  have hlog : d'.log = d.log := congrArg Trail.log h.trail
  cases reason with
  | rowUpper _ | rowLower _ =>
      simp only [Violated, hvalues, h.model]
      exact hviolated
  | cut _ _ =>
      simp only [Violated, hvalues, h.cuts]
      exact hviolated
  | conflict _ _ =>
      simp only [Violated, hvalues, h.conflicts]
      exact hviolated
  | objective =>
      obtain ⟨⟨o, ho, hcutoff⟩, hnone⟩ := hviolated
      refine ⟨h.limited o ho hcutoff, fun x hx => ?_⟩
      rw [hvalues, h.model]
      exact hnone x (h.heeds x hx)
  | conflictingBounds _ =>
      simp only [Violated, valuesBefore, hlog, h.trail]
      exact hviolated
  | branching | unknown | clique _ _ | variableBound _ _ => exact hviolated

end Domain

namespace PropagationState

variable {s s' s'' : PropagationState Exact} {change : BoundChange Exact} {reason : Reason}
  {β β' : BoundValues Exact}

/-- What a later state keeps of an earlier one: the model, everything it was told, and the names of
conflicts. -/
structure Firmer (s s' : PropagationState Exact) : Prop where
  model : s'.domain.model = s.domain.model
  heeds : ∀ x, s'.domain.Heeds x → s.domain.Heeds x
  names : s.NamesKept s'

/-- What supports a change supports it in later states. -/
theorem Firmer.supports (h : s.Firmer s') (hagree : s.NamesAgree)
    (hsupports : s.Supports β change reason) : s'.Supports β change reason := by
  cases reason with
  | rowUpper _ | rowLower _ =>
      simp only [Supports, h.model]
      exact hsupports
  | conflict index id =>
      exact ⟨h.names.named hsupports.1, fun literals hbehind =>
        hsupports.2 literals (h.names.conflictBehind hagree hsupports.1 hbehind)⟩
  | clique _ _ | variableBound _ _ =>
      refine ⟨h.model ▸ hsupports.1, fun x hx => hsupports.2 x (h.heeds x hx)⟩
  | objective =>
      intro x hx hcosted
      rw [h.model] at hcosted
      exact hsupports x (h.heeds x hx) hcosted
  | cut _ _ | branching | unknown | conflictingBounds _ => trivial

/-- What supports a change supports it for tighter bounds. -/
theorem Supports.tighten (h : s.Supports β change reason)
    (htight : ∀ (side : Side) c, side.tightOrEqual (β' side c) (β side c) = true) :
    s.Supports β' change reason := by
  cases reason with
  | objective => exact fun x hx hcosted => h x hx (hcosted.weaken fun side c _ => htight side c)
  | _ => exact h

/-- What is said of a change when it is logged: its value is whole or infinite, and unless it was
decided, it is a number, and the reason supports the change. -/
def Backs (s : PropagationState Exact) (t : Trail Exact) (change : BoundChange Exact)
    (reason : Reason) : Prop :=
  IsWhole change.value ∧ (reason ≠ .branching →
    (∃ k : ℤ, change.value = number k) ∧ s.Supports t.values change reason)

/-- A state whose changes were all backed when they were logged, and whose infeasibility is that of
the constraint which is blamed. Names have one meaning, and no cut repeats a column. -/
structure Justified (s : PropagationState Exact) : Prop where
  backed : Trail.Built s.Backs (.ofModel s.domain.model) s.domain.trail
  violated : ∀ i, s.domain.infeasible = some i → s.domain.Violated i.reason
  namesAgree : s.NamesAgree
  namesOnce : s.NamesOnce
  distinct : ∀ index id cut, s.domain.cut? index id = some cut → cut.Distinct
  pooledDistinct : s.PooledCuts Inequality.Distinct

theorem Firmer.built (h : s.Firmer s') (hagree : s.NamesAgree) {t : Trail Exact}
    (hbuilt : Trail.Built s.Backs (.ofModel s.domain.model) t) :
    Trail.Built s'.Backs (.ofModel s'.domain.model) t :=
  h.model.symm ▸ hbuilt.mono fun _ _ _ hbacks =>
    ⟨hbacks.1, fun hreason => ⟨(hbacks.2 hreason).1, h.supports hagree (hbacks.2 hreason).2⟩⟩

namespace Justified

theorem logsWhole (h : s.Justified) : s.domain.LogsWhole := by
  intro entry hentry
  obtain ⟨p, hp⟩ := Array.mem_iff_getElem?.mp hentry
  exact (h.backed.allowed_of_log (Trail.fresh_ofModel _) hp).1

/-- A step that leaves the record of a domain alone keeps it justified. -/
theorem still (h : s.Justified) (hfirmer : s.Firmer s') (htrail : s'.domain.trail = s.domain.trail)
    (hviolated : ∀ i, s'.domain.infeasible = some i → s'.domain.Violated i.reason)
    (honce : s'.NamesOnce) (hdistinct : ∀ index id cut, s'.domain.cut? index id = some cut →
      cut.Distinct)
    (hpooled : s'.PooledCuts Inequality.Distinct) : s'.Justified :=
  ⟨htrail ▸ hfirmer.built h.namesAgree h.backed, hviolated,
    hfirmer.names.namesAgree h.namesAgree h.namesOnce, honce, hdistinct, hpooled⟩

theorem retains (h : s.Justified) (hretains : s.domain.Retains s'.domain)
    (hinfeasible : s'.domain.infeasible = s.domain.infeasible) (hnames : s.NamesKept s')
    (honce : s'.NamesOnce) (hpooled : s'.PooledCuts Inequality.Distinct) : s'.Justified :=
  h.still ⟨hretains.model, hretains.heeds, hnames⟩ hretains.trail
    (fun i hi => hretains.violated (h.violated i (hinfeasible ▸ hi))) honce
    (hretains.cuts ▸ h.distinct) hpooled

end Justified

end PropagationState

section Changes

variable {pools : Pools Exact} {d d' : Domain Exact} {change : BoundChange Exact} {reason : Reason}

open PropagationState

/-- A change or a backtrack keeps what a domain was told. -/
theorem Domain.Carried.firmer (h : Domain.Carried (.exact .any) d d') (hd : d.Sound a f) :
    Firmer ⟨pools, d⟩ ⟨pools, d'⟩ :=
  have hsame := h.sameConstraints hd.settled hd.wellMade.placed
  ⟨hsame.setting.model, fun _ => hsame.heeds, .of_agrees h.conflicts⟩

/-- A change makes no bound less tight. -/
theorem Domain.Sound.changeBound_tight (h : d.Sound a f) (hnan : change.value ≠ nan)
    (hchange : d.changeBound change reason = .ok d') (side : Side) (c : ColumnId) :
    side.tightOrEqual (d'.values side c) (d.values side c) = true := by
  have hnumber : ∀ side c, Scalar.isNaN (d.values side c) = false := fun side c =>
    Exact.isNaN_eq_false.mpr (h.not_nan side c)
  obtain ⟨-, heffect⟩ := Domain.changeBound_settled h.settled hnan hchange
  rcases heffect with rfl | ⟨hfeasible, value, crossing, haccepted, hchanged⟩
  · exact Side.tightOrEqual_refl side (hnumber side c)
  · have hc : change.column < d.model.columns.size := (hchanged.column_lt h.settled :)
    have htightens := h.shrinking.tightens h.numeric hfeasible (Exact.isNaN_eq_false.mpr hnan) hc
      haccepted
    rw [hchanged.values]
    exact Trail.tightOrEqual_set hnumber htightens.tight side c

/-- A change to a whole number that its reason supports, or that is decided, is backed. -/
theorem PropagationState.Justified.changeBound (h : Justified ⟨pools, d⟩) (hd : d.Sound a f)
    (hf : f < 1)
    (hmodel : d.model.WholeBounds) (hvalue : ∃ k : ℤ, change.value = number k)
    (hsupports : reason ≠ .branching → Supports ⟨pools, d⟩ d.values change reason)
    (hchange : d.changeBound change reason = .ok d') : Justified ⟨pools, d'⟩ := by
  obtain ⟨k, hk⟩ := hvalue
  have hnan : change.value ≠ nan := by simp [hk]
  obtain ⟨-, heffect⟩ := Domain.changeBound_settled hd.settled hnan hchange
  rcases heffect with rfl | ⟨hfeasible, value, crossing, haccepted, hchanged⟩
  · exact h
  have hsame := hchanged.carried.sameConstraints hd.settled hd.wellMade.placed
  have hfirmer : Firmer ⟨pools, d⟩ ⟨pools, d'⟩ := hchanged.carried.firmer hd
  have hc : change.column < d.model.columns.size := (hchanged.column_lt hd.settled :)
  have htightens := hd.shrinking.tightens hd.numeric hfeasible (Exact.isNaN_eq_false.mpr hnan) hc
    haccepted
  have hwhole := hd.values_whole hmodel h.logsWhole
  have hgiven : value = change.value ∨ reason = .branching ∧
      value = d.values change.side change.column := by
    rw [hd.feastol] at haccepted
    simpa using Domain.acceptedValue_whole hf (.inr (.inr ⟨k, hk⟩)) (hwhole _ _) (hwhole _ _)
      haccepted
  obtain ⟨previous, hprevious, htrail⟩ := hchanged.trail
  refine ⟨?_, fun i hi => ?_, hfirmer.names.namesAgree h.namesAgree h.namesOnce, h.namesOnce, ?_,
    h.pooledDistinct⟩
  · change Trail.Built _ _ d'.trail
    rw [htrail]
    refine (hfirmer.built h.namesAgree h.backed).append (by rwa [Domain.trail_bounds])
      ⟨?_, fun hreason => ?_⟩
    · rcases hgiven with rfl | ⟨-, rfl⟩
      · exact .inr (.inr ⟨k, hk⟩)
      · exact hwhole _ _
    · obtain rfl : value = change.value := hgiven.resolve_right fun hrepeats => hreason hrepeats.1
      refine ⟨⟨k, hk⟩, ?_⟩
      rw [Domain.trail_values]
      exact hfirmer.supports h.namesAgree (hsupports hreason)
  · rcases hchanged.infeasible with hfound | ⟨-, reason', hfound, hblame⟩
    · change d'.infeasible = some i at hi
      rw [hfound] at hi
      split at hi
      · next hcrosses =>
          obtain rfl := Option.some.inj hi
          exact Domain.violated_of_crossing hd hprevious htrail
            (Domain.tighter_of_crossing (hcrosses ▸ haccepted))
      · cases hi
    · obtain rfl := Option.some.inj (hfound.symm.trans hi)
      refine hd.violated_of_blamed htightens.tight ?_ hsame hchanged.values hblame
      rcases hgiven with rfl | ⟨-, rfl⟩
      · exact .inl (by rw [hk]; rfl)
      · exact .inr rfl
  · change ∀ index id cut, d'.cut? index id = some cut → _
    rw [hsame.cuts]
    exact h.distinct

/-- Backtracking keeps the changes that it does not undo. -/
theorem PropagationState.Justified.backtrackTo (h : Justified ⟨pools, d⟩) (hd : d.Sound a f)
    {position : Nat} (hback : d.backtrackTo position = .ok d') : Justified ⟨pools, d'⟩ := by
  rcases Domain.backtrackTo_eq_ok hback with ⟨-, rfl⟩ | ⟨hlt, -⟩
  · exact h
  obtain ⟨-, hcarried⟩ := (Domain.backtrackTo_returns hd.settled position).of_eq_ok hback
  obtain ⟨htrail, hfiltered, -⟩ := Domain.backtrackTo_trail hback hlt
  have hfirmer : Firmer ⟨pools, d⟩ ⟨pools, d'⟩ := hcarried.firmer hd
  refine ⟨?_, fun i hi => ?_, hfirmer.names.namesAgree h.namesAgree h.namesOnce, h.namesOnce, ?_,
    h.pooledDistinct⟩
  · change Trail.Built _ _ d'.trail
    rw [htrail]
    exact (hfirmer.built h.namesAgree h.backed).rewindTo (Trail.fresh_ofModel _) position
  · -- An infeasibility is found at the end of the log, so it is forgotten.
    have hkept := Option.filter_eq_some_iff.mp (hfiltered.symm.trans hi)
    have hlate := hd.latchedAtEnd i hkept.1
    have hearly : i.position < position := by simpa using hkept.2
    omega
  · change ∀ index id cut, d'.cut? index id = some cut → _
    rw [(hcarried.sameConstraints hd.settled hd.wellMade.placed).cuts]
    exact h.distinct

end Changes

end BranchBound

/-!
## Every run justifies its log

Propagation logs only changes that it derived, and the user decides. So whatever is changed,
propagated and undone, every change on record is justified, as long as nothing that was said is
taken back: tables and the objective are set once, and the cutoff is only lowered.
-/

namespace BranchBound

open Checked Exact PropagationState

variable {x : Point} {f : ℚ} {a : Domain.Anchor}

section Advances

variable {s s' : PropagationState Exact}

theorem Domain.markInfeasible_infeasible (d : Domain Exact) (reason : Reason) {i : Infeasibility}
    (hi : (d.markInfeasible reason).infeasible = some i) :
    d.infeasible = some i ∨ i.reason = reason := by
  unfold markInfeasible setInfeasible at hi
  split at hi
  · exact .inl hi
  · exact .inr (congrArg Infeasibility.reason (Option.some.inj hi)).symm

theorem Domain.markInfeasible_sameConstraints (d : Domain Exact) (reason : Reason) :
    SameConstraints d (d.markInfeasible reason) := by
  rw [markInfeasible_eq]
  exact ⟨⟨rfl, rfl, rfl, rfl⟩, rfl, rfl, rfl⟩

/-- Propagation keeps the log justified. -/
theorem Advance.justified (h : s.Justified) (hs : s.Sound a f) (hf : f < 1)
    (hmodel : s.domain.model.WholeBounds) (hadvance : Advance s s') : s'.Justified := by
  have hnames := hadvance.namesKept hs.settled
  have honce := hadvance.namesOnce h.namesOnce
  have hpooled : s'.PooledCuts Inequality.Distinct := by
    obtain ⟨hcuts, -, -⟩ := hadvance.contents
    intro i pool id cut hpool
    exact h.pooledDistinct i pool id cut (hcuts ▸ hpool)
  have hd := hs.domain
  cases hadvance with
  | requeue hrequeued =>
      exact h.retains (hrequeued.sameConstraints.retains hrequeued.trail) hrequeued.infeasible
        hnames
        honce hpooled
  | refresh hrefresh =>
      rw [Domain.refreshActivity_eq_ok hrefresh] at hnames ⊢
      exact h.retains (Domain.SameConstraints.retains ⟨⟨rfl, rfl, rfl, rfl⟩, rfl, rfl, rfl⟩ rfl) rfl
        hnames honce hpooled
  | @readCuts pools d index p p' pool hindex hpool hread hfeasible =>
      refine h.still ⟨rfl, fun x hx => ⟨hx.binaries, hx.cliques, hx.variableBounds, hx.objective⟩,
        hnames⟩ rfl (fun i hi => ?_) honce (fun i id cut hcut => ?_) hpooled
      · cases hfeasible.symm.trans hi
      · rcases Domain.cut?_readCuts hindex hread hcut with hknown | hpooled
        · exact h.distinct i id cut hknown
        · exact h.pooledDistinct p.pool pool id cut hpool hpooled
  | readConflicts _ _ _ hfeasible =>
      refine h.still ⟨rfl, fun x hx => ⟨hx.binaries, hx.cliques, hx.variableBounds, hx.objective⟩,
        hnames⟩ rfl (fun i hi => ?_) honce h.distinct hpooled
      cases hfeasible.symm.trans hi
  | @change pools d d' changes hderived hchanges =>
      -- What supports a change before the first one supports it after the others, too.
      refine (Domain.changeBounds_keeps (P := fun e : Domain Exact => e.Sound a f ∧
        Justified ⟨pools, e⟩ ∧ e.model = d.model ∧
        ∀ y ∈ changes, Supports ⟨pools, e⟩ e.values y.1 y.2) (fun e e' y hy he hchange => ?_)
          hchanges
        ⟨hd, h, rfl, fun y hy => (hs.supports h.namesAgree (hderived y hy)).2⟩).2.1
      obtain ⟨hsound, hjustified, hsame, hsupports⟩ := he
      have hvalue := (hs.supports h.namesAgree (hderived y hy)).1
      have hnan : y.1.value ≠ nan := by
        obtain ⟨k, hk⟩ := hvalue
        simp [hk]
      have hfirmer : Firmer ⟨pools, e⟩ ⟨pools, e'⟩ :=
        ((Domain.changeBound_settled hsound.settled hnan hchange).2.carried).firmer hsound
      refine ⟨hsound.changeBound hnan hchange, hjustified.changeBound hsound hf (hsame ▸ hmodel)
        hvalue
        (fun _ => hsupports y hy) hchange, hfirmer.model.trans hsame, fun z hz => ?_⟩
      exact (hfirmer.supports hjustified.namesAgree (hsupports z hz)).tighten
        (hsound.changeBound_tight hnan hchange)
  | @refute pools d reason hrefuted =>
      have hsame := d.markInfeasible_sameConstraints reason
      have hretains := hsame.retains (d.markInfeasible_still reason).trail
      refine h.still ⟨hsame.setting.model, fun _ => hsame.heeds, hnames⟩ hretains.trail
        (fun i hi => ?_)
        honce (fun index id cut hcut => h.distinct index id cut (hsame.cuts ▸ hcut)) hpooled
      rcases d.markInfeasible_infeasible reason hi with hbefore | rfl
      · exact hretains.violated (h.violated i hbefore)
      · exact hretains.violated (hd.violated_of_refuted hrefuted)
  | renew _ =>
      exact h.retains (Domain.SameConstraints.retains ⟨.refl _, rfl, rfl, rfl⟩ rfl) rfl hnames honce
        hpooled

end Advances

/-- The operations that keep a log justified. Bounds are changed to whole values, as decisions or
without a reason, cuts do not repeat a column, and the tables and the objective are set once. -/
def Operation.Informs (s : PropagationState Exact) : Operation Exact → Prop
  | changeBound change reason =>
      (reason = .branching ∨ reason = .unknown) ∧ ∃ k : ℤ, change.value = number k
  | fixColumn _ value reason =>
      (reason = .branching ∨ reason = .unknown) ∧ ∃ k : ℤ, value = number k
  | setStack changes _ => ∀ change ∈ changes, ∃ k : ℤ, change.value = number k
  | setCliques t => s.domain.cliques = none ∧ (setCliques t).Proper s
  | setVariableBounds t => s.domain.variableBounds = none ∧ (setVariableBounds t).Proper s
  | insertCut pool cut ageLimit => cut.Distinct ∧ (insertCut pool cut ageLimit).Proper s
  | op => op.Proper s

/-- The operations of a run in which conflicts are learned: they keep a log justified, and the
objective is set up before any bound is changed. -/
def Operation.Learns (s : PropagationState Exact) : Operation Exact → Prop
  | changeBound change reason =>
      (reason = .branching ∨ reason = .unknown) ∧ ∃ k : ℤ, change.value = number k
  | fixColumn _ value reason =>
      (reason = .branching ∨ reason = .unknown) ∧ ∃ k : ℤ, value = number k
  | setStack changes _ => ∀ change ∈ changes, ∃ k : ℤ, change.value = number k
  | setCliques t => s.domain.cliques = none ∧ (setCliques t).Proper s
  | setVariableBounds t => s.domain.variableBounds = none ∧ (setVariableBounds t).Proper s
  | setupObjective _ => s.domain.objective = none ∧ s.domain.log = #[]
  | insertCut pool cut ageLimit => cut.Distinct ∧ (insertCut pool cut ageLimit).Proper s
  | op => op.Proper s

section Operations

variable {s s' : PropagationState Exact} {op : Operation Exact}

/-- Before any bound is changed, the box is that of the model. -/
theorem Domain.Sound.values_of_empty {d : Domain Exact} (h : d.Sound a f) (hempty : d.log = #[]) :
    d.values = (Trail.ofModel d.model).values := by
  have hstart := h.shrinking.built.rewindTo_zero (Trail.fresh_ofModel d.model)
  have hsize := Trail.rewindTo_of_le h.traced.decisionsLogged (p := 0) (by simp [hempty])
  rw [← trail_values, ← hsize, hstart]

theorem Operation.Informs.proper (hop : op.Informs s) : op.Proper s := by
  have hnumber : ∀ {v : Exact}, (∃ k : ℤ, v = number k) → v ≠ nan := fun hv => by
    obtain ⟨k, rfl⟩ := hv
    simp
  cases op with
  | changeBound change reason => exact hnumber hop.2
  | fixColumn c value reason => exact hnumber hop.2
  | setStack changes branchings => exact fun change hchange => hnumber (hop change hchange)
  | setCliques t => exact hop.2
  | setVariableBounds t => exact hop.2
  | insertCut pool cut ageLimit => exact hop.2
  | _ => exact hop

theorem Operation.Learns.informs (h : s.Sound a f) (hop : op.Learns s) : op.Informs s := by
  cases op with
  | setupObjective partitions =>
      refine ⟨hop.1, fun d o _ _ c i _ hone => ?_⟩
      rw [h.domain.values_of_empty hop.2] at hone
      cases hcolumn : s.domain.model.columns[c]? with
      | none =>
          simp [Trail.values, Trail.bounds, Trail.ofModel, hcolumn] at hone
          exact absurd hone (by decide)
      | some column =>
          refine ⟨column, hcolumn, ?_⟩
          simpa [Trail.values, Trail.bounds, Trail.ofModel, hcolumn] using hone
  | _ => exact hop

/-- Proper operations take nothing back that was said, if they do not say it again. -/
theorem Operation.retains (hop : op.Informs s) (hmoves : op.movesBounds = false)
    (hperform : op.perform s = .ok s') : s.domain.Retains s'.domain := by
  have hrefl : s.domain.Retains s.domain :=
    Domain.SameConstraints.retains ⟨.refl _, rfl, rfl, rfl⟩ rfl
  cases op with
  | newCutPool _ | newConflictPool _ _ =>
      cases hperform
      exact hrefl
  | insertCut _ _ _ | removeCut _ _ | ageCuts _ _ =>
      obtain ⟨p, -, rfl⟩ := PropagationState.onCutPool_eq_ok hperform
      exact hrefl
  | addConflict _ _ | removeConflict _ _ | resetAge _ _ | ageConflicts _ =>
      obtain ⟨p, -, rfl⟩ := PropagationState.onConflictPool_eq_ok hperform
      exact hrefl
  | markInfeasible reason => exact hop.elim
  | attachCuts pool =>
      rw [perform, PropagationState.onDomain_eq_ok] at hperform
      obtain ⟨d', hd', rfl⟩ := hperform
      cases hd'
      exact Domain.SameConstraints.retains
        ⟨⟨rfl, rfl, rfl, rfl⟩, s.domain.cut?_attachCuts pool, rfl, rfl⟩ rfl
  | attachConflicts pool =>
      rw [perform, PropagationState.onDomain_eq_ok] at hperform
      obtain ⟨d', hd', rfl⟩ := hperform
      cases hd'
      exact Domain.SameConstraints.retains
        ⟨⟨rfl, rfl, rfl, rfl⟩, rfl, s.domain.conflict?_attachConflicts pool, rfl⟩ rfl
  | clearMoved =>
      rw [perform, PropagationState.onDomain_eq_ok] at hperform
      obtain ⟨d', hd', rfl⟩ := hperform
      cases hd'
      exact Domain.SameConstraints.retains ⟨⟨rfl, rfl, rfl, rfl⟩, rfl, rfl, rfl⟩ rfl
  | setCliques t =>
      rw [perform, PropagationState.onDomain_eq_ok] at hperform
      obtain ⟨d', hd', rfl⟩ := hperform
      cases hd'
      refine ⟨rfl, rfl, fun x hx => ⟨hx.binaries, fun t ht => ?_, hx.variableBounds, hx.objective⟩,
        rfl, rfl, hrefl.limited⟩
      cases hop.1.symm.trans ht
  | setVariableBounds t =>
      rw [perform, PropagationState.onDomain_eq_ok] at hperform
      obtain ⟨d', hd', rfl⟩ := hperform
      cases hd'
      refine ⟨rfl, rfl, fun x hx => ⟨hx.binaries, hx.cliques, fun t ht => ?_, hx.objective⟩,
        rfl, rfl, hrefl.limited⟩
      cases hop.1.symm.trans ht
  | setupObjective partitions =>
      rw [perform, PropagationState.onDomain_eq_ok] at hperform
      obtain ⟨d', hd', rfl⟩ := hperform
      rw [Domain.setupObjective_eq_ok hd']
      refine ⟨rfl, rfl, fun x hx => ⟨hx.binaries, hx.cliques, hx.variableBounds, fun o ho => ?_⟩,
        rfl, rfl, fun o ho => ?_⟩
      · cases hop.1.symm.trans ho
      · cases hop.1.symm.trans ho
  | refreshActivities =>
      rw [perform, PropagationState.onDomain_eq_ok] at hperform
      obtain ⟨d', hd', rfl⟩ := hperform
      have hnone : s.domain.objective = none := hop
      rw [Domain.refreshActivities_eq_ok hd']
      refine ⟨rfl, rfl, fun x hx => ⟨hx.binaries, hx.cliques, hx.variableBounds, fun o ho => ?_⟩,
        rfl, rfl, fun o ho => ?_⟩
      · cases hnone.symm.trans ho
      · cases hnone.symm.trans ho
  | setObjectiveCutoff cutoff =>
      rw [perform, PropagationState.onDomain_eq_ok] at hperform
      obtain ⟨d', hd', rfl⟩ := hperform
      cases hd'
      dsimp only
      unfold Domain.setObjectiveCutoff
      split
      · exact hrefl
      · next o ho =>
          dsimp only
          split
          · next hlower =>
              refine ⟨rfl, rfl, fun x hx => ⟨hx.binaries, hx.cliques, hx.variableBounds,
                fun o' ho' => ?_⟩, rfl, rfl, fun o' ho' _ => ⟨_, rfl, fun hplus => ?_⟩⟩
              · obtain rfl := Option.some.inj (ho.symm.trans ho')
                have hlowered := hx.objective _ rfl
                exact ⟨hlowered.chooses, Exact.le_trans hlowered.cutoff (Exact.le_of_lt hlower)⟩
              · have hplus : cutoff - s.domain.model.offset = plus := hplus
                rw [hplus] at hlower
                cases hlower
          · exact hrefl
  | _ => cases hmoves

/-- The changes that a run makes are decided at whole values or given without a reason. -/
theorem Operation.Informs.changes (hop : op.Informs s) {y : BoundChange Exact × Reason}
    (hy : y ∈ op.changes) :
    (y.2 = .branching ∨ y.2 = .unknown) ∧ ∃ k : ℤ, y.1.value = number k := by
  cases op with
  | changeBound change reason =>
      obtain rfl := List.mem_singleton.mp hy
      exact hop
  | fixColumn c value reason =>
      simp only [Operation.changes, List.mem_cons, List.not_mem_nil, or_false] at hy
      rcases hy with rfl | rfl
      · exact hop
      · exact hop
  | setStack changes branchings =>
      obtain ⟨change, hchange, hy⟩ := List.mem_flatMap.mp hy
      simp only [List.mem_cons, List.not_mem_nil, or_false] at hy
      rcases hy with rfl | rfl
      · exact ⟨.inl rfl, hop change hchange⟩
      · exact ⟨.inr rfl, hop change hchange⟩
  | _ => cases hy

/-- Each change, each backtrack and each advance of propagation keeps the log justified. -/
theorem Operation.Stage.justified (h : s.Justified) (hs : s.Sound a f) (hf : f < 1)
    (hmodel : s.domain.model.WholeBounds)
    (hchanges : ∀ y ∈ op.changes, (y.2 = .branching ∨ y.2 = .unknown) ∧
      ∃ k : ℤ, y.1.value = number k)
    (hstage : op.Stage s s') : s'.Justified := by
  cases hstage with
  | change y hy hchange =>
      obtain ⟨hreason, hvalue⟩ := hchanges y hy
      refine h.changeBound hs.domain hf hmodel hvalue (fun hnot => ?_) hchange
      rw [hreason.resolve_left hnot]
      trivial
  | back hback => exact h.backtrackTo hs.domain hback
  | advance _ hadvance => exact hadvance.justified h hs hf hmodel

/-- An operation that does not move bounds keeps the log justified. -/
theorem Operation.justified_still (h : s.Justified) (hs : s.Sound a f) (hop : op.Informs s)
    (hmoves : op.movesBounds = false) (hperform : op.perform s = .ok s') : s'.Justified := by
  obtain ⟨-, hinfeasible, -⟩ :=
    Operation.keeps_domain hs (hop.proper.suitable hs.domain.forced) hmoves hperform
  refine h.retains (Operation.retains hop hmoves hperform) hinfeasible
    (Operation.namesKept hmoves hperform) (Operation.namesOnce h.namesOnce hmoves hperform)
    (Operation.pooledCuts h.pooledDistinct (fun pool cut ageLimit heq => ?_) hmoves hperform)
  subst heq
  exact hop.1.normalized

/-- An operation of a run keeps the log justified. -/
theorem Operation.justified (h : s.Justified) (hs : s.Sound a f) (hstart : a.position = 0)
    (hf : f < 1)
    (hmodel : s.domain.model.WholeBounds) (hop : op.Informs s) (hperform : op.perform s = .ok s') :
    s'.Justified := by
  have hproper := hop.proper
  cases hmoves : op.movesBounds with
  | false => exact Operation.justified_still h hs hop hmoves hperform
  | true =>
      have hall : ∀ t, Relation.ReflTransGen op.Stage s t →
          t.Sound a f ∧ t.Justified ∧ t.domain.model.WholeBounds := by
        intro t ht
        induction ht with
        | refl => exact ⟨hs, h, hmodel⟩
        | tail _ hlast ih =>
            obtain ⟨hs, h, hmodel⟩ := ih
            exact ⟨hlast.sound hs hstart hproper.brings,
              hlast.justified h hs hf hmodel fun y hy => hop.changes hy,
              (hlast.turns.constant).1 ▸ hmodel⟩
      exact (hall s' (Operation.stages hmoves hperform)).2.1

end Operations

/-- Every state that is reached by operations that keep a log justified is sound and justified. -/
theorem Reachable.justified {permitted : PropagationState Exact → Operation Exact → Prop}
    {draft : Draft Exact} {model : Model Exact} {s : PropagationState Exact}
    (hmodel : draft.build = .ok model) (hinteger : model.AllInteger) (hf : 0 < f) (hf' : f < 1)
    (hinforms : ∀ t op, t.Sound (.ofModel model) f → permitted t op → op.Informs t)
    (h : Reachable permitted model (number f) s) : s.Sound (.ofModel model) f ∧ s.Justified := by
  induction h with
  | @start d hd =>
      have hstart : Reachable (fun s op => Operation.Proper s op) model (number f) ⟨.empty, d⟩ :=
        .start hd
      obtain ⟨hcuts, hconflicts⟩ := Domain.ofModel_pools hd
      obtain ⟨-, -, hnone⟩ := Domain.ofModel_record hd
      refine ⟨hstart.sound hmodel hinteger hf, ?_, fun i hi => ?_, fun i p id literals hp => ?_,
        fun i pool hpool => ?_, fun i id cut hcut => ?_, fun i pool id cut hpool => ?_⟩
      · rw [hstart.constant.1, Domain.ofModel_trail hd]
        exact .start
      · cases hnone.symm.trans hi
      · simp [hconflicts] at hp
      · simp [Pools.empty] at hpool
      · simp [Domain.cut?, hcuts] at hcut
      · simp [Pools.empty] at hpool
  | step hbefore hop hperform ih =>
      obtain ⟨hs, hjustified⟩ := ih
      have hwhole := Draft.wholeBounds_of_build hmodel hinteger
      rw [← hbefore.constant.1] at hwhole
      have hop := hinforms _ _ hs hop
      exact ⟨Operation.sound hs rfl (hop.proper.suitable hs.domain.forced) hperform,
        Operation.justified hjustified hs rfl hf' hwhole hop hperform⟩

end BranchBound
