import BranchBound.Proofs.Domain.Soundness

/-!
# Changes keep what is allowed

A change that holds at a point leaves the point in the box, and no change and no step of
backtracking makes a domain infeasible that admits a point.
-/

namespace BranchBound

open Checked Exact

variable {x : Point} {f : ℚ}

namespace Domain

variable {a : Anchor} {pinned : ColumnId → Prop} {d d' : Domain Exact} {change : BoundChange Exact}
  {reason : Reason}

section Accepted

variable {c : ColumnId} {side : Side} {feastol current opposite value accepted : Exact}
  {isBranching crossing : Bool}

/-- What is accepted of a change that holds at an assignment in the box holds there as well. -/
theorem acceptedValue_holds {y : Assignment} (hvalue : y.reading.Holds ⟨c, side, value⟩)
    (hcurrent : y.reading.Holds ⟨c, side, current⟩)
    (hopposite : y.reading.Holds ⟨c, side.opposite, opposite⟩)
    (h : acceptedValue side feastol current opposite value isBranching =
      some (accepted, crossing)) :
    y.reading.Holds ⟨c, side, accepted⟩ := by
  simp only [acceptedValue] at h
  split at h
  · cases h
  · generalize hgiven : (if side.tightOrEqual current value then current else value) = given at h
    have hholds : y.reading.Holds ⟨c, side, given⟩ := by
      rw [← hgiven]
      split
      · exact hcurrent
      · exact hvalue
    rw [Assignment.tighter_opposite_eq_false hholds hopposite, if_neg Bool.false_ne_true] at h
    obtain ⟨rfl, -⟩ := Prod.mk.inj (Option.some.inj h)
    exact hholds

/-- A value that is accepted although it crosses is beyond the opposite bound. -/
theorem tighter_of_crossing
    (h : acceptedValue side feastol current opposite value isBranching = some (accepted, true)) :
    side.tighter accepted opposite = true := by
  simp only [acceptedValue] at h
  split at h
  · cases h
  · generalize (if side.tightOrEqual current value then current else value) = given at h
    split at h
    · next htighter =>
        split at h
        · split at h
          · cases h
          · obtain ⟨-, hcrossing⟩ := Prod.mk.inj (Option.some.inj h)
            cases hcrossing
        · obtain ⟨rfl, -⟩ := Prod.mk.inj (Option.some.inj h)
          exact htighter
    · obtain ⟨-, hcrossing⟩ := Prod.mk.inj (Option.some.inj h)
      cases hcrossing

end Accepted

/-- Two domains with the same rows, tables, cuts, conflicts and demands of the objective. -/
structure SameConstraints (d d' : Domain Exact) : Prop where
  setting : SameSetting d d'
  cuts : d'.cut? = d.cut?
  conflicts : d'.conflict? = d.conflict?
  demand : d'.demand = d.demand

namespace SameConstraints

variable (h : SameConstraints d d')

include h

theorem symm : SameConstraints d' d :=
  ⟨⟨h.setting.model.symm, h.setting.feastol.symm, h.setting.cliques.symm,
    h.setting.variableBounds.symm⟩, h.cuts.symm, h.conflicts.symm, h.demand.symm⟩

/-- The same constraints admit what is in the box. -/
theorem admits (hx : d.Admits x) (hbox : d'.values.Contains d.model.columns.size x) :
    d'.Admits x := by
  refine ⟨h.setting.model ▸ hbox, h.setting.model ▸ hx.rows, h.cuts ▸ hx.cuts,
    h.conflicts ▸ hx.conflicts, fun o' ho' => ?_⟩
  have hdemand := h.demand
  rw [Domain.demand, ho', Option.map_some] at hdemand
  obtain ⟨o, ho, hsame⟩ := Option.map_eq_some_iff.mp hdemand.symm
  simp only [Prod.mk.injEq] at hsame
  exact (hx.objective o ho).of_same ⟨hsame.1.symm, hsame.2.1.symm, hsame.2.2.symm⟩

theorem allows (hx : d.Allows x) (hbox : d'.values.Contains d.model.columns.size x) :
    d'.Allows x :=
  ⟨h.admits hx.toAdmits hbox, h.setting.cliques ▸ hx.cliques,
    h.setting.variableBounds ▸ hx.variableBounds⟩

theorem wellMade (hmade : d.WellMade pinned)
    (hplaced : ∀ o, d'.objective = some o → o.Placed pinned d.model d'.values) :
    d'.WellMade pinned := by
  refine ⟨h.setting.model ▸ hplaced, ?_, ?_, ?_⟩
  · rw [h.setting.model, h.setting.cliques]
    exact hmade.cliques
  · rw [h.setting.model, h.setting.variableBounds]
    exact hmade.variableBounds
  · rw [h.setting.model, h.conflicts]
    exact hmade.conflicts

end SameConstraints

/-- What is looked up in two tables is the same if it is the same for each of their entries. -/
theorem getElem?_bind_eq {β γ : Type} {xs ys : Array β} {g : β → Option γ}
    (hsize : ys.size = xs.size)
    (h : ∀ (i : Nat) y, ys[i]? = some y → ∃ x, xs[i]? = some x ∧ g y = g x) (i : Nat) :
    ys[i]?.bind g = xs[i]?.bind g := by
  cases hy : ys[i]? with
  | none =>
      have hout : xs[i]? = none := Array.getElem?_eq_none (hsize ▸ Array.getElem?_eq_none_iff.mp hy)
      rw [hout]
  | some y =>
      obtain ⟨x, hx, hsame⟩ := h i y hy
      rw [hx, Option.bind_some, Option.bind_some, hsame]

section Carried

/-- A bound that is set to the value it has stays. -/
theorem set_eq_of_same {β : BoundValues Exact} {side : Side} {c : ColumnId} {new : Exact}
    (h : (β side c != new) = false) : β.set side c new = β := by
  rw [bne, Bool.not_eq_false'] at h
  obtain ⟨hsame, -⟩ := equal_iff.mp h
  funext side' c'
  by_cases hset : side' = side ∧ c' = c
  · obtain ⟨rfl, rfl⟩ := hset
    rw [BoundValues.set_self, hsame]
  · rw [BoundValues.set_of_ne _ _ hset]

/-- While bounds are set, the objective remains the same constraint, and the columns of its
partitions stay where they belong. -/
theorem Carried.objective_placed (h : Carried (.exact .any) d d')
    (hadmissible : (Tracking.exact .any).Admissible d.values)
    (hplaced : ∀ o, d.objective = some o → o.Placed pinned d.model d.values) :
    d'.demand = d.demand ∧ ∀ o', d'.objective = some o' → o'.Placed pinned d.model d'.values := by
  have hall : ∀ after, Relation.ReflTransGen (ObjectiveStep (.exact .any) d.feastol)
      (d.objective, d.values) after → (Tracking.exact .any).Admissible after.2 ∧
        after.1.map (fun o => (o.cutoff, o.costs, o.partitionOf)) = d.demand ∧
        ∀ o, after.1 = some o → o.Placed pinned d.model after.2 := by
    intro after hafter
    induction hafter with
    | refl => exact ⟨hadmissible, rfl, hplaced⟩
    | @tail before after _ hstep ih =>
        obtain ⟨hadmissible, hdemand, hplaced⟩ := ih
        obtain ⟨side, c, new, hnew, hvalues, hobjective⟩ := hstep
        rw [hvalues]
        refine ⟨hadmissible.set hnew, ?_⟩
        rcases hobjective with ⟨hsame, hkept⟩ | ⟨-,
          ⟨hnone, hnone'⟩ | ⟨o, violated, o', ho, hmoved, ho'⟩⟩
        · rw [hkept, set_eq_of_same hsame]
          exact ⟨hdemand, hplaced⟩
        · rw [hnone']
          refine ⟨?_, fun o ho => by cases ho⟩
          rw [← hdemand, hnone]
        · have hconstraint := ObjectivePropagation.boundMoved_same hmoved
          rw [ho']
          refine ⟨?_, fun o'' ho'' => ?_⟩
          · rw [← hdemand, ho, Option.map_some, Option.map_some, hconstraint.cutoff,
              hconstraint.costs, hconstraint.partitionOf]
          · obtain rfl := Option.some.inj ho''
            exact (hplaced o ho).boundMoved (hadmissible side c) hnew hmoved
  obtain ⟨-, hdemand, hplaced'⟩ := hall _ h.objective
  exact ⟨hdemand, hplaced'⟩

/-- The constraints are carried along. -/
theorem Carried.sameConstraints (h : Carried (.exact .any) d d')
    (hsettled : d.Settled (.exact .any))
    (hplaced : ∀ o, d.objective = some o → o.Placed pinned d.model d.values) :
    SameConstraints d d' where
  setting := h.setting
  cuts := by
    funext index id
    refine getElem?_bind_eq h.cuts_size (fun i p' hp' => ?_) index
    obtain ⟨p, hp, hsame⟩ := h.cuts i p' hp'
    exact ⟨p, hp, hsame.cuts id⟩
  conflicts := by
    funext index id
    refine getElem?_bind_eq h.conflicts.length_eq.symm (fun i p' hp' => ?_) index
    obtain ⟨p, hp, hagrees⟩ := forall₂_getElem? h.conflicts hp'
    exact ⟨p, hp, congrFun hagrees.known id⟩
  demand := (h.objective_placed hsettled.admissible hplaced).1

theorem WellMade.carried (h : d.WellMade pinned) (hsettled : d.Settled (.exact .any))
    (hcarried : Carried (.exact .any) d d') : d'.WellMade pinned :=
  (hcarried.sameConstraints hsettled h.placed).wellMade h
    (hcarried.objective_placed hsettled.admissible h.placed).2

end Carried

theorem Changed.column_lt (hsettled : d.Settled (.exact .any)) {crossing : Bool}
    (h : Changed (.exact .any) d change reason crossing d') :
    change.column < d.model.columns.size := by
  obtain ⟨previous, hprevious, -⟩ := h.trail
  rw [← hsettled.coherent.bounds_size change.side]
  exact (Array.getElem?_eq_some_iff.mp hprevious).1

/-- Backtracking keeps the changes before the position to which it goes back. -/
theorem log_kept_backtrackTo {position q : Nat} (hback : d.backtrackTo position = .ok d')
    (hq : q < position) {entry : LogEntry Exact} (hentry : d.log[q]? = some entry) :
    d'.log[q]? = some entry := by
  rcases backtrackTo_eq_ok hback with ⟨-, rfl⟩ | ⟨hlt, -⟩
  · exact hentry
  · obtain ⟨htrail, -, -⟩ := backtrackTo_trail hback hlt
    rw [← trail_log d', htrail, Trail.rewindTo_log, trail_log, Array.take_eq_extract,
      Array.getElem?_extract, if_pos (by omega), Nat.zero_add]
    exact hentry

theorem FixedBefore.of_log {p : Nat} {c : ColumnId} (h : d.FixedBefore p c)
    (hmodel : d'.model = d.model)
    (hlog : ∀ (q : Nat) entry, q < p → d.log[q]? = some entry → d'.log[q]? = some entry) :
    d'.FixedBefore p c := by
  rcases h with hforced | ⟨q, entry, hq, hentry, hfixes⟩
  · exact .inl (hmodel ▸ hforced)
  · exact .inr ⟨q, entry, hq, hlog q entry hq hentry, hfixes⟩

namespace Sound

variable (h : d.Sound a f)

include h

/-- A change that holds at an allowed point leaves the point in the box. -/
theorem allows_changeBound (hx : d.Allows x) (hholds : change.HoldsAt x)
    (hchange : d.changeBound change reason = .ok d') : d'.Allows x := by
  obtain ⟨-, heffect⟩ := changeBound_settled h.settled hholds.not_nan hchange
  rcases heffect with rfl | ⟨-, value, crossing, haccepted, hchanged⟩
  · exact hx
  · have hc := hchanged.column_lt h.settled
    have hvalue : (⟨change.column, change.side, value⟩ : BoundChange Exact).HoldsAt x :=
      acceptedValue_holds (y := x.assignment) hholds (hx.box _ _ hc) (hx.box _ _ hc) haccepted
    refine (hchanged.carried.sameConstraints h.settled h.wellMade.placed).allows hx ?_
    rw [hchanged.values]
    exact BoundValues.Contains.set hx.box hvalue

/-- If a domain admits a point after a change, then it is feasible. -/
theorem feasible_of_admits {value : Exact} {crossing : Bool} (hfeasible : d.infeasible = none)
    (hnan : change.value ≠ nan)
    (haccepted : acceptedValue change.side d.feastol (d.values change.side change.column)
      (d.values change.side.opposite change.column) change.value (reason == .branching) =
        some (value, crossing))
    (hchanged : Changed (.exact .any) d { change with value := value } reason crossing d')
    (hx : d'.Admits x) : d'.infeasible = none := by
  have hc : change.column < d.model.columns.size := (hchanged.column_lt h.settled :)
  have hconstraints := hchanged.carried.sameConstraints h.settled h.wellMade.placed
  have hvalues : d'.values = d.values.set change.side change.column value := hchanged.values
  have htightens := h.shrinking.tightens h.numeric hfeasible (Exact.isNaN_eq_false.mpr hnan) hc
    haccepted
  have hbox := hx.box
  rw [hconstraints.setting.model, hvalues] at hbox
  have hvalue : (⟨change.column, change.side, value⟩ : BoundChange Exact).HoldsAt x := by
    have hself := hbox change.side change.column hc
    rwa [BoundValues.set_self] at hself
  have hbefore : d.values.Contains d.model.columns.size x := fun side c hc' => by
    by_cases hset : side = change.side ∧ c = change.column
    · obtain ⟨rfl, rfl⟩ := hset
      exact hvalue.weaken htightens.tight
    · have hother := hbox side c hc'
      rwa [BoundValues.set_of_ne _ _ hset] at hother
  have hadmits : d.Admits x :=
    hconstraints.symm.admits hx (hconstraints.setting.model ▸ hbefore)
  have hinside : crossing = false := by
    cases crossing with
    | false => rfl
    | true =>
        have hcrosses := tighter_of_crossing haccepted
        rw [Assignment.tighter_opposite_eq_false (a := x.assignment) hvalue (hbefore _ _ hc)]
          at hcrosses
        cases hcrosses
  rcases hchanged.infeasible with hfound | ⟨-, reason', -, hblame⟩
  · rw [hfound, hinside, if_neg Bool.false_ne_true]
  · exact absurd hblame (h.not_blamed hadmits hc htightens.tight hvalue)

/-- A change keeps a domain sound. -/
theorem changeBound (hnan : change.value ≠ nan) (hchange : d.changeBound change reason = .ok d') :
    d'.Sound a f := by
  obtain ⟨hsettled, heffect⟩ := changeBound_settled h.settled hnan hchange
  have hcarried := heffect.carried
  have hmodel := hcarried.setting.model
  have hturns : Turns d d' := .single (.change hchange)
  refine ⟨h.positive, hmodel ▸ h.integer, hmodel ▸ h.readable, hcarried.setting.feastol.trans
    h.feastol,
    hsettled,
    hmodel ▸ h.shrinking.changeBound h.numeric (Exact.isNaN_eq_false.mpr hnan) hchange,
    hmodel ▸ h.forced, fun c hc => (h.pinned c hc).of_log hmodel fun q entry _ hentry => ?_,
    h.wellMade.carried h.settled hcarried, hturns.latchedAtEnd h.latchedAtEnd,
    fun hinfeasible x hx => ?_⟩
  · rcases heffect with rfl | ⟨-, value, crossing, -, hchanged⟩
    · exact hentry
    · obtain ⟨previous, -, htrail⟩ := hchanged.trail
      have hlt := (Array.getElem?_eq_some_iff.mp hentry).1
      rw [← trail_log d', htrail, Trail.append_log, trail_log, Array.getElem?_push,
        if_neg (Nat.ne_of_lt hlt)]
      exact hentry
  rcases heffect with rfl | ⟨hfeasible, value, crossing, haccepted, hchanged⟩
  · exact h.latched hinfeasible x hx
  · exact hinfeasible (h.feasible_of_admits hfeasible hnan haccepted hchanged hx)

/-- Backtracking keeps a domain sound, unless it undoes what the objective was set up with. -/
theorem backtrackTo {position : Nat} (hanchor : a.position ≤ position)
    (hback : d.backtrackTo position = .ok d') : d'.Sound a f := by
  obtain ⟨hsettled, hcarried⟩ := (backtrackTo_returns h.settled position).of_eq_ok hback
  have hmodel := hcarried.setting.model
  have hturns : Turns d d' := .single (.back hback)
  refine ⟨h.positive, hmodel ▸ h.integer, hmodel ▸ h.readable, hcarried.setting.feastol.trans
    h.feastol,
    hsettled, hmodel ▸ h.shrinking.backtrackTo (Trail.fresh_ofModel _) hback,
    hmodel ▸ h.forced, fun c hc => (h.pinned c hc).of_log hmodel fun q entry hq hentry => ?_,
    h.wellMade.carried h.settled hcarried, hturns.latchedAtEnd h.latchedAtEnd,
    fun hinfeasible x hx => ?_⟩
  · exact log_kept_backtrackTo hback (Nat.lt_of_lt_of_le hq hanchor) hentry
  by_cases hlt : position < d.log.size
  · obtain ⟨-, hfiltered, -⟩ := backtrackTo_trail hback hlt
    refine hinfeasible (hfiltered.trans (Option.filter_eq_none_iff.mpr fun i hi => ?_))
    have hlate := h.latchedAtEnd i hi
    simp only [decide_eq_true_eq, not_lt]
    omega
  · rcases backtrackTo_eq_ok hback with ⟨-, rfl⟩ | ⟨hlt', -⟩
    · exact h.latched hinfeasible x hx
    · exact absurd hlt' hlt

/-- Whatever leaves the box alone keeps a domain sound, if an infeasible domain was infeasible
before and admits no point which it did not admit then. -/
theorem still (hstill : Still d d') (hsettled : d'.Settled (.exact .any))
    (hmade : d'.WellMade a.pinned)
    (hadmits : d'.infeasible ≠ none → ∀ x, d'.Admits x → d.infeasible ≠ none ∧ d.Admits x) :
    d'.Sound a f := by
  have hturns : Turns d d' := .single (.keep hstill)
  refine ⟨h.positive, hstill.model ▸ h.integer, hstill.model ▸ h.readable,
    hstill.feastol.trans h.feastol, hsettled, hstill.model ▸ h.shrinking.still hstill,
    hstill.model ▸ h.forced, fun c hc => (h.pinned c hc).of_log hstill.model fun q entry _ hentry =>
      congrArg (fun t => t.log[q]?) hstill.trail ▸ hentry, hmade,
    hturns.latchedAtEnd h.latchedAtEnd, fun hinfeasible x hx => ?_⟩
  obtain ⟨hbefore, hx⟩ := hadmits hinfeasible x hx
  exact h.latched hbefore x hx

end Sound

end Domain

end BranchBound
