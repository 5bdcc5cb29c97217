import BranchBound.Implication.Probing
import BranchBound.Proofs.Coverage.SparedRuns
import BranchBound.Proofs.Domain.FixedPoint

/-!
# Answers that hold

To find out what follows from fixing a column, it is fixed in a copy of the domain. The points of
the box with that value stay in the copy, whatever is propagated there. So the bounds that became
tighter hold at them, and the copy stays feasible if there is such a point. This is about the points
and not about the box. So an answer stays right when it is given again after the box has become
smaller.
-/

namespace BranchBound

open Checked Exact BranchBound.Action

variable {x : Point} {f : ℚ} {a : Domain.Anchor}

namespace PropagationState

variable {s s' : PropagationState Exact} {pools : Pools Exact} {d d' : Domain Exact}
  {reason : Reason}

/-- A point is in the box of a state, and everything that the state was told holds there. -/
structure Keeps (x : Point) (s : PropagationState Exact) : Prop where
  spares : s.Spares x
  box : s.domain.values.Contains s.domain.model.columns.size x

namespace Keeps

theorem allows (h : s.Keeps x) : s.Allows x := h.spares.allows h.box

theorem withPools (h : s.Keeps x) (hsame : s.pools.SameContents pools) :
    Keeps x { s with pools := pools } :=
  ⟨h.spares.withPools hsame, h.box⟩

theorem changeBound (h : Keeps x ⟨pools, d⟩) (hd : d.Sound a f) {change : BoundChange Exact}
    (hholds : change.HoldsAt x) (hchange : d.changeBound change reason = .ok d') :
    Keeps x ⟨pools, d'⟩ := by
  have hcarried := (Domain.changeBound_settled hd.settled hholds.not_nan hchange).2.carried
  exact ⟨h.spares.carried hd hcarried, (hd.allows_changeBound h.allows.domain hholds hchange).box⟩

/-- The feasible points are in the box of the model. -/
theorem ofModel {m : Model Exact} {feastol : Exact} (hx : m.Feasible x)
    (hd : Domain.ofModel m feastol = .ok d) : Keeps x ⟨.empty, d⟩ := by
  obtain ⟨hobjective, hcliques, hbounds, rfl, -⟩ := Domain.ofModel_untold hd
  obtain ⟨hcuts, hconflicts⟩ := Domain.ofModel_pools hd
  refine ⟨⟨hx.rows, ?_,
    ?_, by simp [hcliques], by simp [hbounds], by simp [hobjective], ?_, ?_⟩, ?_⟩
  · simp [Domain.cut?, hcuts]
  · simp [Domain.conflict?, hconflicts]
  · exact fun _ _ _ _ hpool => by simp [Pools.empty] at hpool
  · exact fun _ _ _ _ hpool => by simp [Pools.empty] at hpool
  · rw [← Domain.trail_values, Domain.ofModel_trail hd]
    exact hx.inModel

/-- Both changes of a fixing hold at the points with its value. -/
theorem fixColumn (h : Keeps x ⟨pools, d⟩) (hd : d.Sound a f) {c : ColumnId} {value : Exact}
    (hvalue : value = number (x c : ℚ)) (hfix : d.fixColumn c value reason = .ok d') :
    Keeps x ⟨pools, d'⟩ := by
  refine (Domain.fixColumn_keeps (P := fun e => e.Sound a f ∧ Keeps x ⟨pools, e⟩)
    (fun e e' change hchange he hchanged => ?_) hfix ⟨hd, h⟩).2
  have hholds : change.HoldsAt x := by
    subst hvalue
    rcases hchange with rfl | rfl
    · exact Exact.le_refl (by simp [BoundChange.atLeast])
    · exact Exact.le_refl (by simp [BoundChange.atMost])
  exact ⟨he.1.changeBound hholds.not_nan hchanged, he.2.changeBound he.1 hholds hchanged⟩

theorem advances (h : s.Keeps x) (hs : s.Sound a f) (hadvances : Advances s s') : s'.Keeps x := by
  induction hadvances with
  | refl => exact h
  | tail hbefore hadvance ih =>
      have hsound := Advances.sound hs hbefore
      exact ⟨ih.spares.advance hsound hadvance, (hadvance.allows hsound ih.allows).domain.box⟩

end Keeps

end PropagationState

/-- Whether an operation takes changes back. -/
def Operation.undoes {α : Type} : Operation α → Bool
  | setStack _ _ | backtrackTo _ | backtrack | backtrackToGlobal => true
  | _ => false

/-- An operation tightens bounds only to values that hold at a point, and tells nothing that does
not hold there. -/
def Operation.AgreesWith (x : Point) (s : PropagationState Exact) : Operation Exact → Prop
  | changeBound change _ => change.HoldsAt x
  | fixColumn c value _ => value = number (x c : ℚ)
  | op => op.Respects (.ofModel s.domain.model) x s

section Operations

variable {s s' : PropagationState Exact} {op : Operation Exact} (hs : s.Sound a f)
  (hforward : op.undoes = false) (hperform : op.perform s = .ok s')

include hs hforward hperform

theorem PropagationState.Keeps.perform (h : s.Keeps x) {pinned : ColumnId → Prop}
    (hop : op.ProperFor pinned s) (hagrees : op.AgreesWith x s) : s'.Keeps x := by
  cases hmoves : op.movesBounds with
  | false =>
      have hstill := Operation.still hmoves hperform
      have hrespects : op.Respects (.ofModel s.domain.model) x s := by
        cases op with
        | changeBound _ _ | fixColumn _ _ _ => cases hmoves
        | _ => exact hagrees
      refine ⟨Operation.spares h.spares hop hrespects hmoves hperform, ?_⟩
      rw [hstill.model]
      exact Domain.contains_of_trail_eq hstill.trail h.box
  | true =>
      cases op with
      | propagate =>
          simp only [Operation.perform, bind_eq_ok, pure_eq_ok] at hperform
          obtain ⟨⟨pools, d⟩, hpropagate, rfl⟩ := hperform
          exact h.advances hs (Domain.propagate_advances hpropagate)
      | changeBound change reason =>
          rw [Operation.perform, onDomain_eq_ok] at hperform
          obtain ⟨d', hd', rfl⟩ := hperform
          exact h.changeBound hs.domain hagrees hd'
      | fixColumn c value reason =>
          rw [Operation.perform, onDomain_eq_ok] at hperform
          obtain ⟨d', hd', rfl⟩ := hperform
          exact h.fixColumn hs.domain hagrees hd'
      | setStack _ _ | backtrackTo _ | backtrack | backtrackToGlobal => cases hforward
      | _ => cases hmoves

/-- An operation that undoes nothing keeps a state sound. The objective may be set up whatever
columns are fixed to one by then. -/
theorem Operation.sound_forward (hop : op.ProperFor s.domain.FixedToOne s) :
    ∃ a', s'.Sound a' f := by
  cases hmoves : op.movesBounds with
  | false =>
      by_cases hnone : s.domain.objective = none
      · have hanchored : s.Sound ⟨s.domain.log.size, s.domain.FixedToOne⟩ f :=
          ⟨hs.domain.reanchor hnone, hs.settled, hs.attached, hs.wellPooled⟩
        exact ⟨_, Operation.sound_still hanchored hop.suitable hmoves hperform⟩
      · have hproper : op.ProperFor a.pinned s := by
          cases op with
          | setupObjective _ => exact absurd hop.1 hnone
          | _ => exact hop
        exact ⟨a, Operation.sound_still hs hproper.suitable hmoves hperform⟩
  | true =>
      refine ⟨a, ?_⟩
      cases op with
      | propagate =>
          simp only [Operation.perform, bind_eq_ok, pure_eq_ok] at hperform
          obtain ⟨⟨pools, d⟩, hpropagate, rfl⟩ := hperform
          exact Advances.sound hs (Domain.propagate_advances hpropagate)
      | changeBound change reason =>
          rw [Operation.perform, PropagationState.onDomain_eq_ok] at hperform
          obtain ⟨d', hd', rfl⟩ := hperform
          exact hs.changeBound hop hd'
      | fixColumn c value reason =>
          rw [Operation.perform, PropagationState.onDomain_eq_ok] at hperform
          obtain ⟨d', hd', rfl⟩ := hperform
          exact hs.fixColumn hop hd'
      | setStack _ _ | backtrackTo _ | backtrack | backtrackToGlobal => cases hforward
      | _ => cases hmoves

end Operations

/-- The value of a fixing as a number. -/
theorem BinaryLiteral.HoldsAt.value {c : ColumnId} {value : Bool}
    (h : BinaryLiteral.HoldsAt ⟨c, value⟩ x) :
    (if value then 1 else 0 : Exact) = number (x c : ℚ) := by
  unfold BinaryLiteral.HoldsAt at h
  rw [h]
  cases value <;> simp

/-- What is said to follow from a fixing holds at a point. That the fixing is impossible holds at
none. -/
def Consequences.HoldAt (x : Point) : Consequences Exact → Prop
  | .ok changes => ∀ change ∈ changes, change.HoldsAt x
  | .error _ => False

namespace Domain

variable {d : Domain Exact}

theorem Sound.fixColumn_succeeds (h : d.Sound a f) {c : ColumnId} (hc : c < d.model.columns.size)
    {value : Exact} (hvalue : value ≠ nan) (reason : Reason) :
    Succeeds (d.fixColumn c value reason) := by
  have hchange : ∀ e : Domain Exact, e.Settled (.exact .any) → e.model = d.model →
      ∀ change : BoundChange Exact, change.column = c → change.value = value →
        Returns (e.changeBound change reason) fun e' =>
          e'.Settled (.exact .any) ∧ e'.model = d.model := by
    intro e he hmodel change hcolumn hgiven
    have hlt : change.column < e.model.columns.size := by
      rw [hmodel, hcolumn]
      exact hc
    refine (changeBound_returns he hlt (hgiven.symm ▸ hvalue) reason).mono fun e' _ he' => ?_
    exact ⟨he'.1, he'.2.carried.setting.model.trans hmodel⟩
  simp only [fixColumn, ← ite_bind]
  refine (h.settled.boundValue_succeeds .lower hc).bind fun lower _ => ?_
  refine Returns.bind (P := fun e => e.Settled (.exact .any) ∧
    e.model = d.model) ?_ fun e _ he => ?_
  · split
    · exact hchange d h.settled rfl _ rfl rfl
    · exact .pure ⟨h.settled, rfl⟩
  · refine (he.1.boundValue_succeeds .upper (he.2.symm ▸ hc)).bind fun upper _ => ?_
    split
    · exact (hchange e he.1 he.2 _ rfl rfl).succeeds
    · exact succeeds_pure e

theorem propagate_eq_ok {pools pools' : Pools Exact} {d' : Domain Exact} :
    d.propagate pools = .ok (pools', d') ↔
      PropagationStep.propagate.perform ⟨pools, d⟩ = (.ok (), ⟨pools', d'⟩) := by
  simp only [Domain.propagate, bind_eq_ok, pure_eq_ok, Prod.mk.injEq]
  constructor
  · rintro ⟨⟨_, after⟩, hfinish, rfl, rfl⟩
    exact finish_eq_ok.mp hfinish
  · intro hperform
    exact ⟨_, finish_eq_ok.mpr hperform, rfl, rfl⟩

end Domain

/-- Propagation leaves the contents of the pools alone. -/
theorem Advances.contents {s s' : PropagationState Exact} (h : Advances s s') :
    s.pools.SameContents s'.pools := by
  induction h with
  | refl => exact .refl _
  | tail _ hadvance ih => exact ih.trans hadvance.contents

namespace Implications

variable {s : PropagationState Exact} {d after : Domain Exact} {pools pools' : Pools Exact}
  {c : ColumnId} {value : Bool} {i i' : Implications Exact}

theorem probe_eq_ok : (probe d c value).perform pools = (.ok after, pools') ↔
    ∃ copy, d.fixColumn c (if value then 1 else 0) .branching = .ok copy ∧
      copy.propagate pools = .ok (pools', after) := by
  simp only [probe, perform_bind_eq_ok, perform_lift, perform_get, perform_set, perform_pure,
    Prod.mk.injEq, Except.ok.injEq, Domain.propagate_eq_ok]
  constructor
  · rintro ⟨copy, _, ⟨hfix, rfl⟩, _, _, ⟨rfl, rfl⟩, _, _, ⟨-, rfl⟩, _, _,
      ⟨houtcome, rfl⟩, rfl, rfl⟩
    exact ⟨copy, hfix, Prod.ext houtcome rfl⟩
  · rintro ⟨copy, hfix, hperform⟩
    refine ⟨copy, _, ⟨hfix, rfl⟩, _, _, ⟨rfl, rfl⟩, ?_⟩
    rw [hperform]
    exact ⟨(), _, ⟨trivial, rfl⟩, (), _, ⟨rfl, rfl⟩, rfl, rfl⟩

theorem probe_model (hprobe : (probe d c value).perform pools = (.ok after, pools')) :
    after.model = d.model := by
  obtain ⟨copy, hfix, hpropagate⟩ := probe_eq_ok.mp hprobe
  have hadvances := Domain.propagate_advances hpropagate
  exact (Advances.setting hadvances).model.trans (Domain.fixColumn_sameSetting hfix).model

/-- A probe leaves the contents of the pools alone. -/
theorem probe_contents (hprobe : (probe d c value).perform pools = (.ok after, pools')) :
    pools.SameContents pools' := by
  obtain ⟨copy, -, hpropagate⟩ := probe_eq_ok.mp hprobe
  exact Advances.contents (Domain.propagate_advances hpropagate)

section Probe

variable (h : PropagationState.Sound a f ⟨pools, d⟩)

include h

theorem copy_sound {copy : Domain Exact}
    (hfix : d.fixColumn c (if value then 1 else 0) .branching = .ok copy) :
    PropagationState.Sound a f ⟨pools, copy⟩ := by
  refine h.fixColumn ?_ hfix
  cases value <;> simp

/-- The points with the value of the fixing stay in the copy. -/
theorem probe_keeps (hx : PropagationState.Keeps x ⟨pools, d⟩)
    (hvalue : BinaryLiteral.HoldsAt ⟨c, value⟩ x)
    (hprobe : (probe d c value).perform pools = (.ok after, pools')) :
    PropagationState.Sound a f ⟨pools', after⟩ ∧ PropagationState.Keeps x ⟨pools', after⟩ := by
  obtain ⟨copy, hfix, hpropagate⟩ := probe_eq_ok.mp hprobe
  have hsound := copy_sound h hfix
  have hadvances := Domain.propagate_advances hpropagate
  have hcopy := hx.fixColumn h.domain hvalue.value hfix
  exact ⟨Advances.sound hsound hadvances, hcopy.advances hsound hadvances⟩

/-- If there is such a point, then the probe returns. -/
theorem probe_returns (hx : PropagationState.Keeps x ⟨pools, d⟩)
    (hc : c < d.model.columns.size) (hvalue : BinaryLiteral.HoldsAt ⟨c, value⟩ x) :
    ∃ after pools', (probe d c value).perform pools = (.ok after, pools') := by
  have hnan : (if value then 1 else 0 : Exact) ≠ nan := by
    rw [hvalue.value]
    simp
  obtain ⟨copy, hfix, -⟩ := h.domain.fixColumn_succeeds hc hnan .branching
  have hsound := copy_sound h hfix
  have hcopy := hx.fixColumn h.domain hvalue.value hfix
  obtain ⟨⟨pools', after⟩, hpropagate, -⟩ := hsound.propagate_returns hcopy.allows
  exact ⟨after, pools', probe_eq_ok.mpr ⟨copy, hfix, hpropagate⟩⟩

end Probe

/-- What became tighter in a domain holds at the points of its box. -/
theorem tightenings_hold {before after : Domain Exact} {columns : List ColumnId}
    {changes : List (BoundChange Exact)}
    (hx : after.values.Contains after.model.columns.size x)
    (hcolumns : ∀ c ∈ columns, c < after.model.columns.size)
    (htighter : tightenings before after c columns = .ok changes) :
    ∀ change ∈ changes, change.HoldsAt x := by
  induction columns generalizing changes with
  | nil =>
      cases htighter
      simp
  | cons k rest ih =>
      simp only [tightenings, bind_eq_ok] at htighter
      obtain ⟨others, hothers, htighter⟩ := htighter
      have hrest := ih (fun c hc => hcolumns c (List.mem_cons_of_mem _ hc)) hothers
      split at htighter
      · rw [← pure_eq_ok.mp htighter]
        exact hrest
      simp only [bind_eq_ok, pure_eq_ok] at htighter
      obtain ⟨lower, hlower, upper, hupper, _, -, _, -, rfl⟩ := htighter
      have hk := hcolumns k (List.mem_cons_self ..)
      rw [Domain.boundValue_eq_ok hlower, Domain.boundValue_eq_ok hupper]
      intro change hchange
      simp only [List.mem_append] at hchange
      rcases hchange with (hraised | hlowered) | hother
      · split at hraised
        · rw [List.mem_singleton.mp hraised]
          exact hx .lower k hk
        · cases hraised
      · split at hlowered
        · rw [List.mem_singleton.mp hlowered]
          exact hx .upper k hk
        · cases hlowered
      · exact hrest change hother

/-- The consequences which were computed so far hold at a point if the fixing does. -/
def KnownAt (x : Point) (i : Implications Exact) : Prop :=
  ∀ c value found, ((c, value), found) ∈ i.known → BinaryLiteral.HoldsAt ⟨c, value⟩ x →
  found.HoldAt x

/-- An answer is known already, or it is computed and known from then on. -/
theorem consequences_eq_ok {answer : Answer Exact}
    (h : (consequences d c value).perform (i, pools) = (.ok answer, i', pools')) :
    (((c, value), answer.consequences) ∈ i.known ∧ i' = i ∧ pools' = pools) ∨
      ∃ probed, (probe d c value).perform pools = (.ok probed, pools') ∧
        consequencesOf d probed c = .ok answer.consequences ∧
          i'.known = ((c, value), answer.consequences) :: i.known := by
  simp only [consequences, perform_bind_eq_ok, perform_get, Prod.mk.injEq, Except.ok.injEq] at h
  obtain ⟨_, _, ⟨rfl, rfl⟩, h⟩ := h
  split at h
  · next known hknown =>
      simp only [perform_pure, Prod.mk.injEq, Except.ok.injEq] at h
      obtain ⟨rfl, rfl, rfl⟩ := h
      obtain ⟨before, after, hsplit, -⟩ := List.lookup_eq_some_iff.mp hknown
      have hmem : ((c, value), known) ∈ i.known := by
        rw [hsplit]
        simp
      exact .inl ⟨hmem, rfl, rfl⟩
  · simp only [perform_bind_eq_ok, perform_within_eq_ok, perform_lift, perform_modify, perform_pure,
      Prod.mk.injEq, Except.ok.injEq] at h
    obtain ⟨probed, _, ⟨next, hprobe, rfl⟩, found, _, ⟨hfound, rfl⟩, _, _,
      ⟨-, rfl⟩, rfl, rfl, rfl⟩ :=
      h
    exact .inr ⟨probed, hprobe, hfound, rfl⟩

theorem consequences_known {known : Consequences Exact}
    (hknown : i.known.lookup (c, value) = some known) :
    (consequences d c value).perform (i, pools) = (.ok ⟨known, none⟩, i, pools) := by
  rw [consequences, perform_bind, perform_get]
  simp only [hknown, perform_pure]

theorem consequences_computed {found : Consequences Exact}
    (hnone : i.known.lookup (c, value) = none)
    (hprobe : (probe d c value).perform pools = (.ok after, pools'))
    (hfound : consequencesOf d after c = .ok found) :
    (consequences d c value).perform (i, pools) =
      (.ok ⟨found, some after⟩, { i with known := ((c, value), found) :: i.known }, pools') := by
  rw [consequences, perform_bind, perform_get]
  simp only [hnone, perform_bind, perform_within, hprobe, perform_lift, hfound, perform_modify,
    perform_pure]

/-- What follows from a probed copy holds at the points that stay in it. -/
theorem consequencesOf_hold {found : Consequences Exact}
    (hs : PropagationState.Sound a f ⟨pools, after⟩) (hx : PropagationState.Keeps x ⟨pools, after⟩)
    (hmodel : after.model = d.model) (hfound : consequencesOf d after c = .ok found) :
    found.HoldAt x := by
  have hfeasible : after.infeasible = none := hx.allows.feasible hs
  rw [consequencesOf, hfeasible] at hfound
  simp only [bind_eq_ok, pure_eq_ok] at hfound
  obtain ⟨changes, htighter, rfl⟩ := hfound
  refine tightenings_hold hx.box (fun k hk => ?_) htighter
  rw [hmodel]
  exact List.mem_range.mp hk

theorem consequencesOf_succeeds (hd : d.Settled (.exact .any))
    (hafter : after.Settled (.exact .any))
    (hmodel : after.model = d.model) (c : ColumnId) : Succeeds (consequencesOf d after c) := by
  have htighter : ∀ columns : List ColumnId, (∀ k ∈ columns, k < d.model.columns.size) →
      Succeeds (tightenings d after c columns) := by
    intro columns hcolumns
    induction columns with
    | nil => exact .ok trivial
    | cons k rest ih =>
        have hk := hcolumns k (List.mem_cons_self ..)
        refine (ih fun k' hk' => hcolumns k' (List.mem_cons_of_mem _ hk')).bind fun others _ => ?_
        split
        · exact succeeds_pure others
        · refine (hafter.boundValue_succeeds .lower (hmodel ▸ hk)).bind fun _ _ => ?_
          refine (hafter.boundValue_succeeds .upper (hmodel ▸ hk)).bind fun _ _ => ?_
          refine (hd.boundValue_succeeds .lower hk).bind fun _ _ => ?_
          exact (hd.boundValue_succeeds .upper hk).bind fun _ _ => succeeds_pure _
  unfold consequencesOf
  split
  · exact succeeds_pure _
  · exact (htighter _ fun k hk => List.mem_range.mp hk).bind fun _ _ => succeeds_pure _

/-! ### Domains that are consulted and tightened in between -/

/-- A domain of a model that lost no feasible point, together with answers that hold at all of
them. -/
structure Faithful (m : Model Exact) (f : ℚ) (i : Implications Exact) (s : PropagationState Exact) :
    Prop where
  sound : ∃ a, s.Sound a f
  model : s.domain.model = m
  keeps : ∀ x, m.Feasible x → s.Keeps x
  known : ∀ x, m.Feasible x → i.KnownAt x

/-- The domain of a model is consulted about fixings. In between it is told and tightened to what
holds at all feasible points, and answers may be forgotten. -/
inductive Consulted (m : Model Exact) (f : ℚ) : Implications Exact → PropagationState Exact → Prop
  | start {d : Domain Exact} (hd : Domain.ofModel m (number f) = .ok d)
      (bounds : VariableBounds Exact) : Consulted m f ⟨bounds, []⟩ ⟨.empty, d⟩
  | perform {i : Implications Exact} {s s' : PropagationState Exact} {op : Operation Exact}
      (h : Consulted m f i s) (hop : op.ProperFor s.domain.FixedToOne s)
      (hforward : op.undoes = false)
      (hagrees : ∀ x, m.Feasible x → op.AgreesWith x s) (hperform : op.perform s = .ok s') :
      Consulted m f i s'
  | consult {i i' : Implications Exact} {s : PropagationState Exact} {pools : Pools Exact}
      {c : ColumnId} {value : Bool} {answer : Answer Exact} (h : Consulted m f i s)
      (hanswer : (consequences s.domain c value).finish (i, s.pools) = .ok (answer, i', pools)) :
      Consulted m f i' ⟨pools, s.domain⟩
  | revise {i i' : Implications Exact} {s : PropagationState Exact} (h : Consulted m f i s)
      (hkept : ∀ entry ∈ i'.known, entry ∈ i.known) : Consulted m f i' s

variable {m : Model Exact}

namespace Faithful

variable (h : Faithful m f i s)

include h

/-- Consulting a domain does not spoil it, and the answer holds at the points with the value of the
fixing. -/
theorem consult {answer : Answer Exact}
    (hanswer : (consequences s.domain c value).finish (i, s.pools) = .ok (answer, i', pools)) :
    Faithful m f i' ⟨pools, s.domain⟩ ∧
      ∀ x, m.Feasible x → BinaryLiteral.HoldsAt ⟨c, value⟩ x → answer.consequences.HoldAt x := by
  rcases consequences_eq_ok (finish_eq_ok.mp hanswer) with
    ⟨hknown, rfl, rfl⟩ | ⟨probed, hprobe, hfound, hknown⟩
  · exact ⟨h, fun x hx => h.known x hx c value _ hknown⟩
  obtain ⟨a, hsound⟩ := h.sound
  have hcontents := probe_contents hprobe
  have hholds : ∀ x, m.Feasible x → BinaryLiteral.HoldsAt ⟨c, value⟩ x →
      answer.consequences.HoldAt x := by
    intro x hx hvalue
    obtain ⟨hafter, hkeeps⟩ := probe_keeps hsound (h.keeps x hx) hvalue hprobe
    exact consequencesOf_hold hafter hkeeps (probe_model hprobe) hfound
  refine ⟨⟨⟨a, hsound.withPools hcontents⟩, h.model,
    fun x hx => (h.keeps x hx).withPools hcontents, ?_⟩,
    hholds⟩
  intro x hx k v found hmem
  rw [hknown] at hmem
  rcases List.mem_cons.mp hmem with hnew | hold
  · cases hnew
    exact hholds x hx
  · exact h.known x hx k v found hold

theorem perform {op : Operation Exact} {s' : PropagationState Exact}
    (hop : op.ProperFor s.domain.FixedToOne s) (hforward : op.undoes = false)
    (hagrees : ∀ x, m.Feasible x → op.AgreesWith x s) (hperform : op.perform s = .ok s') :
    Faithful m f i s' := by
  obtain ⟨a, hsound⟩ := h.sound
  refine ⟨Operation.sound_forward hsound hforward hperform hop, ?_, fun x hx => ?_, h.known⟩
  · exact (Operation.turns hperform).constant.1.trans h.model
  · exact (h.keeps x hx).perform hsound hforward hperform hop (hagrees x hx)

theorem feasible (hx : m.Feasible x) : s.domain.infeasible = none := by
  obtain ⟨a, hsound⟩ := h.sound
  exact (h.keeps x hx).allows.feasible hsound

/-- A fixing that is possible gets an answer. -/
theorem answers (hx : m.Feasible x) (hc : c < m.columns.size)
    (hvalue : BinaryLiteral.HoldsAt ⟨c, value⟩ x) :
    Returns ((consequences s.domain c value).finish (i, s.pools)) fun answer =>
      answer.1.consequences.HoldAt x := by
  suffices hreturns : ∃ answer t, (consequences s.domain c value).perform (i, s.pools) =
    (.ok answer, t) by
    obtain ⟨answer, ⟨i', pools⟩, hanswer⟩ := hreturns
    have hfinish := finish_eq_ok.mpr hanswer
    exact ⟨_, hfinish, (h.consult hfinish).2 x hx hvalue⟩
  cases hknown : i.known.lookup (c, value) with
  | some known => exact ⟨_, _, consequences_known hknown⟩
  | none =>
      obtain ⟨a, hsound⟩ := h.sound
      have hcolumn : c < s.domain.model.columns.size := h.model.symm ▸ hc
      obtain ⟨after, pools, hprobe⟩ := probe_returns hsound (h.keeps x hx) hcolumn hvalue
      have hsettled := (probe_keeps hsound (h.keeps x hx) hvalue hprobe).1.domain.settled
      obtain ⟨found, hfound, -⟩ :=
        consequencesOf_succeeds hsound.domain.settled hsettled (probe_model hprobe) c
      exact ⟨_, _, consequences_computed hknown hprobe hfound⟩

end Faithful

/-- However a domain is consulted and tightened, no feasible point is lost. -/
theorem Consulted.faithful {draft : Draft Exact} (hmodel : draft.build = .ok m)
    (hinteger : m.AllInteger) (hf : 0 < f) (h : Consulted m f i s) : Faithful m f i s := by
  induction h with
  | @start d hd bounds =>
      have hstart : Reachable (fun s op => op.Proper s) m (number f) ⟨.empty, d⟩ := .start hd
      refine ⟨⟨_, hstart.sound hmodel hinteger hf⟩, hstart.constant.1, fun x hx => .ofModel hx hd,
        fun x _ c value found hmem => ?_⟩
      cases hmem
  | perform _ hop hforward hagrees hperform ih => exact ih.perform hop hforward hagrees hperform
  | consult _ hanswer ih => exact (ih.consult hanswer).1
  | revise _ hkept ih =>
      refine ⟨ih.sound, ih.model, ih.keeps, fun x hx c value found hmem => ?_⟩
      exact ih.known x hx c value found (hkept _ hmem)

end Implications

end BranchBound
