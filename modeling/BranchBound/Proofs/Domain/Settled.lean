import BranchBound.Proofs.Domain.Coherence
import Mathlib.Logic.Relation

/-!
# Settled domains

A domain is settled if everything fits its own bounds and its log can be undone. Changes and
backtracking take settled domains to settled domains, and on a settled domain they always return:
no sum loses an infinite term which it does not have.
-/

namespace BranchBound

open Checked

namespace Domain

variable {α : Type} [Scalar α] {T : Tracking α} {β : BoundValues α} {d d' : Domain α}

/-- Domains that differ in nothing that follows the bounds are coherent together. -/
theorem Coherent.congr (h : d.Coherent T β) (hmodel : d'.model = d.model)
    (hbounds : ∀ side, (d'.bounds side).size = (d.bounds side).size)
    (hrowDirty : d'.rowDirty.size = d.rowDirty.size)
    (hmovedSides : d'.movedSides.size = d.movedSides.size)
    (hwaiting : ∀ r ∈ d'.waitingRows, r ∈ d.waitingRows ∨ r < d.model.rows.size)
    (hactivities : d'.activities = d.activities)
    (hcuts : ∀ (i : Nat) p', d'.cutPropagations[i]? = some p' →
      ∃ p, d.cutPropagations[i]? = some p ∧ p.Agrees p')
    (hconflicts : ∀ (i : Nat) p', d'.conflictPropagations[i]? = some p' →
      ∃ p, d.conflictPropagations[i]? = some p ∧ p.Agrees p')
    (hobjective : ∀ o', d'.objective = some o' → ∃ o, d.objective = some o ∧
      o' = { o with cutoff := o'.cutoff, needsPropagation := o'.needsPropagation }) :
    d'.Coherent T β where
  wellFormed := hmodel ▸ h.wellFormed
  coefficients := hmodel ▸ h.coefficients
  costs := hmodel ▸ h.costs
  bounds_size := fun side => by rw [hmodel, hbounds, h.bounds_size]
  rowDirty_size := by rw [hmodel, hrowDirty, h.rowDirty_size]
  movedSides_size := by rw [hmodel, hmovedSides, h.movedSides_size]
  waiting := fun r hr => by
    rw [hmodel]
    exact (hwaiting r hr).elim (h.waiting r) id
  rows := by
    rw [hmodel, hactivities]
    exact h.rows
  cuts := fun i p' hp' => by
    obtain ⟨p, hp, hagrees⟩ := hcuts i p' hp'
    rw [hmodel]
    exact (h.cuts i p hp).of_agrees hagrees
  conflicts := fun i p' hp' => by
    obtain ⟨p, hp, hagrees⟩ := hconflicts i p' hp'
    rw [hmodel, hagrees.occurrences]
    exact h.conflicts i p hp
  objective := fun o' ho' => by
    obtain ⟨o, ho, hsame⟩ := hobjective o' ho'
    rw [hmodel, hsame]
    have hcoherent := h.objective o ho
    exact ⟨⟨hcoherent.costs_size, hcoherent.partitionOf_size, hcoherent.costs, hcoherent.index_lt,
      hcoherent.partitions⟩, hcoherent.contribution, hcoherent.tracks⟩

/-- A bound that moves to an equal value leaves everything coherent. -/
theorem Coherent.set_of_same (h : d.Coherent T β) (hβ : T.Admissible β) {c : ColumnId}
    {side : Side} {new : α} (hnew : T.value new) (hsame : (β side c != new) = false) :
    d.Coherent T (β.set side c new) :=
  { h with
    rows := fun r row hrow => by
      obtain ⟨activity, hactivity, hmin, hmax⟩ := h.rows r row hrow
      exact ⟨activity, hactivity, Tracking.tracks_set_of_same hβ hnew hsame hmin,
        Tracking.tracks_set_of_same hβ hnew hsame hmax⟩
    cuts := fun i p hp => (h.cuts i p hp).set_of_same hβ hnew hsame
    objective := fun o ho => (h.objective o ho).set_of_same hβ hnew hsame }

/-- The objective while one bound is set to an admissible value: it follows if the value of the
bound is another one. -/
def ObjectiveStep (T : Tracking α) (feastol : α)
    (before after : Option (ObjectivePropagation α) × BoundValues α) : Prop :=
  ∃ side c new, T.value new ∧ after.2 = before.2.set side c new ∧
    ((before.2 side c != new) = false ∧ after.1 = before.1 ∨
      (before.2 side c != new) = true ∧
        (before.1 = none ∧ after.1 = none ∨ ∃ o violated o', before.1 = some o ∧
          o.boundMoved c side (before.2 side c) new feastol = .ok (violated, o') ∧
          after.1 = some o'))

/-- What is carried along while bounds are set: the setting, the cuts and the conflicts that are
known stay, and the objective follows. -/
structure Carried (T : Tracking α) (d d' : Domain α) : Prop where
  setting : SameSetting d d'
  cuts_size : d'.cutPropagations.size = d.cutPropagations.size
  cuts : ∀ (i : Nat) p', d'.cutPropagations[i]? = some p' →
    ∃ p, d.cutPropagations[i]? = some p ∧ p.SameCuts p'
  conflicts : List.Forall₂ ConflictPropagation.Agrees d.conflictPropagations.toList
    d'.conflictPropagations.toList
  objective : Relation.ReflTransGen (ObjectiveStep T d.feastol) (d.objective, d.values)
    (d'.objective, d'.values)

theorem Carried.refl (d : Domain α) : Carried T d d :=
  ⟨.refl d, rfl, fun _ p hp => ⟨p, hp, .refl p⟩, List.forall₂_same.mpr fun p _ => .refl p, .refl⟩

theorem Carried.trans {d'' : Domain α} (h : Carried T d d') (h' : Carried T d' d'') :
    Carried T d d'' where
  setting := h.setting.trans h'.setting
  cuts_size := h'.cuts_size.trans h.cuts_size
  cuts := fun i p'' hp'' => by
    obtain ⟨p', hp', hsame'⟩ := h'.cuts i p'' hp''
    obtain ⟨p, hp, hsame⟩ := h.cuts i p' hp'
    exact ⟨p, hp, hsame.trans hsame'⟩
  conflicts := forall₂_trans (fun _ _ _ hxy hyz => hxy.trans hyz) h.conflicts h'.conflicts
  objective := h.objective.trans (h.setting.feastol ▸ h'.objective)

/-- What a domain is once everything follows a bound, which moved or was set to an equal value. -/
structure Followed (T : Tracking α) (β : BoundValues α) (c : ColumnId) (side : Side) (new : α)
    (position : Option Nat) (d d' : Domain α) : Prop where
  core : d'.core = d.core
  blamed : Blamed T β c side (β side c) new position d d'
  coherent : d'.Coherent T (β.set side c new)
  cuts_size : d'.cutPropagations.size = d.cutPropagations.size
  cuts : ∀ (i : Nat) p', d'.cutPropagations[i]? = some p' →
    ∃ p, d.cutPropagations[i]? = some p ∧ p.SameCuts p'
  conflicts : List.Forall₂ ConflictPropagation.Agrees d.conflictPropagations.toList
    d'.conflictPropagations.toList
  objective : ObjectiveStep T d.feastol (d.objective, β) (d'.objective, β.set side c new)

/-- Everything follows a bound that was set, if its value is another one. -/
theorem follow_returns (h : d.Coherent T β) (hβ : T.Admissible β) {c : ColumnId} (side : Side)
    (hc : c < d.model.columns.size) {new : α} (hnew : T.value new) (position : Option Nat) :
    Returns (if β side c != new then do
        let followed ← d.boundMoved c side (β side c) new position
        followed.markMoved c side
      else pure d) (Followed T β c side new position d) := by
  split
  · next hmoved =>
      refine (boundMoved_returns h hβ hc hnew position).bind fun moved _ hfollowed => ?_
      have hmodel : moved.model = d.model := (congrArg Domain.model hfollowed.core :)
      have hlt : c < moved.movedSides.size := by
        rw [hfollowed.coherent.movedSides_size, hmodel]
        exact hc
      refine (markMoved_returns hlt side).mono fun marked _ hmarked => ?_
      obtain ⟨hsame, hsize⟩ := hmarked
      have hcoherent : marked.Coherent T (β.set side c new) := by
        have hagrees : ∀ (i : Nat) p', moved.cutPropagations[i]? = some p' →
            ∃ p, moved.cutPropagations[i]? = some p ∧ p.Agrees p' :=
          fun i p hp => ⟨p, hp, .refl p⟩
        rw [hsame]
        refine hfollowed.coherent.congr rfl (fun side => by cases side <;> rfl) rfl hsize
          (fun _ hr => .inl hr) rfl hagrees (fun i p hp => ⟨p, hp, .refl p⟩)
            (fun o ho => ⟨o, ho, rfl⟩)
      rw [hsame] at hcoherent ⊢
      exact ⟨hfollowed.core, hfollowed.blamed, hcoherent, hfollowed.cuts_size, hfollowed.cuts,
        hfollowed.conflicts,
        side, c, new, hnew, rfl, .inr ⟨hmoved, hfollowed.objective⟩⟩
  · next hsame =>
      have hequal : (β side c != new) = false := by simpa using hsame
      refine .pure ⟨rfl, .inl rfl, h.set_of_same hβ hnew hequal, rfl, fun i p hp =>
        ⟨p, hp, .refl p⟩,
        List.forall₂_same.mpr fun p _ => .refl p, side, c, new, hnew, rfl, .inl ⟨hequal, rfl⟩⟩

/-- A settled domain: everything fits its bounds, and the log can be undone. -/
structure Settled (T : Tracking α) (d : Domain α) : Prop where
  coherent : d.Coherent T d.values
  admissible : T.Admissible d.values
  logged : ∀ entry ∈ d.log,
    entry.change.column < d.model.columns.size ∧ T.value entry.previous.value

theorem values_congr (h : ∀ side, d'.bounds side = d.bounds side) : d'.values = d.values := by
  funext side c
  rw [values, values, h]

/-- Storing a bound sets its value. -/
theorem values_setBounds {t : Trail α} {c : ColumnId} {side : Side} {b : Bound α}
    (ht : t.bounds side = (d.trail.bounds side).setIfInBounds c b)
    (hother : t.bounds side.opposite = d.trail.bounds side.opposite)
    (hc : c < (d.bounds side).size) :
    (d.withTrail t).values = d.values.set side c b.value := by
  rw [trail_bounds] at ht hother
  have hbounds : ∀ side, (d.withTrail t).bounds side = t.bounds side := fun side => by
    cases side <;> rfl
  funext side' c'
  by_cases hside : side' = side
  · subst hside
    by_cases hcolumn : c' = c
    · subst hcolumn
      rw [BoundValues.set_self]
      refine values_eq ?_
      rw [hbounds, ht]
      exact Array.getElem?_setIfInBounds_self_of_lt hc
    · rw [BoundValues.set_of_ne _ _ fun h => hcolumn h.2, values, values, hbounds, ht,
        Array.getElem?_setIfInBounds_ne (Ne.symm hcolumn)]
  · have hopposite : side' = side.opposite := by
      cases side <;> cases side' <;> first | rfl | exact absurd rfl hside
    rw [BoundValues.set_of_ne _ _ fun h => hside h.1, values, values, hbounds, hopposite, hother]

theorem Coherent.setInfeasible (h : d.Coherent T β) (reason : Reason) (position : Nat) :
    (d.setInfeasible reason position).Coherent T β := by
  unfold Domain.setInfeasible
  split
  · exact h
  · exact h.congr rfl (fun side => by cases side <;> rfl) rfl rfl (fun _ hr => .inl hr) rfl
      (fun i p hp => ⟨p, hp, .refl p⟩) (fun i p hp => ⟨p, hp, .refl p⟩) (fun o ho => ⟨o, ho, rfl⟩)

/-- Logging a change leaves what follows the bounds as it is. -/
theorem Coherent.logged (h : d.Coherent T β) (change : BoundChange α) (reason : Reason)
    (previous : Bound α) (crossing : Bool) :
    (d.logged change reason previous crossing).Coherent T β := by
  have hwith : (d.withTrail (d.trail.append change reason previous)).Coherent T β := by
    refine h.congr rfl (fun side => ?_) rfl rfl (fun _ hr => .inl hr) rfl
      (fun i p hp => ⟨p, hp, .refl p⟩) (fun i p hp => ⟨p, hp, .refl p⟩) (fun o ho => ⟨o, ho, rfl⟩)
    rcases change with ⟨c, changed, value⟩
    cases changed <;> cases side <;> first | rfl | exact Array.size_setIfInBounds ..
  cases crossing with
  | false => exact hwith
  | true => exact hwith.setInfeasible ..

theorem Blame.congr {c : ColumnId} {side : Side} {old new : α} {reason : Reason}
    (h : Blame T β c side old new d' reason) (hmodel : d'.model = d.model)
    (hfeastol : d'.feastol = d.feastol) (hcuts : d'.cutPropagations = d.cutPropagations)
    (hobjective : d'.objective = d.objective) : Blame T β c side old new d reason := by
  cases h with
  | rowUpper hrow hmoving hexceeds =>
      exact .rowUpper (hmodel ▸ hrow) hmoving (hfeastol ▸ hexceeds)
  | rowLower hrow hmoving hshort =>
      exact .rowLower (hmodel ▸ hrow) hmoving (hfeastol ▸ hshort)
  | cut hpool hexceeded => exact .cut (hcuts ▸ hpool) (hfeastol ▸ hexceeded)
  | objective ho hmoved hcoherent hviolated =>
      exact .objective (hobjective ▸ ho) (hfeastol ▸ hmoved) (hmodel ▸ hcoherent)
        (hfeastol ▸ hviolated)

/-- What applying a change does to a feasible domain. -/
structure Changed (T : Tracking α) (d : Domain α) (change : BoundChange α) (reason : Reason)
    (crossing : Bool) (d' : Domain α) : Prop where
  trail : ∃ previous, (d.bounds change.side)[change.column]? = some previous ∧
    d'.trail = d.trail.append change reason previous
  carried : Carried T d d'
  values : d'.values = d.values.set change.side change.column change.value
  infeasible :
    d'.infeasible = (if crossing then some ⟨.conflictingBounds d.log.size, d.log.size⟩ else none) ∨
    crossing = false ∧ ∃ reason', d'.infeasible = some ⟨reason', d.log.size⟩ ∧
      Blame T d.values change.column change.side (d.values change.side change.column)
        change.value d reason'

/-- Applying a change to a settled domain always returns, and the domain is settled again. -/
theorem applyChange_returns (h : d.Settled T) (hfeasible : d.infeasible = none)
    (change : BoundChange α) (hc : change.column < d.model.columns.size)
    (hvalue : T.value change.value) (reason : Reason) (crossing : Bool) :
    Returns (d.applyChange change reason crossing) fun d' =>
      d'.Settled T ∧ Changed T d change reason crossing d' := by
  have hlt : change.column < (d.bounds change.side).size := h.coherent.bounds_size _ ▸ hc
  have hprevious := Array.getElem?_eq_getElem hlt
  generalize (d.bounds change.side)[change.column] = previous at hprevious
  have hold : d.values change.side change.column = previous.value := values_eq hprevious
  rw [applyChange_eq hprevious, ← hold]
  have hlogged := logged_eq d change reason previous crossing hfeasible
  have hmodel : (d.logged change reason previous crossing).model = d.model := by rw [hlogged]; rfl
  refine (follow_returns (h.coherent.logged change reason previous crossing) h.admissible
    change.side (hmodel ▸ hc) hvalue (some d.log.size)).mono fun d' _ hd' => ?_
  have htrail : d'.trail = d.trail.append change reason previous := by
    have hcore := congrArg Domain.trail hd'.core
    rw [hlogged] at hcore
    exact hcore
  have hsetting : SameSetting d d' := by
    have hcore := hd'.core
    rw [hlogged] at hcore
    exact ⟨(congrArg Domain.model hcore :), (congrArg Domain.feastol hcore :),
      (congrArg Domain.cliques hcore :), (congrArg Domain.variableBounds hcore :)⟩
  have hvalues : d'.values = d.values.set change.side change.column change.value := by
    have hbounds : ∀ side, d'.bounds side =
        (d.withTrail (d.trail.append change reason previous)).bounds side := fun side => by
      rw [← trail_bounds, ← trail_bounds, htrail]
      rfl
    rw [values_congr hbounds]
    exact values_setBounds (Trail.append_bounds ..) (Trail.append_bounds_opposite ..) hlt
  have hcarried : Carried T d d' := by
    have hcuts := hd'.cuts
    have hconflicts := hd'.conflicts
    have hobjective := hd'.objective
    have hsize := hd'.cuts_size
    rw [hlogged] at hcuts hconflicts hobjective hsize
    exact ⟨hsetting, hsize, hcuts, hconflicts, hvalues ▸ .single hobjective⟩
  refine ⟨⟨hvalues ▸ hd'.coherent, hvalues ▸ h.admissible.set hvalue, fun entry hentry => ?_⟩,
    ⟨previous, hprevious, htrail⟩, hcarried, hvalues, ?_⟩
  · have hlog : d'.log = d.log.push ⟨change, reason, previous⟩ := congrArg Trail.log htrail
    rw [hlog, Array.mem_push] at hentry
    rw [hsetting.model]
    rcases hentry with hentry | rfl
    · exact h.logged entry hentry
    · exact ⟨hc, hold ▸ h.admissible ..⟩
  · have hinfeasible := congrArg Domain.infeasible hlogged
    rcases hd'.blamed with hkept | ⟨hnone, reason', p, hp, hrecorded, hblame⟩
    · exact .inl (hkept.trans hinfeasible)
    · rw [hinfeasible] at hnone
      obtain rfl : d.log.size = p := Option.some.inj hp
      refine .inr ⟨?_, reason', hrecorded, ?_⟩
      · cases crossing with
        | false => rfl
        | true => simp at hnone
      · exact hblame.congr (by rw [hlogged]; rfl) (by rw [hlogged]; rfl) (by rw [hlogged]; rfl)
          (by rw [hlogged]; rfl)

/-- An accepted value is the given one or the value of one of the two bounds. -/
theorem acceptedValue_mem {side : Side} {feastol current opposite value accepted : α}
    {isBranching crossing : Bool}
    (h : acceptedValue side feastol current opposite value isBranching =
      some (accepted, crossing)) :
    accepted = value ∨ accepted = current ∨ accepted = opposite := by
  simp only [acceptedValue] at h
  split at h
  · cases h
  · generalize hgiven : (if side.tightOrEqual current value then current else value) = given at h
    have hmem : given = value ∨ given = current := by
      split at hgiven
      · exact .inr hgiven.symm
      · exact .inl hgiven.symm
    split at h
    · split at h
      · split at h
        · cases h
        · cases h
          exact .inr (.inr rfl)
      · cases h
        exact hmem.imp_right .inl
    · cases h
      exact hmem.imp_right .inl

/-- What is accepted in place of a value that may be a bound may be a bound. -/
theorem Settled.acceptedValue_value (h : d.Settled T) {change : BoundChange α} {accepted : α}
    {isBranching crossing : Bool} (hvalue : T.value change.value)
    (haccepted : acceptedValue change.side d.feastol (d.values change.side change.column)
      (d.values change.side.opposite change.column) change.value isBranching =
        some (accepted, crossing)) : T.value accepted := by
  rcases acceptedValue_mem haccepted with rfl | rfl | rfl
  · exact hvalue
  · exact h.admissible ..
  · exact h.admissible ..

/-- What a change does: nothing, or the accepted value is applied. -/
def Effect (T : Tracking α) (d : Domain α) (change : BoundChange α) (reason : Reason)
    (d' : Domain α) : Prop :=
  d' = d ∨ d.infeasible = none ∧ ∃ value crossing,
    acceptedValue change.side d.feastol (d.values change.side change.column)
      (d.values change.side.opposite change.column) change.value (reason == .branching) =
        some (value, crossing) ∧
    Changed T d { change with value := value } reason crossing d'

theorem Effect.carried {change : BoundChange α} {reason : Reason}
    (h : Effect T d change reason d') : Carried T d d' := by
  rcases h with rfl | ⟨-, value, crossing, -, hchanged⟩
  · exact .refl _
  · exact hchanged.carried

/-- A change takes a settled domain to a settled domain. -/
theorem changeBound_settled (h : d.Settled T) {change : BoundChange α}
    (hvalue : T.value change.value) {reason : Reason}
      (hchange : d.changeBound change reason = .ok d') :
    d'.Settled T ∧ Effect T d change reason d' := by
  rcases changeBound_eq_ok hchange with
    ⟨-, rfl⟩ | ⟨hnone, current, opposite, hcurrent, hopposite, ⟨-, rfl⟩ |
      ⟨value, crossing, haccepted, happly⟩⟩
  · exact ⟨h, .inl rfl⟩
  · exact ⟨h, .inl rfl⟩
  · have hc : change.column < d.model.columns.size := by
      rw [← h.coherent.bounds_size change.side]
      exact (Array.getElem?_eq_some_iff.mp hcurrent).1
    rw [← values_eq hcurrent, ← values_eq hopposite] at haccepted
    obtain ⟨hsettled, hchanged⟩ :=
      (applyChange_returns h hnone { change with value := value } hc
        (h.acceptedValue_value hvalue haccepted) reason crossing).of_eq_ok happly
    exact ⟨hsettled, .inr ⟨hnone, value, crossing, haccepted, hchanged⟩⟩

/-- A change of a bound that exists returns. -/
theorem changeBound_returns (h : d.Settled T) {change : BoundChange α}
    (hc : change.column < d.model.columns.size) (hvalue : T.value change.value) (reason : Reason) :
    Returns (d.changeBound change reason) fun d' => d'.Settled T ∧ Effect T d change reason d' := by
  have hreturns : Returns (d.changeBound change reason) fun _ => True := by
    have hlt : ∀ side, change.column < (d.bounds side).size := fun side =>
      h.coherent.bounds_size side ▸ hc
    unfold changeBound
    split
    · exact .pure trivial
    · next hfeasible =>
        have hnone : d.infeasible = none := by simpa [isInfeasible] using hfeasible
        have hcount : ¬d.columnCount ≤ change.column := Nat.not_le_of_lt (hlt .lower)
        rw [if_neg hcount]
        have hcurrent := Array.getElem?_eq_getElem (hlt change.side)
        have hopposite := Array.getElem?_eq_getElem (hlt change.side.opposite)
        simp only [boundValue, bound, fetch_eq_ok.mpr hcurrent, fetch_eq_ok.mpr hopposite, ok_bind,
          pure_bind]
        split
        · exact .pure trivial
        · next value crossing haccepted =>
            rw [← values_eq hcurrent, ← values_eq hopposite] at haccepted
            exact (applyChange_returns h hnone { change with value := value } hc
              (h.acceptedValue_value hvalue haccepted) reason crossing).mono fun _ _ _ => trivial
  exact hreturns.mono fun d' hd' _ => changeBound_settled h hvalue hd'

/-- Undoing an entry of a settled domain always returns. -/
theorem undo_returns (h : d.Settled T) {entry : LogEntry α}
    (hc : entry.change.column < d.model.columns.size) (hvalue : T.value entry.previous.value) :
    Returns (d.undo entry) fun d' => d'.Settled T ∧ Carried T d d' ∧
      d'.trail = d.trail.restore entry ∧ d'.infeasible = d.infeasible := by
  have hlt : entry.change.column < (d.bounds entry.change.side).size :=
    h.coherent.bounds_size _ ▸ hc
  have hcurrent := Array.getElem?_eq_getElem hlt
  have hold := values_eq hcurrent
  rw [undo_eq hcurrent, ← hold]
  have hrestored : (d.withTrail (d.trail.restore entry)).Coherent T d.values := by
    refine h.coherent.congr rfl (fun side => ?_) rfl rfl (fun _ hr => .inl hr) rfl
      (fun i p hp => ⟨p, hp, .refl p⟩) (fun i p hp => ⟨p, hp, .refl p⟩) (fun o ho => ⟨o, ho, rfl⟩)
    rcases entry with ⟨⟨c, changed, value⟩, reason, previous⟩
    cases changed <;> cases side <;> first | rfl | exact Array.size_setIfInBounds ..
  refine (follow_returns hrestored h.admissible entry.change.side hc hvalue none).mono
    fun d' _ hd' => ?_
  have htrail : d'.trail = d.trail.restore entry := (congrArg Domain.trail hd'.core :)
  have hsetting : SameSetting d d' :=
    ⟨(congrArg Domain.model hd'.core :), (congrArg Domain.feastol hd'.core :),
      (congrArg Domain.cliques hd'.core :), (congrArg Domain.variableBounds hd'.core :)⟩
  have hvalues : d'.values =
      d.values.set entry.change.side entry.change.column entry.previous.value := by
    have hbounds : ∀ side, d'.bounds side =
        (d.withTrail (d.trail.restore entry)).bounds side := fun side => by
      rw [← trail_bounds, ← trail_bounds, htrail]
      rfl
    rw [values_congr hbounds]
    exact values_setBounds (Trail.bounds_setBounds ..) (Trail.bounds_setBounds_opposite ..) hlt
  have hlog : d'.log = d.log := (congrArg Trail.log htrail).trans (Trail.setBounds_log ..)
  refine ⟨⟨hvalues ▸ hd'.coherent, hvalues ▸ h.admissible.set hvalue, fun entry hentry => ?_⟩,
    ⟨hsetting, hd'.cuts_size, hd'.cuts, hd'.conflicts, hvalues ▸ .single hd'.objective⟩, htrail,
    ?_⟩
  · rw [hsetting.model]
    exact h.logged entry (hlog ▸ hentry)
  · rcases hd'.blamed with hkept | ⟨-, reason, p, hp, -⟩
    · exact hkept
    · cases hp

/-- Undoing entries of a settled domain always returns. -/
theorem foldlM_undo_returns (h : d.Settled T) (entries : List (LogEntry α))
    (hentries : ∀ entry ∈ entries,
      entry.change.column < d.model.columns.size ∧ T.value entry.previous.value) :
    Returns (entries.foldlM undo d) fun d' => d'.Settled T ∧ Carried T d d' := by
  induction entries generalizing d with
  | nil => exact .pure ⟨h, .refl d⟩
  | cons entry rest ih =>
      rw [List.foldlM_cons]
      obtain ⟨hc, hvalue⟩ := hentries entry (List.mem_cons_self ..)
      refine (undo_returns h hc hvalue).bind fun next _ hnext => ?_
      obtain ⟨hsettled, hcarried, -⟩ := hnext
      refine (ih hsettled fun entry hentry => ?_).mono fun d' _ hd' =>
        ⟨hd'.1, hcarried.trans hd'.2⟩
      rw [hcarried.setting.model]
      exact hentries entry (List.mem_cons_of_mem _ hentry)

/-- Backtracking of a settled domain always returns. -/
theorem backtrackTo_returns (h : d.Settled T) (position : Nat) :
    Returns (d.backtrackTo position) fun d' => d'.Settled T ∧ Carried T d d' := by
  unfold backtrackTo
  split
  · exact .pure ⟨h, .refl d⟩
  · have hshortened : (d.shortened position).Settled T := by
      refine ⟨h.coherent.congr rfl (fun side => by cases side <;> rfl) rfl rfl
        (fun _ hr => .inl hr) rfl (fun i p hp => ⟨p, hp, .refl p⟩) (fun i p hp => ⟨p, hp, .refl p⟩)
        (fun o ho => ⟨o, ho, rfl⟩), h.admissible, fun entry hentry => h.logged entry ?_⟩
      have hmem : entry ∈ (d.log.take position).toList := Array.mem_toList_iff.mpr hentry
      rw [Array.take_eq_extract, Array.toList_extract, List.extract_eq_take_drop, List.drop_zero]
        at hmem
      exact Array.mem_toList_iff.mp (List.mem_of_mem_take hmem)
    have hundo := foldlM_undo_returns hshortened
      (d.log.toList.drop position).reverse fun entry hentry =>
        h.logged entry (Array.mem_toList_iff.mp (List.mem_of_mem_drop (List.mem_reverse.mp hentry)))
    refine hundo.bind fun undone _ hundone => ?_
    obtain ⟨hsettled, hcarried⟩ := hundone
    refine .pure ⟨⟨?_, hsettled.admissible, hsettled.logged⟩, ?_⟩
    · exact hsettled.coherent.congr rfl (fun side => by cases side <;> rfl) rfl rfl
        (fun _ hr => .inl hr) rfl (fun i p hp => ⟨p, hp, .refl p⟩) (fun i p hp => ⟨p, hp, .refl p⟩)
        (fun o ho => ⟨o, ho, rfl⟩)
    · have hsetting := hcarried.setting
      exact ⟨⟨hsetting.model, hsetting.feastol, hsetting.cliques, hsetting.variableBounds⟩,
        hcarried.cuts_size, hcarried.cuts, hcarried.conflicts, hcarried.objective⟩

end Domain

end BranchBound
