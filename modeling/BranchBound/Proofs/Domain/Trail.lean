import BranchBound.Proofs.Domain.Upkeep
import Mathlib.Data.List.Basic

/-!
# Trails

The trail of a domain is its box together with the record of how it came about: the bounds with
the positions of the changes which set them, the log, and the positions of the branching
decisions. A change appends one entry to a trail, and `Trail.rewindTo` takes entries off its end,
putting back the bounds which they replaced. The operations of a domain are read here as
operations of its trail; everything that follows the bounds is left to other modules.
-/

namespace BranchBound

open Checked

/-- The box of a domain and how it came about. -/
structure Trail (α : Type) where
  lower : Array (Bound α)
  upper : Array (Bound α)
  log : Array (LogEntry α)
  branchings : Array Nat

namespace Trail

variable {α : Type}

def bounds (t : Trail α) : Side → Array (Bound α)
  | .lower => t.lower
  | .upper => t.upper

def setBounds (t : Trail α) (side : Side) (bounds : Array (Bound α)) : Trail α :=
  match side with
  | .lower => { t with lower := bounds }
  | .upper => { t with upper := bounds }

@[simp] theorem setBounds_log (t : Trail α) (side : Side) (bounds : Array (Bound α)) :
    (t.setBounds side bounds).log = t.log := by
  cases side <;> rfl

@[simp] theorem setBounds_branchings (t : Trail α) (side : Side) (bounds : Array (Bound α)) :
    (t.setBounds side bounds).branchings = t.branchings := by
  cases side <;> rfl

@[simp] theorem bounds_setBounds (t : Trail α) (side : Side) (bounds : Array (Bound α)) :
    (t.setBounds side bounds).bounds side = bounds := by
  cases side <;> rfl

@[simp] theorem setBounds_setBounds (t : Trail α) (side : Side) (old new : Array (Bound α)) :
    (t.setBounds side old).setBounds side new = t.setBounds side new := by
  cases side <;> rfl

@[simp] theorem setBounds_bounds (t : Trail α) (side : Side) :
    t.setBounds side (t.bounds side) = t := by
  cases side <;> rfl

/-- The trail after a change, which replaced the given bound. -/
def append (t : Trail α) (change : BoundChange α) (reason : Reason) (previous : Bound α) :
    Trail α :=
  { t.setBounds change.side
      ((t.bounds change.side).setIfInBounds change.column ⟨change.value, some t.log.size⟩) with
    log := t.log.push ⟨change, reason, previous⟩
    branchings :=
      if reason == .branching then t.branchings.push t.log.size else t.branchings }

@[simp] theorem bounds_setBounds_opposite (t : Trail α) (side : Side) (bounds : Array (Bound α)) :
    (t.setBounds side bounds).bounds side.opposite = t.bounds side.opposite := by
  cases side <;> rfl

theorem append_bounds (t : Trail α) (change : BoundChange α) (reason : Reason)
    (previous : Bound α) :
    (t.append change reason previous).bounds change.side =
      (t.bounds change.side).setIfInBounds change.column ⟨change.value, some t.log.size⟩ := by
  rcases change with ⟨c, side, value⟩
  cases side <;> rfl

theorem append_bounds_opposite (t : Trail α) (change : BoundChange α) (reason : Reason)
    (previous : Bound α) :
    (t.append change reason previous).bounds change.side.opposite =
      t.bounds change.side.opposite := by
  rcases change with ⟨c, side, value⟩
  cases side <;> rfl

/-- A change leaves the other bounds as they are. -/
theorem append_bounds_of_ne (t : Trail α) {change : BoundChange α} {side : Side} {c : ColumnId}
    (h : ¬(side = change.side ∧ c = change.column)) (reason : Reason) (previous : Bound α) :
    ((t.append change reason previous).bounds side)[c]? = (t.bounds side)[c]? := by
  by_cases hside : side = change.side
  · subst hside
    rw [append_bounds, Array.getElem?_setIfInBounds_ne fun heq => h ⟨rfl, heq.symm⟩]
  · have hopposite : side = change.side.opposite := by
      cases hchange : change.side <;> cases side <;> simp_all [Side.opposite]
    rw [hopposite, append_bounds_opposite]

/-- Puts back the bound which an entry replaced. -/
def restore (t : Trail α) (entry : LogEntry α) : Trail α :=
  t.setBounds entry.change.side
    ((t.bounds entry.change.side).setIfInBounds entry.change.column entry.previous)

/-- Shortens the record, whatever the bounds are. -/
def cut (t : Trail α) (position : Nat) : Trail α :=
  { t with
    log := t.log.take position
    branchings := t.branchings.filter (· < position) }

/-- The trail without the entries from a position onwards. -/
def rewindTo (t : Trail α) (position : Nat) : Trail α :=
  ((t.log.toList.drop position).reverse.foldl restore t).cut position

/-- Every branching decision is an entry of the log. -/
def DecisionsLogged (t : Trail α) : Prop := ∀ p ∈ t.branchings, p < t.log.size

theorem cut_cut (t : Trail α) {p q : Nat} (hqp : q ≤ p) : (t.cut p).cut q = t.cut q := by
  have htake : (t.log.take p).take q = t.log.take q := by
    simp [Nat.min_eq_left hqp]
  have hfilter : (t.branchings.filter (· < p)).filter (· < q) = t.branchings.filter (· < q) := by
    rw [Array.filter_filter]
    refine Array.filter_congr rfl (funext fun b => ?_) rfl (by simp)
    by_cases hb : b < q
    · simp [hb, Nat.lt_of_lt_of_le hb hqp]
    · simp [hb]
  simp only [cut, htake, hfilter]

theorem cut_size (t : Trail α) (ht : t.DecisionsLogged) : t.cut t.log.size = t := by
  have hlog : t.log.take t.log.size = t.log := by simp
  have hbranchings : t.branchings.filter (· < t.log.size) = t.branchings := by
    rw [Array.filter_eq_self]
    intro p hp
    simpa using ht p hp
  simp only [cut, hlog, hbranchings]

theorem restore_cut (t : Trail α) (position : Nat) (entry : LogEntry α) :
    restore (t.cut position) entry = (restore t entry).cut position := by
  unfold restore cut
  cases entry.change.side <;> rfl

/-- Restoring bounds does not look at the record. -/
theorem foldl_restore_cut (t : Trail α) (position : Nat) (entries : List (LogEntry α)) :
    entries.foldl restore (t.cut position) = (entries.foldl restore t).cut position := by
  induction entries generalizing t with
  | nil => rfl
  | cons entry rest ih => rw [List.foldl_cons, restore_cut, ih, List.foldl_cons]

@[simp] theorem foldl_restore_log (t : Trail α) (entries : List (LogEntry α)) :
    (entries.foldl restore t).log = t.log := by
  induction entries generalizing t with
  | nil => rfl
  | cons entry rest ih =>
      rw [List.foldl_cons, ih]
      exact setBounds_log ..

@[simp] theorem foldl_restore_branchings (t : Trail α) (entries : List (LogEntry α)) :
    (entries.foldl restore t).branchings = t.branchings := by
  induction entries generalizing t with
  | nil => rfl
  | cons entry rest ih =>
      rw [List.foldl_cons, ih]
      exact setBounds_branchings ..

@[simp] theorem rewindTo_log (t : Trail α) (position : Nat) :
    (t.rewindTo position).log = t.log.take position := by
  rw [rewindTo, cut, foldl_restore_log]

@[simp] theorem rewindTo_branchings (t : Trail α) (position : Nat) :
    (t.rewindTo position).branchings = t.branchings.filter (· < position) := by
  rw [rewindTo, cut, foldl_restore_branchings]

theorem decisionsLogged_rewindTo (t : Trail α) (ht : t.DecisionsLogged) (position : Nat) :
    (t.rewindTo position).DecisionsLogged := by
  intro p hp
  rw [rewindTo_branchings, Array.mem_filter] at hp
  have hlt : p < position := by simpa using hp.2
  have hlog : p < t.log.size := ht p hp.1
  rw [rewindTo_log, Array.take_eq_extract, Array.size_extract]
  omega

/-- Rewinding a trail to its end changes nothing. -/
theorem rewindTo_size (t : Trail α) (ht : t.DecisionsLogged) :
    t.rewindTo t.log.size = t := by
  have hdrop : t.log.toList.drop t.log.size = [] := by
    rw [List.drop_eq_nil_iff]
    simp
  rw [rewindTo, hdrop]
  exact cut_size t ht

/-- Rewinding in two stages leads to the same trail as rewinding at once. -/
theorem rewindTo_rewindTo (t : Trail α) {p q : Nat} (hqp : q ≤ p) :
    (t.rewindTo p).rewindTo q = t.rewindTo q := by
  have hdrop : (t.log.take p).toList.drop q ++ t.log.toList.drop p = t.log.toList.drop q := by
    have htoList : (t.log.take p).toList = t.log.toList.take p := by simp
    rw [htoList, List.drop_take]
    conv_rhs => rw [← List.take_append_drop (p - q) (t.log.toList.drop q), List.drop_drop]
    rw [Nat.add_sub_cancel' hqp]
  have hundone : (t.log.toList.drop q).reverse =
      (t.log.toList.drop p).reverse ++ ((t.log.take p).toList.drop q).reverse := by
    rw [← List.reverse_append, hdrop]
  calc (t.rewindTo p).rewindTo q
      = (((t.log.take p).toList.drop q).reverse.foldl restore (t.rewindTo p)).cut q := by
        rw [rewindTo, rewindTo_log]
    _ = ((((t.log.take p).toList.drop q).reverse.foldl restore
          ((t.log.toList.drop p).reverse.foldl restore t)).cut p).cut q := by
        rw [rewindTo, foldl_restore_cut]
    _ = t.rewindTo q := by
        rw [cut_cut _ hqp, ← List.foldl_append, ← hundone, rewindTo]

section Append

variable (t : Trail α) (change : BoundChange α) (reason : Reason) (previous : Bound α)

@[simp] theorem append_log :
    (t.append change reason previous).log = t.log.push ⟨change, reason, previous⟩ := rfl

theorem append_branchings :
    (t.append change reason previous).branchings =
      if reason == .branching then t.branchings.push t.log.size else t.branchings := rfl

theorem decisionsLogged_append (ht : t.DecisionsLogged) :
    (t.append change reason previous).DecisionsLogged := by
  intro p hp
  rw [append_log, Array.size_push]
  rw [append_branchings] at hp
  split at hp
  · rcases Array.mem_push.mp hp with hp | rfl
    · exact Nat.lt_succ_of_lt (ht p hp)
    · exact Nat.lt_succ_self _
  · exact Nat.lt_succ_of_lt (ht p hp)

/-- Putting back the bound that the last change replaced gives the box before it. -/
theorem restore_append (h : (t.bounds change.side)[change.column]? = some previous)
    {position : Nat} (hp : position ≤ t.log.size) :
    (restore (t.append change reason previous) ⟨change, reason, previous⟩).cut position =
      t.cut position := by
  have hbounds : ((t.bounds change.side).setIfInBounds change.column
      ⟨change.value, some t.log.size⟩).setIfInBounds change.column previous =
        t.bounds change.side := by
    obtain ⟨hlt, hget⟩ := Array.getElem?_eq_some_iff.mp h
    apply Array.ext
    · simp
    · intro i hi hi'
      by_cases hci : change.column = i
      · subst hci
        simp [hget]
      · rw [Array.getElem_setIfInBounds_ne (by simpa using hi') hci,
          Array.getElem_setIfInBounds_ne hi' hci]
  have htake : (t.log.push ⟨change, reason, previous⟩).take position = t.log.take position := by
    rw [Array.take_eq_extract, Array.extract_push_of_le hp, Array.take_eq_extract]
  have hfilter : (t.append change reason previous).branchings.filter (· < position) =
      t.branchings.filter (· < position) := by
    rw [append_branchings]
    split
    · rw [Array.filter_push, if_neg (by simpa using hp)]
    · rfl
  rcases change with ⟨c, side, value⟩
  cases side with
  | lower =>
      have hlower : (t.lower.setIfInBounds c ⟨value, some t.log.size⟩).setIfInBounds c previous =
          t.lower := hbounds
      simp only [append_branchings] at hfilter
      simp only [restore, append, cut, setBounds, bounds, hlower, htake, hfilter]
  | upper =>
      have hupper : (t.upper.setIfInBounds c ⟨value, some t.log.size⟩).setIfInBounds c previous =
          t.upper := hbounds
      simp only [append_branchings] at hfilter
      simp only [restore, append, cut, setBounds, bounds, hupper, htake, hfilter]

/-- Rewinding a trail with one more entry to a position before that entry is rewinding the trail
without it. -/
theorem rewindTo_append (h : (t.bounds change.side)[change.column]? = some previous)
    {position : Nat} (hp : position ≤ t.log.size) :
    (t.append change reason previous).rewindTo position = t.rewindTo position := by
  have hundone : ((t.append change reason previous).log.toList.drop position).reverse =
      ⟨change, reason, previous⟩ :: (t.log.toList.drop position).reverse := by
    rw [append_log, Array.toList_push, List.drop_append_of_le_length (by simpa using hp),
      List.reverse_append, List.reverse_singleton, List.singleton_append]
  rw [rewindTo, hundone, List.foldl_cons, ← foldl_restore_cut,
    restore_append t change reason previous h hp, foldl_restore_cut, rewindTo]

/-- Rewinding to just before the last entry gives the trail to which it was appended. -/
theorem rewindTo_append_size (ht : t.DecisionsLogged)
    (h : (t.bounds change.side)[change.column]? = some previous) :
    (t.append change reason previous).rewindTo t.log.size = t := by
  rw [rewindTo_append t change reason previous h (Nat.le_refl _), rewindTo_size t ht]

end Append

end Trail

end BranchBound

/-!
## Changes as operations of the trail

Here is said once what `Domain.changeBound` and `Domain.backtrackTo` can do to a domain. A change
either leaves the domain as it is or appends one entry to its trail; backtracking rewinds the
trail. The model, the tolerance, the cliques and the variable bounds never change on the way.
-/

namespace BranchBound

open Checked

namespace Domain

variable {α : Type}

/-- The box of a domain and how it came about. -/
def trail (d : Domain α) : Trail α := ⟨d.lower, d.upper, d.log, d.branchings⟩

@[simp] theorem trail_log (d : Domain α) : d.trail.log = d.log := rfl

@[simp] theorem trail_branchings (d : Domain α) : d.trail.branchings = d.branchings := rfl

@[simp] theorem trail_bounds (d : Domain α) (side : Side) : d.trail.bounds side =
  d.bounds side := by
  cases side <;> rfl

/-- The domain with its box and record replaced. -/
def withTrail (d : Domain α) (t : Trail α) : Domain α :=
  { d with lower := t.lower, upper := t.upper, log := t.log, branchings := t.branchings }

@[simp] theorem withTrail_trail (d : Domain α) (t : Trail α) : (d.withTrail t).trail = t := rfl

theorem setBounds_eq (d : Domain α) (side : Side) (bounds : Array (Bound α)) :
    d.setBounds side bounds = d.withTrail (d.trail.setBounds side bounds) := by
  cases side <;> rfl

/-- The parts of a domain that no operation on bounds changes. -/
structure SameSetting (d d' : Domain α) : Prop where
  model : d'.model = d.model
  feastol : d'.feastol = d.feastol
  cliques : d'.cliques = d.cliques
  variableBounds : d'.variableBounds = d.variableBounds

namespace SameSetting

variable {d d' d'' : Domain α}

theorem refl (d : Domain α) : SameSetting d d := ⟨rfl, rfl, rfl, rfl⟩

theorem trans (h : SameSetting d d') (h' : SameSetting d' d'') : SameSetting d d'' :=
  ⟨h'.model.trans h.model, h'.feastol.trans h.feastol, h'.cliques.trans h.cliques,
    h'.variableBounds.trans h.variableBounds⟩

end SameSetting

namespace Follows

variable {position : Option Nat} {d d' : Domain α}

theorem trail (h : Follows position d d') : d'.trail = d.trail :=
  (congrArg Domain.trail h.core :)

theorem sameSetting (h : Follows position d d') : SameSetting d d' :=
  ⟨h.model, h.feastol, (congrArg Domain.cliques h.core :),
    (congrArg Domain.variableBounds h.core :)⟩

end Follows

/-- The domain with a change logged, before anything follows it. -/
def logged (d : Domain α) (change : BoundChange α) (reason : Reason) (previous : Bound α)
    (crossing : Bool) : Domain α :=
  let logged := d.withTrail (d.trail.append change reason previous)
  if crossing then logged.setInfeasible (.conflictingBounds d.log.size) d.log.size else logged

theorem logged_eq (d : Domain α) (change : BoundChange α) (reason : Reason) (previous : Bound α)
    (crossing : Bool) (hfeasible : d.infeasible = none) :
    d.logged change reason previous crossing =
      { d.withTrail (d.trail.append change reason previous) with
        infeasible := if crossing then some ⟨.conflictingBounds d.log.size, d.log.size⟩
          else none } := by
  cases crossing with
  | false =>
      rw [← hfeasible]
      rfl
  | true =>
      unfold logged setInfeasible
      simp only [if_true]
      have hnone : (d.withTrail (d.trail.append change reason previous)).infeasible = none :=
        hfeasible
      rw [hnone]

theorem logged_follows (d : Domain α) (change : BoundChange α) (reason : Reason)
    (previous : Bound α) (crossing : Bool) :
    Follows (some d.log.size) (d.withTrail (d.trail.append change reason previous))
      (d.logged change reason previous crossing) := by
  cases crossing with
  | false => exact .refl ..
  | true => exact setInfeasible_follows ..

variable [Scalar α]

/-- An applied change is logged, and if it moves the value of its bound, everything follows. -/
theorem applyChange_eq {d : Domain α} {change : BoundChange α} {previous : Bound α}
    (hprevious : (d.bounds change.side)[change.column]? = some previous) (reason : Reason)
    (crossing : Bool) :
    d.applyChange change reason crossing =
      if previous.value != change.value then do
        let followed ← (d.logged change reason previous crossing).boundMoved change.column
          change.side previous.value change.value (some d.log.size)
        followed.markMoved change.column change.side
      else pure (d.logged change reason previous crossing) := by
  have hlt := (Array.getElem?_eq_some_iff.mp hprevious).1
  rcases change with ⟨c, side, value⟩
  simp only [applyChange, bound, fetch_eq_ok.mpr hprevious, ok_bind,
    store_eq_ok.mpr ⟨hlt, rfl⟩]
  cases side <;> rfl

theorem applyChange_eq_ok {d d' : Domain α} {change : BoundChange α} {reason : Reason}
    {crossing : Bool} (h : d.applyChange change reason crossing = .ok d') :
    ∃ previous, (d.bounds change.side)[change.column]? = some previous ∧
      ((previous.value != change.value) = false ∧
          d' = d.logged change reason previous crossing ∨
        (previous.value != change.value) = true ∧
          ∃ followed, (d.logged change reason previous crossing).boundMoved change.column
              change.side previous.value change.value (some d.log.size) = .ok followed ∧
            followed.markMoved change.column change.side = .ok d') := by
  have hfound := h
  simp only [applyChange, bound, bind_eq_ok, fetch_eq_ok] at hfound
  obtain ⟨previous, hprevious, -⟩ := hfound
  refine ⟨previous, hprevious, ?_⟩
  rw [applyChange_eq hprevious] at h
  split at h
  · next hmoved =>
      rw [bind_eq_ok] at h
      exact .inr ⟨hmoved, h⟩
  · next hsame => exact .inl ⟨by simpa using hsame, (pure_eq_ok.mp h).symm⟩

/-- What an applied change does to the trail and to the feasibility. -/
theorem applyChange_trail {d d' : Domain α} {change : BoundChange α} {reason : Reason}
    {crossing : Bool} (h : d.applyChange change reason crossing = .ok d') :
    ∃ previous, (d.bounds change.side)[change.column]? = some previous ∧
      Follows (some d.log.size) (d.withTrail (d.trail.append change reason previous)) d' := by
  obtain ⟨previous, hprevious, hd'⟩ := applyChange_eq_ok h
  refine ⟨previous, hprevious, ?_⟩
  have hlogged := logged_follows d change reason previous crossing
  rcases hd' with ⟨-, rfl⟩ | ⟨-, followed, hmoved, hmark⟩
  · exact hlogged
  · exact (hlogged.trans (boundMoved_follows hmoved)).trans (markMoved_follows _ hmark)

/-- A change leaves the domain as it is or applies the accepted value. -/
theorem changeBound_eq_ok {d d' : Domain α} {change : BoundChange α} {reason : Reason}
    (h : d.changeBound change reason = .ok d') :
    (d.infeasible.isSome ∧ d' = d) ∨
      d.infeasible = none ∧ ∃ current opposite,
        (d.bounds change.side)[change.column]? = some current ∧
        (d.bounds change.side.opposite)[change.column]? = some opposite ∧
        ((acceptedValue change.side d.feastol current.value opposite.value change.value
              (reason == .branching) = none ∧ d' = d) ∨
          ∃ value crossing, acceptedValue change.side d.feastol current.value opposite.value
              change.value (reason == .branching) = some (value, crossing) ∧
            d.applyChange { change with value := value } reason crossing = .ok d') := by
  unfold changeBound at h
  by_cases hinf : d.isInfeasible
  · simp only [hinf, if_true, pure_eq_ok] at h
    exact .inl ⟨hinf, h.symm⟩
  · have hnone : d.infeasible = none := by simpa [isInfeasible] using hinf
    simp only [hinf, if_false, Bool.false_eq_true] at h
    by_cases hcolumn : d.columnCount ≤ change.column
    · simp only [hcolumn, if_true, throw_bind, throw_ne_ok] at h
    · simp only [hcolumn, if_false, boundValue, bound, bind_eq_ok, fetch_eq_ok, pure_eq_ok] at h
      obtain ⟨_, ⟨current, hcurrent, rfl⟩, _, ⟨opposite, hopposite, rfl⟩, h⟩ := h
      refine .inr ⟨hnone, current, opposite, hcurrent, hopposite, ?_⟩
      split at h
      · next hignored => exact .inl ⟨hignored, (pure_eq_ok.mp h).symm⟩
      · next value crossing haccepted => exact .inr ⟨value, crossing, haccepted, h⟩

/-- What a change does to the trail and to the feasibility: nothing, or one entry is appended. -/
theorem changeBound_trail {d d' : Domain α} {change : BoundChange α} {reason : Reason}
    (h : d.changeBound change reason = .ok d') :
    d' = d ∨ d.infeasible = none ∧ ∃ value previous,
      (d.bounds change.side)[change.column]? = some previous ∧
      Follows (some d.log.size)
        (d.withTrail (d.trail.append { change with value := value } reason previous)) d' := by
  rcases changeBound_eq_ok h with
    ⟨-, rfl⟩ | ⟨hnone, current, opposite, -, -, ⟨-, rfl⟩ | ⟨value, crossing, -, happly⟩⟩
  · exact .inl rfl
  · exact .inl rfl
  · obtain ⟨previous, hprevious, hfollows⟩ := applyChange_trail happly
    exact .inr ⟨hnone, value, previous, hprevious, hfollows⟩

/-- Undoing an entry restores the bound that it replaced, and if that moves its value, everything
follows. -/
theorem undo_eq {d : Domain α} {entry : LogEntry α} {current : Bound α}
    (hcurrent : (d.bounds entry.change.side)[entry.change.column]? = some current) :
    d.undo entry =
      if current.value != entry.previous.value then do
        let followed ← (d.withTrail (d.trail.restore entry)).boundMoved entry.change.column
          entry.change.side current.value entry.previous.value none
        followed.markMoved entry.change.column entry.change.side
      else pure (d.withTrail (d.trail.restore entry)) := by
  have hlt := (Array.getElem?_eq_some_iff.mp hcurrent).1
  simp only [undo, boundValue, bound, fetch_eq_ok.mpr hcurrent, ok_bind, pure_bind,
    store_eq_ok.mpr ⟨hlt, rfl⟩]
  rw [setBounds_eq, ← trail_bounds]
  rfl

theorem undo_eq_ok {d d' : Domain α} {entry : LogEntry α} (h : d.undo entry = .ok d') :
    ∃ current, (d.bounds entry.change.side)[entry.change.column]? = some current ∧
      ((current.value != entry.previous.value) = false ∧
          d' = d.withTrail (d.trail.restore entry) ∨
        (current.value != entry.previous.value) = true ∧
          ∃ followed, (d.withTrail (d.trail.restore entry)).boundMoved entry.change.column
              entry.change.side current.value entry.previous.value none = .ok followed ∧
            followed.markMoved entry.change.column entry.change.side = .ok d') := by
  have hfound := h
  simp only [undo, boundValue, bound, bind_eq_ok, fetch_eq_ok, pure_eq_ok] at hfound
  obtain ⟨_, ⟨current, hcurrent, -⟩, -⟩ := hfound
  refine ⟨current, hcurrent, ?_⟩
  rw [undo_eq hcurrent] at h
  split at h
  · next hmoved =>
      rw [bind_eq_ok] at h
      exact .inr ⟨hmoved, h⟩
  · next hsame => exact .inl ⟨by simpa using hsame, (pure_eq_ok.mp h).symm⟩

theorem undo_follows {d d' : Domain α} {entry : LogEntry α} (h : d.undo entry = .ok d') :
    Follows none (d.withTrail (d.trail.restore entry)) d' := by
  obtain ⟨current, -, ⟨-, rfl⟩ | ⟨-, followed, hmoved, hmark⟩⟩ := undo_eq_ok h
  · exact .refl ..
  · exact (boundMoved_follows hmoved).trans (markMoved_follows _ hmark)

theorem foldlM_undo_follows {d d' : Domain α} {entries : List (LogEntry α)}
    (h : entries.foldlM undo d = .ok d') :
    Follows none (d.withTrail (entries.foldl Trail.restore d.trail)) d' := by
  induction entries generalizing d with
  | nil =>
      obtain rfl := pure_eq_ok.mp h
      exact .refl ..
  | cons entry rest ih =>
      rw [List.foldlM_cons, bind_eq_ok] at h
      obtain ⟨undone, hundo, hrest⟩ := h
      have hfirst := undo_follows hundo
      have hothers := ih hrest
      rw [hfirst.trail] at hothers
      refine ⟨hothers.core.trans ?_, hothers.latched.of_none ▸ ?_⟩
      · exact congrArg (fun e : Domain α => e.withTrail
          (rest.foldl Trail.restore (d.trail.restore entry))) hfirst.core
      · exact hfirst.latched

/-- The domain before the entries from a position onwards are undone: the record is shortened. -/
def shortened (d : Domain α) (position : Nat) : Domain α := d.withTrail (d.trail.cut position)

/-- Backtracking undoes the end of the log and then settles the feasibility. -/
theorem backtrackTo_eq_ok {d d' : Domain α} {position : Nat}
    (h : d.backtrackTo position = .ok d') :
    (d.log.size ≤ position ∧ d' = d) ∨
      position < d.log.size ∧ ∃ undone,
        (d.log.toList.drop position).reverse.foldlM undo (d.shortened position) = .ok undone ∧
        d' = { undone with
          infeasible := undone.infeasible.filter fun i => i.position < position
          implicationCursor := min undone.implicationCursor position } := by
  unfold backtrackTo at h
  split at h
  · next hle => exact .inl ⟨hle, (pure_eq_ok.mp h).symm⟩
  · next hlt =>
      simp only [bind_eq_ok, pure_eq_ok] at h
      obtain ⟨undone, hundone, rfl⟩ := h
      exact .inr ⟨Nat.lt_of_not_le hlt, undone, hundone, rfl⟩

/-- Backtracking to a position before the end of the log rewinds the trail, and an infeasibility
found from that position onwards is forgotten. -/
theorem backtrackTo_trail {d d' : Domain α} {position : Nat}
    (h : d.backtrackTo position = .ok d') (hp : position < d.log.size) :
    d'.trail = d.trail.rewindTo position ∧
      d'.infeasible = d.infeasible.filter (fun i => i.position < position) ∧
      SameSetting d d' := by
  rcases backtrackTo_eq_ok h with ⟨hle, -⟩ | ⟨-, undone, hundone, rfl⟩
  · exact absurd hp (Nat.not_lt_of_le hle)
  · have hfollows := foldlM_undo_follows hundone
    refine ⟨?_, ?_, ?_⟩
    · calc undone.trail
          = (d.log.toList.drop position).reverse.foldl Trail.restore (d.trail.cut position) :=
            hfollows.trail
        _ = d.trail.rewindTo position := Trail.foldl_restore_cut ..
    · change undone.infeasible.filter (fun i => i.position < position) = _
      rw [hfollows.latched.of_none]
      rfl
    · have hsetting := hfollows.sameSetting
      exact ⟨hsetting.model, hsetting.feastol, hsetting.cliques, hsetting.variableBounds⟩

end Domain

end BranchBound
