import BranchBound.Domain.Propagation
import BranchBound.Proofs.Domain.Conflicts
import BranchBound.Proofs.Domain.Cuts
import BranchBound.Proofs.Domain.Objective
import BranchBound.Proofs.Domain.Trail
import Mathlib.Data.List.Forall2
import Mathlib.Logic.Relation

/-!
# What propagation can do

Propagation is a loop of visits to constraints of many kinds. What it can do to a domain and the
pools is said once, by the relation `Advance`: constraints are made to wait or taken from the
queues, the news of a pool is read, and changes are made that are derived from a constraint, or an
infeasibility is recorded that refutes one. `Derived` and `Refuted` say what the constraint says in
the domain that was looked at. Everything that is proved about propagation afterwards is proved
for one advance.
-/

namespace BranchBound

open Checked

variable {α : Type}

namespace Domain

/-- Two domains that differ only in which constraints wait for their propagation. -/
structure Requeued (d d' : Domain α) : Prop where
  trail : d'.trail = d.trail
  setting : SameSetting d d'
  infeasible : d'.infeasible = d.infeasible
  activities : d'.activities = d.activities
  rowDirty : d'.rowDirty.size = d.rowDirty.size
  movedSides : d'.movedSides = d.movedSides
  movedColumns : d'.movedColumns = d.movedColumns
  waiting : ∀ r ∈ d'.waitingRows, r ∈ d.waitingRows ∨ d.infeasible ≠ none ∧ r < d.rowDirty.size
  cuts : List.Forall₂ CutPropagation.Agrees d.cutPropagations.toList d'.cutPropagations.toList
  conflicts : List.Forall₂ ConflictPropagation.Agrees d.conflictPropagations.toList
    d'.conflictPropagations.toList
  objective : d'.objective = d.objective ∨ ∃ o, d.objective = some o ∧
    d'.objective = some { o with needsPropagation := false }

theorem Requeued.refl (d : Domain α) : Requeued d d where
  trail := rfl
  setting := .refl d
  infeasible := rfl
  activities := rfl
  rowDirty := rfl
  movedSides := rfl
  movedColumns := rfl
  waiting := fun _ hr => .inl hr
  cuts := List.forall₂_same.mpr fun p _ => .refl p
  conflicts := List.forall₂_same.mpr fun p _ => .refl p
  objective := .inl rfl

theorem requeued_cursor (d : Domain α) (cursor : Nat) :
    d.Requeued { d with implicationCursor := cursor } :=
  { Requeued.refl d with setting := ⟨rfl, rfl, rfl, rfl⟩ }

/-- In an infeasible domain the rows that are left wait again. -/
theorem foldlM_markRowDirty_requeued {d d' : Domain α} {rows : List RowId}
    (hinfeasible : d.infeasible ≠ none) (h : rows.foldlM markRowDirty d = .ok d') :
    d.Requeued d' := by
  obtain ⟨hsame, hsize, hwaiting⟩ :
      d' = { d with waitingRows := d'.waitingRows, rowDirty := d'.rowDirty } ∧
        d'.rowDirty.size = d.rowDirty.size ∧
        ∀ r ∈ d'.waitingRows, r ∈ d.waitingRows ∨ d.infeasible ≠ none ∧ r < d.rowDirty.size := by
    refine foldlM_keeps (P := fun e : Domain α =>
      e = { d with waitingRows := e.waitingRows, rowDirty := e.rowDirty } ∧
        e.rowDirty.size = d.rowDirty.size ∧
        ∀ r ∈ e.waitingRows, r ∈ d.waitingRows ∨ d.infeasible ≠ none ∧ r < d.rowDirty.size) ?_ h
      ⟨rfl, rfl, fun _ hr => .inl hr⟩
    intro e r e' _ he hmark
    refine ⟨?_, (markRowDirty_size hmark).trans he.2.1, fun r' hr' => ?_⟩
    · rw [markRowDirty_eq_ok hmark, he.1]
    · rcases markRowDirty_waiting hmark r' hr' with hr' | ⟨rfl, hlt⟩
      · exact he.2.2 r' hr'
      · exact .inr ⟨hinfeasible, he.2.1 ▸ hlt⟩
  rw [hsame]
  exact { Requeued.refl d with
    rowDirty := hsize
    setting := ⟨rfl, rfl, rfl, rfl⟩
    waiting := hwaiting }

theorem onCuts_eq_ok {d d' : Domain α} {index : Nat} {f : CutPropagation α → CutPropagation α}
    (h : d.onCuts index f = .ok d') :
    ∃ p, d.cutPropagations[index]? = some p ∧
      d' = { d with cutPropagations := d.cutPropagations.setIfInBounds index (f p) } := by
  simp only [onCuts, bind_eq_ok, pure_eq_ok, update_eq_ok] at h
  obtain ⟨_, ⟨p, p', hp, hf, rfl⟩, rfl⟩ := h
  cases hf
  exact ⟨p, hp, rfl⟩

theorem onConflicts_eq_ok {d d' : Domain α} {index : Nat} {f : ConflictPropagation α →
    ConflictPropagation α}
    (h : d.onConflicts index f = .ok d') :
    ∃ p, d.conflictPropagations[index]? = some p ∧
      d' = { d with
        conflictPropagations := d.conflictPropagations.setIfInBounds index (f p) } := by
  simp only [onConflicts, bind_eq_ok, pure_eq_ok, update_eq_ok] at h
  obtain ⟨_, ⟨p, p', hp, hf, rfl⟩, rfl⟩ := h
  cases hf
  exact ⟨p, hp, rfl⟩

/-- A list is related to itself with one element replaced by a related one. -/
theorem forall₂_set {β : Type} {R : β → β → Prop} (hrefl : ∀ x, R x x) {xs : List β} {i : Nat}
    {x y : β} (hx : xs[i]? = some x) (h : R x y) :
    List.Forall₂ R xs (xs.set i y) := by
  induction xs generalizing i with
  | nil => exact .nil
  | cons z zs ih =>
      cases i with
      | zero =>
          obtain rfl : z = x := by simpa using hx
          exact .cons h (List.forall₂_same.mpr fun w _ => hrefl w)
      | succ i => exact .cons (hrefl z) (ih (by simpa using hx))

/-- Replacing what is known of one pool by what agrees with it only changes the queues. -/
theorem requeued_cuts {d : Domain α} {index : Nat} {p p' : CutPropagation α}
    (hp : d.cutPropagations[index]? = some p) (h : p.Agrees p') :
    d.Requeued { d with cutPropagations := d.cutPropagations.setIfInBounds index p' } := by
  refine { Requeued.refl d with setting := ⟨rfl, rfl, rfl, rfl⟩, cuts := ?_ }
  rw [Array.toList_setIfInBounds]
  exact forall₂_set CutPropagation.Agrees.refl (by simpa using hp) h

theorem requeued_conflicts {d : Domain α} {index : Nat} {p p' : ConflictPropagation α}
    (hp : d.conflictPropagations[index]? = some p) (h : p.Agrees p') :
    d.Requeued
      { d with conflictPropagations := d.conflictPropagations.setIfInBounds index p' } := by
  refine { Requeued.refl d with setting := ⟨rfl, rfl, rfl, rfl⟩, conflicts := ?_ }
  rw [Array.toList_setIfInBounds]
  exact forall₂_set ConflictPropagation.Agrees.refl (by simpa using hp) h

variable [Scalar α]

/-- What a constraint says about a bound in a domain: the change that propagation makes, with the
reason it gives. -/
inductive Derived (d : Domain α) : BoundChange α → Reason → Prop
  /-- A logged fixing implies a change through a clique or a variable bound. -/
  | implication {entry : LogEntry α} {c : ColumnId} {value : Bool}
      {implied : List (BoundChange α × Reason)} {change accepted : BoundChange α}
      {reason : Reason} (hentry : entry ∈ d.log) (hfixing : d.fixedBy entry = .ok (some (c, value)))
      (himplied : d.impliedByFixing c value = .ok implied) (hmem : (change, reason) ∈ implied)
      (haccepted : d.acceptedBound change.side change.column (.ofScalar change.value) =
        .ok (some accepted)) :
      Derived d accepted reason
  /-- The upper side of a row implies a change. -/
  | rowUpper {r : RowId} {row : Row α} {activity : Activity α} {entry : ColumnId × α}
      {change : BoundChange α} (hrow : d.model.rows[r]? = some row)
      (hactivity : d.activities[r]? = some activity) (hside : row.upper < Scalar.infinity)
      (hentry : entry ∈ row.entries)
      (hchange : d.impliedChange row.upper activity.min entry = .ok (some change)) :
      Derived d change (.rowUpper r)
  /-- The lower side of a row implies a change. -/
  | rowLower {r : RowId} {row : Row α} {activity : Activity α} {entry : ColumnId × α}
      {change : BoundChange α} (hrow : d.model.rows[r]? = some row)
      (hactivity : d.activities[r]? = some activity) (hside : -Scalar.infinity < row.lower)
      (hentry : entry ∈ row.entries)
      (hchange : d.impliedChange (-row.lower) activity.max.neg (entry.1, -entry.2) =
        .ok (some change)) :
      Derived d change (.rowLower r)
  /-- A cut implies a change. -/
  | cut {index : Nat} {p : CutPropagation α} {id : CutId} {cut : Inequality α}
      {min : PartialSum α} {entry : ColumnId × α} {change : BoundChange α}
      (hpool : d.cutPropagations[index]? = some p) (hknown : p.known id = some (cut, min))
      (hentry : entry ∈ cut.entries)
      (hchange : d.impliedChange cut.rhs min entry = .ok (some change)) :
      Derived d change (.cut index id)
  /-- All literals of a conflict but one hold, and the last one is negated. -/
  | conflict {index : Nat} {p : ConflictPropagation α} {id : ConflictId}
      {literals : List (BoundChange α)} {literal change : BoundChange α}
      (hpool : d.conflictPropagations[index]? = some p) (hknown : p.known id = some literals)
      (hinactive : keepIf (fun literal => do return !(← d.isActive literal)) literals =
        .ok [literal])
      (hchange : d.flip literal = .ok change) :
      Derived d change (.conflict index id)
  /-- The objective implies a change of a column outside of the partitions. -/
  | objective {o : ObjectivePropagation α} {entry : ColumnId × α} {change : BoundChange α}
      (hobjective : d.objective = some o) (hcutoff : (o.cutoff == Scalar.infinity) = false)
      (hentry : entry ∈ o.linearEntries)
      (hchange : d.impliedChange o.cutoff o.min entry = .ok (some change)) :
      Derived d change .objective
  /-- The objective implies a change of a column in a partition. -/
  | partition {o : ObjectivePropagation α} {p : ObjectivePartition α} {change : BoundChange α}
      (hobjective : d.objective = some o) (hcutoff : (o.cutoff == Scalar.infinity) = false)
      (hfinite : o.min.infinite = 0) (hpartition : p ∈ o.partitions)
      (hchange : change ∈ partitionChanges o d.feastol p) :
      Derived d change .objective

/-- A constraint which no point of a domain satisfies, by the reason that is recorded for it. -/
inductive Refuted (d : Domain α) : Reason → Prop
  /-- All literals of a conflict hold. -/
  | conflict {index : Nat} {p : ConflictPropagation α} {id : ConflictId}
      {literals : List (BoundChange α)} (hpool : d.conflictPropagations[index]? = some p)
      (hknown : p.known id = some literals)
      (hinactive : keepIf (fun literal => do return !(← d.isActive literal)) literals = .ok []) :
      Refuted d (.conflict index id)
  /-- The minimal objective value exceeds the cutoff. -/
  | objective {o : ObjectivePropagation α} (hobjective : d.objective = some o)
      (hviolated : o.isViolated d.feastol = true) :
      Refuted d .objective

end Domain

namespace PropagationStep

variable {s s' : PropagationState α}

theorem domain_eq_ok {d : Domain α} :
    domain.perform s = (.ok d, s') ↔ s.domain = d ∧ s = s' := by
  simp only [domain, Action.perform_bind_eq_ok, Action.perform_get, Action.perform_pure,
    Prod.mk.injEq, Except.ok.injEq]
  constructor
  · rintro ⟨_, _, ⟨rfl, rfl⟩, rfl, rfl⟩
    exact ⟨rfl, rfl⟩
  · rintro ⟨rfl, rfl⟩
    exact ⟨s, s, ⟨rfl, rfl⟩, rfl, rfl⟩

theorem onDomain_eq_ok {β : Type} {x : Action (Domain α) β} {b : β} :
    (onDomain x).perform s = (.ok b, s') ↔
      ∃ d', x.perform s.domain = (.ok b, d') ∧ { s with domain := d' } = s' :=
  Action.perform_within_eq_ok

theorem changeDomain_eq_ok {f : Domain α → Checked (Domain α)} {b : Unit} :
    (changeDomain f).perform s = (.ok b, s') ↔
      ∃ d', f s.domain = .ok d' ∧ { s with domain := d' } = s' := by
  rw [changeDomain, onDomain_eq_ok]
  simp only [Action.perform_change_eq_ok]

end PropagationStep

variable [Scalar α]

/-- One thing that propagation can do. -/
inductive Advance : PropagationState α → PropagationState α → Prop
  /-- Constraints are taken from the queues or put back. -/
  | requeue {pools : Pools α} {d d' : Domain α} (h : d.Requeued d') :
      Advance ⟨pools, d⟩ ⟨pools, d'⟩
  /-- The activity of a row is computed anew. -/
  | refresh {pools : Pools α} {d d' : Domain α} {r : RowId} (h : d.refreshActivity r = .ok d') :
      Advance ⟨pools, d⟩ ⟨pools, d'⟩
  /-- The news of a cut pool is read while the domain is feasible. -/
  | readCuts {pools : Pools α} {d : Domain α} {index : Nat} {p p' : CutPropagation α}
      {pool : CutPool α} (hindex : d.cutPropagations[index]? = some p)
      (hpool : pools.cuts[p.pool]? = some pool)
      (h : (CutPropagation.synchronise pool d.lower d.upper).perform p = (.ok (), p'))
      (hfeasible : d.infeasible = none) :
      Advance ⟨pools, d⟩
        ⟨pools, { d with cutPropagations := d.cutPropagations.setIfInBounds index p' }⟩
  /-- The news of a conflict pool is read while the domain is feasible. -/
  | readConflicts {pools : Pools α} {d : Domain α} {index : Nat} {p p' : ConflictPropagation α}
      {pool : ConflictPool α} (hindex : d.conflictPropagations[index]? = some p)
      (hpool : pools.conflicts[p.pool]? = some pool)
      (h : (ConflictPropagation.synchronise pool).perform p = (.ok (), p'))
      (hfeasible : d.infeasible = none) :
      Advance ⟨pools, d⟩
        ⟨pools, { d with conflictPropagations := d.conflictPropagations.setIfInBounds index p' }⟩
  /-- Changes are made which were derived before the first of them. -/
  | change {pools : Pools α} {d d' : Domain α} (changes : List (BoundChange α × Reason))
      (hderived : ∀ x ∈ changes, d.Derived x.1 x.2) (h : d.changeBounds changes = .ok d') :
      Advance ⟨pools, d⟩ ⟨pools, d'⟩
  /-- An infeasibility is recorded. -/
  | refute {pools : Pools α} {d : Domain α} {reason : Reason} (h : d.Refuted reason) :
      Advance ⟨pools, d⟩ ⟨pools, d.markInfeasible reason⟩
  /-- A conflict is young again. -/
  | renew {pools pools' : Pools α} {d : Domain α} {pool : PoolId} {id : ConflictId}
      (h : pools.onConflicts pool (fun p => ((), p.resetAge id)) = .ok ((), pools')) :
      Advance ⟨pools, d⟩ ⟨pools', d⟩

/-- What propagation can do in several steps. -/
abbrev Advances : PropagationState α → PropagationState α → Prop := Relation.ReflTransGen Advance

namespace Domain

variable {pools pools' : Pools α} {d d' : Domain α}

theorem changeBounds_keeps {P : Domain α → Prop} {changes : List (BoundChange α × Reason)}
    (hstep : ∀ d d' x, x ∈ changes → P d → d.changeBound x.1 x.2 = .ok d' → P d')
    (h : d.changeBounds changes = .ok d') (hd : P d) :
    P d' :=
  foldlM_keeps (fun d x d' hx hP hd' => hstep d d' x hx hP hd') h hd

/-- What each of the two changes of a fixing keeps is kept by the fixing. -/
theorem fixColumn_keeps {P : Domain α → Prop} {c : ColumnId} {value : α} {reason : Reason}
    (hstep : ∀ d d' change, change = .atLeast c value ∨ change = .atMost c value → P d →
      d.changeBound change reason = .ok d' → P d')
    (h : d.fixColumn c value reason = .ok d') (hd : P d) : P d' := by
  simp only [fixColumn, ← ite_bind] at h
  simp only [bind_eq_ok] at h
  obtain ⟨lower, -, raised, hraised, upper, -, hlowered⟩ := h
  have hfirst : P raised := by
    split at hraised
    · exact hstep _ _ _ (.inl rfl) hd hraised
    · rw [← pure_eq_ok.mp hraised]
      exact hd
  split at hlowered
  · exact hstep _ _ _ (.inr rfl) hfirst hlowered
  · rw [← pure_eq_ok.mp hlowered]
    exact hfirst

theorem changeBound_sameSetting {change : BoundChange α} {reason : Reason}
    (h : d.changeBound change reason = .ok d') :
    SameSetting d d' := by
  rcases changeBound_trail h with rfl | ⟨-, value, previous, -, hfollows⟩
  · exact .refl _
  · have hsetting := hfollows.sameSetting
    exact ⟨hsetting.model, hsetting.feastol, hsetting.cliques, hsetting.variableBounds⟩

theorem fixColumn_sameSetting {c : ColumnId} {value : α} {reason : Reason}
    (h : d.fixColumn c value reason = .ok d') : SameSetting d d' :=
  fixColumn_keeps (fun _ _ _ _ hsame hchange => hsame.trans (changeBound_sameSetting hchange)) h
    (.refl d)

/-- A change keeps the entries of the log. -/
theorem changeBound_log {change : BoundChange α} {reason : Reason}
    (h : d.changeBound change reason = .ok d') {entry : LogEntry α} (hentry : entry ∈ d.log) :
    entry ∈ d'.log := by
  rcases changeBound_trail h with rfl | ⟨-, value, previous, -, hfollows⟩
  · exact hentry
  · rw [hfollows.log]
    exact Array.mem_push_of_mem _ hentry

theorem changeIfWorthwhile_eq_ok {change : BoundChange α} {reason : Reason}
    (h : d.changeIfWorthwhile change reason = .ok d') :
    d' = d ∨ ∃ accepted, d.acceptedBound change.side change.column (.ofScalar change.value) =
      .ok (some accepted) ∧ d.changeBound accepted reason = .ok d' := by
  simp only [changeIfWorthwhile, bind_eq_ok] at h
  obtain ⟨accepted, haccepted, h⟩ := h
  cases accepted with
  | none => exact .inl (pure_eq_ok.mp h).symm
  | some accepted => exact .inr ⟨accepted, haccepted, h⟩

/-- A change follows from the fixings among some entries, in any domain with the same setting. -/
def ImpliedByEntries (d : Domain α) (entries : List (LogEntry α))
    (x : BoundChange α × Reason) : Prop :=
  ∃ entry ∈ entries, ∃ c value implied, d.fixedBy entry = .ok (some (c, value)) ∧
    d.impliedByFixing c value = .ok implied ∧ x ∈ implied

theorem fixedBy_congr (h : SameSetting d d') (entry : LogEntry α) :
    d'.fixedBy entry = d.fixedBy entry := by
  unfold fixedBy isBinary
  rw [h.model]

/-- What a fixing implies, it implies through a clique or through a variable bound. -/
theorem mem_impliedByFixing {c : ColumnId} {value : Bool}
    {implied : List (BoundChange α × Reason)} (h : d.impliedByFixing c value = .ok implied)
    {x : BoundChange α × Reason} (hx : x ∈ implied) :
    (∃ cliques literals literal, d.cliques = some cliques ∧
        cliques.impliedBy ⟨c, value⟩ = .ok literals ∧ literal ∈ literals ∧
        x = (.fixing literal.column !literal.value, .clique c value)) ∨
      ∃ bounds changes change, d.variableBounds = some bounds ∧
        bounds.impliedBy c value = .ok changes ∧ change ∈ changes ∧
        x = (change, .variableBound c value) := by
  have hparts : ∃ cliqueChanges variableChanges, implied = cliqueChanges ++ variableChanges ∧
      (cliqueChanges = [] ∨ ∃ cliques literals, d.cliques = some cliques ∧
        cliques.impliedBy ⟨c, value⟩ = .ok literals ∧ literals.map (fun literal =>
          (BoundChange.fixing literal.column !literal.value, Reason.clique c value)) =
            cliqueChanges) ∧
      (variableChanges = [] ∨ ∃ bounds changes, d.variableBounds = some bounds ∧
        bounds.impliedBy c value = .ok changes ∧
        changes.map (fun change => (change, Reason.variableBound c value)) = variableChanges) := by
    unfold impliedByFixing at h
    cases hcliques : d.cliques with
    | none =>
        cases hbounds : d.variableBounds with
        | none =>
            simp only [hcliques, hbounds, pure_eq_ok, pure_bind] at h
            exact ⟨[], [], h.symm, .inl rfl, .inl rfl⟩
        | some bounds =>
            simp only [hcliques, hbounds, pure_eq_ok, pure_bind, bind_eq_ok] at h
            obtain ⟨changes, hchanges, rfl⟩ := h
            exact ⟨[], _, rfl, .inl rfl, .inr ⟨bounds, changes, rfl, hchanges, rfl⟩⟩
    | some cliques =>
        cases hbounds : d.variableBounds with
        | none =>
            simp only [hcliques, hbounds, pure_eq_ok, pure_bind, bind_eq_ok, List.append_nil] at h
            obtain ⟨literals, hliterals, rfl⟩ := h
            exact ⟨_, [], (List.append_nil _).symm,
              .inr ⟨cliques, literals, rfl, hliterals, rfl⟩, .inl rfl⟩
        | some bounds =>
            simp only [hcliques, hbounds, pure_eq_ok, bind_eq_ok] at h
            obtain ⟨literals, hliterals, _, rfl, changes, hchanges, _, rfl, rfl⟩ := h
            exact ⟨_, _, rfl, .inr ⟨cliques, literals, rfl, hliterals, rfl⟩,
              .inr ⟨bounds, changes, rfl, hchanges, rfl⟩⟩
  obtain ⟨cliqueChanges, variableChanges, rfl, hcliques, hbounds⟩ := hparts
  rcases List.mem_append.mp hx with hx | hx
  · rcases hcliques with rfl | ⟨cliques, literals, hsome, hliterals, rfl⟩
    · cases hx
    · obtain ⟨literal, hliteral, rfl⟩ := List.mem_map.mp hx
      exact .inl ⟨cliques, literals, literal, hsome, hliterals, hliteral, rfl⟩
  · rcases hbounds with rfl | ⟨bounds, changes, hsome, hchanges, rfl⟩
    · cases hx
    · obtain ⟨change, hchange, rfl⟩ := List.mem_map.mp hx
      exact .inr ⟨bounds, changes, change, hsome, hchanges, hchange, rfl⟩

theorem impliedByFixing_congr (h : SameSetting d d') (c : ColumnId) (value : Bool) :
    d'.impliedByFixing c value = d.impliedByFixing c value := by
  unfold impliedByFixing
  rw [h.cliques, h.variableBounds]

/-- Looking at entries moves the cursor and nothing else. -/
theorem impliedByEntries_eq_ok {entries : List (LogEntry α)}
    {changes : List (BoundChange α × Reason)}
    (h : (impliedByEntries entries).perform d = (.ok changes, d')) :
    d' = { d with implicationCursor := d'.implicationCursor } ∧
      ∀ x ∈ changes, ImpliedByEntries d entries x := by
  induction entries generalizing d changes with
  | nil =>
      simp only [impliedByEntries, Action.perform_pure, Prod.mk.injEq, Except.ok.injEq] at h
      obtain ⟨rfl, rfl⟩ := h
      exact ⟨rfl, fun x hx => by cases hx⟩
  | cons entry rest ih =>
      simp only [impliedByEntries, Action.perform_bind_eq_ok, Action.perform_modify,
        Action.perform_get, Action.perform_lift, Prod.mk.injEq, Except.ok.injEq, true_and] at h
      obtain ⟨-, _, rfl, _, _, ⟨rfl, rfl⟩, fixing, _, ⟨hfixing, rfl⟩, h⟩ := h
      have hcons : ∃ own others, changes = own ++ others ∧
          (impliedByEntries rest).perform
            { d with implicationCursor := d.implicationCursor + 1 } = (.ok others, d') ∧
          ∀ x ∈ own, ImpliedByEntries d [entry] x := by
        cases fixing with
        | none =>
            simp only [Action.perform_bind_eq_ok, Action.perform_pure, Prod.mk.injEq,
              Except.ok.injEq] at h
            obtain ⟨_, _, ⟨rfl, rfl⟩, others, _, hothers, rfl, rfl⟩ := h
            exact ⟨[], others, rfl, hothers, fun x hx => by cases hx⟩
        | some fixing =>
            obtain ⟨c, value⟩ := fixing
            simp only [Action.perform_bind_eq_ok, Action.perform_pure, Action.perform_lift,
              Prod.mk.injEq, Except.ok.injEq] at h
            obtain ⟨own, _, ⟨hown, rfl⟩, others, _, hothers, rfl, rfl⟩ := h
            exact ⟨own, others, rfl, hothers, fun x hx =>
              ⟨entry, List.mem_singleton_self _, c, value, own, hfixing, hown, hx⟩⟩
      obtain ⟨own, others, rfl, hothers, hown⟩ := hcons
      obtain ⟨hcursor, himplied⟩ := ih hothers
      refine ⟨hcursor, fun x hx => ?_⟩
      rcases List.mem_append.mp hx with hx | hx
      · obtain ⟨e, he, hrest⟩ := hown x hx
        exact ⟨e, by rw [List.mem_singleton.mp he]; exact List.mem_cons_self .., hrest⟩
      · obtain ⟨e, he, hrest⟩ := himplied x hx
        exact ⟨e, List.mem_cons_of_mem _ he, hrest⟩

/-- Changes implied by logged fixings are derived, also after some of them were made. -/
theorem applyWorthwhile_advances {start : Domain α} {entries : List (LogEntry α)}
    {changes : List (BoundChange α × Reason)} (pools : Pools α)
    (himplied : ∀ x ∈ changes, ImpliedByEntries start entries x)
    (hsetting : SameSetting start d) (hentries : ∀ entry ∈ entries, entry ∈ d.log)
    (h : (applyWorthwhile changes).perform d = (.ok (), d')) :
    Advances ⟨pools, d⟩ ⟨pools, d'⟩ := by
  induction changes generalizing d with
  | nil =>
      simp only [applyWorthwhile, Action.perform_pure, Prod.mk.injEq, true_and] at h
      rw [h]
  | cons x rest ih =>
      obtain ⟨change, reason⟩ := x
      simp only [applyWorthwhile, Action.perform_bind_eq_ok, Action.perform_change_eq_ok,
        Action.perform_get, Prod.mk.injEq, Except.ok.injEq] at h
      obtain ⟨-, next, hnext, _, _, ⟨rfl, rfl⟩, h⟩ := h
      have hstep : Advances ⟨pools, d⟩ ⟨pools, next⟩ := by
        rcases changeIfWorthwhile_eq_ok hnext with rfl | ⟨accepted, haccepted, hchange⟩
        · exact .refl
        · obtain ⟨entry, hentry, c, value, implied, hfixing, hdue, hmem⟩ :=
            himplied _ (List.mem_cons_self ..)
          rw [← fixedBy_congr hsetting] at hfixing
          rw [← impliedByFixing_congr hsetting] at hdue
          refine .single (.change [(accepted, reason)] ?_ ?_)
          · intro x hx
            rw [List.mem_singleton.mp hx]
            exact .implication (hentries entry hentry) hfixing hdue hmem haccepted
          · simpa [changeBounds] using hchange
      have hkeeps : SameSetting start next ∧ ∀ entry ∈ entries, entry ∈ next.log := by
        rcases changeIfWorthwhile_eq_ok hnext with rfl | ⟨accepted, -, hchange⟩
        · exact ⟨hsetting, hentries⟩
        · exact ⟨hsetting.trans (changeBound_sameSetting hchange),
            fun entry he => changeBound_log hchange (hentries entry he)⟩
      split at h
      · exact hstep.trans (ih (fun x hx => himplied x (List.mem_cons_of_mem _ hx)) hkeeps.1
          hkeeps.2 h)
      · simp only [Action.perform_pure, Prod.mk.injEq, true_and] at h
        rw [← h]
        exact hstep

theorem propagateImplications_advances (pools : Pools α)
    (h : propagateImplications.perform d = (.ok (), d')) :
    Advances ⟨pools, d⟩ ⟨pools, d'⟩ := by
  simp only [propagateImplications, Action.perform_bind_eq_ok, Action.perform_get,
    Prod.mk.injEq, Except.ok.injEq] at h
  obtain ⟨_, _, ⟨rfl, rfl⟩, h⟩ := h
  split at h
  · simp only [Action.perform_set, Prod.mk.injEq, true_and] at h
    rw [← h]
    exact .single (.requeue (requeued_cursor d _))
  · simp only [Action.perform_bind_eq_ok] at h
    obtain ⟨changes, looked, hlooked, h⟩ := h
    obtain ⟨hcursor, himplied⟩ := impliedByEntries_eq_ok hlooked
    have hlook : Advances ⟨pools, d⟩ ⟨pools, looked⟩ := by
      rw [hcursor]
      exact .single (.requeue (requeued_cursor d _))
    refine hlook.trans (applyWorthwhile_advances pools himplied ?_ ?_ h)
    · rw [hcursor]
      exact ⟨rfl, rfl, rfl, rfl⟩
    · intro entry hentry
      rw [hcursor]
      exact Array.mem_toList_iff.mp (List.mem_of_mem_drop hentry)

/-- The changes that a row implies are derived from its activity, which may be computed anew
before. -/
theorem rowChanges_eq_ok {r : RowId} {changes : List (BoundChange α × Reason)}
    (h : d.rowChanges r = .ok (d', changes)) :
    (d' = d ∨ d.refreshActivity r = .ok d') ∧ ∀ x ∈ changes, d'.Derived x.1 x.2 := by
  simp only [rowChanges, ← ite_bind] at h
  simp only [bind_eq_ok, fetch_eq_ok, Model.row, pure_eq_ok, Prod.mk.injEq] at h
  obtain ⟨found, -, fresh, hfresh, row, hrow, activity, hactivity, fromUpper, hupper, fromLower,
    hlower, rfl, rfl⟩ := h
  constructor
  · split at hfresh
    · exact .inr hfresh
    · exact .inl (pure_eq_ok.mp hfresh).symm
  · intro x hx
    rcases List.mem_append.mp hx with hx | hx
    · obtain ⟨change, hchange, rfl⟩ := List.mem_map.mp hx
      split at hupper
      · next hside =>
          obtain ⟨entry, hentry, himplied⟩ := mem_collect hupper hchange
          have hfinite : row.upper < Scalar.infinity := by
            simp only [Bool.and_eq_true, decide_eq_true_eq] at hside
            exact hside.1
          exact .rowUpper hrow hactivity hfinite hentry himplied
      · rw [← pure_eq_ok.mp hupper] at hchange
        cases hchange
    · obtain ⟨change, hchange, rfl⟩ := List.mem_map.mp hx
      split at hlower
      · next hside =>
          obtain ⟨negated, hnegated, himplied⟩ := mem_collect hlower hchange
          obtain ⟨entry, hentry, rfl⟩ := List.mem_map.mp hnegated
          have hfinite : -Scalar.infinity < row.lower := by
            simp only [Bool.and_eq_true, decide_eq_true_eq] at hside
            exact hside.1
          exact .rowLower hrow hactivity hfinite hentry himplied
      · rw [← pure_eq_ok.mp hlower] at hchange
        cases hchange

theorem visitRows_advances (pools : Pools α) {rows : List RowId}
    (h : d.visitRows rows = .ok d') :
    Advances ⟨pools, d⟩ ⟨pools, d'⟩ := by
  induction rows generalizing d with
  | nil =>
      cases h
      exact .refl
  | cons r rest ih =>
      simp only [visitRows, bind_eq_ok] at h
      obtain ⟨⟨fresh, changes⟩, hchanges, changed, hchanged, h⟩ := h
      obtain ⟨hfresh, hderived⟩ := rowChanges_eq_ok hchanges
      have hvisit : Advances ⟨pools, d⟩ ⟨pools, changed⟩ := by
        have hchange : Advances ⟨pools, fresh⟩ ⟨pools, changed⟩ :=
          .single (.change changes hderived hchanged)
        rcases hfresh with rfl | hrefresh
        · exact hchange
        · exact .head (.refresh hrefresh) hchange
      split at h
      · next hinfeasible =>
          have hfound : changed.infeasible ≠ none := Option.isSome_iff_ne_none.mp hinfeasible
          exact hvisit.tail (.requeue (foldlM_markRowDirty_requeued hfound h))
      · exact hvisit.trans (ih h)

omit [Scalar α] in
/-- Taking every row that waits only changes the queues. -/
theorem requeued_takeRows {rows : List RowId} {flags : Array Bool}
    (h : rows.foldlM (fun flags r => store flags r false) d.rowDirty = .ok flags) :
    d.Requeued { d with waitingRows := [], rowDirty := flags } :=
  { Requeued.refl d with
    rowDirty := foldlM_keeps (P := fun flags => flags.size = d.rowDirty.size)
      (fun flags r flags' _ hsize hstore => by
        rw [store_eq_ok] at hstore
        rw [← hstore.2, Array.size_setIfInBounds, hsize]) h rfl
    setting := ⟨rfl, rfl, rfl, rfl⟩
    waiting := fun _ hr => absurd hr List.not_mem_nil }

theorem propagateRows_advances (pools : Pools α) (h : d.propagateRows = .ok d') :
    Advances ⟨pools, d⟩ ⟨pools, d'⟩ := by
  simp only [propagateRows, bind_eq_ok] at h
  obtain ⟨flags, hflags, h⟩ := h
  exact .head (.requeue (requeued_takeRows hflags)) (visitRows_advances pools h)

theorem visitCuts_advances (pools : Pools α) {index : Nat} {ids : List CutId}
    (h : d.visitCuts index ids = .ok d') :
    Advances ⟨pools, d⟩ ⟨pools, d'⟩ := by
  induction ids generalizing d with
  | nil =>
      cases h
      exact .refl
  | cons id rest ih =>
      simp only [visitCuts, bind_eq_ok, fetch_eq_ok] at h
      obtain ⟨p, hp, h⟩ := h
      split at h
      · exact ih h
      · next known hknown =>
          simp only [bind_eq_ok] at h
          obtain ⟨clean, hclean, h⟩ := h
          obtain ⟨q, hq, rfl⟩ := onCuts_eq_ok hclean
          obtain rfl : q = p := by rw [hp] at hq; exact (Option.some.inj hq).symm
          have hagrees := CutPropagation.agrees_insert q hknown false q.waiting
          have htaken : Advances ⟨pools, d⟩ ⟨pools, _⟩ :=
            .single (.requeue (requeued_cuts hp hagrees))
          refine htaken.trans ?_
          split at h
          · exact ih h
          · simp only [bind_eq_ok] at h
            obtain ⟨changes, hchanges, changed, hchanged, h⟩ := h
            refine .head (.change (changes.map (·, .cut index id)) ?_ hchanged) ?_
            · intro x hx
              obtain ⟨change, hchange, rfl⟩ := List.mem_map.mp hx
              obtain ⟨entry, hentry, himplied⟩ := mem_collect hchanges hchange
              have hlt : index < d.cutPropagations.size := (Array.getElem?_eq_some_iff.mp hp).1
              refine .cut (Array.getElem?_setIfInBounds_self_of_lt hlt) ?_ hentry himplied
              rw [hagrees.known, CutPropagation.known, hknown]
              rfl
            · split at h
              · obtain ⟨q', hq', rfl⟩ := onCuts_eq_ok h
                exact .single (.requeue (requeued_cuts hq' (q'.agrees_foldl_markDirty rest)))
              · exact ih h

theorem visitWaitingCuts_advances (pools : Pools α) {index : Nat}
    (h : d.visitWaitingCuts index = .ok d') :
    Advances ⟨pools, d⟩ ⟨pools, d'⟩ := by
  simp only [visitWaitingCuts, bind_eq_ok, fetch_eq_ok] at h
  obtain ⟨p, hp, taken, htaken, h⟩ := h
  obtain ⟨q, hq, rfl⟩ := onCuts_eq_ok htaken
  have hagrees : q.Agrees { q with waiting := [] } := ⟨rfl, rfl, rfl, rfl⟩
  exact .head (.requeue (requeued_cuts hq hagrees)) (visitCuts_advances pools h)

/-- A visited conflict refutes the domain, changes one bound, or does nothing; a useful one is
young again. -/
theorem visitConflict_advances {index : Nat} {p : ConflictPropagation α} {id : ConflictId}
    {literals : List (BoundChange α)} (hpool : d.conflictPropagations[index]? = some p)
    (hknown : p.known id = some literals)
    (h : visitConflict pools d index id literals = .ok (pools', d')) :
    Advances ⟨pools, d⟩ ⟨pools', d'⟩ := by
  simp only [visitConflict, bind_eq_ok, fetch_eq_ok] at h
  obtain ⟨q, -, inactive, hinactive, h⟩ := h
  split at h
  · simp only [bind_eq_ok, pure_eq_ok, Prod.mk.injEq] at h
    obtain ⟨renewed, ⟨⟨_, renewed'⟩, hrenew, rfl⟩, rfl, rfl⟩ := h
    exact .head (.refute (.conflict hpool hknown hinactive)) (.single (.renew hrenew))
  · next literal =>
      simp only [← ite_bind] at h
      simp only [bind_eq_ok, pure_eq_ok, Prod.mk.injEq] at h
      obtain ⟨change, hflip, after, hchange, renewed, hrenewed, rfl, rfl⟩ := h
      have hderived : d.Derived change (.conflict index id) :=
        .conflict hpool hknown hinactive hflip
      have hmade : Advances ⟨pools, d⟩ ⟨pools, after⟩ := by
        refine .single (.change [(change, .conflict index id)] ?_ ?_)
        · intro x hx
          rw [List.mem_singleton.mp hx]
          exact hderived
        · simpa [changeBounds] using hchange
      split at hrenewed
      · simp only [bind_eq_ok, pure_eq_ok] at hrenewed
        obtain ⟨⟨_, renewed'⟩, hrenew, rfl⟩ := hrenewed
        exact hmade.tail (.renew hrenew)
      · rw [← pure_eq_ok.mp hrenewed]
        exact hmade
  · simp only [pure_eq_ok, Prod.mk.injEq] at h
    rw [h.1, h.2]

theorem visitConflicts_advances {index : Nat} {ids : List ConflictId}
    (h : visitConflicts pools d index ids = .ok (pools', d')) :
    Advances ⟨pools, d⟩ ⟨pools', d'⟩ := by
  induction ids generalizing pools d with
  | nil =>
      cases h
      exact .refl
  | cons id rest ih =>
      simp only [visitConflicts, bind_eq_ok, fetch_eq_ok] at h
      obtain ⟨p, hp, h⟩ := h
      split at h
      · exact ih h
      · next known hknown =>
          simp only [bind_eq_ok] at h
          obtain ⟨clean, hclean, ⟨pools₁, visited⟩, hvisit, h⟩ := h
          obtain ⟨q, hq, rfl⟩ := onConflicts_eq_ok hclean
          obtain rfl : q = p := by rw [hp] at hq; exact (Option.some.inj hq).symm
          have hagrees := ConflictPropagation.agrees_insert q hknown false q.waiting
          refine .head (.requeue (requeued_conflicts hp hagrees)) ?_
          have hlt : index < d.conflictPropagations.size := (Array.getElem?_eq_some_iff.mp hp).1
          have hadvance := visitConflict_advances
            (Array.getElem?_setIfInBounds_self_of_lt hlt)
            (by rw [hagrees.known, ConflictPropagation.known, hknown]; rfl) hvisit
          refine hadvance.trans ?_
          split at h
          · simp only [bind_eq_ok, pure_eq_ok, Prod.mk.injEq] at h
            obtain ⟨requeued, hrequeued, rfl, rfl⟩ := h
            obtain ⟨q', hq', rfl⟩ := onConflicts_eq_ok hrequeued
            exact .single (.requeue (requeued_conflicts hq' (q'.agrees_foldl_markDirty rest)))
          · exact ih h

theorem visitWaitingConflicts_advances {index : Nat}
    (h : visitWaitingConflicts pools d index = .ok (pools', d')) :
    Advances ⟨pools, d⟩ ⟨pools', d'⟩ := by
  simp only [visitWaitingConflicts, bind_eq_ok, fetch_eq_ok] at h
  obtain ⟨p, hp, taken, htaken, h⟩ := h
  obtain ⟨q, hq, rfl⟩ := onConflicts_eq_ok htaken
  have hagrees : q.Agrees { q with waiting := [] } := ⟨rfl, rfl, rfl, rfl⟩
  exact .head (.requeue (requeued_conflicts hq hagrees)) (visitConflicts_advances h)

/-- The changes that the cutoff implies are derived from the objective. -/
theorem objectiveChanges_derived {o : ObjectivePropagation α} {changes : List (BoundChange α)}
    (ho : d.objective = some o) (hcutoff : (o.cutoff == Scalar.infinity) = false)
    (h : d.objectiveChanges o = .ok changes) {change : BoundChange α} (hchange : change ∈ changes) :
    d.Derived change .objective := by
  simp only [objectiveChanges, bind_eq_ok, pure_eq_ok] at h
  obtain ⟨linear, hlinear, rfl⟩ := h
  rcases List.mem_append.mp hchange with hchange | hchange
  · obtain ⟨entry, hentry, himplied⟩ := mem_collect hlinear hchange
    exact .objective ho hcutoff hentry himplied
  · split at hchange
    · next hfinite =>
        obtain ⟨p, hp, hchange⟩ := List.mem_flatMap.mp hchange
        exact .partition ho hcutoff (by simpa using hfinite) (Array.mem_toList_iff.mp hp) hchange
    · cases hchange

omit [Scalar α] in
theorem feasible_of_isQuietSince {length : Nat} (h : d.isQuietSince length = true) :
    d.infeasible = none := by
  simp only [isQuietSince, Bool.and_eq_true] at h
  simpa [isInfeasible] using h.1

theorem propagateObjective_advances (pools : Pools α) (h : d.propagateObjective = .ok d') :
    Advances ⟨pools, d⟩ ⟨pools, d'⟩ := by
  unfold propagateObjective at h
  split at h
  · rw [pure_eq_ok.mp h]
  · next o ho =>
      split at h
      · rw [pure_eq_ok.mp h]
      · next hguard =>
          have hcutoff : (o.cutoff == Scalar.infinity) = false := by
            simp only [Bool.or_eq_true, not_or, Bool.not_eq_true] at hguard
            exact hguard.2
          have hread : d.Requeued
            { d with objective := some { o with needsPropagation := false } } :=
            { Requeued.refl d with
              objective := .inr ⟨o, ho, rfl⟩
              setting := ⟨rfl, rfl, rfl, rfl⟩ }
          refine .head (.requeue hread) ?_
          dsimp only at h
          split at h
          · rw [pure_eq_ok.mp h]
          · split at h
            · next hviolated =>
                rw [← pure_eq_ok.mp h]
                exact .single (.refute (.objective rfl hviolated))
            · rw [bind_eq_ok] at h
              obtain ⟨changes, hchanges, hchanged⟩ := h
              refine .single (.change _ (fun x hx => ?_) hchanged)
              obtain ⟨change, hchange, rfl⟩ := List.mem_map.mp hx
              exact objectiveChanges_derived (o := { o with needsPropagation := false }) rfl hcutoff
                hchanges hchange

end Domain

namespace PropagationStep

variable {s s' : PropagationState α}

theorem synchroniseCuts_advances {index : Nat} (hfeasible : s.domain.infeasible = none)
    (h : (synchroniseCuts index).perform s = (.ok (), s')) :
    Advances s s' := by
  simp only [synchroniseCuts, Action.perform_bind_eq_ok, Action.perform_get, Action.perform_lift,
    changeDomain_eq_ok, Prod.mk.injEq, Except.ok.injEq] at h
  obtain ⟨_, _, ⟨rfl, rfl⟩, p, _, ⟨hp, rfl⟩, pool, _, ⟨hpool, rfl⟩, -, _, ⟨d', hd', rfl⟩,
    houtcome, rfl⟩ := h
  obtain ⟨q, hq, rfl⟩ := Domain.onCuts_eq_ok hd'
  exact .single (.readCuts (fetch_eq_ok.mp hp) (fetch_eq_ok.mp hpool)
    (Prod.ext houtcome rfl) hfeasible)

theorem synchroniseConflicts_advances {index : Nat} (hfeasible : s.domain.infeasible = none)
    (h : (synchroniseConflicts index).perform s = (.ok (), s')) :
    Advances s s' := by
  simp only [synchroniseConflicts, Action.perform_bind_eq_ok, Action.perform_get,
    Action.perform_lift, changeDomain_eq_ok, Prod.mk.injEq, Except.ok.injEq] at h
  obtain ⟨_, _, ⟨rfl, rfl⟩, p, _, ⟨hp, rfl⟩, pool, _, ⟨hpool, rfl⟩, -, _, ⟨d', hd', rfl⟩,
    houtcome, rfl⟩ := h
  obtain ⟨q, hq, rfl⟩ := Domain.onConflicts_eq_ok hd'
  exact .single (.readConflicts (fetch_eq_ok.mp hp) (fetch_eq_ok.mp hpool)
    (Prod.ext houtcome rfl) hfeasible)

theorem propagateCuts_advances {index : Nat} (hfeasible : s.domain.infeasible = none)
    (h : (propagateCuts index).perform s = (.ok (), s')) :
    Advances s s' := by
  simp only [propagateCuts, Action.perform_bind_eq_ok, changeDomain_eq_ok] at h
  obtain ⟨⟨⟩, read, hread, d', hvisit, rfl⟩ := h
  exact (synchroniseCuts_advances hfeasible hread).trans
    (Domain.visitWaitingCuts_advances read.pools hvisit)

theorem propagateConflicts_advances {index : Nat} (hfeasible : s.domain.infeasible = none)
    (h : (propagateConflicts index).perform s = (.ok (), s')) :
    Advances s s' := by
  simp only [propagateConflicts, Action.perform_bind_eq_ok, Action.perform_get,
    Action.perform_lift, Action.perform_set, Prod.mk.injEq, Except.ok.injEq, true_and] at h
  obtain ⟨⟨⟩, read, hread, _, _, ⟨rfl, rfl⟩, ⟨pools, d'⟩, _, ⟨hvisit, rfl⟩, rfl⟩ := h
  exact (synchroniseConflicts_advances hfeasible hread).trans
    (Domain.visitWaitingConflicts_advances hvisit)

/-- What relates a state to the one after each stage of a round. -/
structure Stages (R : PropagationState α → PropagationState α → Prop) : Prop where
  refl : ∀ s, R s s
  trans : ∀ s s' s'', R s s' → R s' s'' → R s s''
  implications : ∀ pools d d', Domain.propagateImplications.perform d = (.ok (), d') →
    R ⟨pools, d⟩ ⟨pools, d'⟩
  rows : ∀ pools d d', d.propagateRows = .ok d' → R ⟨pools, d⟩ ⟨pools, d'⟩
  conflicts : ∀ index s s', s.domain.infeasible = none →
    (propagateConflicts index).perform s = (.ok (), s') → R s s'
  cuts : ∀ index s s', s.domain.infeasible = none →
    (propagateCuts index).perform s = (.ok (), s') → R s s'
  objective : ∀ pools d d', d.infeasible = none → d.propagateObjective = .ok d' →
    R ⟨pools, d⟩ ⟨pools, d'⟩

section Rounds

variable {R : PropagationState α → PropagationState α → Prop} (hR : Stages R)

include hR

theorem untilInfeasible_related {step : Nat → PropagationStep α Unit}
    (hstep : ∀ index s s', s.domain.infeasible = none →
      (step index).perform s = (.ok (), s') → R s s')
    {indices : List Nat} (hfeasible : s.domain.infeasible = none)
    (h : (untilInfeasible step indices).perform s = (.ok (), s')) :
    R s s' := by
  induction indices generalizing s with
  | nil =>
      simp only [untilInfeasible, Action.perform_pure, Prod.mk.injEq, true_and] at h
      exact h ▸ hR.refl s
  | cons index rest ih =>
      simp only [untilInfeasible, Action.perform_bind_eq_ok, domain_eq_ok] at h
      obtain ⟨⟨⟩, next, hnext, _, _, ⟨rfl, rfl⟩, h⟩ := h
      have hfirst := hstep index s next hfeasible hnext
      split at h
      · next hnot => exact hR.trans _ _ _ hfirst (ih (by simpa [Domain.isInfeasible] using hnot) h)
      · simp only [Action.perform_pure, Prod.mk.injEq, true_and] at h
        exact h ▸ hfirst

/-- An action that is only taken under a condition relates states if it does so when it is
taken. -/
theorem ite_related {p : Prop} [Decidable p] {x : PropagationStep α Unit} {b : Unit}
    (h : (if p then x else pure ()).perform s = (.ok b, s'))
    (hx : p → x.perform s = (.ok (), s') → R s s') : R s s' := by
  split at h
  · next hp => exact hx hp h
  · simp only [Action.perform_pure, Prod.mk.injEq] at h
    exact h.2 ▸ hR.refl s

/-- The parts of a round before and after the visit to the rows that wait, which takes place unless
the domain has become infeasible. -/
theorem propagateRound_parts (h : propagateRound.perform s = (.ok (), s')) :
    ∃ d₁ d₂, R s { s with domain := d₁ } ∧
      (if d₁.isInfeasible then d₂ = d₁ else d₁.propagateRows = .ok d₂) ∧
      R { s with domain := d₂ } s' := by
  simp only [propagateRound, Action.ite_seq] at h
  simp only [Action.perform_bind_eq_ok, domain_eq_ok, onDomain_eq_ok] at h
  obtain ⟨_, _, ⟨rfl, rfl⟩, ⟨⟩, s₁, ⟨d₁, himplications, rfl⟩, _, _, ⟨rfl, rfl⟩, ⟨⟩, s₂, hrows, _, _,
    ⟨rfl, rfl⟩, ⟨⟩, s₃, hconflicts, _, _, ⟨rfl, rfl⟩, ⟨⟩, s₄, hcuts, _, _, ⟨rfl, rfl⟩,
    hobjective⟩ := h
  have h₃ := ite_related hR hconflicts fun hquiet =>
    untilInfeasible_related hR hR.conflicts (Domain.feasible_of_isQuietSince hquiet)
  have h₄ := ite_related hR hcuts fun hquiet =>
    untilInfeasible_related hR hR.cuts (Domain.feasible_of_isQuietSince hquiet)
  have h₅ := ite_related hR hobjective fun hquiet h => by
    obtain ⟨d₅, hvisit, rfl⟩ := changeDomain_eq_ok.mp h
    exact hR.objective _ _ _ (Domain.feasible_of_isQuietSince hquiet) hvisit
  have hrest := hR.trans _ _ _ (hR.trans _ _ _ h₃ h₄) h₅
  refine ⟨d₁, s₂.domain, hR.implications s.pools s.domain d₁ himplications, ?_⟩
  dsimp only at hrows
  cases hinfeasible : d₁.isInfeasible with
  | true =>
      rw [hinfeasible, Bool.not_true, if_neg Bool.false_ne_true, Action.perform_pure,
        Prod.mk.injEq] at hrows
      obtain ⟨-, rfl⟩ := hrows
      exact ⟨rfl, hrest⟩
  | false =>
      rw [hinfeasible, Bool.not_false, if_pos rfl] at hrows
      obtain ⟨d₂, hvisit, rfl⟩ := changeDomain_eq_ok.mp hrows
      exact ⟨hvisit, hrest⟩

theorem propagateRound_related (h : propagateRound.perform s = (.ok (), s')) : R s s' := by
  obtain ⟨d₁, d₂, hbefore, hrows, hafter⟩ := propagateRound_parts hR h
  refine hR.trans _ _ _ hbefore ?_
  split at hrows
  · exact hrows ▸ hafter
  · exact hR.trans _ _ _ (hR.rows _ _ _ hrows) hafter

omit hR

/-- A round that is followed by another one. -/
theorem nextRound_eq_inl (h : nextRound s = .inl s') :
    s.domain.isInfeasible = false ∧ propagateRound.perform s = (.ok (), s') := by
  unfold nextRound at h
  split at h
  · cases h
  · next hfeasible =>
      split at h
      · cases h
      · next hround =>
          split at h
          · cases h
          · cases h
            exact ⟨by simpa using hfeasible, hround⟩

/-- A round that is followed by another one leaves the domain feasible, with a reason to go on. -/
theorem goesOn_of_nextRound (h : nextRound s = .inl s') :
    s'.domain.infeasible = none ∧ goesOn s.domain s'.domain = true := by
  obtain ⟨hfeasible, hround⟩ := nextRound_eq_inl h
  rw [nextRound, hfeasible, hround, if_neg Bool.false_ne_true] at h
  dsimp only at h
  split at h
  · cases h
  · next hgoes =>
      simpa [Domain.isInfeasible] using hgoes

/-- Propagation ends in an infeasible domain or with a round that is not followed by another. -/
theorem nextRound_eq_inr (h : nextRound s = .inr (.ok (), s')) :
    (s.domain.isInfeasible = true ∧ s' = s) ∨
      s.domain.isInfeasible = false ∧ propagateRound.perform s = (.ok (), s') ∧
        (s'.domain.isInfeasible || !goesOn s.domain s'.domain) = true := by
  unfold nextRound at h
  split at h
  · next hinfeasible =>
      cases h
      exact .inl ⟨hinfeasible, rfl⟩
  · next hfeasible =>
      split at h
      · cases h
      · next hround =>
          split at h
          · next hends =>
              cases h
              exact .inr ⟨by simpa using hfeasible, hround, hends⟩
          · cases h

/-- Propagation that returns is a number of rounds, the last of which ends it. -/
theorem propagate_rounds {P : PropagationState α → Prop}
    (hend : ∀ t, nextRound t = .inr (.ok (), s') → P t)
    (hnext : ∀ t t', nextRound t = .inl t' → P t' → P t)
    (h : propagate.perform s = (.ok (), s')) : P s := by
  have houtcome : (outcome? s).getD (.error .stepsExhausted, s) = (.ok (), s') := h
  cases hr : outcome? s with
  | none =>
      rw [hr] at houtcome
      cases houtcome
  | some r =>
      rw [hr, Option.getD_some] at houtcome
      rw [houtcome] at hr
      exact iterate?_induction hend hnext hr

include hR

/-- Propagation that returns relates states if every stage of a round does. -/
theorem propagate_related (h : propagate.perform s = (.ok (), s')) : R s s' := by
  refine propagate_rounds (P := fun t => R t s') (fun t hend => ?_) (fun t t' hnext ih => ?_) h
  · rcases nextRound_eq_inr hend with ⟨-, rfl⟩ | ⟨-, hround, -⟩
    · exact hR.refl _
    · exact propagateRound_related hR hround
  · exact hR.trans _ _ _ (propagateRound_related hR (nextRound_eq_inl hnext).2) ih

end Rounds

theorem advances_stages : Stages (Advances : PropagationState α → PropagationState α → Prop) where
  refl := fun _ => .refl
  trans := fun _ _ _ h h' => h.trans h'
  implications := fun pools _ _ => Domain.propagateImplications_advances pools
  rows := fun pools _ _ => Domain.propagateRows_advances pools
  conflicts := fun _ _ _ => propagateConflicts_advances
  cuts := fun _ _ _ => propagateCuts_advances
  objective := fun pools _ _ _ => Domain.propagateObjective_advances pools

/-- Propagation that ends does nothing but advance. -/
theorem propagate_advances (h : propagate.perform s = (.ok (), s')) : Advances s s' :=
  propagate_related advances_stages h

end PropagationStep

/-- Propagation of a domain does nothing but advance. -/
theorem Domain.propagate_advances {pools pools' : Pools α} {d d' : Domain α}
    (h : d.propagate pools = .ok (pools', d')) :
    Advances ⟨pools, d⟩ ⟨pools', d'⟩ := by
  simp only [Domain.propagate, bind_eq_ok, pure_eq_ok, Prod.mk.injEq] at h
  obtain ⟨⟨_, after⟩, hfinish, rfl, rfl⟩ := h
  exact PropagationStep.propagate_advances (Action.finish_eq_ok.mp hfinish)

end BranchBound
