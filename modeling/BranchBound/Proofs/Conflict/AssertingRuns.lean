import BranchBound.Proofs.Conflict.Names
import BranchBound.Proofs.Conflict.Resolution
import BranchBound.Proofs.Domain.PooledLiterals
import BranchBound.Proofs.Domain.Unrolling

/-!
# Conflicts in every run

In a run whose operations name only what the model has, everything that reasons refer to is part of
the model: what propagation logs comes from rows and columns, and what the pools hold was inserted.
So conflicts can be computed from whatever explains an infeasibility.
-/

namespace BranchBound

open Checked

variable {α : Type} [Scalar α]

/-- Only columns of the model are called fixed. -/
theorem Domain.fixedBy_column_lt {d : Domain α} {entry : LogEntry α} {c : ColumnId} {value : Bool}
    (h : d.fixedBy entry = .ok (some (c, value))) : c < d.model.columns.size := by
  simp only [fixedBy, isBinary, Model.column, bind_eq_ok, fetch_eq_ok] at h
  obtain ⟨_, ⟨column, hcolumn, -⟩, h⟩ := h
  have hlt := (Array.getElem?_eq_some_iff.mp hcolumn).1
  split at h
  · cases h
  · split at h
    · split at h
      · cases h
        exact hlt
      · cases h
    · split at h
      · cases h
        exact hlt
      · cases h

/-- Propagation derives changes from rows and columns of the model. -/
theorem Domain.Derived.within {d : Domain α} {change : BoundChange α} {reason : Reason}
    (h : d.Derived change reason) : reason.Within d.model := by
  cases h with
  | implication _ hfixing himplied hmem _ =>
      have hlt := fixedBy_column_lt hfixing
      rcases mem_impliedByFixing himplied hmem with ⟨_, _, _, -, -, -, heq⟩
        | ⟨_, _, _, -, -, -, heq⟩
      · rw [(Prod.mk.inj heq).2]
        exact hlt
      · rw [(Prod.mk.inj heq).2]
        exact hlt
  | rowUpper hrow _ _ _ _ | rowLower hrow _ _ _ _ => exact (Array.getElem?_eq_some_iff.mp hrow).1
  | cut _ _ _ _ | conflict _ _ _ _ | objective _ _ _ _ | partition _ _ _ _ _ => trivial

/-- What an operation names is part of the model: the rows and columns of reasons, and the columns
of cuts and conflicts. -/
def Operation.Within (m : Model α) : Operation α → Prop
  | changeBound _ reason | fixColumn _ _ reason => reason.Within m
  | insertCut _ cut _ => ∀ e ∈ cut.entries, e.1 < m.columns.size
  | addConflict _ literals => ∀ l ∈ literals, l.column < m.columns.size
  | _ => True

omit [Scalar α] in
theorem Operation.Within.changes {m : Model α} {op : Operation α} (h : op.Within m)
    {y : BoundChange α × Reason} (hy : y ∈ op.changes) : y.2.Within m := by
  cases op with
  | changeBound change reason => exact List.mem_singleton.mp hy ▸ h
  | fixColumn c value reason =>
      simp only [Operation.changes, List.mem_cons, List.not_mem_nil, or_false] at hy
      rcases hy with rfl | rfl <;> exact h
  | setStack changes branchings =>
      obtain ⟨change, -, hy⟩ := List.mem_flatMap.mp hy
      simp only [List.mem_cons, List.not_mem_nil, or_false] at hy
      rcases hy with rfl | rfl <;> trivial
  | _ => cases hy

section Runs

variable {draft : Draft α} {model : Model α} {feastol : α} {s : PropagationState α}
  {permitted : PropagationState α → Operation α → Prop}

/-- Everything that reasons refer to is part of the model. -/
theorem Reachable.refers (hα : EqualInfinities α) (hmodel : draft.build = .ok model)
    (hwithin : ∀ t op, permitted t op → op.Within model)
    (h : Reachable permitted model feastol s) : s.domain.Refers s.pools := by
  have hformed := Draft.wellFormed_of_build hmodel
  have hsame := h.constant.1
  have hsettled : s.domain.Settled (.counting hα) :=
    (h.settled (counting_derives hα model) (fun _ op _ => counting_brings hα op) hformed
      (counting_readable hα model)).domain
  have hpooled : s.PooledCuts fun cut => ∀ e ∈ cut.entries, e.1 < model.columns.size :=
    h.pooledCuts fun t pool cut ageLimit hop e he => hwithin t _ hop e (mem_normalized he)
  have hliterals : s.LiteralsAre fun l => l.column < model.columns.size :=
    h.literalsAre fun t pool literals hop => hwithin t _ hop
  refine ⟨?_, ?_, fun index id cut hcut => ?_, fun index id literals hbehind l hl => ?_, fun o ho =>
    (hsettled.coherent.objective o ho).costs_size⟩
  · rw [hsame]
    exact h.onRecord (counting_derives hα model) (fun _ op _ => counting_brings hα op) hformed
      (counting_readable hα model) (Q := fun _ reason => reason.Within model)
      (P := fun _ reason => reason.Within model) (fun t op hop y hy =>
        (hwithin t op hop).changes hy)
      (fun d change reason _ _ hd _ hderived => hd ▸ hderived.within)
      fun _ _ _ _ _ _ _ _ hreason _ => hreason
  · rw [hsame]
    exact hformed.entry_lt
  · obtain ⟨p, hp, ⟨min, hknown⟩ | ⟨-, pool, hpool, hget⟩⟩ := Domain.cutBehind_eq_some.mp hcut
    · exact fun e he => ((hsettled.coherent.cuts index p hp).entries id cut min hknown e he).1
    · rw [hsame]
      exact hpooled p.pool pool id cut hpool hget
  · rw [hsame]
    obtain ⟨p, hp, hknown | ⟨-, pool, hpool, hget⟩⟩ := Domain.conflictBehind_eq_some.mp hbehind
    · exact hliterals.domain index p id literals hp hknown l hl
    · exact hliterals.pools p.pool pool id literals hpool hget l hl

/-- A run in which only numbers are on record is traced by its log. -/
theorem Reachable.traced [Scalar.LinearlyOrdered α] (hmodel : draft.build = .ok model)
    (hnumbers : model.BoundedByNumbers) (h : Reachable Operation.LogsNumbers model feastol s) :
    s.domain.Traced := by
  refine ⟨?_, ?_⟩
  · rw [h.constant.1]
    exact h.shrinking hnumbers (Draft.ordered_of_build hmodel hnumbers)
  · rw [h.constant.1]
    exact Trail.numeric_ofModel hnumbers

theorem Reachable.learnt [Scalar.LinearlyOrdered α] (hα : EqualInfinities α)
    (hmodel : draft.build = .ok model) (hnumbers : model.BoundedByNumbers)
    (hwithin : ∀ t op, permitted t op → op.Within model)
    (h : Reachable permitted model feastol s)
    (hlogging : Reachable Operation.LogsNumbers model feastol s)
    {proof : Option (Inequality α)} {set : ConflictSet}
    (hset : s.domain.conflictSet? s.pools proof = .ok (some set)) (maxSize maxConflicts : Nat) :
    Returns (s.domain.computeConflicts s.pools set maxSize maxConflicts) fun r =>
      s.domain.Learnt maxSize maxConflicts r.conflicts := by
  have hsettled : s.domain.Settled (.counting hα) :=
    (h.settled (counting_derives hα model) (fun _ op _ => counting_brings hα op)
      (Draft.wellFormed_of_build hmodel) (counting_readable hα model)).domain
  have htraced := hlogging.traced hmodel hnumbers
  have hrefers := h.refers hα hmodel hwithin
  exact htraced.computeConflicts_returns hrefers hsettled (htraced.conflictSet?_local hrefers hset)
    maxSize maxConflicts

end Runs

/-- **Conflicts are asserting and the resolution ends.** From every set of changes that explains why
a domain is infeasible, or why an inequality is violated, conflicts are computed: at most as many as
are asked for and of at most so many literals, all of which hold, no two of one conflict over the
same bound. Every conflict but the last has a single literal on its deepest level, and when that
level is undone all its other literals still hold. Over any numbers that are linearly ordered the
domain has to come from a run in which the values on record are numbers; over exact numbers it is
enough if the operations of the run bring no others. In either case operations name only what the
model has. -/
theorem computed_conflicts_assert :
    (∀ {α : Type} [Scalar α] [Scalar.LinearlyOrdered α], EqualInfinities α →
      ∀ {draft : Draft α} {model : Model α} {feastol : α} {s : PropagationState α},
        draft.build = .ok model → model.BoundedByNumbers →
        Reachable (fun t op => op.LogsNumbers t ∧ op.Within model) model feastol s →
        ∀ (proof : Option (Inequality α)) (set : ConflictSet),
          s.domain.conflictSet? s.pools proof = .ok (some set) → ∀ maxSize maxConflicts,
            Returns (s.domain.computeConflicts s.pools set maxSize maxConflicts) fun r =>
              s.domain.Learnt maxSize maxConflicts r.conflicts) ∧
    ∀ {draft : Draft Exact} {model : Model Exact} {feastol : Exact} {s : PropagationState Exact},
      draft.build = .ok model →
      Reachable (fun _ op => op.Brings (.exact .any) ∧ op.Within model) model feastol s →
      ∀ (proof : Option (Inequality Exact)) (set : ConflictSet),
        s.domain.conflictSet? s.pools proof = .ok (some set) → ∀ maxSize maxConflicts,
          Returns (s.domain.computeConflicts s.pools set maxSize maxConflicts) fun r =>
            s.domain.Learnt maxSize maxConflicts r.conflicts := by
  refine ⟨fun hα _ _ _ _ hmodel hnumbers h _ _ hset maxSize maxConflicts => ?_,
    fun {draft model feastol s} hmodel h _ _ hset maxSize maxConflicts => ?_⟩
  · exact h.learnt hα hmodel hnumbers (fun _ _ hop => hop.2) (h.mono fun _ _ hop => hop.1) hset
      maxSize
      maxConflicts
  · have hread := Draft.readable_of_build hmodel
    have hlogging := h.logging_of_brings (fun _ _ hop => hop.1) (Draft.wellFormed_of_build hmodel)
      hread
    exact h.learnt Exact.equalInfinities hmodel hread.boundedByNumbers (fun _ _ hop => hop.2)
      hlogging
      hset maxSize maxConflicts

/-- A column with three values above zero and a binary one. -/
def boundedColumn : Draft Exact := ⟨#[⟨0, 0, 3, .integer⟩, ⟨0, 0, 1, .integer⟩], #[], 0⟩

/-- The first column is at least twice the binary one, and the decisions on both columns are against
it. -/
def contradictingDecisions : List (Operation Exact) :=
  [.setVariableBounds ⟨#[[], []], #[[(1, ⟨2, 0⟩)], []], #[[], [0]]⟩,
    .changeBound (.atMost 0 1) .branching, .propagate,
    .changeBound (.atLeast 1 1) .branching, .propagate]

/-- The bound that is implied on the second level contradicts the decision of the first one, and so
does the decision that implies it. -/
theorem contradicting_decisions_assert :
    ∃ (model : Model Exact) (s : PropagationState Exact) (set : ConflictSet),
      boundedColumn.build = .ok model ∧ s.domain.conflictSet? s.pools none = .ok (some set) ∧
      (∃ r, s.domain.computeConflicts s.pools set 2 3 = .ok r ∧
        r.conflicts.map List.length = [2, 2]) ∧
      Returns (s.domain.computeConflicts s.pools set 2 3) fun r =>
        s.domain.Learnt 2 3 r.conflicts := by
  have hrun : passes boundedColumn.build (fun model => passes (Domain.ofModel model 1e-6) fun d =>
      passes (contradictingDecisions.foldlM (fun s op => op.perform s) ⟨.empty, d⟩) fun s =>
        passes (s.domain.conflictSet? s.pools none) fun found => found.any fun set =>
          passes (s.domain.computeConflicts s.pools set 2 3) fun r =>
            r.conflicts.map List.length == [2, 2]) = true := by
    rw [(Operation.performUnrolled 100).property]
    decide +kernel
  obtain ⟨model, hmodel, hrun⟩ := passes_eq_true.mp hrun
  obtain ⟨d, hd, hrun⟩ := passes_eq_true.mp hrun
  obtain ⟨s, hs, hrun⟩ := passes_eq_true.mp hrun
  obtain ⟨found, hfound, hrun⟩ := passes_eq_true.mp hrun
  obtain _ | set := found
  · cases hrun
  obtain ⟨r, hr, hrun⟩ := passes_eq_true.mp hrun
  have hpermitted : ∀ op ∈ contradictingDecisions, op.Brings (.exact .any) ∧ op.Within model := by
    simp only [contradictingDecisions, List.forall_mem_cons, List.not_mem_nil, false_imp_iff,
      implies_true, and_true, Operation.Brings, Operation.Within, Reason.Within, Tracking.exact,
      Exact.Range.any, BoundChange.atLeast, BoundChange.atMost, true_and]
    refine ⟨?_, ?_⟩ <;> exact fun h => by cases h
  have hreach : Reachable (fun _ op => op.Brings (.exact .any) ∧ op.Within model) model 1e-6 s :=
    (Reachable.start hd).performAll (fun _ => hpermitted) hs
  exact ⟨model, s, set, hmodel, hfound, ⟨r, hr, beq_iff_eq.mp hrun⟩,
    computed_conflicts_assert.2 hmodel hreach none set hfound 2 3⟩

end BranchBound
