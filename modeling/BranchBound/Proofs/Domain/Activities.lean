import Mathlib
import BranchBound.Proofs.Domain.Backtracking
import BranchBound.Proofs.Domain.Counters
import BranchBound.Proofs.Domain.Derivation
import BranchBound.Proofs.Domain.Unrolling
import BranchBound.Proofs.Model.Numbers

/-!
# Activities that follow the bounds

The activities of rows and cuts are updated one term at a time, whenever a bound moves in either
direction, and are never looked at as a whole. Still they are at any time what they would be if
they were computed from the current bounds. The number of infinite terms is right whatever numbers
are used; the finite sums are right if the numbers are exact.
-/

namespace BranchBound

open Checked

variable {α : Type} [Scalar α]

namespace Domain

/-- The number of entries whose term is infinite at the bounds that a rule picks. -/
def infiniteEntries (d : Domain α) (pick : α → Side) (entries : List (ColumnId × α)) : Nat :=
  entries.countP fun e => Scalar.isInfinite (d.values (pick e.2) e.1)

/-- The infinite terms of every row, on both sides, and of every known cut are counted. -/
structure CountsInfinite (d : Domain α) : Prop where
  rows : ∀ (r : RowId) row, d.model.rows[r]? = some row → ∃ activity, d.activities[r]? =
    some activity ∧
    activity.min.infinite = d.infiniteEntries minSide row.entries ∧
    activity.max.infinite = d.infiniteEntries maxSide row.entries
  cuts : ∀ (i : Nat) p id cut min, d.cutPropagations[i]? = some p → p.known id = some (cut, min) →
    min.infinite = d.infiniteEntries minSide cut.entries

/-- The activities of every row and of every known cut are those computed from the bounds. -/
structure Recomputes (d : Domain α) : Prop where
  rows : ∀ (r : RowId) row, d.model.rows[r]? = some row → ∃ activity, d.activities[r]? =
    some activity ∧
    Returns (d.refreshActivity r) fun d' => ∃ computed, d'.activities[r]? = some computed ∧
      computed.min = activity.min ∧ computed.max = activity.max
  cuts : ∀ (i : Nat) p id cut min, d.cutPropagations[i]? = some p → p.known id = some (cut, min) →
    CutPropagation.minActivity d.lower d.upper cut.entries = .ok min

theorem infiniteTerms_termsAt (d : Domain α) (pick : α → Side) (entries : List (ColumnId × α)) :
    infiniteTerms (termsAt d.values pick entries) = d.infiniteEntries pick entries := by
  induction entries with
  | nil => rfl
  | cons e rest ih =>
      rw [termsAt_cons, infiniteTerms_cons, ih, infiniteEntries, infiniteEntries,
        List.countP_cons]

variable {T : Tracking α} {d : Domain α}

/-- A settled domain counts its infinite terms. -/
theorem Settled.countsInfinite {hα : EqualInfinities α} (h : d.Settled (.counting hα)) :
    d.CountsInfinite where
  rows := fun r row hrow => by
    obtain ⟨activity, hactivity, hmin, hmax⟩ := h.coherent.rows r row hrow
    exact ⟨activity, hactivity, hmin.trans (d.infiniteTerms_termsAt ..),
      hmax.trans (d.infiniteTerms_termsAt ..)⟩
  cuts := fun i p id cut min hp hknown =>
    ((h.coherent.cuts i p hp).tracks id cut min hknown).trans (d.infiniteTerms_termsAt ..)

/-- The minimal activity of a known cut can be computed from the bounds of a settled domain. -/
theorem Settled.minActivity_returns (h : d.Settled T) {entries : List (ColumnId × α)}
    (hentries : ∀ e ∈ entries, e.1 < d.model.columns.size ∧ T.coefficient e.2) :
    Returns (CutPropagation.minActivity d.lower d.upper entries) fun min =>
      T.tracks min (termsAt d.values minSide entries) 0 := by
  have hreturns : Returns (CutPropagation.minActivity d.lower d.upper entries) fun _ => True := by
    refine foldlM_returns (P := fun _ => True) (fun sum e he _ => ?_) trivial
    have hbound : ∀ side, e.1 < (d.bounds side).size := fun side =>
      (h.coherent.bounds_size side).symm ▸ (hentries e he).1
    have hlt : e.1 < (if 0 < e.2 then d.lower else d.upper).size := by
      split
      · exact hbound .lower
      · exact hbound .upper
    exact (fetch_returns hlt).bind fun _ _ _ => .pure trivial
  refine hreturns.mono fun min hmin _ => ?_
  rw [CutPropagation.minActivity_eq_ok (fun _ _ => values_lower) (fun _ _ => values_upper) hmin]
  have htracks := Tracking.tracks_foldl_addTerm h.admissible minSide
    (fun e he => (hentries e he).2) T.zero
  rwa [add_zero] at htracks

end Domain

/-- The terms and constants that a partial sum stands for determine it. -/
theorem PartialSum.Exactly.unique {s s' : PartialSum Exact} {terms : Multiset (Exact × Exact)}
    {constants : Multiset Exact} (h : s.Exactly terms constants)
    (h' : s'.Exactly terms constants) : s = s' := by
  cases s
  cases s'
  have hfinite := h.finite.trans h'.finite.symm
  have hinfinite := h.infinite.trans h'.infinite.symm
  cases hfinite
  cases hinfinite
  rfl

/-- Over exact numbers the activities of a settled domain are those computed from the bounds. -/
theorem Domain.Settled.recomputes {R : Exact.Range} {d : Domain Exact}
    (h : d.Settled (.exact R)) : d.Recomputes where
  rows := fun r row hrow => by
    obtain ⟨activity, hactivity, hmin, hmax⟩ := h.coherent.rows r row hrow
    refine ⟨activity, hactivity, ?_⟩
    have hr := (Array.getElem?_eq_some_iff.mp hrow).1
    refine (h.refreshActivity_returns hr).mono fun d' _ hd' => ?_
    obtain ⟨hsettled, hsame⟩ := hd'
    have hmodel : d'.model = d.model := (congrArg Domain.model hsame :)
    have hvalues : d'.values = d.values := by rw [hsame]; rfl
    obtain ⟨computed, hcomputed, hmin', hmax'⟩ := hsettled.coherent.rows r row (hmodel ▸ hrow)
    rw [hvalues] at hmin' hmax'
    exact ⟨computed, hcomputed, hmin'.unique hmin, hmax'.unique hmax⟩
  cuts := fun i p id cut min hp hknown => by
    have hcuts := h.coherent.cuts i p hp
    obtain ⟨computed, hcomputed, htracks⟩ :=
      h.minActivity_returns (hcuts.entries id cut min hknown)
    rw [hcomputed, PartialSum.Exactly.unique htracks (hcuts.tracks id cut min hknown)]

/-- Incremental activities equal recomputation. In every state that a domain of a model reaches,
the infinite terms of every row, on both sides, and of every propagated cut are counted, and no
operation takes one off a counter that is zero. With exact numbers, if the changes are to finite or
infinite bounds and cuts have finite coefficients, every activity equals the one computed from the
current bounds. -/
theorem activities_follow_bounds :
    (∀ {α : Type} [Scalar α], EqualInfinities α →
      ∀ {draft : Draft α} {model : Model α} {feastol : α} {s : PropagationState α},
        draft.build = .ok model → Reachable (fun _ _ => True) model feastol s →
          s.domain.CountsInfinite ∧
          ∀ op : Operation α, op.perform s ≠ .error .counterUnderflow) ∧
    ∀ {draft : Draft Exact} {model : Model Exact} {feastol : Exact} {s : PropagationState Exact},
      draft.build = .ok model →
        Reachable (fun _ op => op.Brings (.exact .any)) model feastol s → s.domain.Recomputes := by
  refine ⟨?_, ?_⟩
  · intro α _ hα draft model feastol s hmodel hreach
    have hsettled : s.Settled (.counting hα) :=
      hreach.settled (counting_derives hα model) (fun _ op _ => counting_brings hα op)
        (Draft.wellFormed_of_build hmodel) (counting_readable hα model)
    exact ⟨hsettled.domain.countsInfinite, fun op => hsettled.perform_counted op⟩
  · intro draft model feastol s hmodel hreach
    have hsettled : s.Settled (.exact .any) :=
      hreach.settled (Exact.derives_any model) (fun _ _ hbrings => hbrings)
        (Draft.wellFormed_of_build hmodel) (Draft.readable_of_build hmodel)
    exact hsettled.domain.recomputes

/-- Two columns without an upper bound, and a row over both. -/
def unboundedColumns : Draft Exact :=
  ⟨#[⟨0, 0, Scalar.infinity, .integer⟩, ⟨0, 0, Scalar.infinity, .integer⟩],
    #[⟨-Scalar.infinity, 4, [(0, 1), (1, -1)]⟩], 0⟩

/-- A decision gives a column an upper bound, and a cut is propagated. -/
def boundingRun : List (Operation Exact) :=
  [.newCutPool 5, .attachCuts 0, .insertCut 0 ⟨[(0, 1), (1, -2)], 3⟩ 5,
    .changeBound (.atMost 1 2) .branching, .propagate]

theorem boundingRun_brings : ∀ op ∈ boundingRun, op.Brings (.exact .any) := by
  simp only [boundingRun, List.forall_mem_cons, List.not_mem_nil, false_imp_iff, implies_true,
    and_true, Operation.Brings, Tracking.exact, Exact.Range.any, BoundChange.atMost, true_and]
  exact ⟨⟨⟨1, by simp⟩, ⟨-2, by simp⟩⟩, by simp⟩

/-- The activities follow the bound that a decision sets and those that are derived from it. -/
theorem bounding_run_follows_bounds :
    ∃ (model : Model Exact) (s : PropagationState Exact),
      Reachable (fun _ op => op.Brings (.exact .any)) model 1e-6 s ∧ s.domain.log.size = 2 ∧
      (s.domain.cutPropagations.any fun p => (p.known 0).isSome) = true ∧
      s.domain.CountsInfinite ∧ s.domain.Recomputes ∧
      ∀ op : Operation Exact, op.perform s ≠ .error .counterUnderflow := by
  have hrun : passes unboundedColumns.build (fun model =>
      passes (Domain.ofModel model 1e-6) fun d =>
        passes (boundingRun.foldlM (fun s op => op.perform s) ⟨.empty, d⟩) fun s =>
          s.domain.log.size == 2 && s.domain.cutPropagations.any fun p => (p.known 0).isSome) =
            true := by
    rw [(Operation.performUnrolled 100).property]
    decide +kernel
  obtain ⟨model, hmodel, hrun⟩ := passes_eq_true.mp hrun
  obtain ⟨d, hd, hrun⟩ := passes_eq_true.mp hrun
  obtain ⟨s, hs, hrun⟩ := passes_eq_true.mp hrun
  rw [Bool.and_eq_true, beq_iff_eq] at hrun
  have hreach : ∀ permitted, (∀ s, ∀ op ∈ boundingRun, permitted s op) →
      Reachable permitted model 1e-6 s := fun permitted hpermitted =>
    (Reachable.start hd).performAll hpermitted hs
  have hexact := hreach (fun _ op => op.Brings (.exact .any)) fun _ => boundingRun_brings
  obtain ⟨hcounts, hcounted⟩ := activities_follow_bounds.1 Exact.equalInfinities hmodel
    (hreach (fun _ _ => True) fun _ _ _ => trivial)
  exact ⟨model, s, hexact, hrun.1, hrun.2, hcounts,
    activities_follow_bounds.2 hmodel hexact, hcounted⟩

end BranchBound
