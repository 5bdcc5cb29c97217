import BranchBound.Domain.Objective
import BranchBound.Proofs.Domain.Settled

/-!
# Preparing a domain

Besides changes and backtracking there are operations that compute what follows the bounds anew,
attach pools, and set up the objective. All of them leave a domain settled, and `Domain.ofModel`
starts with a settled one.
-/

namespace BranchBound

open Checked

/-- An integer column with model bounds within zero and one. -/
def Model.Binary {α : Type} [Scalar α] (m : Model α) (c : ColumnId) : Prop :=
  ∃ column, m.columns[c]? = some column ∧ column.kind = .integer ∧ 0 ≤ column.lower ∧
    column.upper ≤ 1

namespace Domain

variable {α : Type} [Scalar α] {T : Tracking α} {β : BoundValues α} {d d' : Domain α}

/-- Operations that concern nothing which follows the bounds leave a domain settled. -/
theorem Settled.congr (h : d.Settled T) (htrail : d'.trail = d.trail) (hmodel : d'.model = d.model)
    (hrowDirty : d'.rowDirty.size = d.rowDirty.size)
    (hmovedSides : d'.movedSides.size = d.movedSides.size)
    (hwaiting : ∀ r ∈ d'.waitingRows, r ∈ d.waitingRows ∨ r < d.model.rows.size)
    (hactivities : d'.activities = d.activities)
    (hcuts : ∀ (i : Nat) p', d'.cutPropagations[i]? = some p' →
      ∃ p, d.cutPropagations[i]? = some p ∧ p.Agrees p')
    (hconflicts : ∀ (i : Nat) p', d'.conflictPropagations[i]? = some p' →
      ∃ p, d.conflictPropagations[i]? = some p ∧ p.Agrees p')
    (hobjective : ∀ o', d'.objective = some o' → ∃ o, d.objective = some o ∧
      o' = { o with cutoff := o'.cutoff, needsPropagation := o'.needsPropagation }) :
    d'.Settled T := by
  have hbounds : ∀ side, d'.bounds side = d.bounds side := fun side => by
    rw [← trail_bounds, htrail, trail_bounds]
  have hvalues := values_congr hbounds
  have hlog : d'.log = d.log := congrArg Trail.log htrail
  refine ⟨?_, hvalues ▸ h.admissible, ?_⟩
  · rw [hvalues]
    exact h.coherent.congr hmodel (fun side => by rw [hbounds]) hrowDirty hmovedSides hwaiting
      hactivities
      hcuts hconflicts hobjective
  · rw [hlog, hmodel]
    exact h.logged

/-- Making constraints wait, or taking them from the queues, leaves a domain settled. -/
theorem Settled.markInfeasible (h : d.Settled T) (reason : Reason) :
    (d.markInfeasible reason).Settled T := by
  unfold Domain.markInfeasible setInfeasible
  split
  · exact h
  · exact h.congr rfl rfl rfl rfl (fun _ hr => .inl hr) rfl (fun i p hp => ⟨p, hp, .refl p⟩)
      (fun i p hp => ⟨p, hp, .refl p⟩) (fun o ho => ⟨o, ho, rfl⟩)

section Activity

theorem addTerm_min (activity : Activity α) (β : BoundValues α) (c : ColumnId) (a : α) :
    (activity.addTerm a (β .lower c) (β .upper c)).min =
      activity.min.addTerm a (β (minSide a) c) := by
  unfold Activity.addTerm minSide
  split <;> rfl

theorem addTerm_max (activity : Activity α) (β : BoundValues α) (c : ColumnId) (a : α) :
    (activity.addTerm a (β .lower c) (β .upper c)).max =
      activity.max.addTerm a (β (maxSide a) c) := by
  unfold Activity.addTerm maxSide minSide
  split <;> rfl

/-- An activity computed from the bounds stands for the terms of the entries. -/
theorem activity_returns (hβ : T.Admissible d.values) {columnCount : Nat}
    (hbounds : ∀ side, (d.bounds side).size = columnCount) {entries : List (ColumnId × α)}
    (hentries : ∀ e ∈ entries, e.1 < columnCount ∧ T.coefficient e.2) {activity : Activity α}
    {minTerms maxTerms : Multiset (α × α)} (hmin : T.tracks activity.min minTerms 0)
    (hmax : T.tracks activity.max maxTerms 0) :
    Returns (entries.foldlM (fun (activity : Activity α) e => do
        return activity.addTerm e.2 (← d.boundValue .lower e.1) (← d.boundValue .upper e.1))
      activity) fun activity =>
        T.tracks activity.min (termsAt d.values minSide entries + minTerms) 0 ∧
        T.tracks activity.max (termsAt d.values maxSide entries + maxTerms) 0 := by
  induction entries generalizing activity minTerms maxTerms with
  | nil =>
      refine .pure ⟨?_, ?_⟩
      · rw [termsAt_nil, zero_add]
        exact hmin
      · rw [termsAt_nil, zero_add]
        exact hmax
  | cons e rest ih =>
      obtain ⟨hc, ha⟩ := hentries e (List.mem_cons_self ..)
      have hvalue : ∀ side, d.boundValue side e.1 = .ok (d.values side e.1) := fun side =>
        boundValue_of_lt ((hbounds side).symm ▸ hc)
      rw [List.foldlM_cons]
      simp only [hvalue, ok_bind, pure_bind]
      have hmin' := T.addTerm ha (hβ (minSide e.2) e.1) hmin
      have hmax' := T.addTerm ha (hβ (maxSide e.2) e.1) hmax
      rw [← addTerm_min] at hmin'
      rw [← addTerm_max] at hmax'
      refine (ih (fun e' he' => hentries e' (List.mem_cons_of_mem _ he')) hmin' hmax').mono
        fun final _ hfinal => ?_
      rw [termsAt_cons, termsAt_cons, Multiset.cons_add, Multiset.cons_add, ← Multiset.add_cons,
        ← Multiset.add_cons]
      exact hfinal

/-- Computing the activity of a row anew makes it follow the bounds. -/
theorem refreshActivity_returns (columnCount : Nat) (hβ : T.Admissible d.values)
    (hbounds : ∀ side, (d.bounds side).size = columnCount) {r : RowId} {row : Row α}
    (hrow : d.model.rows[r]? = some row) (hr : r < d.activities.size)
    (hentries : ∀ e ∈ row.entries, e.1 < columnCount ∧ T.coefficient e.2) :
    Returns (d.refreshActivity r) fun d' => ∃ activity,
      d' = { d with activities := d.activities.setIfInBounds r activity } ∧
      T.tracks activity.min (termsAt d.values minSide row.entries) 0 ∧
      T.tracks activity.max (termsAt d.values maxSide row.entries) 0 := by
  have hfetch : d.model.row r = .ok row := fetch_eq_ok.mpr hrow
  simp only [refreshActivity, hfetch, ok_bind]
  refine (activity_returns hβ hbounds hentries T.zero T.zero).bind fun activity _ htracks => ?_
  rw [add_zero, add_zero] at htracks
  refine (store_returns activity hr).bind fun activities _ hactivities => ?_
  subst hactivities
  exact .pure ⟨activity, rfl, htracks⟩

end Activity

/-- Refreshing the activity of a row returns and leaves a domain settled. -/
theorem Settled.refreshActivity_returns (h : d.Settled T) {r : RowId}
    (hr : r < d.model.rows.size) :
    Returns (d.refreshActivity r) fun d' => d'.Settled T ∧
      d' = { d with activities := d'.activities } := by
  have hrow := Array.getElem?_eq_getElem hr
  obtain ⟨old, hold, -⟩ := h.coherent.rows r _ hrow
  have hlt := (Array.getElem?_eq_some_iff.mp hold).1
  refine (Domain.refreshActivity_returns _ h.admissible h.coherent.bounds_size hrow hlt fun e he =>
    ⟨h.coherent.wellFormed.entry_lt r _ hrow e he, h.coherent.coefficients r _ hrow e he⟩).mono
      fun d' _ hd' => ?_
  obtain ⟨activity, rfl, hmin, hmax⟩ := hd'
  refine ⟨⟨{ h.coherent with rows := fun r' row' hrow' => ?_ }, h.admissible, h.logged⟩, rfl⟩
  by_cases heq : r = r'
  · subst heq
    obtain rfl := Option.some.inj (hrow.symm.trans hrow')
    exact ⟨activity, Array.getElem?_setIfInBounds_self_of_lt hlt, hmin, hmax⟩
  · obtain ⟨activity', hactivity', htracks⟩ := h.coherent.rows r' row' hrow'
    refine ⟨activity', ?_, htracks⟩
    rw [Array.getElem?_setIfInBounds_ne heq]
    exact hactivity'

/-- While all activities are computed anew, those of the first rows follow the bounds. -/
structure Refreshed (T : Tracking α) (start : Domain α) (k : Nat) (d : Domain α) : Prop where
  same : d = { start with
    activities := d.activities
    waitingRows := d.waitingRows
    rowDirty := d.rowDirty }
  rowDirty_size : d.rowDirty.size = start.rowDirty.size
  waiting : ∀ r ∈ d.waitingRows, r < start.model.rows.size
  activities_size : d.activities.size = start.activities.size
  rows : ∀ (r : RowId) (row : Row α), r < k → start.model.rows[r]? = some row →
    ∃ activity, d.activities[r]? = some activity ∧
      T.tracks activity.min (termsAt start.values minSide row.entries) 0 ∧
      T.tracks activity.max (termsAt start.values maxSide row.entries) 0

theorem Refreshed.step {start : Domain α} (h : start.Framed T start.values)
    (hβ : T.Admissible start.values)
    (hactivities : start.model.rows.size ≤ start.activities.size) {k : Nat}
    (hk : k < start.model.rows.size) (hd : Refreshed T start k d) :
    Returns (do (← d.refreshActivity k).markRowDirty k) (Refreshed T start (k + 1)) := by
  have hsame := hd.same
  have hbounds : ∀ side, d.bounds side = start.bounds side := fun side => by
    rw [hsame]
    cases side <;> rfl
  have hvalues : d.values = start.values := values_congr hbounds
  have hmodel : d.model = start.model := by rw [hsame]
  have hrow := Array.getElem?_eq_getElem hk
  have hfound : d.model.rows[k]? = some start.model.rows[k] := by
    rw [hmodel]
    exact hrow
  have hlt : k < d.activities.size := by
    rw [hd.activities_size]
    omega
  refine (refreshActivity_returns start.model.columns.size (T := T) ?_
    (fun side => ?_) hfound hlt fun e he => ⟨h.wellFormed.entry_lt k _ hrow e he,
      h.coefficients k _ hrow e he⟩).bind fun next _ hnext => ?_
  · exact hvalues ▸ hβ
  · rw [hbounds]
    exact h.bounds_size side
  · obtain ⟨activity, rfl, htracks⟩ := hnext
    have hdirty : k < d.rowDirty.size := by
      rw [hd.rowDirty_size, h.rowDirty_size]
      exact hk
    refine (markRowDirty_returns (d := { d with
      activities := d.activities.setIfInBounds k activity }) hdirty).mono fun d' hd' _ => ?_
    have hmarked := markRowDirty_eq_ok hd'
    have hsize := markRowDirty_size hd'
    have hwaiting : ∀ r ∈ d'.waitingRows, r < start.model.rows.size := fun r hr => by
      rcases markRowDirty_waiting hd' r hr with hr | ⟨rfl, -⟩
      · exact hd.waiting r hr
      · exact hk
    rw [hmarked]
    refine ⟨?_, hsize.trans hd.rowDirty_size, hwaiting, ?_, fun r row hr hrow' => ?_⟩
    · rw [hsame]
    · rw [Array.size_setIfInBounds]
      exact hd.activities_size
    · by_cases heq : k = r
      · subst heq
        obtain rfl := Option.some.inj (hrow.symm.trans hrow')
        exact ⟨activity, Array.getElem?_setIfInBounds_self_of_lt hlt, hvalues ▸ htracks⟩
      · obtain ⟨activity', hactivity', htracks'⟩ := hd.rows r row
          (Nat.lt_of_le_of_ne (Nat.le_of_lt_succ hr) (Ne.symm heq)) hrow'
        refine ⟨activity', ?_, htracks'⟩
        rw [Array.getElem?_setIfInBounds_ne heq]
        exact hactivity'

/-- Computing all activities and the objective anew makes them follow the bounds. -/
theorem refreshActivities_settled (h : d.Framed T d.values) (hβ : T.Admissible d.values)
    (hlogged : ∀ entry ∈ d.log,
      entry.change.column < d.model.columns.size ∧ T.value entry.previous.value)
    (hactivities : d.model.rows.size ≤ d.activities.size)
    (hobjective : ∀ o, d.objective = some o → o.Over T d.model.columns.size)
    (hrefresh : d.refreshActivities = .ok d') :
    d'.Settled T ∧ d'.trail = d.trail ∧ d'.infeasible = d.infeasible ∧ SameSetting d d' := by
  simp only [refreshActivities, bind_eq_ok] at hrefresh
  obtain ⟨d₁, hloop, hrefresh⟩ := hrefresh
  have hstart : Refreshed T d 0 d :=
    ⟨rfl, rfl, h.waiting, rfl, fun r row hr _ => absurd hr (Nat.not_lt_zero r)⟩
  have hdone : Refreshed T d d.model.rows.size d₁ :=
    (foldlM_range_returns (fun k s hk hs => hs.step h hβ hactivities hk) hstart).of_eq_ok hloop
  have hsame := hdone.same
  have hbounds : ∀ side, d₁.bounds side = d.bounds side := fun side => by
    rw [hsame]
    cases side <;> rfl
  have hvalues : d₁.values = d.values := values_congr hbounds
  have hframed : d₁.Framed T d₁.values := by
    rw [hvalues, hsame]
    exact { h with
      rowDirty_size := hdone.rowDirty_size.trans h.rowDirty_size
      waiting := hdone.waiting }
  have hmodel : d₁.model = d.model := by rw [hsame]
  have hobjective₁ : d₁.objective = d.objective := by rw [hsame]
  have hrows : ∀ (r : RowId) (row : Row α), d₁.model.rows[r]? = some row →
      ∃ activity, d₁.activities[r]? = some activity ∧
        T.tracks activity.min (termsAt d₁.values minSide row.entries) 0 ∧
        T.tracks activity.max (termsAt d₁.values maxSide row.entries) 0 := by
    rw [hmodel, hvalues]
    exact fun r row hrow => hdone.rows r row (Array.getElem?_eq_some_iff.mp hrow).1 hrow
  have hkept : d₁.trail = d.trail ∧ d₁.infeasible = d.infeasible ∧ SameSetting d d₁ := by
    rw [hsame]
    exact ⟨rfl, rfl, rfl, rfl, rfl, rfl⟩
  obtain ⟨htrail, hinfeasible, hsetting⟩ := hkept
  have hlogged₁ : ∀ entry ∈ d₁.log,
      entry.change.column < d₁.model.columns.size ∧ T.value entry.previous.value := by
    rw [hsame]
    exact hlogged
  split at hrefresh
  · next hnone =>
      obtain rfl := pure_eq_ok.mp hrefresh
      exact ⟨⟨⟨hframed, hrows, fun o ho => nomatch hnone.symm.trans ho⟩, hvalues ▸ hβ, hlogged₁⟩,
        htrail, hinfeasible, hsetting⟩
  · next o ho =>
      simp only [bind_eq_ok, pure_eq_ok] at hrefresh
      obtain ⟨fresh, hfresh, rfl⟩ := hrefresh
      have hover : o.Over T d₁.model.columns.size := hmodel ▸ hobjective o (hobjective₁ ▸ ho)
      have hcoherent := (ObjectivePropagation.recompute_coherent (β := d₁.values) hover
        (hvalues ▸ hβ) (fun _ _ => values_lower) (fun _ _ => values_upper) hfresh).1
      refine ⟨⟨⟨{ hframed with }, hrows, fun o' ho' => ?_⟩, hvalues ▸ hβ, hlogged₁⟩,
        htrail, hinfeasible, ⟨hsetting.model, hsetting.feastol, hsetting.cliques,
          hsetting.variableBounds⟩⟩
      obtain rfl : fresh = o' := Option.some.inj ho'
      exact hcoherent

/-- Refreshing a settled domain leaves it settled. -/
theorem Settled.refreshActivities (h : d.Settled T) (hrefresh : d.refreshActivities = .ok d') :
    d'.Settled T ∧ d'.trail = d.trail ∧ d'.infeasible = d.infeasible ∧ SameSetting d d' := by
  refine refreshActivities_settled h.coherent.toFramed h.admissible h.logged ?_
    (fun o ho => (h.coherent.objective o ho).toOver) hrefresh
  by_contra hlt
  have hr : d.activities.size < d.model.rows.size := Nat.lt_of_not_le hlt
  obtain ⟨activity, hactivity, -⟩ := h.coherent.rows _ _ (Array.getElem?_eq_getElem hr)
  exact Nat.lt_irrefl _ (Array.getElem?_eq_some_iff.mp hactivity).1

/-- The numbers of a model may be coefficients and bounds. -/
structure Readable (T : Tracking α) (m : Model α) : Prop where
  coefficients : ∀ (r : RowId) (row : Row α), m.rows[r]? = some row →
    ∀ e ∈ row.entries, T.coefficient e.2
  costs : ∀ (c : ColumnId) (column : Column α), m.columns[c]? = some column →
    T.coefficient column.cost
  bounds : ∀ (c : ColumnId) (column : Column α), m.columns[c]? = some column →
    T.value column.lower ∧ T.value column.upper

/-- The domain of a model is settled. -/
theorem ofModel_settled {model : Model α} (hmodel : model.WellFormed) (hread : Readable T model)
    {feastol : α} (h : ofModel model feastol = .ok d) :
    d.Settled T ∧ d.model = model ∧ d.feastol = feastol ∧ d.log = #[] ∧ d.branchings = #[] ∧
      d.infeasible = none := by
  unfold ofModel at h
  generalize hstart : ({ model := model, .. } : Domain α) = start at h
  have hvalues : T.Admissible start.values := by
    intro side c
    subst hstart
    cases hcolumn : model.columns[c]? with
    | none =>
        cases side <;> simp only [values, bounds, Array.getElem?_map, hcolumn, Option.map_none,
          Option.elim_none] <;> exact T.zero_value
    | some column =>
        obtain ⟨hlower, hupper⟩ := hread.bounds c column hcolumn
        cases side with
        | lower => simpa [values, bounds, hcolumn] using hlower
        | upper => simpa [values, bounds, hcolumn] using hupper
  have hframed : start.Framed T start.values := by
    subst hstart
    refine ⟨hmodel, hread.coefficients, hread.costs, fun side => ?_, Array.size_map ..,
      fun r hr => absurd hr List.not_mem_nil, Array.size_map .., fun i p hp => by simp at hp,
      fun i p hp => by simp at hp⟩
    cases side <;> exact Array.size_map ..
  have hlogged : ∀ entry ∈ start.log,
      entry.change.column < start.model.columns.size ∧ T.value entry.previous.value := by
    subst hstart
    exact fun entry hentry => by simp at hentry
  have hrefreshed := refreshActivities_settled hframed hvalues hlogged
    (by subst hstart; exact Nat.le_of_eq (Array.size_map ..).symm)
    (by subst hstart; intro o ho; cases ho) h
  obtain ⟨hsettled, htrail, hinfeasible, hsetting⟩ := hrefreshed
  subst hstart
  exact ⟨hsettled, hsetting.model, hsetting.feastol, congrArg Trail.log htrail,
    congrArg Trail.branchings htrail, hinfeasible⟩

/-- A pool that was just attached is not known yet, and the others stay. -/
theorem of_getElem?_push {β : Type} {xs : Array β} {x y : β} {i : Nat}
    (h : (xs.push x)[i]? = some y) : xs[i]? = some y ∨ i = xs.size ∧ y = x := by
  rw [Array.getElem?_push] at h
  split at h
  · next heq => exact .inr ⟨heq, (Option.some.inj h).symm⟩
  · exact .inl h

theorem Settled.attachCuts (h : d.Settled T) (pool : PoolId) : (d.attachCuts pool).2.Settled T := by
  have hcount : d.columnCount = d.model.columns.size := h.coherent.bounds_size .lower
  refine ⟨⟨{ h.coherent.toFramed with cuts := fun i p hp => ?_ }, h.coherent.rows,
    h.coherent.objective⟩, h.admissible, h.logged⟩
  rcases of_getElem?_push hp with hp | ⟨-, rfl⟩
  · exact h.coherent.cuts i p hp
  · rw [hcount]
    exact CutPropagation.coherent_ofPool pool

theorem Settled.attachConflicts (h : d.Settled T) (pool : PoolId) :
    (d.attachConflicts pool).2.Settled T := by
  refine ⟨⟨{ h.coherent.toFramed with conflicts := fun i p hp => ?_ }, h.coherent.rows,
    h.coherent.objective⟩, h.admissible, h.logged⟩
  rcases of_getElem?_push hp with hp | ⟨-, rfl⟩
  · exact h.coherent.conflicts i p hp
  · exact Array.size_replicate.trans (h.coherent.bounds_size .lower)

theorem Settled.setCliques (h : d.Settled T) (cliques : CliqueTable) :
    (d.setCliques cliques).Settled T :=
  ⟨{ h.coherent with }, h.admissible, h.logged⟩

theorem Settled.setVariableBounds (h : d.Settled T) (bounds : VariableBounds α) :
    (d.setVariableBounds bounds).Settled T :=
  ⟨{ h.coherent with }, h.admissible, h.logged⟩

/-- Forgetting which bounds moved. -/
theorem Settled.clearMoved (h : d.Settled T) : d.clearMoved.Settled T := by
  have hsize : d.clearMoved.movedSides.size = d.movedSides.size := by
    unfold Domain.clearMoved
    dsimp only
    generalize d.movedSides = sides
    induction d.movedColumns generalizing sides with
    | nil => rfl
    | cons c rest ih => rw [List.foldl_cons, ih, Array.size_setIfInBounds]
  exact h.congr rfl rfl rfl hsize (fun _ hr => .inl hr) rfl (fun i p hp => ⟨p, hp, .refl p⟩)
    (fun i p hp => ⟨p, hp, .refl p⟩) (fun o ho => ⟨o, ho, rfl⟩)

section Objective

theorem isBinary_eq_ok {c : ColumnId} : d.isBinary c = .ok true ↔ d.model.Binary c := by
  simp only [isBinary, Model.column, bind_eq_ok, fetch_eq_ok, pure_eq_ok, Bool.and_eq_true,
    decide_eq_true_eq, beq_iff_eq, and_assoc, Model.Binary]

/-- The columns of a partition are binary with a negative cost. -/
structure Partitioned (d : Domain α) (c : ColumnId) : Prop where
  binary : d.model.Binary c
  cost : ∃ column, d.model.columns[c]? = some column ∧ column.cost < 0

theorem isPartition_eq_ok {partitionOf : Array (Option Nat)} {columns : List ColumnId}
    (h : d.isPartition partitionOf columns = .ok true) :
    ∀ c ∈ columns, d.Partitioned c := by
  unfold isPartition at h
  split at h
  · cases h
  · intro c hc
    have htest := allHold_eq_ok h c hc
    simp only [bind_eq_ok] at htest
    obtain ⟨binary, hbinary, htest⟩ := htest
    cases binary with
    | false => cases htest
    | true =>
        simp only [Bool.not_true, Bool.false_eq_true, if_false, bind_eq_ok, Model.column,
          fetch_eq_ok] at htest
        obtain ⟨column, hcolumn, htest⟩ := htest
        refine ⟨isBinary_eq_ok.mp hbinary, column, hcolumn, ?_⟩
        by_contra hcost
        simp [hcost, pure_eq_ok] at htest

/-- Numbering partitions gives every column of a partition a number below their count. -/
theorem numberPartitions_eq_ok {numbered count : Nat} {partitionOf table : Array (Option Nat)}
    {lists : List (List ColumnId)}
    (h : d.numberPartitions numbered partitionOf lists = .ok (count, table))
    (hstart : ∀ (c : ColumnId) i, partitionOf[c]? = some (some i) → i < numbered ∧
      d.Partitioned c) :
    table.size = partitionOf.size ∧
      ∀ (c : ColumnId) i, table[c]? = some (some i) → i < count ∧ d.Partitioned c := by
  induction lists generalizing numbered partitionOf with
  | nil =>
      cases h
      exact ⟨rfl, hstart⟩
  | cons columns rest ih =>
      simp only [numberPartitions, bind_eq_ok] at h
      obtain ⟨valid, hvalid, h⟩ := h
      cases valid with
      | false => exact ih h hstart
      | true =>
          simp only [if_true, bind_eq_ok] at h
          obtain ⟨marked, hmarked, h⟩ := h
          have hcolumns := isPartition_eq_ok hvalid
          have hkeeps : marked.size = partitionOf.size ∧ ∀ (c : ColumnId) i,
              marked[c]? = some (some i) → i < numbered + 1 ∧ d.Partitioned c := by
            refine foldlM_keeps (P := fun table : Array (Option Nat) =>
              table.size = partitionOf.size ∧ ∀ (c : ColumnId) i, table[c]? = some (some i) →
                i < numbered + 1 ∧ d.Partitioned c) (fun table c table' hc ht hstore => ?_) hmarked
              ⟨rfl, fun c i hi => ⟨Nat.lt_succ_of_lt (hstart c i hi).1, (hstart c i hi).2⟩⟩
            obtain ⟨-, rfl⟩ := store_eq_ok.mp hstore
            refine ⟨(Array.size_setIfInBounds ..).trans ht.1, fun c' i hi => ?_⟩
            rcases of_getElem?_setIfInBounds hi with ⟨rfl, hnumber⟩ | ⟨-, hkept⟩
            · obtain rfl := Option.some.inj hnumber
              exact ⟨Nat.lt_succ_self _, hcolumns _ hc⟩
            · exact ht.2 c' i hkept
          obtain ⟨hsize, htable⟩ := ih h hkeeps.2
          exact ⟨hsize.trans hkeeps.1, htable⟩

/-- The minimal objective value follows the bounds once it is set up. -/
theorem Settled.setupObjective (h : d.Settled T) {partitions : List (List ColumnId)}
    (hsetup : d.setupObjective partitions = .ok d') :
    d'.Settled T ∧ d'.trail = d.trail ∧ d'.infeasible = d.infeasible ∧ SameSetting d d' := by
  simp only [Domain.setupObjective, bind_eq_ok, pure_eq_ok] at hsetup
  obtain ⟨⟨count, table⟩, hnumber, objective, hobjective, rfl⟩ := hsetup
  have hcount : d.columnCount = d.model.columns.size := h.coherent.bounds_size .lower
  obtain ⟨hsize, htable⟩ := numberPartitions_eq_ok hnumber fun c i hi => by
    rw [Array.getElem?_replicate] at hi
    split at hi <;> simp at hi
  refine ⟨⟨⟨{ h.coherent.toFramed with }, h.coherent.rows, fun o ho => ?_⟩, h.admissible,
    h.logged⟩, rfl, rfl, ⟨rfl, rfl, rfl, rfl⟩⟩
  obtain rfl : objective = o := Option.some.inj ho
  refine (ObjectivePropagation.recompute_coherent (β := d.values) ?_ h.admissible
    (fun _ _ => values_lower) (fun _ _ => values_upper) hobjective).1
  refine ⟨Array.size_map .., ?_, fun c cost hcost => ?_, fun c i hi => ?_, fun i p hp => ?_⟩
  · rw [hsize, Array.size_replicate, hcount]
  · rw [Array.getElem?_map] at hcost
    obtain ⟨column, hcolumn, rfl⟩ := Option.map_eq_some_iff.mp hcost
    exact h.coherent.costs c column hcolumn
  · rw [Array.size_replicate]
    exact (htable c i hi).1
  · rw [Array.getElem?_replicate] at hp
    split at hp
    · cases hp
      exact ObjectivePartition.over_empty
    · cases hp

theorem Settled.setObjectiveCutoff (h : d.Settled T) (cutoff : α) :
    (d.setObjectiveCutoff cutoff).Settled T := by
  unfold Domain.setObjectiveCutoff
  split
  · exact h
  · next o ho =>
      dsimp only
      split
      · refine h.congr rfl rfl rfl rfl (fun _ hr => .inl hr) rfl (fun i p hp => ⟨p, hp, .refl p⟩)
          (fun i p hp => ⟨p, hp, .refl p⟩) fun o' ho' => ⟨o, ho, ?_⟩
        rw [← Option.some.inj ho']
      · exact h

end Objective

end Domain

end BranchBound
