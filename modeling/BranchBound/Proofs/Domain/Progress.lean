import BranchBound.Proofs.Counted
import BranchBound.Proofs.Domain.SoundRuns

/-!
# A round of propagation does not stop

In a sound state everything that propagation reads is there: the columns of rows, cuts, conflicts,
cliques and variable bounds exist, and so do the pools. So a round of propagation returns, whether
it finds the domain infeasible or not.
-/

namespace BranchBound

open Checked Exact

variable {f : ℚ} {a : Domain.Anchor}

namespace Domain

variable {d d' : Domain Exact} {T : Tracking Exact}

theorem Settled.boundValue_succeeds (h : d.Settled T) (side : Side) {c : ColumnId}
    (hc : c < d.model.columns.size) : Succeeds (d.boundValue side c) :=
  (fetch_succeeds (h.coherent.bounds_size side ▸ hc)).bind fun _ _ => succeeds_pure _

theorem Settled.acceptedBound_succeeds (h : d.Settled T) (side : Side) {c : ColumnId}
    (hc : c < d.model.columns.size) (bound : CompensatedSum Exact) :
    Succeeds (d.acceptedBound side c bound) := by
  unfold acceptedBound
  refine (h.boundValue_succeeds .upper hc).bind fun _ _ => ?_
  refine (h.boundValue_succeeds .lower hc).bind fun _ _ => ?_
  exact (fetch_succeeds hc).bind fun _ _ => succeeds_pure _

theorem Settled.impliedChanges_succeeds (h : d.Settled T) (rhs : Exact) (min : PartialSum Exact)
    {entries : List (ColumnId × Exact)} (hentries : ∀ e ∈ entries, e.1 < d.model.columns.size) :
    Succeeds (d.impliedChanges rhs min entries) := by
  refine collect_returns fun e he => ?_
  unfold impliedChange
  refine (h.boundValue_succeeds _ (hentries e he)).bind fun _ _ => ?_
  split
  · exact succeeds_pure none
  · exact h.acceptedBound_succeeds _ (hentries e he) _

/-- A bound is only accepted for a column that exists. -/
theorem acceptedBound_column_lt {side : Side} {c : ColumnId} {bound : CompensatedSum Exact}
    {change : BoundChange Exact} (h : d.acceptedBound side c bound = .ok (some change)) :
    change.column < d.model.columns.size := by
  simp only [acceptedBound, Model.column, bind_eq_ok, pure_eq_ok, fetch_eq_ok] at h
  obtain ⟨_, -, _, -, column, hcolumn, h⟩ := h
  obtain ⟨v, -, rfl⟩ := Option.map_eq_some_iff.mp h
  exact (Array.getElem?_eq_some_iff.mp hcolumn).1

theorem impliedChange_column_lt {rhs : Exact} {min : PartialSum Exact} {entry : ColumnId × Exact}
    {change : BoundChange Exact} (h : d.impliedChange rhs min entry = .ok (some change)) :
    change.column < d.model.columns.size := by
  simp only [impliedChange, bind_eq_ok] at h
  obtain ⟨_, -, h⟩ := h
  split at h
  · cases h
  · exact acceptedBound_column_lt h

/-- The cutoff implies changes of columns that are still available in a partition. -/
theorem mem_partitionChanges {o : ObjectivePropagation Exact} {feastol : Exact}
    {p : ObjectivePartition Exact} {change : BoundChange Exact}
    (h : change ∈ partitionChanges o feastol p) : ∃ y ∈ p.available, change.column = y.2 := by
  have hexcluded : ∀ residual threshold,
      change ∈ (excludedFromPartition residual threshold p.available).map
        (fun c => BoundChange.atMost c 0) → ∃ y ∈ p.available, change.column = y.2 := by
    intro residual threshold hmem
    obtain ⟨c, hc, rfl⟩ := List.mem_map.mp hmem
    obtain ⟨y, hy, rfl⟩ := List.mem_map.mp hc
    exact ⟨y, List.mem_reverse.mp ((List.takeWhile_sublist _).subset hy), rfl⟩
  simp only [partitionChanges] at h
  split at h
  · cases h
  · split at h
    · next cost c hone =>
        split at h
        · rcases List.mem_append.mp h with h | h
          · exact hexcluded _ _ h
          · rw [List.mem_singleton.mp h, hone]
            exact ⟨(cost, c), List.mem_singleton_self _, rfl⟩
        · exact hexcluded _ _ h
    · exact hexcluded _ _ h

/-- Only changes of columns that exist are derived. -/
theorem Sound.derived_column_lt (h : d.Sound a f) {change : BoundChange Exact} {reason : Reason}
    (hderived : d.Derived change reason) : change.column < d.model.columns.size := by
  cases hderived with
  | implication _ _ _ _ haccepted => exact acceptedBound_column_lt haccepted
  | rowUpper _ _ _ _ hchange => exact impliedChange_column_lt hchange
  | rowLower _ _ _ _ hchange => exact impliedChange_column_lt hchange
  | cut _ _ _ hchange => exact impliedChange_column_lt hchange
  | objective _ _ _ hchange => exact impliedChange_column_lt hchange
  | @conflict _ _ _ _ literal _ _ _ _ hchange =>
      simp only [flip, Model.isInteger, Model.column, bind_eq_ok, pure_eq_ok,
        fetch_eq_ok] at hchange
      obtain ⟨_, ⟨column, hcolumn, -⟩, rfl⟩ := hchange
      have hlt := (Array.getElem?_eq_some_iff.mp hcolumn).1
      split <;> exact hlt
  | @partition o p _ hobjective _ _ hpartition hchange =>
      obtain ⟨y, hy, hcolumn⟩ := mem_partitionChanges hchange
      obtain ⟨i, hi⟩ := Array.mem_iff_getElem?.mp hpartition
      obtain ⟨hmember, -⟩ := ((h.wellMade.placed o hobjective).partitions i p hi).1.available y hy
      rw [hcolumn, ← (h.settled.coherent.objective o hobjective).partitionOf_size]
      exact (Array.getElem?_eq_some_iff.mp hmember).1

/-- Changes of columns that exist return. -/
theorem Settled.changeBounds_succeeds (h : d.Settled T)
    {changes : List (BoundChange Exact × Reason)}
    (hcolumns : ∀ y ∈ changes, y.1.column < d.model.columns.size)
    (hvalues : ∀ y ∈ changes, T.value y.1.value) : Succeeds (d.changeBounds changes) := by
  refine (foldlM_returns (P := fun e : Domain Exact => e.Settled T ∧ e.model = d.model)
    (fun e y hy he => ?_) ⟨h, rfl⟩).succeeds
  have hc : y.1.column < e.model.columns.size := he.2 ▸ hcolumns y hy
  refine (changeBound_returns he.1 hc (hvalues y hy) y.2).mono fun e' _ he' => ⟨he'.1, ?_⟩
  exact he'.2.carried.setting.model.trans he.2

theorem Settled.rowChanges_succeeds (h : d.Settled T) {r : RowId} (hr : r < d.model.rows.size) :
    Succeeds (d.rowChanges r) := by
  have hsize : ∀ e : Domain Exact, e.Settled T → e.model = d.model → r < e.activities.size := by
    intro e he hmodel
    have hlt : r < e.model.rows.size := hmodel ▸ hr
    obtain ⟨activity, hactivity, -⟩ := he.coherent.rows r _ (Array.getElem?_eq_getElem hlt)
    exact (Array.getElem?_eq_some_iff.mp hactivity).1
  simp only [rowChanges, ← ite_bind]
  refine (fetch_succeeds (hsize d h rfl)).bind fun activity _ => ?_
  have hfresh : Returns
      (if Activity.refreshInterval < activity.updates then d.refreshActivity r else pure d)
      fun e : Domain Exact => e.Settled T ∧ e.model = d.model := by
    split
    · refine (h.refreshActivity_returns hr).mono fun e _ he => ⟨he.1, ?_⟩
      rw [he.2]
    · exact .pure ⟨h, rfl⟩
  refine hfresh.bind fun e _ he => ?_
  obtain ⟨hsettled, hmodel⟩ := he
  have hlt : r < e.model.rows.size := hmodel ▸ hr
  refine Succeeds.bind (fetch_succeeds hlt) fun row hfound => ?_
  have hcolumns : ∀ e' ∈ row.entries, e'.1 < e.model.columns.size :=
    hsettled.coherent.wellFormed.entry_lt r row (fetch_eq_ok.mp hfound)
  refine Succeeds.bind (fetch_succeeds (hsize e hsettled hmodel)) fun activity _ => ?_
  refine Succeeds.bind (.ite (fun _ => hsettled.impliedChanges_succeeds _ _ hcolumns)
    fun _ => succeeds_pure []) fun _ _ => ?_
  refine Succeeds.bind (.ite (fun _ => hsettled.impliedChanges_succeeds _ _ fun e' he' => ?_)
    fun _ => succeeds_pure []) fun _ _ => succeeds_pure _
  obtain ⟨e'', he'', rfl⟩ := List.mem_map.mp he'
  exact hcolumns e'' he''

theorem Settled.markRowsDirty_succeeds (h : d.Settled T) {rows : List RowId}
    (hrows : ∀ r ∈ rows, r < d.model.rows.size) : Succeeds (rows.foldlM markRowDirty d) := by
  refine (foldlM_returns (P := fun e : Domain Exact => e.rowDirty.size = d.model.rows.size)
    (fun e r hr he => ?_) h.coherent.rowDirty_size).succeeds
  exact (markRowDirty_returns (he ▸ hrows r hr)).mono fun e' he' _ =>
    (markRowDirty_size he').trans he

end Domain

namespace PropagationState

variable {s s' : PropagationState Exact}

/-- Changes that are derived in a sound state return. -/
theorem Sound.changeBounds_succeeds (h : s.Sound a f) {changes : List (BoundChange Exact × Reason)}
    (hderived : ∀ y ∈ changes, s.domain.Derived y.1 y.2) :
    Succeeds (s.domain.changeBounds changes) :=
  h.settled.domain.changeBounds_succeeds
    (fun y hy => h.domain.derived_column_lt (hderived y hy))
    (fun y hy => Exact.derives_any _ _ _ _ h.settled.domain h.settled.literals rfl (hderived y hy))

end PropagationState

namespace Domain

open PropagationState

variable {pools pools' : Pools Exact} {d d' : Domain Exact}

theorem visitRows_succeeds (h : (⟨pools, d⟩ : PropagationState Exact).Sound a f) {rows : List RowId}
    (hrows : ∀ r ∈ rows, r < d.model.rows.size) : Succeeds (d.visitRows rows) := by
  induction rows generalizing d with
  | nil => exact .ok trivial
  | cons r rest ih =>
      refine Succeeds.bind (h.domain.settled.rowChanges_succeeds (hrows r (List.mem_cons_self ..)))
        fun found hfound => ?_
      obtain ⟨fresh, changes⟩ := found
      obtain ⟨hfresh, hderived⟩ := rowChanges_eq_ok hfound
      have hrefresh : Advances ⟨pools, d⟩ ⟨pools, fresh⟩ := by
        rcases hfresh with rfl | hrefresh
        · exact .refl
        · exact .single (.refresh hrefresh)
      refine Succeeds.bind ((hrefresh.sound h).changeBounds_succeeds hderived)
        fun changed hchanged => ?_
      have hchange : Advances ⟨pools, d⟩ ⟨pools, changed⟩ :=
        hrefresh.tail (.change changes hderived hchanged)
      have hsound := hchange.sound h
      have hrest : ∀ r' ∈ rest, r' < changed.model.rows.size := fun r' hr' => by
        rw [hchange.setting.model]
        exact hrows r' (List.mem_cons_of_mem _ hr')
      exact .ite (fun _ => hsound.domain.settled.markRowsDirty_succeeds hrest)
        fun _ => ih hsound hrest

theorem propagateRows_succeeds (h : (⟨pools, d⟩ : PropagationState Exact).Sound a f) :
    Succeeds d.propagateRows := by
  have hwaiting := h.domain.settled.coherent.waiting
  refine Succeeds.bind (foldlM_returns (P := fun flags : Array Bool =>
    flags.size = d.model.rows.size) (fun flags r hr hflags => ?_)
      h.domain.settled.coherent.rowDirty_size).succeeds fun flags hflags => ?_
  · have hlt : r < flags.size := hflags ▸ hwaiting r hr
    refine (store_returns false hlt).mono fun flags' _ hflags' => ?_
    rw [hflags', Array.size_setIfInBounds, hflags]
  · have htake : Advances ⟨pools, d⟩ ⟨pools, { d with waitingRows := [], rowDirty := flags }⟩ :=
      .single (.requeue (requeued_takeRows hflags))
    exact visitRows_succeeds (htake.sound h) hwaiting

theorem onCuts_succeeds {index : Nat} {p : CutPropagation Exact}
    (hp : d.cutPropagations[index]? = some p) (g : CutPropagation Exact → CutPropagation Exact) :
    Succeeds (d.onCuts index g) :=
  (update_succeeds g (Array.getElem?_eq_some_iff.mp hp).1).bind fun _ _ => succeeds_pure _

theorem onConflicts_succeeds {index : Nat} {p : ConflictPropagation Exact}
    (hp : d.conflictPropagations[index]? = some p)
    (g : ConflictPropagation Exact → ConflictPropagation Exact) :
    Succeeds (d.onConflicts index g) :=
  (update_succeeds g (Array.getElem?_eq_some_iff.mp hp).1).bind fun _ _ => succeeds_pure _

theorem visitCuts_succeeds (h : (⟨pools, d⟩ : PropagationState Exact).Sound a f) {index : Nat}
    (hindex : index < d.cutPropagations.size) (ids : List CutId) :
    Succeeds (d.visitCuts index ids) := by
  induction ids generalizing d with
  | nil => exact .ok trivial
  | cons id rest ih =>
      refine Succeeds.bind (fetch_succeeds hindex) fun p hp => ?_
      rw [fetch_eq_ok] at hp
      split
      · exact ih h hindex
      · next known hknown =>
          refine Succeeds.bind (onCuts_succeeds hp _) fun clean hclean => ?_
          obtain ⟨q, hq, hsame⟩ := onCuts_eq_ok hclean
          obtain rfl : q = p := by rw [hp] at hq; exact (Option.some.inj hq).symm
          have hagrees := CutPropagation.agrees_insert q hknown false q.waiting
          have htaken : Advances ⟨pools, d⟩ ⟨pools, clean⟩ := by
            rw [hsame]
            exact .single (.requeue (requeued_cuts hp hagrees))
          have hsound := htaken.sound h
          refine .ite (fun _ => ih hsound ((htaken.sizes h).1 ▸ hindex)) fun _ => ?_
          have hentries :=
            (h.domain.settled.coherent.cuts index q hp).entries id known.cut known.min
            (by rw [CutPropagation.known, hknown]; rfl)
          have hcolumns : ∀ e ∈ known.cut.entries, e.1 < clean.model.columns.size := fun e he =>
            htaken.setting.model ▸ (hentries e he).1
          refine Succeeds.bind (hsound.domain.settled.impliedChanges_succeeds _ _ hcolumns)
            fun changes hchanges => ?_
          have hderived : ∀ y ∈ changes.map (·, Reason.cut index id), clean.Derived y.1 y.2 := by
            intro y hy
            obtain ⟨change, hchange, rfl⟩ := List.mem_map.mp hy
            obtain ⟨entry, hentry, himplied⟩ := mem_collect hchanges hchange
            rw [hsame] at himplied ⊢
            refine .cut (Array.getElem?_setIfInBounds_self_of_lt hindex) ?_ hentry himplied
            rw [hagrees.known, CutPropagation.known, hknown]
            rfl
          refine Succeeds.bind (hsound.changeBounds_succeeds hderived) fun changed hchanged => ?_
          have hchange : Advances ⟨pools, d⟩ ⟨pools, changed⟩ :=
            htaken.tail (.change _ hderived hchanged)
          have hlt : index < changed.cutPropagations.size := (hchange.sizes h).1 ▸ hindex
          exact .ite (fun _ => onCuts_succeeds (Array.getElem?_eq_getElem hlt) _)
            fun _ => ih (hchange.sound h) hlt

theorem visitWaitingCuts_succeeds (h : (⟨pools, d⟩ : PropagationState Exact).Sound a f)
    {index : Nat} (hindex : index < d.cutPropagations.size) :
    Succeeds (d.visitWaitingCuts index) := by
  refine Succeeds.bind (fetch_succeeds hindex) fun p hp => ?_
  rw [fetch_eq_ok] at hp
  refine Succeeds.bind (onCuts_succeeds hp _) fun taken htaken => ?_
  obtain ⟨q, hq, rfl⟩ := onCuts_eq_ok htaken
  have hagrees : q.Agrees { q with waiting := [] } := ⟨rfl, rfl, rfl, rfl⟩
  have htaken : Advances ⟨pools, d⟩ ⟨pools, _⟩ := .single (.requeue (requeued_cuts hq hagrees))
  exact visitCuts_succeeds (htaken.sound h) ((htaken.sizes h).1 ▸ hindex) _

theorem flip_succeeds {literal : BoundChange Exact} (h : literal.column < d.model.columns.size) :
    Succeeds (d.flip literal) :=
  Succeeds.bind (Succeeds.bind (fetch_succeeds h) fun _ _ => succeeds_pure _)
    fun _ _ => succeeds_pure _

/-- A conflict that is known can be visited. -/
theorem visitConflict_succeeds (h : (⟨pools, d⟩ : PropagationState Exact).Sound a f) {index : Nat}
    {p : ConflictPropagation Exact} {id : ConflictId} {literals : List (BoundChange Exact)}
    (hp : d.conflictPropagations[index]? = some p) (hknown : p.known id = some literals) :
    Succeeds (visitConflict pools d index id literals) := by
  have hnegatable := h.domain.wellMade.conflicts index id literals
    (by rw [conflict?, hp, Option.bind_some, hknown])
  have hpool : p.pool < pools.conflicts.size := h.attached.conflicts index p hp
  have hrenewed : Succeeds
      (do return (← pools.onConflicts p.pool fun p => ((), p.resetAge id)).2) :=
    Succeeds.bind ((fetch_succeeds hpool).bind fun _ _ =>
      (store_succeeds _ hpool).bind fun _ _ => succeeds_pure _) fun _ _ => succeeds_pure _
  unfold visitConflict
  rw [fetch_eq_ok.mpr hp, ok_bind]
  refine Succeeds.bind (keepIf_succeeds fun l hl => ?_) fun inactive hinactive => ?_
  · exact Succeeds.bind ((h.domain.settled.boundValue_succeeds _ (hnegatable l hl).1).bind
      fun _ _ => succeeds_pure _) fun _ _ => succeeds_pure _
  split
  · exact hrenewed.bind fun _ _ => succeeds_pure _
  · next literal =>
      have hl : literal.column < d.model.columns.size :=
        (hnegatable _ (mem_keepIf hinactive (List.mem_singleton_self _)).1).1
      simp only [← ite_bind]
      refine Succeeds.bind (flip_succeeds hl) fun change hflip => ?_
      have hderived : d.Derived change (.conflict index id) := .conflict hp hknown hinactive hflip
      have hnan : change.value ≠ nan :=
        Exact.derives_any _ _ _ _ h.settled.domain h.settled.literals rfl hderived
      refine Succeeds.bind (changeBound_returns h.domain.settled
        (h.domain.derived_column_lt hderived) hnan _).succeeds fun after _ => ?_
      exact Succeeds.bind (.ite (fun _ => hrenewed) fun _ => succeeds_pure _) fun _ _ =>
        succeeds_pure _
  · exact succeeds_pure _

theorem visitConflicts_succeeds (h : (⟨pools, d⟩ : PropagationState Exact).Sound a f) {index : Nat}
    (hindex : index < d.conflictPropagations.size) (ids : List ConflictId) :
    Succeeds (visitConflicts pools d index ids) := by
  induction ids generalizing pools d with
  | nil => exact .ok trivial
  | cons id rest ih =>
      refine Succeeds.bind (fetch_succeeds hindex) fun p hp => ?_
      rw [fetch_eq_ok] at hp
      split
      · exact ih h hindex
      · next known hknown =>
          refine Succeeds.bind (onConflicts_succeeds hp _) fun clean hclean => ?_
          obtain ⟨q, hq, hsame⟩ := onConflicts_eq_ok hclean
          obtain rfl : q = p := by rw [hp] at hq; exact (Option.some.inj hq).symm
          have hagrees := ConflictPropagation.agrees_insert q hknown false q.waiting
          have htaken : Advances ⟨pools, d⟩ ⟨pools, clean⟩ := by
            rw [hsame]
            exact .single (.requeue (requeued_conflicts hp hagrees))
          obtain ⟨q', hvisited, hq'⟩ : ∃ q', clean.conflictPropagations[index]? = some q' ∧
              q' = { q with
                conflicts := q.conflicts.insert id { known with dirty := false } } := by
            rw [hsame]
            exact ⟨_, Array.getElem?_setIfInBounds_self_of_lt hindex, rfl⟩
          have hliterals : q'.known id = some known.literals := by
            rw [hq']
            rw [hagrees.known, ConflictPropagation.known, hknown]
            rfl
          refine Succeeds.bind (visitConflict_succeeds (htaken.sound h) hvisited hliterals)
            fun visited hvisit => ?_
          obtain ⟨pools', changed⟩ := visited
          have hadvances : Advances ⟨pools, d⟩ ⟨pools', changed⟩ :=
            htaken.trans (visitConflict_advances hvisited hliterals hvisit)
          have hlt : index < changed.conflictPropagations.size := (hadvances.sizes h).2 ▸ hindex
          exact .ite (fun _ => (onConflicts_succeeds (Array.getElem?_eq_getElem hlt) _).bind
            fun _ _ => succeeds_pure _) fun _ => ih (hadvances.sound h) hlt

theorem visitWaitingConflicts_succeeds (h : (⟨pools, d⟩ : PropagationState Exact).Sound a f)
    {index : Nat} (hindex : index < d.conflictPropagations.size) :
    Succeeds (visitWaitingConflicts pools d index) := by
  refine Succeeds.bind (fetch_succeeds hindex) fun p hp => ?_
  rw [fetch_eq_ok] at hp
  refine Succeeds.bind (onConflicts_succeeds hp _) fun taken htaken => ?_
  obtain ⟨q, hq, rfl⟩ := onConflicts_eq_ok htaken
  have hagrees : q.Agrees { q with waiting := [] } := ⟨rfl, rfl, rfl, rfl⟩
  have htaken : Advances ⟨pools, d⟩ ⟨pools, _⟩ := .single (.requeue (requeued_conflicts hq hagrees))
  exact visitConflicts_succeeds (htaken.sound h) ((htaken.sizes h).2 ▸ hindex) _

theorem propagateObjective_succeeds (h : (⟨pools, d⟩ : PropagationState Exact).Sound a f) :
    Succeeds d.propagateObjective := by
  unfold propagateObjective
  split
  · exact succeeds_pure d
  · next o ho =>
      refine .ite (fun _ => succeeds_pure d) fun hguard => ?_
      have hcutoff : (o.cutoff == Scalar.infinity) = false := by
        simp only [Bool.or_eq_true, not_or, Bool.not_eq_true] at hguard
        exact hguard.2
      have hread : Advances ⟨pools, d⟩
          ⟨pools, { d with objective := some { o with needsPropagation := false } }⟩ :=
        .single (.requeue { Requeued.refl d with
          objective := .inr ⟨o, ho, rfl⟩
          setting := ⟨rfl, rfl, rfl, rfl⟩ })
      have hsound := hread.sound h
      have hlinear : ∀ e ∈ o.linearEntries, e.1 < d.model.columns.size := fun e he => by
        obtain ⟨hcost, -⟩ := ObjectivePropagation.mem_linearEntries.mp he
        rw [← (h.domain.settled.coherent.objective o ho).costs_size]
        exact (Array.getElem?_eq_some_iff.mp hcost).1
      refine .ite (fun _ => succeeds_pure _) fun _ => .ite (fun _ => succeeds_pure _) fun _ => ?_
      refine Succeeds.bind
        (Succeeds.bind (hsound.domain.settled.impliedChanges_succeeds _ _ hlinear)
        fun _ _ => succeeds_pure _) fun changes hchanges => ?_
      refine hsound.changeBounds_succeeds fun y hy => ?_
      obtain ⟨change, hchange, rfl⟩ := List.mem_map.mp hy
      exact objectiveChanges_derived (o := { o with needsPropagation := false }) rfl hcutoff
        hchanges
        hchange

/-- The column that a logged change fixes can be looked at. -/
theorem Sound.fixedBy_succeeds (h : d.Sound a f) {entry : LogEntry Exact} (hentry : entry ∈ d.log) :
    Succeeds (d.fixedBy entry) := by
  have hc := (h.settled.logged entry hentry).1
  refine Succeeds.bind (Succeeds.bind (fetch_succeeds hc) fun _ _ => succeeds_pure _) fun _ _ => ?_
  refine .ite (fun _ => succeeds_pure none) fun _ => ?_
  split <;> exact succeeds_pure _

/-- What a binary column implies can be looked up. -/
theorem Sound.impliedByFixing_succeeds (h : d.Sound a f) {c : ColumnId}
    (hc : c < d.model.columns.size) (value : Bool) : Succeeds (d.impliedByFixing c value) := by
  have hcliques : ∀ t, d.cliques = some t → Succeeds (t.impliedBy ⟨c, value⟩) := fun t ht =>
    ((h.wellMade.cliques t ht).listed.impliedBy_returns hc).succeeds
  have hbounds : ∀ t, d.variableBounds = some t → Succeeds (t.impliedBy c value) := fun t ht =>
    ((h.wellMade.variableBounds t ht).sized.impliedBy_returns hc value).succeeds
  unfold impliedByFixing
  cases ht : d.cliques with
  | none =>
      cases hb : d.variableBounds with
      | none => exact succeeds_pure _
      | some bounds => exact (hbounds bounds hb).bind fun _ _ => succeeds_pure _
  | some cliques =>
      refine (hcliques cliques ht).bind fun _ _ => ?_
      cases hb : d.variableBounds with
      | none => exact succeeds_pure _
      | some bounds => exact (hbounds bounds hb).bind fun _ _ => succeeds_pure _

/-- A binary column only implies changes of columns that exist. -/
theorem Sound.impliedByFixing_column_lt (h : d.Sound a f) {c : ColumnId}
    (hc : c < d.model.columns.size) {value : Bool} {implied : List (BoundChange Exact × Reason)}
    (himplied : d.impliedByFixing c value = .ok implied) {y : BoundChange Exact × Reason}
    (hy : y ∈ implied) : y.1.column < d.model.columns.size := by
  rcases mem_impliedByFixing himplied hy with
    ⟨cliques, literals, literal, hcliques, hliterals, hmem, rfl⟩ |
      ⟨bounds, changes, change, hbounds, hchanges, hmem, rfl⟩
  · have hlisted := (h.wellMade.cliques cliques hcliques).listed
    obtain ⟨-, clique, hclique, -, hother⟩ :=
      (hlisted.impliedBy_returns (l := ⟨c, value⟩) hc).of_eq_ok hliterals literal hmem
    obtain ⟨column, hcolumn, -⟩ := hlisted.literals clique hclique literal hother
    have hlt : literal.column < d.model.columns.size := (Array.getElem?_eq_some_iff.mp hcolumn).1
    cases literal.value <;> exact hlt
  · have hsized := (h.wellMade.variableBounds bounds hbounds).sized
    obtain ⟨lines, bound, hlines, -⟩ :=
      (hsized.impliedBy_returns hc value).of_eq_ok hchanges change hmem
    rw [← hsized.sides change.side]
    exact (Array.getElem?_eq_some_iff.mp hlines).1

/-- What the fixings on record imply can be looked up, wherever the cursor is. -/
theorem impliedByEntries_succeeds {start : Domain Exact} (h : start.Sound a f)
    {entries : List (LogEntry Exact)} (hentries : ∀ entry ∈ entries, entry ∈ start.log)
    (hsame : d = { start with implicationCursor := d.implicationCursor }) :
    Succeeds ((impliedByEntries entries).perform d).1 := by
  induction entries generalizing d with
  | nil => exact .ok trivial
  | cons entry rest ih =>
      have hsetting : ∀ cursor, SameSetting start { d with implicationCursor := cursor } := by
        intro cursor
        rw [hsame]
        exact ⟨rfl, rfl, rfl, rfl⟩
      refine Action.bind_succeeds (.ok trivial) fun _ moved hmoved => ?_
      obtain rfl : { d with implicationCursor := d.implicationCursor + 1 } = moved :=
        (Prod.mk.inj hmoved).2
      rw [Action.perform_get_bind]
      have hfixed := h.fixedBy_succeeds (hentries entry (List.mem_cons_self ..))
      rw [← fixedBy_congr (hsetting (d.implicationCursor + 1))] at hfixed
      refine Action.bind_succeeds hfixed fun fixing t hfixing => ?_
      rw [Action.perform_lift, Prod.mk.injEq] at hfixing
      obtain ⟨hfixing, rfl⟩ := hfixing
      rw [fixedBy_congr (hsetting _)] at hfixing
      have hrest : ∀ own : List (BoundChange Exact × Reason), Succeeds ((do
          return own ++ (← impliedByEntries rest) : Action (Domain Exact) _).perform
            { d with implicationCursor := d.implicationCursor + 1 }).1 := fun own =>
        Action.bind_succeeds (ih (fun e he => hentries e (List.mem_cons_of_mem _ he))
          (by rw [hsame])) fun _ _ _ => .ok trivial
      cases fixing with
      | none => exact hrest []
      | some fixing =>
          obtain ⟨c, value⟩ := fixing
          obtain ⟨column, hcolumn, -⟩ := fixedBy_binary hfixing
          have hc : c < start.model.columns.size := (Array.getElem?_eq_some_iff.mp hcolumn).1
          have himplied := h.impliedByFixing_succeeds hc value
          rw [← impliedByFixing_congr (hsetting (d.implicationCursor + 1))] at himplied
          refine Action.bind_succeeds himplied fun own t hown => ?_
          rw [Action.perform_lift, Prod.mk.injEq] at hown
          obtain ⟨-, rfl⟩ := hown
          exact hrest own

/-- Changes of columns that exist can be made as far as they are worth it. -/
theorem Settled.applyWorthwhile_succeeds (h : d.Settled (.exact .any))
    {changes : List (BoundChange Exact × Reason)}
    (hcolumns : ∀ y ∈ changes, y.1.column < d.model.columns.size) :
    Succeeds ((applyWorthwhile changes).perform d).1 := by
  induction changes generalizing d with
  | nil => exact .ok trivial
  | cons y rest ih =>
      obtain ⟨change, reason⟩ := y
      have hc := hcolumns _ (List.mem_cons_self ..)
      have hmade : Returns (d.changeIfWorthwhile change reason) fun d' =>
          d'.Settled (.exact .any) ∧ d'.model = d.model := by
        refine Returns.bind (h.acceptedBound_succeeds _ hc _) fun accepted haccepted _ => ?_
        cases accepted with
        | none => exact .pure ⟨h, rfl⟩
        | some accepted =>
            refine (changeBound_returns h (acceptedBound_column_lt haccepted)
              (isNaN_eq_false.mp (acceptedBound_number haccepted)) reason).mono
                fun d' _ hd' => ⟨hd'.1, ?_⟩
            exact hd'.2.carried.setting.model
      refine Action.bind_succeeds (Action.change_succeeds hmade.succeeds) fun _ next hnext => ?_
      obtain ⟨hsettled, hmodel⟩ := hmade.of_eq_ok (Action.perform_change_eq_ok.mp hnext)
      rw [Action.perform_get_bind]
      split
      · refine ih hsettled fun y hy => ?_
        rw [hmodel]
        exact hcolumns y (List.mem_cons_of_mem _ hy)
      · exact .ok trivial

theorem Sound.propagateImplications_succeeds (h : d.Sound a f) :
    Succeeds (propagateImplications.perform d).1 := by
  unfold propagateImplications
  rw [Action.perform_get_bind]
  split
  · exact .ok trivial
  · have hentries : ∀ entry ∈ d.log.toList.drop d.implicationCursor, entry ∈ d.log :=
      fun entry he => Array.mem_toList_iff.mp (List.mem_of_mem_drop he)
    refine Action.bind_succeeds (impliedByEntries_succeeds h hentries rfl)
      fun changes looked hlooked => ?_
    obtain ⟨hsame, himplied⟩ := impliedByEntries_eq_ok hlooked
    have hsettled : looked.Settled (.exact .any) := by
      rw [hsame]
      exact h.settled.requeued (requeued_cursor d _)
    refine hsettled.applyWorthwhile_succeeds fun y hy => ?_
    obtain ⟨entry, hentry, c, value, implied, hfixing, himplied, hmem⟩ := himplied y hy
    obtain ⟨column, hcolumn, -⟩ := fixedBy_binary hfixing
    rw [hsame]
    exact h.impliedByFixing_column_lt (Array.getElem?_eq_some_iff.mp hcolumn).1 himplied hmem

end Domain

namespace CutPropagation

/-- The cuts that are known are over the first columns. -/
structure Over (columnCount : Nat) (p : CutPropagation Exact) : Prop where
  size : p.occurrences.size = columnCount
  columns : ∀ id cut, (p.known id).map Prod.fst = some cut → ∀ e ∈ cut.entries, e.1 < columnCount

variable {pool : CutPool Exact} {lower upper : Array (Bound Exact)} {p : CutPropagation Exact}
  {columnCount : Nat} (hlower : lower.size = columnCount) (hupper : upper.size = columnCount)
  (hpool : ∀ id cut, pool.get? id = some cut → ∀ e ∈ cut.entries, e.1 < columnCount)

include hlower hupper in
theorem minActivity_succeeds {entries : List (ColumnId × Exact)}
    (hentries : ∀ e ∈ entries, e.1 < columnCount) :
    Succeeds (minActivity lower upper entries) := by
  refine foldlM_returns (P := fun _ => True) (fun sum e he _ => ?_) trivial
  refine Succeeds.bind (fetch_succeeds ?_) fun _ _ => succeeds_pure _
  split
  · exact hlower ▸ hentries e he
  · exact hupper ▸ hentries e he

include hlower hupper hpool

/-- An event about a cut over the first columns can be read. -/
theorem Over.readEvent_returns (h : p.Over columnCount) (event : PoolEvent) :
    Returns (readEvent pool lower upper p event) (Over columnCount) := by
  have hsucceeds : Succeeds (readEvent pool lower upper p event) := by
    cases event with
    | added id =>
        rw [readEvent]
        cases hget : pool.get? id with
        | none => exact .ok trivial
        | some cut =>
            refine Succeeds.bind
              (minActivity_succeeds hlower hupper (hpool id cut hget)) fun _ _ => ?_
            refine Succeeds.bind (foldlM_update_returns fun e he => ?_) fun _ _ => succeeds_pure _
            exact h.size ▸ hpool id cut hget e he
    | removed id =>
        rw [readEvent]
        cases hget : p.cuts.get? id with
        | none => exact .ok trivial
        | some known =>
            refine Succeeds.bind (foldlM_update_returns fun e he => ?_) fun _ _ => succeeds_pure _
            exact h.size ▸ h.columns id known.cut
              (by rw [CutPropagation.known, hget]; rfl) e he
  refine hsucceeds.mono fun p' hp' _ => ?_
  have hreads := readEvent_reads hp'
  refine ⟨hreads.occurrences_size.trans h.size, fun id cut hknown => ?_⟩
  exact (hreads.cuts id cut hknown).elim (h.columns id cut) (hpool id cut)

theorem Over.synchronise_succeeds (h : p.Over columnCount) :
    Succeeds ((synchronise pool lower upper).perform p).1 := by
  unfold synchronise
  rw [Action.perform_get_bind]
  refine Action.bind_succeeds (.ok trivial) fun _ moved hmoved => ?_
  have hstart : { p with seen := p.seen + (pool.eventsSince p.seen).length } = moved :=
    (Prod.mk.inj hmoved).2
  refine Action.forM_change_succeeds (P := Over columnCount)
    (fun event _ q hq => hq.readEvent_returns hlower hupper hpool event) ?_
  rw [← hstart]
  exact ⟨h.size, h.columns⟩

end CutPropagation

namespace ConflictPropagation

/-- The conflicts that are known are over the first columns. -/
structure Over (columnCount : Nat) (p : ConflictPropagation Exact) : Prop where
  size : p.occurrences.size = columnCount
  negatable : ∀ id literals, p.known id = some literals → NegatableLiterals columnCount literals

variable {pool : ConflictPool Exact} {p : ConflictPropagation Exact} {columnCount : Nat}
  (hpool : ∀ id literals, pool.get? id = some literals → NegatableLiterals columnCount literals)

include hpool

/-- An event about a conflict over the first columns can be read. -/
theorem Over.readEvent_returns (h : p.Over columnCount) (event : PoolEvent) :
    Returns (readEvent pool p event) (Over columnCount) := by
  have hsucceeds : Succeeds (readEvent pool p event) := by
    cases event with
    | added id =>
        rw [readEvent]
        cases hget : pool.get? id with
        | none => exact .ok trivial
        | some literals =>
            refine Succeeds.bind (foldlM_update_returns fun l hl => ?_) fun _ _ => succeeds_pure _
            exact h.size ▸ (hpool id literals hget l hl).1
    | removed id =>
        rw [readEvent]
        cases hget : p.conflicts.get? id with
        | none => exact .ok trivial
        | some known =>
            refine Succeeds.bind (foldlM_update_returns fun l hl => ?_) fun _ _ => succeeds_pure _
            exact h.size ▸ (h.negatable id known.literals
              (by rw [ConflictPropagation.known, hget]; rfl) l hl).1
  refine hsucceeds.mono fun p' hp' _ => ?_
  have hreads := readEvent_reads hp'
  refine ⟨hreads.occurrences_size.trans h.size, fun id literals hknown => ?_⟩
  exact (hreads.known id literals hknown).elim (h.negatable id literals) (hpool id literals)

theorem Over.synchronise_succeeds (h : p.Over columnCount) :
    Succeeds ((synchronise pool).perform p).1 := by
  unfold synchronise
  rw [Action.perform_get_bind]
  refine Action.bind_succeeds (.ok trivial) fun _ moved hmoved => ?_
  have hstart : { p with seen := p.seen + (pool.eventsSince p.seen).length } = moved :=
    (Prod.mk.inj hmoved).2
  refine Action.forM_change_succeeds (P := Over columnCount)
    (fun event _ q hq => hq.readEvent_returns hpool event) ?_
  rw [← hstart]
  exact ⟨h.size, h.negatable⟩

end ConflictPropagation

namespace PropagationStep

variable {s s' : PropagationState Exact}

theorem changeDomain_succeeds {g : Domain Exact → Checked (Domain Exact)}
    (h : Succeeds (g s.domain)) : Succeeds ((changeDomain g).perform s).1 :=
  Action.change_succeeds h

theorem synchroniseCuts_succeeds (h : s.Sound a f) {index : Nat}
    (hindex : index < s.domain.cutPropagations.size) :
    Succeeds ((synchroniseCuts index).perform s).1 := by
  obtain ⟨p, hp⟩ : ∃ p, s.domain.cutPropagations[index]? = some p :=
    ⟨_, Array.getElem?_eq_getElem hindex⟩
  obtain ⟨pool, hpool⟩ : ∃ pool, s.pools.cuts[p.pool]? = some pool :=
    ⟨_, Array.getElem?_eq_getElem (h.attached.cuts index p hp)⟩
  have hcoherent := h.domain.settled.coherent
  have hknown := hcoherent.cuts index p hp
  have hover : p.Over s.domain.model.columns.size := by
    refine ⟨hknown.size, fun id cut hcut e he => ?_⟩
    obtain ⟨⟨cut, min⟩, hfound, rfl⟩ := Option.map_eq_some_iff.mp hcut
    exact (hknown.entries id cut min hfound e he).1
  unfold synchroniseCuts
  rw [Action.perform_get_bind]
  refine Action.bind_succeeds (fetch_succeeds hindex) fun p' t hp' => ?_
  rw [Action.perform_lift, Prod.mk.injEq, fetch_eq_ok] at hp'
  obtain ⟨hp', rfl⟩ := hp'
  obtain rfl : p = p' := Option.some.inj (hp.symm.trans hp')
  refine Action.bind_succeeds (fetch_succeeds (h.attached.cuts index p hp)) fun pool' t hpool' => ?_
  rw [Action.perform_lift, Prod.mk.injEq, Pools.cutPool, fetch_eq_ok] at hpool'
  obtain ⟨hpool', rfl⟩ := hpool'
  obtain rfl : pool = pool' := Option.some.inj (hpool.symm.trans hpool')
  refine Action.bind_succeeds (changeDomain_succeeds (Domain.onCuts_succeeds hp _)) fun _ _ _ => ?_
  exact hover.synchronise_succeeds (hcoherent.bounds_size .lower) (hcoherent.bounds_size .upper)
    fun id cut hcut => h.wellPooled.cuts p.pool pool id cut hpool hcut

theorem synchroniseConflicts_succeeds (h : s.Sound a f) {index : Nat}
    (hindex : index < s.domain.conflictPropagations.size) :
    Succeeds ((synchroniseConflicts index).perform s).1 := by
  obtain ⟨p, hp⟩ : ∃ p, s.domain.conflictPropagations[index]? = some p :=
    ⟨_, Array.getElem?_eq_getElem hindex⟩
  obtain ⟨pool, hpool⟩ : ∃ pool, s.pools.conflicts[p.pool]? = some pool :=
    ⟨_, Array.getElem?_eq_getElem (h.attached.conflicts index p hp)⟩
  have hover : p.Over s.domain.model.columns.size := by
    refine ⟨h.domain.settled.coherent.conflicts index p hp, fun id literals hliterals => ?_⟩
    exact h.domain.wellMade.conflicts index id literals
      (by rw [Domain.conflict?, hp, Option.bind_some, hliterals])
  unfold synchroniseConflicts
  rw [Action.perform_get_bind]
  refine Action.bind_succeeds (fetch_succeeds hindex) fun p' t hp' => ?_
  rw [Action.perform_lift, Prod.mk.injEq, fetch_eq_ok] at hp'
  obtain ⟨hp', rfl⟩ := hp'
  obtain rfl : p = p' := Option.some.inj (hp.symm.trans hp')
  refine Action.bind_succeeds (fetch_succeeds (h.attached.conflicts index p hp))
    fun pool' t hpool' => ?_
  rw [Action.perform_lift, Prod.mk.injEq, Pools.conflictPool, fetch_eq_ok] at hpool'
  obtain ⟨hpool', rfl⟩ := hpool'
  obtain rfl : pool = pool' := Option.some.inj (hpool.symm.trans hpool')
  refine Action.bind_succeeds (changeDomain_succeeds (Domain.onConflicts_succeeds hp _))
    fun _ _ _ => ?_
  exact hover.synchronise_succeeds fun id literals hget =>
    h.wellPooled.conflicts p.pool pool id literals hpool hget

/-- Reading the news of a cut pool and visiting the cuts that wait returns. -/
theorem propagateCuts_succeeds (h : s.Sound a f) (hfeasible : s.domain.infeasible = none)
    {index : Nat} (hindex : index < s.domain.cutPropagations.size) :
    Succeeds ((propagateCuts index).perform s).1 := by
  refine Action.bind_succeeds (synchroniseCuts_succeeds h hindex) fun _ read hread => ?_
  have hadvances := synchroniseCuts_advances hfeasible hread
  have hsound : (⟨read.pools, read.domain⟩ : PropagationState Exact).Sound a f := hadvances.sound h
  exact changeDomain_succeeds
    (Domain.visitWaitingCuts_succeeds hsound ((hadvances.sizes h).1 ▸ hindex))

/-- Reading the news of a conflict pool and visiting the conflicts that wait returns. -/
theorem propagateConflicts_succeeds (h : s.Sound a f) (hfeasible : s.domain.infeasible = none)
    {index : Nat} (hindex : index < s.domain.conflictPropagations.size) :
    Succeeds ((propagateConflicts index).perform s).1 := by
  refine Action.bind_succeeds (synchroniseConflicts_succeeds h hindex) fun _ read hread => ?_
  have hadvances := synchroniseConflicts_advances hfeasible hread
  have hsound : (⟨read.pools, read.domain⟩ : PropagationState Exact).Sound a f := hadvances.sound h
  rw [Action.perform_get_bind]
  refine Action.bind_succeeds (Domain.visitWaitingConflicts_succeeds hsound
    ((hadvances.sizes h).2 ▸ hindex)) fun _ _ _ => ?_
  exact .ok trivial

/-- Steps that return in sound states, of which there are so many, return one after the other. -/
theorem untilInfeasible_succeeds {step : Nat → PropagationStep Exact Unit}
    {n : PropagationState Exact → Nat}
    (hsucceeds : ∀ index s, s.Sound a f → s.domain.infeasible = none → index < n s →
      Succeeds ((step index).perform s).1)
    (hadvances : ∀ index s s', s.domain.infeasible = none →
      (step index).perform s = (.ok (), s') → Advances s s')
    (hcount : ∀ s s', s.Sound a f → Advances s s' → n s' = n s)
    (h : s.Sound a f) (hfeasible : s.domain.infeasible = none) {indices : List Nat}
    (hindices : ∀ index ∈ indices, index < n s) :
    Succeeds ((untilInfeasible step indices).perform s).1 := by
  induction indices generalizing s with
  | nil => exact .ok trivial
  | cons index rest ih =>
      refine Action.bind_succeeds (hsucceeds index s h hfeasible
        (hindices index (List.mem_cons_self ..))) fun _ next hnext => ?_
      have hstep := hadvances index s next hfeasible hnext
      refine Action.bind_succeeds (.ok trivial) fun d t ht => ?_
      obtain ⟨rfl, rfl⟩ := domain_eq_ok.mp ht
      split
      · next hnot =>
          refine ih (hstep.sound h) (by simpa [Domain.isInfeasible] using hnot) fun i hi => ?_
          rw [hcount s _ h hstep]
          exact hindices i (List.mem_cons_of_mem _ hi)
      · exact .ok trivial

/-- A step that is only taken under a condition returns if it does when taken. -/
theorem ite_succeeds {p : Prop} [Decidable p] {x : PropagationStep Exact Unit}
    (hx : p → Succeeds (x.perform s).1) :
    Succeeds ((if p then x else pure ()).perform s).1 := by
  split
  · next hp => exact hx hp
  · exact .ok trivial

/-- A round of propagation returns. -/
theorem propagateRound_succeeds (h : s.Sound a f) : Succeeds (propagateRound.perform s).1 := by
  simp only [propagateRound, Action.ite_seq]
  have hsound : ∀ {t : PropagationState Exact}, Advances s t → t.Sound a f := Advances.sound h
  refine Action.bind_succeeds (.ok trivial) fun d s₀ hd => ?_
  obtain ⟨rfl, rfl⟩ := domain_eq_ok.mp hd
  refine Action.bind_succeeds h.domain.propagateImplications_succeeds fun _ s₁ h₁ => ?_
  obtain ⟨d₁, himplications, rfl⟩ := onDomain_eq_ok.mp h₁
  have h₁ := Domain.propagateImplications_advances s.pools himplications
  refine Action.bind_succeeds (.ok trivial) fun d s₁' hd => ?_
  obtain ⟨rfl, rfl⟩ := domain_eq_ok.mp hd
  refine Action.bind_succeeds (ite_succeeds fun _ =>
    changeDomain_succeeds (Domain.propagateRows_succeeds (hsound h₁))) fun _ s₂ hrows => ?_
  have h₂ := h₁.trans <| ite_related advances_stages hrows fun _ h => by
    obtain ⟨d₂, hvisit, rfl⟩ := changeDomain_eq_ok.mp h
    exact Domain.propagateRows_advances _ hvisit
  refine Action.bind_succeeds (.ok trivial) fun d s₂' hd => ?_
  obtain ⟨rfl, rfl⟩ := domain_eq_ok.mp hd
  refine Action.bind_succeeds (ite_succeeds fun hquiet => untilInfeasible_succeeds
    (n := fun s => s.domain.conflictPropagations.size)
    (fun _ _ hs hfeasible hindex => propagateConflicts_succeeds hs hfeasible hindex)
    (fun _ _ _ => propagateConflicts_advances) (fun _ _ hs hadvances => (hadvances.sizes hs).2)
    (hsound h₂) (Domain.feasible_of_isQuietSince hquiet)
    fun _ => List.mem_range.mp) fun _ s₃ hconflicts => ?_
  have h₃ := h₂.trans <| ite_related advances_stages hconflicts fun hquiet =>
    untilInfeasible_related advances_stages (fun _ _ _ => propagateConflicts_advances)
      (Domain.feasible_of_isQuietSince hquiet)
  refine Action.bind_succeeds (.ok trivial) fun d s₃' hd => ?_
  obtain ⟨rfl, rfl⟩ := domain_eq_ok.mp hd
  refine Action.bind_succeeds (ite_succeeds fun hquiet => untilInfeasible_succeeds
    (n := fun s => s.domain.cutPropagations.size)
    (fun _ _ hs hfeasible hindex => propagateCuts_succeeds hs hfeasible hindex)
    (fun _ _ _ => propagateCuts_advances) (fun _ _ hs hadvances => (hadvances.sizes hs).1)
    (hsound h₃) (Domain.feasible_of_isQuietSince hquiet)
    fun _ => List.mem_range.mp) fun _ s₄ hcuts => ?_
  have h₄ := h₃.trans <| ite_related advances_stages hcuts fun hquiet =>
    untilInfeasible_related advances_stages (fun _ _ _ => propagateCuts_advances)
      (Domain.feasible_of_isQuietSince hquiet)
  refine Action.bind_succeeds (.ok trivial) fun d s₄' hd => ?_
  obtain ⟨rfl, rfl⟩ := domain_eq_ok.mp hd
  have hlast : (⟨s₄.pools, s₄.domain⟩ : PropagationState Exact).Sound a f := hsound h₄
  exact ite_succeeds fun _ =>
    changeDomain_succeeds (Domain.propagateObjective_succeeds hlast)

end PropagationStep

end BranchBound
