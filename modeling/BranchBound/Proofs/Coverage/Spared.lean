import BranchBound.Proofs.Conflict.LearnedConflicts

/-!
# Points that no run loses

A state regards a point if everything that it was told holds there and the global part of its log
does. The node that the box stands for may still exclude the point, by decisions and by what was
derived from them, but no other node does. Whatever is decided, propagated and undone, a state that
regards a point keeps doing so, as long as nothing is told that does not hold at the point.
-/

namespace BranchBound

open Checked Exact

variable {x : Point} {f : ℚ} {a : Domain.Anchor}

/-- A whole point that is within the bounds of the columns and satisfies the rows. -/
structure Model.Feasible (m : Model Exact) (x : Point) : Prop where
  bounds : ∀ (c : ColumnId) column, m.columns[c]? = some column →
    column.lower ≤ number (x c : ℚ) ∧ number (x c : ℚ) ≤ column.upper
  rows : ∀ (r : RowId) row, m.rows[r]? = some row → row.HoldsAt x

instance {m : Model Exact} : Decidable (m.Feasible x) :=
  decidable_of_iff ((∀ c : Fin m.columns.size, m.columns[c].lower ≤ number (x c : ℚ) ∧
      number (x c : ℚ) ≤ m.columns[c].upper) ∧ ∀ row ∈ m.rows, row.HoldsAt x) <| by
    constructor
    · rintro ⟨hbounds, hrows⟩
      refine ⟨fun c column hcolumn => ?_, fun r row hrow => hrows row (Array.mem_of_getElem? hrow)⟩
      obtain ⟨hc, rfl⟩ := Array.getElem?_eq_some_iff.mp hcolumn
      exact hbounds ⟨c, hc⟩
    · rintro ⟨hbounds, hrows⟩
      refine ⟨fun c => hbounds c _ (Array.getElem?_eq_getElem c.isLt), fun row hrow => ?_⟩
      obtain ⟨r, hr⟩ := Array.mem_iff_getElem?.mp hrow
      exact hrows r row hr

theorem Model.Feasible.binary {m : Model Exact} (h : m.Feasible x) {c : ColumnId}
    (hc : m.Binary c) : x c = 0 ∨ x c = 1 := by
  obtain ⟨column, hcolumn, -, hlower, hupper⟩ := hc
  obtain ⟨hlow, hhigh⟩ := h.bounds c column hcolumn
  exact Point.zero_or_one (Exact.le_trans hlower hlow) (Exact.le_trans hhigh hupper)

theorem Model.Feasible.inModel {m : Model Exact} (h : m.Feasible x) :
    (Trail.ofModel m).values.Contains m.columns.size x := by
  intro side c hc
  obtain ⟨hlower, hupper⟩ := h.bounds c _ (Array.getElem?_eq_getElem hc)
  cases side with
  | lower =>
      rw [Trail.values_eq (b := ⟨m.columns[c].lower, none⟩)
        (by simp [Trail.ofModel, Trail.bounds, hc])]
      exact hlower
  | upper =>
      rw [Trail.values_eq (b := ⟨m.columns[c].upper, none⟩)
        (by simp [Trail.ofModel, Trail.bounds, hc])]
      exact hupper

/-- A box is the first one with the changes in the log. -/
theorem Trail.Built.contains {columnCount : Nat}
    {allowed : Trail Exact → BoundChange Exact → Reason → Prop} {start t : Trail Exact}
    (h : Built allowed start t) (hstart : start.values.Contains columnCount x)
    (hlog : ∀ entry ∈ t.log, entry.change.HoldsAt x) : t.values.Contains columnCount x := by
  induction h with
  | start => exact hstart
  | @append t change reason previous h hprevious _ ih =>
      rw [append_log] at hlog
      rw [values_append hprevious]
      refine (ih fun entry hentry => hlog entry (Array.mem_push_of_mem _ hentry)).set ?_
      exact hlog _ Array.mem_push_self

/-- Literals which equal each other are the same. -/
theorem BoundChange.eq_of_sameAs {l l' : BoundChange Exact} (h : l.sameAs l' = true) : l = l' := by
  obtain ⟨c, side, v⟩ := l
  obtain ⟨c', side', v'⟩ := l'
  simp only [sameAs, Bool.and_eq_true, beq_iff_eq] at h
  obtain ⟨⟨rfl, rfl⟩, hvalue⟩ := h
  rw [(equal_iff.mp hvalue).1]

namespace ConflictPool

/-- Leaving out repeated literals loses none. -/
theorem mem_withoutRepeatsOf {l last : BoundChange Exact} {literals : List (BoundChange Exact)}
    (hl : l ∈ literals) : l = last ∨ l ∈ withoutRepeatsOf last literals := by
  induction literals generalizing last with
  | nil => cases hl
  | cons first rest ih =>
      rw [withoutRepeatsOf]
      rcases List.mem_cons.mp hl with rfl | hl
      · split
        · next hsame => exact .inl (BoundChange.eq_of_sameAs hsame).symm
        · exact .inr (List.mem_cons_self ..)
      · split
        · exact ih hl
        · have hfound : l = first ∨ l ∈ withoutRepeatsOf first rest := ih hl
          rcases hfound with rfl | hmem
          · exact .inr (List.mem_cons_self ..)
          · exact .inr (List.mem_cons_of_mem _ hmem)

theorem mem_storedForm_of_mem {l : BoundChange Exact} {literals : List (BoundChange Exact)}
    (hl : l ∈ literals) : l ∈ storedForm literals := by
  have hsorted : l ∈ literals.mergeSort BoundChange.storedBefore := List.mem_mergeSort.mpr hl
  rw [storedForm]
  cases hlist : literals.mergeSort BoundChange.storedBefore with
  | nil => simp [hlist] at hsorted
  | cons first rest =>
      rw [hlist] at hsorted
      rcases List.mem_cons.mp hsorted with rfl | hrest
      · exact List.mem_cons_self ..
      · have hfound : l = first ∨ l ∈ withoutRepeatsOf first rest := mem_withoutRepeatsOf hrest
        rcases hfound with rfl | hmem
        · exact List.mem_cons_self ..
        · exact List.mem_cons_of_mem _ hmem

end ConflictPool

/-- The stored form of a conflict holds where the conflict does. -/
theorem ConflictHoldsAt.storedForm {literals : List (BoundChange Exact)}
    (h : ConflictHoldsAt literals x) : ConflictHoldsAt (ConflictPool.storedForm literals) x := by
  obtain ⟨l, hl, hfails⟩ := h
  exact ⟨l, ConflictPool.mem_storedForm_of_mem hl, hfails⟩

/-- Sorting a cut and leaving out entries without a coefficient does not change what it says. -/
theorem Inequality.HoldsAt.normalized {i : Inequality Exact} (h : i.HoldsAt x) :
    i.normalized.HoldsAt x := by
  have hperm : (i.normalized.entries : Multiset (ColumnId × Exact)) =
      (i.entries.filter fun e => !(e.2 == (0 : Exact)) : List (ColumnId × Exact)) :=
    Multiset.coe_eq_coe.mpr (List.mergeSort_perm ..)
  rw [HoldsAt, hperm, Domain.dot_filter_nonzero]
  exact h

namespace Domain

variable {d d' : Domain Exact} {p q : Nat}

/-- The changes that were logged before a position hold at a point. -/
def HeldBefore (d : Domain Exact) (p : Nat) (x : Point) : Prop :=
  ∀ (q : Nat) entry, q < p → d.log[q]? = some entry → entry.change.HoldsAt x

theorem HeldBefore.mono (h : d.HeldBefore p x) (hle : q ≤ p) : d.HeldBefore q x :=
  fun r entry hr hentry => h r entry (Nat.lt_of_lt_of_le hr hle) hentry

theorem HeldBefore.of_extends (h : d'.HeldBefore p x) (hlog : d.log.toList <+: d'.log.toList) :
    d.HeldBefore p x := by
  obtain ⟨rest, hrest⟩ := hlog
  intro q entry hq hentry
  refine h q entry hq ?_
  rw [← Array.getElem?_toList] at hentry ⊢
  rw [← hrest, List.getElem?_append_left (List.getElem?_eq_some_iff.mp hentry).1]
  exact hentry

/-- What holds of a part of the log holds of it in every longer log. -/
theorem HeldBefore.extend (h : d.HeldBefore p x) (hp : p ≤ d.log.size)
    (hlog : d.log.toList <+: d'.log.toList) : d'.HeldBefore p x := by
  obtain ⟨rest, hrest⟩ := hlog
  intro q entry hq hentry
  refine h q entry hq ?_
  rw [← Array.getElem?_toList] at hentry ⊢
  rw [← hrest, List.getElem?_append_left (by rw [Array.length_toList]; omega)] at hentry
  exact hentry

theorem HeldBefore.of_log (h : d.HeldBefore p x) (hlog : d'.log = d.log) : d'.HeldBefore p x := by
  rw [HeldBefore, hlog]
  exact h

/-- A point of the box of the model is in the box if the whole log holds there. -/
theorem Sound.contains_of_held (h : d.Sound a f)
    (hmodel : (Trail.ofModel d.model).values.Contains d.model.columns.size x)
    (hheld : d.HeldBefore d.log.size x) : d.values.Contains d.model.columns.size x := by
  rw [← trail_values]
  refine h.shrinking.built.contains hmodel fun entry hentry => ?_
  obtain ⟨q, hq⟩ := Array.mem_iff_getElem?.mp hentry
  exact hheld q entry (Array.getElem?_eq_some_iff.mp hq).1 hq

/-- The global part of the log puts a point into the global box. -/
theorem Sound.inside_globalBox (h : d.Sound a f)
    (hmodel : (Trail.ofModel d.model).values.Contains d.model.columns.size x)
    (hheld : d.HeldBefore d.globalLength x) :
    x.reading.Inside d.globalBox d.model.columns.size := by
  refine (h.shrinking.built.rewindTo (Trail.fresh_ofModel _) d.globalLength).contains hmodel
    fun entry hentry => ?_
  rw [Trail.rewindTo_log] at hentry
  obtain ⟨q, hq⟩ := Array.mem_iff_getElem?.mp hentry
  rw [Array.take_eq_extract, Array.getElem?_extract] at hq
  split at hq
  · next hlt =>
      rw [Nat.zero_add] at hq
      exact hheld q entry (by omega) hq
  · cases hq

/-- What was logged holds at the points of the box. -/
theorem Sound.held_of_contains (h : d.Sound a f) (hbox : d.values.Contains d.model.columns.size x)
    (p : Nat) : d.HeldBefore p x := by
  intro q entry _ hentry
  refine BoundChange.HoldsAt.weaken (hbox _ _ (h.traced.column_lt hentry)) ?_
  exact h.shrunk.logged entry (Array.mem_of_getElem? hentry)

/-- A column is fixed to one. -/
def FixedToOne (d : Domain Exact) (c : ColumnId) : Prop := 1 ≤ d.values .lower c

/-- While no objective is set up, the columns that are fixed to one now may be taken for those that
the objective will be set up with, if nothing is undone from here on. -/
theorem Sound.reanchor (h : d.Sound a f) (hnone : d.objective = none) :
    d.Sound ⟨d.log.size, d.FixedToOne⟩ f := by
  refine ⟨h.positive, h.integer, h.readable, h.feastol, h.settled, h.shrinking, ?_, ?_,
    ⟨fun o ho => ?_, h.wellMade.cliques, h.wellMade.variableBounds, h.wellMade.conflicts⟩,
    h.latchedAtEnd, h.latched⟩
  · rintro c ⟨column, hcolumn, hone⟩
    exact Exact.le_trans hone (within_model h.shrunk hcolumn).1
  · intro c hone
    replace hone : 1 ≤ d.values .lower c := hone
    have hc : c < d.model.columns.size := by
      by_contra hout
      have hnobound : (d.bounds .lower)[c]? = none :=
        Array.getElem?_eq_none (by rw [h.settled.coherent.bounds_size]; exact Nat.le_of_not_lt hout)
      rw [values, hnobound] at hone
      exact absurd hone (by decide +kernel)
    obtain ⟨b, hb, hforce⟩ := h.traced.inForce_current .lower hc
    rw [values_eq hb] at hone
    cases hforce with
    | start hstart _ =>
        refine .inl ⟨d.model.columns[c], Array.getElem?_eq_getElem hc, ?_⟩
        simp only [Trail.ofModel, Trail.bounds, Array.getElem?_map, Array.getElem?_eq_getElem hc,
          Option.map_some, Option.some.injEq] at hstart
        subst hstart
        exact hone
    | set hp hentry hsets _ => exact .inr ⟨_, _, hp, hentry, hsets.2, hsets.1, hone⟩
  · rw [hnone] at ho
    cases ho

/-- Every logged change is to a whole number. -/
def LogsIntegers (d : Domain Exact) : Prop :=
    ∀ entry ∈ d.log, ∃ k : ℤ, entry.change.value = number k

theorem LogsIntegers.whole (h : d.LogsIntegers) : d.LogsWhole :=
  fun entry hentry => .inr (.inr (h entry hentry))

theorem LogsIntegers.of_extends (h : d'.LogsIntegers) (hlog : d.log.toList <+: d'.log.toList) :
    d.LogsIntegers :=
  fun entry hentry =>
    h entry (Array.mem_toList_iff.mp (hlog.subset (Array.mem_toList_iff.mpr hentry)))

/-- A bound that is at least as tight as a whole number is one itself, if there is a point in the
box of the model. -/
theorem Sound.integer_of_tight (h : d.Sound a f) (hwhole : d.model.WholeBounds)
    (hmodel : (Trail.ofModel d.model).values.Contains d.model.columns.size x)
    (hlog : d.LogsIntegers)
    {side : Side} {c : ColumnId} (hc : c < d.model.columns.size) {k : ℤ}
    (htight : side.tightOrEqual (d.values side c) (number k) = true) :
    ∃ k' : ℤ, d.values side c = number k' := by
  obtain ⟨b, hb, hforce⟩ := h.traced.inForce_current side hc
  rw [values_eq hb] at htight ⊢
  cases hforce with
  | set _ hentry _ _ => exact hlog _ (Array.mem_of_getElem? hentry)
  | start hstart _ =>
      have hholds := hmodel side c hc
      rw [Trail.values_eq hstart] at hholds
      have hbound : IsWhole b.value := values_eq hb ▸ h.values_whole hwhole hlog.whole side c
      rcases hbound with hplus | hminus | hnumber
      · rw [hplus] at hholds htight
        cases side with
        | lower => cases hholds
        | upper =>
            have hle : plus ≤ number (k : ℚ) := of_decide_eq_true htight
            cases hle
      · rw [hminus] at hholds htight
        cases side with
        | lower =>
            have hle : number (k : ℚ) ≤ minus := of_decide_eq_true htight
            cases hle
        | upper => cases hholds
      · exact hnumber

/-- A whole value that is tighter than the present bound is accepted as it is. -/
theorem acceptedValue_of_looser {side : Side} {current opposite value accepted : Exact}
    {isBranching crossing : Bool} (hf : f < 1) (hvalue : IsWhole value)
    (hopposite : IsWhole opposite)
    (hlooser : side.tightOrEqual current value = false)
    (h : acceptedValue side (number f) current opposite value isBranching =
      some (accepted, crossing)) :
    accepted = value := by
  simp only [acceptedValue, hlooser, Bool.false_and, Bool.false_eq_true, if_false] at h
  split at h
  · next htighter =>
      rw [if_neg (not_advance_le hvalue hopposite htighter hf)] at h
      exact (Prod.mk.inj (Option.some.inj h)).1.symm
  · exact (Prod.mk.inj (Option.some.inj h)).1.symm

/-- Changes to whole numbers are logged as such. -/
theorem Sound.logsIntegers_changeBound (h : d.Sound a f) (hf : f < 1) (hwhole : d.model.WholeBounds)
    (hmodel : (Trail.ofModel d.model).values.Contains d.model.columns.size x)
    (hlog : d.LogsIntegers)
    {change : BoundChange Exact} {reason : Reason} (hvalue : ∃ k : ℤ, change.value = number k)
    (hchange : d.changeBound change reason = .ok d') : d'.LogsIntegers := by
  obtain ⟨k, hk⟩ := hvalue
  have hnan : change.value ≠ nan := by simp [hk]
  obtain ⟨-, heffect⟩ := changeBound_settled h.settled hnan hchange
  rcases heffect with rfl | ⟨hfeasible, value, crossing, haccepted, hchanged⟩
  · exact hlog
  have hc : change.column < d.model.columns.size := (hchanged.column_lt h.settled :)
  have hbounds := h.values_whole hwhole hlog.whole
  have hgiven : ∃ k' : ℤ, value = number k' := by
    have haccepted' := haccepted
    rw [h.feastol] at haccepted'
    by_cases hstays : change.side.tightOrEqual
      (d.values change.side change.column) change.value = true
    · rcases acceptedValue_whole hf (.inr (.inr ⟨k, hk⟩)) (hbounds _ _) (hbounds _ _)
        haccepted' with
        rfl | ⟨-, rfl⟩
      · exact ⟨k, hk⟩
      · exact h.integer_of_tight hwhole hmodel hlog hc (hk ▸ hstays)
    · rw [acceptedValue_of_looser hf (.inr (.inr ⟨k, hk⟩)) (hbounds _ _)
        (Bool.eq_false_iff.mpr hstays) haccepted']
      exact ⟨k, hk⟩
  obtain ⟨previous, -, htrail⟩ := hchanged.trail
  intro entry hentry
  rw [← trail_log d', htrail, Trail.append_log, Array.mem_push] at hentry
  rcases hentry with hentry | rfl
  · exact hlog entry hentry
  · exact hgiven

end Domain

namespace PropagationState

/-- Everything that a state was told holds at a point: what its domain knows, and what the pools
hold. -/
structure Spares (x : Point) (s : PropagationState Exact) : Prop where
  rows : ∀ (r : RowId) row, s.domain.model.rows[r]? = some row → row.HoldsAt x
  knownCuts : ∀ index id cut, s.domain.cut? index id = some cut → cut.HoldsAt x
  knownConflicts : ∀ index id literals, s.domain.conflict? index id = some literals →
    ConflictHoldsAt literals x
  cliques : ∀ t, s.domain.cliques = some t → t.HoldsAt x
  variableBounds : ∀ t, s.domain.variableBounds = some t → t.HoldsAt x
  objective : ∀ o, s.domain.objective = some o → o.HoldsAt x
  cuts : s.PooledCuts fun cut => cut.HoldsAt x
  conflicts : s.PooledConflicts fun literals => ConflictHoldsAt literals x

/-- A sound and justified state which was told nothing that does not hold at a point, and the global
part of whose log holds there. The objective was set up with a part of that. -/
structure Regards (a : Domain.Anchor) (f : ℚ) (x : Point) (s : PropagationState Exact) : Prop where
  below : f < 1
  whole : s.domain.model.WholeBounds
  sound : s.Sound a f
  anchored : a.position ≤ s.domain.globalLength
  justified : s.Justified
  leveled : s.domain.Leveled
  integers : s.domain.LogsIntegers
  spares : s.Spares x
  inModel : (Trail.ofModel s.domain.model).values.Contains s.domain.model.columns.size x
  global : s.domain.HeldBefore s.domain.globalLength x

variable {s s' : PropagationState Exact}

theorem Spares.allows (h : s.Spares x) (hbox : s.domain.values.Contains s.domain.model.columns.size
    x) :
    s.Allows x where
  domain :=
    ⟨⟨hbox, h.rows, h.knownCuts, h.knownConflicts, h.objective⟩, h.cliques, h.variableBounds⟩
  cuts := fun _ p pool id cut _ hpool hcut => h.cuts p.pool pool id cut hpool hcut
  conflicts := fun _ p pool id literals _ hpool hget => h.conflicts p.pool pool id literals hpool
    hget

/-- What is told does not depend on the ages of the conflicts in the pools. -/
theorem Spares.withPools (h : s.Spares x) {pools : Pools Exact}
    (hsame : s.pools.SameContents pools) : Spares x { s with pools := pools } :=
  ⟨h.rows, h.knownCuts, h.knownConflicts, h.cliques, h.variableBounds, h.objective,
    fun i pool id cut hpool => h.cuts i pool id cut (hsame.cuts ▸ hpool),
      h.conflicts.sameContents hsame⟩

/-- The same constraints with the same pools. -/
theorem Spares.of_same (h : s.Spares x) {d : Domain Exact}
    (hsame : Domain.SameConstraints s.domain d) :
    Spares x { s with domain := d } where
  rows := hsame.setting.model ▸ h.rows
  knownCuts := hsame.cuts ▸ h.knownCuts
  knownConflicts := hsame.conflicts ▸ h.knownConflicts
  cliques := hsame.setting.cliques ▸ h.cliques
  variableBounds := hsame.setting.variableBounds ▸ h.variableBounds
  objective := fun o' ho' => by
    obtain ⟨o, ho, hconstraint⟩ := Domain.objective_of_demand hsame.symm.demand ho'
    exact (h.objective o ho).of_same
      ⟨hconstraint.cutoff.symm, hconstraint.costs.symm, hconstraint.partitionOf.symm⟩
  cuts := h.cuts
  conflicts := h.conflicts

namespace Regards

variable (h : s.Regards a f x)

include h

/-- Nothing rules out a point in every node if the state regards it. -/
theorem possible : s.Possible x where
  box := h.sound.domain.inside_globalBox h.inModel h.global
  rows := h.spares.rows
  cuts := fun index id cut hbehind => by
    obtain ⟨p, hp, ⟨min, hknown⟩ | ⟨-, pool, hpool, hget⟩⟩ := Domain.cutBehind_eq_some.mp hbehind
    · refine h.spares.knownCuts index id cut ?_
      rw [Domain.cut?, hp, Option.bind_some, hknown]
      rfl
    · exact h.spares.cuts p.pool pool id cut hpool hget
  conflicts := fun index id literals hbehind => by
    obtain ⟨p, hp, hknown | ⟨-, pool, hpool, hget⟩⟩ := Domain.conflictBehind_eq_some.mp hbehind
    · refine h.spares.knownConflicts index id literals ?_
      rw [Domain.conflict?, hp, Option.bind_some, hknown]
    · exact h.spares.conflicts p.pool pool id literals hpool hget
  cliques := h.spares.cliques
  variableBounds := h.spares.variableBounds
  objective := h.spares.objective

/-- The point is allowed in the present node if the whole log holds there. -/
theorem allows (hheld : s.domain.HeldBefore s.domain.log.size x) : s.Allows x :=
  h.spares.allows (h.sound.domain.contains_of_held h.inModel hheld)

/-- A domain is feasible while its box has a regarded point. -/
theorem feasible (hheld : s.domain.HeldBefore s.domain.log.size x) :
    s.domain.infeasible = none := by
  by_contra hinfeasible
  exact h.sound.domain.latched hinfeasible x (h.allows hheld).domain.toAdmits

end Regards

end PropagationState

end BranchBound
