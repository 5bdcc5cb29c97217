import BranchBound.Proofs.Domain.Conflicts
import BranchBound.Proofs.Domain.Cuts
import BranchBound.Proofs.Domain.Objective
import BranchBound.Proofs.Domain.Trail
import BranchBound.Proofs.Model.Build

/-!
# Everything follows the bounds

`Domain.Coherent` says that the activities of the rows, the minimal activities of the cuts and the
minimal objective value stand for the terms at given values of the bounds, and that every table has
its size. A bound that moves takes a coherent domain to one that is coherent with the values after
the move, and in a coherent domain nothing can stop the operations that move bounds.
-/

namespace BranchBound

open Checked

namespace Domain

variable {α : Type}

/-- The conflicts wait when a bound became tighter. -/
theorem conflictsWait_returns {d : Domain α} {c : ColumnId}
    (h : ∀ (i : Nat) p, d.conflictPropagations[i]? = some p → c < p.occurrences.size) :
    Returns (d.conflictPropagations.toList.mapM fun p => p.boundTightened c)
      (List.Forall₂ ConflictPropagation.Agrees d.conflictPropagations.toList) := by
  refine mapM_returns_forall₂ fun p hp => ?_
  obtain ⟨i, hi, rfl⟩ := List.getElem_of_mem hp
  exact ConflictPropagation.boundTightened_returns
    (h i _ (Array.getElem?_eq_getElem (by simpa using hi)))

/-- Related lists are related element by element. -/
theorem forall₂_getElem? {β : Type} {R : β → β → Prop} {xs ys : Array β}
    (h : List.Forall₂ R xs.toList ys.toList) {i : Nat} {y : β} (hy : ys[i]? = some y) :
    ∃ x, xs[i]? = some x ∧ R x y := by
  obtain ⟨hlt, rfl⟩ := Array.getElem?_eq_some_iff.mp hy
  have hlt' : i < xs.size := by
    have hlength := h.length_eq
    rw [Array.length_toList, Array.length_toList] at hlength
    exact hlength ▸ hlt
  refine ⟨xs[i], Array.getElem?_eq_getElem hlt', ?_⟩
  have hget := (List.forall₂_iff_get.mp h).2 i (by simpa using hlt') (by simpa using hlt)
  simpa using hget

theorem forall₂_trans {β : Type} {R : β → β → Prop} {xs ys zs : List β}
    (htrans : ∀ x y z, R x y → R y z → R x z) (h : List.Forall₂ R xs ys)
    (h' : List.Forall₂ R ys zs) :
    List.Forall₂ R xs zs := by
  induction h generalizing zs with
  | nil => exact h'
  | cons hxy _ ih =>
      cases h' with
      | cons hyz hrest => exact .cons (htrans _ _ _ hxy hyz) (ih hrest)

variable [Scalar α]

/-- The values of the bounds of a domain. -/
def values (d : Domain α) : BoundValues α := fun side c => (d.bounds side)[c]?.elim 0 Bound.value

theorem values_lower {d : Domain α} {c : ColumnId} {b : Bound α} (h : d.lower[c]? = some b) :
    b.value = d.values .lower c := by
  rw [values, bounds, h, Option.elim_some]

theorem values_upper {d : Domain α} {c : ColumnId} {b : Bound α} (h : d.upper[c]? = some b) :
    b.value = d.values .upper c := by
  rw [values, bounds, h, Option.elim_some]

theorem values_eq {d : Domain α} {side : Side} {c : ColumnId} {b : Bound α}
    (h : (d.bounds side)[c]? = some b) : d.values side c = b.value := by
  rw [values, h, Option.elim_some]

theorem boundValue_of_lt {d : Domain α} {side : Side} {c : ColumnId}
    (hc : c < (d.bounds side).size) :
    d.boundValue side c = .ok (d.values side c) := by
  have hb := Array.getElem?_eq_getElem hc
  rw [boundValue, bound, fetch_eq_ok.mpr hb, values_eq hb]
  rfl

variable (T : Tracking α) (β : BoundValues α)

/-- The tables of a domain have their sizes, and what is known of cuts fits the given values of the
bounds. -/
structure Framed (d : Domain α) : Prop where
  wellFormed : d.model.WellFormed
  coefficients : ∀ (r : RowId) (row : Row α), d.model.rows[r]? = some row →
    ∀ e ∈ row.entries, T.coefficient e.2
  costs : ∀ (c : ColumnId) (column : Column α), d.model.columns[c]? = some column →
    T.coefficient column.cost
  bounds_size : ∀ side, (d.bounds side).size = d.model.columns.size
  rowDirty_size : d.rowDirty.size = d.model.rows.size
  waiting : ∀ r ∈ d.waitingRows, r < d.model.rows.size
  movedSides_size : d.movedSides.size = d.model.columns.size
  cuts : ∀ (i : Nat) p, d.cutPropagations[i]? = some p → p.Coherent T d.model.columns.size β
  conflicts : ∀ (i : Nat) p, d.conflictPropagations[i]? = some p →
    p.occurrences.size = d.model.columns.size

/-- Everything that follows the bounds fits the given values of them. -/
structure Coherent (d : Domain α) : Prop extends Framed T β d where
  rows : ∀ (r : RowId) (row : Row α), d.model.rows[r]? = some row →
    ∃ activity, d.activities[r]? = some activity ∧
      T.tracks activity.min (termsAt β minSide row.entries) 0 ∧
      T.tracks activity.max (termsAt β maxSide row.entries) 0
  objective : ∀ o, d.objective = some o → o.Coherent T d.model.columns.size β

/-- Why a domain may be called infeasible after a bound moved: a sum with some terms at the old
value of the bound and the others at the new one violates its constraint. -/
inductive Blame (c : ColumnId) (side : Side) (old new : α) (d : Domain α) : Reason → Prop
  | rowUpper {r : RowId} {row : Row α} {s : PartialSum α} {pending : Multiset α}
      (hrow : d.model.rows[r]? = some row)
      (hmoving : T.Moving β minSide c side old new row.entries s pending)
      (hexceeds : s.exceeds row.upper d.feastol = true) : Blame c side old new d (.rowUpper r)
  | rowLower {r : RowId} {row : Row α} {s : PartialSum α} {pending : Multiset α}
      (hrow : d.model.rows[r]? = some row)
      (hmoving : T.Moving β maxSide c side old new row.entries s pending)
      (hshort : s.fallsShort row.lower d.feastol = true) : Blame c side old new d (.rowLower r)
  | cut {index : Nat} {p : CutPropagation α} {id : CutId}
      (hpool : d.cutPropagations[index]? = some p)
      (hexceeded : p.Exceeded T β c side old new d.feastol id) :
      Blame c side old new d (.cut index id)
  | objective {o o' : ObjectivePropagation α} (hobjective : d.objective = some o)
      (hmoved : o.boundMoved c side old new d.feastol = .ok (true, o'))
      (hcoherent : o'.Coherent T d.model.columns.size (β.set side c new))
      (hviolated : o'.isViolated d.feastol = true) : Blame c side old new d .objective

/-- What a step at a position may do to the feasibility, with the blame for it. -/
def Blamed (c : ColumnId) (side : Side) (old new : α) (position : Option Nat) (d d' : Domain α) :
    Prop :=
  d'.infeasible = d.infeasible ∨ d.infeasible = none ∧ ∃ reason p, position = some p ∧
    d'.infeasible = some ⟨reason, p⟩ ∧ Blame T β c side old new d reason

variable {T β} {c : ColumnId} {side : Side} {old new : α} {position : Option Nat}
  {start d d' : Domain α}

/-- Recording an infeasibility with a blame. -/
theorem Blamed.setInfeasibleAt (h : Blamed T β c side old new position start d) (condition : Bool)
    (reason : Reason)
    (hblame : condition = true → Blame T β c side old new start reason) :
    Blamed T β c side old new position start (d.setInfeasibleAt condition reason position) := by
  unfold Domain.setInfeasibleAt
  cases position with
  | none => exact h
  | some p =>
      cases condition with
      | false => exact h
      | true =>
          rcases h with h | ⟨hnone, reason', p', hp', hd, hreason'⟩
          · simp only [if_true, setInfeasible]
            cases hd : d.infeasible with
            | some i => exact .inl (by rw [← h, hd])
            | none => exact .inr ⟨h ▸ hd, reason, p, rfl, rfl, hblame rfl⟩
          · refine .inr ⟨hnone, reason', p', hp', ?_, hreason'⟩
            simp only [if_true, setInfeasible, hd]

/-- The rows while a bound moves from one value to another one: the terms of some occurrences are
still to be replaced, and nothing else was changed. -/
structure RowsInMotion (T : Tracking α) (β : BoundValues α) (c : ColumnId) (side : Side)
    (old new : α) (position : Option Nat) (start d : Domain α) (rest : List (RowId × α)) :
    Prop where
  core : d.core = start.core
  blamed : Blamed T β c side old new position start d
  rowDirty : d.rowDirty.size = start.rowDirty.size
  waiting : ∀ r ∈ d.waitingRows, r < start.model.rows.size
  movedSides : d.movedSides = start.movedSides
  cuts : d.cutPropagations = start.cutPropagations
  conflicts : d.conflictPropagations = start.conflictPropagations
  objective : d.objective = start.objective
  rows : ∀ (r : RowId) (row : Row α), start.model.rows[r]? = some row →
    ∃ activity, d.activities[r]? = some activity ∧
      T.Moving β minSide c side old new row.entries activity.min (pendingAt minSide side r rest) ∧
      T.Moving β maxSide c side old new row.entries activity.max (pendingAt maxSide side r rest)

theorem maxSide_eq_iff {a : α} {side : Side} : maxSide a = side ↔ minSide a ≠ side := by
  unfold maxSide
  cases minSide a <;> cases side <;> simp [Side.opposite]

/-- Making a row wait does not matter to rows in motion. -/
theorem RowsInMotion.markRowDirty {rest : List (RowId × α)} {r : RowId}
    (h : RowsInMotion T β c side old new position start d rest)
    (hrowDirty : start.rowDirty.size = start.model.rows.size) (hr : r < start.model.rows.size) :
    Returns (d.markRowDirty r) fun d' =>
      RowsInMotion T β c side old new position start d' rest := by
  have hlt : r < d.rowDirty.size := by
    rw [h.rowDirty, hrowDirty]
    exact hr
  refine (markRowDirty_returns hlt).mono fun d' hd' _ => ?_
  have hsize := (markRowDirty_size hd').trans h.rowDirty
  have hwaiting : ∀ r' ∈ d'.waitingRows, r' < start.model.rows.size := fun r' hr' => by
    rcases markRowDirty_waiting hd' r' hr' with hr' | ⟨rfl, -⟩
    · exact h.waiting r' hr'
    · exact hr
  rw [markRowDirty_eq_ok hd']
  exact { h with rowDirty := hsize, waiting := hwaiting }

/-- Recording an infeasibility does not matter to rows in motion. -/
theorem RowsInMotion.setInfeasibleAt {rest : List (RowId × α)} {condition : Bool} {reason : Reason}
    (h : RowsInMotion T β c side old new position start d rest)
    (hblame : condition = true → Blame T β c side old new start reason) :
    RowsInMotion T β c side old new position start (d.setInfeasibleAt condition reason position)
      rest := by
  have hblamed := h.blamed.setInfeasibleAt condition reason hblame
  rw [setInfeasibleAt_eq] at hblamed ⊢
  exact { h with blamed := hblamed }

section Rows

variable (hold : T.value old) (hnew : T.value new)
  (hcoefficients : ∀ (r : RowId) (row : Row α), start.model.rows[r]? = some row →
    ∀ e ∈ row.entries, T.coefficient e.2)
  (hrowDirty : start.rowDirty.size = start.model.rows.size)

include hold hnew hcoefficients

/-- Moving the term of an occurrence in the activity of its row. -/
theorem moveTerm_returns {r : RowId} {a : α} {row : Row α} {activity : Activity α}
    {rest : List (RowId × α)} (hrow : start.model.rows[r]? = some row)
    (hmin : T.Moving β minSide c side old new row.entries activity.min
      (pendingAt minSide side r ((r, a) :: rest)))
    (hmax : T.Moving β maxSide c side old new row.entries activity.max
      (pendingAt maxSide side r ((r, a) :: rest))) :
    Returns (activity.moveTerm (decide (0 < a) == (side == .lower)) a old new) fun moved =>
      T.Moving β minSide c side old new row.entries moved.min (pendingAt minSide side r rest) ∧
      T.Moving β maxSide c side old new row.entries moved.max (pendingAt maxSide side r rest) := by
  unfold Activity.moveTerm
  by_cases hside : minSide a = side
  · have hother : ¬maxSide a = side := by rw [maxSide_eq_iff, not_not]; exact hside
    rw [pendingAt_cons_of_mem (o := (r, a)) rest ⟨rfl, hside⟩] at hmin
    rw [pendingAt_cons_of_notMem (o := (r, a)) rest fun h => hother h.2] at hmax
    have ha := hmin.coefficient (hcoefficients r row hrow)
    rw [minSide_eq_iff.mpr hside, if_pos rfl]
    exact (hmin.step ha hold hnew).bind fun moved _ hmoved => .pure ⟨hmoved, hmax⟩
  · have hat : maxSide a = side := maxSide_eq_iff.mpr hside
    rw [pendingAt_cons_of_notMem (o := (r, a)) rest fun h => hside h.2] at hmin
    rw [pendingAt_cons_of_mem (o := (r, a)) rest ⟨rfl, hat⟩] at hmax
    have ha := hmax.coefficient (hcoefficients r row hrow)
    have hguard : ¬(decide (0 < a) == (side == .lower)) = true := by
      rw [minSide_eq_iff]
      exact hside
    rw [if_neg hguard]
    exact (hmax.step ha hold hnew).bind fun moved _ hmoved => .pure ⟨hmin, hmoved⟩

include hrowDirty

theorem moveRowTerm_returns {o : RowId × α} {rest : List (RowId × α)}
    (h : RowsInMotion T β c side old new position start d (o :: rest))
    (ho : o.1 < start.model.rows.size) :
    Returns (moveRowTerm side old new position d o) fun d' =>
      RowsInMotion T β c side old new position start d' rest := by
  obtain ⟨r, a⟩ := o
  have hmodel : d.model = start.model := (congrArg Domain.model h.core :)
  have hfeastol : d.feastol = start.feastol := (congrArg Domain.feastol h.core :)
  have hrow := Array.getElem?_eq_getElem ho
  obtain ⟨activity, hactivity, hmin, hmax⟩ := h.rows r _ hrow
  have hlt : r < d.activities.size := (Array.getElem?_eq_some_iff.mp hactivity).1
  simp only [moveRowTerm, fetch_eq_ok.mpr hactivity, ok_bind]
  refine (moveTerm_returns hold hnew hcoefficients hrow hmin hmax).bind fun moved _ hmoved => ?_
  refine (store_returns moved hlt).bind fun activities _ hactivities => ?_
  subst hactivities
  have hnext : RowsInMotion T β c side old new position start
      { d with activities := d.activities.setIfInBounds r moved } rest := by
    refine { h with rows := fun r' row' hrow' => ?_ }
    by_cases hr : r = r'
    · subst hr
      obtain rfl := Option.some.inj (hrow.symm.trans hrow')
      exact ⟨moved, Array.getElem?_setIfInBounds_self_of_lt hlt, hmoved⟩
    · obtain ⟨activity', hactivity', hmin', hmax'⟩ := h.rows r' row' hrow'
      rw [pendingAt_cons_of_notMem rest fun hmem => hr hmem.1] at hmin' hmax'
      refine ⟨activity', ?_, hmin', hmax'⟩
      rw [Array.getElem?_setIfInBounds_ne hr]
      exact hactivity'
  have hrow' : d.model.rows[r]? = some start.model.rows[r] := by rw [hmodel]; exact hrow
  simp only [Model.row, fetch_eq_ok.mpr hrow', ok_bind]
  split
  · split
    · refine (hnext.setInfeasibleAt fun hexceeds => ?_).markRowDirty hrowDirty ho
      exact .rowUpper hrow hmoved.1 (hfeastol ▸ hexceeds)
    · exact .pure hnext
  · split
    · refine (hnext.setInfeasibleAt fun hshort => ?_).markRowDirty hrowDirty ho
      exact .rowLower hrow hmoved.2 (hfeastol ▸ hshort)
    · exact .pure hnext

theorem foldlM_moveRowTerm_returns {found : List (RowId × α)}
    (h : RowsInMotion T β c side old new position start d found)
    (hfound : ∀ o ∈ found, o.1 < start.model.rows.size) :
    Returns (found.foldlM (moveRowTerm side old new position) d) fun d' =>
      RowsInMotion T β c side old new position start d' [] := by
  induction found generalizing d with
  | nil => exact .pure h
  | cons o rest ih =>
      rw [List.foldlM_cons]
      exact (moveRowTerm_returns hold hnew hcoefficients hrowDirty h
        (hfound o (List.mem_cons_self ..))).bind fun next _ hnext =>
          ih hnext fun o' ho' => hfound o' (List.mem_cons_of_mem _ ho')

end Rows

/-- The cuts while a bound moves: those of the first pools have followed it, after the rows. -/
structure CutsInMotion (T : Tracking α) (β : BoundValues α) (c : ColumnId) (side : Side)
    (old new : α) (position : Option Nat) (start rowsMoved : Domain α) (index : Nat)
    (d : Domain α) : Prop where
  same : d = { rowsMoved with infeasible := d.infeasible, cutPropagations := d.cutPropagations }
  blamed : Blamed T β c side old new position start d
  size : d.cutPropagations.size = start.cutPropagations.size
  moved : ∀ (i : Nat) p', d.cutPropagations[i]? = some p' → i < index →
    ∃ p, start.cutPropagations[i]? = some p ∧ p.SameCuts p' ∧
      p'.Coherent T start.model.columns.size (β.set side c new)
  others : ∀ i, index ≤ i → d.cutPropagations[i]? = start.cutPropagations[i]?

theorem moveCutTerms_returns {rowsMoved : Domain α} {index : Nat}
    (hold : T.value (β side c)) (hnew : T.value new) (hc : c < start.model.columns.size)
    (hcuts : ∀ (i : Nat) p, start.cutPropagations[i]? = some p →
      p.Coherent T start.model.columns.size β)
    (hfeastol : rowsMoved.feastol = start.feastol) (hindex : index < start.cutPropagations.size)
    (h : CutsInMotion T β c side (β side c) new position start rowsMoved index d) :
    Returns (moveCutTerms c side (β side c) new position d index)
      (CutsInMotion T β c side (β side c) new position start rowsMoved (index + 1)) := by
  have hlt : index < d.cutPropagations.size := h.size ▸ hindex
  have hp : start.cutPropagations[index]? = some start.cutPropagations[index] :=
    Array.getElem?_eq_getElem hindex
  have hfetch : fetch d.cutPropagations index = .ok start.cutPropagations[index] := by
    rw [fetch_eq_ok, h.others index (Nat.le_refl _)]
    exact hp
  have hfeastol' : d.feastol = start.feastol := by
    rw [h.same]
    exact hfeastol
  simp only [moveCutTerms, hfetch, ok_bind]
  refine (CutPropagation.boundMoved_returns (hcuts index _ hp) hc d.feastol hold hnew).bind ?_
  rintro ⟨violated, moved⟩ - ⟨hcoherent, hsame, hviolated⟩
  refine (store_returns moved hlt).bind fun propagations _ hpropagations => ?_
  subst hpropagations
  have hnext : CutsInMotion T β c side (β side c) new position start rowsMoved (index + 1)
      { d with cutPropagations := d.cutPropagations.setIfInBounds index moved } := by
    refine ⟨?_, h.blamed, ?_, fun i p' hp' hi => ?_, fun i hi => ?_⟩
    · rw [h.same]
    · rw [Array.size_setIfInBounds]
      exact h.size
    · rcases of_getElem?_setIfInBounds hp' with ⟨rfl, rfl⟩ | ⟨hne, hp'⟩
      · exact ⟨_, hp, hsame, hcoherent⟩
      · exact h.moved i p' hp' (by omega)
    · rw [Array.getElem?_setIfInBounds_ne (by omega)]
      exact h.others i (by omega)
  cases violated with
  | none => exact .pure hnext
  | some id =>
      refine .pure ?_
      have hblame : Blame T β c side (β side c) new start (.cut index id) :=
        .cut hp (hfeastol' ▸ hviolated id rfl)
      have hblamed := hnext.blamed.setInfeasibleAt true _ fun _ => hblame
      dsimp only
      rw [setInfeasibleAt_eq] at hblamed ⊢
      exact { hnext with
        blamed := hblamed
        same := by
          have hsame := hnext.same
          dsimp only at hsame ⊢
          rw [h.same] }

/-- What a domain is after a bound moved from one value to another one. -/
structure Moved (T : Tracking α) (β : BoundValues α) (c : ColumnId) (side : Side) (old new : α)
    (position : Option Nat) (d d' : Domain α) : Prop where
  core : d'.core = d.core
  blamed : Blamed T β c side old new position d d'
  coherent : d'.Coherent T (β.set side c new)
  cuts_size : d'.cutPropagations.size = d.cutPropagations.size
  cuts : ∀ (i : Nat) p', d'.cutPropagations[i]? = some p' →
    ∃ p, d.cutPropagations[i]? = some p ∧ p.SameCuts p'
  conflicts : List.Forall₂ ConflictPropagation.Agrees d.conflictPropagations.toList
    d'.conflictPropagations.toList
  objective : d.objective = none ∧ d'.objective = none ∨ ∃ o violated o', d.objective = some o ∧
    o.boundMoved c side old new d.feastol = .ok (violated, o') ∧ d'.objective = some o'

/-- What a domain is once everything but its objective has followed a bound. -/
structure RestMoved (T : Tracking α) (β : BoundValues α) (c : ColumnId) (side : Side) (old new : α)
    (position : Option Nat) (d d' : Domain α) : Prop where
  core : d'.core = d.core
  blamed : Blamed T β c side old new position d d'
  coherent : { d' with objective := none }.Coherent T (β.set side c new)
  cuts_size : d'.cutPropagations.size = d.cutPropagations.size
  cuts : ∀ (i : Nat) p', d'.cutPropagations[i]? = some p' →
    ∃ p, d.cutPropagations[i]? = some p ∧ p.SameCuts p'
  conflicts : List.Forall₂ ConflictPropagation.Agrees d.conflictPropagations.toList
    d'.conflictPropagations.toList
  objective : d'.objective = d.objective

/-- Rows and cuts that were moved, one after the other, and conflicts that wait. -/
theorem CutsInMotion.finish {rowsMoved : Domain α} {propagations : Array (ConflictPropagation α)}
    (h : d.Coherent T β)
    (hrows : RowsInMotion T β c side old new position d rowsMoved [])
    (hcuts : CutsInMotion T β c side old new position d rowsMoved d.cutPropagations.size d')
    (hconflicts : List.Forall₂ ConflictPropagation.Agrees d.conflictPropagations.toList
      propagations.toList) :
    RestMoved T β c side old new position d { d' with conflictPropagations := propagations } := by
  have hsame := hcuts.same
  have hmodel : rowsMoved.model = d.model := (congrArg Domain.model hrows.core :)
  have hmodel' : d'.model = d.model := by rw [hsame]; exact hmodel
  have hmoved : ∀ (i : Nat) p', d'.cutPropagations[i]? = some p' →
      ∃ p, d.cutPropagations[i]? = some p ∧ p.SameCuts p' ∧
        p'.Coherent T d.model.columns.size (β.set side c new) := fun i p' hp' =>
    hcuts.moved i p' hp' (hcuts.size ▸ (Array.getElem?_eq_some_iff.mp hp').1)
  refine ⟨?_, hcuts.blamed, ?_, hcuts.size, fun i p' hp' => ?_, hconflicts, ?_⟩
  · rw [hsame]
    exact hrows.core
  · refine ⟨⟨?_, ?_, ?_, fun side => ?_, ?_, ?_, ?_, fun i p hp => ?_, fun i p' hp' => ?_⟩,
      fun r row hrow => ?_, fun o ho => nomatch ho⟩
    · exact hmodel' ▸ h.wellFormed
    · exact hmodel' ▸ h.coefficients
    · exact hmodel' ▸ h.costs
    · have hbounds : d'.bounds side = d.bounds side := by
        rw [hsame]
        cases side with
        | lower => exact (congrArg Domain.lower hrows.core :)
        | upper => exact (congrArg Domain.upper hrows.core :)
      have hsize := h.bounds_size side
      rw [← hbounds, ← hmodel'] at hsize
      cases side <;> exact hsize
    · have hrowDirty : d'.rowDirty.size = d.rowDirty.size := by rw [hsame]; exact hrows.rowDirty
      exact hrowDirty.trans (hmodel' ▸ h.rowDirty_size)
    · have hwaiting : d'.waitingRows = rowsMoved.waitingRows := by rw [hsame]
      intro r hr
      rw [hmodel']
      exact hrows.waiting r (hwaiting ▸ hr)
    · have hmovedSides : d'.movedSides = d.movedSides := by rw [hsame]; exact hrows.movedSides
      exact (congrArg Array.size hmovedSides).trans (hmodel' ▸ h.movedSides_size)
    · obtain ⟨q, -, -, hcoherent⟩ := hmoved i p hp
      exact hmodel' ▸ hcoherent
    · obtain ⟨p, hp, hagrees⟩ := forall₂_getElem? hconflicts hp'
      rw [hagrees.occurrences]
      exact (h.conflicts i p hp).trans (congrArg (fun m => m.columns.size) hmodel').symm
    · obtain ⟨activity, hactivity, hmin, hmax⟩ := hrows.rows r row (hmodel' ▸ hrow)
      refine ⟨activity, ?_, hmin.finish, hmax.finish⟩
      rw [← hactivity, hsame]
  · obtain ⟨p, hp, hsame, -⟩ := hmoved i p' hp'
    exact ⟨p, hp, hsame⟩
  · rw [hsame]
    exact hrows.objective

/-- The objective follows a bound after everything else did. -/
theorem moveObjectiveTerm_returns (hold : T.value (β side c)) (hnew : T.value new)
    (hc : c < start.model.columns.size) (h : start.Coherent T β)
    (hrest : RestMoved T β c side (β side c) new position start d) :
    Returns (d.moveObjectiveTerm c side (β side c) new position)
      (Moved T β c side (β side c) new position start) := by
  have hmodel : d.model = start.model := (congrArg Domain.model hrest.core :)
  have hfeastol : d.feastol = start.feastol := (congrArg Domain.feastol hrest.core :)
  unfold moveObjectiveTerm
  rw [hrest.objective]
  cases ho : start.objective with
  | none =>
      have hnone : d.objective = none := hrest.objective.trans ho
      refine .pure ⟨hrest.core, hrest.blamed, ?_, hrest.cuts_size, hrest.cuts,
        hrest.conflicts, .inl ⟨ho, hnone⟩⟩
      exact { hrest.coherent with objective := fun o ho' => nomatch hnone.symm.trans ho' }
  | some o =>
      refine (ObjectivePropagation.boundMoved_returns (h.objective o ho) hc d.feastol hold
        hnew).bind ?_
      rintro ⟨violated, moved⟩ hresult ⟨hcoherent, -, hviolated⟩
      rw [hfeastol] at hresult hviolated
      have hblamed : Blamed T β c side (β side c) new position start
          { d with objective := some moved } := hrest.blamed
      have hlatched := hblamed.setInfeasibleAt violated .objective
        fun htrue => .objective ho (htrue ▸ hresult) hcoherent (hviolated htrue)
      refine .pure ?_
      rw [setInfeasibleAt_eq] at hlatched ⊢
      refine ⟨hrest.core, hlatched, ?_, hrest.cuts_size, hrest.cuts, hrest.conflicts,
        .inr ⟨o, violated, moved, ho, hresult, rfl⟩⟩
      refine { hrest.coherent with objective := fun o' ho' => ?_ }
      obtain rfl : moved = o' := Option.some.inj ho'
      exact hmodel ▸ hcoherent

/-- Everything follows a bound that moves, and nothing can stop it. -/
theorem boundMoved_returns (h : d.Coherent T β) (hβ : T.Admissible β)
    (hc : c < d.model.columns.size) (hnew : T.value new) (position : Option Nat) :
    Returns (d.boundMoved c side (β side c) new position)
      (Moved T β c side (β side c) new position d) := by
  have hold := hβ side c
  have hocc : c < d.model.occurrences.size := h.wellFormed.occurrences_size ▸ hc
  unfold boundMoved
  refine (fetch_returns hocc).bind fun found _ hfound => ?_
  have hstart : RowsInMotion T β c side (β side c) new position d d found := by
    refine ⟨rfl, .inl rfl, rfl, h.waiting, rfl, rfl, rfl, rfl, fun r row hrow => ?_⟩
    obtain ⟨activity, hactivity, hmin, hmax⟩ := h.rows r row hrow
    have hentries := h.wellFormed.occurrences_eq c found r row hfound hrow
    refine ⟨activity, hactivity, ?_, ?_⟩
    · rw [pendingAt_eq hentries]
      exact .start rfl hmin
    · rw [pendingAt_eq hentries]
      exact .start rfl hmax
  refine (foldlM_moveRowTerm_returns hold hnew h.coefficients h.rowDirty_size hstart
    (h.wellFormed.row_lt c found hfound)).bind fun d₁ _ hrows => ?_
  have hcutsStart : CutsInMotion T β c side (β side c) new position d d₁ 0 d₁ :=
    ⟨rfl, hrows.blamed, by rw [hrows.cuts], fun i p' _ hi => absurd hi (Nat.not_lt_zero i),
      fun i _ => by rw [hrows.cuts]⟩
  have hfeastol : d₁.feastol = d.feastol := (congrArg Domain.feastol hrows.core :)
  rw [hrows.cuts]
  refine (foldlM_range_returns (fun i s hi hs => moveCutTerms_returns hold hnew hc h.cuts hfeastol
    hi hs) hcutsStart).bind fun d₂ _ hcuts => ?_
  have hconflicts : d₂.conflictPropagations = d.conflictPropagations := by
    rw [hcuts.same]
    exact hrows.conflicts
  cases position with
  | none =>
      refine moveObjectiveTerm_returns hold hnew hc h (hcuts.finish h hrows ?_)
      rw [hconflicts]
      exact List.forall₂_same.mpr fun p _ => .refl p
  | some p =>
      have hsizes : ∀ (i : Nat) p, d₂.conflictPropagations[i]? = some p →
          c < p.occurrences.size := fun i p hp =>
        Nat.lt_of_lt_of_eq hc (h.conflicts i p (hconflicts ▸ hp)).symm
      refine (conflictsWait_returns hsizes).bind fun found _ hfound => ?_
      exact moveObjectiveTerm_returns hold hnew hc h (hcuts.finish h hrows (hconflicts ▸ hfound))

end Domain

end BranchBound
