import BranchBound.Proofs.Bound
import BranchBound.Proofs.VariableBound.Table
import BranchBound.VariableBound.Detection
import Mathlib.Data.List.Flatten
import Mathlib.Data.List.Nodup

/-!
# Variable bounds as an index

Whatever bounds are added, restated and removed, a column has at most one bound over a binary column
on each side, and it is listed under the binary column exactly if there is one. So what follows from
the value of a binary column are exactly the bounds over it, taken at that value. In exact
arithmetic a bound is the tightest one, at either value, of all those that were accepted for its
pair of columns and were not removed since; where a column was replaced in the meantime, they are
restated with it.
-/

namespace BranchBound

open Checked

namespace VariableBounds

variable {α : Type} [Scalar α] {n : Nat} {t t' : VariableBounds α}

section Merging

variable {side : Side} {y : ColumnId} {bound : VariableBound α}

/-- Merging keeps the binary columns of a list and appends a new one. -/
theorem map_fst_mergeInto (list : List (ColumnId × VariableBound α)) :
    (mergeInto side y bound list).2.map Prod.fst =
      if y ∈ list.map Prod.fst then list.map Prod.fst else list.map Prod.fst ++ [y] := by
  induction list with
  | nil => rfl
  | cons line rest ih =>
      rw [mergeInto]
      by_cases hy : line.1 = y
      · simp [hy]
      · have hne : ¬y = line.1 := fun h => hy h.symm
        simp only [beq_eq_false_iff_ne.mpr hy, Bool.false_eq_true, if_false, List.map_cons, ih,
          List.mem_cons, hne, false_or]
        split <;> simp

/-- Where nothing changes there was a bound before. -/
theorem mem_of_mergeInto_unchanged {list : List (ColumnId × VariableBound α)}
    (h : (mergeInto side y bound list).1 = false) : y ∈ list.map Prod.fst := by
  induction list with
  | nil => cases h
  | cons line rest ih =>
      rw [mergeInto] at h
      by_cases hy : line.1 = y
      · exact hy ▸ List.mem_cons_self ..
      · simp only [beq_eq_false_iff_ne.mpr hy, Bool.false_eq_true, if_false] at h
        exact List.mem_cons_of_mem _ (ih h)

/-- What is in a list after merging: the bounds over other columns, and over this one the bound that
was there merged with the new one, or the new one if there was none. -/
theorem mem_mergeInto {list : List (ColumnId × VariableBound α)} (hlist : (list.map Prod.fst).Nodup)
    {y' : ColumnId} {b : VariableBound α} :
    (y', b) ∈ (mergeInto side y bound list).2 ↔ y' ≠ y ∧ (y', b) ∈ list ∨
      y' = y ∧ ((∃ existing, (y, existing) ∈ list ∧ b = merge side existing bound) ∨
        y ∉ list.map Prod.fst ∧ b = bound) := by
  induction list with
  | nil => simp [mergeInto]
  | cons line rest ih =>
      obtain ⟨hline, hrest⟩ := List.nodup_cons.mp hlist
      obtain ⟨z, existing⟩ := line
      rw [mergeInto]
      by_cases hz : z = y
      · subst hz
        have hnone (b' : VariableBound α) : (z, b') ∉ rest := fun hmem =>
          hline (List.mem_map.mpr ⟨_, hmem, rfl⟩)
        by_cases hy' : y' = z
        · subst hy'
          simp [hnone]
        · simp [hy']
      · have hne : ¬y = z := fun h => hz h.symm
        simp only [beq_eq_false_iff_ne.mpr hz, Bool.false_eq_true, if_false, List.mem_cons,
          ih hrest, Prod.mk.injEq, List.map_cons, hne, false_and, false_or]
        by_cases hy' : y' = y
        · subst hy'
          simp [hne]
        · simp [hy']

end Merging

/-- A column has one bound at most over a binary column on each side, and is listed under it, once,
if and only if it has one. -/
structure Indexed (n : Nat) (t : VariableBounds α) : Prop where
  sized : t.Sized n
  single : ∀ side x, ((t.lines side x).map Prod.fst).Nodup
  listed : ∀ x y, x ∈ t.under y ↔ y ∈ t.binaries x
  once : ∀ y, (t.under y).Nodup

omit [Scalar α] in
theorem lines_empty (side : Side) (x : ColumnId) :
    (empty n : VariableBounds α).lines side x = [] := by
  cases side <;> simp [lines, onSide, empty, Array.getElem?_replicate] <;> split <;> rfl

omit [Scalar α] in
theorem empty_indexed (n : Nat) : (empty n : VariableBounds α).Indexed n := by
  have hlistings (y : ColumnId) : (empty n : VariableBounds α).under y = [] := by
    simp [under, empty, Array.getElem?_replicate]
    split <;> rfl
  refine ⟨sized_empty, fun side x => ?_, fun x y => ?_, fun y => ?_⟩
  · rw [lines_empty]
    exact List.nodup_nil
  · simp [hlistings, binaries, lines_empty]
  · rw [hlistings]
    exact List.nodup_nil

theorem Indexed.record (h : t.Indexed n) (side : Side) {x y : ColumnId} (hx : x < n) (hy : y < n)
    (bound : VariableBound α) :
    Returns ((VariableBounds.record side x y bound).finish t) fun r => r.2.Indexed n ∧
      ∀ side' x', r.2.lines side' x' = if side' = side ∧ x' = x then
        (mergeInto side y bound (t.lines side x)).2 else t.lines side' x' := by
  obtain ⟨⟨changed, u⟩, hrun, hchanged, hlines, hlistings⟩ :=
    h.sized.record_returns side hx hy bound
  have hkeys : ∀ side' x' y', y' ∈ (u.lines side' x').map Prod.fst ↔
      y' ∈ (t.lines side' x').map Prod.fst ∨ side' = side ∧ x' = x ∧ y' = y := by
    intro side' x' y'
    rw [hlines]
    by_cases hhere : side' = side ∧ x' = x
    · obtain ⟨rfl, rfl⟩ := hhere
      rw [if_pos ⟨rfl, rfl⟩, map_fst_mergeInto]
      split
      · next hold =>
          refine ⟨.inl, ?_⟩
          rintro (hmem | ⟨-, -, rfl⟩)
          · exact hmem
          · exact hold
      · rw [List.mem_append, List.mem_singleton]
        simp
    · rw [if_neg hhere]
      refine ⟨.inl, fun hmem => hmem.resolve_right fun h => hhere ⟨h.1, h.2.1⟩⟩
  refine ⟨(changed, u), hrun,
    ⟨h.sized.record hrun, fun side' x' => ?_, fun x' y' => ?_, fun y' => ?_⟩,
    hlines⟩
  · rw [hlines]
    split
    · rw [map_fst_mergeInto]
      split
      · exact h.single side x
      · next hnew => exact List.nodup_append_comm.mp (List.nodup_cons.mpr ⟨hnew, h.single side x⟩)
    · exact h.single side' x'
  · have hbinaries : y' ∈ u.binaries x' ↔ y' ∈ t.binaries x' ∨ x' = x ∧ y' = y := by
      simp only [mem_binaries, hkeys, exists_or, exists_eq_left]
    -- where nothing changed there was a bound, so the column is listed already
    have hlisted : changed = false → x ∈ t.under y := fun hsame =>
      (h.listed x y).mpr (mem_binaries.mpr
        ⟨side, mem_of_mergeInto_unchanged (hchanged.symm.trans hsame)⟩)
    rw [hbinaries, ← h.listed, hlistings]
    split
    · next hnew =>
        obtain ⟨rfl, -, -⟩ := hnew
        simp
    · next hold =>
        refine ⟨.inl, ?_⟩
        rintro (hmem | ⟨rfl, rfl⟩)
        · exact hmem
        · by_contra hnot
          cases changed with
          | false => exact hnot (hlisted rfl)
          | true => exact hold ⟨rfl, rfl, hnot⟩
  · rw [hlistings]
    split
    · next hnew => exact List.nodup_append_comm.mp (List.nodup_cons.mpr ⟨hnew.2.2, h.once y⟩)
    · exact h.once y'

theorem Indexed.transform (h : t.Indexed n) {c : ColumnId} (hc : c < n) (scale constant : α) :
    Returns (t.transform c scale constant) fun t' => t'.Indexed n ∧
      ∀ side x, t'.lines side x = if x = c then
        (t.lines (if scale < 0 then side.opposite else side) c).map
          fun line => (line.1, restated scale constant line.2)
        else t.lines side x := by
  obtain ⟨u, hrun, hlines, hlistings⟩ := h.sized.transform_returns hc scale constant
  have hkeys : ∀ side x, (u.lines side x).map Prod.fst =
      (t.lines (if x = c ∧ scale < 0 then side.opposite else side) x).map Prod.fst := by
    intro side x
    rw [hlines]
    by_cases hx : x = c
    · subst hx
      simp
    · simp [hx]
  have hbinaries : ∀ x y, y ∈ u.binaries x ↔ y ∈ t.binaries x := by
    intro x y
    simp only [mem_binaries, hkeys]
    split
    · constructor
      · rintro ⟨side, hside⟩
        exact ⟨side.opposite, hside⟩
      · rintro ⟨side, hside⟩
        exact ⟨side.opposite, by cases side <;> exact hside⟩
    · exact Iff.rfl
  refine ⟨u, hrun, ⟨h.sized.transform hrun, fun side x => ?_, fun x y => ?_, fun y => ?_⟩, hlines⟩
  · rw [hkeys]
    exact h.single _ x
  · rw [hlistings, hbinaries, h.listed]
  · rw [hlistings]
    exact h.once y

omit [Scalar α] in
/-- After a column was substituted no bound is over it, and it has no bound. -/
theorem Indexed.substitute (h : t.Indexed n) {c : ColumnId} (hc : c < n) :
    Returns ((VariableBounds.substitute c).finish t) fun r => r.2.Indexed n ∧
      ∀ side x y bound, (y, bound) ∈ r.2.lines side x ↔
        x ≠ c ∧ y ≠ c ∧ (y, bound) ∈ t.lines side x := by
  have hcolumns : ∀ y ∈ t.binaries c, y < n := fun y hy =>
    h.sized.lt_of_mem_under ((h.listed c y).mpr hy)
  obtain ⟨⟨_, u⟩, hrun, hlines, hlistings⟩ := h.sized.substitute_returns hc hcolumns
  have hmem : ∀ side x y bound, (y, bound) ∈ u.lines side x ↔
      x ≠ c ∧ y ≠ c ∧ (y, bound) ∈ t.lines side x := by
    intro side x y bound
    rw [hlines]
    by_cases hx : x = c
    · simp [hx]
    · rw [if_neg hx]
      split
      · simp [hx, and_comm]
      · next hnot =>
          refine ⟨fun hline => ⟨hx, ?_, hline⟩, fun hline => hline.2.2⟩
          rintro rfl
          exact hnot ((h.listed x y).mpr (mem_binaries.mpr ⟨side, mem_map_fst.mpr ⟨_, hline⟩⟩))
  have hbinaries : ∀ x y, y ∈ u.binaries x ↔ x ≠ c ∧ y ≠ c ∧ y ∈ t.binaries x := by
    intro x y
    simp only [mem_binaries, mem_map_fst, hmem, exists_and_left]
  refine ⟨((), u), hrun,
    ⟨h.sized.substitute hrun, fun side x => ?_, fun x y => ?_, fun y => ?_⟩, hmem⟩
  · have hsublist : (u.lines side x).Sublist (t.lines side x) := by
      rw [hlines]
      split
      · exact List.nil_sublist _
      · split
        · exact List.filter_sublist
        · exact .refl _
    exact (h.single side x).sublist (hsublist.map Prod.fst)
  · rw [hbinaries, ← h.listed, hlistings]
    by_cases hy : y = c
    · simp [hy]
    · rw [if_neg hy]
      split
      · simp [hy, and_comm]
      · next hnot =>
          refine ⟨fun hx => ⟨?_, hy, hx⟩, fun hx => hx.2.2⟩
          rintro rfl
          exact hnot ((h.listed x y).mp hx)
  · rw [hlistings]
    split
    · exact List.nodup_nil
    · split
      · exact (h.once y).filter _
      · exact h.once y

/-- The bounds over a binary column at a value, as changes of a column. -/
theorem mem_changesOver_iff {side : Side} {x y : ColumnId} {value : Bool}
    {list : List (ColumnId × VariableBound α)} {change : BoundChange α} :
    change ∈ changesOver side x y value list ↔
      change.side = side ∧ change.column = x ∧
        ∃ bound, (y, bound) ∈ list ∧ change.value = bound.evaluate value := by
  simp only [changesOver, List.mem_map, List.mem_filter, beq_iff_eq, Prod.exists]
  constructor
  · rintro ⟨_, bound, ⟨hline, rfl⟩, rfl⟩
    exact ⟨rfl, rfl, bound, hline, rfl⟩
  · rintro ⟨rfl, rfl, bound, hline, hvalue⟩
    exact ⟨y, bound, ⟨hline, rfl⟩, by rw [← hvalue]⟩

/-- A column has one change at most on a side. -/
theorem changesOver_sublist {list : List (ColumnId × VariableBound α)}
    (hlist : (list.map Prod.fst).Nodup) (side : Side) (x y : ColumnId) (value : Bool) :
    ((changesOver side x y value list).map fun change => (change.column, change.side)).Sublist
      [(x, side)] := by
  induction list with
  | nil => exact List.nil_sublist _
  | cons line rest ih =>
      obtain ⟨hline, hrest⟩ := List.nodup_cons.mp hlist
      by_cases hy : line.1 = y
      · subst hy
        have hnone : rest.filter (fun other => other.1 == line.1) = [] := by
          refine List.filter_eq_nil_iff.mpr fun other hother heq => hline ?_
          exact beq_iff_eq.mp heq ▸ List.mem_map.mpr ⟨other, hother, rfl⟩
        simp [changesOver, hnone]
      · have hskip : changesOver side x y value (line :: rest) = changesOver side x y value
          rest := by
          simp [changesOver, hy]
        rw [hskip]
        exact ih hrest

/-- What follows from the value of a binary column are the bounds over it, each once. -/
theorem Indexed.impliedBy_returns (h : t.Indexed n) {y : ColumnId} (hy : y < n) (value : Bool) :
    Returns (t.impliedBy y value) fun changes =>
      (changes.map fun change => (change.column, change.side)).Nodup ∧
      ∀ change, change ∈ changes ↔ ∃ bound, (y, bound) ∈ t.lines change.side change.column ∧
        change.value = bound.evaluate value := by
  let changesOf (x : ColumnId) : List (BoundChange α) :=
    changesOver .upper x y value (t.lines .upper x) ++ changesOver .lower x y value
      (t.lines .lower x)
  have hbounded := h.sized.getElem?_boundedBy hy
  have hchanges : ((t.under y).mapM fun x => do
      return changesOver .upper x y value (← fetch t.upper x) ++
        changesOver .lower x y value (← fetch t.lower x) : Checked (List (List (BoundChange α)))) =
      .ok ((t.under y).map changesOf) := by
    refine mapM_eq_ok.mpr (List.forall₂_map_right_iff.mpr (List.forall₂_same.mpr fun x hx => ?_))
    have hlt := h.sized.bounded y _ hbounded x hx
    have hupper : fetch t.upper x = .ok (t.lines .upper x) :=
      fetch_eq_ok.mpr (h.sized.getElem?_side .upper hlt)
    have hlower : fetch t.lower x = .ok (t.lines .lower x) :=
      fetch_eq_ok.mpr (h.sized.getElem?_side .lower hlt)
    rw [hupper, hlower]
    rfl
  refine ⟨((t.under y).map changesOf).flatten, ?_, ?_, fun change => ?_⟩
  · rw [impliedBy, fetch_eq_ok.mpr hbounded, ok_bind, hchanges]
    rfl
  · have hsublist : (((t.under y).map changesOf).flatten.map fun change =>
        (change.column, change.side)).Sublist
        ((t.under y).flatMap fun x => [(x, Side.upper), (x, Side.lower)]) := by
      rw [← List.flatMap_def, List.map_flatMap]
      refine List.Sublist.flatMap_right _ fun x _ => ?_
      rw [List.map_append]
      exact (changesOver_sublist (h.single .upper x) _ x y value).append
        (changesOver_sublist (h.single .lower x) _ x y value)
    refine hsublist.nodup (List.nodup_flatMap.mpr ⟨fun x _ => by simp, ?_⟩)
    refine (h.once y).imp fun hne => ?_
    simp [Function.onFun, Ne.symm hne]
  · simp only [List.mem_flatten, List.mem_map, exists_exists_and_eq_and, changesOf, List.mem_append,
      mem_changesOver_iff]
    constructor
    · rintro ⟨x, -, ⟨hside, rfl, bound, hline, hvalue⟩ | ⟨hside, rfl, bound, hline, hvalue⟩⟩
      · exact ⟨bound, hside ▸ hline, hvalue⟩
      · exact ⟨bound, hside ▸ hline, hvalue⟩
    · rintro ⟨bound, hline, hvalue⟩
      refine ⟨change.column, (h.listed _ _).mpr
        (mem_binaries.mpr ⟨_, mem_map_fst.mpr ⟨bound, hline⟩⟩), ?_⟩
      cases hside : change.side with
      | upper => exact .inl ⟨rfl, rfl, bound, hside ▸ hline, hvalue⟩
      | lower => exact .inr ⟨rfl, rfl, bound, hside ▸ hline, hvalue⟩

end VariableBounds

end BranchBound
