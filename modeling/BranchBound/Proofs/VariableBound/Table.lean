import BranchBound.Proofs.Checked
import BranchBound.VariableBound.Table

/-!
# Tables of variable bounds

However a table of variable bounds came about, the columns that a binary column bounds are columns
of the table. So the bounds which follow from the value of a binary column can be looked up, and
they are the lines of the table at that value.
-/

namespace BranchBound

open Checked

namespace VariableBounds

variable {α : Type} [Scalar α] (columnCount : Nat)

/-- The tables that result from recording, restating and removing bounds. -/
inductive Made : VariableBounds α → Prop
  | empty : Made (empty columnCount)
  | record {t t' : VariableBounds α} {side : Side} {x y : ColumnId} {bound : VariableBound α}
      {changed : Bool} (h : Made t) (hrecord : (record side x y bound).finish t =
        .ok (changed, t')) :
      Made t'
  | transform {t t' : VariableBounds α} {c : ColumnId} {scale constant : α} (h : Made t)
      (htransform : t.transform c scale constant = .ok t') : Made t'
  | substitute {t t' : VariableBounds α} {c : ColumnId} (h : Made t)
      (hsubstitute : (substitute c).finish t = .ok ((), t')) : Made t'

/-- The columns that a binary column bounds are columns of the table. -/
structure Sized (t : VariableBounds α) : Prop where
  sides : ∀ side, (t.onSide side).size = columnCount
  binaries : t.boundedBy.size = columnCount
  bounded : ∀ (y : ColumnId) found, t.boundedBy[y]? = some found → ∀ x ∈ found, x < columnCount

variable {columnCount} {t t' : VariableBounds α}

omit [Scalar α] in
theorem sized_empty : (empty columnCount : VariableBounds α).Sized columnCount where
  sides := fun side => by cases side <;> exact Array.size_replicate
  binaries := Array.size_replicate
  bounded := fun y found h x hx => by
    rw [empty, Array.getElem?_replicate] at h
    split at h
    · cases h
      cases hx
    · cases h

omit [Scalar α] in
/-- Other bounds on a side do not matter. -/
theorem Sized.setSide (h : t.Sized columnCount) (side : Side)
    {lists : Array (List (ColumnId × VariableBound α))} (hsize : lists.size = columnCount) :
    (t.setSide side lists).Sized columnCount := by
  cases side with
  | lower =>
      refine ⟨fun side => ?_, h.binaries, h.bounded⟩
      cases side with
      | lower => exact hsize
      | upper => exact h.sides .upper
  | upper =>
      refine ⟨fun side => ?_, h.binaries, h.bounded⟩
      cases side with
      | lower => exact h.sides .lower
      | upper => exact hsize

omit [Scalar α] in
/-- Other columns that are bounded do not matter, as long as they are columns of the table. -/
theorem Sized.setBounded (h : t.Sized columnCount) {y : ColumnId} {found : List ColumnId}
    (hfound : ∀ x ∈ found, x < columnCount) :
    { t with boundedBy := t.boundedBy.setIfInBounds y found }.Sized columnCount := by
  refine ⟨fun side => ?_, (Array.size_setIfInBounds ..).trans h.binaries, fun y' found' h' => ?_⟩
  · have hside := h.sides side
    cases side <;> exact hside
  · rcases of_getElem?_setIfInBounds h' with ⟨-, rfl⟩ | ⟨-, h'⟩
    · exact hfound
    · exact h.bounded y' found' h'

omit [Scalar α] in
theorem Sized.listUnder (h : t.Sized columnCount) {x y : ColumnId} (hx : x < columnCount)
    (hlist : t.listUnder y x = .ok t') : t'.Sized columnCount := by
  simp only [VariableBounds.listUnder, bind_eq_ok, pure_eq_ok, update_eq_ok] at hlist
  obtain ⟨_, ⟨found, found', hfound, hnew, rfl⟩, rfl⟩ := hlist
  cases hnew
  refine h.setBounded fun x' hx' => ?_
  split at hx'
  · exact h.bounded y found hfound x' hx'
  · rcases List.mem_append.mp hx' with hx' | hx'
    · exact h.bounded y found hfound x' hx'
    · rw [List.mem_singleton.mp hx']
      exact hx

theorem Sized.record (h : t.Sized columnCount) {side : Side} {x y : ColumnId}
    {bound : VariableBound α} {changed : Bool}
    (hrecord : (VariableBounds.record side x y bound).finish t = .ok (changed, t')) :
    t'.Sized columnCount := by
  rw [Action.finish_eq_ok] at hrecord
  simp only [VariableBounds.record, Action.perform_bind_eq_ok, Action.perform_get,
    Action.perform_lift, Action.perform_set, Prod.mk.injEq, Except.ok.injEq, true_and] at hrecord
  obtain ⟨_, _, ⟨rfl, rfl⟩, list, _, ⟨hlist, rfl⟩, lists, _, ⟨hstore, rfl⟩, -, _, rfl, hrecord⟩ :=
    hrecord
  obtain ⟨hlt, rfl⟩ := store_eq_ok.mp hstore
  have hset : (t.setSide side ((t.onSide side).setIfInBounds x
      (mergeInto side y bound list).2)).Sized columnCount :=
    h.setSide side ((Array.size_setIfInBounds ..).trans (h.sides side))
  split at hrecord
  · simp only [Action.perform_bind_eq_ok, Action.perform_change_eq_ok, Action.perform_pure,
      Prod.mk.injEq, Except.ok.injEq] at hrecord
    obtain ⟨-, u, hunder, -, rfl⟩ := hrecord
    exact hset.listUnder (h.sides side ▸ hlt) hunder
  · simp only [Action.perform_pure, Prod.mk.injEq] at hrecord
    rw [← hrecord.2]
    exact hset

theorem Sized.transform (h : t.Sized columnCount) {c : ColumnId} {scale constant : α}
    (htransform : t.transform c scale constant = .ok t') : t'.Sized columnCount := by
  simp only [VariableBounds.transform, bind_eq_ok, fetch_eq_ok] at htransform
  obtain ⟨upper, -, lower, -, htransform⟩ := htransform
  have hset : ∀ restatedUpper restatedLower, ({ t with
      upper := t.upper.setIfInBounds c restatedUpper
      lower := t.lower.setIfInBounds c restatedLower } : VariableBounds α).Sized columnCount :=
    fun restatedUpper restatedLower =>
      (h.setSide .upper ((Array.size_setIfInBounds ..).trans (h.sides .upper))).setSide .lower
        ((Array.size_setIfInBounds ..).trans (h.sides .lower))
  split at htransform
  · simp only [bind_eq_ok, pure_eq_ok, store_eq_ok] at htransform
    obtain ⟨_, ⟨-, rfl⟩, _, ⟨-, rfl⟩, rfl⟩ := htransform
    exact hset _ _
  · simp only [bind_eq_ok, pure_eq_ok, store_eq_ok] at htransform
    obtain ⟨_, ⟨-, rfl⟩, _, ⟨-, rfl⟩, rfl⟩ := htransform
    exact hset _ _

omit [Scalar α] in
theorem Sized.substitute (h : t.Sized columnCount) {c : ColumnId}
    (hsubstitute : (VariableBounds.substitute c).finish t = .ok ((), t')) :
    t'.Sized columnCount := by
  rw [Action.finish_eq_ok] at hsubstitute
  simp only [VariableBounds.substitute, Action.perform_bind_eq_ok, Action.perform_get,
    Action.perform_lift, Action.perform_set, Action.perform_change_eq_ok,
    Action.perform_forM_change_eq_ok, Prod.mk.injEq, Except.ok.injEq, true_and, bind_eq_ok,
    pure_eq_ok, fetch_eq_ok, store_eq_ok] at hsubstitute
  obtain ⟨_, _, ⟨rfl, rfl⟩, bounded, _, ⟨-, rfl⟩, _, emptied, ⟨_, ⟨-, rfl⟩, rfl⟩, _, t₁, hwithout,
    _, _, ⟨rfl, rfl⟩, upper, _, ⟨-, rfl⟩, lower, _, ⟨-, rfl⟩, _, _, ⟨⟨-, rfl⟩, rfl⟩, _, _,
    ⟨⟨-, rfl⟩, rfl⟩, -, _, rfl, hbinaries⟩ := hsubstitute
  have hempty : { t with boundedBy := t.boundedBy.setIfInBounds c [] }.Sized columnCount :=
    h.setBounded fun x hx => absurd hx List.not_mem_nil
  have h₁ : t₁.Sized columnCount := by
    refine foldlM_keeps (fun u x u' _ hu hstep => ?_) hwithout hempty
    simp only [withoutBinary, bind_eq_ok, pure_eq_ok, update_eq_ok] at hstep
    obtain ⟨_, ⟨_, _, -, -, rfl⟩, _, ⟨_, _, -, -, rfl⟩, rfl⟩ := hstep
    exact (hu.setSide .upper ((Array.size_setIfInBounds ..).trans (hu.sides .upper))).setSide .lower
      ((Array.size_setIfInBounds ..).trans (hu.sides .lower))
  have h₂ : ((t₁.setSide .upper (t₁.upper.setIfInBounds c [])).setSide .lower
      (t₁.lower.setIfInBounds c [])).Sized columnCount :=
    (h₁.setSide .upper ((Array.size_setIfInBounds ..).trans (h₁.sides .upper))).setSide .lower
      ((Array.size_setIfInBounds ..).trans (h₁.sides .lower))
  refine foldlM_keeps (fun u y u' _ hu hstep => ?_) hbinaries h₂
  simp only [withoutBounded, bind_eq_ok, pure_eq_ok, update_eq_ok] at hstep
  obtain ⟨_, ⟨found, _, hfound, hnew, rfl⟩, rfl⟩ := hstep
  cases hnew
  exact hu.setBounded fun x hx => hu.bounded y found hfound x (List.mem_of_mem_filter hx)

theorem Made.sized (h : Made columnCount t) : t.Sized columnCount := by
  induction h with
  | empty => exact sized_empty
  | record _ hrecord ih => exact ih.record hrecord
  | transform _ htransform ih => exact ih.transform htransform
  | substitute _ hsubstitute ih => exact ih.substitute hsubstitute

/-- A change that follows from the value of a binary column: a line of the table at that value. -/
def Implies (t : VariableBounds α) (y : ColumnId) (value : Bool) (change : BoundChange α) : Prop :=
  ∃ lines bound, (t.onSide change.side)[change.column]? = some lines ∧
    (y, bound) ∈ lines ∧ change.value = bound.evaluate value

theorem mem_changesOver {side : Side} {x y : ColumnId} {value : Bool}
    {lines : List (ColumnId × VariableBound α)} {change : BoundChange α}
    (hlines : (t.onSide side)[x]? = some lines) (h : change ∈ changesOver side x y value lines) :
    t.Implies y value change := by
  obtain ⟨⟨y', bound⟩, hmem, rfl⟩ := List.mem_map.mp h
  obtain ⟨hline, hy⟩ := List.mem_filter.mp hmem
  obtain rfl : y' = y := by simpa using hy
  exact ⟨lines, bound, hlines, hline, rfl⟩

/-- The bounds which follow from the value of a binary column can be looked up. -/
theorem Sized.impliedBy_returns (h : t.Sized columnCount) {y : ColumnId} (hy : y < columnCount)
    (value : Bool) :
    Returns (t.impliedBy y value) fun changes => ∀ change ∈ changes, t.Implies y value change := by
  unfold impliedBy
  refine (fetch_returns (h.binaries ▸ hy)).bind fun found _ hfound => ?_
  refine (mapM_returns (Q := fun changes => ∀ change ∈ changes, t.Implies y value change)
    fun x hx => ?_).bind fun lists _ hlists => .pure fun change hchange => ?_
  · have hlt := h.bounded y found hfound x hx
    have hupper := h.sides .upper
    have hlower := h.sides .lower
    refine (fetch_returns (hupper ▸ hlt)).bind fun upper _ hupper => ?_
    refine (fetch_returns (hlower ▸ hlt)).bind fun lower _ hlower => ?_
    refine .pure fun change hchange => ?_
    rcases List.mem_append.mp hchange with hchange | hchange
    · exact mem_changesOver hupper hchange
    · exact mem_changesOver hlower hchange
  · obtain ⟨list, hlist, hchange⟩ := List.mem_flatten.mp hchange
    exact hlists list hlist change hchange

end VariableBounds

/-! ### What the operations do

A table of variable bounds is seen through two views: the bounds that a column has on a side, and
the columns that are listed under a binary column. Recording, restating and removing bounds are
described by what they do to these views; in a table that has lists for the columns they all
return. -/

namespace VariableBounds

variable {α : Type}

/-- The bounds of a column on a side, with the binary columns which they are over. -/
def lines (t : VariableBounds α) (side : Side) (x : ColumnId) : List (ColumnId × VariableBound α) :=
  ((t.onSide side)[x]?).getD []

/-- The columns which are listed under a binary column. -/
def under (t : VariableBounds α) (y : ColumnId) : List ColumnId := (t.boundedBy[y]?).getD []

/-- The binary columns which a column has bounds over. -/
def binaries (t : VariableBounds α) (x : ColumnId) : List ColumnId :=
  (t.lines .upper x ++ t.lines .lower x).map Prod.fst

theorem mem_map_fst {list : List (ColumnId × VariableBound α)} {y : ColumnId} :
    y ∈ list.map Prod.fst ↔ ∃ bound, (y, bound) ∈ list := by
  simp

theorem mem_binaries {t : VariableBounds α} {x y : ColumnId} :
    y ∈ t.binaries x ↔ ∃ side, y ∈ (t.lines side x).map Prod.fst := by
  rw [binaries, List.map_append, List.mem_append]
  constructor
  · rintro (hupper | hlower)
    · exact ⟨.upper, hupper⟩
    · exact ⟨.lower, hlower⟩
  · rintro ⟨side, hside⟩
    cases side with
    | upper => exact .inl hside
    | lower => exact .inr hside

/-- Another list in the place of one. -/
theorem getD_setIfInBounds {β : Type} {entries : Array (List β)} {i : Nat} (hi : i < entries.size)
    (xs : List β) (j : Nat) :
    ((entries.setIfInBounds i xs)[j]?).getD [] = if j = i then xs else (entries[j]?).getD [] := by
  rw [Array.getElem?_setIfInBounds]
  by_cases hji : j = i
  · rw [if_pos hji, if_pos hji.symm, if_pos hi]
    rfl
  · rw [if_neg hji, if_neg fun hij => hji hij.symm]

theorem lines_setSide (t : VariableBounds α) (side : Side)
    (lists : Array (List (ColumnId × VariableBound α))) (side' : Side) (x : ColumnId) :
    (t.setSide side lists).lines side' x =
      if side' = side then (lists[x]?).getD [] else t.lines side' x := by
  cases side <;> cases side' <;> rfl

@[simp] theorem over_setSide (t : VariableBounds α) (side : Side)
    (lists : Array (List (ColumnId × VariableBound α))) (y : ColumnId) :
    (t.setSide side lists).under y = t.under y := by
  cases side <;> rfl

variable [Scalar α] {n : Nat} {t : VariableBounds α}

omit [Scalar α] in
theorem Sized.getElem?_side (h : t.Sized n) (side : Side) {x : ColumnId} (hx : x < n) :
    (t.onSide side)[x]? = some (t.lines side x) := by
  have hlt : x < (t.onSide side).size := h.sides side ▸ hx
  rw [lines, Array.getElem?_eq_getElem hlt]
  rfl

omit [Scalar α] in
theorem Sized.getElem?_boundedBy (h : t.Sized n) {y : ColumnId} (hy : y < n) :
    t.boundedBy[y]? = some (t.under y) := by
  have hlt : y < t.boundedBy.size := h.binaries ▸ hy
  rw [under, Array.getElem?_eq_getElem hlt]
  rfl

omit [Scalar α] in
/-- Nothing is listed under what is not a column. -/
theorem Sized.lt_of_mem_under (h : t.Sized n) {x y : ColumnId} (hx : x ∈ t.under y) : y < n := by
  by_contra hge
  rw [under, Array.getElem?_eq_none (h.binaries ▸ Nat.le_of_not_lt hge)] at hx
  cases hx

omit [Scalar α] in
/-- Listing a column under a binary one appends it there if it was not listed. -/
theorem Sized.listUnder_returns (h : t.Sized n) {y : ColumnId} (hy : y < n) (x : ColumnId) :
    Returns (t.listUnder y x) fun t' => (∀ side x', t'.lines side x' = t.lines side x') ∧
      ∀ y', t'.under y' = if y' = y ∧ x ∉ t.under y then t.under y ++ [x] else t.under y' := by
  have hlt : y < t.boundedBy.size := h.binaries ▸ hy
  let columns := if (t.under y).contains x then t.under y else t.under y ++ [x]
  refine ⟨{ t with boundedBy := t.boundedBy.setIfInBounds y columns }, ?_, fun side x' => ?_,
    fun y' => ?_⟩
  · exact bind_eq_ok.mpr ⟨_, update_eq_ok.mpr ⟨_, columns, h.getElem?_boundedBy hy, rfl, rfl⟩, rfl⟩
  · cases side <;> rfl
  · refine (getD_setIfInBounds hlt columns y').trans ?_
    change (if y' = y then columns else t.under y') = _
    by_cases hlisted : x ∈ t.under y
    · by_cases hy' : y' = y <;> simp [columns, hlisted, hy']
    · simp [columns, hlisted]

omit [Scalar α] in
/-- Other bounds of a column on both sides. -/
theorem Sized.lines_setBoth (h : t.Sized n) {c : ColumnId} (hc : c < n)
    (lists : Side → List (ColumnId × VariableBound α)) (side : Side) (x : ColumnId) :
    ({ t with
      upper := t.upper.setIfInBounds c (lists .upper)
      lower := t.lower.setIfInBounds c (lists .lower) } : VariableBounds α).lines side x =
      if x = c then lists side else t.lines side x := by
  have hlt : c < (t.onSide side).size := h.sides side ▸ hc
  cases side <;> exact getD_setIfInBounds hlt _ x

/-- Recording a bound merges it into the bounds of the column, which is then listed under the binary
column if it was not. -/
theorem Sized.record_returns (h : t.Sized n) (side : Side) {x y : ColumnId} (hx : x < n)
    (hy : y < n)
    (bound : VariableBound α) :
    Returns ((VariableBounds.record side x y bound).finish t) fun r =>
      r.1 = (mergeInto side y bound (t.lines side x)).1 ∧
      (∀ side' x', r.2.lines side' x' = if side' = side ∧ x' = x then
        (mergeInto side y bound (t.lines side x)).2 else t.lines side' x') ∧
      ∀ y', r.2.under y' = if y' = y ∧ r.1 = true ∧ x ∉ t.under y then t.under y ++ [x]
        else t.under y' := by
  have hlist := fetch_eq_ok.mpr (h.getElem?_side side hx)
  have hlt : x < (t.onSide side).size := h.sides side ▸ hx
  let merged := mergeInto side y bound (t.lines side x)
  let u := t.setSide side ((t.onSide side).setIfInBounds x merged.2)
  have hstore : store (t.onSide side) x merged.2 =
      .ok ((t.onSide side).setIfInBounds x merged.2) := store_eq_ok.mpr ⟨hlt, rfl⟩
  have hsized : u.Sized n := h.setSide side ((Array.size_setIfInBounds ..).trans (h.sides side))
  have hlines : ∀ side' x', u.lines side' x' =
      if side' = side ∧ x' = x then merged.2 else t.lines side' x' := by
    intro side' x'
    rw [lines_setSide, getD_setIfInBounds hlt]
    by_cases hside : side' = side
    · subst hside
      simp [lines]
    · simp [hside]
  have hstored : ∀ r, (if merged.1 then do Action.change fun t => t.listUnder y x; return merged.1
      else return merged.1 : Action (VariableBounds α) Bool).perform u = (.ok r.1, r.2) →
      (VariableBounds.record side x y bound).finish t = .ok r := by
    intro r hr
    refine Action.finish_eq_ok.mpr ?_
    simp only [VariableBounds.record, Action.perform_bind_eq_ok, Action.perform_get,
      Action.perform_lift, Action.perform_set, Prod.mk.injEq, Except.ok.injEq, true_and]
    exact ⟨_, _, ⟨rfl, rfl⟩, _, _, ⟨hlist, rfl⟩, _, _, ⟨hstore, rfl⟩, (), _, rfl, hr⟩
  cases hchanged : merged.1 with
  | false =>
      rw [hchanged] at hstored
      exact ⟨(false, u), hstored _ rfl, rfl, hlines, fun y' => by simp [u]⟩
  | true =>
      rw [hchanged] at hstored
      obtain ⟨t', hunder, hsame, hlistings⟩ := hsized.listUnder_returns hy x
      refine ⟨(true, t'), hstored _ ?_, rfl, fun side' x' => ?_, fun y' => ?_⟩
      · exact Action.perform_bind_eq_ok.mpr ⟨(), t', Action.perform_change_eq_ok.mpr hunder, rfl⟩
      · rw [hsame, hlines]
      · rw [hlistings]
        simp [u]

/-- The line in terms of a column that was replaced by `scale * column + constant`. -/
def restated (scale constant : α) (b : VariableBound α) : VariableBound α :=
  ⟨b.coefficient / scale, (b.constant - constant) / scale⟩

/-- Restating the bounds of a column keeps the binary columns that they are over. -/
theorem Sized.transform_returns (h : t.Sized n) {c : ColumnId} (hc : c < n) (scale constant : α) :
    Returns (t.transform c scale constant) fun t' =>
      (∀ side x, t'.lines side x = if x = c then
        (t.lines (if scale < 0 then side.opposite else side) c).map
          fun line => (line.1, restated scale constant line.2)
        else t.lines side x) ∧
      ∀ y, t'.under y = t.under y := by
  have hupper : fetch t.upper c = .ok (t.lines .upper c) :=
    fetch_eq_ok.mpr (h.getElem?_side .upper hc)
  have hlower : fetch t.lower c = .ok (t.lines .lower c) :=
    fetch_eq_ok.mpr (h.getElem?_side .lower hc)
  have hstoreUpper (list) : store t.upper c list = .ok (t.upper.setIfInBounds c list) :=
    store_eq_ok.mpr ⟨(h.sides .upper).symm ▸ hc, rfl⟩
  have hstoreLower (list) : store t.lower c list = .ok (t.lower.setIfInBounds c list) :=
    store_eq_ok.mpr ⟨(h.sides .lower).symm ▸ hc, rfl⟩
  let lists (side : Side) : List (ColumnId × VariableBound α) :=
    (t.lines (if scale < 0 then side.opposite else side) c).map
      fun line => (line.1, restated scale constant line.2)
  refine ⟨{ t with
    upper := t.upper.setIfInBounds c (lists .upper)
    lower := t.lower.setIfInBounds c (lists .lower) }, ?_, h.lines_setBoth hc lists, fun y => rfl⟩
  simp only [VariableBounds.transform, hupper, hlower, ok_bind, lists]
  split
  · rw [hstoreUpper, ok_bind, hstoreLower, ok_bind]
    rfl
  · rw [hstoreUpper, ok_bind, hstoreLower, ok_bind]
    rfl

omit [Scalar α] in
/-- Removing the bounds over a binary column from the lists of some columns. -/
theorem Sized.withoutBinary_returns (h : t.Sized n) (c : ColumnId) {xs : List ColumnId}
    (hxs : ∀ x ∈ xs, x < n) :
    Returns (xs.foldlM (fun t x => t.withoutBinary c x) t) fun t' => t'.Sized n ∧
      (∀ side x, t'.lines side x =
        if x ∈ xs then (t.lines side x).filter (·.1 != c) else t.lines side x) ∧
      ∀ y, t'.under y = t.under y := by
  induction xs generalizing t with
  | nil => exact .pure ⟨h, fun _ _ => by simp, fun _ => rfl⟩
  | cons first rest ih =>
      have hfirst := hxs first (List.mem_cons_self ..)
      let lists (side : Side) := (t.lines side first).filter (·.1 != c)
      let u : VariableBounds α := { t with
        upper := t.upper.setIfInBounds first (lists .upper)
        lower := t.lower.setIfInBounds first (lists .lower) }
      have hu : t.withoutBinary c first = .ok u := by
        refine bind_eq_ok.mpr
          ⟨_, update_eq_ok.mpr ⟨_, _, h.getElem?_side .upper hfirst, rfl, rfl⟩, ?_⟩
        exact bind_eq_ok.mpr
          ⟨_, update_eq_ok.mpr ⟨_, _, h.getElem?_side .lower hfirst, rfl, rfl⟩, rfl⟩
      have hsized : u.Sized n :=
        (h.setSide .upper ((Array.size_setIfInBounds ..).trans (h.sides .upper))).setSide .lower
          ((Array.size_setIfInBounds ..).trans (h.sides .lower))
      have hlines := h.lines_setBoth hfirst lists
      rw [List.foldlM_cons, hu, ok_bind]
      refine (ih hsized fun x hx => hxs x (List.mem_cons_of_mem _ hx)).mono ?_
      rintro t' - ⟨ht', hlines', hlistings⟩
      refine ⟨ht', fun side x => ?_, hlistings⟩
      rw [hlines', hlines]
      by_cases hx : x = first
      · subst hx
        simp [lists, List.filter_filter]
      · simp [hx]

omit [Scalar α] in
/-- Removing a column from those which some binary columns bound. -/
theorem Sized.withoutBounded_returns (h : t.Sized n) (c : ColumnId) {ys : List ColumnId}
    (hys : ∀ y ∈ ys, y < n) :
    Returns (ys.foldlM (fun t y => t.withoutBounded c y) t) fun t' =>
      (∀ side x, t'.lines side x = t.lines side x) ∧
      ∀ y, t'.under y = if y ∈ ys then (t.under y).filter (· != c) else t.under y := by
  induction ys generalizing t with
  | nil => exact .pure ⟨fun _ _ => rfl, fun _ => by simp⟩
  | cons first rest ih =>
      have hfirst := hys first (List.mem_cons_self ..)
      have hlt : first < t.boundedBy.size := h.binaries ▸ hfirst
      let columns := (t.under first).filter (· != c)
      let u : VariableBounds α := { t with boundedBy := t.boundedBy.setIfInBounds first columns }
      have hu : t.withoutBounded c first = .ok u :=
        bind_eq_ok.mpr ⟨_, update_eq_ok.mpr ⟨_, _, h.getElem?_boundedBy hfirst, rfl, rfl⟩, rfl⟩
      have hsized : u.Sized n := h.setBounded fun x hx =>
        h.bounded first _ (h.getElem?_boundedBy hfirst) x (List.mem_of_mem_filter hx)
      have hlistings : ∀ y, u.under y = if y = first then columns else t.under y :=
        getD_setIfInBounds hlt columns
      rw [List.foldlM_cons, hu, ok_bind]
      refine (ih hsized fun y hy => hys y (List.mem_cons_of_mem _ hy)).mono ?_
      rintro t' - ⟨hlines, hlistings'⟩
      refine ⟨fun side x => (hlines side x).trans (by cases side <;> rfl), fun y => ?_⟩
      rw [hlistings', hlistings]
      by_cases hy : y = first
      · subst hy
        simp [columns, List.filter_filter]
      · simp [hy]

omit [Scalar α] in
/-- Substituting a column removes the bounds over it from the columns that are listed under it, its
own bounds, and its entries under the binary columns which these were over. -/
theorem Sized.substitute_returns (h : t.Sized n) {c : ColumnId} (hc : c < n)
    (hbinaries : ∀ y ∈ t.binaries c, y < n) :
    Returns ((VariableBounds.substitute c).finish t) fun r =>
      (∀ side x, r.2.lines side x = if x = c then [] else
        if x ∈ t.under c then (t.lines side x).filter (·.1 != c) else t.lines side x) ∧
      ∀ y, r.2.under y = if y = c then [] else
        if y ∈ t.binaries c then (t.under y).filter (· != c) else t.under y := by
  have hbounded : fetch t.boundedBy c = .ok (t.under c) := fetch_eq_ok.mpr (h.getElem?_boundedBy hc)
  have hltBounded : c < t.boundedBy.size := h.binaries ▸ hc
  let unlisted : VariableBounds α := { t with boundedBy := t.boundedBy.setIfInBounds c [] }
  have hunlisted : unlisted.Sized n := h.setBounded fun x hx => absurd hx List.not_mem_nil
  have hunlistedLines : ∀ side x, unlisted.lines side x = t.lines side x := fun side x => by
    cases side <;> rfl
  have hunlistedUnder : ∀ y, unlisted.under y = if y = c then [] else t.under y :=
    getD_setIfInBounds hltBounded []
  obtain ⟨u, hrun, hu, hulines, huover⟩ := hunlisted.withoutBinary_returns c
    fun x hx => h.bounded c _ (h.getElem?_boundedBy hc) x hx
  have hupper : fetch u.upper c = .ok (u.lines .upper c) :=
    fetch_eq_ok.mpr (hu.getElem?_side .upper hc)
  have hlower : fetch u.lower c = .ok (u.lines .lower c) :=
    fetch_eq_ok.mpr (hu.getElem?_side .lower hc)
  let emptied : VariableBounds α := { u with
    upper := u.upper.setIfInBounds c []
    lower := u.lower.setIfInBounds c [] }
  have hemptied : emptied.Sized n :=
    (hu.setSide .upper ((Array.size_setIfInBounds ..).trans (hu.sides .upper))).setSide .lower
      ((Array.size_setIfInBounds ..).trans (hu.sides .lower))
  have hemptiedLines := hu.lines_setBoth hc fun _ => []
  have hubinaries : ∀ y ∈ u.binaries c, y ∈ t.binaries c := by
    intro y hy
    obtain ⟨side, hside⟩ := mem_binaries.mp hy
    rw [hulines, hunlistedLines] at hside
    refine mem_binaries.mpr ⟨side, ?_⟩
    split at hside
    · exact (List.filter_sublist.map Prod.fst).subset hside
    · exact hside
  obtain ⟨t', hrun', hlines', hlistings'⟩ := hemptied.withoutBounded_returns c
    fun y hy => hbinaries y (hubinaries y hy)
  refine ⟨((), t'), Action.finish_eq_ok.mpr ?_, fun side x => ?_, fun y => ?_⟩
  · simp only [VariableBounds.substitute, Action.perform_bind_eq_ok, Action.perform_get,
      Action.perform_lift, Action.perform_set, Action.perform_change_eq_ok,
      Action.perform_forM_change_eq_ok, Prod.mk.injEq, Except.ok.injEq, true_and, bind_eq_ok,
      pure_eq_ok, store_eq_ok]
    exact ⟨_, _, ⟨rfl, rfl⟩, _, _, ⟨hbounded, rfl⟩, (), unlisted,
      ⟨_, ⟨hltBounded, rfl⟩, rfl⟩, (), u,
      hrun, _, _, ⟨rfl, rfl⟩, _, _, ⟨hupper, rfl⟩, _, _, ⟨hlower, rfl⟩, _, _,
      ⟨⟨(hu.sides .upper).symm ▸ hc, rfl⟩, rfl⟩, _, _,
      ⟨⟨(hu.sides .lower).symm ▸ hc, rfl⟩, rfl⟩, (), _,
      rfl, hrun'⟩
  · rw [hlines', hemptiedLines, hulines, hunlistedLines]
  · have hemptiedUnder : emptied.under y = if y = c then [] else t.under y :=
      (huover y).trans (hunlistedUnder y)
    rw [hlistings', hemptiedUnder]
    by_cases hy : y = c
    · simp [hy]
    · have hkept : y ∈ u.binaries c ↔ y ∈ t.binaries c := by
        refine ⟨hubinaries y, fun hmem => ?_⟩
        obtain ⟨side, hside⟩ := mem_binaries.mp hmem
        refine mem_binaries.mpr ⟨side, ?_⟩
        rw [hulines, hunlistedLines]
        split
        · obtain ⟨bound, hline⟩ := mem_map_fst.mp hside
          exact mem_map_fst.mpr ⟨bound, List.mem_filter.mpr ⟨hline, bne_iff_ne.mpr hy⟩⟩
        · exact hside
      change (if y ∈ u.binaries c then _ else _) = _
      rw [if_congr hkept rfl rfl, if_neg hy, if_neg hy]

end VariableBounds

end BranchBound
