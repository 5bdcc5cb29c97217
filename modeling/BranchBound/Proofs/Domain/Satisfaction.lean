import BranchBound.Proofs.Clique.Table
import BranchBound.Proofs.Domain.Cutoff
import BranchBound.Proofs.Domain.Implied
import BranchBound.Proofs.Domain.SettledRuns
import BranchBound.Proofs.VariableBound.Table

/-!
# Points that satisfy constraints

What every kind of constraint says of a point: a row, a cut, a conflict, a table of cliques, a table
of variable bounds, and the objective with its partitions. A domain admits the points of its box
which satisfy all that it compares with the box, and it allows those among them that satisfy the
tables as well.
-/

namespace BranchBound

open Checked Exact

variable {x : Point}

/-- A point satisfies an inequality. -/
def Inequality.HoldsAt (i : Inequality Exact) (x : Point) : Prop :=
  number (dot (i.entries : List (ColumnId × Exact)) x) ≤ i.rhs

/-- A point satisfies both sides of a row. -/
def Row.HoldsAt (row : Row Exact) (x : Point) : Prop :=
  row.lower ≤ number (dot (row.entries : List (ColumnId × Exact)) x) ∧
    number (dot (row.entries : List (ColumnId × Exact)) x) ≤ row.upper

/-- A literal of a binary column is true at a point. -/
def BinaryLiteral.HoldsAt (l : BinaryLiteral) (x : Point) : Prop :=
  x l.column = if l.value then 1 else 0

/-- At most one literal of every clique is true at a point. -/
def CliqueTable.HoldsAt (t : CliqueTable) (x : Point) : Prop :=
  ∀ clique ∈ t.cliques, ∀ l ∈ clique, ∀ l' ∈ clique, l.HoldsAt x → l'.HoldsAt x → l = l'

/-- A point satisfies every line of a table at the value of the binary column. -/
def VariableBounds.HoldsAt (t : VariableBounds Exact) (x : Point) : Prop :=
  ∀ y value change, t.Implies y value change → BinaryLiteral.HoldsAt ⟨y, value⟩ x → change.HoldsAt x

/-- Some literal of a conflict does not hold at a point. -/
def ConflictHoldsAt (literals : List (BoundChange Exact)) (x : Point) : Prop :=
  ∃ l ∈ literals, ¬l.HoldsAt x

/-- The objective value of a point is not above the cutoff, and at most one column of every
partition is one. -/
structure ObjectivePropagation.HoldsAt (o : ObjectivePropagation Exact) (x : Point) : Prop where
  chooses : o.Chooses x
  cutoff : number (dot (o.entries : List (ColumnId × Exact)) x) ≤ o.cutoff

/-! ### Checking a point -/

instance (change : BoundChange Exact) : Decidable (change.HoldsAt x) := by
  unfold BoundChange.HoldsAt
  split <;> infer_instance

instance (i : Inequality Exact) : Decidable (i.HoldsAt x) :=
  inferInstanceAs (Decidable (_ ≤ _))

instance (row : Row Exact) : Decidable (row.HoldsAt x) :=
  inferInstanceAs (Decidable (_ ∧ _))

instance (l : BinaryLiteral) : Decidable (l.HoldsAt x) :=
  inferInstanceAs (Decidable (_ = _))

instance (t : CliqueTable) : Decidable (t.HoldsAt x) :=
  inferInstanceAs (Decidable (∀ clique ∈ t.cliques, ∀ l ∈ clique, ∀ l' ∈ clique, _ → _ → _))

instance (literals : List (BoundChange Exact)) : Decidable (ConflictHoldsAt literals x) :=
  inferInstanceAs (Decidable (∃ l ∈ literals, ¬l.HoldsAt x))

/-- Setting a binary column to the value of a true literal holds. -/
theorem BinaryLiteral.HoldsAt.fixing {l : BinaryLiteral} (h : l.HoldsAt x) :
    (BoundChange.fixing l.column l.value : BoundChange Exact).HoldsAt x := by
  obtain ⟨c, value⟩ := l
  cases value with
  | false =>
      have hzero : x c = 0 := h
      change number (x c : ℚ) ≤ 0
      simp [hzero]
  | true =>
      have hone : x c = 1 := h
      change 1 ≤ number (x c : ℚ)
      simp [hone]

/-- Of the two literals of a column with the value zero or one, one is true. -/
theorem BinaryLiteral.holdsAt_complement {l : BinaryLiteral} (hbinary : x l.column = 0 ∨
    x l.column = 1)
    (h : ¬l.HoldsAt x) : l.complement.HoldsAt x := by
  obtain ⟨c, value⟩ := l
  cases value with
  | false => exact hbinary.resolve_left h
  | true => exact hbinary.resolve_right h

/-- The literals of a conflict are over the first columns and have whole values. -/
def WholeLiterals (columnCount : Nat) (literals : List (BoundChange Exact)) : Prop :=
  ∀ l ∈ literals, l.column < columnCount ∧ ∃ k : ℤ, l.value = number k

/-- The bound of a literal is a whole number or at most one half looser. It says the same of whole
values as the whole number does, and so does its negation. -/
def BoundChange.RoundsTo (l : BoundChange Exact) (k : ℤ) : Prop :=
  ∃ q : ℚ, l.value = number q ∧ match l.side with
    | .lower => q ≤ k ∧ (k : ℚ) ≤ q + 1 / 2
    | .upper => (k : ℚ) ≤ q ∧ q ≤ k + 1 / 2

/-- The literals of a conflict are over the first columns and can be negated. -/
def NegatableLiterals (columnCount : Nat) (literals : List (BoundChange Exact)) : Prop :=
  ∀ l ∈ literals, l.column < columnCount ∧ ∃ k : ℤ, l.RoundsTo k

theorem BoundChange.roundsTo_of_whole {l : BoundChange Exact} {k : ℤ} (h : l.value = number k) :
    l.RoundsTo k := by
  refine ⟨k, h, ?_⟩
  split <;> constructor <;> linarith

theorem BoundChange.RoundsTo.not_nan {l : BoundChange Exact} {k : ℤ} (h : l.RoundsTo k) :
    l.value ≠ nan := by
  obtain ⟨q, hvalue, -⟩ := h
  simp [hvalue]

theorem WholeLiterals.negatable {columnCount : Nat} {literals : List (BoundChange Exact)}
    (h : WholeLiterals columnCount literals) : NegatableLiterals columnCount literals := by
  intro l hl
  obtain ⟨hcolumn, k, hk⟩ := h l hl
  exact ⟨hcolumn, k, BoundChange.roundsTo_of_whole hk⟩

namespace Domain

/-- A cut that a domain knows of an attached pool. -/
def cut? (d : Domain Exact) (index : Nat) (id : CutId) : Option (Inequality Exact) :=
  d.cutPropagations[index]?.bind fun p => (p.known id).map Prod.fst

/-- A conflict that a domain knows of an attached pool. -/
def conflict? (d : Domain Exact) (index : Nat) (id : ConflictId) :
    Option (List (BoundChange Exact)) :=
  d.conflictPropagations[index]?.bind fun p => p.known id

/-- What the objective demands of a point. -/
def demand (d : Domain Exact) : Option (Exact × Array Exact × Array (Option Nat)) :=
  d.objective.map fun o => (o.cutoff, o.costs, o.partitionOf)

/-- The points of the box of a domain which satisfy the constraints that can be found violated: the
rows of the model, the cuts and conflicts that are known, and the objective. -/
structure Admits (d : Domain Exact) (x : Point) : Prop where
  box : d.values.Contains d.model.columns.size x
  rows : ∀ (r : RowId) row, d.model.rows[r]? = some row → row.HoldsAt x
  cuts : ∀ index id cut, d.cut? index id = some cut → cut.HoldsAt x
  conflicts : ∀ index id literals, d.conflict? index id = some literals → ConflictHoldsAt literals x
  objective : ∀ o, d.objective = some o → o.HoldsAt x

/-- The points which satisfy everything that a domain knows. -/
structure Allows (d : Domain Exact) (x : Point) : Prop extends d.Admits x where
  cliques : ∀ t, d.cliques = some t → t.HoldsAt x
  variableBounds : ∀ t, d.variableBounds = some t → t.HoldsAt x

/-- What a domain knows besides its box, the rows and the cuts is well formed. Some columns of the
partitions of the objective may have been fixed to one when it was set up. -/
structure WellMade (pinned : ColumnId → Prop) (d : Domain Exact) : Prop where
  placed : ∀ o, d.objective = some o → o.Placed pinned d.model d.values
  cliques : ∀ t, d.cliques = some t → t.Made d.model.columns.size d.model.Binary
  variableBounds : ∀ t, d.variableBounds = some t → t.Made d.model.columns.size
  conflicts : ∀ index id literals, d.conflict? index id = some literals →
    NegatableLiterals d.model.columns.size literals

end Domain

/-! ### Checking a point -/

theorem forall_getElem?_iff {β : Type} {xs : Array β} {P : β → Prop} :
    (∀ (i : Nat) b, xs[i]? = some b → P b) ↔ ∀ b ∈ xs, P b := by
  simp only [Array.mem_iff_getElem?, forall_exists_index]
  exact forall_comm

theorem Slots.forall_get?_iff {β : Type} {s : Slots β} {P : β → Prop} :
    (∀ key b, s.get? key = some b → P b) ↔ ∀ entry ∈ s.entries, ∀ b ∈ entry, P b := by
  constructor
  · intro h entry hentry b hb
    obtain ⟨key, hkey⟩ := Array.mem_iff_getElem?.mp hentry
    exact h key b (Option.join_eq_some_iff.mpr (hkey.trans (congrArg some hb)))
  · exact fun h key b hget =>
      h (some b) (Array.mem_of_getElem? (Option.join_eq_some_iff.mp hget)) b rfl

theorem ObjectivePropagation.chooses_iff {o : ObjectivePropagation Exact} :
    o.Chooses x ↔ ∀ c < o.partitionOf.size, ∀ c' < o.partitionOf.size,
      o.partitionOf[c]?.join.isSome = true ∧ o.partitionOf[c]? = o.partitionOf[c']? ∧
        x c = 1 ∧ x c' = 1 → c = c' := by
  constructor
  · rintro h c - c' - ⟨hmember, hsame, hc, hc'⟩
    obtain ⟨i, hi⟩ := Option.isSome_iff_exists.mp hmember
    have hi := Option.join_eq_some_iff.mp hi
    exact h i c c' hi (hsame ▸ hi) hc hc'
  · intro h i c c' hi hi' hc hc'
    refine h c (Array.getElem?_eq_some_iff.mp hi).1 c' (Array.getElem?_eq_some_iff.mp hi').1
      ⟨?_, hi.trans hi'.symm, hc, hc'⟩
    rw [hi]
    rfl

instance (o : ObjectivePropagation Exact) : Decidable (o.HoldsAt x) :=
  have : Decidable (o.Chooses x) := decidable_of_iff _ ObjectivePropagation.chooses_iff.symm
  decidable_of_iff (o.Chooses x ∧ number (dot (o.entries : List (ColumnId × Exact)) x) ≤ o.cutoff)
    ⟨fun h => ⟨h.1, h.2⟩, fun h => ⟨h.1, h.2⟩⟩

/-- The lines of a list hold at a point at the values of the binary columns. -/
def LinesHoldAt (side : Side) (c : ColumnId) (lines : List (ColumnId × VariableBound Exact))
    (x : Point) : Prop :=
  ∀ line ∈ lines, ∀ value : Bool, BinaryLiteral.HoldsAt ⟨line.1, value⟩ x →
    (⟨c, side, line.2.evaluate value⟩ : BoundChange Exact).HoldsAt x

instance (side : Side) (c : ColumnId) (lines : List (ColumnId × VariableBound Exact)) :
    Decidable (LinesHoldAt side c lines x) :=
  inferInstanceAs (Decidable (∀ line ∈ lines, ∀ _ : Bool, _ → _))

theorem VariableBounds.holdsAt_iff {t : VariableBounds Exact} :
    t.HoldsAt x ↔ ∀ side ∈ [Side.lower, .upper], ∀ c < (t.onSide side).size,
      ∀ lines ∈ (t.onSide side)[c]?, LinesHoldAt side c lines x := by
  constructor
  · exact fun h side _ c _ lines hlines line hline value hvalue =>
      h line.1 value ⟨c, side, _⟩ ⟨lines, line.2, hlines, hline, rfl⟩ hvalue
  · rintro h y value ⟨c, side, _⟩ ⟨lines, bound, hlines, hmem, rfl⟩ hvalue
    exact h side (by cases side <;> simp) c (Array.getElem?_eq_some_iff.mp hlines).1 lines hlines
      (y, bound) hmem value hvalue

instance (t : VariableBounds Exact) : Decidable (t.HoldsAt x) :=
  decidable_of_iff _ VariableBounds.holdsAt_iff.symm

namespace Domain

variable {d : Domain Exact}

theorem forall_cut?_iff {P : Inequality Exact → Prop} :
    (∀ index id cut, d.cut? index id = some cut → P cut) ↔
      ∀ p ∈ d.cutPropagations, ∀ entry ∈ p.cuts.entries, ∀ known ∈ entry, P known.cut := by
  rw [← forall_getElem?_iff]
  simp only [← Slots.forall_get?_iff (P := fun known : PropagatedCut Exact => P known.cut)]
  constructor
  · intro h i p hp id known hknown
    exact h i id known.cut (by simp [cut?, hp, CutPropagation.known, hknown])
  · intro h i id cut hcut
    obtain ⟨p, hp, hcut⟩ := Option.bind_eq_some_iff.mp hcut
    obtain ⟨pair, hpair, rfl⟩ := Option.map_eq_some_iff.mp hcut
    obtain ⟨known, hknown, rfl⟩ := Option.map_eq_some_iff.mp hpair
    exact h i p hp id known hknown

theorem forall_conflict?_iff {P : List (BoundChange Exact) → Prop} :
    (∀ index id literals, d.conflict? index id = some literals → P literals) ↔
      ∀ p ∈ d.conflictPropagations, ∀ entry ∈ p.conflicts.entries, ∀ known ∈ entry,
        P known.literals := by
  rw [← forall_getElem?_iff]
  simp only [← Slots.forall_get?_iff (P := fun known : PropagatedConflict Exact =>
    P known.literals)]
  constructor
  · intro h i p hp id known hknown
    exact h i id known.literals (by simp [conflict?, hp, ConflictPropagation.known, hknown])
  · intro h i id literals hconflict
    obtain ⟨p, hp, hconflict⟩ := Option.bind_eq_some_iff.mp hconflict
    obtain ⟨known, hknown, rfl⟩ := Option.map_eq_some_iff.mp hconflict
    exact h i p hp id known hknown

instance : Decidable (d.Allows x) := by
  refine decidable_of_iff ((((∀ side ∈ [Side.lower, .upper], ∀ c < d.model.columns.size,
      (⟨c, side, d.values side c⟩ : BoundChange Exact).HoldsAt x) ∧
    (∀ row ∈ d.model.rows, row.HoldsAt x)) ∧
    (∀ p ∈ d.cutPropagations, ∀ entry ∈ p.cuts.entries, ∀ known ∈ entry, known.cut.HoldsAt x) ∧
    ∀ p ∈ d.conflictPropagations, ∀ entry ∈ p.conflicts.entries, ∀ known ∈ entry,
      ConflictHoldsAt known.literals x) ∧
    (∀ o ∈ d.objective, o.HoldsAt x) ∧ (∀ t ∈ d.cliques, t.HoldsAt x) ∧
    ∀ t ∈ d.variableBounds, t.HoldsAt x) ?_
  rw [← forall_cut?_iff (P := fun cut => cut.HoldsAt x),
    ← forall_conflict?_iff (P := fun literals => ConflictHoldsAt literals x), ← forall_getElem?_iff]
  constructor
  · rintro ⟨⟨⟨hbox, hrows⟩, hcuts, hconflicts⟩, hobjective, hcliques, hbounds⟩
    exact ⟨⟨fun side => hbox side (by cases side <;> simp), hrows, hcuts, hconflicts, hobjective⟩,
      hcliques, hbounds⟩
  · rintro ⟨⟨hbox, hrows, hcuts, hconflicts, hobjective⟩, hcliques, hbounds⟩
    exact ⟨⟨⟨fun side _ => hbox side, hrows⟩, hcuts, hconflicts⟩, hobjective, hcliques, hbounds⟩

end Domain

end BranchBound
