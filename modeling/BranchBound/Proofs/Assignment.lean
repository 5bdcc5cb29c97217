import BranchBound.Domain.Change
import BranchBound.Proofs.Number.ExactSum
import Mathlib.Algebra.Order.BigOperators.Group.Multiset

/-!
# Assignments in a box

An assignment gives every column a rational value. What a constraint says of it is said over exact
numbers: `Assignment.total` is the value of the left-hand side, and over a box that contains the
assignment the minimal activity is not above it and the maximal activity is not below it. Where it
only matters which changes of bounds hold, an assignment is a `Reading`.
-/

namespace BranchBound

open Exact

/-- The changes of bounds which hold at a point: where a bound holds, every looser one does. -/
structure Reading (α : Type) [Scalar α] where
  Holds : BoundChange α → Prop
  weaken : ∀ {c : ColumnId} {side : Side} {v w : α}, Holds ⟨c, side, v⟩ →
    side.tightOrEqual v w = true → Holds ⟨c, side, w⟩

namespace Reading

variable {α : Type} [Scalar α] {R : Reading α} {β : BoundValues α} {columnCount : Nat}

/-- The bounds of the first columns hold. -/
def Inside (R : Reading α) (β : BoundValues α) (columnCount : Nat) : Prop :=
  ∀ side c, c < columnCount → R.Holds ⟨c, side, β side c⟩

/-- A bound that becomes one which holds leaves a point in the box. -/
theorem Inside.set (h : R.Inside β columnCount) {change : BoundChange α}
    (hchange : R.Holds change) :
    R.Inside (β.set change.side change.column change.value) columnCount := by
  intro side c hc
  by_cases hset : side = change.side ∧ c = change.column
  · obtain ⟨rfl, rfl⟩ := hset
    rw [BoundValues.set_self]
    exact hchange
  · rw [BoundValues.set_of_ne _ _ hset]
    exact h side c hc

end Reading

/-- A value for every column. -/
abbrev Assignment := ColumnId → ℚ

/-- Whether a change holds at an assignment, up to a slack. -/
def BoundChange.HoldsUpTo (change : BoundChange Exact) (slack : ℚ) (a : Assignment) : Prop :=
  match change.side with
  | .lower => change.value ≤ number (a change.column + slack)
  | .upper => number (a change.column - slack) ≤ change.value

theorem minSide_number (q : ℚ) : minSide (number q) = if 0 < q then .lower else .upper := by
  unfold minSide
  by_cases h : 0 < q
  · simp [h]
  · simp [h]

theorem maxSide_number (q : ℚ) : maxSide (number q) = if 0 < q then .upper else .lower := by
  rw [maxSide, minSide_number]
  split <;> rfl

namespace Assignment

/-- What holds at an assignment. -/
def reading (a : Assignment) : Reading Exact where
  Holds := fun change => match change.side with
    | .lower => change.value ≤ number (a change.column)
    | .upper => number (a change.column) ≤ change.value
  weaken := fun {c side v w} h hle => by
    cases side with
    | lower => exact Exact.le_trans (of_decide_eq_true hle) h
    | upper => exact Exact.le_trans h (of_decide_eq_true hle)

variable {a : Assignment} {change : BoundChange Exact}

theorem holdsUpTo_zero : change.HoldsUpTo 0 a ↔ a.reading.Holds change := by
  obtain ⟨c, side, v⟩ := change
  cases side <;> simp [BoundChange.HoldsUpTo, reading]

/-- Whether a bound holds depends on the value of its column. -/
theorem holds_congr {a a' : Assignment} {x : ColumnId} {side : Side} {v : Exact} (h : a x = a' x) :
    a.reading.Holds ⟨x, side, v⟩ ↔ a'.reading.Holds ⟨x, side, v⟩ := by
  cases side <;> simp only [reading, h]

theorem not_nan_of_holds (h : a.reading.Holds change) : change.value ≠ nan := by
  obtain ⟨c, side, value⟩ := change
  cases side with
  | lower => exact (not_nan_of_le h).1
  | upper => exact (not_nan_of_le h).2

/-- The lower bound of a column is not beyond its upper bound if both hold. -/
theorem tighter_opposite_eq_false {c : ColumnId} {side : Side} {v w : Exact}
    (hv : a.reading.Holds ⟨c, side, v⟩) (hw : a.reading.Holds ⟨c, side.opposite, w⟩) :
    side.tighter v w = false := by
  cases side with
  | lower =>
      have hle : v ≤ w := Exact.le_trans hv hw
      exact decide_eq_false fun hlt => (lt_iff.mp hlt).2 hle
  | upper =>
      have hle : w ≤ v := Exact.le_trans hw hv
      exact decide_eq_false fun hlt => (lt_iff.mp hlt).2 hle

/-- The value of `Σ a x`. -/
def total (a : Assignment) (entries : Multiset (ColumnId × Exact)) : ℚ :=
  (entries.map fun e => e.2.toRat * a e.1).sum

@[simp] theorem total_zero (a : Assignment) : a.total 0 = 0 := rfl

@[simp] theorem total_cons (a : Assignment) (e : ColumnId × Exact)
    (entries : Multiset (ColumnId × Exact)) :
    a.total (e ::ₘ entries) = e.2.toRat * a e.1 + a.total entries := by
  simp [total]

@[simp] theorem total_coe_cons (a : Assignment) (e : ColumnId × Exact)
    (entries : List (ColumnId × Exact)) :
    a.total (e :: entries : List (ColumnId × Exact)) =
      e.2.toRat * a e.1 + a.total (entries : List (ColumnId × Exact)) := by
  rw [← Multiset.cons_coe, total_cons]

theorem total_neg (a : Assignment) (entries : List (ColumnId × Exact)) :
    a.total (entries.map fun e => (e.1, -e.2) : List (ColumnId × Exact)) =
      -a.total (entries : List (ColumnId × Exact)) := by
  induction entries with
  | nil => simp
  | cons e rest ih =>
      have hneg : (-e.2).toRat = -e.2.toRat := by
        cases e.2 <;> simp [toRat] <;> rfl
      rw [List.map_cons, total_coe_cons, total_coe_cons, ih, hneg]
      ring

/-- An inequality holds at an assignment. -/
def Satisfies (a : Assignment) (i : Inequality Exact) : Prop :=
  number (a.total (i.entries : List (ColumnId × Exact))) ≤ i.rhs

/-- A row holds at an assignment. -/
def SatisfiesRow (a : Assignment) (row : Row Exact) : Prop :=
  row.lower ≤ number (a.total (row.entries : List (ColumnId × Exact))) ∧
    number (a.total (row.entries : List (ColumnId × Exact))) ≤ row.upper

/-- The values of the integer columns of a model are whole. -/
def WholeOn (a : Assignment) (m : Model Exact) : Prop :=
  ∀ (c : ColumnId) column, m.columns[c]? = some column → column.kind = .integer →
    ∃ k : ℤ, a c = k

/-- A term at the bound which makes it small is not above the term at the assignment. -/
theorem minTerm_le {v : Exact} (hv : ∃ q, v = number q) {c : ColumnId} {b : Exact}
    (hb : a.reading.Holds ⟨c, minSide v, b⟩) (hfinite : Scalar.isInfinite b = false) :
    v.toRat * b.toRat ≤ v.toRat * a c := by
  obtain ⟨q, rfl⟩ := hv
  obtain ⟨r, rfl⟩ : ∃ r, b = number r := exists_number_of_finite (not_nan_of_holds hb) hfinite
  rw [minSide_number] at hb
  by_cases h : 0 < q
  · rw [if_pos h] at hb
    exact mul_le_mul_of_nonneg_left (number_le.mp hb) h.le
  · rw [if_neg h] at hb
    exact mul_le_mul_of_nonpos_left (number_le.mp hb) (not_lt.mp h)

theorem minTerm_number_le {q r : ℚ} {c : ColumnId}
    (hb : a.reading.Holds ⟨c, minSide (number q), number r⟩) : q * r ≤ q * a c :=
  minTerm_le ⟨q, rfl⟩ hb rfl

/-- A term at the bound which makes it large is not below the term at the assignment. -/
theorem le_maxTerm {v : Exact} (hv : ∃ q, v = number q) {c : ColumnId} {b : Exact}
    (hb : a.reading.Holds ⟨c, maxSide v, b⟩) (hfinite : Scalar.isInfinite b = false) :
    v.toRat * a c ≤ v.toRat * b.toRat := by
  obtain ⟨q, rfl⟩ := hv
  obtain ⟨r, rfl⟩ : ∃ r, b = number r := exists_number_of_finite (not_nan_of_holds hb) hfinite
  rw [maxSide_number] at hb
  by_cases h : 0 < q
  · rw [if_pos h] at hb
    exact mul_le_mul_of_nonneg_left (number_le.mp hb) h.le
  · rw [if_neg h] at hb
    exact mul_le_mul_of_nonpos_left (number_le.mp hb) (not_lt.mp h)

end Assignment

/-- Entries of which each has a bound for its column. -/
abbrev BoundedEntries := Multiset ((ColumnId × Exact) × Exact)

namespace BoundedEntries

variable {items : BoundedEntries} {a : Assignment}

/-- The terms of bounded entries. -/
def terms (items : BoundedEntries) : Multiset (Exact × Exact) := items.map fun i => (i.1.2, i.2)

/-- Entries with the values of some bounds. -/
def along (β : BoundValues Exact) (pick : Exact → Side) (entries : Multiset (ColumnId × Exact)) :
    BoundedEntries := entries.map fun e => (e, β (pick e.2) e.1)

@[simp] theorem map_along (β : BoundValues Exact) (pick : Exact → Side)
    (entries : Multiset (ColumnId × Exact)) : (along β pick entries).map Prod.fst = entries := by
  simp [along]

@[simp] theorem terms_along (β : BoundValues Exact) (pick : Exact → Side)
    (entries : List (ColumnId × Exact)) :
    (along β pick entries).terms = termsAt β pick entries := by
  simp [along, terms, termsAt, Function.comp_def]

theorem finite_of_infiniteTerms_eq_zero (h : infiniteTerms items.terms = 0) :
    ∀ i ∈ items, Scalar.isInfinite i.2 = false := by
  intro i hi
  have hnone := Multiset.countP_eq_zero.mp h (i.1.2, i.2) (Multiset.mem_map_of_mem _ hi)
  simpa using hnone

/-- Finite terms that are each not above the term at an assignment have a sum not above the value at
the assignment. -/
theorem finiteSum_le (h : ∀ i ∈ items, i.1.2.toRat * i.2.toRat ≤ i.1.2.toRat * a i.1.1) :
    finiteSum items.terms ≤ a.total (items.map Prod.fst) := by
  simp only [finiteSum, Assignment.total, terms, Multiset.map_map, Function.comp_def]
  exact Multiset.sum_map_le_sum_map _ _ h

theorem le_finiteSum (h : ∀ i ∈ items, i.1.2.toRat * a i.1.1 ≤ i.1.2.toRat * i.2.toRat) :
    a.total (items.map Prod.fst) ≤ finiteSum items.terms := by
  simp only [finiteSum, Assignment.total, terms, Multiset.map_map, Function.comp_def]
  exact Multiset.sum_map_le_sum_map _ _ h

end BoundedEntries

/-- The columns of some entries are among the first ones, and their coefficients are numbers. -/
def Entries (columnCount : Nat) (entries : Multiset (ColumnId × Exact)) : Prop :=
  ∀ e ∈ entries, e.1 < columnCount ∧ ∃ q, e.2 = number q

namespace Assignment

/-- The terms of the minimal activity are not above those of an assignment in the box. -/
theorem minTerms_le {a : Assignment} {columnCount : Nat} {β : BoundValues Exact}
    {entries : Multiset (ColumnId × Exact)} (hentries : Entries columnCount entries)
    (ha : a.reading.Inside β columnCount) :
    ∀ i ∈ BoundedEntries.along β minSide entries, Scalar.isInfinite i.2 = false →
      i.1.2.toRat * i.2.toRat ≤ i.1.2.toRat * a i.1.1 := by
  intro i hi hfinite
  obtain ⟨e, he, rfl⟩ := Multiset.mem_map.mp hi
  obtain ⟨hc, hnumber⟩ := hentries e he
  exact minTerm_le hnumber (ha _ _ hc) hfinite

section Sums

variable {a : Assignment} {s : PartialSum Exact} {items : BoundedEntries} {K : Multiset Exact}
  {f : ℚ}
  {limit : Exact}

/-- A sum of terms that are not above those of an assignment does not exceed a limit which the
assignment respects. -/
theorem exceeds_eq_false (hf : 0 ≤ f) (hs : s.Exactly items.terms K)
    (hterms : ∀ i ∈ items, Scalar.isInfinite i.2 = false →
      i.1.2.toRat * i.2.toRat ≤ i.1.2.toRat * a i.1.1)
    (hlimit : number (a.total (items.map Prod.fst) + constantSum K) ≤ limit) :
    s.exceeds limit (number f) = false := by
  by_contra hexceeds
  simp only [PartialSum.exceeds, Bool.not_eq_false, Bool.and_eq_true, beq_iff_eq,
    decide_eq_true_eq, hs.finite, CompensatedSum.value_exactly] at hexceeds
  obtain ⟨hinfinite, hexceeds⟩ := hexceeds
  rw [hs.infinite] at hinfinite
  have hsum := BoundedEntries.finiteSum_le fun i hi =>
    hterms i hi (BoundedEntries.finite_of_infiniteTerms_eq_zero hinfinite i hi)
  cases limit with
  | number k =>
      rw [number_le] at hlimit
      rw [number_sub, number_lt] at hexceeds
      linarith
  | plus | minus | nan => cases hexceeds <;> cases hlimit

/-- A sum of terms that are not below those of an assignment does not fall short of a limit which
the assignment respects. -/
theorem fallsShort_eq_false (hf : 0 ≤ f) (hs : s.Exactly items.terms 0)
    (hterms : ∀ i ∈ items, Scalar.isInfinite i.2 = false →
      i.1.2.toRat * a i.1.1 ≤ i.1.2.toRat * i.2.toRat)
    (hlimit : limit ≤ number (a.total (items.map Prod.fst))) :
    s.fallsShort limit (number f) = false := by
  by_contra hshort
  simp only [PartialSum.fallsShort, Bool.not_eq_false, Bool.and_eq_true, beq_iff_eq,
    decide_eq_true_eq, hs.finite, CompensatedSum.value_exactly] at hshort
  obtain ⟨hinfinite, hshort⟩ := hshort
  rw [hs.infinite] at hinfinite
  have hsum := BoundedEntries.le_finiteSum fun i hi =>
    hterms i hi (BoundedEntries.finite_of_infiniteTerms_eq_zero hinfinite i hi)
  cases limit with
  | number k =>
      rw [number_le] at hlimit
      rw [number_sub, number_lt, constantSum, Multiset.map_zero, Multiset.sum_zero] at hshort
      linarith
  | plus | minus | nan => cases hshort <;> cases hlimit

end Sums

end Assignment

end BranchBound

/-!
## Points with whole values

A point gives every column a whole value, which makes it an assignment. What a constraint says of a
point is what it says of the assignment: `dot` is the value of the left-hand side, and a change of a
bound holds at the point if it does at the assignment.
-/

namespace BranchBound

open Exact

/-- A whole value for every column. -/
abbrev Point := ColumnId → ℤ

/-- The value of `Σ a x` at a point. -/
def dot (entries : Multiset (ColumnId × Exact)) (x : Point) : ℚ :=
  (entries.map fun e => e.2.toRat * (x e.1 : ℚ)).sum

variable {x : Point}

@[simp] theorem dot_zero (x : Point) : dot 0 x = 0 := rfl

@[simp] theorem dot_cons (e : ColumnId × Exact) (entries : Multiset (ColumnId × Exact))
    (x : Point) : dot (e ::ₘ entries) x = e.2.toRat * (x e.1 : ℚ) + dot entries x := by
  simp [dot]

@[simp] theorem dot_add (entries entries' : Multiset (ColumnId × Exact)) (x : Point) :
    dot (entries + entries') x = dot entries x + dot entries' x := by
  simp [dot]

/-- Whether a literal holds at a point. -/
def BoundChange.HoldsAt (change : BoundChange Exact) (x : Point) : Prop :=
  match change.side with
  | .lower => change.value ≤ number (x change.column : ℚ)
  | .upper => number (x change.column : ℚ) ≤ change.value

/-- The values of the bounds contain a point in the first columns. -/
def BoundValues.Contains (β : BoundValues Exact) (columnCount : Nat) (x : Point) : Prop :=
  ∀ side c, c < columnCount → (⟨c, side, β side c⟩ : BoundChange Exact).HoldsAt x

namespace Point

/-- The assignment of whole values that a point is. -/
def assignment (x : Point) : Assignment := fun c => (x c : ℚ)

/-- What holds at a point with whole values. -/
abbrev reading (x : Point) : Reading Exact := x.assignment.reading

theorem assignment_total (x : Point) (entries : Multiset (ColumnId × Exact)) :
    x.assignment.total entries = dot entries x := rfl

theorem wholeOn (x : Point) (m : Model Exact) : x.assignment.WholeOn m :=
  fun c _ _ _ => ⟨x c, rfl⟩

/-- A value between zero and one is one of them. -/
theorem zero_or_one {c : ColumnId} (hlower : (0 : Exact) ≤ number (x c : ℚ))
    (hupper : number (x c : ℚ) ≤ 1) : x c = 0 ∨ x c = 1 := by
  simp only [ofNat_eq, number_le, Nat.cast_zero, Nat.cast_one] at hlower hupper
  have hlower : 0 ≤ x c := by exact_mod_cast hlower
  have hupper : x c ≤ 1 := by exact_mod_cast hupper
  omega

end Point

/-- A bound that becomes one which holds at a point leaves the point in the box. -/
theorem BoundValues.Contains.set {β : BoundValues Exact} {columnCount : Nat}
    (h : β.Contains columnCount x) {change : BoundChange Exact} (hchange : change.HoldsAt x) :
    (β.set change.side change.column change.value).Contains columnCount x :=
  Reading.Inside.set (R := x.reading) h hchange

theorem BoundChange.HoldsAt.not_nan {change : BoundChange Exact} (h : change.HoldsAt x) :
    change.value ≠ nan :=
  Assignment.not_nan_of_holds (a := x.assignment) h

/-- A bound that is less tight than one which holds at a point holds there as well. -/
theorem BoundChange.HoldsAt.weaken {c : ColumnId} {side : Side} {v w : Exact}
    (h : (⟨c, side, v⟩ : BoundChange Exact).HoldsAt x) (hle : side.tightOrEqual v w = true) :
    (⟨c, side, w⟩ : BoundChange Exact).HoldsAt x :=
  x.reading.weaken h hle

end BranchBound
