import BranchBound.Incumbent
import BranchBound.Proofs.Model.Numbers
import Mathlib

/-!
# Units of the objective

If all costs and the offset of a model count as integral, the incumbent skips a whole unit of
objective value. Where the costs are integers, the objective values of two points differ by a whole
number, and nothing better than the incumbent is skipped. A cost may however be off an integer by
the tolerance of a draft. The difference of two objective values is then off a whole number by the
*drift* of the two points, which grows with their distance, and a point that is better by no more
than the drift can be lost.
-/

namespace BranchBound

open Checked Exact

namespace Exact

theorem isIntegral_number {t q : ℚ} :
    Scalar.isIntegral (number t) (number q) = true ↔ |q - nearest q| ≤ t := by
  have hround : Scalar.round (number q) = number (nearest q : ℚ) := rfl
  have habs : ∀ r : ℚ, Scalar.abs (number r) = number |r| := fun _ => rfl
  rw [Scalar.isIntegral, hround, number_sub, habs]
  exact decide_eq_true_iff.trans number_le

/-- Only rationals count as integral. -/
theorem exists_number_of_isIntegral {t : ℚ} {v : Exact}
    (h : Scalar.isIntegral (number t) v = true) : ∃ q, v = number q := by
  cases v with
  | number q => exact ⟨q, rfl⟩
  | plus | minus | nan => cases h

theorem nearest_intCast (z : ℤ) : nearest (z : ℚ) = z := by
  unfold nearest
  split
  · rw [Int.floor_eq_iff]
    constructor <;> linarith
  · rw [Int.ceil_eq_iff]
    constructor <;> linarith

end Exact

namespace Column

/-- A value that a point can give a column: a finite one, and a whole one for integer columns. -/
def Admits (column : Column Exact) (v : Exact) : Prop :=
  ∃ q : ℚ, v = number q ∧ (column.kind = .integer → ∃ z : ℤ, q = z)

/-- How far the cost of a column is off an integer. -/
def excess (column : Column Exact) : ℚ := |column.cost.toRat - nearest column.cost.toRat|

/-- The cost of a column is zero, or the column is integer and its cost nearly so. -/
structure Countable (column : Column Exact) : Prop where
  cost : ∃ q, column.cost = number q
  excess_le : column.excess ≤ 1 / 10 ^ 9
  kind : column.cost.toRat ≠ 0 → column.kind = .integer

variable {column : Column Exact}

theorem excess_eq_zero {z : ℤ} (h : column.cost = number z) : column.excess = 0 := by
  rw [excess, h, toRat_number, nearest_intCast, sub_self, abs_zero]

/-- Two values of a column whose cost counts as integral change the objective by a whole number, up
to what the cost is off an integer. -/
theorem Countable.exists_units (h : column.Countable) {x y : Exact} (hx : column.Admits x)
    (hy : column.Admits y) : ∃ n : ℤ,
      |column.cost.toRat * x.toRat - column.cost.toRat * y.toRat - n| ≤
        column.excess * |x.toRat - y.toRat| := by
  obtain ⟨p, rfl, hp⟩ := hx
  obtain ⟨q, rfl, hq⟩ := hy
  by_cases hzero : column.cost.toRat = 0
  · refine ⟨0, ?_⟩
    have hexcess : 0 ≤ column.excess := abs_nonneg _
    simpa [hzero] using mul_nonneg hexcess (abs_nonneg (p - q))
  · obtain ⟨z, rfl⟩ := hp (h.kind hzero)
    obtain ⟨w, rfl⟩ := hq (h.kind hzero)
    refine ⟨nearest column.cost.toRat * (z - w), le_of_eq ?_⟩
    rw [excess, ← abs_mul, toRat_number, toRat_number]
    push_cast
    congr 1
    ring

end Column

namespace Model

/-- A point that can be compared with the incumbent: every column has a value it admits. -/
def Admits (m : Model Exact) (point : Array Exact) : Prop :=
  List.Forall₂ Column.Admits m.columns.toList point.toList

/-- Every column admits a whole value. -/
theorem admits_of_whole {m : Model Exact} {point : Array Exact}
    (hsize : m.columns.size = point.size) (h : ∀ v ∈ point.toList, ∃ z : ℤ, v = number z) :
    m.Admits point := by
  refine List.forall₂_iff_get.mpr ⟨by simpa using hsize, fun j _ hj => ?_⟩
  obtain ⟨z, hz⟩ := h _ (List.get_mem point.toList ⟨j, hj⟩)
  exact ⟨z, hz, fun _ => ⟨z, rfl⟩⟩

/-- What the columns contribute to the objective. -/
def contribution (columns : List (Column Exact)) (xs : List Exact) : ℚ :=
  ((columns.zip xs).map fun e => e.1.cost.toRat * e.2.toRat).sum

/-- How far the difference of two objective values may be off a whole number. -/
def driftOf (columns : List (Column Exact)) (xs ys : List Exact) : ℚ :=
  ((columns.zip (xs.zip ys)).map fun e => e.1.excess * |e.2.1.toRat - e.2.2.toRat|).sum

def drift (m : Model Exact) (p q : Array Exact) : ℚ := driftOf m.columns.toList p.toList q.toList

/-- The sum of the distances of two points in all columns. -/
def distance (p q : Array Exact) : ℚ :=
  ((p.toList.zip q.toList).map fun e => |e.1.toRat - e.2.toRat|).sum

/-- The contributions of two points differ by a whole number, up to their drift. -/
theorem exists_units {columns : List (Column Exact)} {xs ys : List Exact}
    (hcolumns : ∀ column ∈ columns, column.Countable)
    (hx : List.Forall₂ Column.Admits columns xs) (hy : List.Forall₂ Column.Admits columns ys) :
    ∃ n : ℤ, |contribution columns xs - contribution columns ys - n| ≤ driftOf columns xs ys := by
  induction hx generalizing ys with
  | nil =>
      cases hy
      exact ⟨0, by simp [contribution, driftOf]⟩
  | @cons column x columns xs hhead _ ih =>
      obtain - | ⟨hhead', hrest'⟩ := hy
      rename_i y ys
      obtain ⟨n, hn⟩ := (hcolumns column (List.mem_cons_self ..)).exists_units hhead hhead'
      obtain ⟨k, hk⟩ := ih (fun c hc => hcolumns c (List.mem_cons_of_mem _ hc)) hrest'
      refine ⟨n + k, le_trans ?_ (add_le_add hn hk)⟩
      refine le_trans (le_of_eq ?_) (abs_add_le _ _)
      simp only [contribution, List.zip_cons_cons, List.map_cons, List.sum_cons]
      push_cast
      congr 1
      ring

/-- The drift is at most the tolerance of a draft for every unit of distance. -/
theorem driftOf_le {columns : List (Column Exact)} (hcolumns : ∀ column ∈ columns, column.Countable)
    (xs ys : List Exact) :
    driftOf columns xs ys ≤
      1 / 10 ^ 9 * ((xs.zip ys).map fun e => |e.1.toRat - e.2.toRat|).sum := by
  induction columns generalizing xs ys with
  | nil =>
      refine mul_nonneg (by norm_num) (List.sum_nonneg fun v hv => ?_)
      obtain ⟨e, -, rfl⟩ := List.mem_map.mp hv
      exact abs_nonneg _
  | cons column columns ih =>
      cases xs with
      | nil => simp [driftOf]
      | cons x xs =>
          cases ys with
          | nil => simp [driftOf]
          | cons y ys =>
              have hhead := mul_le_mul_of_nonneg_right
                (hcolumns column (List.mem_cons_self ..)).excess_le (abs_nonneg (x.toRat - y.toRat))
              have hrest := ih (fun c hc => hcolumns c (List.mem_cons_of_mem _ hc)) xs ys
              simp only [driftOf, List.zip_cons_cons, List.map_cons, List.sum_cons] at hrest ⊢
              linarith

variable {m : Model Exact} {point : Array Exact}

/-- The objective value of a point that the columns admit. -/
theorem objectiveValue_eq {o : ℚ} (hoffset : m.offset = number o)
    (hcolumns : ∀ column ∈ m.columns.toList, column.Countable) (hpoint : m.Admits point) :
    m.objectiveValue point = number (o + contribution m.columns.toList point.toList) := by
  have hterm : ∀ e ∈ m.columns.toList.zip point.toList,
      ∃ c x, e.1.cost = number c ∧ e.2 = number x := by
    intro e he
    obtain ⟨c, hc⟩ := (hcolumns e.1 (List.of_mem_zip he).1).cost
    obtain ⟨x, hx, -⟩ := List.forall₂_zip hpoint he
    exact ⟨c, x, hc, hx⟩
  have hsum : ∀ v ∈ (m.columns.toList.zip point.toList).map fun e => e.1.cost * e.2,
      ∃ q, v = number q := by
    intro v hv
    obtain ⟨e, he, rfl⟩ := List.mem_map.mp hv
    obtain ⟨c, x, hc, hx⟩ := hterm e he
    exact ⟨c * x, by rw [hc, hx, number_mul]⟩
  have hvalues : ((m.columns.toList.zip point.toList).map fun e => e.1.cost * e.2).map toRat =
      (m.columns.toList.zip point.toList).map fun e => e.1.cost.toRat * e.2.toRat := by
    rw [List.map_map]
    refine List.map_congr_left fun e he => ?_
    obtain ⟨c, x, hc, hx⟩ := hterm e he
    simp only [Function.comp_apply, hc, hx, number_mul, toRat_number]
  have heq : m.objectiveValue point = m.offset +
      Scalar.sum ((m.columns.toList.zip point.toList).map fun e => e.1.cost * e.2) := rfl
  rw [heq, sum_eq hsum, hvalues, hoffset, number_add, contribution]

end Model

namespace Draft

variable {d : Draft Exact} {m : Model Exact}

/-- The flag of a built model tells that all costs count as integral. -/
theorem countable_of_build (hbuild : d.build = .ok m) (hflag : m.integralObjective = true) :
    (∃ o, m.offset = number o) ∧ ∀ column ∈ m.columns.toList, column.Countable := by
  have htolerance : (integralityTolerance : Exact) = number (1 / 10 ^ 9) := by
    change decimal 1 true 9 = _
    simp [decimal]
  have hshape := hbuild
  simp only [build, bind_eq_ok, pure_eq_ok] at hshape
  obtain ⟨columns, -, rows, -, rfl⟩ := hshape
  simp only [hasIntegralObjective, htolerance, Bool.and_eq_true, List.all_eq_true, Bool.or_eq_true,
    beq_iff_eq] at hflag
  obtain ⟨hoffset, hcosts⟩ := hflag
  refine ⟨exists_number_of_isIntegral hoffset, fun column hmem => ?_⟩
  obtain ⟨c, hc⟩ := List.mem_iff_getElem?.mp hmem
  obtain ⟨q, hq⟩ := (checkedColumn_of_build hbuild (c := c) (by simpa using hc)).cost
  rcases hcosts column (by simpa using hmem) with hzero | ⟨hkind, hintegral⟩
  · have hcost : column.cost = number ((0 : ℤ) : ℚ) := by
      have hequal := (equal_iff.mp hzero).1
      rw [hequal, ofNat_eq]
      norm_num
    exact ⟨⟨q, hq⟩, by rw [Column.excess_eq_zero hcost]; norm_num,
      fun hne => absurd (by rw [hcost, toRat_number]; norm_num) hne⟩
  · refine ⟨⟨q, hq⟩, ?_, fun _ => hkind⟩
    rw [hq] at hintegral
    rw [Column.excess, hq]
    exact isIntegral_number.mp hintegral

variable {i : Incumbent Exact} {p q : Array Exact} {f : ℚ}

/-- The cutoff of an incumbent keeps every point that is better by more than its drift, up to that
drift; without drift it keeps every better point. -/
theorem cutoff_keeps_better (hbuild : d.build = .ok m) (hflag : m.integralObjective = true)
    (hp : m.Admits p) (hq : m.Admits q) (hheld : i.objective = m.objectiveValue q)
    (hunits : i.integralObjective = true) (hfeastol : i.feastol = number f) (hf : 0 ≤ f) :
    m.drift p q ≤ 1 / 10 ^ 9 * Model.distance p q ∧
      (m.objectiveValue p + number (m.drift p q) < m.objectiveValue q →
        m.objectiveValue p ≤ i.cutoff + number (m.drift p q)) := by
  obtain ⟨⟨o, ho⟩, hcolumns⟩ := countable_of_build hbuild hflag
  refine ⟨Model.driftOf_le hcolumns _ _, fun hbetter => ?_⟩
  obtain ⟨n, hn⟩ := Model.exists_units hcolumns hp hq
  have hobjective := Model.objectiveValue_eq ho hcolumns hq
  rw [Model.objectiveValue_eq ho hcolumns hp] at hbetter ⊢
  rw [hobjective, number_add, number_lt] at hbetter
  have hcutoff : i.cutoff =
      number (o + Model.contribution m.columns.toList q.toList - 1 + f) := by
    rw [Incumbent.cutoff, hheld, hobjective, hunits, hfeastol, infinity_eq, ofNat_eq, number_sub,
      number_add]
    rfl
  rw [hcutoff, number_add, number_le]
  rw [← Model.drift, abs_le] at hn
  -- The whole number next to the difference is below zero, so it is at most minus one.
  have hnegative : (n : ℚ) ≤ -1 := by
    have hlt : (n : ℚ) < 0 := by linarith [hn.1]
    exact_mod_cast Int.le_sub_one_of_lt (by exact_mod_cast hlt : n < 0)
  linarith [hn.2]

/-- A draft with one binary column. -/
def binaryDraft (cost : ℚ) : Draft Exact := ⟨#[.binary (number cost)], #[], 0⟩

/-- The incumbent that sets the column of a binary draft. -/
def binaryIncumbent (cost : ℚ) : Incumbent Exact := ⟨some #[1], number cost, true, 1e-6⟩

/-- With the cost three nothing drifts, and the point that leaves the column at zero is kept. -/
theorem cutoff_keeps_zero : ∃ m, (binaryDraft 3).build = .ok m ∧ m.integralObjective = true ∧
    m.Admits #[number 0] ∧ m.Admits #[number 1] ∧
    (binaryIncumbent 3).objective = m.objectiveValue #[number 1] ∧
    m.objectiveValue #[number 0] + number (m.drift #[number 0] #[number 1]) <
      m.objectiveValue #[number 1] ∧
    m.objectiveValue #[number 0] ≤
      (binaryIncumbent 3).cutoff + number (m.drift #[number 0] #[number 1]) := by
  have hrun : passes (binaryDraft 3).build (fun m => m.integralObjective &&
      decide (m.columns.size = 1) &&
      decide ((binaryIncumbent 3).objective = m.objectiveValue #[number 1]) &&
      decide (m.objectiveValue #[number 0] + number (m.drift #[number 0] #[number 1]) <
        m.objectiveValue #[number 1])) = true := by
    cbv
  obtain ⟨m, hm, hrun⟩ := passes_eq_true.mp hrun
  simp only [Bool.and_eq_true, decide_eq_true_eq] at hrun
  obtain ⟨⟨⟨hflag, hsize⟩, hheld⟩, hbetter⟩ := hrun
  have hzero : m.Admits #[number 0] := Model.admits_of_whole hsize (by simpa using ⟨0, rfl⟩)
  have hone : m.Admits #[number 1] := Model.admits_of_whole hsize (by simpa using ⟨1, rfl⟩)
  have hfeastol : (binaryIncumbent 3).feastol = number (1 / 10 ^ 6) := rfl
  exact ⟨m, hm, hflag, hzero, hone, hheld, hbetter,
    (cutoff_keeps_better hm hflag hzero hone hheld rfl hfeastol (by norm_num)).2 hbetter⟩

/-- A cost of five times ten to the minus ten counts as integral, and the cutoff excludes the better
of two points. -/
theorem tiny_cost_excludes_zero : ∃ m, (binaryDraft (1 / 2000000000)).build = .ok m ∧
    m.integralObjective = true ∧ m.Admits #[number 0] ∧ m.Admits #[number 1] ∧
    (binaryIncumbent (1 / 2000000000)).objective = m.objectiveValue #[number 1] ∧
    m.objectiveValue #[number 0] < m.objectiveValue #[number 1] ∧
    (binaryIncumbent (1 / 2000000000)).cutoff < m.objectiveValue #[number 0] := by
  have hrun : passes (binaryDraft (1 / 2000000000)).build (fun m => m.integralObjective &&
      decide (m.columns.size = 1) &&
      decide ((binaryIncumbent (1 / 2000000000)).objective = m.objectiveValue #[number 1]) &&
      decide (m.objectiveValue #[number 0] < m.objectiveValue #[number 1]) &&
      decide ((binaryIncumbent (1 / 2000000000)).cutoff < m.objectiveValue #[number 0])) =
        true := by
    cbv
  obtain ⟨m, hm, hrun⟩ := passes_eq_true.mp hrun
  simp only [Bool.and_eq_true, decide_eq_true_eq] at hrun
  obtain ⟨⟨⟨⟨hflag, hsize⟩, hheld⟩, hbetter⟩, hcut⟩ := hrun
  exact ⟨m, hm, hflag, Model.admits_of_whole hsize (by simpa using ⟨0, rfl⟩),
    Model.admits_of_whole hsize (by simpa using ⟨1, rfl⟩), hheld, hbetter, hcut⟩

end Draft

end BranchBound
