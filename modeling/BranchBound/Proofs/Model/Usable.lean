import BranchBound.Proofs.Model.Storage
import BranchBound.Proofs.Number.Double

/-!
# Usable numbers of a built model

Over doubles, the checks of a draft leave finite costs, ordered bounds and sides that are numbers,
and whole bounds of integer columns. The coefficients are checked one by one before they are summed,
and the constant of the objective is not checked at all: a model is usable as a whole exactly if the
constant and the sums of the coefficients are finite.
-/

namespace BranchBound

open Checked Binary64

/-- A column with a finite cost and bounds which are numbers in order, whole ones if the column is
an integer one. -/
structure Column.Usable (column : Column Float) : Prop where
  cost : Scalar.isFinite column.cost = true
  lower : Scalar.isNaN column.lower = false
  upper : Scalar.isNaN column.upper = false
  ordered : column.lower ≤ column.upper
  whole : column.kind = .integer → IsWhole column.lower ∧ IsWhole column.upper

/-- A row with sides which are numbers in order. -/
structure Row.Sided (row : Row Float) : Prop where
  lower : Scalar.isNaN row.lower = false
  upper : Scalar.isNaN row.upper = false
  ordered : row.lower ≤ row.upper

/-- A model whose numbers can all be used: no stored number is not a number, costs, coefficients and
the constant of the objective are finite, no coefficient is zero, bounds and sides are in order, and
integer columns have whole bounds. -/
structure Model.Usable (m : Model Float) : Prop where
  offset : Scalar.isFinite m.offset = true
  column : ∀ column ∈ m.columns.toList, column.Usable
  row : ∀ row ∈ m.rows.toList, row.Sided
  coefficient : ∀ row ∈ m.rows.toList, ∀ e ∈ row.entries,
    Scalar.isFinite e.2 = true ∧ (e.2 == 0) = false
  occurrence : ∀ found ∈ m.occurrences.toList, ∀ o ∈ found,
    Scalar.isFinite o.2 = true ∧ (o.2 == 0) = false

namespace Draft

theorem parts_isFinite {x : Float} (h : Scalar.isFinite x = true) : (parts x).isFinite = true := by
  have hboth : (!(parts x).isNaN && !(parts x).isInf) = true := h
  cases hx : parts x with
  | notANumber | infinity _ =>
      rw [hx] at hboth
      cases hboth
  | zero _ | finite _ _ _ _ => rfl

/-- A checked column is usable: the bounds of an integer column are rounded to whole ones. -/
theorem usable_of_checkColumn {c : ColumnId} {given column : Column Float}
    (h : checkColumn c given = .ok column) : column.Usable := by
  unfold checkColumn at h
  split at h
  · cases h
  · next hcost =>
    split at h
    · cases h
    · next hlower =>
      split at h
      · cases h
      · next hupper =>
        split at h
        · cases h
        · split at h
          · cases h
          · have hcost : Scalar.isFinite given.cost = true := by simpa using hcost
            have hlower : given.lower.isNaN = false := Bool.eq_false_iff.mpr hlower
            have hupper : given.upper.isNaN = false := Bool.eq_false_iff.mpr hupper
            have htolerance : (parts integralityTolerance).isFinite = true := by decide +kernel
            dsimp only at h
            split at h
            · next hkind =>
              have hdown : (given.lower - integralityTolerance).isNaN = false :=
                (isNaN_sub _ _).trans ((isNaN_sub_finite _ htolerance).trans hlower)
              have hup : (given.upper + integralityTolerance).isNaN = false :=
                (isNaN_add _ _).trans ((isNaN_add_finite _ htolerance).trans hupper)
              split at h
              · cases h
              · next hinverted =>
                cases h
                have hceil := isNaN_toIntegral hdown fun negative remainder _ =>
                  !negative && remainder != 0
                have hfloor := isNaN_toIntegral hup fun negative remainder _ =>
                  negative && remainder != 0
                exact ⟨hcost, hceil, hfloor,
                  Scalar.Ordered.le_of_not_lt _ _ hfloor hceil hinverted,
                  fun _ => ⟨isWhole_ceil hdown, isWhole_floor hup⟩⟩
            · next hkind =>
              split at h
              · cases h
              · next hinverted =>
                cases h
                refine ⟨hcost, hlower, hupper,
                  Scalar.Ordered.le_of_not_lt _ _ hupper hlower hinverted, fun hinteger => ?_⟩
                cases hkind.symm.trans hinteger

theorem sided_of_checkRow {columnCount : Nat} {r : RowId} {given row : Row Float}
    (h : checkRow columnCount r given = .ok row) : row.Sided := by
  unfold checkRow at h
  split at h
  · cases h
  · next hsides =>
    simp only [bind_eq_ok, pure_eq_ok] at h
    obtain ⟨merged, -, rfl⟩ := h
    simp only [Bool.or_eq_true, decide_eq_true_eq, not_or, Bool.not_eq_true] at hsides
    obtain ⟨⟨hinverted, hlower⟩, hupper⟩ := hsides
    exact ⟨hlower, hupper, Scalar.Ordered.le_of_not_lt _ _ hupper hlower hinverted⟩

section Sums

variable {α : Type} [Scalar α]

/-- Every given coefficient of a checked row is finite. -/
theorem finite_of_mergeEntries {r : RowId} {columnCount : Nat}
    {merged entries result : List (ColumnId × α)}
    (h : mergeEntries r columnCount merged entries = .ok result) :
    ∀ e ∈ entries, Scalar.isFinite e.2 = true := by
  induction entries generalizing merged with
  | nil => exact fun e he => by cases he
  | cons head rest ih =>
      simp only [mergeEntries] at h
      split at h
      · cases h
      · split at h
        · cases h
        · next hfinite =>
          intro e he
          rcases List.mem_cons.mp he with rfl | he
          · simpa using hfinite
          · exact ih h e he

end Sums

/-- A sum of finite doubles is a number, though it may be infinite. -/
theorem isNaN_foldl_add {xs : List Float} (h : ∀ x ∈ xs, Scalar.isFinite x = true) {start : Float}
    (hstart : Scalar.isNaN start = false) : (xs.foldl (· + ·) start).isNaN = false := by
  induction xs generalizing start with
  | nil => exact hstart
  | cons x rest ih =>
      refine ih (fun y hy => h y (List.mem_cons_of_mem _ hy)) ?_
      have hx := parts_isFinite (h x (List.mem_cons_self ..))
      exact (isNaN_add _ _).trans ((isNaN_add_finite _ hx).trans hstart)

/-- The zero which sums start with is the usual one. -/
theorem decimal_zero : (Scalar.decimal 0 false 0 : Float) = 0 := by
  decide +kernel

theorem isNaN_coefficientSum {columnCount : Nat} {r : RowId} {given row : Row Float}
    (h : checkRow columnCount r given = .ok row) (c : ColumnId) :
    (coefficientSum given.entries c).isNaN = false := by
  unfold checkRow at h
  split at h
  · cases h
  · simp only [bind_eq_ok, pure_eq_ok] at h
    obtain ⟨merged, hmerged, rfl⟩ := h
    refine isNaN_foldl_add (fun x hx => ?_) Scalar.LinearlyOrdered.number_zero
    obtain ⟨e, he, rfl⟩ := List.mem_map.mp hx
    exact finite_of_mergeEntries hmerged e (List.mem_of_mem_filter he)

/-- The coefficients of a checked row are the sums other than zero, and these are numbers. -/
theorem coefficient_iff {columnCount : Nat} {r : RowId} {given row : Row Float}
    (h : checkRow columnCount r given = .ok row) {c : ColumnId} {a : Float} :
    (c, a) ∈ row.entries ↔ coefficients given.entries c ≠ [] ∧
      a = coefficientSum given.entries c ∧ a.isNaN = false ∧ (a == 0) = false := by
  have hstored := (rowStored_of_checkRow h).mem_iff c a
  change _ ↔ _ ∧ _ ∧ (a == (Scalar.decimal 0 false 0 : Float)) = false at hstored
  rw [decimal_zero] at hstored
  rw [hstored]
  exact ⟨fun ⟨hgiven, hsum, hzero⟩ => ⟨hgiven, hsum, hsum ▸ isNaN_coefficientSum h c, hzero⟩,
    fun ⟨hgiven, hsum, _, hzero⟩ => ⟨hgiven, hsum, hzero⟩⟩

/-- No number that is not finite equals zero. -/
theorem finite_of_beq_zero {x : Float} (h : (x == 0) = true) : Scalar.isFinite x = true := by
  obtain ⟨-, -, rfl | ⟨rfl, -⟩ | ⟨rfl, -⟩⟩ := Float.beq_iff_ne_nan_and_eq.mp h <;> decide +kernel

variable {d : Draft Float} {m : Model Float}

theorem exists_row_of_mem (h : d.build = .ok m) {row : Row Float} (hrow : row ∈ m.rows.toList) :
    ∃ r given, d.rows[r]? = some given ∧ checkRow m.columns.size r given = .ok row := by
  obtain ⟨r, hr⟩ := List.mem_iff_getElem?.mp hrow
  rw [Array.getElem?_toList] at hr
  obtain ⟨given, hgiven, hcheck⟩ := checkRow_of_build h hr
  exact ⟨r, given, hgiven, hcheck⟩

/-- **What the numbers of a built model are good for.** Costs, bounds and sides are always usable,
and coefficients are numbers other than zero; all numbers of the model are usable exactly if the
given constant of the objective and the sums of the coefficients given for each row and column are
finite. -/
theorem usable_iff_sums_finite (h : d.build = .ok m) :
    (∀ column ∈ m.columns.toList, column.Usable) ∧ (∀ row ∈ m.rows.toList, row.Sided) ∧
    (∀ row ∈ m.rows.toList, ∀ e ∈ row.entries,
      Scalar.isNaN e.2 = false ∧ (e.2 == 0) = false) ∧
    (m.Usable ↔ Scalar.isFinite d.offset = true ∧ ∀ given ∈ d.rows.toList, ∀ c,
      Scalar.isFinite (coefficientSum given.entries c) = true) := by
  have hcolumns : ∀ column ∈ m.columns.toList, column.Usable := by
    intro column hcolumn
    obtain ⟨c, hc⟩ := List.mem_iff_getElem?.mp hcolumn
    obtain ⟨given, -, hcheck⟩ := checkColumn_of_build h (by simpa using hc)
    exact usable_of_checkColumn hcheck
  have hrows : ∀ row ∈ m.rows.toList, row.Sided := by
    intro row hrow
    obtain ⟨r, given, -, hcheck⟩ := exists_row_of_mem h hrow
    exact sided_of_checkRow hcheck
  have hcoefficients : ∀ row ∈ m.rows.toList, ∀ e ∈ row.entries,
      Scalar.isNaN e.2 = false ∧ (e.2 == 0) = false := by
    rintro row hrow ⟨c, a⟩ he
    obtain ⟨r, given, -, hcheck⟩ := exists_row_of_mem h hrow
    exact ((coefficient_iff hcheck).mp he).2.2
  have hoffset : m.offset = d.offset := by
    obtain ⟨columns, rows, -, -, rfl⟩ := build_eq_ok h
    rfl
  refine ⟨hcolumns, hrows, hcoefficients, fun husable => ⟨hoffset ▸ husable.offset, ?_⟩, ?_⟩
  · -- A sum is either stored, or zero and finite for that reason.
    intro given hgiven c
    obtain ⟨r, hr⟩ := List.mem_iff_getElem?.mp hgiven
    rw [Array.getElem?_toList] at hr
    have hlt : r < m.rows.size := rows_size_of_build h ▸ (Array.getElem?_eq_some_iff.mp hr).1
    obtain ⟨given', hgiven', hcheck⟩ := checkRow_of_build h (Array.getElem?_eq_getElem hlt)
    obtain rfl : given' = given := Option.some.inj (hgiven'.symm.trans hr)
    by_cases hzero : (coefficientSum given'.entries c == 0) = true
    · exact finite_of_beq_zero hzero
    · by_cases hnone : coefficients given'.entries c = []
      · rw [coefficientSum, hnone]
        decide +kernel
      · have he := (coefficient_iff hcheck).mpr
          ⟨hnone, rfl, isNaN_coefficientSum hcheck c, Bool.eq_false_iff.mpr hzero⟩
        exact (husable.coefficient _ (Array.mem_toList_iff.mpr (Array.getElem_mem hlt)) _ he).1
  · rintro ⟨hfinite, hsums⟩
    have hentries : ∀ row ∈ m.rows.toList, ∀ e ∈ row.entries,
        Scalar.isFinite e.2 = true ∧ (e.2 == 0) = false := by
      rintro row hrow ⟨c, a⟩ he
      obtain ⟨r, given, hgiven, hcheck⟩ := exists_row_of_mem h hrow
      obtain ⟨-, rfl, -, hzero⟩ := (coefficient_iff hcheck).mp he
      exact ⟨hsums given (Array.mem_toList_iff.mpr (Array.mem_of_getElem? hgiven)) c, hzero⟩
    refine ⟨hoffset ▸ hfinite, hcolumns, hrows, hentries, ?_⟩
    rintro found hfound ⟨r, a⟩ ho
    obtain ⟨c, hc⟩ := List.mem_iff_getElem?.mp hfound
    obtain ⟨row, hrow, he⟩ :=
      ((wellFormed_of_build h).mem_occurrences_iff (by simpa using hc)).mp ho
    exact hentries row (Array.mem_toList_iff.mpr (Array.mem_of_getElem? hrow)) (c, a) he

/-- An integer column with fractional bounds, and a row that gives its coefficient in two parts. -/
def fractionalBounds : Draft Float :=
  ⟨#[⟨1, 0.5, 3.7, .integer⟩], #[⟨0, 4, [(0, 0.5), (0, 1.5)]⟩], 2⟩

theorem fractionalBounds_usable : ∃ m, fractionalBounds.build = .ok m ∧ m.Usable := by
  have hrun : passes fractionalBounds.build (fun _ => true) = true := by decide +kernel
  obtain ⟨m, hbuild, -⟩ := passes_eq_true.mp hrun
  refine ⟨m, hbuild, (usable_iff_sums_finite hbuild).2.2.2.mpr ⟨by decide +kernel, ?_⟩⟩
  intro given hgiven c
  obtain rfl : given = ⟨0, 4, [(0, 0.5), (0, 1.5)]⟩ := by simpa [fractionalBounds] using hgiven
  cases c with
  | zero => decide +kernel
  | succ c =>
      have hnone : coefficients [((0 : Nat), (0.5 : Float)), (0, 1.5)] (c + 1) = [] := by
        simp [coefficients]
      rw [coefficientSum, hnone]
      decide +kernel

/-- A row that gives two coefficients for its column, both of them finite. -/
def overflowing : Draft Float :=
  ⟨#[⟨0, 0, 1, .continuous⟩], #[⟨0, 1, [(0, 1e308), (0, 1e308)]⟩], 0⟩

/-- Two finite coefficients with an infinite sum are accepted, and the infinite sum is stored. -/
theorem overflowing_not_usable : ∃ m, overflowing.build = .ok m ∧ ¬m.Usable := by
  have hrun : passes overflowing.build (fun m => m.rows.toList.any fun row =>
      row.entries.any fun e => !Scalar.isFinite e.2) = true := by
    decide +kernel
  obtain ⟨m, hbuild, hinfinite⟩ := passes_eq_true.mp hrun
  refine ⟨m, hbuild, fun husable => ?_⟩
  obtain ⟨row, hrow, hinfinite⟩ := List.any_eq_true.mp hinfinite
  obtain ⟨e, he, hinfinite⟩ := List.any_eq_true.mp hinfinite
  rw [(husable.coefficient row hrow e he).1] at hinfinite
  cases hinfinite

end Draft

end BranchBound
