import BranchBound.Heuristic
import BranchBound.Proofs.Assignment
import BranchBound.Proofs.Domain.WholeColumns
import BranchBound.Proofs.Model.Storage

/-!
# Simple rounding keeps the rows

A row locks a column on a side if a term of the row moves towards a finite side of the row when the
column moves to that side. Simple rounding moves a fractional column to a side on which it is not
locked, so no term moves towards a finite side of its row, and every row which held before holds
after any number of columns were moved. It gives up at a column that is locked on both sides.
-/

namespace BranchBound

open Checked Exact

/-- A term of a row with some coefficient moves towards a finite side of the row when its column
moves to the given side. -/
def Row.Locks (row : Row Exact) (side : Side) (a : Exact) : Prop :=
  match side with
  | .lower => 0 < a ∧ -Scalar.infinity < row.lower ∨ a < 0 ∧ row.upper < Scalar.infinity
  | .upper => 0 < a ∧ row.upper < Scalar.infinity ∨ a < 0 ∧ -Scalar.infinity < row.lower

instance (row : Row Exact) (side : Side) (a : Exact) : Decidable (row.Locks side a) :=
  match side with
  | .lower => inferInstanceAs (Decidable (_ ∨ _))
  | .upper => inferInstanceAs (Decidable (_ ∨ _))

/-- Some row may become violated when the column moves to a side. -/
def Model.Locked (m : Model Exact) (side : Side) (c : ColumnId) : Prop :=
  ∃ (r : RowId) (row : Row Exact) (a : Exact),
    m.rows[r]? = some row ∧ (c, a) ∈ row.entries ∧ row.Locks side a

/-- A value is farther than a tolerance from every integer. -/
def Away (f q : ℚ) : Prop := ∀ k : ℤ, f < |q - k|

theorem not_away_floor {f q : ℚ} (h : q - ⌊q⌋ ≤ f) : ¬Away f q := fun haway => by
  have hfar := haway ⌊q⌋
  rw [abs_of_nonneg (sub_nonneg.mpr (Int.floor_le q))] at hfar
  exact not_lt.mpr h hfar

theorem not_away_ceil {f q : ℚ} (h : ⌈q⌉ - q ≤ f) : ¬Away f q := fun haway => by
  have hfar := haway ⌈q⌉
  rw [abs_sub_comm, abs_of_nonneg (sub_nonneg.mpr (Int.le_ceil q))] at hfar
  exact not_lt.mpr h hfar

/-- No integer is nearer than those next to a value. -/
theorem away_of_lt {f q : ℚ} (hfloor : f < q - ⌊q⌋) (hceil : f < ⌈q⌉ - q) : Away f q := by
  intro k
  rcases le_total (k : ℚ) q with hk | hk
  · have hle : (k : ℚ) ≤ ⌊q⌋ := by exact_mod_cast Int.le_floor.mpr hk
    rw [abs_of_nonneg (sub_nonneg.mpr hk)]
    linarith
  · have hle : (⌈q⌉ : ℚ) ≤ k := by exact_mod_cast Int.ceil_le.mpr hk
    rw [abs_of_nonpos (sub_nonpos.mpr hk)]
    linarith

namespace Assignment

/-- The values of the first columns, as a point. -/
def point (x : Assignment) (n : Nat) : Array Exact := (Array.range n).map fun c => number (x c)

theorem point_getElem? (x : Assignment) {n : Nat} {c : ColumnId} (hc : c < n) :
    (x.point n)[c]? = some (number (x c)) := by
  rw [point, Array.getElem?_map, Array.getElem?_range, if_pos hc]
  rfl

theorem point_set (x : Assignment) (n : Nat) (c : ColumnId) (q : ℚ) :
    (x.point n).setIfInBounds c (number q) = Assignment.point (Function.update x c q) n := by
  apply Array.ext_getElem?
  intro i
  rw [Array.getElem?_setIfInBounds, point, point, Array.getElem?_map, Array.getElem?_map,
    Array.getElem?_range, Array.size_map, Array.size_range]
  by_cases hi : c = i
  · subst hi
    by_cases hc : c < n
    · simp [hc]
    · simp [hc]
  · rw [if_neg hi]
    by_cases hn : i < n
    · simp [hn, Function.update_of_ne (Ne.symm hi)]
    · simp [hn]

/-- If no term grows, the sum does not. -/
theorem total_le_total {x y : Assignment} {entries : List (ColumnId × Exact)}
    (h : ∀ e ∈ entries, e.2.toRat * y e.1 ≤ e.2.toRat * x e.1) :
    y.total (entries : List (ColumnId × Exact)) ≤ x.total (entries : List (ColumnId × Exact)) := by
  induction entries with
  | nil => rfl
  | cons e rest ih =>
      rw [total_coe_cons, total_coe_cons]
      exact add_le_add (h e (List.mem_cons_self ..))
        (ih fun e' he' => h e' (List.mem_cons_of_mem _ he'))

end Assignment

namespace Rounding

variable {m : Model Exact} {c : ColumnId}

/-! ### Locks -/

/-- Adds the locks of one row to the locks on both sides. -/
def countLocks (m : Model Exact) (counts : Nat × Nat) (o : RowId × Exact) :
    Checked (Nat × Nat) := do
  let row ← m.row o.1
  return (counts.1 + (decide (row.Locks .lower o.2)).toNat,
    counts.2 + (decide (row.Locks .upper o.2)).toNat)

theorem locks_eq (m : Model Exact) (c : ColumnId) :
    locks m c = (do (← fetch m.occurrences c).foldlM (countLocks m) (0, 0)) := by
  have hstep : (fun (counts : Nat × Nat) (o : RowId × Exact) => countLocks m counts o) =
      fun counts o => do
        let row ← m.row o.1
        let hasLower := decide (-Scalar.infinity < row.lower)
        let hasUpper := decide (row.upper < Scalar.infinity)
        let locksDown := (decide (0 < o.2) && hasLower) || (decide (o.2 < 0) && hasUpper)
        let locksUp := (decide (0 < o.2) && hasUpper) || (decide (o.2 < 0) && hasLower)
        return (counts.1 + locksDown.toNat, counts.2 + locksUp.toNat) := by
    have hdown (row : Row Exact) (a : Exact) : decide (row.Locks .lower a) =
        (decide (0 < a) && decide (-Scalar.infinity < row.lower) ||
          decide (a < 0) && decide (row.upper < Scalar.infinity)) := by
      rw [Bool.eq_iff_iff, decide_eq_true_iff]
      simp only [decide_eq_true_eq, Bool.or_eq_true, Bool.and_eq_true, Row.Locks]
    have hup (row : Row Exact) (a : Exact) : decide (row.Locks .upper a) =
        (decide (0 < a) && decide (row.upper < Scalar.infinity) ||
          decide (a < 0) && decide (-Scalar.infinity < row.lower)) := by
      rw [Bool.eq_iff_iff, decide_eq_true_iff]
      simp only [decide_eq_true_eq, Bool.or_eq_true, Bool.and_eq_true, Row.Locks]
    funext counts o
    simp only [countLocks, hdown, hup]
  exact congrArg (fun step => (do (← fetch m.occurrences c).foldlM step (0, 0))) hstep.symm

theorem foldlM_countLocks {found : List (RowId × Exact)} (counts : Nat × Nat)
    (hfound : ∀ o ∈ found, o.1 < m.rows.size) :
    Returns (found.foldlM (countLocks m) counts) fun total =>
      (total.1 = 0 ↔ counts.1 = 0 ∧
        ∀ o ∈ found, ∀ row, m.rows[o.1]? = some row → ¬row.Locks .lower o.2) ∧
      (total.2 = 0 ↔ counts.2 = 0 ∧
        ∀ o ∈ found, ∀ row, m.rows[o.1]? = some row → ¬row.Locks .upper o.2) := by
  induction found generalizing counts with
  | nil => exact Returns.pure (by simp)
  | cons o rest ih =>
      obtain ⟨row, hfetch, hrow⟩ := fetch_returns (hfound o (List.mem_cons_self ..))
      have hstep : countLocks m counts o =
          .ok (counts.1 + (decide (row.Locks .lower o.2)).toNat,
            counts.2 + (decide (row.Locks .upper o.2)).toNat) :=
        bind_eq_ok.mpr ⟨row, hfetch, rfl⟩
      rw [List.foldlM_cons, hstep]
      refine (ih _ fun o' ho' => hfound o' (List.mem_cons_of_mem _ ho')).mono
        fun total _ htotal => ?_
      have hzero (side : Side) (n : Nat) : n + (decide (row.Locks side o.2)).toNat = 0 ↔
          n = 0 ∧ ∀ row, m.rows[o.1]? = some row → ¬row.Locks side o.2 := by
        simp [hrow, Nat.add_eq_zero_iff]
      rw [htotal.1, htotal.2, hzero, hzero]
      simp only [List.forall_mem_cons, and_assoc, and_self]

/-- The counts tell on which sides a column is locked. -/
theorem locks_returns (h : m.WellFormed) (hc : c < m.columns.size) :
    Returns (locks m c) fun total =>
      (total.1 = 0 ↔ ¬m.Locked .lower c) ∧ (total.2 = 0 ↔ ¬m.Locked .upper c) := by
  obtain ⟨found, hfetch, hfound⟩ := fetch_returns (h.occurrences_size.symm ▸ hc)
  have hlocked (side : Side) : ¬m.Locked side c ↔
      ∀ o ∈ found, ∀ row, m.rows[o.1]? = some row → ¬row.Locks side o.2 := by
    constructor
    · intro hfree o ho row hrow hlocks
      obtain ⟨row', hrow', he⟩ := (h.mem_occurrences_iff hfound).mp ho
      obtain rfl : row' = row := Option.some.inj (hrow'.symm.trans hrow)
      exact hfree ⟨o.1, row', o.2, hrow, he, hlocks⟩
    · rintro hfree ⟨r, row, a, hrow, he, hlocks⟩
      exact hfree (r, a) ((h.mem_occurrences_iff hfound).mpr ⟨row, hrow, he⟩) row hrow hlocks
  rw [locks_eq, hfetch]
  refine (foldlM_countLocks (0, 0) (h.row_lt c found hfound)).mono fun total _ htotal => ?_
  rw [hlocked, hlocked]
  exact ⟨htotal.1.trans (and_iff_right rfl), htotal.2.trans (and_iff_right rfl)⟩

/-! ### Rounding one column -/

/-- A column is fractional and locked on both sides. -/
def Blocked (m : Model Exact) (f : ℚ) (c : ColumnId) (q : ℚ) : Prop :=
  Away f q ∧ m.Locked .lower c ∧ m.Locked .upper c

/-- No row may become violated when a column moves from one value to another one. -/
structure Moves (m : Model Exact) (c : ColumnId) (q p : ℚ) : Prop where
  down : p < q → ¬m.Locked .lower c
  up : q < p → ¬m.Locked .upper c

theorem Moves.refl (m : Model Exact) (c : ColumnId) (q : ℚ) : Moves m c q q :=
  ⟨fun h => absurd h (lt_irrefl q), fun h => absurd h (lt_irrefl q)⟩

/-- A value is rounded to an integer next to it, unless its column is blocked. -/
theorem roundValue_returns {f q : ℚ} (h : m.WellFormed) (hc : c < m.columns.size)
    (hq : (∃ k : ℤ, q = k) ∨ Away f q) :
    Returns (roundValue m (number f) c (number q)) fun result =>
      (result = none ∧ Blocked m f c q) ∨
      ∃ k : ℤ, result = some (number k) ∧ (k = ⌊q⌋ ∨ k = ⌈q⌉) ∧ Moves m c q k ∧
        ¬Blocked m f c q := by
  have hwhole (haway : ¬Away f q) : (⌊q⌋ : ℚ) = q ∧ (⌈q⌉ : ℚ) = q := by
    obtain ⟨k, rfl⟩ := hq.resolve_right haway
    simp
  have hfloor : Scalar.floor (number q) = number ⌊q⌋ := rfl
  have hceil : Scalar.ceil (number q) = number ⌈q⌉ := rfl
  simp only [roundValue, hfloor, hceil, number_sub, number_le]
  by_cases hdown : q - ⌊q⌋ ≤ f
  · have haway := not_away_floor hdown
    rw [if_pos hdown]
    refine Returns.pure (.inr ⟨⌊q⌋, rfl, .inl rfl, ?_, fun hblocked => haway hblocked.1⟩)
    rw [(hwhole haway).1]
    exact Moves.refl m c q
  · rw [if_neg hdown]
    by_cases hup : ⌈q⌉ - q ≤ f
    · have haway := not_away_ceil hup
      rw [if_pos hup]
      refine Returns.pure (.inr ⟨⌈q⌉, rfl, .inr rfl, ?_, fun hblocked => haway hblocked.1⟩)
      rw [(hwhole haway).2]
      exact Moves.refl m c q
    · rw [if_neg hup]
      have haway := away_of_lt (not_le.mp hdown) (not_le.mp hup)
      obtain ⟨⟨down, up⟩, hlocks, hlower, hupper⟩ := locks_returns h hc
      rw [hlocks, ok_bind]
      cases down with
      | zero =>
          have hfree : ¬m.Locked .lower c := hlower.mp rfl
          refine Returns.pure (.inr ⟨⌊q⌋, rfl, .inl rfl, ⟨fun _ => hfree, fun hlt => ?_⟩,
            fun hblocked => hfree hblocked.2.1⟩)
          exact absurd hlt (not_lt.mpr (Int.floor_le q))
      | succ down =>
          cases up with
          | zero =>
              have hfree : ¬m.Locked .upper c := hupper.mp rfl
              refine Returns.pure (.inr ⟨⌈q⌉, rfl, .inr rfl, ⟨fun hlt => ?_, fun _ => hfree⟩,
                fun hblocked => hfree hblocked.2.2⟩)
              exact absurd hlt (not_lt.mpr (Int.le_ceil q))
          | succ up =>
              have hlockedLower := not_not.mp (mt hlower.mpr (Nat.succ_ne_zero down))
              have hlockedUpper := not_not.mp (mt hupper.mpr (Nat.succ_ne_zero up))
              exact Returns.pure (.inl ⟨rfl, haway, hlockedLower, hlockedUpper⟩)

theorem le_floor_of_isWhole {l : Exact} {q : ℚ} (hwhole : IsWhole l) (h : l ≤ number q) :
    l ≤ number ⌊q⌋ := by
  rcases hwhole with rfl | rfl | ⟨k, rfl⟩
  · cases h
  · rfl
  · rw [number_le] at h ⊢
    exact_mod_cast Int.le_floor.mpr h

theorem ceil_le_of_isWhole {u : Exact} {q : ℚ} (hwhole : IsWhole u) (h : number q ≤ u) :
    number ⌈q⌉ ≤ u := by
  rcases hwhole with rfl | rfl | ⟨k, rfl⟩
  · rfl
  · cases h
  · rw [number_le] at h ⊢
    exact_mod_cast Int.ceil_le.mpr h

/-- The integers next to a value within whole bounds are within them, too. -/
theorem holds_of_next {x y : Assignment} {v : Exact} {side : Side} (hwhole : IsWhole v)
    (hx : x.reading.Holds ⟨c, side, v⟩) {k : ℤ} (hk : k = ⌊x c⌋ ∨ k = ⌈x c⌉) (hy : y c = k) :
    y.reading.Holds ⟨c, side, v⟩ := by
  have hnext : (⌊x c⌋ : ℚ) ≤ k ∧ (k : ℚ) ≤ ⌈x c⌉ := by
    rcases hk with rfl | rfl
    · exact ⟨le_rfl, by exact_mod_cast Int.floor_le_ceil (x c)⟩
    · exact ⟨by exact_mod_cast Int.floor_le_ceil (x c), le_rfl⟩
  cases side with
  | lower =>
      change v ≤ number (y c)
      rw [hy]
      exact Exact.le_trans (le_floor_of_isWhole hwhole hx) (number_le.mpr hnext.1)
  | upper =>
      change number (y c) ≤ v
      rw [hy]
      exact Exact.le_trans (number_le.mpr hnext.2) (ceil_le_of_isWhole hwhole hx)

/-- A value within its bounds is not moved by them. -/
theorem clamp_inside {q : ℚ} {l u : Exact} (hl : l ≤ number q) (hu : number q ≤ u) :
    Scalar.min (Scalar.max (number q) l) u = number q := by
  have hmax : Scalar.max (number q) l = number q := by
    cases l with
    | number r => exact if_neg fun hlt => not_lt.mpr (number_le.mp hl) (number_lt.mp hlt)
    | minus => rfl
    | plus | nan => cases hl
  rw [hmax]
  cases u with
  | number r => exact if_neg fun hlt => not_lt.mpr (number_le.mp hu) (number_lt.mp hlt)
  | plus => rfl
  | minus | nan => cases hu

/-! ### Rounding all columns -/

variable {d : Domain Exact} {f : ℚ}

/-- What rounding some columns of an assignment leads to. -/
structure Rounded (m : Model Exact) (f : ℚ) (columns : List ColumnId) (x y : Assignment) :
    Prop where
  others : ∀ c, c ∉ columns → y c = x c
  whole : ∀ c ∈ columns, ∃ k : ℤ, y c = k ∧ (k = ⌊x c⌋ ∨ k = ⌈x c⌉)
  moves : ∀ c ∈ columns, Moves m c (x c) (y c)
  free : ∀ c ∈ columns, ¬Blocked m f c (x c)

/-- A column that can be rounded within its bounds, if it is not blocked. -/
structure Roundable (d : Domain Exact) (f : ℚ) (x : Assignment) (c : ColumnId) : Prop where
  lt : c < d.model.columns.size
  apart : (∃ k : ℤ, x c = k) ∨ Away f (x c)
  whole : ∀ side, IsWhole (d.values side c)
  inside : ∀ side, x.reading.Holds ⟨c, side, d.values side c⟩

theorem Roundable.congr {x x' : Assignment} (h : Roundable d f x c) (hsame : x' c = x c) :
    Roundable d f x' c :=
  ⟨h.lt, by rw [hsame]; exact h.apart, h.whole,
    fun side => (Assignment.holds_congr hsame).mpr (h.inside side)⟩

/-- Rounding one column and then others is rounding all of them. -/
theorem Rounded.cons {rest : List ColumnId} (hc : c ∉ rest) {x y : Assignment} {k : ℤ}
    (hk : k = ⌊x c⌋ ∨ k = ⌈x c⌉) (hmoves : Moves m c (x c) k) (hfree : ¬Blocked m f c (x c))
    (h : Rounded m f rest (Function.update x c k) y) : Rounded m f (c :: rest) x y := by
  have hother {c' : ColumnId} (hc' : c' ∈ rest) : Function.update x c (k : ℚ) c' = x c' :=
    Function.update_of_ne (fun heq : c' = c => hc (heq ▸ hc')) _ _
  have hfirst : y c = k := (h.others c hc).trans (Function.update_self ..)
  refine ⟨fun c' hc' => ?_, fun c' hc' => ?_, fun c' hc' => ?_, fun c' hc' => ?_⟩
  · rw [List.mem_cons, not_or] at hc'
    rw [h.others c' hc'.2, Function.update_of_ne hc'.1]
  · rcases List.mem_cons.mp hc' with rfl | hc'
    · exact ⟨k, hfirst, hk⟩
    · exact hother hc' ▸ h.whole c' hc'
  · rcases List.mem_cons.mp hc' with rfl | hc'
    · exact hfirst ▸ hmoves
    · exact hother hc' ▸ h.moves c' hc'
  · rcases List.mem_cons.mp hc' with rfl | hc'
    · exact hfree
    · exact hother hc' ▸ h.free c' hc'

theorem roundColumns_returns (h : d.model.WellFormed)
    (hsize : ∀ side, (d.bounds side).size = d.model.columns.size) {columns : List ColumnId}
    (hnodup : columns.Nodup) {x : Assignment} (hcolumns : ∀ c ∈ columns, Roundable d f x c) :
    Returns (roundColumns d (number f) columns (x.point d.model.columns.size)) fun result =>
      (result = none ∧ ∃ c ∈ columns, Blocked d.model f c (x c)) ∨
      ∃ y : Assignment, result = some (y.point d.model.columns.size) ∧
        Rounded d.model f columns x y := by
  induction columns generalizing x with
  | nil => exact Returns.pure (.inr ⟨x, rfl, fun _ _ => rfl, by simp, by simp, by simp⟩)
  | cons c rest ih =>
      obtain ⟨hc, hrest⟩ := List.nodup_cons.mp hnodup
      have hround := hcolumns c (List.mem_cons_self ..)
      have hfetch : fetch (x.point d.model.columns.size) c = .ok (number (x c)) :=
        fetch_eq_ok.mpr (x.point_getElem? hround.lt)
      have hvalue (side : Side) : d.boundValue side c = .ok (d.values side c) :=
        Domain.boundValue_of_lt ((hsize side).symm ▸ hround.lt)
      rw [roundColumns, hfetch, ok_bind]
      refine Returns.bind (roundValue_returns h hround.lt hround.apart) fun result _ hresult => ?_
      rcases hresult with ⟨rfl, hblocked⟩ | ⟨k, rfl, hk, hmoves, hfree⟩
      · exact Returns.pure (.inl ⟨rfl, c, List.mem_cons_self .., hblocked⟩)
      · have hself : (Function.update x c (k : ℚ)) c = k := Function.update_self ..
        have hother {c' : ColumnId} (hc' : c' ∈ rest) : Function.update x c (k : ℚ) c' = x c' :=
          Function.update_of_ne (fun heq : c' = c => hc (heq ▸ hc')) _ _
        have hl := holds_of_next (hround.whole .lower) (hround.inside .lower) hk hself
        have hu := holds_of_next (hround.whole .upper) (hround.inside .upper) hk hself
        have hstore : store (x.point d.model.columns.size) c
            (Scalar.min (Scalar.max (number k) (d.values .lower c)) (d.values .upper c)) =
              .ok (Assignment.point (Function.update x c k) d.model.columns.size) := by
          rw [clamp_inside (hself ▸ hl) (hself ▸ hu)]
          refine store_eq_ok.mpr ⟨?_, x.point_set _ c k⟩
          rw [Assignment.point, Array.size_map, Array.size_range]
          exact hround.lt
        dsimp only
        rw [hvalue .lower, ok_bind, hvalue .upper, ok_bind, hstore, ok_bind]
        refine (ih hrest fun c' hc' =>
          (hcolumns c' (List.mem_cons_of_mem _ hc')).congr (hother hc')).mono
            fun result _ hresult => ?_
        rcases hresult with ⟨rfl, c', hc', hblocked⟩ | ⟨y, rfl, hy⟩
        · rw [hother hc'] at hblocked
          exact .inl ⟨rfl, c', List.mem_cons_of_mem _ hc', hblocked⟩
        · exact .inr ⟨y, rfl, hy.cons hc hk hmoves hfree⟩

end Rounding

/-! ### Rows after rounding -/

section Rows

variable {m : Model Exact} {r : RowId} {row : Row Exact} {x y : Assignment} {c : ColumnId} {a : ℚ}

/-- A term of a row with a finite lower side does not fall. -/
theorem Rounding.Moves.term_le (h : Rounding.Moves m c (x c) (y c)) (hrow : m.rows[r]? = some row)
    (he : (c, number a) ∈ row.entries) (hlower : -Scalar.infinity < row.lower) :
    a * x c ≤ a * y c := by
  have hlocked {side : Side} (hlocks : row.Locks side (number a)) : m.Locked side c :=
    ⟨r, row, number a, hrow, he, hlocks⟩
  rcases lt_trichotomy (x c) (y c) with hlt | heq | hlt
  · have hnonneg : 0 ≤ a := not_lt.mp fun hneg =>
      h.up hlt (hlocked (.inr ⟨by simpa using hneg, hlower⟩))
    exact mul_le_mul_of_nonneg_left hlt.le hnonneg
  · rw [heq]
  · have hnonpos : a ≤ 0 := not_lt.mp fun hpos =>
      h.down hlt (hlocked (.inl ⟨by simpa using hpos, hlower⟩))
    exact mul_le_mul_of_nonpos_left hlt.le hnonpos

/-- A term of a row with a finite upper side does not rise. -/
theorem Rounding.Moves.le_term (h : Rounding.Moves m c (x c) (y c)) (hrow : m.rows[r]? = some row)
    (he : (c, number a) ∈ row.entries) (hupper : row.upper < Scalar.infinity) :
    a * y c ≤ a * x c := by
  have hlocked {side : Side} (hlocks : row.Locks side (number a)) : m.Locked side c :=
    ⟨r, row, number a, hrow, he, hlocks⟩
  rcases lt_trichotomy (x c) (y c) with hlt | heq | hlt
  · have hnonpos : a ≤ 0 := not_lt.mp fun hpos =>
      h.up hlt (hlocked (.inl ⟨by simpa using hpos, hupper⟩))
    exact mul_le_mul_of_nonpos_left hlt.le hnonpos
  · rw [heq]
  · have hnonneg : 0 ≤ a := not_lt.mp fun hneg =>
      h.down hlt (hlocked (.inr ⟨by simpa using hneg, hupper⟩))
    exact mul_le_mul_of_nonneg_left hlt.le hnonneg

/-- A row that held before holds after columns were moved to sides on which they are not locked. -/
theorem Assignment.SatisfiesRow.moved (h : x.SatisfiesRow row) (hrow : m.rows[r]? = some row)
    (hnumbers : ∀ e ∈ row.entries, ∃ q, e.2 = number q)
    (hmoves : ∀ c, Rounding.Moves m c (x c) (y c)) : y.SatisfiesRow row := by
  constructor
  · rcases Decidable.em (-Scalar.infinity < row.lower) with hlower | hlower
    · refine Exact.le_trans h.1 (number_le.mpr (Assignment.total_le_total fun e he => ?_))
      obtain ⟨a, ha⟩ := hnumbers e he
      rw [ha, toRat_number]
      exact (hmoves e.1).term_le hrow (ha ▸ he) hlower
    · exact Exact.le_trans (le_of_not_lt Exact.noConfusion (not_nan_of_le h.1).1 hlower) rfl
  · rcases Decidable.em (row.upper < Scalar.infinity) with hupper | hupper
    · refine Exact.le_trans (number_le.mpr (Assignment.total_le_total fun e he => ?_)) h.2
      obtain ⟨a, ha⟩ := hnumbers e he
      rw [ha, toRat_number]
      exact (hmoves e.1).le_term hrow (ha ▸ he) hupper
    · exact Exact.le_trans rfl (le_of_not_lt (not_nan_of_le h.2).2 Exact.noConfusion hupper)

end Rows

namespace Rounding

/-- **Simple rounding keeps every row satisfied.** At a relaxation solution within the box of a
domain with whole bounds on the integer columns, at which every row holds and every integer column
is either integral or farther than the tolerance from every integer, simple rounding has an answer.
A point it returns is integral on the integer columns, within the box, and every row holds there. It
returns none exactly if a column that is farther than the tolerance from every integer is locked on
both sides; with a tolerance that is not negative, these columns are those that are not integral. -/
theorem rounding_keeps_rows {draft : Draft Exact} {d : Domain Exact}
    (hbuild : draft.build = .ok d.model)
    (hsize : ∀ side, (d.bounds side).size = d.model.columns.size)
    (hwhole : ∀ c, d.model.IsIntegerColumn c → ∀ side, IsWhole (d.values side c)) {f : ℚ}
    {x : Assignment} {solution : RelaxationSolution Exact}
    (hvalues : solution.values = x.point d.model.columns.size)
    (hbox : x.reading.Inside d.values d.model.columns.size)
    (hrows : ∀ row ∈ d.model.rows, x.SatisfiesRow row)
    (hapart : ∀ c, d.model.IsIntegerColumn c → (∃ k : ℤ, x c = k) ∨ Away f (x c)) :
    ∃ result, Rounding.find (number f) d solution = .ok result ∧
      (∀ point, result = some point → ∃ y : Assignment, point = y.point d.model.columns.size ∧
        y.WholeOn d.model ∧ y.reading.Inside d.values d.model.columns.size ∧
        ∀ row ∈ d.model.rows, y.SatisfiesRow row) ∧
      (result = none ↔ ∃ c, d.model.IsIntegerColumn c ∧ Away f (x c) ∧
        d.model.Locked .lower c ∧ d.model.Locked .upper c) ∧
      (0 ≤ f → ∀ c, d.model.IsIntegerColumn c → (Away f (x c) ↔ ¬∃ k : ℤ, x c = k)) := by
  have hmodel := Draft.wellFormed_of_build hbuild
  have hroundable : ∀ c ∈ d.model.integerColumns, Roundable d f x c := by
    intro c hc
    have hinteger := Model.mem_integerColumns.mp hc
    have hlt : c < d.model.columns.size := by
      obtain ⟨column, hcolumn, -⟩ := hinteger
      exact (Array.getElem?_eq_some_iff.mp hcolumn).1
    exact ⟨hlt, hapart c hinteger, hwhole c hinteger, fun side => hbox side c hlt⟩
  have hnodup : d.model.integerColumns.Nodup := List.nodup_range.filter _
  have hfind : Rounding.find (number f) d solution =
      roundColumns d (number f) d.model.integerColumns (x.point d.model.columns.size) := by
    rw [Rounding.find, hvalues, if_neg]
    simp [Assignment.point, Model.columnCount]
  have hfractional (hf : 0 ≤ f) (c : ColumnId) (hc : d.model.IsIntegerColumn c) :
      Away f (x c) ↔ ¬∃ k : ℤ, x c = k := by
    refine ⟨fun haway hintegral => ?_, (hapart c hc).resolve_left⟩
    obtain ⟨k, hk⟩ := hintegral
    have hfar := haway k
    rw [hk, sub_self, abs_zero] at hfar
    exact not_lt.mpr hf hfar
  obtain ⟨result, hresult, hcases⟩ := roundColumns_returns hmodel hsize hnodup hroundable
  refine ⟨result, hfind.trans hresult, ?_, ?_, hfractional⟩
  · rintro point rfl
    rcases hcases with ⟨hnone, -⟩ | ⟨y, hpoint, hy⟩
    · cases hnone
    · have hmoves : ∀ c, Moves d.model c (x c) (y c) := fun c => by
        by_cases hc : c ∈ d.model.integerColumns
        · exact hy.moves c hc
        · rw [hy.others c hc]
          exact Moves.refl _ _ _
      refine ⟨y, Option.some.inj hpoint, fun c column hcolumn hkind => ?_, fun side c hc => ?_,
        fun row hrow => ?_⟩
      · obtain ⟨k, hk, -⟩ := hy.whole c (Model.mem_integerColumns.mpr ⟨column, hcolumn, hkind⟩)
        exact ⟨k, hk⟩
      · by_cases hmem : c ∈ d.model.integerColumns
        · obtain ⟨k, hk, hnext⟩ := hy.whole c hmem
          have hround := hroundable c hmem
          exact holds_of_next (hround.whole side) (hround.inside side) hnext hk
        · exact (Assignment.holds_congr (hy.others c hmem)).mpr (hbox side c hc)
      · obtain ⟨r, hr⟩ := Array.mem_iff_getElem?.mp hrow
        exact (hrows row hrow).moved hr (Draft.number_of_build hbuild hr) hmoves
  · constructor
    · rintro rfl
      rcases hcases with ⟨-, c, hc, hblocked⟩ | ⟨y, hpoint, -⟩
      · exact ⟨c, Model.mem_integerColumns.mp hc, hblocked⟩
      · cases hpoint
    · rintro ⟨c, hc, hblocked⟩
      rcases hcases with ⟨hnone, -⟩ | ⟨y, -, hy⟩
      · exact hnone
      · exact absurd hblocked (hy.free c (Model.mem_integerColumns.mpr hc))

/-- Two integer columns and a continuous one. The first column is locked above by a row with an
upper side, and the second one below by a row with a lower side. -/
def oppositeLocks : Draft Exact :=
  ⟨#[⟨0, 0, 4, .integer⟩, ⟨0, 0, 4, .integer⟩, ⟨0, 0, 4, .continuous⟩],
    #[⟨minus, 4, [(0, 1), (2, 1)]⟩, ⟨3, plus, [(1, 1), (2, 1)]⟩], 0⟩

/-- The values three halves for the integer columns, and two for the continuous one. -/
def halves : Assignment := fun c => if c = 2 then 2 else 3 / 2

/-- One column is rounded down and the other one up, and both rows hold afterwards. -/
theorem oppositeLocks_rounded : ∃ d : Domain Exact, oppositeLocks.build = .ok d.model ∧
    Rounding.find (number (1 / 1000000)) d ⟨halves.point 3, 0, none, 0⟩ = .ok (some #[1, 2, 2]) ∧
    ∃ y : Assignment, #[1, 2, 2] = y.point d.model.columns.size ∧ y.WholeOn d.model ∧
      y.reading.Inside d.values d.model.columns.size ∧
      ∀ row ∈ d.model.rows, y.SatisfiesRow row := by
  have hrun : passes oppositeLocks.build (fun m => passes (Domain.ofModel m 1e-6) fun d =>
      m.columns.size == 3 &&
        ((List.range 3).all fun c => decide (d.values .lower c = number 0 ∧
          d.values .upper c = number 4)) &&
        (m.rows.all fun row => decide (
          row.lower ≤ number (halves.total (row.entries : List (ColumnId × Exact))) ∧
          number (halves.total (row.entries : List (ColumnId × Exact))) ≤ row.upper)) &&
        passes (Rounding.find (number (1 / 1000000)) d ⟨halves.point 3, 0, none, 0⟩)
          fun result => decide (result = some #[1, 2, 2])) = true := by
    decide +kernel
  obtain ⟨m, hm, hrun⟩ := passes_eq_true.mp hrun
  obtain ⟨d, hd, hrun⟩ := passes_eq_true.mp hrun
  simp only [Bool.and_eq_true, beq_iff_eq, List.all_eq_true, List.mem_range, decide_eq_true_eq,
    Array.all_eq_true_iff_forall_mem, passes_eq_true] at hrun
  obtain ⟨⟨⟨hcolumns, hbounds⟩, hrows⟩, result, hresult, rfl⟩ := hrun
  have hmodel : d.model = m :=
    (.start hd : Reachable (fun _ _ => True) m 1e-6 ⟨.empty, d⟩).constant.1
  subst hmodel
  have hsize (side : Side) : (d.bounds side).size = d.model.columns.size := by
    rw [← Domain.trail_bounds, Domain.ofModel_trail hd]
    exact Trail.bounds_ofModel_size _ side
  have hbox : halves.reading.Inside d.values d.model.columns.size := by
    intro side c hc
    obtain ⟨hlower, hupper⟩ := hbounds c (hcolumns ▸ hc)
    cases side with
    | lower =>
        change d.values .lower c ≤ number (halves c)
        rw [hlower, number_le, halves]
        split <;> norm_num
    | upper =>
        change number (halves c) ≤ d.values .upper c
        rw [hupper, number_le, halves]
        split <;> norm_num
  have hwhole : ∀ c, d.model.IsIntegerColumn c → ∀ side, IsWhole (d.values side c) := by
    rintro c ⟨column, hcolumn, -⟩ side
    obtain ⟨hlower, hupper⟩ := hbounds c (hcolumns ▸ (Array.getElem?_eq_some_iff.mp hcolumn).1)
    cases side with
    | lower => exact .inr (.inr ⟨0, by rw [hlower, Int.cast_zero]⟩)
    | upper => exact .inr (.inr ⟨4, by rw [hupper, Int.cast_ofNat]⟩)
  have hapart : ∀ c, d.model.IsIntegerColumn c →
      (∃ k : ℤ, halves c = k) ∨ Away (1 / 1000000) (halves c) := by
    intro c _
    rw [halves]
    split
    · exact .inl ⟨2, by norm_num⟩
    · have hfloor : ⌊(3 / 2 : ℚ)⌋ = 1 := by norm_num
      have hceil : ⌈(3 / 2 : ℚ)⌉ = 2 := by norm_num
      exact .inr (away_of_lt (by rw [hfloor]; norm_num) (by rw [hceil]; norm_num))
  have hvalues : (⟨halves.point 3, 0, none, 0⟩ : RelaxationSolution Exact).values =
      halves.point d.model.columns.size := by
    rw [hcolumns]
  obtain ⟨result, hfind, hpoint, -⟩ := rounding_keeps_rows hm hsize hwhole hvalues hbox hrows hapart
  obtain rfl : some #[1, 2, 2] = result := Except.ok.inj (hresult.symm.trans hfind)
  exact ⟨d, hm, hresult, hpoint _ rfl⟩

end Rounding

end BranchBound
