import BranchBound.Proofs.Domain.Derivation

/-!
# The numbers of a built model

Read over exact numbers, the checks of a draft leave only rationals as costs and coefficients, and
only numbers and infinities as bounds; bounds of integer columns are whole.
-/

namespace BranchBound

open Checked Exact

namespace Draft

theorem number_of_isFinite {x : Exact} (h : ¬(!Scalar.isFinite x) = true) : ∃ q, x = number q := by
  rw [Bool.not_eq_true, Bool.not_eq_false'] at h
  exact isFinite_iff.mp h

theorem not_nan_of_isNaN {x : Exact} (h : ¬Scalar.isNaN x = true) : x ≠ nan := by
  rintro rfl
  exact h rfl

theorem isWhole_floor {x : Exact} (hx : x ≠ nan) : IsWhole (Scalar.floor x) := by
  cases x with
  | number q => exact .inr (.inr ⟨⌊q⌋, rfl⟩)
  | plus => exact .inl rfl
  | minus => exact .inr (.inl rfl)
  | nan => exact absurd rfl hx

theorem isWhole_ceil {x : Exact} (hx : x ≠ nan) : IsWhole (Scalar.ceil x) := by
  cases x with
  | number q => exact .inr (.inr ⟨⌈q⌉, rfl⟩)
  | plus => exact .inl rfl
  | minus => exact .inr (.inl rfl)
  | nan => exact absurd rfl hx

/-- What a column promises once it is checked. -/
structure CheckedColumn (column : Column Exact) : Prop where
  cost : ∃ q, column.cost = number q
  lower : column.lower ≠ nan
  upper : column.upper ≠ nan
  whole : column.kind = .integer → IsWhole column.lower ∧ IsWhole column.upper
  ordered : column.lower ≤ column.upper

theorem checkColumn_eq_ok {c : ColumnId} {column checked : Column Exact}
    (h : checkColumn c column = .ok checked) : CheckedColumn checked := by
  unfold checkColumn at h
  split at h
  · cases h
  · next hcost =>
    split at h
    · cases h
    · next hlower =>
      split at h
      · cases h
      · next hupper =>
        split at h
        · cases h
        · split at h
          · cases h
          · have hlower := not_nan_of_isNaN hlower
            have hupper := not_nan_of_isNaN hupper
            dsimp only at h
            split at h
            · next hkind =>
              have hceil := isWhole_ceil (sub_number_not_nan hlower _ :
                column.lower - integralityTolerance ≠ nan)
              have hfloor := isWhole_floor (add_number_not_nan hupper _ :
                column.upper + integralityTolerance ≠ nan)
              split at h
              · cases h
              · next hinverted =>
                cases h
                have hordered := le_of_not_lt (Range.whole.not_nan _ hfloor)
                  (Range.whole.not_nan _ hceil) hinverted
                exact ⟨number_of_isFinite hcost, Range.whole.not_nan _ hceil,
                  Range.whole.not_nan _ hfloor, fun _ => ⟨hceil, hfloor⟩, hordered⟩
            · next hkind =>
              split at h
              · cases h
              · next hinverted =>
                cases h
                refine ⟨number_of_isFinite hcost, hlower, hupper, fun hinteger => ?_,
                  le_of_not_lt hupper hlower hinverted⟩
                cases hkind.symm.trans hinteger

theorem number_addEntry {c : ColumnId} {a : Exact} {entries : List (ColumnId × Exact)}
    (ha : ∃ q, a = number q) (hentries : ∀ e ∈ entries, ∃ q, e.2 = number q) :
    ∀ e ∈ addEntry c a entries, ∃ q, e.2 = number q := by
  obtain ⟨q, rfl⟩ := ha
  induction entries with
  | nil =>
      intro e he
      rw [List.mem_singleton.mp he]
      exact ⟨0 + q, by simp⟩
  | cons head rest ih =>
      obtain ⟨c', a'⟩ := head
      obtain ⟨r, rfl⟩ : ∃ r, a' = number r := hentries _ (List.mem_cons_self ..)
      have hrest : ∀ e ∈ rest, ∃ q, e.2 = number q :=
        fun e he => hentries e (List.mem_cons_of_mem _ he)
      intro e he
      simp only [addEntry] at he
      split at he
      · rcases List.mem_cons.mp he with rfl | he
        · exact ⟨0 + q, by simp⟩
        · exact hentries e he
      · split at he
        · rcases List.mem_cons.mp he with rfl | he
          · exact ⟨r + q, rfl⟩
          · exact hrest e he
        · rcases List.mem_cons.mp he with rfl | he
          · exact ⟨r, rfl⟩
          · exact ih hrest e he

theorem number_mergeEntries {r : RowId} {columnCount : Nat}
    {merged entries result : List (ColumnId × Exact)}
    (h : mergeEntries r columnCount merged entries = .ok result)
    (hmerged : ∀ e ∈ merged, ∃ q, e.2 = number q) : ∀ e ∈ result, ∃ q, e.2 = number q := by
  induction entries generalizing merged with
  | nil =>
      cases h
      exact hmerged
  | cons entry rest ih =>
      simp only [mergeEntries] at h
      split at h
      · cases h
      · split at h
        · cases h
        · next hfinite => exact ih h (number_addEntry (number_of_isFinite hfinite) hmerged)

theorem number_checkRow {columnCount : Nat} {r : RowId} {row checked : Row Exact}
    (h : checkRow columnCount r row = .ok checked) :
    ∀ e ∈ checked.entries, ∃ q, e.2 = number q := by
  unfold checkRow at h
  split at h
  · cases h
  · simp only [bind_eq_ok, pure_eq_ok] at h
    obtain ⟨merged, hmerged, rfl⟩ := h
    exact fun e he => number_mergeEntries hmerged (fun e he => by cases he) e
      (List.mem_of_mem_filter he)

variable {d : Draft Exact} {m : Model Exact}

theorem checkedColumn_of_build (h : d.build = .ok m) {c : ColumnId} {column : Column Exact}
    (hcolumn : m.columns[c]? = some column) : CheckedColumn column := by
  obtain ⟨given, -, hcheck⟩ := checkColumn_of_build h hcolumn
  exact checkColumn_eq_ok hcheck

theorem number_of_build (h : d.build = .ok m) {r : RowId} {row : Row Exact}
    (hrow : m.rows[r]? = some row) : ∀ e ∈ row.entries, ∃ q, e.2 = number q := by
  obtain ⟨given, -, hcheck⟩ := checkRow_of_build h hrow
  exact number_checkRow hcheck

/-- No row of a built model has a zero coefficient. -/
theorem nonzero_of_build (h : d.build = .ok m) {r : RowId} {row : Row Exact}
    (hrow : m.rows[r]? = some row) : ∀ e ∈ row.entries, e.2 ≠ number 0 := by
  obtain ⟨given, -, hcheck⟩ := checkRow_of_build h hrow
  unfold checkRow at hcheck
  split at hcheck
  · cases hcheck
  · simp only [bind_eq_ok, pure_eq_ok] at hcheck
    obtain ⟨merged, -, rfl⟩ := hcheck
    rintro ⟨c, a⟩ he rfl
    simpa [bne, number_beq] using (List.mem_filter.mp he).2

/-- A point that passes the check of a built model has a rational objective value above the
offset. -/
theorem objectiveValue_of_check (h : d.build = .ok m) {point : Array Exact} {feastol : Exact}
    (hcheck : m.check point feastol = true) :
    ∃ q, m.objectiveValue point = m.offset + number q := by
  refine ⟨_, congrArg (m.offset + ·) (sum_eq fun term hterm => ?_)⟩
  obtain ⟨⟨column, x⟩, hmem, rfl⟩ := List.mem_map.mp hterm
  obtain ⟨c, hc, hcolumn⟩ := Array.mem_iff_getElem.mp
    (Array.mem_toList_iff.mp (List.of_mem_zip hmem).1)
  obtain ⟨cost, hcost⟩ := (checkedColumn_of_build h
    (Array.getElem?_eq_some_iff.mpr ⟨hc, hcolumn⟩)).cost
  have hfinite : Scalar.isFinite x = true := by
    unfold Model.check at hcheck
    split at hcheck
    · cases hcheck
    · rw [Bool.and_eq_true, List.all_eq_true] at hcheck
      have haccepts := hcheck.1 (column, x) hmem
      simp only [Model.columnAccepts, Bool.and_eq_true] at haccepts
      exact haccepts.1.1.1
  obtain ⟨value, rfl⟩ := isFinite_iff.mp hfinite
  exact ⟨cost * value, by simp [hcost]⟩

/-- The numbers of a built model can be summed exactly. -/
theorem readable_of_build (h : d.build = .ok m) : Domain.Readable (.exact .any) m where
  coefficients := fun _ _ hrow => number_of_build h hrow
  costs := fun _ _ hcolumn => (checkedColumn_of_build h hcolumn).cost
  bounds := fun _ _ hcolumn =>
    ⟨(checkedColumn_of_build h hcolumn).lower, (checkedColumn_of_build h hcolumn).upper⟩

end Draft

end BranchBound
