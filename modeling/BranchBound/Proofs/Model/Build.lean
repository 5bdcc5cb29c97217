import BranchBound.Proofs.Checked
import BranchBound.Proofs.Model.Transposition

/-!
# What a built model promises

`Draft.build` checks every column and row once, and everything afterwards relies on it. A
well-formed model has its entries within its columns, lists every column at most once in a row, and
finds through a column exactly the entries which the rows have in it.
-/

namespace BranchBound

open Checked

variable {α : Type}

/-- The two copies of the matrix of a model fit together. -/
structure Model.WellFormed (m : Model α) : Prop where
  occurrences_size : m.occurrences.size = m.columns.size
  entry_lt : ∀ (r : RowId) (row : Row α), m.rows[r]? = some row →
    ∀ e ∈ row.entries, e.1 < m.columns.size
  increasing : ∀ (r : RowId) (row : Row α), m.rows[r]? = some row →
    row.entries.Pairwise fun e e' => e.1 < e'.1
  row_lt : ∀ (c : ColumnId) (found : List (RowId × α)), m.occurrences[c]? = some found →
    ∀ o ∈ found, o.1 < m.rows.size
  occurrences_eq : ∀ (c : ColumnId) (found : List (RowId × α)) (r : RowId) (row : Row α),
    m.occurrences[c]? = some found → m.rows[r]? = some row →
    (found.filter fun o => o.1 = r).map Prod.snd =
      (row.entries.filter fun e => e.1 = c).map Prod.snd

namespace Draft

/-- Every element of a checked list has passed the check at its position. -/
theorem checkAll_eq_ok {β ε : Type} {check : Nat → β → Except ε β} {position : Nat}
    {xs ys : List β} (h : checkAll check position xs = .ok ys) :
    ys.length = xs.length ∧ ∀ i y, ys[i]? = some y →
      ∃ x, xs[i]? = some x ∧ check (position + i) x = .ok y := by
  induction xs generalizing position ys with
  | nil =>
      cases h
      exact ⟨rfl, fun i y hy => by simp at hy⟩
  | cons x xs ih =>
      simp only [checkAll, bind_eq_ok, pure_eq_ok] at h
      obtain ⟨y, hy, rest, hrest, rfl⟩ := h
      obtain ⟨hlength, hget⟩ := ih hrest
      refine ⟨by rw [List.length_cons, List.length_cons, hlength], fun i z hz => ?_⟩
      cases i with
      | zero =>
          obtain rfl : y = z := by simpa using hz
          exact ⟨x, rfl, hy⟩
      | succ i =>
          obtain ⟨x', hx', hcheck⟩ := hget i z (by simpa using hz)
          exact ⟨x', by simpa using hx', by rw [← hcheck]; congr 1; omega⟩

section Merge

variable [Scalar α]

theorem mem_addEntry {c : ColumnId} {a : α} {entries : List (ColumnId × α)} {e : ColumnId × α}
    (he : e ∈ addEntry c a entries) : e.1 = c ∨ ∃ e' ∈ entries, e'.1 = e.1 := by
  induction entries with
  | nil =>
      rw [addEntry, List.mem_singleton] at he
      exact .inl (by rw [he])
  | cons head rest ih =>
      obtain ⟨c', a'⟩ := head
      simp only [addEntry] at he
      split at he
      · rcases List.mem_cons.mp he with rfl | he
        · exact .inl rfl
        · exact .inr ⟨e, he, rfl⟩
      · split at he
        · rcases List.mem_cons.mp he with rfl | he
          · exact .inr ⟨_, List.mem_cons_self .., rfl⟩
          · exact .inr ⟨e, List.mem_cons_of_mem _ he, rfl⟩
        · rcases List.mem_cons.mp he with rfl | he
          · exact .inr ⟨_, List.mem_cons_self .., rfl⟩
          · rcases ih he with h | ⟨e', he', h⟩
            · exact .inl h
            · exact .inr ⟨e', List.mem_cons_of_mem _ he', h⟩

/-- Adding an entry keeps the columns increasing. -/
theorem increasing_addEntry {c : ColumnId} {a : α} {entries : List (ColumnId × α)}
    (h : entries.Pairwise fun e e' => e.1 < e'.1) :
    (addEntry c a entries).Pairwise fun e e' => e.1 < e'.1 := by
  induction entries with
  | nil => exact List.pairwise_singleton ..
  | cons head rest ih =>
      obtain ⟨c', a'⟩ := head
      rw [List.pairwise_cons] at h
      simp only [addEntry]
      split
      · next hlt =>
          refine List.pairwise_cons.mpr ⟨fun e he => ?_, List.pairwise_cons.mpr h⟩
          rcases List.mem_cons.mp he with rfl | he
          · exact hlt
          · exact Nat.lt_trans hlt (h.1 e he)
      · next hge =>
          split
          · exact List.pairwise_cons.mpr ⟨h.1, h.2⟩
          · next hne =>
              refine List.pairwise_cons.mpr ⟨fun e he => ?_, ih h.2⟩
              have hlt : c' < c :=
                Nat.lt_of_le_of_ne (Nat.le_of_not_lt hge) fun h => hne (by simp [h])
              rcases mem_addEntry he with he | ⟨e', he', heq⟩
              · rw [he]
                exact hlt
              · rw [← heq]
                exact h.1 e' he'

/-- Merged entries have increasing columns of the model. -/
theorem mergeEntries_eq_ok {r : RowId} {columnCount : Nat}
    {merged entries result : List (ColumnId × α)}
    (h : mergeEntries r columnCount merged entries = .ok result)
    (hincreasing : merged.Pairwise fun e e' => e.1 < e'.1)
    (hlt : ∀ e ∈ merged, e.1 < columnCount) :
    result.Pairwise (fun e e' => e.1 < e'.1) ∧ ∀ e ∈ result, e.1 < columnCount := by
  induction entries generalizing merged with
  | nil =>
      cases h
      exact ⟨hincreasing, hlt⟩
  | cons entry rest ih =>
      obtain ⟨c, a⟩ := entry
      simp only [mergeEntries] at h
      split at h
      · cases h
      · next hc =>
          split at h
          · cases h
          · refine ih h (increasing_addEntry hincreasing) fun e he => ?_
            rcases mem_addEntry he with he | ⟨e', he', heq⟩
            · rw [he]
              exact Nat.lt_of_not_le hc
            · rw [← heq]
              exact hlt e' he'

theorem checkRow_eq_ok {columnCount : Nat} {r : RowId} {row checked : Row α}
    (h : checkRow columnCount r row = .ok checked) :
    checked.entries.Pairwise (fun e e' => e.1 < e'.1) ∧
      ∀ e ∈ checked.entries, e.1 < columnCount := by
  unfold checkRow at h
  split at h
  · cases h
  · simp only [bind_eq_ok, pure_eq_ok] at h
    obtain ⟨merged, hmerged, rfl⟩ := h
    obtain ⟨hincreasing, hlt⟩ := mergeEntries_eq_ok hmerged List.Pairwise.nil
      fun e he => by cases he
    exact ⟨hincreasing.filter _, fun e he => hlt e (List.mem_of_mem_filter he)⟩

end Merge

theorem placed_cons (row : Row α) (rows : List (Row α)) (start : Nat) :
    placed (row :: rows) start =
      (row.entries.map fun e => (e.1, start, e.2)) ++ placed rows (start + 1) := by
  simp [placed, List.zipIdx_cons]

theorem mem_placed {rows : List (Row α)} {start : Nat} {x : ColumnId × RowId × α}
    (hx : x ∈ placed rows start) : start ≤ x.2.1 ∧ x.2.1 < start + rows.length := by
  obtain ⟨item, hitem, hx⟩ := List.mem_flatMap.mp hx
  obtain ⟨e, -, rfl⟩ := List.mem_map.mp hx
  obtain ⟨hle, hlt, -⟩ := List.mem_zipIdx hitem
  exact ⟨hle, by simpa [Nat.add_comm] using hlt⟩

/-- A placed entry is one of the row at its position. -/
theorem mem_placed_iff {rows : List (Row α)} {c : ColumnId} {r : RowId} {a : α} :
    (c, r, a) ∈ placed rows 0 ↔ ∃ row, rows[r]? = some row ∧ (c, a) ∈ row.entries := by
  simp only [placed, List.mem_flatMap, List.mem_map]
  constructor
  · rintro ⟨⟨row, r'⟩, hitem, ⟨c', a'⟩, he, heq⟩
    obtain ⟨rfl, rfl, rfl⟩ : c' = c ∧ r' = r ∧ a' = a := by simpa using heq
    exact ⟨row, List.mem_zipIdx_iff_getElem?.mp hitem, he⟩
  · rintro ⟨row, hrow, he⟩
    exact ⟨(row, r), List.mem_zipIdx_iff_getElem?.mpr hrow, (c, a), he, rfl⟩

/-- The placed entries of a row are those of the row. -/
theorem placed_row {rows : List (Row α)} {r : Nat} {row : Row α} (start : Nat) (c : ColumnId)
    (hrow : rows[r]? = some row) :
    ((((placed rows start).filter fun x => x.1 = c).map Prod.snd).filter
      fun o => o.1 = start + r).map Prod.snd = (row.entries.filter fun e => e.1 = c).map
        Prod.snd := by
  induction rows generalizing start r with
  | nil => simp at hrow
  | cons head rest ih =>
      rw [placed_cons, List.filter_append, List.map_append, List.filter_append, List.map_append]
      cases r with
      | zero =>
          obtain rfl : head = row := by simpa using hrow
          have hrest : (((placed rest (start + 1)).filter fun x => x.1 = c).map Prod.snd).filter
              (fun o => o.1 = start + 0) = [] := by
            rw [List.filter_eq_nil_iff]
            intro o ho
            obtain ⟨x, hx, rfl⟩ := List.mem_map.mp ho
            have := (mem_placed (List.mem_of_mem_filter hx)).1
            simp only [decide_eq_true_eq]
            omega
          have hhead : ∀ entries : List (ColumnId × α),
              (((entries.map fun e => (e.1, start, e.2)).filter fun x => x.1 = c).map
                Prod.snd).filter (fun o => o.1 = start + 0) =
              (entries.filter fun e => e.1 = c).map fun e => (start, e.2) := by
            intro entries
            induction entries with
            | nil => rfl
            | cons e entries ih =>
                rw [Nat.add_zero] at ih ⊢
                by_cases he : e.1 = c
                · simp [he, ih]
                · simp [he, ih]
          rw [hrest, List.map_nil, List.append_nil, hhead, List.map_map]
          rfl
      | succ r =>
          have hhead : ((((head.entries.map fun e => (e.1, start, e.2)).filter
              fun x => x.1 = c).map Prod.snd).filter fun o => o.1 = start + (r + 1)) = [] := by
            rw [List.filter_eq_nil_iff]
            intro o ho
            obtain ⟨x, hx, rfl⟩ := List.mem_map.mp ho
            obtain ⟨e, -, rfl⟩ := List.mem_map.mp (List.mem_of_mem_filter hx)
            simp
          have hindex : start + (r + 1) = start + 1 + r := by omega
          rw [hhead, List.map_nil, List.nil_append, hindex]
          exact ih _ (by simpa using hrow)

/-- Placed entries are ordered by row, and by column within a row. -/
theorem placed_increasing {rows : List (Row α)} (start : Nat)
    (h : ∀ row ∈ rows, row.entries.Pairwise fun e e' => e.1 < e'.1) :
    (placed rows start).Pairwise fun x y => x.2.1 < y.2.1 ∨ x.2.1 = y.2.1 ∧ x.1 < y.1 := by
  induction rows generalizing start with
  | nil => exact List.Pairwise.nil
  | cons row rest ih =>
      rw [placed_cons, List.pairwise_append]
      refine ⟨List.pairwise_map.mpr ?_, ih (start + 1) fun row' hrow' =>
        h row' (List.mem_cons_of_mem _ hrow'), fun x hx y hy => ?_⟩
      · exact (h row (List.mem_cons_self ..)).imp fun hlt => .inr ⟨rfl, hlt⟩
      · obtain ⟨e, -, rfl⟩ := List.mem_map.mp hx
        exact .inl (mem_placed hy).1

section Built

variable [Scalar α] {d : Draft α} {m : Model α}

/-- The parts of a built model come from the checks of the columns and rows. -/
theorem build_eq_ok (h : d.build = .ok m) : ∃ columns rows,
    checkAll checkColumn 0 d.columns.toList = .ok columns ∧
    checkAll (checkRow columns.length) 0 d.rows.toList = .ok rows ∧
    m = { columns := columns.toArray
          rows := rows.toArray
          occurrences := transpose columns.length rows
          offset := d.offset
          integralObjective := hasIntegralObjective d.offset columns } := by
  simp only [build, bind_eq_ok, pure_eq_ok] at h
  obtain ⟨columns, hcolumns, rows, hrows, rfl⟩ := h
  exact ⟨columns, rows, hcolumns, hrows, rfl⟩

/-- The rows of a built model are those of the draft after their check. -/
theorem checkRow_of_build (h : d.build = .ok m) {r : RowId} {row : Row α}
    (hrow : m.rows[r]? = some row) :
    ∃ given, d.rows[r]? = some given ∧ checkRow m.columns.size r given = .ok row := by
  obtain ⟨columns, rows, -, hrows, rfl⟩ := build_eq_ok h
  obtain ⟨given, hgiven, hcheck⟩ := (checkAll_eq_ok hrows).2 r row (by simpa using hrow)
  exact ⟨given, by simpa using hgiven, by simpa using hcheck⟩

/-- The columns of a built model are those of the draft after their check. -/
theorem checkColumn_of_build (h : d.build = .ok m) {c : ColumnId} {column : Column α}
    (hcolumn : m.columns[c]? = some column) :
    ∃ given, d.columns[c]? = some given ∧ checkColumn c given = .ok column := by
  obtain ⟨columns, rows, hcolumns, -, rfl⟩ := build_eq_ok h
  obtain ⟨given, hgiven, hcheck⟩ := (checkAll_eq_ok hcolumns).2 c column (by simpa using hcolumn)
  exact ⟨given, by simpa using hgiven, by simpa using hcheck⟩

theorem columns_size_of_build (h : d.build = .ok m) : m.columns.size = d.columns.size := by
  obtain ⟨columns, rows, hcolumns, -, rfl⟩ := build_eq_ok h
  simpa using (checkAll_eq_ok hcolumns).1

theorem rows_size_of_build (h : d.build = .ok m) : m.rows.size = d.rows.size := by
  obtain ⟨columns, rows, -, hrows, rfl⟩ := build_eq_ok h
  simpa using (checkAll_eq_ok hrows).1

theorem placed_lt_of_build (h : d.build = .ok m) :
    ∀ x ∈ placed m.rows.toList 0, x.1 < m.columns.size := by
  rintro ⟨c, r, a⟩ hx
  obtain ⟨row, hrow, he⟩ := mem_placed_iff.mp hx
  obtain ⟨given, -, hcheck⟩ := checkRow_of_build h (by simpa using hrow)
  exact (checkRow_eq_ok hcheck).2 (c, a) he

theorem occurrences_size_of_build (h : d.build = .ok m) :
    m.occurrences.size = m.columns.size := by
  obtain ⟨columns, rows, -, -, rfl⟩ := build_eq_ok h
  simp [transpose_size]

/-- A column of a built model lists the entries placed in it. -/
theorem occurrences_of_build (h : d.build = .ok m) {c : ColumnId} {found : List (RowId × α)}
    (hfound : m.occurrences[c]? = some found) :
    found = ((placed m.rows.toList 0).filter fun x => x.1 = c).map Prod.snd := by
  have hc : c < m.columns.size :=
    occurrences_size_of_build h ▸ (Array.getElem?_eq_some_iff.mp hfound).1
  have hplaced := placed_lt_of_build h
  obtain ⟨columns, rows, -, -, rfl⟩ := build_eq_ok h
  simp only [List.size_toArray] at hc hplaced hfound ⊢
  rw [transpose_getElem? hplaced hc] at hfound
  exact (Option.some.inj hfound).symm

/-- A built model is well-formed. -/
theorem wellFormed_of_build (h : d.build = .ok m) : m.WellFormed := by
  refine ⟨occurrences_size_of_build h, ?_, ?_, ?_, ?_⟩
  · intro r row hrow
    obtain ⟨given, -, hcheck⟩ := checkRow_of_build h hrow
    exact (checkRow_eq_ok hcheck).2
  · intro r row hrow
    obtain ⟨given, -, hcheck⟩ := checkRow_of_build h hrow
    exact (checkRow_eq_ok hcheck).1
  · intro c found hfound o ho
    rw [occurrences_of_build h hfound] at ho
    obtain ⟨x, hx, rfl⟩ := List.mem_map.mp ho
    simpa using (mem_placed (List.mem_of_mem_filter hx)).2
  · intro c found r row hfound hrow
    rw [occurrences_of_build h hfound]
    simpa using placed_row 0 c (by simpa using hrow : m.rows.toList[r]? = some row)

/-- The bounds of a checked column do not cross. -/
theorem checkColumn_not_lt {c : ColumnId} {column checked : Column α}
    (h : checkColumn c column = .ok checked) : ¬checked.upper < checked.lower := by
  have hchoice {rounded : Column α} {error : ModelError α}
      (h : (if rounded.upper < rounded.lower then .error error else .ok rounded) =
        Except.ok checked) : ¬checked.upper < checked.lower := by
    split at h
    · cases h
    · next hinside =>
      cases h
      exact hinside
  unfold checkColumn at h
  split at h
  · cases h
  split at h
  · cases h
  split at h
  · cases h
  split at h
  · cases h
  split at h
  · cases h
  exact hchoice h

theorem not_lt_of_build (h : d.build = .ok m) {c : ColumnId} {column : Column α}
    (hcolumn : m.columns[c]? = some column) : ¬column.upper < column.lower := by
  obtain ⟨given, -, hcheck⟩ := checkColumn_of_build h hcolumn
  exact checkColumn_not_lt hcheck

end Built

end Draft

end BranchBound
