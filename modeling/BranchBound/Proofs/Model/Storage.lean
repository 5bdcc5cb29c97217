import Mathlib.Data.Set.Card
import BranchBound.Proofs.Number.Exact
import BranchBound.Proofs.Model.Build

/-!
# The matrix of a built model

A draft may give the entries of a row in any order, repeat columns and contain zeros. A built row
lists its columns in increasing order, with the sum of what was given for each, and leaves out sums
which are zero. While the entries are merged, the list of sums is a map from columns to sums
(`Sums`), to which every entry adds its coefficient. The columns list the same entries by
increasing row.
-/

namespace BranchBound

open Checked

namespace Draft

variable {α : Type}

/-- The coefficients given for a column, in their order. -/
def coefficients (entries : List (ColumnId × α)) (c : ColumnId) : List α :=
  (entries.filter fun e => e.1 = c).map Prod.snd

theorem coefficients_append (entries entries' : List (ColumnId × α)) (c : ColumnId) :
    coefficients (entries ++ entries') c = coefficients entries c ++ coefficients entries' c := by
  simp [coefficients]

theorem coefficients_singleton_self (c : ColumnId) (a : α) : coefficients [(c, a)] c = [a] := by
  simp [coefficients]

theorem coefficients_singleton_of_ne {c k : ColumnId} (a : α) (h : c ≠ k) :
    coefficients [(c, a)] k = [] := by
  simp [coefficients, h]

variable [Scalar α]

/-- The sum of the coefficients given for a column, from the first one to the last. -/
def coefficientSum (entries : List (ColumnId × α)) (c : ColumnId) : α :=
  (coefficients entries c).foldl (· + ·) 0

omit [Scalar α] in
theorem lookup_cons_of_ne {k c : ColumnId} (a : α) (rest : List (ColumnId × α)) (h : k ≠ c) :
    ((c, a) :: rest).lookup k = rest.lookup k := by
  rw [List.lookup_cons, beq_false_of_ne h]

/-- Adding an entry changes the value of its column only. -/
theorem lookup_addEntry (c : ColumnId) (a : α) {merged : List (ColumnId × α)}
    (hincreasing : merged.Pairwise fun e e' => e.1 < e'.1) (k : ColumnId) :
    (addEntry c a merged).lookup k =
      if k = c then some ((merged.lookup c).getD 0 + a) else merged.lookup k := by
  induction merged with
  | nil =>
      by_cases hk : k = c
      · simp [addEntry, hk]
      · rw [addEntry, lookup_cons_of_ne _ _ hk, if_neg hk]
  | cons head rest ih =>
      obtain ⟨c', a'⟩ := head
      obtain ⟨hhead, hrest⟩ := List.pairwise_cons.mp hincreasing
      simp only [addEntry]
      split
      · next hlt =>
        -- A new column: no entry of the list is in it.
        have habsent : (((c', a') :: rest).lookup c) = none := by
          rw [List.lookup_eq_none_iff]
          intro e he
          rcases List.mem_cons.mp he with rfl | he
          · simpa using Nat.ne_of_lt hlt
          · simpa using Nat.ne_of_lt (Nat.lt_trans hlt (hhead e he))
        by_cases hk : k = c
        · rw [hk, habsent, List.lookup_cons_self, if_pos rfl, Option.getD_none]
        · rw [lookup_cons_of_ne _ _ hk, if_neg hk]
      · split
        · next heq =>
          obtain rfl : c = c' := eq_of_beq heq
          by_cases hk : k = c
          · rw [hk, List.lookup_cons_self, List.lookup_cons_self, if_pos rfl, Option.getD_some]
          · rw [lookup_cons_of_ne _ _ hk, lookup_cons_of_ne _ _ hk, if_neg hk]
        · next hne =>
          have hne : c ≠ c' := fun h => hne (beq_iff_eq.mpr h)
          by_cases hk : k = c
          · subst hk
            rw [lookup_cons_of_ne _ _ hne, lookup_cons_of_ne _ _ hne, ih hrest]
          · rw [if_neg hk, List.lookup_cons, List.lookup_cons, ih hrest, if_neg hk]

/-- A list of entries by increasing column which holds for every column the sum of what has been
given for it. -/
structure Sums (seen merged : List (ColumnId × α)) : Prop where
  increasing : merged.Pairwise fun e e' => e.1 < e'.1
  lookup : ∀ c, merged.lookup c =
    if coefficients seen c = [] then none else some (coefficientSum seen c)

theorem Sums.nil : Sums ([] : List (ColumnId × α)) [] :=
  ⟨List.Pairwise.nil, fun _ => rfl⟩

/-- A column without coefficients has the sum zero. -/
theorem Sums.getD_lookup {seen merged : List (ColumnId × α)} (h : Sums seen merged)
    (c : ColumnId) : (merged.lookup c).getD 0 = coefficientSum seen c := by
  rw [h.lookup]
  split
  · next hnone => rw [coefficientSum, hnone, List.foldl_nil, Option.getD_none]
  · rfl

theorem Sums.addEntry {seen merged : List (ColumnId × α)} (h : Sums seen merged) (c : ColumnId)
    (a : α) : Sums (seen ++ [(c, a)]) (addEntry c a merged) := by
  refine ⟨increasing_addEntry h.increasing, fun k => ?_⟩
  rw [lookup_addEntry c a h.increasing, coefficients_append]
  by_cases hk : k = c
  · subst hk
    rw [if_pos rfl, h.getD_lookup, coefficients_singleton_self, if_neg (by simp), coefficientSum,
      coefficientSum, coefficients_append, coefficients_singleton_self, List.foldl_append,
      List.foldl_cons, List.foldl_nil]
  · rw [if_neg hk, coefficients_singleton_of_ne a (Ne.symm hk), List.append_nil, h.lookup,
      coefficientSum, coefficientSum, coefficients_append,
      coefficients_singleton_of_ne a (Ne.symm hk), List.append_nil]

theorem Sums.mergeEntries {r : RowId} {columnCount : Nat}
    {seen merged entries result : List (ColumnId × α)} (h : Sums seen merged)
    (hmerge : mergeEntries r columnCount merged entries = .ok result) :
    Sums (seen ++ entries) result := by
  induction entries generalizing seen merged with
  | nil =>
      cases hmerge
      rwa [List.append_nil]
  | cons e rest ih =>
      simp only [Draft.mergeEntries] at hmerge
      split at hmerge
      · cases hmerge
      · split at hmerge
        · cases hmerge
        · have hrest := ih (h.addEntry e.1 e.2) hmerge
          rwa [List.append_assoc] at hrest

theorem Sums.mem_iff {seen merged : List (ColumnId × α)} (h : Sums seen merged) {c : ColumnId}
    {a : α} : (c, a) ∈ merged ↔ coefficients seen c ≠ [] ∧ a = coefficientSum seen c := by
  have hlookup : (c, a) ∈ merged ↔ merged.lookup c = some a := by
    rw [List.lookup_eq_some_iff]
    constructor
    · intro he
      obtain ⟨before, after, rfl⟩ := List.append_of_mem he
      refine ⟨before, after, rfl, fun e he' => ?_⟩
      have hlt := (List.pairwise_append.mp h.increasing).2.2 e he' (c, a) (List.mem_cons_self ..)
      simpa using (Nat.ne_of_lt hlt).symm
    · rintro ⟨before, after, rfl, -⟩
      simp
  rw [hlookup, h.lookup]
  split
  · next hnone => simp [hnone]
  · next hsome => simp [hsome, eq_comm]

/-- What a checked row has of the row given for it. -/
structure RowStored (given row : Row α) : Prop where
  lower : row.lower = given.lower
  upper : row.upper = given.upper
  increasing : row.entries.Pairwise fun e e' => e.1 < e'.1
  mem_iff : ∀ c v, (c, v) ∈ row.entries ↔
    coefficients given.entries c ≠ [] ∧ v = coefficientSum given.entries c ∧ (v == 0) = false

theorem rowStored_of_checkRow {columnCount : Nat} {r : RowId} {given row : Row α}
    (h : checkRow columnCount r given = .ok row) : RowStored given row := by
  unfold checkRow at h
  split at h
  · cases h
  · simp only [bind_eq_ok, pure_eq_ok] at h
    obtain ⟨merged, hmerged, rfl⟩ := h
    have hsums : Sums given.entries merged := by
      have hsums := Sums.nil.mergeEntries hmerged
      rwa [List.nil_append] at hsums
    refine ⟨rfl, rfl, hsums.increasing.filter _, fun c v => ?_⟩
    rw [List.mem_filter, hsums.mem_iff, and_assoc]
    simp [bne]

end Draft

/-- A column lists exactly the entries which the rows have in it. -/
theorem Model.WellFormed.mem_occurrences_iff {m : Model α} (h : m.WellFormed) {c : ColumnId}
    {found : List (RowId × α)} (hfound : m.occurrences[c]? = some found) {r : RowId} {a : α} :
    (r, a) ∈ found ↔ ∃ row, m.rows[r]? = some row ∧ (c, a) ∈ row.entries := by
  have hmem {row : Row α} (hrow : m.rows[r]? = some row) :
      (r, a) ∈ found ↔ (c, a) ∈ row.entries := by
    have heq := h.occurrences_eq c found r row hfound hrow
    have hleft : (r, a) ∈ found ↔ a ∈ (found.filter fun o => o.1 = r).map Prod.snd := by simp
    have hright : (c, a) ∈ row.entries ↔
        a ∈ (row.entries.filter fun e => e.1 = c).map Prod.snd := by simp
    rw [hleft, heq, hright]
  constructor
  · intro ho
    have hrow := Array.getElem?_eq_getElem (h.row_lt c found hfound (r, a) ho)
    exact ⟨_, hrow, (hmem hrow).mp ho⟩
  · rintro ⟨row, hrow, he⟩
    exact (hmem hrow).mpr he

namespace Draft

variable [Scalar α] {d : Draft α} {m : Model α}

theorem rowStored_of_build (h : d.build = .ok m) {r : RowId} {given row : Row α}
    (hgiven : d.rows[r]? = some given) (hrow : m.rows[r]? = some row) : RowStored given row := by
  obtain ⟨given', hgiven', hcheck⟩ := checkRow_of_build h hrow
  obtain rfl : given' = given := Option.some.inj (hgiven'.symm.trans hgiven)
  exact rowStored_of_checkRow hcheck

theorem placed_increasing_of_build (h : d.build = .ok m) :
    (placed m.rows.toList 0).Pairwise fun x y => x.2.1 < y.2.1 ∨ x.2.1 = y.2.1 ∧ x.1 < y.1 := by
  refine placed_increasing 0 fun row hrow => ?_
  obtain ⟨r, hr⟩ := List.mem_iff_getElem?.mp hrow
  exact (wellFormed_of_build h).increasing r row (by simpa using hr)

/-- The columns of a built model list their entries by increasing row. -/
theorem occurrences_increasing_of_build (h : d.build = .ok m) {c : ColumnId}
    {found : List (RowId × α)} (hfound : m.occurrences[c]? = some found) :
    found.Pairwise fun o o' => o.1 < o'.1 := by
  rw [occurrences_of_build h hfound]
  refine List.pairwise_map.mpr (((placed_increasing_of_build h).filter _).imp_of_mem ?_)
  intro x y hx hy hlt
  have hx : x.1 = c := by simpa using (List.mem_filter.mp hx).2
  have hy : y.1 = c := by simpa using (List.mem_filter.mp hy).2
  rcases hlt with hlt | ⟨-, hlt⟩
  · exact hlt
  · exact absurd (hx.trans hy.symm) (Nat.ne_of_lt hlt)

/-- The number of entries counts every row and column with an entry once. -/
theorem nonzeroCount_of_build (h : d.build = .ok m) :
    m.nonzeroCount = {x : ColumnId × RowId × α |
      ∃ row, m.rows[x.2.1]? = some row ∧ (x.1, x.2.2) ∈ row.entries}.ncard := by
  classical
  have hset : {x : ColumnId × RowId × α |
      ∃ row, m.rows[x.2.1]? = some row ∧ (x.1, x.2.2) ∈ row.entries} =
      ((placed m.rows.toList 0).toFinset : Set (ColumnId × RowId × α)) := by
    ext ⟨c, r, a⟩
    rw [List.coe_toFinset, Set.mem_ofPred_eq, Set.mem_ofPred_eq, mem_placed_iff,
      Array.getElem?_toList]
  have hnodup : (placed m.rows.toList 0).Nodup := (placed_increasing_of_build h).imp fun hlt => by
    rintro rfl
    rcases hlt with hlt | ⟨-, hlt⟩
    · exact Nat.lt_irrefl _ hlt
    · exact Nat.lt_irrefl _ hlt
  have hlength (rows : List (Row α)) (start : Nat) :
      (rows.flatMap (·.entries)).length = (placed rows start).length := by
    induction rows generalizing start with
    | nil => rfl
    | cons row rest ih =>
        rw [List.flatMap_cons, placed_cons, List.length_append, List.length_append, List.length_map,
          ih (start + 1)]
  rw [hset, Set.ncard_coe_finset, List.toFinset_card_of_nodup hnodup, Model.nonzeroCount,
    hlength m.rows.toList 0]

/-- The matrix of a model and what was given for it: the rows hold the sums which are not zero, the
columns hold what the rows hold, and all of it is counted. -/
structure Stored (d : Draft α) (m : Model α) : Prop where
  rows_size : m.rows.size = d.rows.size
  columns_size : m.columns.size = d.columns.size
  occurrences_size : m.occurrences.size = d.columns.size
  row : ∀ (r : RowId) (given row : Row α), d.rows[r]? = some given → m.rows[r]? = some row →
    RowStored given row
  column_increasing : ∀ (c : ColumnId) (found : List (RowId × α)), m.occurrences[c]? = some found →
    found.Pairwise fun o o' => o.1 < o'.1
  mem_column_iff : ∀ (c : ColumnId) (found : List (RowId × α)), m.occurrences[c]? = some found →
    ∀ r v, (r, v) ∈ found ↔ ∃ row, m.rows[r]? = some row ∧ (c, v) ∈ row.entries
  nonzeroCount : m.nonzeroCount = {x : ColumnId × RowId × α |
    ∃ row, m.rows[x.2.1]? = some row ∧ (x.1, x.2.2) ∈ row.entries}.ncard

/-- **The rows and the columns of a built model store the same matrix.** Every row lists by
increasing column the sums of what was given for each column, without those which are zero; every
column lists by increasing row exactly what the rows list in it; and the number of nonzeros counts
these entries. -/
theorem matrix_stored_by_rows_and_columns (h : d.build = .ok m) : d.Stored m where
  rows_size := rows_size_of_build h
  columns_size := columns_size_of_build h
  occurrences_size := (occurrences_size_of_build h).trans (columns_size_of_build h)
  row := fun _ _ _ hgiven hrow => rowStored_of_build h hgiven hrow
  column_increasing := fun _ _ hfound => occurrences_increasing_of_build h hfound
  mem_column_iff := fun _ _ hfound _ _ => (wellFormed_of_build h).mem_occurrences_iff hfound
  nonzeroCount := nonzeroCount_of_build h

/-- Three columns, the last of them in no row. The first row repeats both its columns, and what it
has in the second one cancels; the second row is empty. -/
def scattered : Draft Exact :=
  let column : Column Exact := ⟨0, 0, 1, .continuous⟩
  let d := (Draft.empty.addColumns [column, column, column]).2
  (d.addRows [⟨0, 1, [(1, 2), (0, 1), (1, -2), (0, 3)]⟩, ⟨0, 1, []⟩, ⟨0, 1, [(1, 5), (0, 1)]⟩]).2

theorem scattered_stored : ∃ m, scattered.build = .ok m ∧
    m.rows.toList.map (·.entries) = [[(0, 4)], [], [(0, 1), (1, 5)]] ∧
    m.occurrences.toList = [[(0, 4), (2, 1)], [(2, 5)], []] ∧
    m.nonzeroCount = 3 ∧ scattered.Stored m := by
  have hrun : passes scattered.build (fun m =>
      decide (m.rows.toList.map (·.entries) = [[(0, 4)], [], [(0, 1), (1, 5)]] ∧
        m.occurrences.toList = [[(0, 4), (2, 1)], [(2, 5)], []] ∧ m.nonzeroCount = 3)) = true := by
    decide +kernel
  obtain ⟨m, hbuild, htest⟩ := passes_eq_true.mp hrun
  obtain ⟨hrows, hcolumns, hcount⟩ := of_decide_eq_true htest
  exact ⟨m, hbuild, hrows, hcolumns, hcount, matrix_stored_by_rows_and_columns hbuild⟩

end Draft

end BranchBound
