import BranchBound.Model.Draft

/-!
# Sorting the entries of the matrix by column

`Draft.transpose` sorts the entries of the rows by their columns with one slot per entry. The
segment of a column starts behind as many slots as there are entries in columns before it, and
while the entries are put into their slots one after the other, the next free slot of a column is
as far into its segment as the column has had entries. In the end the segment of a column holds its
entries in the order of the rows.
-/

namespace BranchBound

namespace Draft

variable {α : Type}

/-- The number of entries in columns before a given one. -/
def entriesBefore (entries : List (ColumnId × RowId × α)) (c : ColumnId) : Nat :=
  entries.countP fun x => x.1 < c

/-- The number of entries in a column. -/
def entriesIn (entries : List (ColumnId × RowId × α)) (c : ColumnId) : Nat :=
  entries.countP fun x => x.1 = c

section Counting

variable (entries : List (ColumnId × RowId × α))

theorem entriesBefore_zero : entriesBefore entries 0 = 0 := by
  simp [entriesBefore]

theorem entriesBefore_succ (c : ColumnId) :
    entriesBefore entries (c + 1) = entriesBefore entries c + entriesIn entries c := by
  unfold entriesBefore entriesIn
  induction entries with
  | nil => rfl
  | cons x rest ih =>
      rw [List.countP_cons, List.countP_cons, List.countP_cons, ih]
      rcases Nat.lt_trichotomy x.1 c with h | h | h
      · simp [h, Nat.lt_succ_of_lt h, Nat.ne_of_lt h, Nat.add_right_comm]
      · simp [h, Nat.add_assoc]
      · have hbefore : ¬x.1 < c := Nat.not_lt_of_gt h
        have hsucc : ¬x.1 < c + 1 := Nat.not_lt.mpr h
        simp [hbefore, hsucc, Nat.ne_of_gt h]

/-- The segment of a column ends before those of the columns behind it. -/
theorem entriesBefore_add_le {c c' : ColumnId} (h : c < c') :
    entriesBefore entries c + entriesIn entries c ≤ entriesBefore entries c' := by
  rw [← entriesBefore_succ]
  exact List.countP_mono_left fun _ _ hx =>
    decide_eq_true (Nat.lt_of_lt_of_le (of_decide_eq_true hx) h)

theorem entriesBefore_le (c : ColumnId) : entriesBefore entries c ≤ entries.length :=
  List.countP_le_length

/-- The segment of a column ends within the table. -/
theorem entriesBefore_add_entriesIn_le (c : ColumnId) :
    entriesBefore entries c + entriesIn entries c ≤ entries.length := by
  rw [← entriesBefore_succ]
  exact entriesBefore_le entries (c + 1)

theorem entriesIn_append (entries' : List (ColumnId × RowId × α)) (c : ColumnId) :
    entriesIn (entries ++ entries') c = entriesIn entries c + entriesIn entries' c :=
  List.countP_append

theorem columnCounts_size (columnCount : Nat) :
    (columnCounts columnCount entries).size = columnCount := by
  have hsize : ∀ counts : Array Nat,
      (entries.foldl (fun counts x => counts.modify x.1 (· + 1)) counts).size = counts.size := by
    induction entries with
    | nil => exact fun counts => rfl
    | cons x rest ih =>
        intro counts
        rw [List.foldl_cons, ih, Array.size_modify]
  rw [columnCounts, hsize, Array.size_replicate]

theorem columnCounts_getElem? {columnCount : Nat} {c : ColumnId} (hc : c < columnCount) :
    (columnCounts columnCount entries)[c]? = some (entriesIn entries c) := by
  have hcounts : ∀ counts : Array Nat,
      (entries.foldl (fun counts x => counts.modify x.1 (· + 1)) counts)[c]? =
        counts[c]?.map (· + entriesIn entries c) := by
    unfold entriesIn
    induction entries with
    | nil => simp
    | cons x rest ih =>
        intro counts
        rw [List.foldl_cons, ih, Array.getElem?_modify, List.countP_cons]
        by_cases hx : x.1 = c
        · simp [hx, Function.comp_def, Nat.add_assoc, Nat.add_comm 1]
        · simp [hx]
  rw [columnCounts, hcounts, Array.getElem?_replicate, if_pos hc, Option.map_some, Nat.zero_add]

omit entries in
/-- Segments start where a function says that grows by their lengths. -/
theorem segmentStarts_getElem? {f : Nat → Nat} {lengths : List Nat}
    (h : ∀ i length, lengths[i]? = some length → f (i + 1) = f i + length) {i : Nat}
    (hi : i ≤ lengths.length) : (segmentStarts (f 0) lengths)[i]? = some (f i) := by
  induction lengths generalizing f i with
  | nil =>
      obtain rfl : i = 0 := Nat.le_zero.mp hi
      rfl
  | cons length rest ih =>
      cases i with
      | zero => rfl
      | succ i =>
          have hfirst : f 1 = f 0 + length := h 0 length rfl
          have hrest := ih (f := fun i => f (i + 1)) (fun i length' hget => h (i + 1) length' hget)
            (Nat.le_of_succ_le_succ hi)
          rw [segmentStarts, List.getElem?_cons_succ, ← hfirst]
          exact hrest

/-- The segment of a column starts behind the entries in columns before it. -/
theorem starts_getElem? {columnCount : Nat} {c : ColumnId} (hc : c ≤ columnCount) :
    (segmentStarts 0 (columnCounts columnCount entries).toList)[c]? =
      some (entriesBefore entries c) := by
  have hlength : (columnCounts columnCount entries).toList.length = columnCount := by
    rw [Array.length_toList, columnCounts_size]
  rw [← entriesBefore_zero entries]
  refine segmentStarts_getElem? (f := entriesBefore entries) (fun i length hget => ?_)
    (hlength.symm ▸ hc)
  have hi : i < columnCount := by
    rw [← hlength]
    exact (List.getElem?_eq_some_iff.mp hget).1
  rw [Array.getElem?_toList, columnCounts_getElem? entries hi] at hget
  rw [entriesBefore_succ, Option.some.inj hget]

end Counting

/-- What holds while a table is filled: with the first entries put, the next free slot of a column
is behind those that it has had, and each of these is in its slot. -/
structure Filled (columnCount : Nat) (entries seen : List (ColumnId × RowId × α))
    (t : Filling α) : Prop where
  size : t.slots.size = entries.length
  next : ∀ c < columnCount, t.next[c]? = some (entriesBefore entries c + entriesIn seen c)
  slots : ∀ c < columnCount, ∀ j x, (seen.filter fun x => x.1 = c)[j]? = some x →
    t.slots[entriesBefore entries c + j]? = some x.2

theorem length_filter_column (entries : List (ColumnId × RowId × α)) (c : ColumnId) :
    (entries.filter fun x => x.1 = c).length = entriesIn entries c :=
  List.countP_eq_length_filter.symm

variable {columnCount : Nat} {entries seen : List (ColumnId × RowId × α)}

/-- Putting the next entry into the next free slot of its column keeps what has been put. -/
theorem Filled.put {t : Filling α} (h : Filled columnCount entries seen t)
    {x : ColumnId × RowId × α} {rest : List (ColumnId × RowId × α)}
    (hentries : entries = seen ++ x :: rest) (hx : x.1 < columnCount) :
    Filled columnCount entries (seen ++ [x]) (t.put x) := by
  have hnext := h.next x.1 hx
  have hfree : t.next.getD x.1 0 = entriesBefore entries x.1 + entriesIn seen x.1 := by
    rw [Array.getD_eq_getD_getElem?, hnext, Option.getD_some]
  have hcount : ∀ c, entriesIn entries c = entriesIn seen c + entriesIn (x :: rest) c := by
    intro c
    rw [hentries, entriesIn_append]
  have hroom : entriesIn seen x.1 < entriesIn entries x.1 := by
    rw [hcount]
    simp [entriesIn]
  have hwithin : t.next.getD x.1 0 < t.slots.size := by
    have := entriesBefore_add_entriesIn_le entries x.1
    rw [hfree, h.size]
    omega
  refine ⟨?_, fun c hc => ?_, fun c hc j y hy => ?_⟩
  · rw [Filling.put, Array.size_setIfInBounds, h.size]
  · rw [Filling.put, Array.getElem?_modify, h.next c hc]
    by_cases hcolumn : x.1 = c
    · subst hcolumn
      simp [entriesIn, Nat.add_assoc]
    · rw [if_neg hcolumn]
      simp [entriesIn, hcolumn]
  · rw [Filling.put, Array.getElem?_setIfInBounds, hfree]
    rw [List.filter_append] at hy
    rcases Nat.lt_or_ge j (seen.filter fun x => x.1 = c).length with hj | hj
    · -- An entry put before: its slot is not the one which is filled now.
      rw [List.getElem?_append_left hj] at hy
      rw [length_filter_column] at hj
      have hother : entriesBefore entries x.1 + entriesIn seen x.1 ≠
          entriesBefore entries c + j := by
        have hbelow := hcount c
        rcases Nat.lt_trichotomy x.1 c with hlt | heq | hlt
        · have := entriesBefore_add_le entries hlt
          omega
        · subst heq
          omega
        · have := entriesBefore_add_le entries hlt
          omega
      rw [if_neg hother]
      exact h.slots c hc j y hy
    · -- The entry which is put now.
      rw [List.getElem?_append_right hj] at hy
      by_cases hcolumn : x.1 = c
      · subst hcolumn
        rw [length_filter_column] at hj hy
        obtain ⟨hindex, rfl⟩ : j - entriesIn seen x.1 = 0 ∧ y = x := by
          have hy' : [x][j - entriesIn seen x.1]? = some y := by simpa using hy
          rw [List.getElem?_singleton] at hy'
          split at hy'
          · next hzero => exact ⟨hzero, (Option.some.inj hy').symm⟩
          · cases hy'
        obtain rfl : j = entriesIn seen y.1 := by omega
        rw [if_pos rfl, if_pos (hfree ▸ hwithin)]
      · simp [hcolumn] at hy

/-- A table into which all entries have been put. -/
theorem Filled.foldl {t : Filling α} {rest : List (ColumnId × RowId × α)}
    (h : Filled columnCount entries seen t) (hentries : entries = seen ++ rest)
    (hrest : ∀ x ∈ rest, x.1 < columnCount) :
    Filled columnCount entries entries (rest.foldl Filling.put t) := by
  induction rest generalizing seen t with
  | nil =>
      rw [List.append_nil] at hentries
      rw [List.foldl_nil]
      exact hentries ▸ h
  | cons x rest ih =>
      rw [List.foldl_cons]
      exact ih (h.put hentries (hrest x (List.mem_cons_self ..))) (by simp [hentries])
        fun y hy => hrest y (List.mem_cons_of_mem _ hy)

/-- The segment of a column in a filled table lists its entries in their order. -/
theorem Filled.segment {t : Filling α} (h : Filled columnCount entries entries t) {c : ColumnId}
    (hc : c < columnCount) :
    (t.slots.extract (entriesBefore entries c) (entriesBefore entries (c + 1))).toList =
      (entries.filter fun x => x.1 = c).map Prod.snd := by
  have hend := entriesBefore_add_entriesIn_le entries c
  apply List.ext_getElem?
  intro j
  rw [Array.getElem?_toList, Array.getElem?_extract, h.size, entriesBefore_succ, List.getElem?_map,
    Nat.min_eq_left hend, Nat.add_sub_cancel_left]
  split
  · next hj =>
    rw [← length_filter_column] at hj
    rw [h.slots c hc j _ (List.getElem?_eq_getElem hj), List.getElem?_eq_getElem hj]
    rfl
  · next hj =>
    rw [← length_filter_column, Nat.not_lt] at hj
    rw [List.getElem?_eq_none hj]
    rfl

variable [Scalar α]

theorem transpose_size (columnCount : Nat) (rows : List (Row α)) :
    (transpose columnCount rows).size = columnCount := by
  simp [transpose]

/-- The transposed matrix lists for a column the entries placed in it, in the order of the rows. -/
theorem transpose_getElem? {columnCount : Nat} {rows : List (Row α)}
    (hrows : ∀ x ∈ placed rows 0, x.1 < columnCount) {c : ColumnId} (hc : c < columnCount) :
    (transpose columnCount rows)[c]? =
      some (((placed rows 0).filter fun x => x.1 = c).map Prod.snd) := by
  have hstart : Filled columnCount (placed rows 0) []
      ⟨(segmentStarts 0 (columnCounts columnCount (placed rows 0)).toList).toArray,
        Array.replicate (placed rows 0).length (0, 0)⟩ := by
    refine ⟨Array.size_replicate, fun c hc => ?_, fun c _ j x hx => by simp at hx⟩
    rw [List.getElem?_toArray, starts_getElem? _ (Nat.le_of_lt hc)]
    rfl
  have hfilled := hstart.foldl (List.nil_append _).symm hrows
  have hbound : ∀ c' ≤ columnCount,
      (segmentStarts 0 (columnCounts columnCount (placed rows 0)).toList).toArray.getD c' 0 =
        entriesBefore (placed rows 0) c' := by
    intro c' hc'
    rw [Array.getD_eq_getD_getElem?, List.getElem?_toArray, starts_getElem? _ hc', Option.getD_some]
  unfold transpose
  rw [Array.getElem?_map, Array.getElem?_range, if_pos hc, Option.map_some,
    hbound c (Nat.le_of_lt hc),
    hbound (c + 1) hc, hfilled.segment hc]

end Draft

end BranchBound
