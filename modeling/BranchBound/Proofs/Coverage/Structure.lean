import BranchBound.Proofs.Clique.Extraction
import BranchBound.Proofs.Clique.Lookup
import BranchBound.Proofs.Coverage.SparedRuns
import BranchBound.Proofs.VariableBound.Detection

/-!
# Detected structure holds at all feasible points

The cliques that are extracted from the rows, the partitions of the columns with a cost that these
cliques make, and the variable bounds that rows with two entries are, all hold at the points of the
box which satisfy the rows. The cliques are over columns that are not fixed, so no column of a
partition is fixed to one when the objective is set up.
-/

namespace BranchBound

open Checked Exact BranchBound.Action

variable {x : Point} {f : ℚ} {a : Domain.Anchor}

namespace CliqueTable

variable {d : Domain Exact} {P : CliqueTable → Prop}

/-- What adding literals of free columns keeps is kept by extraction from a side of a row. -/
theorem extractFromSide_keeps (h : d.Boxed)
    (hadd : ∀ literals : List BinaryLiteral,
      (∀ l ∈ literals, l.column < d.model.columns.size ∧ d.isFree l.column = true) →
      Keeps P (add literals))
    {i : Inequality Exact} (hi : ∀ e ∈ i.entries, e.1 < d.model.columns.size ∧
      ∃ q, e.2 = number q) :
    Keeps P (extractFromSide d i.entries i.rhs) := by
  refine Leads.lift.knowing fun read hread => ?_
  rcases Domain.literalsOfSide_eq h i.rhs hi with ⟨-, hnone⟩ | ⟨-, hsome⟩
  · obtain rfl : none = read := Except.ok.inj (hnone.symm.trans hread)
    exact Keeps.pure
  · obtain rfl := Except.ok.inj (hsome.symm.trans hread)
    obtain ⟨clique, hclique, hraising, -⟩ := largestClique_eq d.feastol
      (i.rhs - number (d.leastActivity i.entries)) (d.raising i.entries)
    dsimp only
    rw [hclique]
    refine Leads.ite (fun _ => Keeps.pure) fun _ => hadd _ fun l hl => ?_
    obtain ⟨w, hw, rfl⟩ := List.mem_map.mp hl
    obtain ⟨e, he, rfl⟩ := List.mem_map.mp (hraising.subset hw)
    obtain ⟨hentry, hfree⟩ := List.mem_filter.mp he
    exact ⟨(hi e hentry).1, hfree⟩

/-- So it is kept by extraction from all rows. -/
theorem extract_keeps (h : d.Boxed) (hrows : ∀ row ∈ d.model.rows.toList, d.ReadsRow row)
    (hadd : ∀ literals : List BinaryLiteral,
      (∀ l ∈ literals, l.column < d.model.columns.size ∧ d.isFree l.column = true) →
      Keeps P (add literals)) :
    Keeps P (extract d) := by
  have hrow (added : Nat) {row : Row Exact} (hrow : d.ReadsRow row) :
      Keeps P (extractFromRow d added row) := by
    have hlower := extractFromSide_keeps (P := P)
      (i := ⟨row.entries.map fun e => (e.1, -e.2), -row.lower⟩) h hadd fun e he => by
        obtain ⟨e, hmem, rfl⟩ := List.mem_map.mp he
        obtain ⟨hc, q, hq⟩ := hrow.entries e hmem
        exact ⟨hc, -q, by rw [hq, neg_number]⟩
    simp only [extractFromRow, Domain.choice_bind]
    refine Leads.bind (Leads.ite (fun _ => ?_) fun _ => Keeps.pure) fun fromUpper =>
      Leads.bind (Leads.ite (fun _ => hlower) fun _ => Keeps.pure) fun fromLower => Keeps.pure
    exact extractFromSide_keeps (i := ⟨row.entries, row.upper⟩) h hadd hrow.entries
  have hall (rows : List (Row Exact)) (hrows : ∀ row ∈ rows, d.ReadsRow row) (added : Nat) :
      Keeps P (rows.foldlM (extractFromRow d) added) := by
    induction rows generalizing added with
    | nil => exact Keeps.pure
    | cons row rest ih =>
        rw [List.foldlM_cons]
        exact (hrow added (hrows row (List.mem_cons_self ..))).bind fun added =>
          ih (fun other hother => hrows other (List.mem_cons_of_mem _ hother)) added
  exact hall _ hrows 0

/-- A table of cliques over free columns, which lists them under their literals. -/
structure Extracted (d : Domain Exact) (t : CliqueTable) : Prop where
  made : t.Made d.model.columns.size d.model.Binary
  indexed : t.Indexed d.model.columns.size
  free : ∀ clique ∈ t.cliques, ∀ l ∈ clique, d.isFree l.column = true

/-- Extraction makes such a table. -/
theorem extract_extracted (h : d.Boxed) (hrows : ∀ row ∈ d.model.rows.toList, d.ReadsRow row)
    {found : Nat} {t : CliqueTable}
    (hextract : (extract d).finish (.empty d.model.columns.size) = .ok (found, t)) :
    Extracted d t := by
  refine (extract_keeps (P := Extracted d) h hrows
    fun literals hliterals t added t' ht hadd => ?_).finish
    ⟨.empty, empty_indexed _, fun clique hclique => (by simp [empty] at hclique)⟩ hextract
  have hfinish := finish_eq_ok.mpr hadd
  obtain ⟨hindexed, -, hcliques⟩ :=
    (ht.indexed.add fun l hl => (hliterals l hl).1).of_eq_ok hfinish
  refine ⟨ht.made.add (fun l hl => ?_) hfinish, hindexed, fun clique hclique l hl => ?_⟩
  · exact Domain.isBinary_eq_ok.mp (Domain.isBinary_of_isFree (hliterals l hl).2)
  · rw [hcliques] at hclique
    split at hclique
    · rcases Array.mem_push.mp hclique with hold | rfl
      · exact ht.free clique hold l hl
      · exact (hliterals l (mem_distinct.mp hl)).2
    · exact ht.free clique hclique l hl

/-- A literal of a pair that shares a clique is over a free column. -/
theorem Extracted.free_of_shares {t : CliqueTable} (h : Extracted d t) {l l' : BinaryLiteral}
    (hshares : t.Shares l l') : d.isFree l.column = true := by
  obtain ⟨clique, hclique, hl, -⟩ := hshares
  exact h.free clique hclique l hl

section Parts

variable {t : CliqueTable} {part : List ColumnId} {c c' : ColumnId}

theorem Related.shares_of_ne (h : t.Related part) (hc : c ∈ part) (hc' : c' ∈ part) (hne : c ≠ c') :
    t.Shares ⟨c, true⟩ ⟨c', true⟩ := by
  have hsymm : Std.Symm fun c c' : ColumnId => t.Shares ⟨c, true⟩ ⟨c', true⟩ :=
    ⟨fun _ _ h => h.symm⟩
  exact List.Pairwise.forall h hc hc' hne

/-- Every column of a part with several ones shares a clique. -/
theorem Related.exists_shares (h : t.Related part) (hseveral : 1 < part.length) (hc : c ∈ part) :
    ∃ l, t.Shares ⟨c, true⟩ l := by
  match part, hseveral with
  | first :: second :: rest, _ =>
      have hfirst := (List.pairwise_cons.mp h).1
      rcases List.mem_cons.mp hc with rfl | hc
      · exact ⟨_, hfirst second (List.mem_cons_self ..)⟩
      · exact ⟨_, (hfirst c hc).symm⟩

end Parts

end CliqueTable

namespace Domain

variable {d d' : Domain Exact}

namespace Sound

variable (h : d.Sound a f)

include h

theorem boxed : d.Boxed where
  size := h.settled.coherent.bounds_size
  number := fun side c _ => h.not_nan side c
  within := fun side c => by
    rw [← trail_values]
    exact h.shrunk.within side c

theorem readsRow {row : Row Exact} (hrow : row ∈ d.model.rows.toList) : d.ReadsRow row := by
  rw [Array.mem_toList_iff, Array.mem_iff_getElem?] at hrow
  obtain ⟨r, hr⟩ := hrow
  exact ⟨h.rowEntries hr, h.settled.coherent.wellFormed.increasing r row hr⟩

/-- At most one literal of an extracted clique is true at a point that satisfies the rows. -/
theorem extract_holds (hx : d.Admits x) {found : Nat} {t : CliqueTable}
    (hextract : (CliqueTable.extract d).finish (.empty d.model.columns.size) = .ok (found, t)) :
    t.HoldsAt x := by
  have hpositive : (0 : Exact) ≤ d.feastol := by
    rw [h.feastol, ofNat_eq, number_le, Nat.cast_zero]
    exact h.positive.le
  obtain ⟨n, t', hperform, -, outcomes, hall, hcliques, -⟩ := foldlM_extractFromRow_extracts h.boxed
    hpositive (t := .empty d.model.columns.size) (by simp [CliqueTable.empty])
    (fun row hrow => h.readsRow hrow) 0
  obtain rfl : t' = t :=
    congrArg Prod.snd (Except.ok.inj ((finish_eq_ok.mpr hperform).symm.trans hextract))
  have hbinary : d.HasBinary x.assignment := ⟨hx.box, fun c _ => ⟨x c, rfl⟩⟩
  intro clique hclique
  have hmem : clique ∈ outcomes.reduceOption := by
    rw [← Array.mem_toList_iff, hcliques] at hclique
    simpa [CliqueTable.empty] using hclique
  obtain ⟨i, hi, houtcome⟩ := exists_of_forall₂ hall (List.reduceOption_mem_iff.mp hmem)
  obtain ⟨row, hrow, hside⟩ := List.mem_flatMap.mp hi
  rw [Array.mem_toList_iff, Array.mem_iff_getElem?] at hrow
  obtain ⟨r, hr⟩ := hrow
  have htrue {l : BinaryLiteral} (hl : l.HoldsAt x) : l.TrueAt x.assignment := by
    unfold BinaryLiteral.HoldsAt at hl
    rw [BinaryLiteral.TrueAt, Point.assignment, hl]
    split <;> simp
  cases houtcome with
  | clique _ _ _ _ _ _ himplied =>
      have hsatisfied : x.assignment.SatisfiesRow row := hx.rows r row hr
      intro l hl l' hl' hholds hholds'
      exact himplied _ hbinary (hsatisfied.side hside) l hl l' hl' (htrue hholds) (htrue hholds')

/-- A column that is not fixed is not fixed to one while there is a point in the box. -/
theorem not_one_of_isFree (hx : d.values.Contains d.model.columns.size x) {c : ColumnId}
    (hfree : d.isFree c = true) : ¬1 ≤ d.values .lower c := by
  intro hone
  obtain ⟨column, hcolumn, hinteger, hzero, hupper⟩ := isBinary_eq_ok.mp (isBinary_of_isFree hfree)
  have hc := (Array.getElem?_eq_some_iff.mp hcolumn).1
  have hle : d.values .upper c ≤ 1 := Exact.le_trans (within_model h.shrunk hcolumn).2 hupper
  have hlower : d.values .lower c ≤ number (x c : ℚ) := hx .lower c hc
  have hhigh : number (x c : ℚ) ≤ d.values .upper c := hx .upper c hc
  obtain ⟨isBinary, isFixed, -, hfixed, hchoice⟩ := h.boxed.isFree_eq hc
  rw [hfree, eq_comm, Bool.and_eq_true, Bool.not_eq_true'] at hchoice
  obtain ⟨-, rfl⟩ := hchoice
  rw [isFixed, h.boxed.boundValue _ hc, h.boxed.boundValue _ hc] at hfixed
  have hlo : d.values .lower c = 1 :=
    Exact.le_antisymm (Exact.le_trans hlower (Exact.le_trans hhigh hle)) hone
  have hup : d.values .upper c = 1 :=
    Exact.le_antisymm hle (Exact.le_trans hone (Exact.le_trans hlower hhigh))
  rw [hlo, hup] at hfixed
  have hsame : ((1 : Exact) == 1) = false := Except.ok.inj hfixed
  exact absurd hsame (by decide +kernel)

end Sound

/-- Columns with the same number belong to one list of several columns. -/
theorem numberPartitions_together {R : ColumnId → ColumnId → Prop} {lists : List (List ColumnId)}
    (hlists : ∀ columns ∈ lists, 1 < columns.length → ∀ c ∈ columns, ∀ c' ∈ columns, R c c')
    {numbered count : Nat} {start table : Array (Option Nat)}
    (hstart : ∀ (c : ColumnId) i, start[c]? = some (some i) → i < numbered)
    (hrelated : ∀ (c c' : ColumnId) i, start[c]? = some (some i) → start[c']? = some (some i) →
      R c c')
    (h : d.numberPartitions numbered start lists = .ok (count, table)) :
    ∀ (c c' : ColumnId) i, table[c]? = some (some i) → table[c']? = some (some i) → R c c' := by
  induction lists generalizing numbered start with
  | nil =>
      cases h
      exact hrelated
  | cons columns rest ih =>
      have hrest := fun columns hcolumns => hlists columns (List.mem_cons_of_mem _ hcolumns)
      simp only [numberPartitions, bind_eq_ok] at h
      obtain ⟨valid, hvalid, h⟩ := h
      cases valid with
      | false => exact ih hrest hstart hrelated h
      | true =>
          simp only [if_true, bind_eq_ok] at h
          obtain ⟨marked, hmarked, h⟩ := h
          have hseveral : 1 < columns.length := by
            unfold isPartition at hvalid
            split at hvalid
            · cases hvalid
            · next hmany => exact Nat.lt_of_not_le hmany
          have hnumbers : ∀ (c : ColumnId) i, marked[c]? = some (some i) →
              i = numbered ∧ c ∈ columns ∨ start[c]? = some (some i) := by
            refine foldlM_keeps (P := fun table : Array (Option Nat) => ∀ (c : ColumnId) i,
              table[c]? = some (some i) → i = numbered ∧ c ∈ columns ∨ start[c]? = some (some i))
              (fun table c table' hc ht hstore => ?_) hmarked fun _ _ hi => .inr hi
            obtain ⟨-, rfl⟩ := store_eq_ok.mp hstore
            intro c' i hi
            rcases of_getElem?_setIfInBounds hi with ⟨rfl, hnumber⟩ | ⟨-, hkept⟩
            · obtain rfl := Option.some.inj hnumber
              exact .inl ⟨rfl, hc⟩
            · exact ht c' i hkept
          refine ih hrest (fun c i hi => ?_) (fun c c' i hi hi' => ?_) h
          · rcases hnumbers c i hi with ⟨rfl, -⟩ | hold
            · exact Nat.lt_succ_self _
            · exact Nat.lt_succ_of_lt (hstart c i hold)
          · rcases hnumbers c i hi with ⟨rfl, hc⟩ | hold <;>
              rcases hnumbers c' i hi' with ⟨hsame, hc'⟩ | hold'
            · exact hlists columns (List.mem_cons_self ..) hseveral c hc c' hc'
            · exact absurd (hstart c' _ hold') (Nat.lt_irrefl _)
            · subst hsame
              exact absurd (hstart c _ hold) (Nat.lt_irrefl _)
            · exact hrelated c c' i hold hold'

/-- The objective that is set up with parts of columns which share cliques: the columns with a
number are free, there is no cutoff, and at most one column of each part is one where the cliques
hold. -/
theorem setupObjective_over {t : CliqueTable} (ht : t.Extracted d) (hnone : d.objective = none)
    {parts : List (List ColumnId)} (hparts : ∀ part ∈ parts, t.Related part)
    (hsetup : d.setupObjective parts = .ok d') {o : ObjectivePropagation Exact}
    (ho : d'.objective = some o) :
    (∀ (c : ColumnId) i, o.partitionOf[c]? = some (some i) → d.isFree c = true) ∧ o.cutoff = plus ∧
      ∀ x, t.HoldsAt x → o.Chooses x := by
  simp only [Domain.setupObjective, bind_eq_ok, pure_eq_ok] at hsetup
  obtain ⟨⟨count, table⟩, hnumber, objective, hrecompute, rfl⟩ := hsetup
  obtain rfl : objective = o := Option.some.inj ho
  have hsame := ObjectivePropagation.recompute_same hrecompute
  have hunnumbered (c : ColumnId) (i : Nat) :
      (Array.replicate d.columnCount (none : Option Nat))[c]? ≠ some (some i) := by
    rw [Array.getElem?_replicate]
    split <;> simp
  have htogether := numberPartitions_together
    (R := fun c c' => d.isFree c = true ∧ (c = c' ∨ t.Shares ⟨c, true⟩ ⟨c', true⟩))
    (fun part hpart hseveral c hc c' hc' => by
      obtain ⟨l, hl⟩ := (hparts part hpart).exists_shares hseveral hc
      exact ⟨ht.free_of_shares hl, or_iff_not_imp_left.mpr
        ((hparts part hpart).shares_of_ne hc hc')⟩)
    (fun c i hi => absurd hi (hunnumbered c i)) (fun c c' i hi => absurd hi (hunnumbered c i))
      hnumber
  rw [hsame.partitionOf]
  refine ⟨fun c i hi => (htogether c c i hi hi).1, ?_, fun x hx i c c' hi hi' hone hone' => ?_⟩
  · rw [hsame.cutoff, hnone]
    rfl
  · rw [hsame.partitionOf] at hi hi'
    rcases (htogether c c' i hi hi').2 with rfl | ⟨clique, hclique, hl, hl'⟩
    · rfl
    · exact congrArg BinaryLiteral.column (hx clique hclique _ hl _ hl' hone hone')

end Domain

namespace VariableBounds

variable {d : Domain Exact} {t : VariableBounds Exact}

/-- Detection records bounds. -/
theorem detect_made (hdetect : detect d = .ok t) : t.Made d.model.columnCount := by
  have hrecord (side : Side) (x y : ColumnId) (bound : VariableBound Exact) :
      Keeps (Made d.model.columnCount) (record side x y bound) :=
    fun t changed t' ht hrun => ht.record (finish_eq_ok.mpr hrun)
  have hadd (side : Side) (x y : ColumnId) (bound : VariableBound Exact) :
      Keeps (Made d.model.columnCount) (add d side x y bound) :=
    Leads.ite (fun _ => Keeps.pure) fun _ => Keeps.lift.bind fun _ =>
      Leads.ite (fun _ => Keeps.pure)
      fun _ => Keeps.lift.bind fun _ => Leads.ite (fun _ => Keeps.pure) fun _ =>
        hrecord side x y bound
  have hrow (row : Row Exact) (pair : (ColumnId × Exact) × (ColumnId × Exact)) :
      Keeps (Made d.model.columnCount) (detectInRow d row pair) := by
    obtain ⟨⟨x, p⟩, y, q⟩ := pair
    have hlower : Keeps (Made d.model.columnCount) (if -Scalar.infinity < row.lower then discard <|
        add d (if 0 < p then .lower else .upper) x y ⟨-q / p, row.lower / p⟩ else pure ()) :=
      Leads.ite (fun _ => (hadd _ x y _).bind fun _ => Keeps.pure) fun _ => Keeps.pure
    refine Leads.ite (fun _ => Keeps.pure) fun _ => Keeps.lift.bind fun _ => Leads.ite
      (fun _ => Keeps.pure) fun _ => Keeps.lift.bind fun _ => Leads.ite (fun _ => Keeps.pure)
        fun _ => ?_
    exact Leads.ite (fun _ => Leads.bind ((hadd _ x y _).bind fun _ => Keeps.pure) fun _ => hlower)
      fun _ => hlower
  simp only [detect, bind_eq_ok, pure_eq_ok] at hdetect
  obtain ⟨⟨_, _⟩, hrun, rfl⟩ := hdetect
  refine (Keeps.forM (P := Made d.model.columnCount) (fun row => ?_) _).finish .empty hrun
  split
  · exact (hrow _ _).bind fun _ => hrow _ _
  · exact Keeps.pure

/-- Detected bounds hold at the points of the box that satisfy the rows. -/
theorem detect_holds (h : d.Sound a f) {draft : Draft Exact} (hbuild : draft.build = .ok d.model)
    (hx : d.Admits x) (hdetect : detect d = .ok t) : t.HoldsAt x := by
  have hcolumned : Columned d.model.columns.size d := ⟨rfl, h.settled.coherent.bounds_size⟩
  have hrows : ∀ row ∈ d.model.rows, row.HoldsAt x := by
    intro row hrow
    obtain ⟨r, hr⟩ := Array.mem_iff_getElem?.mp hrow
    exact hx.rows r row hr
  have hsided : ∀ row ∈ d.model.rows, Sided row := by
    intro row hrow
    obtain ⟨hlower, hupper⟩ := hrows row hrow
    constructor
    · generalize row.lower = v at hlower ⊢
      cases v with
      | minus => exact .inl rfl
      | number q => exact .inr ⟨q, rfl⟩
      | plus | nan => cases hlower
    · generalize row.upper = v at hupper ⊢
      cases v with
      | plus => exact .inl rfl
      | number q => exact .inr ⟨q, rfl⟩
      | minus | nan => cases hupper
  have hregular : (empty d.model.columns.size : VariableBounds Exact).Regular
    d.model.columns.size := by
    refine ⟨empty_indexed _, fun side x line hline => ?_⟩
    rw [lines_empty] at hline
    cases hline
  simp only [detect, bind_eq_ok, pure_eq_ok] at hdetect
  obtain ⟨⟨_, _⟩, hrun, rfl⟩ := hdetect
  obtain ⟨-, hiff⟩ := (adds_detectInRows hcolumned hbuild hsided _ hregular).of_eq_ok hrun
  have hconfines : d.Confines x.assignment := by
    refine ⟨fun side c value hvalue => ?_, fun y hy => ?_⟩
    · have hc : c < d.model.columns.size := by
        simp only [Domain.boundValue, Domain.bound, bind_eq_ok, fetch_eq_ok] at hvalue
        obtain ⟨b, hb, -⟩ := hvalue
        exact h.settled.coherent.bounds_size side ▸ (Array.getElem?_eq_some_iff.mp hb).1
      rw [Domain.boundValue_eq_ok hvalue]
      exact hx.box side c hc
    · rcases Domain.binary_values h.shrunk hx.box (Domain.isBinary_eq_ok.mp hy) with hzero | hone
      · exact .inl (by simp [Point.assignment, hzero])
      · exact .inr (by simp [Point.assignment, hone])
  have hempty : (empty d.model.columns.size : VariableBounds Exact).SatisfiedBy x.assignment := by
    intro side c y b hline
    rw [lines_empty] at hline
    cases hline
  have hsatisfied := (hiff _ hconfines).mpr ⟨hempty, fun row hrow _ => hrows row hrow⟩
  rintro y value ⟨c, side, v⟩ ⟨lines, bound, hlines, hline, rfl⟩ hy
  have hvalue : x.assignment y = if value then 1 else 0 := by
    unfold BinaryLiteral.HoldsAt at hy
    rw [Point.assignment, hy]
    split <;> simp
  have hholds := hsatisfied side c y bound (by
    rw [VariableBounds.lines, hlines]
    exact hline)
  rw [hvalue, VariableBound.valueAt_binary] at hholds
  exact hholds

end VariableBounds

end BranchBound
