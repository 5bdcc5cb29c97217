import BranchBound.Proofs.Conflict.Justified
import BranchBound.Proofs.Conflict.LinearRuns

/-!
# Learned conflicts exclude no solution

A justified log explains itself: whatever reason is given for a change, the positions that are found
for it imply the change at every point that is possible in some node. So in the sets that a
resolution goes through the changes contradict each other from the first one on, which is that of
the infeasibility, and the literals that are learned do as well.
-/

namespace BranchBound

open Checked Exact

variable {f : ℚ} {x : Point} {a : Domain.Anchor}

/-- A literal is true at a point at which its column is zero or one and keeps to its change. -/
theorem BinaryLiteral.holdsAt_of_fixing {c : ColumnId} {value : Bool} (hbinary : x c = 0 ∨ x c = 1)
    (h : (BoundChange.fixing c value : BoundChange Exact).HoldsAt x) :
    BinaryLiteral.HoldsAt ⟨c, value⟩ x := by
  by_contra hfails
  have hother : x c = if value then 0 else 1 := by
    cases value with
    | false => exact hbinary.resolve_left hfails
    | true => exact hbinary.resolve_right hfails
  cases value with
  | false =>
      have hle : number (x c : ℚ) ≤ number 0 := by simpa using (show number (x c : ℚ) ≤ 0 from h)
      rw [hother, number_le] at hle
      norm_num at hle
  | true =>
      have hle : number 1 ≤ number (x c : ℚ) := by simpa using (show 1 ≤ number (x c : ℚ) from h)
      rw [hother, number_le] at hle
      norm_num at hle

namespace Domain

variable {d : Domain Exact} {limit : Nat} {positions : List Nat}

section Explains

variable {constraint : Assignment → Prop} (hinteger : d.model.AllInteger)
  (hbox : x.reading.Inside d.globalBox d.model.columns.size) (hmeets : d.Meets positions x.reading)
  (hconstraint : constraint x.assignment)

include hinteger hbox hmeets hconstraint

/-- If all columns are integer columns, then what is explained holds exactly. -/
theorem Explains.holdsAt {change : BoundChange Exact}
    (h : d.Explains f limit constraint (some change) positions) : change.HoldsAt x := by
  obtain ⟨_, hmem, column, hcolumn, hholds⟩ :=
    h.implies x.assignment hbox (x.wholeOn d.model) hconstraint hmeets
  obtain rfl := Option.mem_some_iff.mp hmem
  rw [hinteger _ column hcolumn] at hholds
  exact Assignment.holdsUpTo_zero.mp hholds

omit hinteger in
theorem Explains.contradiction (h : d.Explains f limit constraint none positions) : False := by
  obtain ⟨_, hnone, -⟩ := h.implies x.assignment hbox (x.wholeOn d.model) hconstraint hmeets
  cases hnone

end Explains

/-- No point is on both sides of two bounds that cross. -/
theorem not_holds_of_crossing {change : BoundChange Exact} {v : Exact}
    (hcrosses : change.side.tighter change.value v = true) (hchange : change.HoldsAt x)
    (hopposite : (⟨change.column, change.side.opposite, v⟩ : BoundChange Exact).HoldsAt x) :
    False := by
  obtain ⟨c, side, w⟩ := change
  cases side with
  | lower =>
      have hlt : v < w := of_decide_eq_true hcrosses
      exact Exact.not_le_of_lt hlt (Exact.le_trans hchange hopposite)
  | upper =>
      have hlt : w < v := of_decide_eq_true hcrosses
      exact Exact.not_le_of_lt hlt (Exact.le_trans hopposite hchange)

section Objective

/-- A change is only explained by an inequality if its column counts there. -/
theorem coefficient_of_explainAtMost {entries : List (ColumnId × Exact)} {rhs : Exact}
    {e : Explained Exact} (h : d.explainAtMost entries rhs limit (some e) = .ok (some positions)) :
    (e.coefficient == 0) = false := by
  by_contra hzero
  obtain ⟨hzero, -⟩ := equal_iff.mp (Bool.eq_true_of_not_eq_false hzero)
  simp only [explainAtMost, requiredActivity, bind_eq_ok] at h
  obtain ⟨s, -, h⟩ := h
  cases s with
  | none => cases h
  | some s =>
      simp only [bind_eq_ok, pure_eq_ok, hzero] at h
      obtain ⟨required, ⟨relax, -, rfl⟩, h⟩ := h
      cases hside : e.change.side <;>
        · simp only [hside, Exact.lt_irrefl, if_false] at h
          cases h

/-- The inequality of the cutoff is that of the costs which are not zero. -/
theorem cutoffInequality_eq_some {i : Inequality Exact} (h : d.cutoffInequality? = some i) :
    ∃ o, d.objective = some o ∧ i.rhs = o.cutoff ∧
      i.entries = o.entries.filter fun e => !(e.2 == (0 : Exact)) := by
  simp only [cutoffInequality?, Option.bind_eq_bind, Option.bind_eq_some_iff] at h
  obtain ⟨o, ho, h⟩ := h
  split at h
  · cases h
  · cases h
    refine ⟨o, ho, rfl, ?_⟩
    rw [ObjectivePropagation.entries, List.filter_map, ← List.filterMap_eq_map,
      ← List.filterMap_eq_filter, List.filterMap_filterMap]
    refine List.filterMap_congr fun y _ => ?_
    cases hzero : y.1 == (0 : Exact) <;> simp [Option.guard, hzero, -ofNat_eq]

/-- There is an inequality if there is a cutoff. -/
theorem cutoffInequality_ne_none {o : ObjectivePropagation Exact} (ho : d.objective = some o)
    (hcutoff : o.cutoff ≠ plus) : d.cutoffInequality? ≠ none := by
  have hinfinite : ¬(o.cutoff == Scalar.infinity) = true := fun h => hcutoff (equal_iff.mp h).1
  simp only [cutoffInequality?, Option.bind_eq_bind, ho, Option.bind_some, hinfinite]
  exact Option.some_ne_none _

/-- Entries without a coefficient do not count. -/
theorem dot_filter_nonzero (entries : List (ColumnId × Exact)) (x : Point) :
    dot (entries.filter fun e => !(e.2 == (0 : Exact)) : List (ColumnId × Exact)) x =
      dot entries x := by
  induction entries with
  | nil => rfl
  | cons e rest ih =>
      cases hzero : e.2 == (0 : Exact) with
      | true =>
          have hcost : e.2.toRat = 0 := by rw [(equal_iff.mp hzero).1]; simp
          rw [List.filter_cons_of_neg (by simp [hzero, -ofNat_eq]), ih, ← Multiset.cons_coe,
            dot_cons, hcost,
            zero_mul, zero_add]
      | false =>
          rw [List.filter_cons_of_pos (by simp [hzero, -ofNat_eq]),
            ← Multiset.cons_coe, dot_cons, ih,
            ← Multiset.cons_coe, dot_cons]

end Objective

end Domain

namespace PropagationState

variable {s : PropagationState Exact} {change : BoundChange Exact} {limit : Nat}

/-- The points that nothing rules out in every node: those of the global box which satisfy the rows,
the tables and the objective, and every cut and conflict that the domain or its pools still hold. -/
structure Possible (s : PropagationState Exact) (x : Point) : Prop where
  box : x.reading.Inside s.domain.globalBox s.domain.model.columns.size
  rows : ∀ (r : RowId) row, s.domain.model.rows[r]? = some row → row.HoldsAt x
  cuts : ∀ index id cut, s.domain.cutBehind s.pools.cuts index id = some cut → cut.HoldsAt x
  conflicts : ∀ index id literals, s.domain.conflictBehind s.pools.conflicts index id =
    some literals →
    ConflictHoldsAt literals x
  cliques : ∀ t, s.domain.cliques = some t → t.HoldsAt x
  variableBounds : ∀ t, s.domain.variableBounds = some t → t.HoldsAt x
  objective : ∀ o, s.domain.objective = some o → o.HoldsAt x

/-- A possible point heeds what the domain was told: binary columns are so in the global box. -/
theorem Possible.heeds (hx : s.Possible x) (hs : s.domain.Sound a f) : s.domain.Heeds x := by
  refine ⟨fun c hc => ?_, hx.cliques, hx.variableBounds, hx.objective⟩
  obtain ⟨column, hcolumn, -, hlower, hupper⟩ := hc
  have hlt := (Array.getElem?_eq_some_iff.mp hcolumn).1
  have hmodel : ∀ side, x.reading.Holds ⟨c, side, (Trail.ofModel s.domain.model).values side c⟩ :=
    fun side => x.reading.weaken (hx.box side c hlt)
      ((hs.traced.shrunkBefore s.domain.globalLength).within side c)
  simp only [Trail.ofModel_values _ hcolumn] at hmodel
  have hlow : column.lower ≤ number (x c : ℚ) := hmodel .lower
  have hhigh : number (x c : ℚ) ≤ column.upper := hmodel .upper
  have hzero := Exact.le_trans hlower hlow
  have hone := Exact.le_trans hhigh hupper
  simp only [ofNat_eq, number_le, Nat.cast_zero, Nat.cast_one] at hzero hone
  have hzero : 0 ≤ x c := by exact_mod_cast hzero
  have hone : x c ≤ 1 := by exact_mod_cast hone
  omega

section Explaining

variable (h : s.Justified) (hs : s.Sound a f)

include h hs

/-- What is on record refers to rows and columns of the model only. -/
theorem Justified.refers : s.domain.Refers s.pools := by
  have hd := hs.domain
  have hcoherent := hd.settled.coherent
  refine ⟨fun entry hentry => ?_, hcoherent.wellFormed.entry_lt, fun index id cut hcut e he => ?_,
    fun index id literals hbehind l hl => ?_, fun o ho => (hcoherent.objective o ho).costs_size⟩
  · obtain ⟨p, hp⟩ := Array.mem_iff_getElem?.mp hentry
    obtain ⟨-, hbacked⟩ := h.backed.allowed_of_log (Trail.fresh_ofModel _) hp
    cases hreason : entry.reason with
    | rowUpper r | rowLower r =>
        rw [hreason] at hbacked
        exact (hbacked nofun).2
    | clique c value | variableBound c value =>
        rw [hreason] at hbacked
        obtain ⟨⟨column, hcolumn, -⟩, -⟩ := (hbacked nofun).2
        exact (Array.getElem?_eq_some_iff.mp hcolumn).1
    | branching | unknown | cut _ _ | conflict _ _ | objective | conflictingBounds _ => trivial
  · obtain ⟨p, hp, ⟨min, hknown⟩ | ⟨-, pool, hpool, hget⟩⟩ := Domain.cutBehind_eq_some.mp hcut
    · exact ((hcoherent.cuts index p hp).entries id cut min hknown e he).1
    · exact hs.wellPooled.cuts p.pool pool id cut hpool hget e he
  · obtain ⟨p, hp, hknown | ⟨-, pool, hpool, hget⟩⟩ := Domain.conflictBehind_eq_some.mp hbehind
    · have hfound : s.domain.conflict? index id = some literals := by
        rw [Domain.conflict?, hp, Option.bind_some, hknown]
      exact (hd.wellMade.conflicts index id literals hfound l hl).1
    · exact (hs.wellPooled.conflicts p.pool pool id literals hpool hget l hl).1

/-- A cut that a reason names repeats no column of the model, and its coefficients are numbers. -/
theorem Justified.cutBehind {index : Nat} {id : CutId} {cut : Inequality Exact}
    (hcut : s.domain.cutBehind s.pools.cuts index id = some cut) :
    Entries s.domain.model.columns.size cut.entries ∧ cut.Distinct := by
  obtain ⟨p, hp, ⟨min, hknown⟩ | ⟨-, pool, hpool, hget⟩⟩ := Domain.cutBehind_eq_some.mp hcut
  · refine ⟨(hs.domain.settled.coherent.cuts index p hp).entries id cut min hknown,
      h.distinct index id cut ?_⟩
    rw [Domain.cut?, hp, Option.bind_some, hknown]
    rfl
  · exact ⟨fun e he => ⟨hs.wellPooled.cuts p.pool pool id cut hpool hget e he,
      hs.settled.pools.coefficients p.pool pool id cut hpool hget e he⟩,
      h.pooledDistinct p.pool pool id cut hpool hget⟩

omit h in
/-- What the cutoff explains follows from it, or from the bounds of the other columns with a
cost. -/
theorem Sound.explainByObjective_implies (explained : Option (Explained Exact))
    (hcosts : ∀ e ∈ explained, ∃ column, s.domain.model.columns[e.change.column]? = some column ∧
      e.coefficient = column.cost)
    (hnear : ∀ e ∈ explained, s.domain.model.IsIntegerColumn e.change.column →
      NearWhole f e.change.side e.change.value) :
    Returns (s.domain.explainByObjective limit explained) fun o =>
      ((∃ o, s.domain.objective = some o ∧ o.cutoff ≠ plus) → o ≠ none) ∧
      ∀ positions, o = some positions → ∀ x, s.Possible x → s.domain.Meets positions x.reading →
        (∃ change ∈ explained.map Explained.change, change.HoldsAt x) ∨
          KeepsCosted s.domain.model (s.domain.valuesBefore limit)
            (explained.map fun e => e.change.column) x := by
  have hd := hs.domain
  unfold Domain.explainByObjective
  cases hi : s.domain.cutoffInequality? with
  | none =>
      refine .pure ⟨fun ⟨o, ho, hcutoff⟩ => absurd hi
        (Domain.cutoffInequality_ne_none ho hcutoff), nofun⟩
  | some i =>
      obtain ⟨o, ho, hrhs, hentries⟩ := Domain.cutoffInequality_eq_some hi
      have hmem : ∀ {c : ColumnId} {cost : Exact}, (c, cost) ∈ i.entries ↔
          (∃ column, s.domain.model.columns[c]? = some column ∧ column.cost = cost) ∧
            (cost == 0) = false := by
        intro c cost
        rw [hentries, List.mem_filter, ObjectivePropagation.mem_entries,
          (hd.wellMade.placed o ho).costs, Array.getElem?_map, Option.map_eq_some_iff,
          Bool.not_eq_true']
      have hnumbers : Entries s.domain.model.columns.size i.entries := by
        rintro ⟨c, cost⟩ he
        obtain ⟨⟨column, hcolumn, rfl⟩, -⟩ := hmem.mp (Multiset.mem_coe.mp he)
        exact ⟨(Array.getElem?_eq_some_iff.mp hcolumn).1, hd.readable.costs c column hcolumn⟩
      have hdistinct : (i.entries.map Prod.fst).Nodup :=
        hentries ▸ ObjectivePropagation.nodup_entries.sublist (List.filter_sublist.map Prod.fst)
      have hcolumns : ∀ e, explained = some e → e.change.column < s.domain.model.columns.size :=
        fun e he => (Array.getElem?_eq_some_iff.mp (hcosts e he).choose_spec.1).1
      refine Returns.bind (hd.traced.explainAtMost_succeeds (fun e he => (hnumbers e he).1)
        hcolumns)
        fun found hfound _ => ?_
      cases found with
      | some positions =>
          have hfits : ∀ e ∈ explained, s.domain.Fits f i.entries e := fun e he => by
            obtain ⟨column, hcolumn, hcost⟩ := hcosts e he
            obtain rfl := Option.mem_def.mp he
            exact ⟨hmem.mpr ⟨⟨column, hcolumn, hcost.symm⟩, Domain.coefficient_of_explainAtMost
              hfound⟩,
              hnear e he⟩
          have hexplains :=
            (hd.traced.explainAtMost_explains hd.feastol hd.positive hnumbers hdistinct
            hfits).of_eq_ok hfound positions rfl
          refine .pure ⟨fun _ => Option.some_ne_none _, fun _ hsome x hx hmeets => .inl ?_⟩
          obtain rfl := Option.some.inj hsome
          have hcutoff : number (x.assignment.total i.entries) ≤ i.rhs := by
            rw [Point.assignment_total, hentries, Domain.dot_filter_nonzero, hrhs]
            exact (hx.objective o ho).cutoff
          cases explained with
          | none => exact (hexplains.contradiction hx.box hmeets hcutoff).elim
          | some e => exact ⟨e.change, rfl, hexplains.holdsAt hd.integer hx.box hmeets hcutoff⟩
      | none =>
          refine (hd.traced.boundPositions_returns fun c hc => ?_).bind
            fun positions _ hpositions =>
            .pure ⟨fun _ => Option.some_ne_none _, fun _ hsome x hx hmeets => .inr ?_⟩
          · obtain ⟨e, he, rfl⟩ := List.mem_map.mp (List.mem_of_mem_filter hc)
            exact (hnumbers e he).1
          · obtain rfl := Option.some.inj hsome
            intro c column hcolumn hcost hfree side
            refine hpositions.2 x.reading hx.box hmeets c (List.mem_filter.mpr ⟨?_, ?_⟩) side
            · refine List.mem_map.mpr ⟨(c, column.cost), hmem.mpr ⟨⟨column, hcolumn, rfl⟩, ?_⟩, rfl⟩
              rw [Bool.eq_false_iff]
              exact fun hzero => hcost (by simpa using (equal_iff.mp hzero).1)
            · cases explained with
              | none => rfl
              | some e =>
                  have hne : e.change.column ≠ c := fun hsame => hfree (hsame ▸ rfl)
                  simpa using hne

/-- Whatever reason is given for a change on record, what is found for it implies the change at
every possible point. -/
theorem Justified.explainChange_implies {position : Nat} {entry : LogEntry Exact}
    (hentry : s.domain.log[position]? = some entry) :
    Returns (s.domain.explainChange s.pools position) fun o => ∀ positions, o = some positions →
      ∀ x, s.Possible x → s.domain.Meets positions x.reading → entry.change.HoldsAt x := by
  have hd := hs.domain
  have hinteger := hd.integer
  have hwhole := h.logsWhole entry (Array.mem_of_getElem? hentry)
  have hnear : s.domain.model.IsIntegerColumn entry.change.column →
      NearWhole f entry.change.side entry.change.value := fun _ =>
    hwhole.nearWhole hd.positive.le entry.change.side
  obtain ⟨-, hbacked⟩ := h.backed.allowed_of_log (Trail.fresh_ofModel _) hentry
  have hlt := hd.traced.column_lt hentry
  cases hreason : entry.reason with
  | rowUpper r =>
      rw [hreason] at hbacked
      have hrow := Array.getElem?_eq_getElem (hbacked (by simp)).2
      refine (hd.traced.explainChange_rowUpper hd.feastol hd.positive hentry hnear hreason hrow
        (hd.rowEntries hrow) (hd.settled.coherent.wellFormed.nodup_entries hrow)).mono
        fun o _ ho positions hpositions x hx hmeets => ?_
      exact (ho positions hpositions).holdsAt hinteger hx.box hmeets (hx.rows r _ hrow).2
  | rowLower r =>
      rw [hreason] at hbacked
      have hrow := Array.getElem?_eq_getElem (hbacked (by simp)).2
      refine (hd.traced.explainChange_rowLower hd.feastol hd.positive hentry hnear hreason hrow
        (hd.rowEntries hrow) (hd.settled.coherent.wellFormed.nodup_entries hrow)).mono
        fun o _ ho positions hpositions x hx hmeets => ?_
      exact (ho positions hpositions).holdsAt hinteger hx.box hmeets (hx.rows r _ hrow).1
  | cut index id =>
      cases hcut : s.domain.cutBehind s.pools.cuts index id with
      | none =>
          rw [Domain.explainChange, fetch_eq_ok.mpr hentry, ok_bind, hreason]
          dsimp only
          rw [hcut]
          exact .pure (by simp)
      | some cut =>
          obtain ⟨hentries, hdistinct⟩ := h.cutBehind hs hcut
          refine (hd.traced.explainChange_cut hd.feastol hd.positive hentry hnear hreason hcut
            hentries
            hdistinct).mono fun o _ ho positions hpositions x hx hmeets => ?_
          exact (ho positions hpositions).holdsAt hinteger hx.box hmeets (hx.cuts index id cut hcut)
  | conflict index id =>
      rw [Domain.explainChange, fetch_eq_ok.mpr hentry, ok_bind, hreason]
      dsimp only
      cases hbehind : s.domain.conflictBehind s.pools.conflicts index id with
      | none => exact .pure (by simp)
      | some literals =>
          rw [hreason] at hbacked
          obtain ⟨-, hleft⟩ := (hbacked (by simp)).2
          refine (hd.traced.literalPositions_returns fun l hl =>
            (h.refers hs).conflicts index id literals
            hbehind l (List.mem_of_mem_filter hl)).mono
              fun o _ ho positions hpositions x hx hmeets => ?_
          -- the literal which fails is the one that was left
          obtain ⟨l, hl, hfails⟩ := hx.conflicts index id literals hbehind
          have hnot : ¬(l.column != entry.change.column ||
            l.side != entry.change.side.opposite) = true :=
            fun hother => hfails
              ((ho.1 positions hpositions).2 x.reading hx.box hmeets l
                (List.mem_filter.mpr ⟨hl, hother⟩))
          have hsame : l.column = entry.change.column ∧ l.side = entry.change.side.opposite := by
            simpa using hnot
          exact hleft literals hbehind l hl hsame.1 hsame.2 x hfails
  | clique c value | variableBound c value =>
      rw [hreason] at hbacked
      obtain ⟨hbinary, himplied⟩ := (hbacked (by simp)).2
      rw [Domain.explainChange, fetch_eq_ok.mpr hentry, ok_bind, hreason]
      refine (hd.traced.literalPositions_returns fun l hl => ?_).mono
        fun o _ ho positions hpositions x hx hmeets => ?_
      · rw [List.mem_singleton.mp hl]
        obtain ⟨column, hcolumn, -⟩ := hbinary
        cases value <;> exact (Array.getElem?_eq_some_iff.mp hcolumn).1
      · have hheeds := hx.heeds hd
        refine himplied x hheeds (BinaryLiteral.holdsAt_of_fixing (hheeds.binaries c hbinary) ?_)
        exact (ho.1 positions hpositions).2 x.reading hx.box hmeets _ (List.mem_singleton_self _)
  | objective =>
      rw [hreason] at hbacked
      have hsupports := (hbacked (by simp)).2
      rw [Domain.explainChange, fetch_eq_ok.mpr hentry, ok_bind, hreason]
      refine (fetch_returns hlt).bind fun column _ hcolumn => ?_
      refine (hs.explainByObjective_implies (some ⟨entry.change, column.cost⟩) (fun e he => ?_)
        fun e he => ?_).mono fun o _ ho positions hpositions x hx hmeets => ?_
      · obtain rfl := Option.mem_some_iff.mp he
        exact ⟨column, hcolumn, rfl⟩
      · obtain rfl := Option.mem_some_iff.mp he
        exact hnear
      · rcases ho.2 positions hpositions x hx hmeets with ⟨_, hchange, hholds⟩ | hcosted
        · obtain rfl := Option.mem_some_iff.mp hchange
          exact hholds
        · exact hsupports x (hx.heeds hd) hcosted
  | branching | unknown | conflictingBounds _ =>
      rw [Domain.explainChange, fetch_eq_ok.mpr hentry, ok_bind, hreason]
      exact .pure (by simp)

/-- Why the domain is infeasible is explained by changes which no possible point meets. -/
theorem Justified.explainInfeasibility_contradicts
    (hnonzero : ∀ (r : RowId) row, s.domain.model.rows[r]? = some row →
      ∀ e ∈ row.entries, e.2 ≠ number 0) {i : Infeasibility} (hi : s.domain.infeasible = some i) :
    Returns (s.domain.explainInfeasibility s.pools) fun o => ∃ positions, o = some positions ∧
      (∀ p ∈ positions, p < s.domain.log.size) ∧
      ∀ x, s.Possible x → ¬s.domain.Meets positions x.reading := by
  have hd := hs.domain
  have htraced := hd.traced
  have hviolated := h.violated i hi
  have hrefers := h.refers hs
  -- an infeasibility is found at the end of the log
  have hlimit : min (i.position + 1) s.domain.log.size = s.domain.log.size :=
    Nat.min_eq_right (hd.latchedAtEnd i hi)
  have hvalues : s.domain.valuesBefore s.domain.log.size = s.domain.values :=
    Domain.valuesBefore_size htraced.decisionsLogged
  have hfound : Returns (s.domain.explainInfeasibility s.pools) fun o => o ≠ none ∧
      ∀ positions, o = some positions → ∀ x, s.Possible x →
      ¬s.domain.Meets positions x.reading := by
    rw [Domain.explainInfeasibility, hi]
    dsimp only
    rw [hlimit]
    cases hreason : i.reason with
    | rowUpper r =>
        rw [hreason] at hviolated
        obtain ⟨row, hrow, hexceeds⟩ := hviolated
        dsimp only
        rw [Model.row, fetch_eq_ok.mpr hrow, ok_bind]
        refine (htraced.explainAtMost_violated hd.feastol (hd.rowEntries hrow) hd.positive).mono
          fun o _ ho => ⟨ho.2 (hvalues ▸ hexceeds.finite) (hvalues ▸ hexceeds.above), ?_⟩
        exact fun positions hpositions x hx hmeets =>
          ho.1 positions hpositions x.assignment hx.box hmeets (hx.rows r row hrow).2
    | rowLower r =>
        rw [hreason] at hviolated
        obtain ⟨row, hrow, hshort⟩ := hviolated
        dsimp only
        rw [Model.row, fetch_eq_ok.mpr hrow, ok_bind]
        refine (htraced.explainAtLeast_violated hd.feastol (hd.rowEntries hrow) hd.positive).mono
          fun o _ ho =>
            ⟨ho.2 (hnonzero r row hrow) (hvalues ▸ hshort.finite) (hvalues ▸ hshort.below), ?_⟩
        exact fun positions hpositions x hx hmeets =>
          ho.1 positions hpositions x.assignment hx.box hmeets (hx.rows r row hrow).1
    | cut index id =>
        rw [hreason] at hviolated
        obtain ⟨cut, hcut, hexceeds⟩ := hviolated
        have hbehind : s.domain.cutBehind s.pools.cuts index id = some cut := by
          obtain ⟨p, hp, hknown⟩ := Option.bind_eq_some_iff.mp hcut
          obtain ⟨known, hknown, hsame⟩ := Option.map_eq_some_iff.mp hknown
          exact Domain.cutBehind_eq_some.mpr ⟨p, hp, .inl ⟨known.2, hsame ▸ hknown⟩⟩
        dsimp only
        rw [hbehind]
        refine (htraced.explainAtMost_violated hd.feastol (h.cutBehind hs hbehind).1
          hd.positive).mono
          fun o _ ho => ⟨ho.2 (hvalues ▸ hexceeds.finite) (hvalues ▸ hexceeds.above), ?_⟩
        exact fun positions hpositions x hx hmeets =>
          ho.1 positions hpositions x.assignment hx.box hmeets (hx.cuts index id cut hbehind)
    | conflict index id =>
        rw [hreason] at hviolated
        obtain ⟨literals, hconflict, hall⟩ := hviolated
        have hbehind : s.domain.conflictBehind s.pools.conflicts index id = some literals := by
          obtain ⟨p, hp, hknown⟩ := Option.bind_eq_some_iff.mp hconflict
          exact Domain.conflictBehind_eq_some.mpr ⟨p, hp, .inl hknown⟩
        dsimp only
        rw [hbehind]
        refine (htraced.literalPositions_returns (hrefers.conflicts index id literals hbehind)).mono
          fun o _ ho => ⟨ho.2 (hvalues ▸ hall), fun positions hpositions x hx hmeets => ?_⟩
        obtain ⟨l, hl, hfails⟩ := hx.conflicts index id literals hbehind
        exact hfails ((ho.1 positions hpositions).2 x.reading hx.box hmeets l hl)
    | objective =>
        rw [hreason] at hviolated
        obtain ⟨hcutoff, hnone⟩ := hviolated
        refine (hs.explainByObjective_implies none (by simp) (by simp)).mono
          fun o _ ho => ⟨ho.1 hcutoff, fun positions hpositions x hx hmeets => ?_⟩
        rcases ho.2 positions hpositions x hx hmeets with ⟨_, hchange, -⟩ | hcosted
        · cases hchange
        · rw [hvalues] at hcosted
          exact hnone x (hx.heeds hd) hcosted
    | conflictingBounds p =>
        rw [hreason] at hviolated
        obtain ⟨entry, hentry, hcrosses⟩ := hviolated
        refine (htraced.explainCrossing_returns hentry).bind fun positions _ hpositions =>
          .pure ⟨Option.some_ne_none _, fun _ hsome x hx hmeets => ?_⟩
        obtain rfl := Option.some.inj hsome
        obtain ⟨hchange, hopposite⟩ := hpositions.2 x.reading hx.box hmeets
        exact Domain.not_holds_of_crossing hcrosses hchange hopposite
    | branching | unknown | clique _ _ | variableBound _ _ =>
        rw [hreason] at hviolated
        exact hviolated.elim
  refine hfound.mono fun o hok ho => ?_
  obtain ⟨positions, rfl⟩ := Option.ne_none_iff_exists'.mp ho.1
  exact ⟨positions, rfl, htraced.explainInfeasibility_lt hrefers hok, ho.2 positions rfl⟩

/-! ### Resolving -/

/-- Of some points, none meets the changes at the positions of a set. -/
def Contradictory (s : PropagationState Exact) (X : Point → Prop) (set : ConflictSet) : Prop :=
  ∀ x, X x → ¬s.domain.Meets set.positions x.reading

variable {X : Point → Prop} (hX : ∀ x, X x → s.Possible x)

include hX

/-- Replacing a position by what explains it leaves a set contradictory. -/
theorem Justified.contradictory_of_resolves {set set' : ConflictSet} (hset : set.Local s.domain)
    (hcontradicts : s.Contradictory X set) (hstep : s.domain.Resolves s.pools set set') :
    s.Contradictory X set' := by
  obtain ⟨deepest, explanation, hlast, hexplain, rfl⟩ := hstep
  have hentry := Array.getElem?_eq_getElem (hset.inside deepest (List.mem_of_getLast? hlast)).2
  have himplies := (h.explainChange_implies hs hentry).of_eq_ok hexplain explanation rfl
  refine fun x hx hmeets => hcontradicts x hx fun p hp hlocal entry hp' => ?_
  by_cases hsame : p = deepest
  · subst hsame
    obtain rfl := Option.some.inj (hentry.symm.trans hp')
    exact himplies x (hX x hx) fun q hq hlocal =>
      hmeets q (ConflictSet.mem_insert.mpr (.inr ⟨hq, hlocal⟩)) hlocal
  · exact hmeets p (ConflictSet.mem_insert.mpr (.inl (ConflictSet.mem_erase.mpr ⟨hp, hsame⟩)))
      hlocal
      entry hp'

/-- Every set that a contradictory set resolves to is contradictory. -/
theorem Justified.contradictory_of_resolution {set set' : ConflictSet} (hset : set.Local s.domain)
    (hcontradicts : s.Contradictory X set)
    (hsteps : Relation.ReflTransGen (s.domain.Resolves s.pools) set set') :
    s.Contradictory X set' := by
  induction hsteps with
  | refl => exact hcontradicts
  | tail hbefore hstep ih =>
      have hlocal := Domain.resolves_local hs.domain.traced (h.refers hs) hbefore hset
      exact h.contradictory_of_resolves hs hX hlocal ih hstep

/-- The conflicts that are computed from a set hold at every possible point which contradicts it. -/
theorem Justified.computeConflicts_hold {set : ConflictSet} (hset : set.Local s.domain)
    (hcontradicts : s.Contradictory X set) (maxSize maxConflicts : Nat) :
    Returns (s.domain.computeConflicts s.pools set maxSize maxConflicts) fun r =>
      ∀ conflict ∈ r.conflicts, ∀ x, X x → ConflictHoldsAt conflict x := by
  have htraced := hs.domain.traced
  have hrefers := h.refers hs
  refine (htraced.computeConflicts_returns hrefers hs.domain.settled hset maxSize maxConflicts).mono
    fun r hr _ conflict hconflict x hx => ?_
  obtain ⟨learned, hall, hadds⟩ := Domain.resolveWithin_adds hr
  rw [hall, List.nil_append] at hconflict
  obtain ⟨t, hsteps, hliterals, -⟩ := hadds.learns conflict hconflict
  have hlocal := Domain.resolves_local htraced hrefers hsteps hset
  by_contra hholds
  refine h.contradictory_of_resolution hs hX hset hcontradicts hsteps x hx ?_
  refine htraced.meets_of_literals hlocal hliterals fun l hl => ?_
  by_contra hfails
  exact hholds ⟨l, hl, hfails⟩

end Explaining

end PropagationState

/-- **Learned conflicts exclude no solution.** If all columns are integer columns, the tolerance is
less than one, and bounds are only changed to whole values, then whenever a domain is infeasible,
this can be explained, and of every conflict that is computed from the explanation, of whatever size
and number, some literal fails at every whole point that is possible at all: in the global box, and
satisfying all rows, cuts, conflicts, tables and the objective. So if an empty conflict is computed,
there is no such point. -/
theorem learned_conflicts_exclude_no_solution {draft : Draft Exact} {model : Model Exact} {f : ℚ}
    {s : PropagationState Exact} (hmodel : draft.build = .ok model) (hinteger : model.AllInteger)
    (hf : 0 < f) (hf' : f < 1) (h : Reachable (fun s op => op.Learns s) model (number f) s)
    (hinfeasible : s.domain.isInfeasible = true) :
    Returns (s.domain.conflictSet? s.pools none) fun o => ∃ set, o = some set ∧
      ∀ maxSize maxConflicts, Returns (s.domain.computeConflicts s.pools set maxSize maxConflicts)
        fun r => ∀ conflict ∈ r.conflicts, ∀ x, s.Possible x → ConflictHoldsAt conflict x := by
  obtain ⟨hs, hjustified⟩ := h.justified hmodel hinteger hf hf' fun _ _ hs hop => hop.informs hs
  obtain ⟨i, hi⟩ := Option.isSome_iff_exists.mp hinfeasible
  have hnonzero : ∀ (r : RowId) row, s.domain.model.rows[r]? = some row →
      ∀ e ∈ row.entries, e.2 ≠ number 0 := by
    rw [h.constant.1]
    exact fun r row hrow => Draft.nonzero_of_build hmodel hrow
  refine (hjustified.explainInfeasibility_contradicts hs hnonzero hi).bind
    fun o _ ⟨positions, hpositions, hlogged, hcontradicts⟩ => .pure ?_
  subst hpositions
  refine ⟨_, rfl, fun maxSize maxConflicts => ?_⟩
  refine hjustified.computeConflicts_hold hs (fun _ hx => hx)
    (ConflictSet.local_insert_empty _ hlogged)
    (fun x hx hmeets => hcontradicts x hx fun p hp hlocal => ?_) maxSize maxConflicts
  exact hmeets p (ConflictSet.mem_insert.mpr (.inr ⟨hp, hlocal⟩)) hlocal

/-- Two columns whose sum is at most five, and the first is not above the second. -/
def orderedCapacity : Draft Exact :=
  ⟨#[⟨0, 0, 5, .integer⟩, ⟨0, 0, 5, .integer⟩],
    #[⟨minus, 5, [(0, 1), (1, 1)]⟩, ⟨minus, 0, [(0, 1), (1, -1)]⟩], 0⟩

/-- The first column takes more than half. -/
def overfullDecision : List (Operation Exact) :=
    [.changeBound (.atLeast 0 3) .branching, .propagate]

/-- Without pools, tables and an objective, the points of the global box are possible which satisfy
the rows. -/
theorem PropagationState.Possible.of_rows {s : PropagationState Exact}
    (hcuts : s.domain.cutPropagations = #[]) (hconflicts : s.domain.conflictPropagations = #[])
    (hcliques : s.domain.cliques = none) (hbounds : s.domain.variableBounds = none)
    (hobjective : s.domain.objective = none)
    (hbox : ∀ c < s.domain.model.columns.size, s.domain.globalBox .lower c ≤ number (x c : ℚ) ∧
      number (x c : ℚ) ≤ s.domain.globalBox .upper c)
    (hrows : ∀ row ∈ s.domain.model.rows, row.HoldsAt x) : s.Possible x where
  box := fun side c hc => by
    cases side with
    | lower => exact (hbox c hc).1
    | upper => exact (hbox c hc).2
  rows := fun r row hrow => hrows row (Array.mem_of_getElem? hrow)
  cuts := fun index id cut hcut => by
    obtain ⟨p, hp, -⟩ := Domain.cutBehind_eq_some.mp hcut
    simp [hcuts] at hp
  conflicts := fun index id literals hbehind => by
    obtain ⟨p, hp, -⟩ := Domain.conflictBehind_eq_some.mp hbehind
    simp [hconflicts] at hp
  cliques := fun t ht => by cases hcliques.symm.trans ht
  variableBounds := fun t ht => by cases hbounds.symm.trans ht
  objective := fun o ho => by cases hobjective.symm.trans ho

/-- From the decision a conflict is learned which forbids it, but zero remains possible. -/
theorem overfull_decision_learned :
    ∃ (model : Model Exact) (s : PropagationState Exact) (set : ConflictSet),
      orderedCapacity.build = .ok model ∧ s.Possible 0 ∧
      s.domain.conflictSet? s.pools none = .ok (some set) ∧
      (∃ r, s.domain.computeConflicts s.pools set 5 5 = .ok r ∧ r.conflicts.map List.length = [1]) ∧
      Returns (s.domain.computeConflicts s.pools set 5 5) fun r =>
        ∀ conflict ∈ r.conflicts, ∀ x, s.Possible x → ConflictHoldsAt conflict x := by
  have hrun : passes orderedCapacity.build (fun model =>
        passes (Domain.ofModel model (number (1 / 1000000))) fun d =>
          passes (overfullDecision.foldlM (fun s op => op.perform s) ⟨.empty, d⟩) fun s =>
            model.columns.all (fun c => c.kind == .integer) && s.domain.isInfeasible &&
              s.domain.cutPropagations.isEmpty && s.domain.conflictPropagations.isEmpty &&
              s.domain.cliques.isNone && s.domain.variableBounds.isNone &&
              s.domain.objective.isNone &&
              ((List.range s.domain.model.columns.size).all (fun c =>
                s.domain.globalBox .lower c ≤ number ((0 : Point) c : ℚ) &&
                  number ((0 : Point) c : ℚ) ≤ s.domain.globalBox .upper c) &&
                s.domain.model.rows.all fun row => row.HoldsAt 0) &&
                passes (s.domain.conflictSet? s.pools none) fun found => found.any fun set =>
                  passes (s.domain.computeConflicts s.pools set 5 5) fun r =>
                    r.conflicts.map List.length == [1]) = true := by
    rw [(Operation.performUnrolled 100).property, (Domain.conflictSetUnrolled 100).property,
      (Domain.computeConflictsUnrolled 100).property]
    decide +kernel
  obtain ⟨model, hmodel, hrun⟩ := passes_eq_true.mp hrun
  obtain ⟨d, hd, hrun⟩ := passes_eq_true.mp hrun
  obtain ⟨s, hs, hrun⟩ := passes_eq_true.mp hrun
  simp only [Bool.and_eq_true, beq_iff_eq, decide_eq_true_eq, Option.isNone_iff_eq_none,
    Array.all_eq_true_iff_forall_mem, List.all_eq_true, List.mem_range, Array.isEmpty_iff,
    passes_eq_true, Option.any_eq_true] at hrun
  obtain ⟨⟨⟨⟨⟨⟨⟨⟨hinteger, hinfeasible⟩, hcuts⟩, hconflicts⟩, hcliques⟩, hbounds⟩, hobjective⟩,
    hbox, hrows⟩, found, hfound, set, rfl, r, hr, hlengths⟩ := hrun
  have hlearns : ∀ op ∈ overfullDecision, ∀ t : PropagationState Exact, op.Learns t := by
    simp only [overfullDecision, List.forall_mem_cons, List.not_mem_nil,
      false_imp_iff, implies_true,
      and_true, Operation.Learns, Operation.Proper, Operation.Brings, BoundChange.atLeast]
    exact fun _ => ⟨.inl trivial, 3, by simp⟩
  have hreach : Reachable (fun s op => op.Learns s) model (number (1 / 1000000)) s :=
    (Reachable.start hd).performAll (fun t op hop => hlearns op hop t) hs
  have hlearned := (learned_conflicts_exclude_no_solution hmodel
    (fun c column hc => hinteger column (Array.mem_of_getElem? hc)) (by norm_num) (by norm_num)
      hreach
    hinfeasible).of_eq_ok hfound
  obtain ⟨_, hsame, hall⟩ := hlearned
  obtain rfl := Option.some.inj hsame
  exact ⟨model, s, set, hmodel, .of_rows hcuts hconflicts hcliques hbounds hobjective hbox hrows,
    hfound, ⟨r, hr, hlengths⟩, hall 5 5⟩

end BranchBound
