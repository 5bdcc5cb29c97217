import BranchBound.Proofs.Conflict.LiteralExplanation
import BranchBound.Proofs.Counted

/-!
# Explanations are earlier

A change is explained by changes before it, and an infeasibility by changes on record. Whatever the
numbers are, an explanation is found if everything that reasons refer to is part of the model.
-/

namespace BranchBound

open Checked

variable {α : Type} [Scalar α]

namespace Contributions

variable {s : Contributions α} {first limit : Nat}

/-- Everything that is collected was changed within a range of positions. -/
structure Between (s : Contributions α) (first limit : Nat) : Prop where
  positions : ∀ p ∈ s.positions, first ≤ p ∧ p < limit
  candidates : ∀ c ∈ s.candidates, first ≤ c.2 ∧ c.2 < limit

theorem between_zero : (⟨.zero, [], []⟩ : Contributions α).Between first limit :=
  ⟨fun _ hp => (List.not_mem_nil hp).elim, fun _ hc => (List.not_mem_nil hc).elim⟩

theorem Between.add (h : s.Between first limit) (a : α) {bound : Bound α}
    (hbefore : ∀ p, bound.position = some p → p < limit) (globalValue : α) :
    (s.add first a bound globalValue).Between first limit := by
  unfold Contributions.add
  cases hposition : bound.position with
  | none => exact ⟨h.positions, h.candidates⟩
  | some p =>
      have hlt := hbefore p hposition
      dsimp only [Option.getD_some]
      split
      · exact ⟨h.positions, h.candidates⟩
      · next hlocal =>
          have hfirst : first ≤ p := by
            have hboth : first ≤ p ∧ (bound.value != globalValue) = true := by simpa using hlocal
            exact hboth.1
          split
          · refine ⟨fun q hq => ?_, h.candidates⟩
            rcases List.mem_append.mp hq with hq | hq
            · exact h.positions q hq
            · exact List.mem_singleton.mp hq ▸ ⟨hfirst, hlt⟩
          · refine ⟨h.positions, fun c hc => ?_⟩
            rcases List.mem_append.mp hc with hc | hc
            · exact h.candidates c hc
            · rw [List.mem_singleton.mp hc]
              exact ⟨hfirst, hlt⟩

/-- What is taken was collected. -/
theorem mem_takeUntil {enough : CompensatedSum α → Bool} {activity : CompensatedSum α}
    {positions : List Nat} {candidates : List (α × Nat)} {p : Nat}
    (hp : p ∈ (takeUntil enough activity positions candidates).2) :
    p ∈ positions ∨ ∃ c ∈ candidates, c.2 = p := by
  induction candidates generalizing activity positions with
  | nil => exact .inl hp
  | cons c rest ih =>
      simp only [takeUntil] at hp
      split at hp
      · exact .inl hp
      · rcases ih hp with hp | ⟨c', hc', rfl⟩
        · rcases List.mem_append.mp hp with hp | hp
          · exact .inl hp
          · exact .inr ⟨c, List.mem_cons_self .., (List.mem_singleton.mp hp).symm⟩
        · exact .inr ⟨c', List.mem_cons_of_mem _ hc', rfl⟩

theorem Between.takeUntil (h : s.Between first limit) {enough : CompensatedSum α → Bool}
    {activity : CompensatedSum α} {p : Nat}
    (hp : p ∈ (takeUntil enough activity s.positions (s.candidates.mergeSort addsMore)).2) :
    first ≤ p ∧ p < limit := by
  rcases mem_takeUntil hp with hp | ⟨c, hc, rfl⟩
  · exact h.positions p hp
  · exact h.candidates c (List.mem_mergeSort.mp hc)

end Contributions

namespace Domain

variable {d : Domain α} {limit : Nat} {entries : List (ColumnId × α)} {rhs : α}
  {explained : Option (Explained α)}

section Linear

variable (h : d.Traced)

include h

theorem Traced.boundBefore_position_lt {side : Side} {c : ColumnId} {b : Bound α}
    (hb : d.boundBefore side c limit = .ok b) : ∀ p, b.position = some p → p < limit := by
  have hc : c < d.model.columns.size := by
    simp only [boundBefore, bound, bind_eq_ok, fetch_eq_ok] at hb
    obtain ⟨current, hcurrent, -⟩ := hb
    rw [← h.bounds_size side, ← h.shrinking.built.bounds_size, trail_bounds]
    exact (Array.getElem?_eq_some_iff.mp hcurrent).1
  exact ((h.boundBefore_returns hc).of_eq_ok hb).position_lt h.numeric.unset

theorem Traced.contributions_between {s s' : Contributions α}
    (hs : s.Between d.globalLength limit)
    (hok : d.contributions limit explained s entries = .ok (some s')) :
    s'.Between d.globalLength limit := by
  induction entries generalizing s with
  | nil =>
      cases hok
      exact hs
  | cons e rest ih =>
      simp only [contributions] at hok
      split at hok
      · exact ih hs hok
      · simp only [bind_eq_ok] at hok
        obtain ⟨bound, hbound, hok⟩ := hok
        split at hok
        · cases hok
        · simp only [bind_eq_ok] at hok
          obtain ⟨globalBound, -, hok⟩ := hok
          exact ih (hs.add e.2 (h.boundBefore_position_lt hbound) globalBound.value) hok

/-- A linear constraint is explained by local changes before the limit. -/
theorem Traced.explainAtMost_between {positions : List Nat}
    (hok : d.explainAtMost entries rhs limit explained = .ok (some positions)) :
    ∀ p ∈ positions, d.globalLength ≤ p ∧ p < limit := by
  simp only [explainAtMost, bind_eq_ok] at hok
  obtain ⟨o, hcollected, hok⟩ := hok
  cases o with
  | none => cases hok
  | some s =>
      have hs := h.contributions_between Contributions.between_zero hcollected
      cases explained with
      | none =>
          simp only [pure_eq_ok, Option.ite_none_right_eq_some, Option.some.injEq] at hok
          obtain ⟨-, rfl⟩ := hok
          exact fun p hp => hs.takeUntil hp
      | some e =>
          simp only [bind_eq_ok] at hok
          obtain ⟨required, -, hok⟩ := hok
          cases required with
          | none => cases hok
          | some required =>
              simp only [pure_eq_ok, Option.ite_none_right_eq_some, Option.some.injEq] at hok
              obtain ⟨-, rfl⟩ := hok
              exact fun p hp => hs.takeUntil hp

theorem Traced.explainAtLeast_between {positions : List Nat}
    (hok : d.explainAtLeast entries rhs limit explained = .ok (some positions)) :
    ∀ p ∈ positions, d.globalLength ≤ p ∧ p < limit :=
  h.explainAtMost_between hok

theorem Traced.contributions_succeeds {s : Contributions α}
    (hentries : ∀ e ∈ entries, e.1 < d.model.columns.size) :
    Succeeds (d.contributions limit explained s entries) := by
  induction entries generalizing s with
  | nil => exact .ok trivial
  | cons e rest ih =>
      have hrest := fun s => ih (s := s) fun e he => hentries e (List.mem_cons_of_mem _ he)
      have hc := hentries e (List.mem_cons_self ..)
      simp only [contributions]
      refine .ite (fun _ => hrest s) fun _ => ?_
      refine (h.boundBefore_returns hc).succeeds.bind fun bound _ => .ite (fun _ => succeeds_pure _)
        fun _ => ?_
      exact (h.boundBefore_returns hc).succeeds.bind fun globalBound _ => hrest _

/-- A linear constraint over columns of the model is explained, if at all. -/
theorem Traced.explainAtMost_succeeds (hentries : ∀ e ∈ entries, e.1 < d.model.columns.size)
    (hexplained : ∀ e, explained = some e → e.change.column < d.model.columns.size) :
    Succeeds (d.explainAtMost entries rhs limit explained) := by
  refine (h.contributions_succeeds hentries).bind fun o _ => ?_
  cases o with
  | none => exact succeeds_pure _
  | some s =>
      cases explained with
      | none => exact succeeds_pure _
      | some e =>
          have hrequired : Succeeds (d.requiredActivity rhs e) :=
            Succeeds.bind (Succeeds.bind (Succeeds.bind (fetch_succeeds (hexplained e rfl))
              fun _ _ => succeeds_pure _) fun _ _ => succeeds_pure _) fun _ _ => succeeds_pure _
          refine hrequired.bind fun required _ => ?_
          cases required <;> exact succeeds_pure _

theorem Traced.explainAtLeast_succeeds (hentries : ∀ e ∈ entries, e.1 < d.model.columns.size)
    (hexplained : ∀ e, explained = some e → e.change.column < d.model.columns.size) :
    Succeeds (d.explainAtLeast entries rhs limit explained) := by
  refine h.explainAtMost_succeeds (fun e he => ?_) fun e he => ?_
  · obtain ⟨e, hmem, rfl⟩ := List.mem_map.mp he
    exact hentries e hmem
  · obtain ⟨e, hsome, rfl⟩ := Option.map_eq_some_iff.mp he
    exact hexplained e hsome

end Linear

end Domain

/-- What a reason names is part of the model, if it names a row or a column. -/
def Reason.Within (m : Model α) : Reason → Prop
  | .rowUpper r | .rowLower r => r < m.rows.size
  | .clique c _ | .variableBound c _ => c < m.columns.size
  | .branching | .unknown | .cut _ _ | .conflict _ _ | .objective | .conflictingBounds _ => True

namespace Domain

/-- Everything that reasons refer to is over columns of the model. -/
structure Refers (d : Domain α) (pools : Pools α) : Prop where
  reasons : ∀ entry ∈ d.log, entry.reason.Within d.model
  rows : ∀ (r : RowId) row, d.model.rows[r]? = some row →
    ∀ e ∈ row.entries, e.1 < d.model.columns.size
  cuts : ∀ index id cut, d.cutBehind pools.cuts index id = some cut →
    ∀ e ∈ cut.entries, e.1 < d.model.columns.size
  conflicts : ∀ index id literals, d.conflictBehind pools.conflicts index id = some literals →
    ∀ l ∈ literals, l.column < d.model.columns.size
  costs : ∀ o, d.objective = some o → o.costs.size = d.model.columns.size

variable {d : Domain α} {pools : Pools α} {limit position : Nat} {explained : Option (Explained α)}

theorem Refers.cutoffInequality (h : d.Refers pools) {i : Inequality α}
    (hi : d.cutoffInequality? = some i) : ∀ e ∈ i.entries, e.1 < d.model.columns.size := by
  simp only [cutoffInequality?, Option.bind_eq_bind, Option.bind_eq_some_iff] at hi
  obtain ⟨o, ho, hi⟩ := hi
  split at hi
  · cases hi
  · cases hi
    intro e he
    obtain ⟨⟨cost, c⟩, hmem, hcost⟩ := List.mem_filterMap.mp he
    have hc : c < d.model.columns.size := by
      rw [← h.costs o ho, ← Array.length_toList]
      exact (List.getElem?_eq_some_iff.mp (List.mem_zipIdx_iff_getElem?.mp hmem)).1
    dsimp only at hcost
    split at hcost
    · cases hcost
    · cases hcost
      exact hc

variable [Scalar.LinearlyOrdered α] (h : d.Traced) (hrefers : d.Refers pools)

include h hrefers

/-- The objective is explained by changes before the limit. -/
theorem Traced.explainByObjective_returns
    (hexplained : ∀ e, explained = some e → e.change.column < d.model.columns.size) :
    Returns (d.explainByObjective limit explained) fun o =>
      ∀ positions, o = some positions → ∀ p ∈ positions, p < limit := by
  unfold explainByObjective
  cases hi : d.cutoffInequality? with
  | none => exact .pure nofun
  | some i =>
      have hcolumns := hrefers.cutoffInequality hi
      refine Returns.bind (h.explainAtMost_succeeds hcolumns hexplained) fun o ho _ => ?_
      cases o with
      | some positions =>
          refine .pure fun found hfound p hp => ?_
          obtain rfl := Option.some.inj hfound
          exact (h.explainAtMost_between ho p hp).2
      | none =>
          refine (h.boundPositions_returns fun c hc => ?_).bind fun positions _ hpositions =>
            .pure fun found hfound => ?_
          · obtain ⟨e, he, rfl⟩ := List.mem_map.mp (List.mem_of_mem_filter hc)
            exact hcolumns e he
          · obtain rfl := Option.some.inj hfound
            exact hpositions.1

omit hrefers in
/-- The literals of a conflict, a clique or a variable bound are explained by changes before the
limit. -/
theorem Traced.literalPositions_before {literals : List (BoundChange α)}
    (hcolumns : ∀ l ∈ literals, l.column < d.model.columns.size) :
    Returns (d.literalPositions limit literals) fun o =>
      ∀ positions, o = some positions → ∀ p ∈ positions, p < limit :=
  (h.literalPositions_returns hcolumns).mono fun _ _ ho positions hpositions =>
    (ho.1 positions hpositions).1

/-- A change on record is explained by earlier ones, if it is explained. -/
theorem Traced.explainChange_earlier (hposition : position < d.log.size) :
    Returns (d.explainChange pools position) fun o =>
      ∀ positions, o = some positions → ∀ p ∈ positions, p < position := by
  have hnone : Returns (pure none : Checked (Option (List Nat))) fun o =>
      ∀ positions, o = some positions → ∀ p ∈ positions, p < position := .pure nofun
  refine (fetch_returns hposition).bind fun entry _ hentry => ?_
  have hc := h.column_lt hentry
  have hwithin := hrefers.reasons entry (Array.mem_of_getElem? hentry)
  have hexplained : ∀ {a : α} (e : Explained α), some ⟨entry.change, a⟩ = some e →
      e.change.column < d.model.columns.size := fun e he => Option.some.inj he ▸ hc
  have hliteral : ∀ c value, c < d.model.columns.size →
      ∀ l ∈ [BoundChange.fixing (α := α) c value], l.column < d.model.columns.size := by
    intro c value hc l hl
    rw [List.mem_singleton.mp hl]
    cases value <;> exact hc
  have hlinear : ∀ {x : Checked (Option (List Nat))}, Succeeds x →
      (∀ positions, x = .ok (some positions) → ∀ p ∈ positions, d.globalLength ≤ p ∧ p < position) →
      Returns x fun o => ∀ positions, o = some positions → ∀ p ∈ positions, p < position :=
    fun hsucceeds hbetween => hsucceeds.mono fun o ho _ positions hpositions p hp =>
      (hbetween positions (hpositions ▸ ho) p hp).2
  cases hreason : entry.reason with
  | rowUpper r =>
      rw [hreason] at hwithin
      refine (fetch_returns hwithin).bind fun row _ hrow => ?_
      cases coefficientOf entry.change.column row.entries with
      | none => exact hnone
      | some a =>
          exact hlinear (h.explainAtMost_succeeds (hrefers.rows r row hrow) hexplained)
            fun _ hok => h.explainAtMost_between hok
  | rowLower r =>
      rw [hreason] at hwithin
      refine (fetch_returns hwithin).bind fun row _ hrow => ?_
      cases coefficientOf entry.change.column row.entries with
      | none => exact hnone
      | some a =>
          exact hlinear (h.explainAtLeast_succeeds (hrefers.rows r row hrow) hexplained)
            fun _ hok => h.explainAtLeast_between hok
  | cut index id =>
      dsimp only
      cases hcut : d.cutBehind pools.cuts index id with
      | none => exact hnone
      | some cut =>
          dsimp only
          cases coefficientOf entry.change.column cut.entries with
          | none => exact hnone
          | some a =>
              exact hlinear (h.explainAtMost_succeeds (hrefers.cuts index id cut hcut) hexplained)
                fun _ hok => h.explainAtMost_between hok
  | conflict index id =>
      dsimp only
      cases hliterals : d.conflictBehind pools.conflicts index id with
      | none => exact hnone
      | some literals =>
          exact h.literalPositions_before fun l hl =>
            hrefers.conflicts index id literals hliterals l (List.mem_of_mem_filter hl)
  | clique c value | variableBound c value =>
      rw [hreason] at hwithin
      exact h.literalPositions_before (hliteral c value hwithin)
  | objective =>
      exact (fetch_returns hc).bind fun column _ _ => h.explainByObjective_returns hrefers
        hexplained
  | branching | unknown | conflictingBounds _ => exact hnone

/-- An infeasibility is explained by changes on record. -/
theorem Traced.explainInfeasibility_lt {positions : List Nat}
    (hok : d.explainInfeasibility pools = .ok (some positions)) :
    ∀ p ∈ positions, p < d.log.size := by
  unfold explainInfeasibility at hok
  cases hi : d.infeasible with
  | none =>
      rw [hi] at hok
      cases hok
  | some i =>
      rw [hi] at hok
      dsimp only at hok
      have hlimit : min (i.position + 1) d.log.size ≤ d.log.size := Nat.min_le_right ..
      have hlinear : (∀ p ∈ positions, d.globalLength ≤ p ∧ p < min (i.position + 1) d.log.size) →
          ∀ p ∈ positions, p < d.log.size := fun hbetween p hp =>
        Nat.lt_of_lt_of_le (hbetween p hp).2 hlimit
      have hbefore : ∀ {x : Checked (Option (List Nat))}, Returns x (fun o =>
          ∀ positions, o = some positions → ∀ p ∈ positions, p < min (i.position + 1) d.log.size) →
          x = .ok (some positions) → ∀ p ∈ positions, p < d.log.size := fun hx hok p hp =>
        Nat.lt_of_lt_of_le (hx.of_eq_ok hok positions rfl p hp) hlimit
      cases hreason : i.reason with
      | conflictingBounds position =>
          rw [hreason] at hok
          simp only [bind_eq_ok, pure_eq_ok, Option.some.injEq] at hok
          obtain ⟨crossing, hcrossing, rfl⟩ := hok
          obtain ⟨entry, hentry⟩ : ∃ entry, d.log[position]? = some entry := by
            simp only [explainCrossing, bind_eq_ok, fetch_eq_ok] at hcrossing
            exact ⟨_, hcrossing.choose_spec.1⟩
          exact fun p hp => Nat.lt_of_le_of_lt
            (((h.explainCrossing_returns hentry).of_eq_ok hcrossing).1 p hp)
            (Array.getElem?_eq_some_iff.mp hentry).1
      | rowUpper r =>
          rw [hreason] at hok
          obtain ⟨row, -, hok⟩ := bind_eq_ok.mp hok
          exact hlinear (h.explainAtMost_between hok)
      | rowLower r =>
          rw [hreason] at hok
          obtain ⟨row, -, hok⟩ := bind_eq_ok.mp hok
          exact hlinear (h.explainAtLeast_between hok)
      | cut index id =>
          rw [hreason] at hok
          dsimp only at hok
          split at hok
          · cases hok
          · exact hlinear (h.explainAtMost_between hok)
      | conflict index id =>
          rw [hreason] at hok
          dsimp only at hok
          split at hok
          · cases hok
          · next literals hliterals =>
              exact hbefore (h.literalPositions_before
                (hrefers.conflicts index id literals hliterals)) hok
      | objective =>
          rw [hreason] at hok
          have hnone : ∀ e : Explained α, none = some e → e.change.column < d.model.columns.size :=
            nofun
          exact hbefore (h.explainByObjective_returns hrefers hnone) hok
      | branching | unknown | clique _ _ | variableBound _ _ =>
          rw [hreason] at hok
          cases hok

end Domain

end BranchBound
