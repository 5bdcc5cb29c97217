import BranchBound.Proofs.Conflict.AssertingRuns
import BranchBound.Proofs.Conflict.LinearExplanation
import BranchBound.Proofs.Domain.WholeColumns

/-!
# Linear explanations in every run

Propagation rounds what it derives for an integer column, and accepting a rounded bound moves it by
the tolerance at most, onto the opposite one. So between such a bound and the next whole number
there is always more than the slack of an explanation: a whole value which keeps to the bound up to
the slack keeps to it.
-/

namespace BranchBound

open Checked Exact

variable {f : ℚ}

namespace Exact

/-- The value is a whole number or inside of one by the tolerance at most, or it is infinite. -/
def NearWhole (f : ℚ) (side : Side) : Exact → Prop
  | number q => ∃ k : ℤ, match side with
    | .lower => (k : ℚ) - f ≤ q ∧ q ≤ k
    | .upper => (k : ℚ) ≤ q ∧ q ≤ k + f
  | _ => True

theorem IsWhole.nearWhole {v : Exact} (h : IsWhole v) (hf : 0 ≤ f) (side : Side) :
    NearWhole f side v := by
  rcases h with rfl | rfl | ⟨k, rfl⟩
  · trivial
  · trivial
  · cases side with
    | lower => exact ⟨k, by linarith, le_rfl⟩
    | upper => exact ⟨k, le_rfl, by linarith⟩

/-- A value that a whole bound exceeds by the tolerance at most is near that bound. -/
theorem nearWhole_of_advance_le {side : Side} {v w : Exact} (hv : IsWhole v)
    (htighter : side.tighter v w = true) (hle : side.advance v w ≤ number f) :
    NearWhole f side w := by
  cases w with
  | plus | minus | nan => trivial
  | number q =>
      cases side with
      | lower =>
          have hlt : number q < v := of_decide_eq_true htighter
          rcases hv with rfl | rfl | ⟨k, rfl⟩
          · cases hle
          · cases hlt
          · rw [Side.advance, number_sub, number_le] at hle
            exact ⟨k, by linarith, (number_lt.mp hlt).le⟩
      | upper =>
          have hlt : v < number q := of_decide_eq_true htighter
          rcases hv with rfl | rfl | ⟨k, rfl⟩
          · cases hlt
          · cases hle
          · rw [Side.advance, number_sub, number_le] at hle
            exact ⟨k, (number_lt.mp hlt).le, by linarith⟩

end Exact

/-- A whole value which keeps to a bound near a whole number up to the slack keeps to the bound. -/
theorem BoundChange.holds_of_nearWhole {change : BoundChange Exact} {a : Assignment} {x : ℤ}
    (hf : 0 < f) (hnear : NearWhole f change.side change.value) (hx : a change.column = x)
    (h : change.HoldsUpTo (1 - 10 * f) a) : change.HoldsUpTo 0 a := by
  obtain ⟨c, side, v⟩ := change
  cases v with
  | plus | minus | nan => cases side <;> exact h
  | number q =>
      obtain ⟨k, hk⟩ := hnear
      cases side with
      | lower =>
          simp only [HoldsUpTo, hx, number_le, add_zero] at h hk ⊢
          have hlt : (k : ℚ) < x + 1 := by linarith
          have hle : (k : ℚ) ≤ x := by exact_mod_cast Int.lt_add_one_iff.mp (by exact_mod_cast hlt)
          linarith
      | upper =>
          simp only [HoldsUpTo, hx, number_le, sub_zero] at h hk ⊢
          have hlt : (x : ℚ) < k + 1 := by linarith
          have hle : (x : ℚ) ≤ k := by exact_mod_cast Int.lt_add_one_iff.mp (by exact_mod_cast hlt)
          linarith

namespace Domain

/-- A whole value that is accepted for a change which is no decision ends up near a whole number. -/
theorem nearWhole_of_acceptedValue {side : Side} {current opposite value accepted : Exact}
    {crossing : Bool} (hf : 0 ≤ f) (hvalue : IsWhole value)
    (h : acceptedValue side (number f) current opposite value false = some (accepted, crossing)) :
    NearWhole f side accepted := by
  simp only [acceptedValue, Bool.not_false, Bool.and_true] at h
  split at h
  · cases h
  · split at h
    · next htighter =>
        split at h
        · next hsmall =>
            split at h
            · cases h
            · cases h
              exact nearWhole_of_advance_le hvalue htighter hsmall
        · cases h
          exact hvalue.nearWhole hf side
    · cases h
      exact hvalue.nearWhole hf side

end Domain

/-- The reason is one that changes follow from, and none that operations give for the changes they
bring: what has it on record was changed by propagation. -/
def Reason.Propagated {α : Type} (permitted : PropagationState α → Operation α → Prop)
    (reason : Reason) : Prop :=
  reason.isResolvable = true ∧ ∀ t op, permitted t op → ∀ y ∈ op.changes, y.2 ≠ reason

/-- What propagation changed in an integer column is near a whole number. -/
theorem Reachable.nearWhole {permitted : PropagationState Exact → Operation Exact → Prop}
    {model : Model Exact} {s : PropagationState Exact} (hf : 0 ≤ f)
    (hbrings : ∀ t op, permitted t op → op.Brings (.exact .any)) (hmodel : model.WellFormed)
    (hread : Domain.Readable (.exact .any) model) (h : Reachable permitted model (number f) s) :
    ∀ entry ∈ s.domain.log, entry.reason.Propagated permitted →
      model.IsIntegerColumn entry.change.column →
        NearWhole f entry.change.side entry.change.value := by
  refine h.onRecord (derives_any model) hbrings hmodel hread
    (Q := fun change reason => reason.Propagated permitted → change.Whole model)
    (P := fun change reason => reason.Propagated permitted → model.IsIntegerColumn change.column →
      NearWhole f change.side change.value)
    (fun t op hop y hy hpropagated => absurd rfl (hpropagated.2 t op hop y hy))
    (fun d change reason _ hliterals hd _ hderived _ => ?_)
    fun d change reason accepted crossing _ hfeastol _ hwhole haccepted hpropagated hinteger => ?_
  · rw [← hd]
    exact hderived.whole fun i p id literals hp hknown l hl _ => hliterals i p id literals hp hknown
      l hl
  · have hresolvable := hpropagated.1
    have hdecision : (reason == .branching) = false := by
      cases reason <;> first | rfl | cases hresolvable
    rw [hfeastol, hdecision] at haccepted
    exact Domain.nearWhole_of_acceptedValue hf (hwhole hpropagated hinteger) haccepted

/-- By how much values of columns may miss what is explained. -/
def ColumnKind.tolerance (f : ℚ) : ColumnKind → ℚ
  | .integer => 0
  | .continuous => f

/-- Positions explain a change by a constraint, or its violation if there is no change: they are
those of local changes before a limit, and where the constraint and the changes at the positions
hold, the explained change holds. -/
structure Domain.Explains (d : Domain Exact) (f : ℚ) (limit : Nat) (constraint : Assignment → Prop)
    (explained : Option (BoundChange Exact)) (positions : List Nat) : Prop where
  between : ∀ p ∈ positions, d.globalLength ≤ p ∧ p < limit
  implies : ∀ a : Assignment, a.reading.Inside d.globalBox d.model.columns.size →
    a.WholeOn d.model → constraint a → d.Meets positions a.reading →
      ∃ change ∈ explained, ∃ column, d.model.columns[change.column]? = some column ∧
        change.HoldsUpTo (column.kind.tolerance f) a

namespace Domain

variable {d : Domain Exact}

/-- The explained change is near a whole number in an integer column, and it is one of the column of
an entry. -/
def Fits (d : Domain Exact) (f : ℚ) (entries : List (ColumnId × Exact)) (e : Explained Exact) :
    Prop :=
  (e.change.column, e.coefficient) ∈ entries ∧
    (d.model.IsIntegerColumn e.change.column → NearWhole f e.change.side e.change.value)

/-- A change is explained with the coefficient that the constraint behind it gives its column. -/
theorem fits_of_coefficientOf {change : BoundChange Exact} {entries : List (ColumnId × Exact)}
    {a : Exact} (hnear : d.model.IsIntegerColumn change.column →
      NearWhole f change.side change.value)
    (hfound : coefficientOf change.column entries = some a) :
    ∀ e ∈ some (⟨change, a⟩ : Explained Exact), d.Fits f entries e := by
  intro e he
  obtain rfl := Option.mem_some_iff.mp he
  exact ⟨mem_of_coefficientOf hfound, hnear⟩

/-- What holds up to the slack of a column holds up to the tolerance at points with whole values. -/
theorem holds_of_slack {change : BoundChange Exact} {a : Assignment} {column : Column Exact}
    (hf : 0 < f) (hnear : d.model.IsIntegerColumn change.column →
      NearWhole f change.side change.value)
    (hcolumn : d.model.columns[change.column]? = some column) (hwhole : a.WholeOn d.model)
    (h : change.HoldsUpTo (column.slack f) a) : change.HoldsUpTo (column.kind.tolerance f) a := by
  rw [Column.slack] at h
  cases hkind : column.kind with
  | continuous =>
      rw [hkind] at h
      exact h
  | integer =>
      rw [hkind] at h
      obtain ⟨k, hk⟩ := hwhole change.column column hcolumn hkind
      exact BoundChange.holds_of_nearWhole hf (hnear ⟨column, hcolumn, hkind⟩) hk h

section Explaining

variable (h : d.Traced) (hfeastol : d.feastol = number f) (hf : 0 < f)

section Inequalities

variable {entries : List (ColumnId × Exact)} {rhs : Exact} {limit : Nat}
  {explained : Option (Explained Exact)} (hentries : Entries d.model.columns.size entries)
  (hdistinct : (entries.map Prod.fst).Nodup) (hexplained : ∀ e ∈ explained, d.Fits f entries e)

include h hfeastol hf hentries hdistinct hexplained

theorem Traced.explainAtMost_explains :
    Returns (d.explainAtMost entries rhs limit explained) fun o => ∀ positions, o = some positions →
      d.Explains f limit (fun a => number (a.total entries) ≤ rhs) (explained.map Explained.change)
        positions := by
  cases explained with
  | none =>
      refine (h.explainAtMost_violated hfeastol hentries hf).mono
        fun o hok ho positions hpositions => ?_
      refine ⟨h.explainAtMost_between (hpositions ▸ hok), fun a ha _ hle hmeets => ?_⟩
      exact absurd hle (ho.1 positions hpositions a ha hmeets)
  | some e =>
      obtain ⟨hmem, hnear⟩ := hexplained e rfl
      obtain ⟨hlt, hcoefficient⟩ := hentries _ hmem
      have hcolumn := Array.getElem?_eq_getElem hlt
      refine (h.explainAtMost_implied hfeastol hentries e hcolumn hcoefficient).mono
        fun o hok ho positions hpositions => ?_
      refine ⟨h.explainAtMost_between (hpositions ▸ hok), fun a ha hwhole hle hmeets => ?_⟩
      rw [total_eq_others hdistinct hmem] at hle
      have hslack := ho positions hpositions a ha hmeets hle
      exact ⟨e.change, rfl, _, hcolumn, holds_of_slack hf hnear hcolumn hwhole hslack⟩

theorem Traced.explainAtLeast_explains :
    Returns (d.explainAtLeast entries rhs limit explained) fun o => ∀ positions, o =
      some positions →
      d.Explains f limit (fun a => rhs ≤ number (a.total entries)) (explained.map Explained.change)
        positions := by
  have hcolumns : (oppositeEntries entries).map Prod.fst = entries.map Prod.fst := by
    simp [oppositeEntries, Function.comp_def]
  have hopposite : ∀ e ∈ explained.map fun e => { e with coefficient := -e.coefficient },
      d.Fits f (oppositeEntries entries) e := by
    rintro _ hnegated
    obtain ⟨e, he, rfl⟩ := Option.map_eq_some_iff.mp hnegated
    exact ⟨List.mem_map.mpr ⟨_, (hexplained e he).1, rfl⟩, (hexplained e he).2⟩
  refine (h.explainAtMost_explains hfeastol hf (entries_opposite hentries) (hcolumns ▸ hdistinct)
    hopposite).mono fun o _ ho positions hpositions => ?_
  obtain ⟨hbetween, himplies⟩ := ho positions hpositions
  refine ⟨hbetween, fun a ha hwhole hle hmeets => ?_⟩
  have hnegated : number (a.total (oppositeEntries entries)) ≤ -rhs := by
    rw [total_opposite, ← neg_number]
    exact Exact.neg_le_neg hle
  have hchange := himplies a ha hwhole hnegated hmeets
  rw [Option.map_map] at hchange
  exact hchange

end Inequalities

section Changes

variable {pools : Pools Exact} {position : Nat} {entry : LogEntry Exact}
  (hentry : d.log[position]? = some entry)
  (hnear : d.model.IsIntegerColumn entry.change.column →
    NearWhole f entry.change.side entry.change.value)

include h hfeastol hf hentry hnear

/-- A change that follows from the upper side of a row is explained by it. -/
theorem Traced.explainChange_rowUpper {r : RowId} (hreason : entry.reason = .rowUpper r)
    {row : Row Exact}
    (hrow : d.model.rows[r]? = some row) (hentries : Entries d.model.columns.size row.entries)
    (hdistinct : (row.entries.map Prod.fst).Nodup) :
    Returns (d.explainChange pools position) fun o => ∀ positions, o = some positions →
      d.Explains f position (fun a => number (a.total row.entries) ≤ row.upper) (some entry.change)
        positions := by
  rw [explainChange, fetch_eq_ok.mpr hentry, ok_bind, hreason]
  dsimp only
  rw [Model.row, fetch_eq_ok.mpr hrow, ok_bind]
  cases hfound : coefficientOf entry.change.column row.entries with
  | none => exact .pure (by simp)
  | some a =>
      exact h.explainAtMost_explains hfeastol hf hentries hdistinct
        (fits_of_coefficientOf hnear hfound)

/-- A change that follows from the lower side of a row is explained by it. -/
theorem Traced.explainChange_rowLower {r : RowId} (hreason : entry.reason = .rowLower r)
    {row : Row Exact}
    (hrow : d.model.rows[r]? = some row) (hentries : Entries d.model.columns.size row.entries)
    (hdistinct : (row.entries.map Prod.fst).Nodup) :
    Returns (d.explainChange pools position) fun o => ∀ positions, o = some positions →
      d.Explains f position (fun a => row.lower ≤ number (a.total row.entries)) (some entry.change)
        positions := by
  rw [explainChange, fetch_eq_ok.mpr hentry, ok_bind, hreason]
  dsimp only
  rw [Model.row, fetch_eq_ok.mpr hrow, ok_bind]
  cases hfound : coefficientOf entry.change.column row.entries with
  | none => exact .pure (by simp)
  | some a =>
      exact h.explainAtLeast_explains hfeastol hf hentries hdistinct
        (fits_of_coefficientOf hnear hfound)

/-- A change that follows from a cut is explained by it. -/
theorem Traced.explainChange_cut {index : Nat} {id : CutId} (hreason : entry.reason = .cut index id)
    {cut : Inequality Exact} (hcut : d.cutBehind pools.cuts index id = some cut)
    (hentries : Entries d.model.columns.size cut.entries)
    (hdistinct : (cut.entries.map Prod.fst).Nodup) :
    Returns (d.explainChange pools position) fun o => ∀ positions, o = some positions →
      d.Explains f position (fun a => number (a.total cut.entries) ≤ cut.rhs) (some entry.change)
        positions := by
  rw [explainChange, fetch_eq_ok.mpr hentry, ok_bind, hreason]
  dsimp only
  rw [hcut]
  dsimp only
  cases hfound : coefficientOf entry.change.column cut.entries with
  | none => exact .pure (by simp)
  | some a =>
      exact h.explainAtMost_explains hfeastol hf hentries hdistinct
        (fits_of_coefficientOf hnear hfound)

end Changes

end Explaining

end Domain

/-- No column has two entries in a row of a built model. -/
theorem Model.WellFormed.nodup_entries {model : Model Exact} (h : model.WellFormed) {r : RowId}
    {row : Row Exact} (hrow : model.rows[r]? = some row) : (row.entries.map Prod.fst).Nodup :=
  List.pairwise_map.mpr ((h.increasing r row hrow).imp Nat.ne_of_lt)

/-- The explained change is one that propagation made to the column of an entry. -/
def Domain.Explainable (permitted : PropagationState Exact → Operation Exact → Prop)
    (d : Domain Exact)
    (entries : List (ColumnId × Exact)) (e : Explained Exact) : Prop :=
  (e.change.column, e.coefficient) ∈ entries ∧
    ∃ entry ∈ d.log, entry.change = e.change ∧ entry.reason.Propagated permitted

/-- **Linear explanations are valid.** In every run over exact numbers, the positions that are found
for a linear inequality are those of local changes before the limit. At every point of the global
box that has whole values in the integer columns, the inequality and the changes at these positions
imply the explained change, which propagation made, for a continuous column up to the tolerance;
without an explained change they contradict each other. That is so for both directions of
inequalities, and so for what is explained by the upper or the lower side of a row. -/
theorem linear_explanations_valid {permitted : PropagationState Exact → Operation Exact → Prop}
    {draft : Draft Exact} {model : Model Exact} {f : ℚ} {s : PropagationState Exact}
    (hmodel : draft.build = .ok model) (hf : 0 < f)
    (hbrings : ∀ t op, permitted t op → op.Brings (.exact .any))
    (h : Reachable permitted model (number f) s) :
    (∀ (entries : List (ColumnId × Exact)) (rhs : Exact) (limit : Nat)
        (explained : Option (Explained Exact)), Entries model.columns.size entries →
      (entries.map Prod.fst).Nodup → (∀ e ∈ explained, s.domain.Explainable permitted entries e) →
        (Returns (s.domain.explainAtMost entries rhs limit explained) fun o =>
          ∀ positions, o = some positions → s.domain.Explains f limit
            (fun a => number (a.total entries) ≤ rhs) (explained.map Explained.change) positions) ∧
        Returns (s.domain.explainAtLeast entries rhs limit explained) fun o =>
          ∀ positions, o = some positions → s.domain.Explains f limit
            (fun a => rhs ≤ number (a.total entries)) (explained.map Explained.change) positions) ∧
    ∀ (position : Nat) (entry : LogEntry Exact) (r : RowId) (row : Row Exact),
      s.domain.log[position]? = some entry → model.rows[r]? = some row →
      entry.reason.Propagated permitted →
        (entry.reason = .rowUpper r → Returns (s.domain.explainChange s.pools position) fun o =>
          ∀ positions, o = some positions → s.domain.Explains f position
            (fun a => number (a.total row.entries) ≤ row.upper) (some entry.change) positions) ∧
        (entry.reason = .rowLower r → Returns (s.domain.explainChange s.pools position) fun o =>
          ∀ positions, o = some positions → s.domain.Explains f position
            (fun a => row.lower ≤ number (a.total row.entries)) (some entry.change) positions) := by
  have hread := Draft.readable_of_build hmodel
  have hformed := Draft.wellFormed_of_build hmodel
  have htraced := (h.logging_of_brings hbrings hformed hread).traced hmodel hread.boundedByNumbers
  have hnear := h.nearWhole hf.le hbrings hformed hread
  obtain ⟨hsame, hfeastol⟩ := h.constant
  rw [← hsame] at hnear
  refine ⟨fun entries rhs limit explained hentries hdistinct hexplained => ?_,
    fun position entry r row hentry hrow hpropagated => ?_⟩
  · rw [← hsame] at hentries
    have hfits : ∀ e ∈ explained, s.domain.Fits f entries e := fun e he => by
      obtain ⟨hmem, entry, hentry, hchange, hpropagated⟩ := hexplained e he
      exact ⟨hmem, hchange ▸ hnear entry hentry hpropagated⟩
    exact ⟨htraced.explainAtMost_explains hfeastol hf hentries hdistinct hfits,
      htraced.explainAtLeast_explains hfeastol hf hentries hdistinct hfits⟩
  · have hentries : Entries s.domain.model.columns.size row.entries := fun e he =>
      ⟨hsame ▸ hformed.entry_lt r row hrow e he, hread.coefficients r row hrow e he⟩
    have hdistinct := hformed.nodup_entries hrow
    have hlogged := hnear entry (Array.mem_of_getElem? hentry) hpropagated
    rw [← hsame] at hrow
    exact ⟨fun hreason => htraced.explainChange_rowUpper hfeastol hf hentry hlogged hreason hrow
        hentries hdistinct,
      fun hreason => htraced.explainChange_rowLower hfeastol hf hentry hlogged hreason hrow
        hentries hdistinct⟩

/-- Two integer columns that share a capacity of five. -/
def sharedCapacity : Draft Exact :=
  ⟨#[⟨0, 0, 5, .integer⟩, ⟨0, 0, 5, .integer⟩], #[⟨minus, 5, [(0, 1), (1, 1)]⟩], 0⟩

/-- One of the columns takes two of it. -/
def takenCapacity : List (Operation Exact) := [.changeBound (.atLeast 1 2) .branching, .propagate]

/-- What is left for one column is explained by the decision on the other one. -/
theorem taken_capacity_explained :
    ∃ (model : Model Exact) (s : PropagationState Exact) (row : Row Exact) (entry : LogEntry Exact)
        (a : Exact),
      sharedCapacity.build = .ok model ∧ model.rows[0]? = some row ∧ s.domain.log[1]? = some entry ∧
      s.domain.explainAtMost row.entries row.upper 1 (some ⟨entry.change, a⟩) = .ok (some [0]) ∧
      s.domain.Explains (1 / 1000000) 1 (fun a => number (a.total row.entries) ≤ row.upper)
        (some entry.change) [0] := by
  have hrun : passes sharedCapacity.build (fun model =>
      passes (Domain.ofModel model (number (1 / 1000000))) fun d =>
        passes (takenCapacity.foldlM (fun s op => op.perform s) ⟨.empty, d⟩) fun s =>
          model.rows[0]?.any fun row => s.domain.log[1]?.any fun entry =>
            entry.reason == .rowUpper 0 &&
              (Domain.coefficientOf entry.change.column row.entries).any fun a =>
                passes (s.domain.explainAtMost row.entries row.upper 1 (some ⟨entry.change, a⟩))
                  (· == some [0])) = true := by
    rw [(Operation.performUnrolled 100).property]
    decide +kernel
  obtain ⟨model, hmodel, hrun⟩ := passes_eq_true.mp hrun
  obtain ⟨d, hd, hrun⟩ := passes_eq_true.mp hrun
  obtain ⟨s, hs, hrun⟩ := passes_eq_true.mp hrun
  simp only [Option.any_eq_true, Bool.and_eq_true, beq_iff_eq, passes_eq_true,
    exists_eq_right] at hrun
  obtain ⟨row, hrow, entry, hentry, hreason, a, hcoefficient, hfound⟩ := hrun
  -- decisions are all that is brought from outside
  let permitted : PropagationState Exact → Operation Exact → Prop := fun _ op =>
    op.Brings (.exact .any) ∧ ∀ y ∈ op.changes, y.2 = .branching
  have hpermitted : ∀ op ∈ takenCapacity, op.Brings (.exact .any) ∧
      ∀ y ∈ op.changes, y.2 = .branching := by
    simp only [takenCapacity, List.forall_mem_cons, List.not_mem_nil, false_imp_iff, implies_true,
      and_true, Operation.Brings, Operation.changes, Tracking.exact, Exact.Range.any,
      BoundChange.atLeast]
    exact fun h => by cases h
  have hreach : Reachable permitted model (number (1 / 1000000)) s :=
    (Reachable.start hd).performAll (fun _ => hpermitted) hs
  have hentries : Entries model.columns.size row.entries := fun e he =>
    ⟨(Draft.wellFormed_of_build hmodel).entry_lt 0 row hrow e he,
      (Draft.readable_of_build hmodel).coefficients 0 row hrow e he⟩
  have hpropagated : entry.reason.Propagated permitted := by
    refine ⟨hreason ▸ rfl, fun t op hop y hy hsame => ?_⟩
    rw [hop.2 y hy, hreason] at hsame
    cases hsame
  have hexplainable : ∀ e ∈ some (⟨entry.change, a⟩ : Explained Exact),
      s.domain.Explainable permitted row.entries e := by
    intro e he
    obtain rfl := Option.mem_some_iff.mp he
    exact ⟨Domain.mem_of_coefficientOf hcoefficient, entry,
      Array.mem_of_getElem? hentry, rfl, hpropagated⟩
  have hvalid := (linear_explanations_valid hmodel (by norm_num) (fun _ _ hop => hop.1) hreach).1
    row.entries row.upper 1 (some ⟨entry.change, a⟩) hentries
    ((Draft.wellFormed_of_build hmodel).nodup_entries hrow) hexplainable
  exact ⟨model, s, row, entry, a, hmodel, hrow, hentry, hfound, hvalid.1.of_eq_ok hfound [0] rfl⟩

end BranchBound
