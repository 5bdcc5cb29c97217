import BranchBound.Proofs.Domain.BoundLog
import BranchBound.Proofs.Number.Double

/-!
# The report of moved bounds

A domain keeps a list of the columns with a bound that moved since the list was cleared, and for
every column the sides that did. Flags and list are kept in step: a column is listed once, and
exactly if one of its sides is flagged. What moves a bound is an entry of the log with another value
than the one it replaced, when it is appended and when it is undone, so a bound that is not flagged
has the value that it had when the list was cleared, whatever was changed, undone or repeated in
between.
-/

namespace BranchBound

open Checked

namespace MovedSides

/-- Whether a side moved. -/
def has (m : MovedSides) : Side → Bool
  | .lower => m.lower
  | .upper => m.upper

@[simp] theorem has_none (side : Side) : none.has side = false := by
  cases side <;> rfl

@[simp] theorem has_insert (m : MovedSides) (side side' : Side) :
    (m.insert side).has side' = (m.has side' || decide (side' = side)) := by
  cases side <;> cases side' <;> simp [has, insert]

theorem isEmpty_eq_false {m : MovedSides} : m.isEmpty = false ↔ ∃ side, m.has side = true := by
  constructor
  · intro h
    cases hlower : m.lower with
    | true => exact ⟨.lower, hlower⟩
    | false => exact ⟨.upper, by simpa [isEmpty, has, hlower] using h⟩
  · rintro ⟨side, h⟩
    cases side <;> simp_all [isEmpty, has]

end MovedSides

variable {α : Type}

namespace Domain

variable {d d' d'' : Domain α} {side side' : Side} {c c' : ColumnId}

/-- The flags and the list of the moved columns. -/
def report (d : Domain α) : Array MovedSides × List ColumnId := (d.movedSides, d.movedColumns)

/-- Whether a bound is flagged as moved. -/
def flagged (d : Domain α) (side : Side) (c : ColumnId) : Bool :=
  ((d.movedSides[c]?).getD .none).has side

theorem flagged_eq_has {sides : MovedSides} (h : d.movedSides[c]? = some sides) (side : Side) :
    d.flagged side c = sides.has side := by
  rw [flagged, h, Option.getD_some]

theorem flagged_congr (h : d'.report = d.report) : d'.flagged = d.flagged := by
  have hsides : d'.movedSides = d.movedSides := congrArg Prod.fst h
  funext side c
  rw [flagged, flagged, hsides]

/-- The list of moved columns is that of the columns with a flag, each of them once. -/
structure Paired (d : Domain α) : Prop where
  nodup : d.movedColumns.Nodup
  mem_iff : ∀ c, c ∈ d.movedColumns ↔ ∃ side, d.flagged side c = true

theorem Paired.congr (hd : d.Paired) (h : d'.report = d.report) : d'.Paired := by
  have hcolumns : d'.movedColumns = d.movedColumns := congrArg Prod.snd h
  refine ⟨hcolumns ▸ hd.nodup, fun c => ?_⟩
  rw [hcolumns, flagged_congr h]
  exact hd.mem_iff c

/-- What is reported are the listed columns, with their flags. -/
theorem mem_moved {sides : MovedSides} :
    (c, sides) ∈ d.moved ↔ c ∈ d.movedColumns ∧ (d.movedSides[c]?).getD .none = sides := by
  simp [moved]

/-- Marking a bound flags it and no other one. -/
theorem flagged_markMoved (h : d.markMoved c side = .ok d') (side' : Side) (c' : ColumnId) :
    d'.flagged side' c' = (d.flagged side' c' || decide (side' = side ∧ c' = c)) := by
  simp only [markMoved, bind_eq_ok, fetch_eq_ok, store_eq_ok, pure_eq_ok] at h
  obtain ⟨sides, hsides, _, ⟨hlt, rfl⟩, rfl⟩ := h
  unfold flagged
  by_cases hc : c' = c
  · subst hc
    simp [Array.getElem?_setIfInBounds_self_of_lt hlt, hsides]
  · simp [Array.getElem?_setIfInBounds_ne (Ne.symm hc), hc]

/-- A column whose first bound is marked is appended to the list, and no other one. -/
theorem movedColumns_markMoved (hd : d.Paired) (h : d.markMoved c side = .ok d') :
    d'.movedColumns = d.movedColumns ∧ c ∈ d.movedColumns ∨
      d'.movedColumns = d.movedColumns ++ [c] ∧ c ∉ d.movedColumns := by
  simp only [markMoved, bind_eq_ok, fetch_eq_ok, pure_eq_ok] at h
  obtain ⟨sides, hsides, _, -, rfl⟩ := h
  have hlisted : c ∈ d.movedColumns ↔ sides.isEmpty = false := by
    simp only [MovedSides.isEmpty_eq_false, hd.mem_iff, flagged_eq_has hsides]
  cases hempty : sides.isEmpty with
  | false => exact .inl ⟨rfl, hlisted.mpr hempty⟩
  | true => exact .inr ⟨rfl, by simp [hlisted, hempty]⟩

theorem Paired.markMoved (hd : d.Paired) (h : d.markMoved c side = .ok d') : d'.Paired := by
  have hmem (c' : ColumnId) :
      (∃ side', d'.flagged side' c' = true) ↔ c' ∈ d.movedColumns ∨ c' = c := by
    simp only [flagged_markMoved h, Bool.or_eq_true, decide_eq_true_eq, exists_or, hd.mem_iff,
      exists_and_right, exists_eq, true_and]
  rcases movedColumns_markMoved hd h with ⟨hsame, hlisted⟩ | ⟨hmore, hunlisted⟩
  · refine ⟨hsame ▸ hd.nodup, fun c' => ?_⟩
    rw [hmem, hsame]
    exact ⟨.inl, fun hc' => hc'.elim id fun heq => heq ▸ hlisted⟩
  · refine ⟨?_, fun c' => by rw [hmem, hmore, List.mem_append, List.mem_singleton]⟩
    rw [hmore, ← List.concat_eq_append]
    exact hd.nodup.concat hunlisted

/-- Emptying the flags of columns leaves the other flags alone. -/
theorem emptied_has (columns : List ColumnId) (sides : Array MovedSides) :
    (((columns.foldl (fun sides c => sides.setIfInBounds c .none) sides)[c]?).getD .none).has side =
      if c ∈ columns then false else ((sides[c]?).getD .none).has side := by
  induction columns generalizing sides with
  | nil => simp
  | cons column rest ih =>
      rw [List.foldl_cons, ih]
      by_cases hc : c = column
      · subst hc
        rcases Nat.lt_or_ge c sides.size with hlt | hge
        · simp [Array.getElem?_setIfInBounds_self_of_lt hlt]
        · simp [hge]
      · simp [hc, Array.getElem?_setIfInBounds_ne (Ne.symm hc)]

/-- Nothing is flagged when the report is cleared. -/
theorem Paired.flagged_clearMoved (hd : d.Paired) (side : Side) (c : ColumnId) :
    d.clearMoved.flagged side c = false := by
  rw [flagged, Domain.clearMoved, emptied_has]
  split
  · rfl
  · next hunlisted =>
      rw [hd.mem_iff, not_exists] at hunlisted
      exact Bool.eq_false_of_not_eq_true (hunlisted side)

theorem Paired.clearMoved (hd : d.Paired) : d.clearMoved.Paired := by
  refine ⟨.nil, fun c => ?_⟩
  simp only [hd.flagged_clearMoved, Bool.false_eq_true, exists_false, iff_false]
  exact List.not_mem_nil

/-- The value of a bound, if there is one. -/
def value? (d : Domain α) (side : Side) (c : ColumnId) : Option α :=
  ((d.bounds side)[c]?).map Bound.value

end Domain

/-- A value stays the same or becomes an equal one. -/
def Alike [BEq α] (v v' : Option α) : Prop :=
  v = v' ∨ ∃ x x', v = some x ∧ v' = some x' ∧ (x == x') = true

theorem Alike.trans [BEq α] [PartialEquivBEq α] {v v' v'' : Option α} (h : Alike v v')
    (h' : Alike v' v'') : Alike v v'' := by
  rcases h with rfl | ⟨x, x', rfl, rfl, hx⟩
  · exact h'
  · rcases h' with rfl | ⟨y, y', heq, rfl, hy⟩
    · exact .inr ⟨x, x', rfl, rfl, hx⟩
    · obtain rfl := Option.some.inj heq
      exact .inr ⟨x, y', rfl, rfl, PartialEquivBEq.trans hx hy⟩

/-- An entry of the log set a bound to another value than the one it replaced. -/
def LogEntry.Moves [BEq α] (entry : LogEntry α) (side : Side) (c : ColumnId) : Prop :=
  entry.Sets side c ∧ (entry.previous.value != entry.change.value) = true

namespace Trail

variable {t : Trail α} {side : Side} {c : ColumnId}

theorem restore_bounds (t : Trail α) (entry : LogEntry α) :
    (t.restore entry).bounds entry.change.side =
      (t.bounds entry.change.side).setIfInBounds entry.change.column entry.previous :=
  bounds_setBounds ..

/-- Undoing an entry leaves the bounds that it did not set as they are. -/
theorem restore_bounds_of_not_sets {entry : LogEntry α} (h : ¬entry.Sets side c) :
    ((t.restore entry).bounds side)[c]? = (t.bounds side)[c]? := by
  by_cases hside : entry.change.side = side
  · subst hside
    rw [restore_bounds, Array.getElem?_setIfInBounds_ne fun hc => h ⟨rfl, hc⟩]
  · have hopposite : side = entry.change.side.opposite := by
      cases hentry : entry.change.side <;> cases side <;> simp_all [Side.opposite]
    rw [restore, hopposite, bounds_setBounds_opposite]

/-- Entries can be undone one after the other: each of them is met with the value that it set. -/
inductive Unwinds : Trail α → List (LogEntry α) → Prop
  | nil {t : Trail α} : Unwinds t []
  | cons {t : Trail α} {entry : LogEntry α} {rest : List (LogEntry α)} {b : Bound α}
      (hlast : (t.bounds entry.change.side)[entry.change.column]? = some b)
      (hvalue : b.value = entry.change.value) (hrest : Unwinds (t.restore entry) rest) :
      Unwinds t (entry :: rest)

/-- Only the bounds matter when entries are undone. -/
theorem Unwinds.of_cut {entries : List (LogEntry α)} {p : Nat} (h : Unwinds (t.cut p) entries) :
    Unwinds t entries := by
  generalize hcut : t.cut p = shortened at h
  induction h generalizing t with
  | nil => exact .nil
  | cons hlast hvalue _ ih =>
      subst hcut
      exact .cons hlast hvalue (ih (restore_cut ..).symm)

theorem Unwinds.cut {entries : List (LogEntry α)} (h : Unwinds t entries) (p : Nat) :
    Unwinds (t.cut p) entries := by
  induction h with
  | nil => exact .nil
  | cons hlast hvalue _ ih => exact .cons hlast hvalue (restore_cut .. ▸ ih)

/-- The end of a log can be undone if the trail came about by changes. -/
theorem Built.unwinds {allowed : Trail α → BoundChange α → Reason → Prop} {start : Trail α}
    (hstart : start.Fresh) (h : Built allowed start t) (p : Nat) :
    Unwinds t (t.log.toList.drop p).reverse := by
  induction h with
  | start => simpa [hstart.log] using Unwinds.nil
  | @append t change reason previous h hprevious _ ih =>
      rw [append_log, Array.toList_push]
      rcases Nat.lt_or_ge t.log.size p with hlt | hle
      · rw [List.drop_eq_nil_of_le (by simpa using hlt)]
        exact .nil
      · rw [List.drop_append_of_le_length (by simpa using hle), List.reverse_append,
          List.reverse_singleton, List.singleton_append]
        have hcolumn := (Array.getElem?_eq_some_iff.mp hprevious).1
        refine .cons (b := ⟨change.value, some t.log.size⟩) ?_ rfl (.of_cut (p := p) ?_)
        · rw [append_bounds, Array.getElem?_setIfInBounds_self_of_lt hcolumn]
        · rw [restore_append t change reason previous hprevious hle]
          exact ih.cut p

end Trail

namespace Domain

variable {d d' d'' : Domain α} {side side' : Side} {c c' : ColumnId}

/-- What a step does to the report: the bounds that it moves are flagged in addition, and the other
ones have the value that they had before. -/
structure Notes [BEq α] (moves : Side → ColumnId → Prop) (d d' : Domain α) : Prop where
  paired : d.Paired → d'.Paired
  flagged : ∀ side c, d'.flagged side c = true ↔ d.flagged side c = true ∨ moves side c
  kept : ∀ side c, ¬moves side c → Alike (d.value? side c) (d'.value? side c)

section Notes

variable [BEq α] {moves moves' : Side → ColumnId → Prop}

theorem Notes.keep (hbounds : d'.bounds = d.bounds) (hreport : d'.report = d.report) :
    Notes (fun _ _ => False) d d' where
  paired hd := hd.congr hreport
  flagged side c := by rw [flagged_congr hreport, or_false]
  kept side c _ := .inl (by rw [value?, value?, hbounds])

theorem Notes.trans [PartialEquivBEq α] (h : Notes moves d d') (h' : Notes moves' d' d'') :
    Notes (fun side c => moves side c ∨ moves' side c) d d'' where
  paired hd := h'.paired (h.paired hd)
  flagged side c := by rw [h'.flagged, h.flagged, or_assoc]
  kept side c hneither :=
    (h.kept side c fun hmoves => hneither (.inl hmoves)).trans
      (h'.kept side c fun hmoves => hneither (.inr hmoves))

theorem Notes.congr (h : Notes moves d d') (hsame : ∀ side c, moves' side c ↔ moves side c) :
    Notes moves' d d' where
  paired := h.paired
  flagged side c := by rw [hsame, h.flagged]
  kept side c hstays := h.kept side c fun hmoves => hstays ((hsame side c).mpr hmoves)

end Notes

variable [Scalar α]

/-- Bringing everything up to date after a bound moved does not report anything. -/
theorem boundMoved_report {old new : α} {position : Option Nat}
    (h : d.boundMoved c side old new position = .ok d') : d'.report = d.report := by
  obtain ⟨occurrences, d₁, d₂, propagations, -, hrows, hcuts, -, hobjective⟩ := boundMoved_eq_ok h
  have hset (e : Domain α) (condition : Bool) (reason : Reason) :
      (e.setInfeasibleAt condition reason position).report = e.report := by
    rw [setInfeasibleAt_eq]
    rfl
  have h₁ : d₁.report = d.report := by
    refine foldlM_keeps (P := fun e : Domain α => e.report = d.report)
      (fun e o e' _ he hstep => ?_) hrows rfl
    obtain ⟨activity, moved, row, -, -, -, rfl | ⟨condition, reason, hmark, -⟩⟩ :=
      moveRowTerm_eq_ok hstep
    · exact he
    · rw [markRowDirty_eq_ok hmark]
      exact (hset _ condition reason).trans he
  have h₂ : d₂.report = d₁.report := by
    refine foldlM_keeps (P := fun e : Domain α => e.report = d₁.report)
      (fun e index e' _ he hstep => ?_) hcuts rfl
    obtain ⟨p, violated, moved, -, -, rfl⟩ := moveCutTerms_eq_ok hstep
    cases violated with
    | none => exact he
    | some id => exact (hset _ true (.cut index id)).trans he
  have h₃ : d'.report = d₂.report := by
    rcases moveObjectiveTerm_eq_ok hobjective with ⟨-, rfl⟩ | ⟨o, violated, moved, -, -, rfl⟩
    · rfl
    · exact hset _ violated .objective
  exact h₃.trans (h₂.trans h₁)

omit [Scalar α] in
theorem logged_report (d : Domain α) (change : BoundChange α) (reason : Reason)
    (previous : Bound α) (crossing : Bool) :
    (d.logged change reason previous crossing).report = d.report := by
  unfold logged
  dsimp only
  split
  · unfold setInfeasible
    split <;> rfl
  · rfl

/-- What is done when an entry is appended or undone: nothing is reported if the value stays, and
the bound is marked if it moves. -/
theorem Notes.assign {entry : LogEntry α} {moved : Bool}
    (hreported : moved = false ∧ d'.report = d.report ∨
      moved = true ∧ ∃ followed : Domain α, followed.report = d.report ∧
        followed.markMoved entry.change.column entry.change.side = .ok d')
    (hothers : ∀ side c, ¬entry.Sets side c → d'.value? side c = d.value? side c)
    (hequal : moved = false → Alike (d.value? entry.change.side entry.change.column)
      (d'.value? entry.change.side entry.change.column)) :
    Notes (fun side c => entry.Sets side c ∧ moved = true) d d' where
  paired hd := by
    rcases hreported with ⟨-, hsame⟩ | ⟨-, followed, hsame, hmark⟩
    · exact hd.congr hsame
    · exact (hd.congr hsame).markMoved hmark
  flagged side c := by
    rcases hreported with ⟨rfl, hsame⟩ | ⟨rfl, followed, hsame, hmark⟩
    · simp [flagged_congr hsame]
    · rw [flagged_markMoved hmark, flagged_congr hsame, Bool.or_eq_true, decide_eq_true_eq,
        and_iff_left rfl, LogEntry.Sets, @eq_comm _ side, @eq_comm _ c]
  kept side c hstays := by
    by_cases hsets : entry.Sets side c
    · have hmoved : moved = false := by simpa [hsets] using hstays
      obtain ⟨rfl, rfl⟩ := hsets
      exact hequal hmoved
    · exact .inl (hothers side c hsets).symm

/-- An applied change moves its bound exactly if the entry that it logs does. -/
theorem applyChange_notes {change : BoundChange α} {reason : Reason} {crossing : Bool}
    (h : d.applyChange change reason crossing = .ok d') :
    ∃ previous, d'.log = d.log.push ⟨change, reason, previous⟩ ∧
      Notes (LogEntry.Moves ⟨change, reason, previous⟩) d d' := by
  obtain ⟨previous, hprevious, hd'⟩ := applyChange_eq_ok h
  obtain ⟨found, hfound, hfollows⟩ := applyChange_trail h
  obtain rfl := Option.some.inj (hprevious.symm.trans hfound)
  have htrail : d'.trail = d.trail.append change reason previous := hfollows.trail
  have hlt := (Array.getElem?_eq_some_iff.mp hprevious).1
  refine ⟨previous, congrArg Trail.log htrail, .assign ?_ (fun side c hsets => ?_) fun hsame => ?_⟩
  · rcases hd' with ⟨hsame, rfl⟩ | ⟨hmoves, followed, hmoved, hmark⟩
    · exact .inl ⟨hsame, logged_report ..⟩
    · exact .inr ⟨hmoves, followed, (boundMoved_report hmoved).trans (logged_report ..), hmark⟩
  · rw [value?, value?, ← trail_bounds, ← trail_bounds, htrail,
      Trail.append_bounds_of_ne _ fun hset => hsets ⟨hset.1.symm, hset.2.symm⟩]
  · refine .inr ⟨previous.value, change.value, by rw [value?, hprevious, Option.map_some], ?_, ?_⟩
    · rw [value?, ← trail_bounds, htrail, Trail.append_bounds, trail_bounds,
        Array.getElem?_setIfInBounds_self_of_lt hlt, Option.map_some]
    · simpa [bne] using hsame

variable [PartialEquivBEq α]

/-- An undone entry moves its bound exactly if it did so when it was appended. -/
theorem undo_notes {entry : LogEntry α} {b : Bound α}
    (hlast : (d.trail.bounds entry.change.side)[entry.change.column]? = some b)
    (hvalue : b.value = entry.change.value) (h : d.undo entry = .ok d') :
    d'.trail = d.trail.restore entry ∧ Notes entry.Moves d d' := by
  obtain ⟨current, hcurrent, hd'⟩ := undo_eq_ok h
  obtain rfl := Option.some.inj (hlast.symm.trans hcurrent)
  have htrail : d'.trail = d.trail.restore entry := (undo_follows h).trail
  have hlt := (Array.getElem?_eq_some_iff.mp hlast).1
  rw [hvalue] at hd'
  have hsymm : (entry.previous.value != entry.change.value) =
      (entry.change.value != entry.previous.value) := by
    rw [bne, bne, BEq.comm]
  refine ⟨htrail, .assign ?_ (fun side c hsets => ?_) fun hsame => ?_⟩
  · rw [hsymm]
    rcases hd' with ⟨hsame, rfl⟩ | ⟨hmoves, followed, hmoved, hmark⟩
    · exact .inl ⟨hsame, rfl⟩
    · have hreport : (d.withTrail (d.trail.restore entry)).report = d.report := rfl
      exact .inr ⟨hmoves, followed, (boundMoved_report hmoved).trans hreport, hmark⟩
  · rw [value?, value?, ← trail_bounds, ← trail_bounds, htrail,
      Trail.restore_bounds_of_not_sets hsets]
  · rw [hsymm] at hsame
    refine .inr ⟨entry.change.value, entry.previous.value, ?_, ?_, by simpa [bne] using hsame⟩
    · rw [value?, ← trail_bounds, hlast, Option.map_some, hvalue]
    · rw [value?, ← trail_bounds, htrail, Trail.restore_bounds,
        Array.getElem?_setIfInBounds_self_of_lt hlt, Option.map_some]

theorem foldlM_undo_notes {entries : List (LogEntry α)} (hunwinds : d.trail.Unwinds entries)
    (h : entries.foldlM undo d = .ok d') :
    Notes (fun side c => ∃ entry ∈ entries, entry.Moves side c) d d' := by
  generalize ht : d.trail = t at hunwinds
  induction hunwinds generalizing d with
  | nil =>
      obtain rfl := pure_eq_ok.mp h
      exact (Notes.keep rfl rfl).congr fun side c => by simp
  | cons hlast hvalue _ ih =>
      subst ht
      rw [List.foldlM_cons, bind_eq_ok] at h
      obtain ⟨undone, hundo, hrest⟩ := h
      obtain ⟨htrail, hfirst⟩ := undo_notes hlast hvalue hundo
      exact (hfirst.trans (ih hrest htrail)).congr fun side c => by simp

/-- A call moves a bound if it appends an entry to the log that does, or takes one off. -/
inductive Moves (side : Side) (c : ColumnId) (d d' : Domain α) : Prop
  | appended {entry : LogEntry α} (h : d'.log = d.log.push entry) (hmoves : entry.Moves side c)
  | undone {position : Nat} {entry : LogEntry α} (h : d.backtrackTo position = .ok d')
      (hentry : entry ∈ d.log.toList.drop position) (hmoves : entry.Moves side c)

/-- A call that an operation makes: it changes a bound, it backtracks, or it touches neither the
trail nor the report. -/
inductive Call (d d' : Domain α) : Prop
  | change {change : BoundChange α} {reason : Reason} (h : d.changeBound change reason = .ok d')
  | back {position : Nat} (h : d.backtrackTo position = .ok d')
  | keep (h : Still d d') (hreport : d'.report = d.report)

/-- Calls that operations make, one after the other. -/
abbrev Calls : Domain α → Domain α → Prop := Relation.ReflTransGen Call

/-- One of the calls on the way from a domain to another one moved a bound. -/
def MovedBetween (side : Side) (c : ColumnId) (d d' : Domain α) : Prop :=
  ∃ before after, Calls d before ∧ Call before after ∧ Moves side c before after ∧ Calls after d'

omit [PartialEquivBEq α] in
theorem backtrackTo_log_size {position : Nat} (h : d.backtrackTo position = .ok d') :
    d'.log.size = min d.log.size position := by
  rcases backtrackTo_eq_ok h with ⟨hle, rfl⟩ | ⟨hlt, -⟩
  · exact (Nat.min_eq_left hle).symm
  · rw [← trail_log, (backtrackTo_trail h hlt).1, Trail.rewindTo_log, Array.take_eq_extract,
      Array.size_extract, trail_log]
    omega

omit [PartialEquivBEq α] in
/-- A longer log means that the last entry was appended. -/
theorem moves_iff_of_push {entry : LogEntry α} (h : d'.log = d.log.push entry) :
    Moves side c d d' ↔ entry.Moves side c := by
  constructor
  · rintro (⟨hlog, hmoves⟩ | ⟨hback, -, -⟩)
    · rw [(Array.push_eq_push.mp (h.symm.trans hlog)).1]
      exact hmoves
    · have hsize := backtrackTo_log_size hback
      rw [h, Array.size_push] at hsize
      omega
  · exact .appended h

omit [PartialEquivBEq α] in
/-- Where the log stays, nothing moves. -/
theorem not_moves_of_log (h : d'.log = d.log) : ¬Moves side c d d' := by
  rintro (⟨hlog, -⟩ | ⟨hback, hentry, -⟩)
  · have hsize := congrArg Array.size (h.symm.trans hlog)
    rw [Array.size_push] at hsize
    omega
  · have hsize := backtrackTo_log_size hback
    have hlt := List.length_pos_of_mem hentry
    rw [List.length_drop, Array.length_toList] at hlt
    rw [h] at hsize
    omega

omit [PartialEquivBEq α] in
/-- Backtracking moves the bounds which the entries that it takes off moved. -/
theorem moves_iff_of_back {position : Nat} (h : d.backtrackTo position = .ok d') :
    Moves side c d d' ↔ ∃ entry ∈ d.log.toList.drop position, entry.Moves side c := by
  have hsize := backtrackTo_log_size h
  constructor
  · rintro (⟨hlog, -⟩ | @⟨position', entry, hback, hentry, hmoves⟩)
    · rw [hlog, Array.size_push] at hsize
      omega
    · have hsize' := backtrackTo_log_size hback
      have hlt := List.length_pos_of_mem hentry
      rw [List.length_drop, Array.length_toList] at hlt
      obtain rfl : position' = position := by omega
      exact ⟨entry, hentry, hmoves⟩
  · rintro ⟨entry, hentry, hmoves⟩
    exact .undone h hentry hmoves

omit [PartialEquivBEq α] in
theorem Calls.turns (h : Calls d d') : Turns d d' := by
  induction h with
  | refl => exact .refl
  | tail _ hcall ih =>
      cases hcall with
      | change hchange => exact ih.tail (.change hchange)
      | back hback => exact ih.tail (.back hback)
      | keep hstill _ => exact ih.tail (.keep hstill)

/-- What a call notes are the bounds that it moves. -/
theorem Call.notes {start : Trail α} (hstart : start.Fresh)
    (hbuilt : Trail.Built (fun _ _ _ => True) start d.trail) (h : Call d d') :
    Notes (fun side c => Moves side c d d') d d' := by
  cases h with
  | keep hstill hreport =>
      have hbounds : d'.bounds = d.bounds := by
        funext side
        rw [← trail_bounds, hstill.trail, trail_bounds]
      refine (Notes.keep hbounds hreport).congr fun side c => ?_
      exact iff_false_intro (not_moves_of_log (congrArg Trail.log hstill.trail))
  | change hchange =>
      rcases changeBound_eq_ok hchange with
        ⟨-, rfl⟩ | ⟨-, current, opposite, -, -, ⟨-, rfl⟩ | ⟨value, crossing, -, happly⟩⟩
      · exact (Notes.keep rfl rfl).congr fun side c => iff_false_intro (not_moves_of_log rfl)
      · exact (Notes.keep rfl rfl).congr fun side c => iff_false_intro (not_moves_of_log rfl)
      · obtain ⟨previous, hlog, hnotes⟩ := applyChange_notes happly
        exact hnotes.congr fun side c => moves_iff_of_push hlog
  | @back position hback =>
      rcases backtrackTo_eq_ok hback with ⟨-, rfl⟩ | ⟨-, undone, hundone, hd'⟩
      · exact (Notes.keep rfl rfl).congr fun side c => iff_false_intro (not_moves_of_log rfl)
      · have hunwinds : (d.shortened position).trail.Unwinds (d.log.toList.drop position).reverse :=
          (hbuilt.unwinds hstart position).cut position
        have hshortened : Notes (fun _ _ => False) d (d.shortened position) := .keep rfl rfl
        have hsettled : Notes (fun _ _ => False) undone d' := .keep (hd' ▸ rfl) (hd' ▸ rfl)
        have hundo := foldlM_undo_notes hunwinds hundone
        refine ((hshortened.trans hundo).trans hsettled).congr fun side c => ?_
        rw [moves_iff_of_back hback]
        simp

/-- What calls note are the bounds that one of them moves. -/
theorem Calls.notes {start : Trail α} (hstart : start.Fresh)
    (hbuilt : Trail.Built (fun _ _ _ => True) start d.trail) (h : Calls d d') :
    Notes (fun side c => MovedBetween side c d d') d d' := by
  have hstep {e e' : Domain α} (he : Calls d e) (hcall : Call e e') :
      Notes (fun side c => Moves side c e e') e e' :=
    hcall.notes hstart (he.turns.built hstart hbuilt)
  have hlasting {e e' : Domain α} (he : Calls d e) (hcalls : Calls e e') {side : Side}
    {c : ColumnId}
      (hflagged : e.flagged side c = true) : e'.flagged side c = true := by
    induction hcalls with
    | refl => exact hflagged
    | tail hbefore hcall ih => exact ((hstep (he.trans hbefore) hcall).flagged side c).mpr (.inl ih)
  have hmoved {e : Domain α} {side : Side} {c : ColumnId} (hbetween : MovedBetween side c d e) :
      e.flagged side c = true := by
    obtain ⟨before, after, hbefore, hcall, hmoves, hafter⟩ := hbetween
    refine hlasting (hbefore.tail hcall) hafter ?_
    exact ((hstep hbefore hcall).flagged side c).mpr (.inr hmoves)
  induction h with
  | refl =>
      have hkept : Notes (fun _ _ => False) d d := .keep rfl rfl
      refine ⟨hkept.paired, fun side c => ⟨.inl, ?_⟩, fun side c _ => .inl rfl⟩
      rintro (hflagged | hbetween)
      · exact hflagged
      · exact hmoved hbetween
  | @tail e e' hbefore hcall ih =>
      have hlast := hstep hbefore hcall
      have hearlier {side : Side} {c : ColumnId} (hbetween : MovedBetween side c d e) :
          MovedBetween side c d e' := by
        obtain ⟨before, after, hfirst, hmoving, hmoves, hafter⟩ := hbetween
        exact ⟨before, after, hfirst, hmoving, hmoves, hafter.tail hcall⟩
      refine ⟨fun hd => hlast.paired (ih.paired hd), fun side c => ⟨fun hflagged => ?_, ?_⟩,
        fun side c hstays => ?_⟩
      · rcases (hlast.flagged side c).mp hflagged with hflagged | hmoves
        · exact ((ih.flagged side c).mp hflagged).imp_right hearlier
        · exact .inr ⟨e, e', hbefore, hcall, hmoves, .refl⟩
      · rintro (hflagged | hbetween)
        · exact hlasting .refl (hbefore.tail hcall) hflagged
        · exact hmoved hbetween
      · refine (ih.kept side c fun hbetween => hstays (hearlier hbetween)).trans ?_
        exact hlast.kept side c fun hmoves => hstays ⟨e, e', hbefore, hcall, hmoves, .refl⟩

end Domain

section Runs

variable [Scalar α] {s s' : PropagationState α} {op : Operation α}

/-- An advance of propagation only makes calls. -/
theorem Advance.calls (h : Advance s s') : Domain.Calls s.domain s'.domain := by
  have hsetting := h.setting
  cases h with
  | requeue hrequeued =>
      refine .single (.keep ⟨hrequeued.trail, hsetting.model, hsetting.feastol,
        .inl hrequeued.infeasible⟩ ?_)
      rw [Domain.report, Domain.report, hrequeued.movedSides, hrequeued.movedColumns]
  | refresh hrefresh =>
      rw [Domain.refreshActivity_eq_ok hrefresh]
      exact .single (.keep ⟨rfl, rfl, rfl, .inl rfl⟩ rfl)
  | readCuts _ _ _ => exact .single (.keep ⟨rfl, rfl, rfl, .inl rfl⟩ rfl)
  | readConflicts _ _ _ => exact .single (.keep ⟨rfl, rfl, rfl, .inl rfl⟩ rfl)
  | @change pools d d' changes _ hchanges =>
      exact Domain.changeBounds_keeps (P := Domain.Calls d)
        (fun _ _ _ _ hcalls hchange => hcalls.tail (.change hchange)) hchanges .refl
  | refute _ =>
      refine .single (.keep (Domain.markInfeasible_still ..) ?_)
      rw [Domain.markInfeasible_eq]
      rfl
  | renew _ => exact .refl

/-- What an operation does that neither moves bounds nor clears the report. -/
theorem Operation.keeps_report (hmoves : op.movesBounds = false) (hclear : op ≠ .clearMoved)
    (h : op.perform s = .ok s') : s'.domain.report = s.domain.report := by
  cases op with
  | newCutPool _ | newConflictPool _ _ =>
      cases h
      rfl
  | insertCut _ _ _ | removeCut _ _ | ageCuts _ _ =>
      obtain ⟨p, -, rfl⟩ := PropagationState.onCutPool_eq_ok h
      rfl
  | addConflict _ _ | removeConflict _ _ | resetAge _ _ | ageConflicts _ =>
      obtain ⟨p, -, rfl⟩ := PropagationState.onConflictPool_eq_ok h
      rfl
  | markInfeasible reason =>
      rw [perform, PropagationState.onDomain_eq_ok] at h
      obtain ⟨d', hd', rfl⟩ := h
      cases hd'
      rw [Domain.markInfeasible_eq]
      rfl
  | setupObjective partitions =>
      rw [perform, PropagationState.onDomain_eq_ok] at h
      obtain ⟨d', hd', rfl⟩ := h
      rw [Domain.setupObjective_eq_ok hd']
      rfl
  | setObjectiveCutoff cutoff =>
      rw [perform, PropagationState.onDomain_eq_ok] at h
      obtain ⟨d', hd', rfl⟩ := h
      cases hd'
      rw [Domain.setObjectiveCutoff_eq]
      rfl
  | refreshActivities =>
      rw [perform, PropagationState.onDomain_eq_ok] at h
      obtain ⟨d', hd', rfl⟩ := h
      rw [Domain.refreshActivities_eq_ok hd']
      rfl
  | attachCuts _ | attachConflicts _ | setCliques _ | setVariableBounds _ =>
      rw [perform, PropagationState.onDomain_eq_ok] at h
      obtain ⟨d', hd', rfl⟩ := h
      cases hd'
      rfl
  | clearMoved => exact absurd rfl hclear
  | _ => cases hmoves

/-- An operation only makes calls, unless it clears the report. -/
theorem Operation.calls (hclear : op ≠ .clearMoved) (h : op.perform s = .ok s') :
    Domain.Calls s.domain s'.domain := by
  cases hmoves : op.movesBounds with
  | false => exact .single (.keep (still hmoves h) (keeps_report hmoves hclear h))
  | true =>
      have hstages := stages hmoves h
      clear h
      induction hstages with
      | refl => exact .refl
      | tail _ hstage ih =>
          cases hstage with
          | change x _ hchange => exact ih.tail (.change hchange)
          | back hback => exact ih.tail (.back hback)
          | advance _ hadvance => exact ih.trans hadvance.calls

/-- One of the operations moved a bound. -/
inductive MovedDuring (side : Side) (c : ColumnId) :
    PropagationState α → List (Operation α) → Prop
  | here {s s' : PropagationState α} {op : Operation α} {rest : List (Operation α)}
      (h : op.perform s = .ok s') (hmoved : Domain.MovedBetween side c s.domain s'.domain) :
      MovedDuring side c s (op :: rest)
  | later {s s' : PropagationState α} {op : Operation α} {rest : List (Operation α)}
      (h : op.perform s = .ok s') (hmoved : MovedDuring side c s' rest) :
      MovedDuring side c s (op :: rest)

theorem movedDuring_cons {side : Side} {c : ColumnId} {rest : List (Operation α)}
    (h : op.perform s = .ok s') : MovedDuring side c s (op :: rest) ↔
      Domain.MovedBetween side c s.domain s'.domain ∨ MovedDuring side c s' rest := by
  constructor
  · rintro (⟨hperform, hmoved⟩ | ⟨hperform, hmoved⟩)
    · obtain rfl := Except.ok.inj (hperform.symm.trans h)
      exact .inl hmoved
    · obtain rfl := Except.ok.inj (hperform.symm.trans h)
      exact .inr hmoved
  · rintro (hmoved | hmoved)
    · exact .here h hmoved
    · exact .later h hmoved

variable {model : Model α} {feastol : α} {permitted : PropagationState α → Operation α → Prop}

theorem Reachable.exists_bound (h : Reachable permitted model feastol s) (side : Side)
    {c : ColumnId} (hc : c < model.columns.size) : ∃ b, (s.domain.bounds side)[c]? = some b := by
  have hsize := (h.built.bounds_size side).trans (Trail.bounds_ofModel_size model side)
  rw [Domain.trail_bounds] at hsize
  exact ⟨_, Array.getElem?_eq_getElem (hsize ▸ hc)⟩

/-- What a run notes in which the report is not cleared are the bounds that it moves. -/
theorem Operation.run_notes [PartialEquivBEq α] {ops : List (Operation α)}
    (hbuilt : Trail.Built (fun _ _ _ => True) (.ofModel model) s.domain.trail)
    (hclear : Operation.clearMoved ∉ ops)
    (h : ops.foldlM (fun s op => op.perform s) s = .ok s') :
    Domain.Notes (fun side c => MovedDuring side c s ops) s.domain s'.domain := by
  induction ops generalizing s with
  | nil =>
      obtain rfl := pure_eq_ok.mp h
      exact (Domain.Notes.keep rfl rfl).congr fun side c => by
        refine iff_false_intro fun hmoved => ?_
        cases hmoved
  | cons op rest ih =>
      rw [List.foldlM_cons, bind_eq_ok] at h
      obtain ⟨t, hperform, hrest⟩ := h
      rw [List.mem_cons, not_or] at hclear
      have hfresh := Trail.fresh_ofModel model
      have hcalls := Operation.calls (Ne.symm hclear.1) hperform
      have hlater := ih (hcalls.turns.built hfresh hbuilt) hclear.2 hrest
      exact ((hcalls.notes hfresh hbuilt).trans hlater).congr fun side c =>
        movedDuring_cons hperform

/-- In every run the flags and the list of moved columns are in step. -/
theorem Reachable.paired [PartialEquivBEq α] (h : Reachable permitted model feastol s) :
    s.domain.Paired := by
  induction h with
  | @start d hd =>
      have hunflagged (side : Side) (c : ColumnId) : d.flagged side c = false := by
        unfold Domain.ofModel at hd
        rw [Domain.refreshActivities_eq_ok hd, Domain.flagged, Array.getElem?_map]
        cases model.columns[c]? <;> simp
      refine ⟨?_, fun c => ?_⟩
      · unfold Domain.ofModel at hd
        rw [Domain.refreshActivities_eq_ok hd]
        exact .nil
      · simp only [hunflagged, Bool.false_eq_true, exists_false, iff_false]
        unfold Domain.ofModel at hd
        rw [Domain.refreshActivities_eq_ok hd]
        exact List.not_mem_nil
  | @step s s' op hs _ hperform ih =>
      by_cases hclear : op = .clearMoved
      · subst hclear
        rw [Operation.perform, PropagationState.onDomain_eq_ok] at hperform
        obtain ⟨d', hd', rfl⟩ := hperform
        cases hd'
        exact ih.clearMoved
      · have hnotes := (Operation.calls hclear hperform).notes (Trail.fresh_ofModel model) hs.built
        exact hnotes.paired ih

/-- **Change notifications are complete.** In a run of any operations since the report of a domain
was cleared, every column is reported at most once, and a bound with another value than it had when
the report was cleared is reported, with its side. What is reported moved since: the sides of a
reported column are those with a bound that an operation moved, and there is at least one. -/
theorem moved_bounds_reported [PartialEquivBEq α] {s₀ : PropagationState α}
    {ops : List (Operation α)} (h : Reachable (fun _ _ => True) model feastol s₀)
    (hclear : Operation.clearMoved.perform s₀ = .ok s) (hops : Operation.clearMoved ∉ ops)
    (hrun : ops.foldlM (fun s op => op.perform s) s = .ok s') :
    (s'.domain.moved.map Prod.fst).Nodup ∧
    (∀ side c, c < model.columns.size → ∃ b b',
      s.domain.bound side c = .ok b ∧ s'.domain.bound side c = .ok b' ∧
      (b.value ≠ b'.value → (b.value == b'.value) = false →
        ∃ sides, (c, sides) ∈ s'.domain.moved ∧ sides.has side = true)) ∧
    ∀ c sides, (c, sides) ∈ s'.domain.moved →
      (∃ side, sides.has side = true) ∧
      ∀ side, sides.has side = true ↔ MovedDuring side c s ops := by
  have hreach : Reachable (fun _ _ => True) model feastol s := h.step trivial hclear
  have hreach' : Reachable (fun _ _ => True) model feastol s' :=
    hreach.performAll (fun _ _ _ => trivial) hrun
  have hcleared (side : Side) (c : ColumnId) : s.domain.flagged side c = false := by
    rw [Operation.perform, PropagationState.onDomain_eq_ok] at hclear
    obtain ⟨d, hd, rfl⟩ := hclear
    cases hd
    exact h.paired.flagged_clearMoved side c
  have hnotes := Operation.run_notes hreach.built hops hrun
  have hflagged (side : Side) (c : ColumnId) :
      s'.domain.flagged side c = true ↔ MovedDuring side c s ops := by
    rw [hnotes.flagged, hcleared]
    simp
  have hpaired := hreach'.paired
  refine ⟨?_, fun side c hc => ?_, fun c sides hmem => ?_⟩
  · have hcolumns : s'.domain.moved.map Prod.fst = s'.domain.movedColumns := by
      simp [Domain.moved, Function.comp_def]
    exact hcolumns ▸ hpaired.nodup
  · obtain ⟨b, hb⟩ := hreach.exists_bound side hc
    obtain ⟨b', hb'⟩ := hreach'.exists_bound side hc
    refine ⟨b, b', fetch_eq_ok.mpr hb, fetch_eq_ok.mpr hb', fun hne hunequal => ?_⟩
    have hmoved : MovedDuring side c s ops := by
      by_contra hstays
      rcases hnotes.kept side c hstays with hsame | ⟨x, x', hx, hx', hequal⟩
      · rw [Domain.value?, Domain.value?, hb, hb'] at hsame
        exact hne (Option.some.inj hsame)
      · rw [Domain.value?, hb, Option.map_some, Option.some.injEq] at hx
        rw [Domain.value?, hb', Option.map_some, Option.some.injEq] at hx'
        rw [hx, hx', hequal] at hunequal
        cases hunequal
    have hflag := (hflagged side c).mpr hmoved
    exact ⟨_, Domain.mem_moved.mpr ⟨(hpaired.mem_iff c).mpr ⟨side, hflag⟩, rfl⟩, hflag⟩
  · obtain ⟨hlisted, rfl⟩ := Domain.mem_moved.mp hmem
    exact ⟨(hpaired.mem_iff c).mp hlisted, fun side => hflagged side c⟩

end Runs

/-- A decision that repeats a bound and is undone, and a stack that replaces everything else. -/
def replacedChanges : List (Operation Exact) :=
  [.changeBound (.atLeast 0 2) .branching, .backtrack, .setStack [.atMost 1 2] []]

/-- An upper bound that a stack brings back to its value is reported like the bounds that it does
not bring back. -/
theorem replaced_changes_reported :
    ∃ (model : Model Exact) (s₀ s s' : PropagationState Exact),
      Reachable (fun _ _ => True) model 1e-6 s₀ ∧ Operation.clearMoved.perform s₀ = .ok s ∧
      Operation.clearMoved ∉ replacedChanges ∧
      replacedChanges.foldlM (fun s op => op.perform s) s = .ok s' ∧
      s'.domain.moved = [(0, ⟨true, false⟩), (1, ⟨true, true⟩)] ∧
      ∀ c sides, (c, sides) ∈ s'.domain.moved →
        (∃ side, sides.has side = true) ∧
        ∀ side, sides.has side = true ↔ MovedDuring side c s replacedChanges := by
  have hrun : passes twoColumns.build (fun model => passes (Domain.ofModel model 1e-6) fun d =>
      passes (interleavedChanges.foldlM (fun s op => op.perform s) ⟨.empty, d⟩) fun s₀ =>
        passes (Operation.clearMoved.perform s₀) fun s =>
          passes (replacedChanges.foldlM (fun s op => op.perform s) s) fun s' =>
            s'.domain.moved == [(0, ⟨true, false⟩), (1, ⟨true, true⟩)]) = true := by
    decide +kernel
  obtain ⟨model, hmodel, hrun⟩ := passes_eq_true.mp hrun
  obtain ⟨d, hd, hrun⟩ := passes_eq_true.mp hrun
  obtain ⟨s₀, hs₀, hrun⟩ := passes_eq_true.mp hrun
  obtain ⟨s, hs, hrun⟩ := passes_eq_true.mp hrun
  obtain ⟨s', hs', hrun⟩ := passes_eq_true.mp hrun
  have hreach : Reachable (fun _ _ => True) model 1e-6 s₀ :=
    (Reachable.start hd).performAll (fun _ _ _ => trivial) hs₀
  have hops : Operation.clearMoved ∉ replacedChanges := by
    simp [replacedChanges]
  exact ⟨model, s₀, s, s', hreach, hs, hops, hs', beq_iff_eq.mp hrun,
    (moved_bounds_reported hreach hs hops hs').2.2⟩

end BranchBound
