import BranchBound.Proofs.Conflict.PastBounds

/-!
# Explanations of literals

A literal that held before a limit has held since some change before it, or in every node. Where the
changes at the positions that are found hold, the literals hold, and where the changes which set
some bounds hold, these bounds do.
-/

namespace BranchBound

open Checked

variable {α : Type} [Scalar α]

namespace Domain

variable {d : Domain α} {limit : Nat} {literal : BoundChange α}

/-- What is found for the source of a literal: from there on the literal holds. -/
def IsSource (d : Domain α) (limit : Nat) (literal : BoundChange α) : LiteralSource → Prop
  | .everywhere => ∀ R : Reading α, R.Inside d.globalBox d.model.columns.size → R.Holds literal
  | .since p => p < limit ∧
      ∀ R : Reading α, R.Inside d.globalBox d.model.columns.size → d.Meets [p] R → R.Holds literal

theorem IsSource.later {source : LiteralSource} (h : d.IsSource limit literal source) {later : Nat}
    (hle : limit ≤ later) : d.IsSource later literal source := by
  cases source with
  | everywhere => exact h
  | since p => exact ⟨Nat.lt_of_lt_of_le h.1 hle, h.2⟩

namespace Traced

variable [Scalar.LinearlyOrdered α] (h : d.Traced)

include h

/-- Following the changes of a bound backwards finds where a literal became true. -/
theorem sourceFrom_returns (hc : literal.column < d.model.columns.size) {steps : Nat} {b : Bound α}
    (hb : d.InForce literal.side literal.column limit b) (hholds : literal.holdsFor b.value = true)
    (hlogged : ∀ p, b.position = some p → p < d.log.size)
    (hsteps : ∀ p, b.position = some p → p < steps) :
    Returns (d.sourceFrom literal steps b.position) (d.IsSource limit literal) := by
  have hglobal : (∀ p, b.position = some p → p < d.globalLength) →
      d.IsSource limit literal .everywhere := fun hbefore R hR => by
    refine R.weaken (h.inForce_holds hR hc hb fun p hp hafter => ?_) hholds
    exact absurd (hbefore p (by simpa using hp)) (Nat.not_lt.mpr hafter)
  induction steps generalizing b limit with
  | zero =>
      rw [sourceFrom]
      exact .ok (hglobal fun p hp => absurd (hsteps p hp) (Nat.not_lt_zero p))
  | succ steps ih =>
      cases hposition : b.position with
      | none =>
          rw [sourceFrom]
          exact .ok (hglobal fun p hp => by cases hposition.symm.trans hp)
      | some p =>
          have hp := hb.position_lt h.numeric.unset p hposition
          simp only [sourceFrom]
          split
          · next hlt =>
              refine .pure (hglobal fun p' hp' => ?_)
              obtain rfl := Option.some.inj (hposition.symm.trans hp')
              exact hlt
          · refine (fetch_returns (hlogged p hposition)).bind fun entry _ hentry => ?_
            split
            · exact .pure ⟨hp, fun R hR hmeets =>
                R.weaken (h.inForce_holds hR hc hb (by simpa [hposition] using hmeets)) hholds⟩
            · next hearlier =>
                have hsets : entry.Sets literal.side literal.column := by
                  cases hb with
                  | start hb _ => cases (h.numeric.unset _ _ _ hb).symm.trans hposition
                  | set _ hentry' hsets _ =>
                      cases hposition
                      rw [Option.some.inj (hentry.symm.trans hentry')]
                      exact hsets
                have hprevious := h.linked.previous p entry hentry
                rw [hsets.1, hsets.2] at hprevious
                have hbefore := hprevious.position_lt h.numeric.unset
                have hholds' : literal.holdsFor entry.previous.value = true := by
                  simpa using hearlier
                refine (ih hprevious hholds' (fun q hq => ?_) (fun q hq => ?_)
                  fun hbefore R hR => ?_).mono fun source _ hsource => hsource.later hp.le
                · exact (hbefore q hq).trans (hlogged p hposition)
                · have hq' := hbefore q hq
                  have hlast := hsteps p hposition
                  omega
                · refine R.weaken (h.inForce_holds hR hc hprevious fun q hq hafter => ?_) hholds'
                  exact absurd (hbefore q (by simpa using hq)) (Nat.not_lt.mpr hafter)

omit [Scalar.LinearlyOrdered α] in
/-- The bound before a limit was set by an entry of the log, if it was changed at all. -/
theorem position_lt_size {side : Side} {c : ColumnId} {b : Bound α}
    (hb : d.InForce side c limit b) :
    ∀ p, b.position = some p → p < d.log.size := fun p hp => by
  cases hb with
  | start hb _ => cases (h.numeric.unset _ _ _ hb).symm.trans hp
  | set _ hentry _ _ =>
      cases hp
      exact (Array.getElem?_eq_some_iff.mp hentry).1

/-- The source of a literal is found if the literal holds before the limit. -/
theorem literalSource_returns (hc : literal.column < d.model.columns.size) :
    Returns (d.literalSource literal limit) fun o =>
      (∀ source, o = some source → d.IsSource limit literal source) ∧
        (literal.holdsFor (d.valuesBefore limit literal.side literal.column) = true →
          o ≠ none) := by
  refine (h.boundBefore_returns hc).bind fun b _ hb => ?_
  rw [h.valuesBefore_eq hc hb]
  split
  · next hnot =>
      refine .pure ⟨(fun source hsource => nomatch hsource), fun hholds => ?_⟩
      simp [hholds] at hnot
  · next hholds =>
      have hholds : literal.holdsFor b.value = true := by simpa using hholds
      have hlogged := h.position_lt_size hb
      refine (h.sourceFrom_returns hc hb hholds hlogged hlogged).bind fun source _ hsource =>
        .pure ⟨fun found hfound => ?_, fun _ => by simp⟩
      obtain rfl := Option.some.inj hfound
      exact hsource

/-- Literals are explained by positions before the limit at whose changes they hold. There is an
explanation if they hold before the limit. -/
theorem literalPositions_returns {literals : List (BoundChange α)}
    (hc : ∀ l ∈ literals, l.column < d.model.columns.size) :
    Returns (d.literalPositions limit literals) fun o =>
      (∀ positions, o = some positions → (∀ p ∈ positions, p < limit) ∧
        ∀ R : Reading α, R.Inside d.globalBox d.model.columns.size → d.Meets positions R →
          ∀ l ∈ literals, R.Holds l) ∧
      ((∀ l ∈ literals, l.holdsFor (d.valuesBefore limit l.side l.column) = true) → o ≠ none) := by
  induction literals with
  | nil =>
      refine .ok ⟨fun positions hpositions => ?_, fun _ => by simp⟩
      obtain rfl := Option.some.inj hpositions
      exact ⟨(fun p hp => nomatch hp), fun _ _ _ l hl => nomatch hl⟩
  | cons literal rest ih =>
      simp only [literalPositions]
      refine (h.literalSource_returns (hc _ (List.mem_cons_self ..))).bind fun o _ ho => ?_
      cases o with
      | none =>
          refine .pure ⟨(fun positions hpositions => nomatch hpositions), fun hall => ?_⟩
          exact absurd rfl (ho.2 (hall _ (List.mem_cons_self ..)))
      | some source =>
          have hsource := ho.1 source rfl
          refine (ih fun l hl => hc l (List.mem_cons_of_mem _ hl)).bind fun others _ hothers => ?_
          cases source with
          | everywhere =>
              refine .pure ⟨fun positions hpositions => ⟨(hothers.1 positions hpositions).1,
                fun R hR hmeets l hl => ?_⟩,
                fun hall => hothers.2 fun l hl => hall l (List.mem_cons_of_mem _ hl)⟩
              rcases List.mem_cons.mp hl with rfl | hl
              · exact hsource R hR
              · exact (hothers.1 positions hpositions).2 R hR hmeets l hl
          | since p =>
              obtain ⟨hp, hholds⟩ := hsource
              refine .pure ⟨fun positions hpositions => ?_, fun hall => ?_⟩
              · obtain ⟨found, rfl, rfl⟩ := Option.map_eq_some_iff.mp hpositions
                obtain ⟨hbefore, hmet⟩ := hothers.1 found rfl
                refine ⟨fun q hq => ?_, fun R hR hmeets l hl => ?_⟩
                · rcases List.mem_cons.mp hq with rfl | hq
                  · exact hp
                  · exact hbefore q hq
                · have hsplit := Meets.append.mp (show d.Meets ([p] ++ found) R from hmeets)
                  rcases List.mem_cons.mp hl with rfl | hl
                  · exact hholds R hR hsplit.1
                  · exact hmet R hR hsplit.2 l hl
              · have hne := hothers.2 fun l hl => hall l (List.mem_cons_of_mem _ hl)
                simpa using hne

/-- The changes that set the bounds of some columns before the limit are before it, and where they
hold, so do the bounds. -/
theorem boundPositions_returns {columns : List ColumnId}
    (hc : ∀ c ∈ columns, c < d.model.columns.size) :
    Returns (d.boundPositions limit columns) fun positions => (∀ p ∈ positions, p < limit) ∧
      ∀ R : Reading α, R.Inside d.globalBox d.model.columns.size → d.Meets positions R →
        ∀ c ∈ columns, ∀ side, R.Holds ⟨c, side, d.valuesBefore limit side c⟩ := by
  have hcolumn : ∀ c ∈ columns, Returns (do
      let lower ← d.boundBefore .lower c limit
      let upper ← d.boundBefore .upper c limit
      return lower.position.toList ++ upper.position.toList) fun positions =>
        (∀ p ∈ positions, p < limit) ∧
          ∀ R : Reading α, R.Inside d.globalBox d.model.columns.size → d.Meets positions R →
            ∀ side, R.Holds ⟨c, side, d.valuesBefore limit side c⟩ := fun c hmem => by
    have hlt := hc c hmem
    refine (h.boundBefore_returns hlt).bind fun lower _ hlower => ?_
    refine (h.boundBefore_returns hlt).bind fun upper _ hupper => .pure ⟨fun p hp => ?_,
      fun R hR hmeets side => ?_⟩
    · rcases List.mem_append.mp hp with hp | hp
      · exact hlower.position_lt h.numeric.unset p (by simpa using hp)
      · exact hupper.position_lt h.numeric.unset p (by simpa using hp)
    · obtain ⟨hfirst, hsecond⟩ := Meets.append.mp hmeets
      cases side with
      | lower =>
          rw [h.valuesBefore_eq hlt hlower]
          exact h.inForce_holds hR hlt hlower hfirst
      | upper =>
          rw [h.valuesBefore_eq hlt hupper]
          exact h.inForce_holds hR hlt hupper hsecond
  refine (mapM_returns_forall₂ hcolumn).bind fun found hmap hfound => .pure ?_
  clear hcolumn hc hmap
  induction hfound with
  | nil => exact ⟨(fun p hp => nomatch hp), fun _ _ _ c hmem => nomatch hmem⟩
  | @cons c positions rest found hfirst _ ih =>
      rw [List.flatten_cons]
      refine ⟨fun p hp => ?_, fun R hR hmeets c' hmem side => ?_⟩
      · exact (List.mem_append.mp hp).elim (hfirst.1 p) (ih.1 p)
      · obtain ⟨hmet, hothers⟩ := Meets.append.mp hmeets
        rcases List.mem_cons.mp hmem with rfl | hmem
        · exact hfirst.2 R hR hmet side
        · exact ih.2 R hR hothers c' hmem side

/-- Two bounds are explained by the change at a position, which is the one of them, and the change
that set the opposite one before. -/
theorem explainCrossing_returns {position : Nat} {entry : LogEntry α}
    (hentry : d.log[position]? = some entry) :
    Returns (d.explainCrossing position) fun positions => (∀ p ∈ positions, p ≤ position) ∧
      ∀ R : Reading α, R.Inside d.globalBox d.model.columns.size → d.Meets positions R →
        R.Holds entry.change ∧ R.Holds ⟨entry.change.column, entry.change.side.opposite,
          d.valuesBefore position entry.change.side.opposite entry.change.column⟩ := by
  have hlt := (Array.getElem?_eq_some_iff.mp hentry).1
  have hc := h.column_lt hentry
  refine (fetch_returns hlt).bind fun entry' _ hentry' => ?_
  obtain rfl := Option.some.inj (hentry.symm.trans hentry')
  refine (h.boundBefore_returns hc).bind fun b _ hb => .pure ⟨fun p hp => ?_, fun R hR hmeets => ?_⟩
  · rcases List.mem_cons.mp hp with rfl | hp
    · exact Nat.le_refl _
    · exact (hb.position_lt h.numeric.unset p (by simpa using hp)).le
  · obtain ⟨hfirst, hsecond⟩ := Meets.append.mp
      (show d.Meets ([position] ++ b.position.toList) R from hmeets)
    rw [h.valuesBefore_eq hc hb]
    refine ⟨?_, h.inForce_holds hR hc hb hsecond⟩
    rcases Nat.lt_or_ge position d.globalLength with hglobal | hafter
    · exact h.holds_global hR hentry hglobal
    · exact hfirst position (List.mem_singleton_self _) hafter entry hentry

end Traced

end Domain

end BranchBound

/-!
## Where a literal became true

Bounds only become tighter from one entry of the log to the next, so a literal that holds at some
length of the log holds from one length on. The walk back over the changes of its bound stops at the
change which made it true, whatever other changes of the bound there were before and after.

For that only the numbers on the present log matter: a state may be reached through changes to
values that are not numbers, as long as they were undone.
-/

namespace BranchBound

open Checked

variable {α : Type} [Scalar α]

namespace Trail

variable {start t : Trail α} {columnCount : Nat}

/-- No change on record set a bound to a value that is not a number. -/
def LogsNumbers (t : Trail α) : Prop := ∀ entry ∈ t.log, Scalar.isNaN entry.change.value = false

/-- A change of a trail with numbers on record was made in a box that was not empty, and if it was
one to a number, the bound did not become less tight. -/
def ShrinksNumbers (columnCount : Nat) (t : Trail α) (change : BoundChange α) (reason : Reason) :
    Prop :=
  t.LogsNumbers → t.Ordered columnCount ∧
    (Scalar.isNaN change.value = false → Shrinks columnCount t change reason)

theorem LogsNumbers.of_append {change : BoundChange α} {reason : Reason} {previous : Bound α}
    (h : (t.append change reason previous).LogsNumbers) :
    t.LogsNumbers ∧ Scalar.isNaN change.value = false := by
  refine ⟨fun entry hentry => h entry ?_, h ⟨change, reason, previous⟩ ?_⟩
  · exact append_log t .. ▸ Array.mem_push_of_mem _ hentry
  · exact append_log t .. ▸ Array.mem_push_self

/-- With only numbers on record every change was one of a box that was not empty. -/
theorem Built.shrinks (h : Built (ShrinksNumbers columnCount) start t) (hnumbers : t.LogsNumbers) :
    Built (Shrinks columnCount) start t := by
  induction h with
  | start => exact .start
  | append _ hprevious hallowed ih =>
      obtain ⟨hbefore, hvalue⟩ := hnumbers.of_append
      exact (ih hbefore).append hprevious ((hallowed hbefore).2 hvalue)

end Trail

namespace Domain

variable {d d' : Domain α} {start : Trail α} {columnCount : Nat}

/-- The trail came about by changes of boxes that were not empty, as far as numbers are on record,
and so is the present one. -/
structure ShrinkingNumbers (start : Trail α) (columnCount : Nat) (d : Domain α) : Prop where
  built : Trail.Built (Trail.ShrinksNumbers columnCount) start d.trail
  ordered : d.infeasible = none → d.trail.LogsNumbers → d.trail.Ordered columnCount

theorem ShrinkingNumbers.shrinking (h : d.ShrinkingNumbers start columnCount)
    (hnumbers : d.LogsNumbers) : d.Shrinking start columnCount :=
  ⟨h.built.shrinks hnumbers, fun hfeasible => h.ordered hfeasible hnumbers⟩

theorem ShrinkingNumbers.still (h : d.ShrinkingNumbers start columnCount) (hstill : Still d d') :
    d'.ShrinkingNumbers start columnCount := by
  refine ⟨hstill.trail ▸ h.built, fun hfeasible => hstill.trail ▸ h.ordered ?_⟩
  rcases hstill.infeasible with hsame | ⟨hnone, -⟩
  · exact hsame ▸ hfeasible
  · exact hnone

/-- Backtracking leads to a box that a change was made to. -/
theorem ShrinkingNumbers.backtrackTo (h : d.ShrinkingNumbers start columnCount)
    (hstart : start.Fresh) {position : Nat} (hback : d.backtrackTo position = .ok d') :
    d'.ShrinkingNumbers start columnCount := by
  rcases Nat.lt_or_ge position d.log.size with hlt | hle
  · obtain ⟨htrail, -, -⟩ := backtrackTo_trail hback hlt
    have hentry : d.trail.log[position]? = some d.log[position] := Array.getElem?_eq_getElem hlt
    refine ⟨htrail ▸ h.built.rewindTo hstart position, fun _ hnumbers => ?_⟩
    rw [htrail] at hnumbers ⊢
    exact (h.built.allowed_of_log hstart hentry hnumbers).1
  · rw [backtrackTo_of_le hle] at hback
    exact Except.ok.inj hback ▸ h

variable [Scalar.LinearlyOrdered α]

theorem ShrinkingNumbers.changeBound (h : d.ShrinkingNumbers start columnCount)
    (hstart : start.Numeric columnCount) {change : BoundChange α} {reason : Reason}
    (hchange : d.changeBound change reason = .ok d') : d'.ShrinkingNumbers start columnCount := by
  rcases changeBound_eq_ok hchange with ⟨-, rfl⟩ |
    ⟨hfeasible, current, opposite, -, -, ⟨-, rfl⟩ | ⟨accepted, crossing, haccepted, happly⟩⟩
  · exact h
  · exact h
  obtain ⟨previous, hprevious, hfollows⟩ := applyChange_trail happly
  have htrail : d'.trail = d.trail.append { change with value := accepted } reason previous :=
    hfollows.trail
  rw [← trail_bounds] at hprevious
  -- A change to a number of a trail with numbers on record is one of a run with numbers only.
  have hshrinking (hnumbers : d.trail.LogsNumbers) (hvalue : Scalar.isNaN accepted = false) :
      d'.Shrinking start columnCount :=
    (h.shrinking hnumbers).changeBound hstart (number_of_acceptedValue haccepted hvalue) hchange
  refine ⟨htrail ▸ h.built.append hprevious fun hnumbers => ⟨h.ordered hfeasible hnumbers,
    fun hvalue => ?_⟩, fun hfeasible' hnumbers => ?_⟩
  · have hlast : d'.trail.log[d.trail.log.size]? =
        some ⟨{ change with value := accepted }, reason, previous⟩ := by
      rw [htrail, Trail.append_log, Array.getElem?_push_size]
    have hallowed := (hshrinking hnumbers hvalue).built.allowed_of_log hstart.fresh hlast
    rwa [htrail, Trail.rewindTo_append_size _ _ _ _ (h.built.decisionsLogged hstart.fresh)
      hprevious] at hallowed
  · rw [htrail] at hnumbers
    obtain ⟨hbefore, hvalue⟩ := hnumbers.of_append
    exact (hshrinking hbefore hvalue).ordered hfeasible'

theorem ShrinkingNumbers.turns (h : d.ShrinkingNumbers start columnCount)
    (hstart : start.Numeric columnCount) (hturns : Turns d d') :
    d'.ShrinkingNumbers start columnCount := by
  induction hturns with
  | refl => exact h
  | tail _ hturn ih =>
      cases hturn with
      | keep hstill => exact ih.still hstill
      | change hchange => exact ih.changeBound hstart hchange
      | back hback => exact ih.backtrackTo hstart.fresh hback

end Domain

section Runs

variable [Scalar.LinearlyOrdered α] {draft : Draft α} {model : Model α} {feastol : α}
  {s : PropagationState α} {permitted : PropagationState α → Operation α → Prop}

/-- A state with only numbers on record is traced by its log, however it was reached. -/
theorem Reachable.traced_of_logsNumbers (hmodel : draft.build = .ok model)
    (hbounds : model.BoundedByNumbers) (h : Reachable permitted model feastol s)
    (hnumbers : s.domain.LogsNumbers) : s.domain.Traced := by
  have hstart := Trail.numeric_ofModel hbounds
  have hshrinking : s.domain.ShrinkingNumbers (.ofModel model) model.columns.size := by
    clear hnumbers
    induction h with
    | start hd =>
        have htrail := Domain.ofModel_trail hd
        exact ⟨htrail ▸ .start,
          fun _ _ => htrail ▸ Trail.ordered_ofModel (Draft.ordered_of_build hmodel hbounds)⟩
    | step _ _ hperform ih => exact ih.turns hstart (Operation.turns hperform)
  refine ⟨?_, ?_⟩
  · rw [h.constant.1]
    exact hshrinking.shrinking hnumbers
  · rw [h.constant.1]
    exact hstart

end Runs

namespace Domain

variable {d : Domain α} {limit : Nat} {literal : BoundChange α}

/-- Whether a literal holds for the bounds before a position. -/
def HoldsBefore (d : Domain α) (literal : BoundChange α) (position : Nat) : Prop :=
  literal.holdsFor (d.valuesBefore position literal.side literal.column) = true

/-- A literal became true at a local position before a limit and has held since. -/
structure HoldsSince (d : Domain α) (literal : BoundChange α) (limit p : Nat) : Prop where
  isLocal : d.globalLength ≤ p
  lt : p < limit
  fails : ¬d.HoldsBefore literal p
  holds : ∀ q, p < q → q ≤ limit → d.HoldsBefore literal q

/-- A literal became true at one position at most. -/
theorem HoldsSince.unique {p p' : Nat} (hp : d.HoldsSince literal limit p)
    (hp' : d.HoldsSince literal limit p') : p = p' := by
  rcases Nat.lt_trichotomy p p' with hlt | heq | hlt
  · exact absurd (hp.holds p' hlt hp'.lt.le) hp'.fails
  · exact heq
  · exact absurd (hp'.holds p hlt hp.lt.le) hp.fails

namespace Traced

variable (h : d.Traced)

include h

/-- A literal that held once holds later. -/
theorem holdsBefore_mono [Scalar.LinearlyOrdered α] {p q : Nat} (hpq : p ≤ q)
    (hholds : d.HoldsBefore literal p) :
    d.HoldsBefore literal q := by
  have htighter := (h.shrinking.built.rewindTo h.numeric.fresh q).tightOrEqual_rewindTo
    h.numeric.fresh h.numeric.number p literal.side literal.column
  rw [Trail.rewindTo_rewindTo _ hpq] at htighter
  exact Side.tightOrEqual_trans htighter hholds

/-- A literal holds before a position if it does for the bound in force there. -/
theorem holdsBefore_iff (hc : literal.column < d.model.columns.size) {position : Nat} {b : Bound α}
    (hb : d.InForce literal.side literal.column position b) :
    d.HoldsBefore literal position ↔ literal.holdsFor b.value = true := by
  rw [HoldsBefore, h.valuesBefore_eq hc hb]

/-- The walk back along the changes of a bound ends at the one that made a literal true, unless it
was true for the global bounds. -/
theorem sourceFrom_earliest (hc : literal.column < d.model.columns.size) {steps : Nat} {b : Bound α}
    (hb : d.InForce literal.side literal.column limit b) (hholds : literal.holdsFor b.value = true)
    (hsteps : ∀ p, b.position = some p → p < steps) :
    Returns (d.sourceFrom literal steps b.position) fun source =>
      match source with
      | .everywhere => d.HoldsBefore literal (min limit d.globalLength)
      | .since p => d.HoldsSince literal limit p := by
  have hglobal (hbefore : ∀ p, b.position = some p → p < d.globalLength) :
      d.HoldsBefore literal (min limit d.globalLength) := by
    refine (h.holdsBefore_iff hc (hb.of_later (Nat.min_le_left ..) fun p hp => ?_)).mpr hholds
    exact Nat.lt_min.mpr ⟨hb.position_lt h.numeric.unset p hp, hbefore p hp⟩
  induction steps generalizing b limit with
  | zero =>
      rw [sourceFrom]
      exact .ok (hglobal fun p hp => absurd (hsteps p hp) (Nat.not_lt_zero p))
  | succ steps ih =>
      cases hposition : b.position with
      | none =>
          rw [sourceFrom]
          exact .ok (hglobal fun p hp => by cases hposition.symm.trans hp)
      | some p =>
          have hlimit := hb.position_lt h.numeric.unset p hposition
          have hsince (q : Nat) (hpq : p < q) (hq : q ≤ limit) : d.HoldsBefore literal q := by
            refine (h.holdsBefore_iff hc (hb.of_later hq fun r hr => ?_)).mpr hholds
            obtain rfl := Option.some.inj (hposition.symm.trans hr)
            exact hpq
          simp only [sourceFrom]
          split
          · next hlt =>
              refine .pure (hglobal fun p' hp' => ?_)
              obtain rfl := Option.some.inj (hposition.symm.trans hp')
              exact hlt
          · next hlocal =>
              have hlocal := Nat.le_of_not_lt hlocal
              refine (fetch_returns (h.position_lt_size hb p hposition)).bind
                fun entry _ hentry => ?_
              have hsets : entry.Sets literal.side literal.column := by
                cases hb with
                | start hb _ => cases (h.numeric.unset _ _ _ hb).symm.trans hposition
                | set _ hentry' hsets _ =>
                    cases hposition
                    rw [Option.some.inj (hentry.symm.trans hentry')]
                    exact hsets
              have hprevious := h.linked.previous p entry hentry
              rw [hsets.1, hsets.2] at hprevious
              split
              · next hfails =>
                  refine .pure ⟨hlocal, hlimit, fun hbefore => ?_, hsince⟩
                  rw [h.holdsBefore_iff hc hprevious] at hbefore
                  simp [hbefore] at hfails
              · next hearlier =>
                  -- The replaced bound is the one to go on with, and the literal held since then.
                  have hholds' : literal.holdsFor entry.previous.value = true := by
                    simpa using hearlier
                  have hp := (h.holdsBefore_iff hc hprevious).mpr hholds'
                  have hbefore := hprevious.position_lt h.numeric.unset
                  refine (ih hprevious hholds' (fun r hr => ?_) fun hglobal' => ?_).mono
                    fun source _ hsource => ?_
                  · have hr' := hbefore r hr
                    have hlast := hsteps p hposition
                    omega
                  · refine (h.holdsBefore_iff hc (hprevious.of_later (Nat.min_le_left ..)
                      fun r hr => ?_)).mpr hholds'
                    exact Nat.lt_min.mpr ⟨hbefore r hr, hglobal' r hr⟩
                  · cases source with
                    | everywhere =>
                        rw [Nat.min_eq_right hlocal] at hsource
                        rw [Nat.min_eq_right (hlocal.trans hlimit.le)]
                        exact hsource
                    | since r =>
                        refine ⟨hsource.isLocal, hsource.lt.trans hlimit, hsource.fails,
                          fun q hrq hq => ?_⟩
                        rcases Nat.lt_or_ge p q with hpq | hqp
                        · exact hsince q hpq hq
                        · exact hsource.holds q hrq hqp

end Traced

end Domain

section Runs

variable [Scalar.LinearlyOrdered α] {draft : Draft α} {model : Model α} {feastol : α}
  {s : PropagationState α}

/-- **The source of a literal is the earliest one.** In every state that a domain of a model reaches
by any operations and in which all bounds on record are numbers, the source of a literal before a
limit is found. There is none exactly if the literal does not hold for the bounds before the limit.
It holds everywhere exactly if it holds for the bounds before the limit and before the end of the
global part of the log. Otherwise it holds since the one local position before the limit for whose
bounds it fails while it holds before every later position up to the limit. -/
theorem literal_source_earliest (hmodel : draft.build = .ok model)
    (hbounds : model.BoundedByNumbers) (h : Reachable (fun _ _ => True) model feastol s)
    (hnumbers : s.domain.LogsNumbers) (literal : BoundChange α)
    (hcolumn : literal.column < model.columns.size) (limit : Nat) :
    Returns (s.domain.literalSource literal limit) fun o =>
      (o = none ↔ ¬s.domain.HoldsBefore literal limit) ∧
      (o = some .everywhere ↔
        s.domain.HoldsBefore literal (min limit s.domain.globalLength)) ∧
      ∀ p, o = some (.since p) ↔ s.domain.HoldsSince literal limit p := by
  have htraced := h.traced_of_logsNumbers hmodel hbounds hnumbers
  have hc : literal.column < s.domain.model.columns.size := h.constant.1.symm ▸ hcolumn
  have hearlier (hholds : s.domain.HoldsBefore literal (min limit s.domain.globalLength)) :
      s.domain.HoldsBefore literal limit := htraced.holdsBefore_mono (Nat.min_le_left ..) hholds
  have hsince {p : Nat} (hp : s.domain.HoldsSince literal limit p) :
      s.domain.HoldsBefore literal limit := hp.holds limit hp.lt le_rfl
  have hlocal {p : Nat} (hp : s.domain.HoldsSince literal limit p) :
      ¬s.domain.HoldsBefore literal (min limit s.domain.globalLength) := fun hholds =>
    hp.fails (htraced.holdsBefore_mono ((Nat.min_le_right ..).trans hp.isLocal) hholds)
  refine (htraced.boundBefore_returns hc).bind fun b _ hb => ?_
  have hiff := htraced.holdsBefore_iff hc hb
  split
  · next hfails =>
      have hfails : ¬s.domain.HoldsBefore literal limit := by
        rw [hiff]
        simpa using hfails
      refine .pure ⟨by simp [hfails], ?_, fun p => ?_⟩
      · simpa using fun hholds => hfails (hearlier hholds)
      · simpa using fun hp => hfails (hsince hp)
  · next hholds =>
      have hholds : literal.holdsFor b.value = true := by simpa using hholds
      refine (htraced.sourceFrom_earliest hc hb hholds (htraced.position_lt_size hb)).bind
        fun source _ hsource => .pure ⟨by simp [hiff, hholds], ?_, fun p => ?_⟩
      · cases source with
        | everywhere => simpa using hsource
        | since p => simpa using hlocal hsource
      · cases source with
        | everywhere => simpa using fun hp => hlocal hp hsource
        | since q =>
            rw [Option.some.injEq, LiteralSource.since.injEq]
            exact ⟨fun heq => heq ▸ hsource, fun hp => hsource.unique hp⟩

end Runs

/-- Changes of which one is not to a number and is undone, before those which stay. -/
def interruptedChanges : List (Operation Exact) :=
  .changeBound (.atLeast 1 .nan) .branching :: .backtrackToGlobal :: interleavedChanges

/-- A literal that a decision repeats has held since the decision before it. -/
theorem repeated_literal_source :
    ∃ (model : Model Exact) (s : PropagationState Exact),
      twoColumns.build = .ok model ∧ model.BoundedByNumbers ∧
      Reachable (fun _ _ => True) model 1e-6 s ∧ s.domain.LogsNumbers ∧
      s.domain.literalSource (.atLeast 0 1) 4 = .ok (some (.since 0)) ∧
      s.domain.HoldsSince (.atLeast 0 1) 4 0 := by
  have hrun : passes twoColumns.build (fun model => passes (Domain.ofModel model 1e-6) fun d =>
      passes (interruptedChanges.foldlM (fun s op => op.perform s) ⟨.empty, d⟩) fun s =>
        s.domain.log.all (fun entry => !Scalar.isNaN entry.change.value) &&
          passes (s.domain.literalSource (.atLeast 0 1) 4) (· == some (.since 0)) &&
          model.columns.size == 2) = true := by
    decide +kernel
  obtain ⟨model, hmodel, hrun⟩ := passes_eq_true.mp hrun
  obtain ⟨d, hd, hrun⟩ := passes_eq_true.mp hrun
  obtain ⟨s, hs, hrun⟩ := passes_eq_true.mp hrun
  simp only [Bool.and_eq_true, beq_iff_eq, passes_eq_true, Array.all_eq_true_iff_forall_mem,
    Bool.not_eq_true'] at hrun
  obtain ⟨⟨hnumbers, o, ho, rfl⟩, hsize⟩ := hrun
  have hreach : Reachable (fun _ _ => True) model 1e-6 s :=
    (Reachable.start hd).performAll (fun _ _ _ => trivial) hs
  have hbounds := (Draft.readable_of_build hmodel).boundedByNumbers
  obtain ⟨found, hfound, -, -, hsince⟩ := literal_source_earliest hmodel hbounds hreach hnumbers
    (.atLeast 0 1) (by rw [hsize]; decide) 4
  obtain rfl := Except.ok.inj (ho.symm.trans hfound)
  exact ⟨model, s, hmodel, hbounds, hreach, hnumbers, ho, (hsince 0).mp rfl⟩

end BranchBound
