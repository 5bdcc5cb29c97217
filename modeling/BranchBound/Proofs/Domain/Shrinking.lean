import BranchBound.Proofs.Domain.Derivation
import BranchBound.Proofs.Domain.Growth
import BranchBound.Proofs.Domain.History
import BranchBound.Proofs.Model.Numbers

/-!
# Boxes that shrink

In a run in which every bound is a number, a change is only ever made to a box that is not empty,
and it makes no bound less tight. So in every state the bounds are at least as tight as those of the
model and as every change in the log, and the box is empty at most if the domain is infeasible. Over
exact numbers propagation never derives a bound that is not a number, so that it is enough if none
is brought in from outside.
-/

namespace BranchBound

open Checked

variable {α : Type} [Scalar α]

namespace Trail

variable {columnCount : Nat} {start t : Trail α}

omit [Scalar α] in
/-- Appending changes keeps the number of bounds. -/
theorem Built.bounds_size {allowed : Trail α → BoundChange α → Reason → Prop}
    (h : Built allowed start t) (side : Side) :
    (t.bounds side).size = (start.bounds side).size := by
  induction h with
  | start => rfl
  | @append t change reason previous h hprevious hallowed ih =>
      rw [← ih]
      by_cases hside : side = change.side
      · rw [hside, append_bounds, Array.size_setIfInBounds]
      · have hopposite : side = change.side.opposite := by
          cases hchange : change.side <;> cases side <;> simp_all [Side.opposite]
        rw [hopposite, append_bounds_opposite]

theorem values_eq {side : Side} {c : ColumnId} {b : Bound α} (h : (t.bounds side)[c]? = some b) :
    t.values side c = b.value := by
  rw [values, h, Option.elim_some]

/-- In a box that is not empty, no bound is beyond the opposite one. -/
theorem Ordered.tightOrEqual (h : t.Ordered columnCount) {c : ColumnId} (hc : c < columnCount)
    (side : Side) : side.tightOrEqual (t.values side.opposite c) (t.values side c) = true := by
  cases side <;> exact decide_eq_true (h c hc)

/-- Setting a bound of a box that is not empty leaves it not empty, as long as the bound is not
beyond the opposite one. -/
theorem Ordered.append (h : t.Ordered columnCount) {change : BoundChange α} {reason : Reason}
    {previous : Bound α} (hprevious : (t.bounds change.side)[change.column]? = some previous)
    (hinside : change.side.tightOrEqual (t.values change.side.opposite change.column) change.value =
      true) : (t.append change reason previous).Ordered columnCount := by
  intro c hc
  rw [values_append hprevious]
  by_cases hcolumn : c = change.column
  · subst hcolumn
    obtain ⟨c, side, value⟩ := change
    cases side with
    | lower =>
        rw [BoundValues.set_self, BoundValues.set_of_ne _ _ fun hset => by cases hset.1]
        exact of_decide_eq_true hinside
    | upper =>
        rw [BoundValues.set_self, BoundValues.set_of_ne _ _ fun hset => by cases hset.1]
        exact of_decide_eq_true hinside
  · rw [BoundValues.set_of_ne _ _ fun hset => hcolumn hset.2,
      BoundValues.set_of_ne _ _ fun hset => hcolumn hset.2]
    exact h c hc

/-- A trail without changes whose bounds are numbers, one for each column on either side. -/
structure Numeric (columnCount : Nat) (start : Trail α) : Prop where
  fresh : start.Fresh
  size : ∀ side, (start.bounds side).size = columnCount
  unset : ∀ (side : Side) (c : ColumnId) b, (start.bounds side)[c]? = some b → b.position = none
  number : ∀ side c, Scalar.isNaN (start.values side c) = false

end Trail

namespace Domain

variable {d d' : Domain α} {start : Trail α} {columnCount : Nat}

/-- No change on record set a bound to a value that is not a number. -/
def LogsNumbers (d : Domain α) : Prop :=
  ∀ entry ∈ d.log, Scalar.isNaN entry.change.value = false

theorem LogsNumbers.of_extends (h : d'.LogsNumbers) (hextends : d.log.toList <+: d'.log.toList) :
    d.LogsNumbers := fun entry hentry =>
  h entry (Array.mem_toList_iff.mp (hextends.subset (Array.mem_toList_iff.mpr hentry)))

/-- The trail of a domain came about by changes of boxes that were not empty, and the present box is
not empty either, unless the domain is infeasible. -/
structure Shrinking (start : Trail α) (columnCount : Nat) (d : Domain α) : Prop where
  built : Trail.Built (Trail.Shrinks columnCount) start d.trail
  ordered : d.infeasible = none → d.trail.Ordered columnCount

theorem Shrinking.still (h : d.Shrinking start columnCount) (hstill : Still d d') :
    d'.Shrinking start columnCount := by
  refine ⟨hstill.trail ▸ h.built, fun hfeasible => hstill.trail ▸ h.ordered ?_⟩
  rcases hstill.infeasible with hsame | ⟨hnone, -⟩
  · exact hsame ▸ hfeasible
  · exact hnone

theorem Shrinking.backtrackTo (h : d.Shrinking start columnCount) (hstart : start.Fresh)
    {position : Nat} (hback : d.backtrackTo position = .ok d') :
    d'.Shrinking start columnCount := by
  by_cases hlt : position < d.log.size
  · obtain ⟨htrail, -, -⟩ := backtrackTo_trail hback hlt
    refine ⟨htrail ▸ h.built.rewindTo hstart position, fun _ => htrail ▸ ?_⟩
    exact h.built.of_rewindTo hstart (fun _ _ _ hallowed => hallowed.ordered) hlt
  · rcases backtrackTo_eq_ok hback with ⟨-, rfl⟩ | ⟨hp, -⟩
    · exact h
    · exact absurd hp hlt

/-- A change that crosses the opposite bound makes the domain infeasible. -/
theorem applyChange_crossing {change : BoundChange α} {reason : Reason}
    (h : d.applyChange change reason true = .ok d') : d'.infeasible ≠ none := by
  obtain ⟨previous, -, hd'⟩ := applyChange_eq_ok h
  have hfound : (d.logged change reason previous true).infeasible ≠ none := by
    simp only [logged, if_true, setInfeasible]
    split
    · next hsome => simp [hsome]
    · simp
  rcases hd' with ⟨-, rfl⟩ | ⟨-, followed, hmoved, hmark⟩
  · exact hfound
  · have hfollows := (boundMoved_follows hmoved).trans (markMoved_follows _ hmark)
    rcases hfollows.latched with hsame | ⟨hnone, -⟩
    · rw [hsame]
      exact hfound
    · exact absurd hnone hfound

variable [Scalar.LinearlyOrdered α]

theorem Shrinking.shrunk (h : d.Shrinking start columnCount) (hstart : start.Numeric columnCount) :
    Trail.Shrunk start d.trail :=
  h.built.shrunk hstart.fresh hstart.number

/-- What a change accepts in a box that is not empty. -/
theorem Shrinking.tightens (h : d.Shrinking start columnCount) (hstart : start.Numeric columnCount)
    (hfeasible : d.infeasible = none) {change : BoundChange α}
    (hvalue : Scalar.isNaN change.value = false) (hc : change.column < columnCount) {accepted : α}
    {isBranching crossing : Bool}
    (haccepted : acceptedValue change.side d.feastol (d.values change.side change.column)
      (d.values change.side.opposite change.column) change.value isBranching =
        some (accepted, crossing)) :
    Tightens change.side (d.values change.side change.column)
      (d.values change.side.opposite change.column) isBranching accepted crossing := by
  have hshrunk := h.shrunk hstart
  rw [← trail_values] at haccepted ⊢
  exact acceptedValue_tightens (hshrunk.number _ _) (hshrunk.number _ _) hvalue
    ((h.ordered hfeasible).tightOrEqual hc change.side) haccepted

/-- A change to a number only makes the box smaller. -/
theorem Shrinking.changeBound (h : d.Shrinking start columnCount)
    (hstart : start.Numeric columnCount) {change : BoundChange α}
    (hvalue : Scalar.isNaN change.value = false) {reason : Reason}
    (hchange : d.changeBound change reason = .ok d') : d'.Shrinking start columnCount := by
  rcases changeBound_eq_ok hchange with ⟨-, rfl⟩ |
    ⟨hfeasible, current, opposite, hcurrent, hopposite, ⟨-, rfl⟩ |
      ⟨accepted, crossing, haccepted, happly⟩⟩
  · exact h
  · exact h
  rw [← values_eq hcurrent, ← values_eq hopposite] at haccepted
  have hc : change.column < columnCount := by
    rw [← hstart.size change.side, ← h.built.bounds_size, trail_bounds]
    exact (Array.getElem?_eq_some_iff.mp hcurrent).1
  have htightens := h.tightens hstart hfeasible hvalue hc haccepted
  rw [← trail_values] at htightens
  obtain ⟨previous, hprevious, hfollows⟩ := applyChange_trail happly
  have htrail : d'.trail = _ := hfollows.trail
  rw [withTrail_trail] at htrail
  rw [← trail_bounds] at hprevious
  refine ⟨?_, fun hfeasible' => ?_⟩
  · rw [htrail]
    exact h.built.append hprevious ⟨h.ordered hfeasible, htightens.tight,
      fun hreason => htightens.tighter (by simpa using hreason)⟩
  · have hinside : crossing = false := by
      by_contra hcrosses
      rw [Bool.not_eq_false] at hcrosses
      exact applyChange_crossing (hcrosses ▸ happly) hfeasible'
    rw [htrail]
    exact (h.ordered hfeasible).append hprevious (htightens.ordered hinside)

theorem Shrinking.grow (h : d.Shrinking start columnCount) (hstart : start.Numeric columnCount)
    (hnumbers : d'.LogsNumbers) (hgrow : Grow d d') : d'.Shrinking start columnCount := by
  cases hgrow with
  | keep hstill => exact h.still hstill
  | @change change reason hchange =>
      rcases changeBound_eq_ok hchange with ⟨-, rfl⟩ |
        ⟨-, current, opposite, -, -, ⟨-, rfl⟩ | ⟨accepted, crossing, haccepted, happly⟩⟩
      · exact h
      · exact h
      refine h.changeBound hstart (number_of_acceptedValue haccepted ?_) hchange
      obtain ⟨previous, -, hfollows⟩ := applyChange_trail happly
      refine hnumbers ⟨{ change with value := accepted }, reason, previous⟩ ?_
      rw [hfollows.log]
      exact Array.mem_push_self

theorem Shrinking.grows (h : d.Shrinking start columnCount) (hstart : start.Numeric columnCount)
    (hnumbers : d'.LogsNumbers) (hgrows : Grows d d') : d'.Shrinking start columnCount := by
  induction hgrows with
  | refl => exact h
  | tail _ hgrow ih => exact (ih (hnumbers.of_extends hgrow.log_extends)).grow hstart hnumbers hgrow

end Domain

/-- The bounds of the columns of a model are numbers. -/
def Model.BoundedByNumbers (m : Model α) : Prop :=
  ∀ (c : ColumnId) column, m.columns[c]? = some column →
    Scalar.isNaN column.lower = false ∧ Scalar.isNaN column.upper = false

/-- The bounds of the columns of a model are not beyond each other. -/
def Model.Ordered (m : Model α) : Prop :=
  ∀ (c : ColumnId) column, m.columns[c]? = some column → column.lower ≤ column.upper

namespace Trail

variable {model : Model α}

theorem ordered_ofModel (h : model.Ordered) :
    (Trail.ofModel model).Ordered model.columns.size := by
  intro c hc
  have hcolumn := Array.getElem?_eq_getElem hc
  have hordered := h c _ hcolumn
  simpa [Trail.values, Trail.bounds, Trail.ofModel, hcolumn] using hordered

theorem numeric_ofModel [Scalar.LinearlyOrdered α] (h : model.BoundedByNumbers) :
    (Trail.ofModel model).Numeric model.columns.size where
  fresh := fresh_ofModel model
  size := bounds_ofModel_size model
  unset := pristine_ofModel model
  number := fun side c => by
    cases hcolumn : model.columns[c]? with
    | none =>
        cases side <;>
          simp [Trail.values, Trail.bounds, Trail.ofModel, hcolumn,
            Scalar.LinearlyOrdered.number_zero]
    | some column =>
        obtain ⟨hlower, hupper⟩ := h c column hcolumn
        cases side with
        | lower => simpa [Trail.values, Trail.bounds, Trail.ofModel, hcolumn] using hlower
        | upper => simpa [Trail.values, Trail.bounds, Trail.ofModel, hcolumn] using hupper

end Trail

/-- The operation leads to a state in which only numbers are on record. -/
def Operation.LogsNumbers (s : PropagationState α) (op : Operation α) : Prop :=
  ∀ s', op.perform s = .ok s' → s'.domain.LogsNumbers

section Runs

variable {model : Model α} {feastol : α} {s : PropagationState α}
  {permitted : PropagationState α → Operation α → Prop}

/-- In every run the box only shrinks from one logged change to the next. -/
theorem Reachable.shrinking [Scalar.LinearlyOrdered α] (hnumbers : model.BoundedByNumbers)
    (hordered : model.Ordered) (h : Reachable Operation.LogsNumbers model feastol s) :
    s.domain.Shrinking (.ofModel model) model.columns.size := by
  have hstart := Trail.numeric_ofModel hnumbers
  induction h with
  | start hd =>
      have htrail := Domain.ofModel_trail hd
      exact ⟨htrail ▸ .start, fun _ => htrail ▸ Trail.ordered_ofModel hordered⟩
  | step _ hlogs hperform ih =>
      obtain ⟨cut, hcut, hgrows⟩ := Operation.grows hperform
      exact (ih.backtrackTo hstart.fresh hcut).grows hstart (hlogs _ hperform) hgrows

/-- A run in which every state has only numbers on record. -/
theorem Reachable.logging (h : Reachable permitted model feastol s)
    (hlogs : ∀ t, Reachable permitted model feastol t → t.domain.LogsNumbers) :
    Reachable Operation.LogsNumbers model feastol s := by
  induction h with
  | start hd => exact .start hd
  | step hbefore hpermitted hperform ih =>
      refine .step ih (fun t ht => ?_) hperform
      exact hlogs t (.step hbefore hpermitted ht)

/-- The changes on record have a property if it comes with the value that is accepted of every
change which operations make or propagation derives. -/
theorem Reachable.onRecord {T : Tracking α} (hT : T.Derives model)
    (hpermitted : ∀ s op, permitted s op → op.Brings T) (hmodel : model.WellFormed)
    (hread : Domain.Readable T model) {Q P : BoundChange α → Reason → Prop}
    (hgiven : ∀ t op, permitted t op → ∀ y ∈ op.changes, Q y.1 y.2)
    (hderived : ∀ (d : Domain α) change reason, d.Settled T → d.KnowsAdmissible T →
      d.model = model → d.feastol = feastol → d.Derived change reason → Q change reason)
    (haccept : ∀ (d : Domain α) (change : BoundChange α) reason accepted crossing,
      d.Settled T → d.feastol = feastol → T.value change.value → Q change reason →
      Domain.acceptedValue change.side d.feastol (d.values change.side change.column)
        (d.values change.side.opposite change.column) change.value (reason == .branching) =
          some (accepted, crossing) → P { change with value := accepted } reason)
    (h : Reachable permitted model feastol s) :
    ∀ entry ∈ s.domain.log, P entry.change entry.reason := by
  let Logged : Domain α → Prop := fun d => ∀ entry ∈ d.log, P entry.change entry.reason
  have hstill {d d' : Domain α} (hd : Logged d) (htrail : d'.trail = d.trail) : Logged d' := by
    have hlog : d'.log = d.log := congrArg Trail.log htrail
    intro entry hentry
    exact hd entry (hlog ▸ hentry)
  have hchanged {d d' : Domain α} (hd : Logged d) (hsettled : d.Settled T)
      (hfeastol : d.feastol = feastol) {change : BoundChange α} {reason : Reason}
      (hvalue : T.value change.value) (hQ : Q change reason)
      (hchange : d.changeBound change reason = .ok d') : Logged d' := by
    rcases (Domain.changeBound_settled hsettled hvalue hchange).2 with
      rfl | ⟨-, accepted, crossing, haccepted, hdone⟩
    · exact hd
    · obtain ⟨previous, -, htrail⟩ := hdone.trail
      have hlog : d'.log = d.log.push _ := congrArg Trail.log htrail
      intro entry hentry
      rw [hlog, Array.mem_push] at hentry
      rcases hentry with hentry | rfl
      · exact hd entry hentry
      · exact haccept d change reason accepted crossing hsettled hfeastol hvalue hQ haccepted
  refine h.settled_induction hT hpermitted hmodel hread (P := fun s => Logged s.domain)
    (fun d hd => ?_) (fun op s s' hop hsettled hsame hfeastol hs hstage => ?_)
    (fun op s s' _ _ _ _ hs hmoves hperform => hstill hs (Operation.still hmoves hperform).trail)
  · intro entry hentry
    rw [(Domain.ofModel_record hd).1] at hentry
    simp at hentry
  · cases hstage with
    | change x hx hchange =>
        obtain ⟨t, hop⟩ := hop
        exact hchanged hs hsettled.domain hfeastol ((hpermitted t op hop).change x hx)
          (hgiven t op hop x hx) hchange
    | @back pools d d' position hback =>
        by_cases hlt : position < d.log.size
        · obtain ⟨htrail, -, -⟩ := Domain.backtrackTo_trail hback hlt
          have hlog : d'.log = d.log.take position := by
            rw [← Domain.trail_log d', htrail, Trail.rewindTo_log, Domain.trail_log]
          intro entry hentry
          rw [hlog] at hentry
          refine hs entry (Array.mem_toList_iff.mp ?_)
          exact List.mem_of_mem_take (by simpa using Array.mem_toList_iff.mpr hentry)
        · rcases Domain.backtrackTo_eq_ok hback with ⟨-, rfl⟩ | ⟨hp, -⟩
          · exact hs
          · exact absurd hp hlt
    | advance _ hadvance =>
        cases hadvance with
        | requeue hrequeued => exact hstill hs hrequeued.trail
        | refresh hrefresh =>
            rw [Domain.refreshActivity_eq_ok hrefresh]
            exact hstill hs rfl
        | readCuts _ _ _ | readConflicts _ _ _ => exact hstill hs rfl
        | refute _ => exact hstill hs (Domain.markInfeasible_still ..).trail
        | renew _ => exact hs
        | @change pools d d' changes hall hchanges =>
            have hvalues : ∀ x ∈ changes, T.value x.1.value := fun x hx =>
              hT d x.1 x.2 hsettled.domain hsettled.literals hsame (hall x hx)
            refine (Domain.changeBounds_keeps (P := fun e => e.Settled T ∧ e.feastol = feastol ∧
              Logged e) (fun e e' x hx he hchange => ?_) hchanges
              ⟨hsettled.domain, hfeastol, hs⟩).2.2
            obtain ⟨hsettled', hfeastol', hlogged⟩ := he
            exact ⟨(Domain.changeBound_settled hsettled' (hvalues x hx) hchange).1,
              (Domain.changeBound_sameSetting hchange).feastol.trans hfeastol',
              hchanged hlogged hsettled' hfeastol' (hvalues x hx)
                (hderived d x.1 x.2 hsettled.domain hsettled.literals hsame hfeastol (hall x hx))
                  hchange⟩

/-- The values of the changes on record may be bounds if those which operations bring may be. -/
theorem Reachable.logged {T : Tracking α} (hT : T.Derives model)
    (hpermitted : ∀ s op, permitted s op → op.Brings T) (hmodel : model.WellFormed)
    (hread : Domain.Readable T model) (h : Reachable permitted model feastol s) :
    ∀ entry ∈ s.domain.log, T.value entry.change.value :=
  h.onRecord hT hpermitted hmodel hread (Q := fun change _ => T.value change.value)
    (P := fun change _ => T.value change.value)
    (fun t op hop => (hpermitted t op hop).change)
    (fun d change reason hsettled hliterals hsame _ hderived =>
      hT d change reason hsettled hliterals hsame hderived)
    fun _ _ _ _ _ hsettled _ hvalue _ haccepted => hsettled.acceptedValue_value hvalue haccepted

end Runs

section Exact

open Exact

variable {model : Model Exact} {feastol : Exact} {s : PropagationState Exact}
  {permitted : PropagationState Exact → Operation Exact → Prop}

theorem Domain.Readable.boundedByNumbers (h : Domain.Readable (.exact .any) model) :
    model.BoundedByNumbers := fun c column hcolumn =>
  ⟨isNaN_eq_false.mpr (h.bounds c column hcolumn).1, isNaN_eq_false.mpr
    (h.bounds c column hcolumn).2⟩

/-- Over exact numbers only numbers are ever on record, if operations bring no others. -/
theorem Reachable.logging_of_brings (hpermitted : ∀ s op, permitted s op → op.Brings (.exact .any))
    (hmodel : model.WellFormed) (hread : Domain.Readable (.exact .any) model)
    (h : Reachable permitted model feastol s) : Reachable Operation.LogsNumbers model feastol s :=
  h.logging fun _ ht entry hentry =>
    isNaN_eq_false.mpr (ht.logged (derives_any model) hpermitted hmodel hread entry hentry)

end Exact

end BranchBound
