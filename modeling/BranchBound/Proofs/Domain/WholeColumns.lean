import BranchBound.Proofs.Domain.PooledLiterals
import BranchBound.Proofs.Domain.Shrinking

/-!
# Whole bounds of integer columns

The integer columns of a model have whole bounds. If whatever is done to a domain from outside sets
the bounds of these columns to whole numbers, then in exact arithmetic propagation does so as well:
it rounds what it derives for an integer column. So the box of the integer columns is a box of whole
numbers at every moment, and it only ever becomes narrower. Nothing is assumed of the other columns.
-/

namespace BranchBound

open Checked Exact

namespace Model

/-- The column is one of the integer columns. -/
def IsIntegerColumn (m : Model Exact) (c : ColumnId) : Prop :=
  ∃ column, m.columns[c]? = some column ∧ column.kind = .integer

theorem mem_integerColumns {m : Model Exact} {c : ColumnId} :
    c ∈ m.integerColumns ↔ m.IsIntegerColumn c := by
  simp only [integerColumns, columnIds, List.mem_filter, List.mem_range, Option.any_eq_true,
    beq_iff_eq]
  constructor
  · exact fun h => h.2
  · rintro ⟨column, hcolumn, hkind⟩
    exact ⟨(Array.getElem?_eq_some_iff.mp hcolumn).1, column, hcolumn, hkind⟩

/-- The integer columns have finite bounds. -/
def FiniteOnIntegers (m : Model Exact) : Prop :=
  ∀ (c : ColumnId) column, m.columns[c]? = some column → column.kind = .integer →
    Scalar.isFinite column.lower = true ∧ Scalar.isFinite column.upper = true

/-- The bounds of the integer columns are whole numbers, and not beyond each other. -/
def Boxed (m : Model Exact) : Prop :=
  ∀ (c : ColumnId) column, m.columns[c]? = some column → column.kind = .integer →
    ∃ k l : ℤ, column.lower = number k ∧ column.upper = number l ∧ k ≤ l

end Model

namespace Exact

/-- A whole number that is finite is a whole number. -/
theorem IsWhole.exists_int {x : Exact} (h : IsWhole x) (hfinite : ∃ q, x = number q) :
    ∃ z : ℤ, x = number z := by
  obtain ⟨q, rfl⟩ := hfinite
  rcases h with h | h | h
  · cases h
  · cases h
  · exact h

theorem IsWhole.not_nan {x : Exact} (h : IsWhole x) : x ≠ nan := Range.whole.not_nan x h

end Exact

/-- Building a model rounds the bounds of the integer columns and refuses empty boxes. -/
theorem Draft.boxed_of_build {d : Draft Exact} {m : Model Exact} (h : d.build = .ok m)
    (hfinite : m.FiniteOnIntegers) : m.Boxed := by
  intro c column hcolumn hkind
  have hchecked := checkedColumn_of_build h hcolumn
  obtain ⟨hlower, hupper⟩ := hfinite c column hcolumn hkind
  obtain ⟨hwholeLower, hwholeUpper⟩ := hchecked.whole hkind
  obtain ⟨k, hk⟩ := hwholeLower.exists_int (isFinite_iff.mp hlower)
  obtain ⟨l, hl⟩ := hwholeUpper.exists_int (isFinite_iff.mp hupper)
  refine ⟨k, l, hk, hl, ?_⟩
  have hordered := hchecked.ordered
  rw [hk, hl, number_le] at hordered
  exact_mod_cast hordered

namespace BoundChange

/-- The change sets a bound to a whole number or an infinity if it is one of an integer column. -/
def Whole (m : Model Exact) (x : BoundChange Exact) : Prop :=
  m.IsIntegerColumn x.column → IsWhole x.value

/-- The value is a number if the column is an integer column. -/
def Numeric (m : Model Exact) (x : BoundChange Exact) : Prop :=
  m.IsIntegerColumn x.column → x.value ≠ nan

theorem Whole.numeric {m : Model Exact} {x : BoundChange Exact} (h : x.Whole m) : x.Numeric m :=
  fun hc => (h hc).not_nan

end BoundChange

/-- The operation sets bounds of integer columns to whole numbers only, and adds no conflict with a
literal on an integer column that is not a number. -/
def Operation.Whole (m : Model Exact) (op : Operation Exact) : Prop :=
  (∀ x ∈ op.changes, x.1.Whole m) ∧
    ∀ pool literals, op = .addConflict pool literals → ∀ l ∈ literals, l.Numeric m

namespace Trail

variable {m : Model Exact} {t : Trail Exact}

/-- The box is not empty in the integer columns. -/
def OrderedOn (m : Model Exact) (t : Trail Exact) : Prop :=
  ∀ c, m.IsIntegerColumn c → t.values .lower c ≤ t.values .upper c

/-- In a box that is not empty in the integer columns, a bound was set: if it is one of these
columns, to a whole number that is at least as tight. -/
structure Narrows (m : Model Exact) (t : Trail Exact) (change : BoundChange Exact)
    (reason : Reason) : Prop where
  ordered : t.OrderedOn m
  whole : change.Whole m
  tight : m.IsIntegerColumn change.column →
    change.side.tightOrEqual change.value (t.values change.side change.column) = true

/-- The trail came about from the bounds of the model by narrowing the box of its integer
columns. -/
abbrev Narrowed (m : Model Exact) : Trail Exact → Prop := Built (Narrows m) (ofModel m)

theorem OrderedOn.tightOrEqual (h : t.OrderedOn m) {c : ColumnId} (hc : m.IsIntegerColumn c)
    (side : Side) : side.tightOrEqual (t.values side.opposite c) (t.values side c) = true := by
  cases side <;> exact decide_eq_true (h c hc)

theorem ofModel_values (m : Model Exact) {c : ColumnId} {column : Column Exact}
    (hcolumn : m.columns[c]? = some column) (side : Side) :
    (ofModel m).values side c = match side with
      | .lower => column.lower
      | .upper => column.upper := by
  cases side <;> simp [values, bounds, ofModel, hcolumn]

/-- The bounds of the integer columns are whole numbers at first. -/
theorem whole_ofModel (hm : m.Boxed) {c : ColumnId} (hc : m.IsIntegerColumn c) (side : Side) :
    IsWhole ((ofModel m).values side c) := by
  obtain ⟨column, hcolumn, hkind⟩ := hc
  obtain ⟨k, l, hlower, hupper, -⟩ := hm c column hcolumn hkind
  rw [ofModel_values m hcolumn]
  cases side with
  | lower => exact .inr (.inr ⟨k, hlower⟩)
  | upper => exact .inr (.inr ⟨l, hupper⟩)

theorem orderedOn_ofModel (hm : m.Boxed) : (ofModel m).OrderedOn m := by
  rintro c ⟨column, hcolumn, hkind⟩
  obtain ⟨k, l, hlower, hupper, hkl⟩ := hm c column hcolumn hkind
  rw [ofModel_values m hcolumn, ofModel_values m hcolumn]
  simpa only [hlower, hupper, number_le] using Int.cast_le.mpr hkl

namespace Narrowed

theorem whole (h : Narrowed m t) (hm : m.Boxed) {c : ColumnId} (hc : m.IsIntegerColumn c)
    (side : Side) : IsWhole (t.values side c) := by
  induction h with
  | start => exact whole_ofModel hm hc side
  | @append t change reason previous _ hprevious hallowed ih =>
      rw [values_append hprevious]
      by_cases hset : side = change.side ∧ c = change.column
      · obtain ⟨rfl, rfl⟩ := hset
        rw [BoundValues.set_self]
        exact hallowed.whole hc
      · rw [BoundValues.set_of_ne _ _ hset]
        exact ih

/-- No bound of an integer column is less tight than at first. -/
theorem within (h : Narrowed m t) (hm : m.Boxed) {c : ColumnId} (hc : m.IsIntegerColumn c)
    (side : Side) : side.tightOrEqual (t.values side c) ((ofModel m).values side c) = true := by
  induction h with
  | start =>
      exact Side.tightOrEqual_refl side (isNaN_eq_false.mpr (whole_ofModel hm hc side).not_nan)
  | @append t change reason previous _ hprevious hallowed ih =>
      rw [values_append hprevious]
      by_cases hset : side = change.side ∧ c = change.column
      · obtain ⟨rfl, rfl⟩ := hset
        rw [BoundValues.set_self]
        exact Side.tightOrEqual_trans (hallowed.tight hc) ih
      · rw [BoundValues.set_of_ne _ _ hset]
        exact ih

/-- The bounds of the integer columns are finite as long as the box is not empty. -/
theorem exists_int (h : Narrowed m t) (hm : m.Boxed) (hordered : t.OrderedOn m) {c : ColumnId}
    (hc : m.IsIntegerColumn c) :
    ∃ k l : ℤ, t.values .lower c = number k ∧ t.values .upper c = number l ∧ k ≤ l := by
  have hlower : (ofModel m).values .lower c ≤ t.values .lower c :=
    of_decide_eq_true (h.within hm hc .lower)
  have hupper : t.values .upper c ≤ (ofModel m).values .upper c :=
    of_decide_eq_true (h.within hm hc .upper)
  obtain ⟨column, hcolumn, hkind⟩ := id hc
  obtain ⟨a, b, ha, hb, -⟩ := hm c column hcolumn hkind
  rw [ofModel_values m hcolumn, ha] at hlower
  rw [ofModel_values m hcolumn, hb] at hupper
  have hbox := hordered c hc
  obtain ⟨k, hk⟩ := (h.whole hm hc .lower).exists_int
    (exists_number_of_between hlower (Exact.le_trans hbox hupper))
  obtain ⟨l, hl⟩ := (h.whole hm hc .upper).exists_int
    (exists_number_of_between (Exact.le_trans hlower hbox) hupper)
  refine ⟨k, l, hk, hl, ?_⟩
  rw [hk, hl, number_le] at hbox
  exact_mod_cast hbox

end Narrowed

end Trail

namespace Domain

variable {m : Model Exact} {d d' : Domain Exact}

/-- The trail of the domain came about by narrowing the box of the integer columns, and this box is
not empty unless the domain is infeasible. -/
structure Narrow (m : Model Exact) (d : Domain Exact) : Prop where
  model : d.model = m
  built : Trail.Narrowed m d.trail
  ordered : d.infeasible = none → d.trail.OrderedOn m

theorem Narrow.still (h : d.Narrow m) (hstill : Still d d') : d'.Narrow m := by
  refine ⟨hstill.model.trans h.model, hstill.trail ▸ h.built,
    fun hfeasible => hstill.trail ▸ h.ordered ?_⟩
  rcases hstill.infeasible with hsame | ⟨hnone, -⟩
  · exact hsame ▸ hfeasible
  · exact hnone

theorem Narrow.backtrackTo (h : d.Narrow m) {position : Nat}
    (hback : d.backtrackTo position = .ok d') : d'.Narrow m := by
  have hstart := Trail.fresh_ofModel m
  by_cases hlt : position < d.log.size
  · obtain ⟨htrail, -, hsetting⟩ := backtrackTo_trail hback hlt
    refine ⟨hsetting.model.trans h.model, htrail ▸ h.built.rewindTo hstart position,
      fun _ => htrail ▸ ?_⟩
    exact h.built.of_rewindTo hstart (fun _ _ _ hallowed => hallowed.ordered) hlt
  · rcases backtrackTo_eq_ok hback with ⟨-, rfl⟩ | ⟨hp, -⟩
    · exact h
    · exact absurd hp hlt

/-- A change of a bound of an integer column to a whole number only makes the box narrower. -/
theorem Narrow.changeBound (h : d.Narrow m) (hm : m.Boxed) {change : BoundChange Exact}
    (hvalue : change.Whole m) {reason : Reason} (hchange : d.changeBound change reason = .ok d') :
    d'.Narrow m := by
  rcases changeBound_eq_ok hchange with ⟨-, rfl⟩ |
    ⟨hfeasible, current, opposite, hcurrent, hopposite, ⟨-, rfl⟩ |
      ⟨accepted, crossing, haccepted, happly⟩⟩
  · exact h
  · exact h
  rw [← values_eq hcurrent, ← values_eq hopposite, ← trail_values] at haccepted
  have hordered := h.ordered hfeasible
  have htightens (hc : m.IsIntegerColumn change.column) := acceptedValue_tightens
    (isNaN_eq_false.mpr (h.built.whole hm hc change.side).not_nan)
    (isNaN_eq_false.mpr (h.built.whole hm hc change.side.opposite).not_nan)
    (isNaN_eq_false.mpr (hvalue hc).not_nan) (hordered.tightOrEqual hc change.side) haccepted
  have hwhole : BoundChange.Whole m { change with value := accepted } := by
    intro hc
    change IsWhole accepted
    rcases acceptedValue_mem haccepted with rfl | rfl | rfl
    · exact hvalue hc
    · exact h.built.whole hm hc _
    · exact h.built.whole hm hc _
  obtain ⟨previous, hprevious, hfollows⟩ := applyChange_trail happly
  have htrail : d'.trail = _ := hfollows.trail
  rw [withTrail_trail] at htrail
  rw [← trail_bounds] at hprevious
  refine ⟨(changeBound_sameSetting hchange).model.trans h.model, ?_, fun hfeasible' c hc => ?_⟩
  · rw [htrail]
    exact h.built.append hprevious ⟨hordered, hwhole, fun hc => (htightens hc).tight⟩
  · have hinside : crossing = false := by
      by_contra hcrosses
      rw [Bool.not_eq_false] at hcrosses
      exact applyChange_crossing (hcrosses ▸ happly) hfeasible'
    rw [htrail, Trail.values_append hprevious]
    by_cases hcolumn : c = change.column
    · subst hcolumn
      have hinside := (htightens hc).ordered hinside
      obtain ⟨c, side, value⟩ := change
      cases side with
      | lower =>
          rw [BoundValues.set_self, BoundValues.set_of_ne _ _ fun hset => by cases hset.1]
          exact of_decide_eq_true hinside
      | upper =>
          rw [BoundValues.set_self, BoundValues.set_of_ne _ _ fun hset => by cases hset.1]
          exact of_decide_eq_true hinside
    · rw [BoundValues.set_of_ne _ _ fun hset => hcolumn hset.2,
        BoundValues.set_of_ne _ _ fun hset => hcolumn hset.2]
      exact hordered c hc

section Derived

/-- What is derived for an integer column is rounded. -/
theorem acceptedBound_rounded {side : Side} {c : ColumnId} {bound : CompensatedSum Exact}
    {change : BoundChange Exact} (h : d.acceptedBound side c bound = .ok (some change)) :
    change.Whole d.model := by
  intro hinteger
  have hnumber := isNaN_eq_false.mp (acceptedBound_number h)
  simp only [acceptedBound, bind_eq_ok, pure_eq_ok] at h
  obtain ⟨upper, -, lower, -, column, hcolumn, h⟩ := h
  obtain ⟨v, hv, rfl⟩ := Option.map_eq_some_iff.mp h
  obtain ⟨column', hcolumn', hkind⟩ := hinteger
  obtain rfl : column = column' := Option.some.inj ((fetch_eq_ok.mp hcolumn).symm.trans hcolumn')
  have hrounded {x : Exact} (hx : v = Scalar.floor x ∨ v = Scalar.ceil x) : IsWhole v := by
    have hnan : x ≠ nan := by
      rintro rfl
      rcases hx with hx | hx <;> exact hnumber hx
    rcases hx with rfl | rfl
    · exact Draft.isWhole_floor hnan
    · exact Draft.isWhole_ceil hnan
  cases side with
  | lower =>
      simp only [acceptedLower, hkind] at hv
      split at hv
      · exact hrounded (.inr (Option.some.inj hv).symm)
      · cases hv
  | upper =>
      simp only [acceptedUpper, hkind] at hv
      split at hv
      · exact hrounded (.inl (Option.some.inj hv).symm)
      · cases hv

theorem impliedChange_rounded {rhs : Exact} {min : PartialSum Exact} {entry : ColumnId × Exact}
    {change : BoundChange Exact} (h : d.impliedChange rhs min entry = .ok (some change)) :
    change.Whole d.model := by
  simp only [impliedChange, bind_eq_ok] at h
  obtain ⟨b, -, h⟩ := h
  split at h
  · cases h
  · exact acceptedBound_rounded h

/-- The negation of a literal on an integer column is rounded. -/
theorem flip_rounded {literal change : BoundChange Exact} (hliteral : literal.Numeric d.model)
    (h : d.flip literal = .ok change) : change.Whole d.model := by
  intro hinteger
  simp only [flip, Model.isInteger, Model.column, bind_eq_ok, pure_eq_ok, fetch_eq_ok] at h
  obtain ⟨_, ⟨column, hcolumn, rfl⟩, rfl⟩ := h
  have hsame : d.model.IsIntegerColumn literal.column := by
    cases hside : literal.side <;>
      simpa [hside, BoundChange.atMost, BoundChange.atLeast] using hinteger
  obtain ⟨column', hcolumn', hkind⟩ := id hsame
  obtain rfl : column = column' := Option.some.inj (hcolumn.symm.trans hcolumn')
  have hnumber := hliteral hsame
  cases literal.side with
  | lower =>
      simp only [hkind, beq_self_eq_true, if_true]
      exact Draft.isWhole_floor (sub_number_not_nan hnumber _)
  | upper =>
      simp only [hkind, beq_self_eq_true, if_true]
      exact Draft.isWhole_ceil (add_number_not_nan hnumber _)

/-- Propagation derives only whole bounds for integer columns. -/
theorem Derived.whole {change : BoundChange Exact} {reason : Reason} (h : d.Derived change reason)
    (hliterals : d.LiteralsAre (BoundChange.Numeric d.model)) : change.Whole d.model := by
  cases h with
  | implication _ _ _ _ haccepted => exact acceptedBound_rounded haccepted
  | rowUpper _ _ _ _ hchange => exact impliedChange_rounded hchange
  | rowLower _ _ _ _ hchange => exact impliedChange_rounded hchange
  | cut _ _ _ hchange => exact impliedChange_rounded hchange
  | objective _ _ _ hchange => exact impliedChange_rounded hchange
  | conflict hpool hknown hinactive hchange =>
      exact flip_rounded (hliterals _ _ _ _ hpool hknown _
        (mem_keepIf hinactive (List.mem_singleton_self _)).1) hchange
  | partition _ _ _ _ hchange =>
      intro _
      rcases partitionChanges_value hchange with hvalue | hvalue
      · exact .inr (.inr ⟨0, by simp [hvalue]⟩)
      · exact .inr (.inr ⟨1, by simp [hvalue]⟩)

end Derived

end Domain

/-- The box of the integer columns is one of whole numbers and only became narrower, and no literal
of a conflict on such a column is not a number. -/
structure PropagationState.Narrow (m : Model Exact) (s : PropagationState Exact) : Prop where
  domain : s.domain.Narrow m
  literals : s.LiteralsAre (BoundChange.Numeric m)

section Runs

variable {m : Model Exact} {s s' : PropagationState Exact} {op : Operation Exact}

theorem Advance.narrow (hadvance : Advance s s') (hm : m.Boxed) (h : s.Narrow m) :
    s'.Narrow m := by
  refine ⟨?_, hadvance.literalsAre h.literals⟩
  have hstill (hstill : s.domain.Still s'.domain) := h.domain.still hstill
  have hsetting := hadvance.setting
  cases hadvance with
  | requeue hrequeued =>
      exact hstill ⟨hrequeued.trail, hsetting.model, hsetting.feastol, .inl hrequeued.infeasible⟩
  | refresh hrefresh =>
      rw [Domain.refreshActivity_eq_ok hrefresh] at hstill ⊢
      exact hstill ⟨rfl, rfl, rfl, .inl rfl⟩
  | readCuts _ _ _ => exact hstill ⟨rfl, rfl, rfl, .inl rfl⟩
  | readConflicts _ _ _ => exact hstill ⟨rfl, rfl, rfl, .inl rfl⟩
  | change changes hderived hchanges =>
      have hliterals := h.literals.domain
      rw [← h.domain.model] at hliterals
      have hwhole (x) (hx : x ∈ changes) : x.1.Whole m :=
        h.domain.model ▸ (hderived x hx).whole hliterals
      exact Domain.changeBounds_keeps
        (fun _ _ x hx hd hchange => hd.changeBound hm (hwhole x hx) hchange) hchanges h.domain
  | refute _ => exact hstill (Domain.markInfeasible_still ..)
  | renew _ => exact h.domain

theorem Operation.Stage.narrow (hstage : op.Stage s s') (hm : m.Boxed) (hop : op.Whole m)
    (h : s.Narrow m) : s'.Narrow m := by
  refine ⟨?_, hstage.literalsAre h.literals⟩
  cases hstage with
  | change x hx hchange => exact h.domain.changeBound hm (hop.1 x hx) hchange
  | back hback => exact h.domain.backtrackTo hback
  | advance _ hadvance => exact (hadvance.narrow hm h).domain

/-- An operation that brings only whole bounds leaves the box of the integer columns one of whole
numbers. -/
theorem Operation.narrow (hperform : op.perform s = .ok s') (hm : m.Boxed) (hop : op.Whole m)
    (h : s.Narrow m) : s'.Narrow m := by
  refine ⟨?_, Operation.literalsAre h.literals hop.2 hperform⟩
  cases hmoves : op.movesBounds with
  | false => exact h.domain.still (Operation.still hmoves hperform)
  | true =>
      have hall : ∀ t, Relation.ReflTransGen op.Stage s t → t.Narrow m := by
        intro t ht
        induction ht with
        | refl => exact h
        | tail _ hstage ih => exact hstage.narrow hm hop ih
      exact (hall s' (Operation.stages hmoves hperform)).domain

/-- In every run in which operations bring only whole bounds of integer columns, the box of these
columns is one of whole numbers. -/
theorem Reachable.narrow {feastol : Exact} (hm : m.Boxed)
    (h : Reachable (fun _ op => op.Whole m) m feastol s) : s.Narrow m := by
  have hliterals : s.LiteralsAre (BoundChange.Numeric m) :=
    h.literalsAre fun _ pool literals hop => hop.2 pool literals rfl
  induction h with
  | start hd =>
      have htrail := Domain.ofModel_trail hd
      have hstart : Reachable (fun _ _ => True) _ _ _ := .start hd
      have hmodel := hstart.constant.1
      exact ⟨⟨hmodel, htrail ▸ .start, fun _ => htrail ▸ Trail.orderedOn_ofModel hm⟩, hliterals⟩
  | step hbefore hop hperform ih =>
      exact Operation.narrow hperform hm hop
        (ih (hbefore.literalsAre fun _ pool literals hop => hop.2 pool literals rfl))

end Runs

end BranchBound
