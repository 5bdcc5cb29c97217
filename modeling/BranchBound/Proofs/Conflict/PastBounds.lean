import BranchBound.Conflict.Explanation
import BranchBound.Proofs.Assignment
import BranchBound.Proofs.Domain.BoundLog
import BranchBound.Proofs.Domain.Resumption
import BranchBound.Proofs.Domain.SoundRuns

/-!
# Bounds of the past

Following the links of the log backwards gives the bound which was in force at an earlier length. At
a point of the global box such a bound holds if it was set in the global part of the log, and
otherwise if the change that set it does. So what is said of a past box can be said of the changes
at some positions. What a point is does not matter here, only which changes of bounds hold at it.
-/

namespace BranchBound

open Checked

variable {α : Type}

namespace Domain

variable [Scalar α] {d : Domain α} {R : Reading α}

/-- The local changes at some positions of the log hold. -/
def Meets (d : Domain α) (positions : List Nat) (R : Reading α) : Prop :=
  ∀ p ∈ positions, d.globalLength ≤ p → ∀ entry, d.log[p]? = some entry → R.Holds entry.change

theorem Meets.append {positions positions' : List Nat} :
    d.Meets (positions ++ positions') R ↔ d.Meets positions R ∧ d.Meets positions' R := by
  simp only [Meets, List.mem_append, or_imp, forall_and]

theorem Meets.subset {positions positions' : List Nat} (h : d.Meets positions R)
    (hsubset : ∀ p ∈ positions', p ∈ positions) : d.Meets positions' R :=
  fun p hp => h p (hsubset p hp)

/-- A bound of a column was in force at a length of the log. -/
abbrev InForce (d : Domain α) (side : Side) (c : ColumnId) (length : Nat) (b : Bound α) : Prop :=
  Trail.InForce (.ofModel d.model) d.log side c length b

/-- The bounds when the log had a given length. -/
def valuesBefore (d : Domain α) (length : Nat) : BoundValues α :=
  (d.trail.rewindTo length).values

theorem valuesBefore_size (h : d.trail.DecisionsLogged) : d.valuesBefore d.log.size = d.values := by
  rw [valuesBefore, ← trail_log, Trail.rewindTo_size _ h, trail_values]

omit [Scalar α] in
theorem mem_logBefore {p limit : Nat} {entry : LogEntry α} (hentry : d.log[p]? = some entry)
    (hp : p < limit) : entry ∈ (d.trail.rewindTo limit).log := by
  rw [Trail.rewindTo_log, ← Array.mem_toList_iff]
  have htoList : (d.trail.log.take limit).toList = d.trail.log.toList.take limit := by simp
  rw [htoList, List.mem_iff_getElem?]
  refine ⟨p, ?_⟩
  rw [List.getElem?_take_of_lt hp, Array.getElem?_toList]
  exact hentry

/-- The log of a domain tells exactly how its box came about from that of the model. -/
structure Traced (d : Domain α) : Prop where
  shrinking : d.Shrinking (.ofModel d.model) d.model.columns.size
  numeric : (Trail.ofModel d.model).Numeric d.model.columns.size

theorem Sound.traced {a : Anchor} {f : ℚ} {d : Domain Exact} (h : d.Sound a f) : d.Traced :=
  ⟨h.shrinking, h.numeric⟩

namespace Traced

variable (h : d.Traced)

include h

theorem linked : Trail.Linked (.ofModel d.model) d.trail :=
  h.shrinking.built.linked (Trail.fresh_ofModel d.model)

theorem bounds_size (side : Side) :
    ((Trail.ofModel d.model).bounds side).size = d.model.columns.size :=
  h.numeric.size side

theorem decisionsLogged : d.trail.DecisionsLogged :=
  h.shrinking.built.decisionsLogged h.numeric.fresh

/-- Only bounds of columns of the model are changed. -/
theorem column_lt {p : Nat} {entry : LogEntry α} (hentry : d.log[p]? = some entry) :
    entry.change.column < d.model.columns.size := by
  rw [← h.bounds_size entry.change.side]
  have hset : ∀ b, d.InForce entry.change.side entry.change.column p b →
      entry.change.column < ((Trail.ofModel d.model).bounds entry.change.side).size := by
    induction p using Nat.strong_induction_on generalizing entry with
    | _ p ih =>
        intro b hb
        cases hb with
        | start hb _ => exact (Array.getElem?_eq_some_iff.mp hb).1
        | @set q earlier hq hearlier hsets _ =>
            obtain ⟨hside, hcolumn⟩ := hsets
            rw [← hside, ← hcolumn]
            exact ih q hq hearlier _ (h.linked.previous q earlier hearlier)
  exact hset _ (h.linked.previous p entry hentry)

theorem inForce_current (side : Side) {c : ColumnId} (hc : c < d.model.columns.size) :
    ∃ b, (d.bounds side)[c]? = some b ∧ d.InForce side c d.log.size b := by
  obtain ⟨b, hb, hforce⟩ := h.linked.current side c (h.bounds_size side ▸ hc)
  rw [trail_bounds] at hb
  exact ⟨b, hb, hforce⟩

theorem boundBefore_returns {side : Side} {c : ColumnId} {limit : Nat}
    (hc : c < d.model.columns.size) :
    Returns (d.boundBefore side c limit) (d.InForce side c limit) :=
  boundBefore_inForce h.linked.chained h.numeric.unset (h.bounds_size side ▸ hc) limit

theorem valuesBefore_eq {side : Side} {c : ColumnId} {limit : Nat} {b : Bound α}
    (hc : c < d.model.columns.size) (hb : d.InForce side c limit b) :
    d.valuesBefore limit side c = b.value := by
  have hsize : c < ((Trail.ofModel d.model).bounds side).size := by
    rw [h.bounds_size side]
    exact hc
  obtain ⟨b', hb', hforce⟩ :=
    h.shrinking.built.inForce_rewindTo (Trail.fresh_ofModel d.model) limit hsize
  rw [valuesBefore, Trail.values_eq hb', hforce.unique hb]

variable [Scalar.LinearlyOrdered α]

/-- The trail only shrank the bounds of the model at any time. -/
theorem shrunkBefore (limit : Nat) : Trail.Shrunk (.ofModel d.model) (d.trail.rewindTo limit) :=
  (h.shrinking.built.rewindTo h.numeric.fresh limit).shrunk h.numeric.fresh h.numeric.number

theorem inForce_number {side : Side} {c : ColumnId} {limit : Nat} {b : Bound α}
    (hc : c < d.model.columns.size) (hb : d.InForce side c limit b) :
    Scalar.isNaN b.value = false := by
  rw [← h.valuesBefore_eq hc hb]
  exact (h.shrunkBefore limit).number side c

variable (hR : R.Inside d.globalBox d.model.columns.size)

include hR

/-- The changes in the global part of the log hold at the points of the global box. -/
theorem holds_global {p : Nat} {entry : LogEntry α} (hentry : d.log[p]? = some entry)
    (hp : p < d.globalLength) : R.Holds entry.change :=
  R.weaken (hR entry.change.side entry.change.column (h.column_lt hentry))
    ((h.shrunkBefore d.globalLength).logged entry (mem_logBefore hentry hp))

/-- A bound that was in force holds at a point of the global box if the change that set it does. -/
theorem inForce_holds {side : Side} {c : ColumnId} {limit : Nat} {b : Bound α}
    (hc : c < d.model.columns.size) (hforce : d.InForce side c limit b)
    (hmeets : d.Meets b.position.toList R) : R.Holds ⟨c, side, b.value⟩ := by
  cases hforce with
  | start hb _ =>
      rw [← Trail.values_eq hb]
      exact R.weaken (hR side c hc) ((h.shrunkBefore d.globalLength).within side c)
  | @set p entry hp hentry hsets _ =>
      obtain ⟨rfl, rfl⟩ := hsets
      rcases Nat.lt_or_ge p d.globalLength with hglobal | hafter
      · exact h.holds_global hR hentry hglobal
      · exact hmeets p (List.mem_singleton_self _) hafter entry hentry

end Traced

end Domain

/-! ### Whole bounds

If every change that is made is to a whole value and the tolerance is less than one, then every
bound is whole or infinite, and a change is accepted with the value it was given: no crossing is
small enough to be tolerated. Only a decision that repeats a bound is logged with the value of that
bound. -/

section Whole

open Exact

variable {f : ℚ} {a : Domain.Anchor}

/-- The bounds of all columns are whole or infinite. -/
def Model.WholeBounds (m : Model Exact) : Prop :=
  ∀ (c : ColumnId) column, m.columns[c]? = some column → IsWhole column.lower ∧ IsWhole column.upper

theorem Draft.wholeBounds_of_build {draft : Draft Exact} {m : Model Exact} (h : draft.build = .ok m)
    (hinteger : m.AllInteger) : m.WholeBounds := fun c column hcolumn =>
  (Draft.checkedColumn_of_build h hcolumn).whole (hinteger c column hcolumn)

/-- A whole bound that is tighter than another one is so by one at least. -/
theorem not_advance_le {side : Side} {v w : Exact} (hv : IsWhole v) (hw : IsWhole w)
    (htighter : side.tighter v w = true) (hf : f < 1) : ¬side.advance v w ≤ number f := by
  have hwhole : ∀ k l : ℤ, l < k → ¬number (k : ℚ) - number (l : ℚ) ≤
    number f := fun k l hlt hle => by
    rw [number_sub, number_le] at hle
    have hone : (l : ℚ) + 1 ≤ k := by exact_mod_cast hlt
    linarith
  have hlower : ∀ v w : Exact, IsWhole v → IsWhole w → w < v → ¬v - w ≤ number f := by
    rintro v w (rfl | rfl | ⟨k, rfl⟩) (rfl | rfl | ⟨l, rfl⟩) hlt hle
    · cases hlt
    · cases hle
    · cases hle
    · cases hlt
    · cases hlt
    · cases hlt
    · cases hlt
    · cases hle
    · exact hwhole k l (by exact_mod_cast number_lt.mp hlt) hle
  cases side with
  | lower => exact hlower v w hv hw (of_decide_eq_true htighter)
  | upper => exact hlower w v hw hv (of_decide_eq_true htighter)

namespace Domain

variable {d d' : Domain Exact}

/-- A whole value is accepted as it is, unless a decision repeats a bound. -/
theorem acceptedValue_whole {side : Side} {current opposite value accepted : Exact}
    {isBranching crossing : Bool} (hf : f < 1) (hvalue : IsWhole value) (hcurrent : IsWhole current)
    (hopposite : IsWhole opposite)
    (h : acceptedValue side (number f) current opposite value isBranching =
      some (accepted, crossing)) :
    accepted = value ∨ isBranching = true ∧ accepted = current := by
  simp only [acceptedValue] at h
  split at h
  · cases h
  · next hignored =>
      generalize hgiven : (if side.tightOrEqual current value then current else value) = given at h
      have hcases : given = value ∨ isBranching = true ∧ given = current := by
        split at hgiven
        · next hstays =>
            refine .inr ⟨?_, hgiven.symm⟩
            simpa [hstays] using hignored
        · exact .inl hgiven.symm
      have hwhole : IsWhole given := by
        rcases hcases with rfl | ⟨-, rfl⟩
        · exact hvalue
        · exact hcurrent
      have haccepted : accepted = given := by
        split at h
        · next htighter =>
            rw [if_neg (not_advance_le hwhole hopposite htighter hf)] at h
            exact (Prod.mk.inj (Option.some.inj h)).1.symm
        · exact (Prod.mk.inj (Option.some.inj h)).1.symm
      rw [haccepted]
      exact hcases

/-- Every logged change is to a whole or infinite value. -/
def LogsWhole (d : Domain Exact) : Prop := ∀ entry ∈ d.log, IsWhole entry.change.value

/-- Every bound of the domain is whole or infinite. -/
theorem Sound.values_whole (h : d.Sound a f) (hmodel : d.model.WholeBounds) (hlog : d.LogsWhole)
    (side : Side) (c : ColumnId) : IsWhole (d.values side c) := by
  rcases Nat.lt_or_ge c d.model.columns.size with hlt | hge
  · obtain ⟨b, hb, hforce⟩ := h.traced.inForce_current side hlt
    rw [values_eq hb]
    cases hforce with
    | start hstart _ =>
        have hcolumn := Array.getElem?_eq_getElem hlt
        obtain ⟨hlower, hupper⟩ := hmodel c _ hcolumn
        cases side with
        | lower =>
            simp only [Trail.bounds, Trail.ofModel, Array.getElem?_map, hcolumn, Option.map_some,
              Option.some.injEq] at hstart
            rw [← hstart]
            exact hlower
        | upper =>
            simp only [Trail.bounds, Trail.ofModel, Array.getElem?_map, hcolumn, Option.map_some,
              Option.some.injEq] at hstart
            rw [← hstart]
            exact hupper
    | set _ hentry _ _ => exact hlog _ (Array.mem_of_getElem? hentry)
  · have hnone : (d.bounds side)[c]? = none :=
      Array.getElem?_eq_none (h.settled.coherent.bounds_size side ▸ hge)
    rw [values, hnone]
    exact .inr (.inr ⟨0, by simp⟩)

end Domain

end Whole

end BranchBound
