import BranchBound.Proofs.Conflict.Names
import BranchBound.Proofs.Conflict.PastBounds
import BranchBound.Proofs.Domain.Soundness

/-!
# Violated by the bounds that were reached

While a bound moves, a constraint is found violated by a sum with some terms at the old and some at
the new value of the bound. Tightening a bound only makes a violation worse, so the constraint is
violated by the bounds after the move as well, and that is what an explanation starts from.
-/

namespace BranchBound

open Checked Exact

variable {f : ℚ}

/-- All terms of an activity are finite at some bounds. -/
def TermsFinite (β : BoundValues Exact) (pick : Exact → Side) (entries : List (ColumnId × Exact)) :
    Prop :=
  ∀ e ∈ entries, Scalar.isInfinite (β (pick e.2) e.1) = false

/-- The minimal activity at some bounds exceeds a limit. -/
structure ExceedsAt (β : BoundValues Exact) (entries : List (ColumnId × Exact)) (limit : Exact) :
    Prop where
  finite : TermsFinite β minSide entries
  above : limit < number (finiteSum (termsAt β minSide entries))

/-- The maximal activity at some bounds falls short of a limit. -/
structure FallsShortAt (β : BoundValues Exact) (entries : List (ColumnId × Exact)) (limit : Exact) :
    Prop where
  finite : TermsFinite β maxSide entries
  below : number (finiteSum (termsAt β maxSide entries)) < limit

/-- The difference to a limit is only positive where the limit is passed. -/
theorem lt_of_lt_sub {q : ℚ} {limit : Exact} (hf : 0 ≤ f) (h : number f < number q - limit) :
    limit < number q := by
  cases limit with
  | number k =>
      rw [number_sub, number_lt] at h
      rw [number_lt]
      linarith
  | minus => rfl
  | plus | nan => cases h

theorem lt_of_lt_sub_left {q : ℚ} {limit : Exact} (hf : 0 ≤ f) (h : number f < limit - number q) :
    number q < limit := by
  cases limit with
  | number k =>
      rw [number_sub, number_lt] at h
      rw [number_lt]
      linarith
  | plus => rfl
  | minus | nan => cases h

section Terms

variable {a v w : Exact}

/-- Two bounds of which one is tighter are numbers if they are finite. -/
theorem exists_numbers_of_tight {side : Side} (h : side.tightOrEqual w v = true)
    (hv : Scalar.isInfinite v = false) (hw : Scalar.isInfinite w = false) :
    ∃ r t, v = number r ∧ w = number t := by
  have hnan : v ≠ nan ∧ w ≠ nan := by
    cases side with
    | lower => exact not_nan_of_le (of_decide_eq_true h)
    | upper => exact (not_nan_of_le (of_decide_eq_true h)).symm
  obtain ⟨r, hr⟩ := exists_number_of_finite hnan.1 hv
  obtain ⟨t, ht⟩ := exists_number_of_finite hnan.2 hw
  exact ⟨r, t, hr, ht⟩

/-- A term of the minimal activity only grows when its bound is tightened. -/
theorem minTerm_mono (ha : ∃ q, a = number q) (hv : Scalar.isInfinite v = false)
    (hw : Scalar.isInfinite w = false) (h : (minSide a).tightOrEqual w v = true) :
    a.toRat * v.toRat ≤ a.toRat * w.toRat := by
  obtain ⟨q, rfl⟩ := ha
  obtain ⟨r, t, rfl, rfl⟩ := exists_numbers_of_tight h hv hw
  rw [minSide_number] at h
  by_cases hq : 0 < q
  · rw [if_pos hq] at h
    exact mul_le_mul_of_nonneg_left (number_le.mp (of_decide_eq_true h)) hq.le
  · rw [if_neg hq] at h
    exact mul_le_mul_of_nonpos_left (number_le.mp (of_decide_eq_true h)) (not_lt.mp hq)

/-- A term of the maximal activity only shrinks when its bound is tightened. -/
theorem maxTerm_mono (ha : ∃ q, a = number q) (hv : Scalar.isInfinite v = false)
    (hw : Scalar.isInfinite w = false) (h : (maxSide a).tightOrEqual w v = true) :
    a.toRat * w.toRat ≤ a.toRat * v.toRat := by
  obtain ⟨q, rfl⟩ := ha
  obtain ⟨r, t, rfl, rfl⟩ := exists_numbers_of_tight h hv hw
  rw [maxSide_number] at h
  by_cases hq : 0 < q
  · rw [if_pos hq] at h
    exact mul_le_mul_of_nonneg_left (number_le.mp (of_decide_eq_true h)) hq.le
  · rw [if_neg hq] at h
    exact mul_le_mul_of_nonpos_left (number_le.mp (of_decide_eq_true h)) (not_lt.mp hq)

end Terms

section Moving

variable {R : Exact.Range} {β : BoundValues Exact} {pick : Exact → Side} {c : ColumnId}
  {side : Side}
  {new limit : Exact} {entries : List (ColumnId × Exact)} {s : PartialSum Exact}
  {pending : Multiset Exact}

/-- If no term of a sum in motion is infinite, then none is after the move, and every term of the
sum is either at the bound after the move or at the old value of the bound that moves. -/
theorem Tracking.Moving.exists_finite
    (h : (Tracking.exact R).Moving β pick c side (β side c) new entries s pending)
    (hnew : Scalar.isInfinite new = false ∨ new = β side c) (hnone : s.infinite = 0) :
    TermsFinite (β.set side c new) pick entries ∧ ∃ items : BoundedEntries,
      items.map Prod.fst = entries ∧ s.finite = .exactly (finiteSum items.terms) ∧
      ∀ i ∈ items, i.1 ∈ entries ∧ Scalar.isInfinite i.2 = false ∧
        (i.2 = β.set side c new (pick i.1.2) i.1.1 ∨
          i.1.1 = c ∧ pick i.1.2 = side ∧ i.2 = β side c) := by
  obtain ⟨items, hfst, hterms, hitems⟩ := h.exists_items
  have hfinite := BoundedEntries.finite_of_infiniteTerms_eq_zero (hterms.infinite.symm.trans hnone)
  have hall : ∀ i ∈ items, i.1 ∈ entries ∧ Scalar.isInfinite i.2 = false ∧
      (i.2 = β.set side c new (pick i.1.2) i.1.1 ∨
        i.1.1 = c ∧ pick i.1.2 = side ∧ i.2 = β side c) := by
    intro i hi
    obtain ⟨hmem, hbound⟩ := hitems i hi
    refine ⟨hmem, hfinite i hi, ?_⟩
    rcases hbound with hkept | ⟨hcolumn, hside, hold | hmoved⟩
    · by_cases hset : pick i.1.2 = side ∧ i.1.1 = c
      · exact .inr ⟨hset.2, hset.1, by rw [hkept, hset.1, hset.2]⟩
      · exact .inl (by rw [BoundValues.set_of_ne _ _ hset, hkept])
    · exact .inr ⟨hcolumn, hside, hold⟩
    · exact .inl (by rw [hcolumn, hside, BoundValues.set_self, hmoved])
  refine ⟨fun e he => ?_, items, hfst, ?_, hall⟩
  · obtain ⟨i, hi, rfl⟩ := Multiset.mem_map.mp (hfst ▸ Multiset.mem_coe.mpr he)
    obtain ⟨-, hsmall, hat | ⟨hcolumn, hside, hold⟩⟩ := hall i hi
    · rw [← hat]
      exact hsmall
    · rw [hcolumn, hside, BoundValues.set_self]
      rcases hnew with hnew | hnew
      · exact hnew
      · rw [hnew, ← hold]
        exact hsmall
  · rw [hterms.finite]
    simp [constantSum]

theorem finiteSum_termsAt_eq {items : BoundedEntries} (h : items.map Prod.fst = entries)
    (β : BoundValues Exact) : finiteSum (termsAt β pick entries) =
      (items.map fun i => i.1.2.toRat * (β (pick i.1.2) i.1.1).toRat).sum := by
  rw [termsAt, ← h, finiteSum, Multiset.map_map, Multiset.map_map]
  rfl

variable (hentries : ∀ e ∈ entries, ∃ q, e.2 = number q)
  (htight : side.tightOrEqual new (β side c) = true)
  (hnew : Scalar.isInfinite new = false ∨ new = β side c) (hf : 0 ≤ f)

include hentries htight hnew hf

/-- What exceeds a limit while a bound is tightened exceeds it afterwards. -/
theorem Tracking.Moving.exceedsAt
    (h : (Tracking.exact R).Moving β minSide c side (β side c) new entries s pending)
    (hexceeds : s.exceeds limit (number f) = true) :
    ExceedsAt (β.set side c new) entries limit := by
  simp only [PartialSum.exceeds, Bool.and_eq_true, beq_iff_eq, decide_eq_true_eq] at hexceeds
  obtain ⟨hfinite, items, hfst, hsum, hitems⟩ := h.exists_finite hnew hexceeds.1
  have habove := hexceeds.2
  rw [hsum, CompensatedSum.value_exactly] at habove
  refine ⟨hfinite, lt_of_lt_of_le (lt_of_lt_sub hf habove) (number_le.mpr ?_)⟩
  rw [finiteSum_termsAt_eq hfst, finiteSum, BoundedEntries.terms, Multiset.map_map]
  refine Multiset.sum_map_le_sum_map _ _ fun i hi => ?_
  obtain ⟨hmem, hsmall, hat | ⟨hcolumn, hside, hb⟩⟩ := hitems i hi
  · rw [Function.comp_apply, ← hat]
  · refine minTerm_mono (hentries _ hmem) hsmall (hfinite _ hmem) ?_
    rw [hcolumn, hside, BoundValues.set_self, hb]
    exact htight

/-- What falls short of a limit while a bound is tightened falls short of it afterwards. -/
theorem Tracking.Moving.fallsShortAt
    (h : (Tracking.exact R).Moving β maxSide c side (β side c) new entries s pending)
    (hshort : s.fallsShort limit (number f) = true) :
    FallsShortAt (β.set side c new) entries limit := by
  simp only [PartialSum.fallsShort, Bool.and_eq_true, beq_iff_eq, decide_eq_true_eq] at hshort
  obtain ⟨hfinite, items, hfst, hsum, hitems⟩ := h.exists_finite hnew hshort.1
  have hbelow := hshort.2
  rw [hsum, CompensatedSum.value_exactly] at hbelow
  refine ⟨hfinite, lt_of_le_of_lt (number_le.mpr ?_) (lt_of_lt_sub_left hf hbelow)⟩
  rw [finiteSum_termsAt_eq hfst, finiteSum, BoundedEntries.terms, Multiset.map_map]
  refine Multiset.sum_map_le_sum_map _ _ fun i hi => ?_
  obtain ⟨hmem, hsmall, hat | ⟨hcolumn, hside, hb⟩⟩ := hitems i hi
  · rw [Function.comp_apply, ← hat]
  · refine maxTerm_mono (hentries _ hmem) hsmall (hfinite _ hmem) ?_
    rw [hcolumn, hside, BoundValues.set_self, hb]
    exact htight

end Moving

end BranchBound

/-!
## What stands behind a change and a violation

A change that propagation derives is supported by its reason: from the constraint that is named
there and the bounds at the time, the change follows at every point that heeds the tables and the
objective. A domain that is found infeasible violates the constraint that is blamed, at the bounds
it has then. Both can be said long after the propagation, when the reason is all that is left of it.
-/

namespace BranchBound

open Checked Exact

variable {x : Point} {f : ℚ} {a : Domain.Anchor}

/-- A point keeps to the bounds of the columns with a cost, except for those of one column
perhaps. -/
def KeepsCosted (m : Model Exact) (β : BoundValues Exact) (free : Option ColumnId) (x : Point) :
    Prop :=
  ∀ (c : ColumnId) column, m.columns[c]? = some column → column.cost ≠ number 0 → some c ≠ free →
    ∀ side, (⟨c, side, β side c⟩ : BoundChange Exact).HoldsAt x

theorem KeepsCosted.weaken {m : Model Exact} {β β' : BoundValues Exact} {free : Option ColumnId}
    (h : KeepsCosted m β' free x)
    (htight : ∀ (side : Side) c, c < m.columns.size →
      side.tightOrEqual (β' side c) (β side c) = true) :
    KeepsCosted m β free x := fun c column hcolumn hcost hfree side =>
  (h c column hcolumn hcost hfree side).weaken
    (htight side c (Array.getElem?_eq_some_iff.mp hcolumn).1)

namespace ObjectivePropagation

variable {pinned : ColumnId → Prop} {m : Model Exact} {o : ObjectivePropagation Exact}
  {β : BoundValues Exact} {free : Option ColumnId}

theorem Placed.keeps (h : o.Placed pinned m β) (hx : o.HoldsAt x)
    (hbinaries : ∀ c, m.Binary c → x c = 0 ∨ x c = 1) (hpinned : ∀ c, pinned c → 1 ≤ β .lower c)
    (hcosted : KeepsCosted m β free x) : o.Keeps pinned β free x := by
  refine ⟨hx.chooses, fun c i hi => hbinaries c (h.columns c i hi).1, fun c i _ => hpinned c,
    fun c cost hcost hne hfree side => ?_⟩
  rw [h.costs, Array.getElem?_map] at hcost
  obtain ⟨column, hcolumn, rfl⟩ := Option.map_eq_some_iff.mp hcost
  exact hcosted c column hcolumn hne hfree side

end ObjectivePropagation

namespace Domain

variable {d d' : Domain Exact} {change : BoundChange Exact} {reason : Reason}

/-- A point satisfies what a domain is told once and for all: binary columns are zero or one, and
the cliques, the variable bounds and the objective are satisfied. -/
structure Heeds (d : Domain Exact) (x : Point) : Prop where
  binaries : ∀ c, d.model.Binary c → x c = 0 ∨ x c = 1
  cliques : ∀ t, d.cliques = some t → t.HoldsAt x
  variableBounds : ∀ t, d.variableBounds = some t → t.HoldsAt x
  objective : ∀ o, d.objective = some o → o.HoldsAt x

/-- The constraint that is blamed for an infeasibility is violated at the bounds of a domain, or the
opposite bounds of a column have crossed. -/
def Violated (d : Domain Exact) : Reason → Prop
  | .rowUpper r => ∃ row, d.model.rows[r]? = some row ∧ ExceedsAt d.values row.entries row.upper
  | .rowLower r => ∃ row, d.model.rows[r]? = some row ∧ FallsShortAt d.values row.entries row.lower
  | .cut index id => ∃ cut, d.cut? index id = some cut ∧ ExceedsAt d.values cut.entries cut.rhs
  | .conflict index id => ∃ literals, d.conflict? index id = some literals ∧
      ∀ l ∈ literals, l.holdsFor (d.values l.side l.column) = true
  | .objective => (∃ o, d.objective = some o ∧ o.cutoff ≠ plus) ∧
      ∀ x, d.Heeds x → ¬KeepsCosted d.model d.values none x
  | .conflictingBounds p => ∃ entry, d.log[p]? = some entry ∧
      entry.change.side.tighter entry.change.value
        (d.valuesBefore p entry.change.side.opposite entry.change.column) = true
  | .branching | .unknown | .clique _ _ | .variableBound _ _ => False

end Domain

/-- What the reason of a change says about it, for the bounds before the change. -/
def PropagationState.Supports (s : PropagationState Exact) (β : BoundValues Exact)
    (change : BoundChange Exact) : Reason → Prop
  | .rowUpper r | .rowLower r => r < s.domain.model.rows.size
  | .conflict index id => s.Named index id ∧ ∀ literals,
      s.domain.conflictBehind s.pools.conflicts index id = some literals → ∀ l ∈ literals,
        l.column = change.column → l.side = change.side.opposite →
          ∀ x : Point, ¬l.HoldsAt x → change.HoldsAt x
  | .clique c value | .variableBound c value => s.domain.model.Binary c ∧
      ∀ x, s.domain.Heeds x → BinaryLiteral.HoldsAt ⟨c, value⟩ x → change.HoldsAt x
  | .objective => ∀ x, s.domain.Heeds x → KeepsCosted s.domain.model β (some change.column) x →
      change.HoldsAt x
  | .cut _ _ | .branching | .unknown | .conflictingBounds _ => True

section Derived

variable {s : PropagationState Exact} {change : BoundChange Exact} {reason : Reason}

namespace Domain

variable {d : Domain Exact}

theorem Accepted.exists_whole {side : Side} {c : ColumnId} {bound : CompensatedSum Exact}
    (h : d.Accepted side c bound change) : ∃ k : ℤ, change.value = number k := by
  obtain ⟨q, hvalue, -⟩ := h.value
  exact ⟨_, hvalue⟩

/-- What an inequality implies for the column of an entry is accepted for that column. -/
theorem impliedChange_accepted (hinteger : d.model.AllInteger) (hfeastol : d.feastol = number f)
    (hf : 0 < f) {rhs : Exact} {min : PartialSum Exact} {entry : ColumnId × Exact}
    (h : d.impliedChange rhs min entry = .ok (some change)) :
    change.column = entry.1 ∧ ∃ k : ℤ, change.value = number k := by
  simp only [impliedChange, bind_eq_ok] at h
  obtain ⟨v, -, h⟩ := h
  split at h
  · cases h
  · have haccepted := acceptedBound_accepted hinteger hfeastol hf h
    exact ⟨haccepted.column, haccepted.exists_whole⟩

theorem isActive_eq_ok {literal : BoundChange Exact} {b : Bool} (h : d.isActive literal = .ok b) :
    literal.holdsFor (d.values literal.side literal.column) = b := by
  simp only [isActive, bind_eq_ok, pure_eq_ok] at h
  obtain ⟨v, hv, rfl⟩ := h
  rw [boundValue_eq_ok hv]

/-- If all literals of a conflict but one hold for the bounds, then at a point at which one of those
over the same bound does not hold, the one that is left does not hold either. -/
theorem not_holds_of_inactive (hnan : ∀ side c, d.values side c ≠ nan)
    {literals : List (BoundChange Exact)} {literal l : BoundChange Exact}
    (hnumber : literal.value ≠ nan)
    (hinactive : keepIf (fun literal => do return !(← d.isActive literal)) literals = .ok [literal])
    (hl : l ∈ literals) (hcolumn : l.column = literal.column) (hside : l.side = literal.side)
    (hx : ¬l.HoldsAt x) : ¬literal.HoldsAt x := by
  rcases mem_keepIf_or hinactive hl with hmem | hactive
  · rw [← List.mem_singleton.mp hmem]
    exact hx
  · have hleft := (mem_keepIf hinactive (List.mem_singleton_self _)).2
    simp only [bind_eq_ok, pure_eq_ok, Bool.not_eq_false', Bool.not_eq_true'] at hactive hleft
    obtain ⟨_, hactive, rfl⟩ := hactive
    obtain ⟨_, hleft, rfl⟩ := hleft
    have hholds := isActive_eq_ok hactive
    have hfails := isActive_eq_ok hleft
    rw [BoundChange.holdsFor, hcolumn, hside] at hholds
    have htighter := Side.tighter_of_not_tightOrEqual (Exact.isNaN_eq_false.mpr (hnan _ _))
      (Exact.isNaN_eq_false.mpr hnumber) hfails
    intro hliteral
    refine hx ?_
    obtain ⟨c, side, v⟩ := l
    obtain rfl : c = literal.column := hcolumn
    obtain rfl : side = literal.side := hside
    exact hliteral.weaken (Side.tightOrEqual_trans (Side.tightOrEqual_of_tighter htighter) hholds)

theorem flip_eq_ok (hinteger : d.model.AllInteger) {literal : BoundChange Exact}
    (hrounds : ∃ k, literal.RoundsTo k) (h : d.flip literal = .ok change) :
    change.column = literal.column ∧ change.side = literal.side.opposite ∧
      ∃ k : ℤ, change.value = number k := by
  obtain ⟨k, hk⟩ := hrounds
  rw [flip_eq_negated hinteger hk h]
  cases literal.side with
  | lower => exact ⟨rfl, rfl, _, rfl⟩
  | upper => exact ⟨rfl, rfl, _, rfl⟩

end Domain

/-- What propagation derives is to a whole value, and its reason supports it. -/
theorem PropagationState.Sound.supports (h : s.Sound a f) (hagree : s.NamesAgree)
    (hderived : s.domain.Derived change reason) :
    (∃ k : ℤ, change.value = number k) ∧ s.Supports s.domain.values change reason := by
  have hd := h.domain
  have himplied : ∀ {rhs : Exact} {min : PartialSum Exact} {entry : ColumnId × Exact},
      s.domain.impliedChange rhs min entry = .ok (some change) →
        change.column = entry.1 ∧ ∃ k : ℤ, change.value = number k := fun hchange =>
    Domain.impliedChange_accepted hd.integer hd.feastol hd.positive hchange
  cases hderived with
  | @implication _ c value _ raw _ _ _ hfixing himplies hmem haccepted =>
      have hgiven := Domain.acceptedBound_accepted hd.integer hd.feastol hd.positive haccepted
      have hbinary := Domain.fixedBy_binary hfixing
      have hsupport : s.domain.model.Binary c ∧
          ∀ x, s.domain.Heeds x → BinaryLiteral.HoldsAt ⟨c, value⟩ x → change.HoldsAt x :=
        ⟨hbinary, fun x hx hvalue => Domain.Accepted.holdsAt_ofScalar hd.feastol hd.positive hgiven
          (Domain.impliedByFixing_holds hd.wellMade hx.cliques hx.variableBounds hx.binaries hbinary
            hvalue himplies hmem)⟩
      refine ⟨hgiven.exists_whole, ?_⟩
      rcases Domain.mem_impliedByFixing himplies hmem with
        ⟨_, _, _, -, -, -, heq⟩ | ⟨_, _, _, -, -, -, heq⟩
      · rw [(Prod.mk.inj heq).2]
        exact hsupport
      · rw [(Prod.mk.inj heq).2]
        exact hsupport
  | rowUpper hrow _ _ _ hchange =>
      exact ⟨(himplied hchange).2, (Array.getElem?_eq_some_iff.mp hrow).1⟩
  | rowLower hrow _ _ _ hchange =>
      exact ⟨(himplied hchange).2, (Array.getElem?_eq_some_iff.mp hrow).1⟩
  | cut _ _ _ hchange => exact ⟨(himplied hchange).2, trivial⟩
  | @conflict index p id literals literal _ hpool hknown hinactive hchange =>
      have hfound : s.domain.conflict? index id = some literals := by
        rw [Domain.conflict?, hpool, Option.bind_some, hknown]
      have hmem := (mem_keepIf hinactive (List.mem_singleton_self _)).1
      have hrounds := (hd.wellMade.conflicts index id literals hfound literal hmem).2
      obtain ⟨hcolumn, hside, hvalue⟩ := Domain.flip_eq_ok hd.integer hrounds hchange
      obtain ⟨pool, hpooled, hlt, -⟩ := hagree index p id literals hpool hknown
      refine ⟨hvalue, ⟨p, pool, hpool, hpooled, hlt⟩, fun literals' hbehind l hl hc hs x hx => ?_⟩
      have hnow : s.domain.conflictBehind s.pools.conflicts index id = some literals :=
        Domain.conflictBehind_eq_some.mpr ⟨p, hpool, .inl hknown⟩
      have hsame := Option.some.inj (hnow.symm.trans hbehind)
      subst hsame
      refine Domain.flip_holds hd.integer hrounds ?_ hchange
      refine Domain.not_holds_of_inactive hd.not_nan ?_ hinactive hl (hc.trans hcolumn) ?_ hx
      · obtain ⟨k, hk⟩ := hrounds
        exact hk.not_nan
      · rw [hs, hside]
        cases literal.side <;> rfl
  | @objective o entry _ hobjective _ hentry hchange =>
      obtain ⟨hcolumn, hvalue⟩ := himplied hchange
      refine ⟨hvalue, fun x hx hcosted => ?_⟩
      have hplaced := hd.wellMade.placed o hobjective
      exact ObjectivePropagation.linearChange_holds (hd.settled.coherent.objective o hobjective)
        hplaced
        (hplaced.keeps (hx.objective o hobjective) hx.binaries (fun _ => hd.fixed) hcosted)
        (hx.objective o hobjective).cutoff hd.integer hd.feastol hd.positive rfl hd.not_nan hentry
        (congrArg some hcolumn) hchange
  | @partition o p _ hobjective _ hfinite hpartition hchange =>
      refine ⟨?_, fun x hx hcosted => ?_⟩
      · rcases Domain.partitionChanges_value hchange with hvalue | hvalue
        · exact ⟨0, by simp [hvalue]⟩
        · exact ⟨1, by simp [hvalue]⟩
      · have hplaced := hd.wellMade.placed o hobjective
        rw [hd.feastol] at hchange
        exact ObjectivePropagation.partitionChanges_holds
          (hd.settled.coherent.objective o hobjective)
          hplaced (hplaced.keeps (hx.objective o hobjective) hx.binaries (fun _ => hd.fixed)
            hcosted)
          (hx.objective o hobjective).cutoff hd.positive hfinite hpartition hchange rfl

end Derived

section Violated

/-- An objective whose minimal value exceeds the cutoff has a cutoff. -/
theorem ObjectivePropagation.Coherent.cutoff_ne_plus {o : ObjectivePropagation Exact}
    {columnCount : Nat}
    {β : BoundValues Exact} (hcoherent : o.Coherent (.exact .any) columnCount β) (hf : 0 ≤ f)
    (hviolated : o.isViolated (number f) = true) : o.cutoff ≠ plus := by
  simp only [ObjectivePropagation.isViolated, PartialSum.exceeds, Bool.and_eq_true, beq_iff_eq,
    decide_eq_true_eq] at hviolated
  have htracks : o.min.Exactly _ _ := hcoherent.tracks
  have habove := hviolated.2
  rw [htracks.finite, CompensatedSum.value_exactly] at habove
  have hlimit := lt_of_lt_sub hf habove
  rintro hplus
  rw [hplus] at hlimit
  cases hlimit

namespace Domain

variable {d d' : Domain Exact} {reason : Reason}

/-- A constraint that is refuted is violated at the bounds. -/
theorem Sound.violated_of_refuted (h : d.Sound a f) (hrefuted : d.Refuted reason) :
    d.Violated reason := by
  cases hrefuted with
  | @conflict index p id literals hpool hknown hinactive =>
      refine ⟨literals, by rw [conflict?, hpool, Option.bind_some, hknown], fun l hl => ?_⟩
      rcases mem_keepIf_or hinactive hl with hmem | hactive
      · cases hmem
      · simp only [bind_eq_ok, pure_eq_ok, Bool.not_eq_false'] at hactive
        obtain ⟨_, hactive, rfl⟩ := hactive
        exact isActive_eq_ok hactive
  | @objective o hobjective hviolated =>
      have hcoherent := h.settled.coherent.objective o hobjective
      have hplaced := h.wellMade.placed o hobjective
      rw [h.feastol] at hviolated
      refine ⟨⟨o, hobjective,
        hcoherent.cutoff_ne_plus h.positive.le hviolated⟩, fun x hx hcosted => ?_⟩
      rw [ObjectivePropagation.isViolated_eq_false hcoherent hplaced
        (hplaced.keeps (hx.objective o hobjective) hx.binaries (fun _ => h.fixed) hcosted)
        (hx.objective o hobjective).cutoff h.positive.le rfl] at hviolated
      cases hviolated

/-- What two domains demand of the objective is the same constraint. -/
theorem objective_of_demand {o : ObjectivePropagation Exact} (hdemand : d'.demand = d.demand)
    (ho : d.objective = some o) :
    ∃ o', d'.objective = some o' ∧ ObjectivePropagation.SameConstraint o o' := by
  rw [demand, demand, ho, Option.map_some] at hdemand
  obtain ⟨o', ho', hsame⟩ := Option.map_eq_some_iff.mp hdemand
  simp only [Prod.mk.injEq] at hsame
  exact ⟨o', ho', hsame.1, hsame.2.1, hsame.2.2⟩

theorem SameConstraints.heeds (h : SameConstraints d d') (hx : d'.Heeds x) : d.Heeds x where
  binaries := h.setting.model ▸ hx.binaries
  cliques := h.setting.cliques ▸ hx.cliques
  variableBounds := h.setting.variableBounds ▸ hx.variableBounds
  objective := fun o ho => by
    obtain ⟨o', ho', hsame⟩ := objective_of_demand h.demand ho
    exact (hx.objective o' ho').of_same ⟨hsame.cutoff.symm, hsame.costs.symm,
      hsame.partitionOf.symm⟩

section Tightened

variable {c : ColumnId} {side : Side} {new : Exact} (h : d.Sound a f)
  (htight : side.tightOrEqual new (d.values side c) = true)
  (hnew : Scalar.isInfinite new = false ∨ new = d.values side c) (hsame : SameConstraints d d')
  (hvalues : d'.values = d.values.set side c new)

include h htight hnew hsame hvalues

/-- What is blamed while a bound is tightened is violated at the bounds afterwards. -/
theorem Sound.violated_of_blamed
    (hblame : Blame (.exact .any) d.values c side (d.values side c) new d reason) :
    d'.Violated reason := by
  have hcoherent := h.settled.coherent
  have hmodel := hsame.setting.model
  cases hblame with
  | @rowUpper r row s pending hrow hmoving hexceeds =>
      refine ⟨row, hmodel ▸ hrow, hvalues ▸ ?_⟩
      exact hmoving.exceedsAt (fun e he => (h.rowEntries hrow e he).2) htight hnew h.positive.le
        (h.feastol ▸ hexceeds)
  | @rowLower r row s pending hrow hmoving hshort =>
      refine ⟨row, hmodel ▸ hrow, hvalues ▸ ?_⟩
      exact hmoving.fallsShortAt (fun e he => (h.rowEntries hrow e he).2) htight hnew h.positive.le
        (h.feastol ▸ hshort)
  | @cut index p id hpool hexceeded =>
      obtain ⟨cut, min, pending, hknown, hmoving, hexceeds⟩ := hexceeded
      obtain ⟨⟨cut, known⟩, hfound, rfl⟩ := Option.map_eq_some_iff.mp hknown
      have hentries := (hcoherent.cuts index p hpool).entries id cut known hfound
      refine ⟨cut, ?_, hvalues ▸ ?_⟩
      · rw [hsame.cuts, cut?, hpool, Option.bind_some]
        exact hknown
      · exact hmoving.exceedsAt (fun e he => (hentries e he).2) htight hnew h.positive.le
          (h.feastol ▸ hexceeds)
  | @objective o o' hobjective hmoved hcoherent' hviolated =>
      have hmovedSame := ObjectivePropagation.boundMoved_same hmoved
      obtain ⟨found, hfound, hfoundSame⟩ := objective_of_demand hsame.demand hobjective
      rw [h.feastol] at hviolated
      refine ⟨⟨found, hfound, ?_⟩, fun x hx hcosted => ?_⟩
      · rw [hfoundSame.cutoff, ← hmovedSame.cutoff]
        exact hcoherent'.cutoff_ne_plus h.positive.le hviolated
      · have hheeds := hsame.heeds hx
        have hholds := (hheeds.objective o hobjective).of_same hmovedSame
        have hnumber : new ≠ nan := Exact.isNaN_eq_false.mp (Side.number_of_tightOrEqual htight).1
        have hplaced :=
          (h.wellMade.placed o hobjective).boundMoved (h.not_nan side c) hnumber hmoved
        have hpinned : ∀ c', a.pinned c' → 1 ≤ d.values.set side c new .lower c' :=
          fun c' hc' => by
            by_cases hset : .lower = side ∧ c' = c
            · obtain ⟨rfl, rfl⟩ := hset
              rw [BoundValues.set_self]
              exact Exact.le_trans (h.fixed hc') (of_decide_eq_true htight)
            · rw [BoundValues.set_of_ne _ _ hset]
              exact h.fixed hc'
        rw [hvalues, hmodel] at hcosted
        rw [ObjectivePropagation.isViolated_eq_false hcoherent' hplaced
          (hplaced.keeps hholds hheeds.binaries hpinned hcosted) hholds.cutoff h.positive.le rfl]
          at hviolated
        cases hviolated

end Tightened

/-- Two bounds of a column that cross are violated. -/
theorem violated_of_crossing {change : BoundChange Exact} {previous : Bound Exact} {why : Reason}
    (h : d.Sound a f) (hprevious : (d.bounds change.side)[change.column]? = some previous)
    (htrail : d'.trail = d.trail.append change why previous)
    (hcrosses : change.side.tighter change.value
      (d.values change.side.opposite change.column) = true) :
    d'.Violated (.conflictingBounds d.log.size) := by
  rw [← trail_bounds] at hprevious
  have hlog : d'.log = d.log.push ⟨change, why, previous⟩ := congrArg Trail.log htrail
  refine ⟨_, by rw [hlog, Array.getElem?_push_size], ?_⟩
  rw [valuesBefore, htrail, ← trail_log, Trail.rewindTo_append_size _ _ _ _ h.traced.decisionsLogged
    hprevious,
    trail_values]
  exact hcrosses

end Domain

end Violated

end BranchBound
