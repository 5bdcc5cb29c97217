import BranchBound.Proofs.Domain.Cutoff
import BranchBound.Proofs.Domain.Deduction

/-!
# Nothing that is admitted is lost

A sound domain draws only right conclusions about the points that it allows: every change that is
derived holds there, no constraint is refuted, and nothing can be blamed for an infeasibility. So
whatever propagation does, these points stay in the box and the domain stays feasible.
-/

namespace BranchBound

open Checked Exact

variable {x : Point} {f : ℚ}

/-- The bounds of the items of a sum in motion are those of the other terms, and the old and the
new value of the bound that moves. -/
theorem Tracking.Moving.exists_items {R : Exact.Range} {β : BoundValues Exact} {pick : Exact → Side}
    {c : ColumnId} {side : Side} {old new : Exact} {entries : List (ColumnId × Exact)}
    {s : PartialSum Exact} {pending : Multiset Exact}
    (h : (Tracking.exact R).Moving β pick c side old new entries s pending) :
    ∃ items : BoundedEntries, items.map Prod.fst = entries ∧ s.Exactly items.terms 0 ∧
      ∀ i ∈ items, i.1 ∈ entries ∧ (i.2 = β (pick i.1.2) i.1.1 ∨
        i.1.1 = c ∧ pick i.1.2 = side ∧ (i.2 = old ∨ i.2 = new)) := by
  obtain ⟨moved, hmoved, htracks⟩ := h
  let elsewhere : BoundedEntries :=
    ((entries : Multiset (ColumnId × Exact)).filter fun e => ¬(e.1 = c ∧ pick e.2 = side)).map
      fun e => (e, β (pick e.2) e.1)
  let at' : Exact → Multiset Exact → BoundedEntries := fun v as => as.map fun a => ((c, a), v)
  have hat : (coefficientsAt pick c side entries).map (fun a => (c, a)) =
      (entries : Multiset (ColumnId × Exact)).filter fun e => e.1 = c ∧ pick e.2 = side := by
    rw [coefficientsAt, Multiset.map_map]
    refine (Multiset.map_congr rfl fun e he => ?_).trans (Multiset.map_id _)
    obtain ⟨rfl, -⟩ := (Multiset.mem_filter.mp he).2
    rfl
  have hentry : ∀ a ∈ coefficientsAt pick c side entries, (c, a) ∈ entries ∧ pick a = side := by
    intro a ha
    have hmem := hat ▸ Multiset.mem_map_of_mem (fun a => (c, a)) ha
    exact ⟨(Multiset.mem_filter.mp hmem).1, (Multiset.mem_filter.mp hmem).2.2⟩
  refine ⟨elsewhere + at' old pending + at' new moved, ?_, ?_, fun i hi => ?_⟩
  · have hfst : ∀ v as, (at' v as).map Prod.fst = as.map fun a => (c, a) := fun v as => by
      simp [at', Multiset.map_map]
    have helsewhere : elsewhere.map Prod.fst =
        (entries : Multiset (ColumnId × Exact)).filter fun e => ¬(e.1 = c ∧ pick e.2 = side) := by
      simp only [elsewhere, Multiset.map_map, Function.comp_def, Multiset.map_id']
    rw [Multiset.map_add, Multiset.map_add, hfst, hfst, helsewhere, add_assoc, ← Multiset.map_add,
      hmoved, hat, add_comm, Multiset.filter_add_not]
  · have hterms : (elsewhere + at' old pending + at' new moved).terms =
        termsElsewhere β pick c side entries + (pending.map fun a => (a, old)) +
          moved.map fun a => (a, new) := by
      simp only [BoundedEntries.terms, elsewhere, at', termsElsewhere, Multiset.map_add,
        Multiset.map_map, Function.comp_def]
    rw [hterms]
    exact htracks
  · rcases Multiset.mem_add.mp hi with hi | hi
    · rcases Multiset.mem_add.mp hi with hi | hi
      · obtain ⟨e, he, rfl⟩ := Multiset.mem_map.mp hi
        exact ⟨(Multiset.mem_filter.mp he).1, .inl rfl⟩
      · obtain ⟨a, ha, rfl⟩ := Multiset.mem_map.mp hi
        obtain ⟨hmem, hside⟩ := hentry a (hmoved ▸ Multiset.mem_add.mpr (.inl ha))
        exact ⟨hmem, .inr ⟨rfl, hside, .inl rfl⟩⟩
    · obtain ⟨a, ha, rfl⟩ := Multiset.mem_map.mp hi
      obtain ⟨hmem, hside⟩ := hentry a (hmoved ▸ Multiset.mem_add.mpr (.inr ha))
      exact ⟨hmem, .inr ⟨rfl, hside, .inr rfl⟩⟩

section Moving

variable {R : Exact.Range} {β : BoundValues Exact} {pick : Exact → Side} {c : ColumnId}
  {side : Side}
  {new limit : Exact} {entries : List (ColumnId × Exact)} {s : PartialSum Exact}
  {pending : Multiset Exact} {columnCount : Nat}

/-- While a bound of the box moves to one that holds, all items have bounds that hold. -/
theorem Tracking.Moving.holds_items {P : Reading Exact} (hentries : Entries columnCount entries)
    (hinside : P.Inside β columnCount) (hc : c < columnCount) (hnew : P.Holds ⟨c, side, new⟩)
    (h : (Tracking.exact R).Moving β pick c side (β side c) new entries s pending) :
    ∃ items : BoundedEntries, items.map Prod.fst = entries ∧ s.Exactly items.terms 0 ∧
      ∀ i ∈ items, (∃ q, i.1.2 = number q) ∧ P.Holds ⟨i.1.1, pick i.1.2, i.2⟩ := by
  obtain ⟨items, hfst, hterms, hitems⟩ := h.exists_items
  refine ⟨items, hfst, hterms, fun i hi => ?_⟩
  obtain ⟨hmem, hbound⟩ := hitems i hi
  obtain ⟨hlt, hnumber⟩ := hentries i.1 hmem
  refine ⟨hnumber, ?_⟩
  rcases hbound with hb | ⟨hcolumn, hside, hb | hb⟩
  · exact hb ▸ hinside _ _ hlt
  · rw [hcolumn, hside, hb]
    exact hinside side c hc
  · rw [hcolumn, hside, hb]
    exact hnew

variable {y : Assignment}

theorem Tracking.Moving.exceeds_eq_false (hf : 0 ≤ f)
    (h : (Tracking.exact R).Moving β minSide c side (β side c) new entries s pending)
    (hentries : Entries columnCount entries) (hinside : y.reading.Inside β columnCount)
    (hc : c < columnCount) (hnew : y.reading.Holds ⟨c, side, new⟩)
    (hlimit : number (y.total entries) ≤ limit) : s.exceeds limit (number f) = false := by
  obtain ⟨items, hfst, hterms, hitems⟩ := h.holds_items hentries hinside hc hnew
  refine Assignment.exceeds_eq_false (a := y) (K := 0) hf hterms (fun i hi hfinite => ?_) ?_
  · obtain ⟨hnumber, hholds⟩ := hitems i hi
    exact Assignment.minTerm_le hnumber hholds hfinite
  · rw [hfst, constantSum, Multiset.map_zero, Multiset.sum_zero, add_zero]
    exact hlimit

theorem Tracking.Moving.fallsShort_eq_false (hf : 0 ≤ f)
    (h : (Tracking.exact R).Moving β maxSide c side (β side c) new entries s pending)
    (hentries : Entries columnCount entries) (hinside : y.reading.Inside β columnCount)
    (hc : c < columnCount) (hnew : y.reading.Holds ⟨c, side, new⟩)
    (hlimit : limit ≤ number (y.total entries)) : s.fallsShort limit (number f) = false := by
  obtain ⟨items, hfst, hterms, hitems⟩ := h.holds_items hentries hinside hc hnew
  refine Assignment.fallsShort_eq_false (a := y) hf hterms (fun i hi hfinite => ?_) (hfst ▸ hlimit)
  obtain ⟨hnumber, hholds⟩ := hitems i hi
  exact Assignment.le_maxTerm hnumber hholds hfinite

end Moving

namespace ObjectivePropagation

variable {o o' : ObjectivePropagation Exact}

theorem boundMoved_same {c : ColumnId} {side : Side} {old new feastol : Exact} {violated : Bool}
    (h : o.boundMoved c side old new feastol = .ok (violated, o')) : SameConstraint o o' := by
  simp only [boundMoved, bind_eq_ok] at h
  obtain ⟨cost, -, h⟩ := h
  split at h
  · cases h
    exact ⟨rfl, rfl, rfl⟩
  · simp only [bind_eq_ok] at h
    obtain ⟨index, -, h⟩ := h
    cases index with
    | some i =>
        simp only [bind_eq_ok] at h
        obtain ⟨p, -, h⟩ := h
        split at h
        · cases h
          exact ⟨rfl, rfl, rfl⟩
        · simp only [bind_eq_ok, pure_eq_ok, Prod.mk.injEq] at h
          obtain ⟨_, -, _, -, -, rfl⟩ := h
          exact ⟨rfl, rfl, rfl⟩
    | none =>
        dsimp only at h
        split at h
        · cases h
          exact ⟨rfl, rfl, rfl⟩
        · simp only [bind_eq_ok, pure_eq_ok, Prod.mk.injEq] at h
          obtain ⟨_, -, -, rfl⟩ := h
          exact ⟨rfl, rfl, rfl⟩

theorem SameConstraint.chooses (h : SameConstraint o o') (hx : o.Chooses x) : o'.Chooses x := by
  unfold Chooses
  rw [h.partitionOf]
  exact hx

theorem HoldsAt.of_same (hx : o.HoldsAt x) (h : SameConstraint o o') : o'.HoldsAt x := by
  refine ⟨h.chooses hx.chooses, ?_⟩
  rw [h.cutoff, entries, h.costs]
  exact hx.cutoff

end ObjectivePropagation

namespace Domain

variable {d d' : Domain Exact} {change : BoundChange Exact} {reason : Reason}

/-- Columns that are fixed to one by the model or before a position of the log. -/
def FixedBefore (d : Domain Exact) (p : Nat) (c : ColumnId) : Prop :=
  d.model.Forced c ∨ ∃ (q : Nat) (entry : LogEntry Exact), q < p ∧ d.log[q]? = some entry ∧
    entry.change.column = c ∧ entry.change.side = .lower ∧ 1 ≤ entry.change.value

/-- The columns that were fixed to one when the objective was set up, and the position of the log
from which on changes may be undone since. -/
structure Anchor where
  position : Nat
  pinned : ColumnId → Prop

/-- Nothing but the bounds of the model is taken for granted. -/
def Anchor.ofModel (m : Model Exact) : Anchor := ⟨0, m.Forced⟩

/-- A domain over whole columns in which everything is well formed. It admits no point if it is
infeasible. -/
structure Sound (a : Anchor) (f : ℚ) (d : Domain Exact) : Prop where
  positive : 0 < f
  integer : d.model.AllInteger
  readable : Readable (.exact .any) d.model
  feastol : d.feastol = number f
  settled : d.Settled (.exact .any)
  shrinking : d.Shrinking (.ofModel d.model) d.model.columns.size
  forced : ∀ c, d.model.Forced c → a.pinned c
  pinned : ∀ c, a.pinned c → d.FixedBefore a.position c
  wellMade : d.WellMade a.pinned
  latchedAtEnd : d.LatchedAtEnd
  latched : d.infeasible ≠ none → ∀ x, ¬d.Admits x

variable {a : Anchor}

namespace Sound

variable (h : d.Sound a f)

include h

theorem numeric : (Trail.ofModel d.model).Numeric d.model.columns.size :=
  Trail.numeric_ofModel h.readable.boundedByNumbers

theorem shrunk : Trail.Shrunk (.ofModel d.model) d.trail := h.shrinking.shrunk h.numeric

theorem not_nan (side : Side) (c : ColumnId) : d.values side c ≠ nan := h.settled.admissible side c

theorem rowEntries {r : RowId} {row : Row Exact} (hrow : d.model.rows[r]? = some row) :
    Entries d.model.columns.size row.entries := fun e he =>
  ⟨h.settled.coherent.wellFormed.entry_lt r row hrow e he,
    h.settled.coherent.coefficients r row hrow e he⟩

theorem fixed {c : ColumnId} (hc : a.pinned c) : 1 ≤ d.values .lower c := by
  rcases h.pinned c hc with ⟨column, hcolumn, hone⟩ | ⟨q, entry, -, hentry, rfl, hside, hone⟩
  · exact Exact.le_trans hone (within_model h.shrunk hcolumn).1
  · have htight := h.shrunk.logged entry (Array.mem_of_getElem? hentry)
    rw [hside] at htight
    exact Exact.le_trans hone (of_decide_eq_true htight)

variable (hx : d.Admits x)

include hx

theorem keeps {o : ObjectivePropagation Exact} (ho : d.objective = some o)
    (free : Option ColumnId) : o.Keeps a.pinned d.values free x := by
  have hsize := (h.settled.coherent.objective o ho).costs_size
  refine ⟨(hx.objective o ho).chooses, fun c i hi => ?_, fun c i _ => h.fixed,
    fun c cost hc _ _ side => hx.box side c ?_⟩
  · exact binary_values h.shrunk hx.box ((h.wellMade.placed o ho).columns c i hi).1
  · exact hsize ▸ (Array.getElem?_eq_some_iff.mp hc).1

omit hx in
/-- Every change that is derived holds at the points that are allowed. -/
theorem holds (hallowed : d.Allows x) (hderived : d.Derived change reason) :
    change.HoldsAt x := by
  have hcoherent := h.settled.coherent
  have hx := hallowed.toAdmits
  cases hderived with
  | @implication entry c value implied change accepted _ hentry hfixing himplied hmem haccepted =>
      obtain ⟨hbinary, hvalue⟩ := fixedBy_holds h.shrunk hx.box hentry hfixing
      have hgiven := impliedByFixing_holds h.wellMade hallowed.cliques hallowed.variableBounds
        (fun _ hc => binary_values h.shrunk hx.box hc) hbinary hvalue himplied hmem
      exact Accepted.holdsAt_ofScalar h.feastol h.positive
        (acceptedBound_accepted h.integer h.feastol h.positive haccepted) hgiven
  | @rowUpper r row activity entry _ hrow hactivity _ hentry hchange =>
      obtain ⟨found, hfound, hmin, -⟩ := hcoherent.rows r row hrow
      obtain rfl : found = activity := Option.some.inj (hfound.symm.trans hactivity)
      refine impliedChange_holds (K := 0) h.integer h.feastol h.positive h.not_nan
        (h.rowEntries hrow) hx.box hmin ?_ hentry hchange
      rw [constantSum, Multiset.map_zero, Multiset.sum_zero, add_zero]
      exact (hx.rows r row hrow).2
  | @rowLower r row activity entry _ hrow hactivity _ hentry hchange =>
      obtain ⟨found, hfound, -, hmax⟩ := hcoherent.rows r row hrow
      obtain rfl : found = activity := Option.some.inj (hfound.symm.trans hactivity)
      exact impliedChange_neg_holds h.integer h.feastol h.positive h.not_nan (h.rowEntries hrow)
        hx.box hmax (hx.rows r row hrow).1 hentry hchange
  | @cut index p id cut min entry _ hpool hknown hentry hchange =>
      have hpooled := hcoherent.cuts index p hpool
      have hvalid : cut.HoldsAt x :=
        hx.cuts index id cut (by rw [cut?, hpool, Option.bind_some, hknown]; rfl)
      refine impliedChange_holds (K := 0) h.integer h.feastol h.positive h.not_nan
        (hpooled.entries id cut min hknown) hx.box (hpooled.tracks id cut min hknown) ?_ hentry
          hchange
      rw [constantSum, Multiset.map_zero, Multiset.sum_zero, add_zero]
      exact hvalid
  | @conflict index p id literals literal _ hpool hknown hinactive hchange =>
      have hfound : d.conflict? index id = some literals := by
        rw [conflict?, hpool, Option.bind_some, hknown]
      have hnegatable := h.wellMade.conflicts index id literals hfound
      obtain ⟨l, hl, hfalse⟩ := hx.conflicts index id literals hfound
      rcases mem_keepIf_or hinactive hl with hmem | hactive
      · obtain rfl := List.mem_singleton.mp hmem
        exact flip_holds h.integer (hnegatable l hl).2 hfalse hchange
      · simp only [bind_eq_ok, pure_eq_ok, Bool.not_eq_false'] at hactive
        obtain ⟨_, hactive, rfl⟩ := hactive
        exact absurd (isActive_holds hx.box (hnegatable l hl).1 hactive) hfalse
  | @objective o entry _ hobjective _ hentry hchange =>
      exact ObjectivePropagation.linearChange_holds (hcoherent.objective o hobjective)
        (h.wellMade.placed o hobjective) (h.keeps hx hobjective _)
        (hx.objective o hobjective).cutoff
        h.integer h.feastol h.positive rfl h.not_nan hentry rfl hchange
  | @partition o p _ hobjective _ hfinite hpartition hchange =>
      rw [h.feastol] at hchange
      exact ObjectivePropagation.partitionChanges_holds (hcoherent.objective o hobjective)
        (h.wellMade.placed o hobjective) (h.keeps hx hobjective _)
        (hx.objective o hobjective).cutoff
        h.positive hfinite hpartition hchange rfl

/-- No constraint is refuted where a point is admitted. -/
theorem not_refuted : ¬d.Refuted reason := by
  intro hrefuted
  cases hrefuted with
  | @conflict index p id literals hpool hknown hinactive =>
      have hfound : d.conflict? index id = some literals := by
        rw [conflict?, hpool, Option.bind_some, hknown]
      have hnegatable := h.wellMade.conflicts index id literals hfound
      obtain ⟨l, hl, hfalse⟩ := hx.conflicts index id literals hfound
      rcases mem_keepIf_or hinactive hl with hmem | hactive
      · cases hmem
      · simp only [bind_eq_ok, pure_eq_ok, Bool.not_eq_false'] at hactive
        obtain ⟨_, hactive, rfl⟩ := hactive
        exact hfalse (isActive_holds hx.box (hnegatable l hl).1 hactive)
  | @objective o hobjective hviolated =>
      rw [h.feastol, ObjectivePropagation.isViolated_eq_false
        (h.settled.coherent.objective o hobjective)
        (h.wellMade.placed o hobjective) (h.keeps hx hobjective none)
        (hx.objective o hobjective).cutoff h.positive.le rfl] at hviolated
      cases hviolated

/-- Nothing can be blamed for an infeasibility while a bound is tightened to one that holds at the
point. -/
theorem not_blamed {c : ColumnId} {side : Side} {new : Exact} (hc : c < d.model.columns.size)
    (htight : side.tightOrEqual new (d.values side c) = true)
    (hnew : (⟨c, side, new⟩ : BoundChange Exact).HoldsAt x) :
    ¬Blame (.exact .any) d.values c side (d.values side c) new d reason := by
  have hcoherent := h.settled.coherent
  intro hblame
  cases hblame with
  | @rowUpper r row s pending hrow hmoving hexceeds =>
      rw [h.feastol, hmoving.exceeds_eq_false (y := x.assignment) h.positive.le (h.rowEntries hrow)
        hx.box hc hnew
        (hx.rows r row hrow).2] at hexceeds
      cases hexceeds
  | @rowLower r row s pending hrow hmoving hshort =>
      rw [h.feastol, hmoving.fallsShort_eq_false (y := x.assignment) h.positive.le
        (h.rowEntries hrow) hx.box hc hnew
        (hx.rows r row hrow).1] at hshort
      cases hshort
  | @cut index p id hpool hexceeded =>
      obtain ⟨cut, min, pending, hknown, hmoving, hexceeds⟩ := hexceeded
      obtain ⟨⟨cut, known⟩, hfound, rfl⟩ := Option.map_eq_some_iff.mp hknown
      have hvalid : cut.HoldsAt x :=
        hx.cuts index id cut (by rw [cut?, hpool, Option.bind_some]; exact hknown)
      rw [h.feastol, hmoving.exceeds_eq_false (y := x.assignment) h.positive.le
        ((hcoherent.cuts index p hpool).entries id cut known hfound) hx.box hc hnew hvalid]
        at hexceeds
      cases hexceeds
  | @objective o o' hobjective hmoved hcoherent' hviolated =>
      have hsame := ObjectivePropagation.boundMoved_same hmoved
      have hkeeps := h.keeps hx hobjective none
      have hbox : (d.values.set side c new).Contains d.model.columns.size x :=
        BoundValues.Contains.set hx.box hnew
      have hkeeps' : o'.Keeps a.pinned (d.values.set side c new) none x := by
        refine ⟨hsame.chooses hkeeps.chooses, fun c' i hi => ?_, fun c' i _ hc' => ?_,
          fun c' cost hc' _ _ side' => hbox side' c' ?_⟩
        · exact hkeeps.binary c' i (hsame.partitionOf ▸ hi)
        · by_cases hset : .lower = side ∧ c' = c
          · obtain ⟨rfl, rfl⟩ := hset
            rw [BoundValues.set_self]
            exact Exact.le_trans (h.fixed hc') (of_decide_eq_true htight)
          · rw [BoundValues.set_of_ne _ _ hset]
            exact h.fixed hc'
        · exact hcoherent'.costs_size ▸ (Array.getElem?_eq_some_iff.mp hc').1
      have hplaced := (h.wellMade.placed o hobjective).boundMoved (h.not_nan side c) hnew.not_nan
        hmoved
      rw [h.feastol, ObjectivePropagation.isViolated_eq_false hcoherent' hplaced hkeeps'
        ((hx.objective o hobjective).of_same hsame).cutoff h.positive.le rfl] at hviolated
      cases hviolated

end Sound

end Domain

end BranchBound
