import BranchBound.Proofs.Conflict.PastBounds
import BranchBound.Proofs.Domain.Activities
import BranchBound.Proofs.Domain.FollowingRuns

/-!
# Where violations are noticed

A linear constraint is violated over a box if its minimal activity exceeds its right-hand side by
more than the tolerance, and likewise for the other side of a row. Rows and cuts are compared with
their sides when a bound tightens that enters the activity, and at no other time. So a side that is
violated over no earlier box is violated over no box of a feasible domain, but one that was violated
when its constraint came in stays unnoticed. The objective is compared with the cutoff when its
bound moves and when it is propagated, and propagation forgets that it has found something as soon
as it has done so.
-/

namespace BranchBound

open Checked Exact

/-- One side of a linear constraint. -/
inductive LinearSide (α : Type) where
  | atMost (entries : List (ColumnId × α)) (limit : α)
  | atLeast (entries : List (ColumnId × α)) (limit : α)
  deriving DecidableEq

namespace Domain

variable {α : Type} [Scalar α]

/-- The side of a row or of a known cut which a reason names. -/
def sideBehind (d : Domain α) : Reason → Option (LinearSide α)
  | .rowUpper r => d.model.rows[r]?.map fun row => .atMost row.entries row.upper
  | .rowLower r => d.model.rows[r]?.map fun row => .atLeast row.entries row.lower
  | .cut i id => (d.cutPropagations[i]?.bind fun p => p.known id).map fun known =>
      .atMost known.1.entries known.1.rhs
  | _ => none

/-- The sum that is kept for the constraint which a reason names violates it. -/
def Exceeded (d : Domain α) : Reason → Prop
  | .rowUpper r => ∃ row activity, d.model.rows[r]? = some row ∧ d.activities[r]? = some activity ∧
      row.upper < Scalar.infinity ∧ activity.min.exceeds row.upper d.feastol = true
  | .rowLower r => ∃ row activity, d.model.rows[r]? = some row ∧ d.activities[r]? = some activity ∧
      -Scalar.infinity < row.lower ∧ activity.max.fallsShort row.lower d.feastol = true
  | .cut i id => ∃ p cut min, d.cutPropagations[i]? = some p ∧ p.known id = some (cut, min) ∧
      min.exceeds cut.rhs d.feastol = true
  | .objective => ∃ o, d.objective = some o ∧ o.isViolated d.feastol = true
  | _ => False

variable {d d' d'' : Domain α} {reason : Reason} {c : ColumnId} {side : Side} {old new : α}
  {position : Nat}

theorem Exceeded.of_same (h : d'.Exceeded reason) (hmodel : d'.model = d.model)
    (hfeastol : d'.feastol = d.feastol) (hactivities : d'.activities = d.activities)
    (hcuts : d'.cutPropagations = d.cutPropagations) (hobjective : d'.objective = d.objective) :
    d.Exceeded reason := by
  cases reason with
  | rowUpper r | rowLower r => rwa [Exceeded, hmodel, hfeastol, hactivities] at h
  | cut i id => rwa [Exceeded, hcuts, hfeastol] at h
  | objective => rwa [Exceeded, hobjective, hfeastol] at h
  | _ => exact h

omit [Scalar α] in
/-- A test that leaves a domain feasible has failed. -/
theorem of_setInfeasibleAt_feasible {condition : Bool}
    (h : (d.setInfeasibleAt condition reason (some position)).infeasible = none) :
    condition = false ∧ d.setInfeasibleAt condition reason (some position) = d := by
  cases condition with
  | false => exact ⟨rfl, rfl⟩
  | true =>
      rw [setInfeasibleAt, if_pos rfl, setInfeasible] at h
      split at h
      · next hsome => rw [hsome] at h; cases h
      · cases h

/-- What is noticed while a bound tightens: nothing, if the domain is feasible afterwards, and then
no sum violates its side that did not do so before. -/
def Unnoticed (d d' : Domain α) : Prop :=
  d'.infeasible = none → d.infeasible = none ∧ ∀ reason, d'.Exceeded reason → d.Exceeded reason

theorem Unnoticed.refl (d : Domain α) : Unnoticed d d := fun hfeasible => ⟨hfeasible, fun _ h => h⟩

theorem Unnoticed.trans (h : Unnoticed d d') (h' : Unnoticed d' d'') : Unnoticed d d'' :=
  fun hfeasible =>
    ⟨(h (h' hfeasible).1).1, fun reason hlast => (h (h' hfeasible).1).2 reason
      ((h' hfeasible).2 reason hlast)⟩

theorem Unnoticed.of_same (hinfeasible : d'.infeasible = d.infeasible)
    (hmodel : d'.model = d.model) (hfeastol : d'.feastol = d.feastol)
    (hactivities : d'.activities = d.activities) (hcuts : d'.cutPropagations = d.cutPropagations)
    (hobjective : d'.objective = d.objective) : Unnoticed d d' :=
  fun hfeasible => ⟨hinfeasible ▸ hfeasible, fun _ h =>
    h.of_same hmodel hfeastol hactivities hcuts hobjective⟩

/-- The term of a row that moves is compared with the side that it enters, unless this leaves more
than one term infinite. -/
theorem moveRowTerm_tested {r : RowId} {a : α}
    (h : moveRowTerm side old new (some position) d (r, a) = .ok d')
    (hfeasible : d'.infeasible = none) :
    ∃ activity moved row, d.activities[r]? = some activity ∧ d.model.rows[r]? = some row ∧
      d' = { d with
        activities := d.activities.setIfInBounds r moved
        waitingRows := d'.waitingRows
        rowDirty := d'.rowDirty } ∧
      (moved.max = activity.max ∧ (row.upper < Scalar.infinity →
          moved.min.exceeds row.upper d.feastol = false) ∨
        moved.min = activity.min ∧ (-Scalar.infinity < row.lower →
          moved.max.fallsShort row.lower d.feastol = false)) := by
  simp only [moveRowTerm, bind_eq_ok, fetch_eq_ok, store_eq_ok, Model.row] at h
  obtain ⟨activity, hactivity, moved, hmoved, _, ⟨-, rfl⟩, row, hrow, h⟩ := h
  refine ⟨activity, moved, row, hactivity, hrow, ?_⟩
  have hmarked : ∀ {condition : Bool} {reason : Reason},
      ({ d with activities := d.activities.setIfInBounds r moved }.setInfeasibleAt condition reason
        (some position)).markRowDirty r = .ok d' → condition = false ∧ d' = { d with
          activities := d.activities.setIfInBounds r moved
          waitingRows := d'.waitingRows
          rowDirty := d'.rowDirty } := by
    intro condition reason hmark
    have hd' := markRowDirty_eq_ok hmark
    rw [hd'] at hfeasible
    obtain ⟨hfailed, hsame⟩ := of_setInfeasibleAt_feasible hfeasible
    rw [hsame] at hd'
    exact ⟨hfailed, hd'⟩
  have hexceeds : ∀ {s : PartialSum α} {limit tolerance : α}, s.exceeds limit tolerance = true →
      s.infinite ≤ 1 := by
    intro s limit tolerance htest
    simp only [PartialSum.exceeds, Bool.and_eq_true, beq_iff_eq] at htest
    omega
  have hshort : ∀ {s : PartialSum α} {limit tolerance : α}, s.fallsShort limit tolerance = true →
      s.infinite ≤ 1 := by
    intro s limit tolerance htest
    simp only [PartialSum.fallsShort, Bool.and_eq_true, beq_iff_eq] at htest
    omega
  rw [Activity.moveTerm] at hmoved
  split at h
  · next hmin =>
      simp only [hmin, if_true, bind_eq_ok, pure_eq_ok] at hmoved
      obtain ⟨_, -, rfl⟩ := hmoved
      split at h
      · obtain ⟨hfailed, hd'⟩ := hmarked h
        exact ⟨hd', .inl ⟨rfl, fun _ => hfailed⟩⟩
      · next hguard =>
          rw [pure_eq_ok] at h
          subst h
          refine ⟨rfl, .inl ⟨rfl, fun hupper => Bool.eq_false_iff.mpr fun htest => hguard ?_⟩⟩
          simp only [hupper, hexceeds htest, decide_true, Bool.and_self]
  · next hmax =>
      simp only [hmax, if_false, bind_eq_ok, pure_eq_ok, Bool.false_eq_true] at hmoved
      obtain ⟨_, -, rfl⟩ := hmoved
      split at h
      · obtain ⟨hfailed, hd'⟩ := hmarked h
        exact ⟨hd', .inr ⟨rfl, fun _ => hfailed⟩⟩
      · next hguard =>
          rw [pure_eq_ok] at h
          subst h
          refine ⟨rfl, .inr ⟨rfl, fun hlower => Bool.eq_false_iff.mpr fun htest => hguard ?_⟩⟩
          simp only [hlower, hshort htest, decide_true, Bool.and_self]

theorem moveRowTerm_unnoticed {o : RowId × α}
    (h : moveRowTerm side old new (some position) d o = .ok d') : Unnoticed d d' := by
  intro hfeasible
  obtain ⟨r, a⟩ := o
  obtain ⟨activity, moved, row, hactivity, hrow, hd', htested⟩ := moveRowTerm_tested h hfeasible
  rw [hd'] at hfeasible ⊢
  refine ⟨hfeasible, fun reason hexceeded => ?_⟩
  cases reason with
  | rowUpper r' =>
      obtain ⟨row', activity', hrow', hactivity', hupper, htest⟩ := hexceeded
      rcases of_getElem?_setIfInBounds hactivity' with ⟨rfl, rfl⟩ | ⟨-, hactivity'⟩
      · obtain rfl := Option.some.inj (hrow.symm.trans hrow')
        rcases htested with ⟨-, hfailed⟩ | ⟨hsame, -⟩
        · exact absurd htest (Bool.eq_false_iff.mp (hfailed hupper))
        · exact ⟨row, activity, hrow, hactivity, hupper, hsame ▸ htest⟩
      · exact ⟨row', activity', hrow', hactivity', hupper, htest⟩
  | rowLower r' =>
      obtain ⟨row', activity', hrow', hactivity', hlower, htest⟩ := hexceeded
      rcases of_getElem?_setIfInBounds hactivity' with ⟨rfl, rfl⟩ | ⟨-, hactivity'⟩
      · obtain rfl := Option.some.inj (hrow.symm.trans hrow')
        rcases htested with ⟨hsame, -⟩ | ⟨-, hfailed⟩
        · exact ⟨row, activity, hrow, hactivity, hlower, hsame ▸ htest⟩
        · exact absurd htest (Bool.eq_false_iff.mp (hfailed hlower))
      · exact ⟨row', activity', hrow', hactivity', hlower, htest⟩
  | _ => exact hexceeded

end Domain

/-- The cuts over a column are compared with their right-hand sides when a bound moves. -/
theorem CutPropagation.moveOccurrence_tested {α : Type} [Scalar α] {side : Side}
    {old new feastol : α}
    {violated : Option CutId} {p p' : CutPropagation α} {o : CutId × α}
    (h : moveOccurrence side old new feastol (violated, p) o = .ok (none, p')) :
    violated = none ∧ ∀ id cut min, p'.known id = some (cut, min) →
      min.exceeds cut.rhs feastol = true → p.known id = some (cut, min) := by
  obtain ⟨id, a⟩ := o
  simp only [moveOccurrence] at h
  split at h
  · rw [pure_eq_ok, Prod.mk.injEq] at h
    exact ⟨h.1, fun _ _ _ hknown _ => h.2 ▸ hknown⟩
  split at h
  · rw [pure_eq_ok, Prod.mk.injEq] at h
    exact ⟨h.1, fun _ _ _ hknown _ => h.2 ▸ hknown⟩
  next known hget =>
    simp only [bind_eq_ok, pure_eq_ok, Prod.mk.injEq] at h
    obtain ⟨moved, -, hviolated, rfl⟩ := h
    split at hviolated
    · cases hviolated
    next htest =>
      subst hviolated
      refine ⟨rfl, fun other cut min hknown hexceeds => ?_⟩
      have hmarked : ∀ q : CutPropagation α,
          (if moved.infinite ≤ 1 then q.markDirty id else q).known = q.known := by
        intro q
        split
        · exact (agrees_markDirty q id).known
        · rfl
      rw [hmarked, CutPropagation.known, Slots.get?_insert] at hknown
      split at hknown
      · next heq =>
          cases hknown
          simp only [Option.isNone_none, Bool.true_and] at htest
          exact absurd hexceeds htest
      · exact hknown

/-- A move of a bound leaves the objective alone, or makes it wait and compares it with the
cutoff. -/
theorem ObjectivePropagation.boundMoved_tested {α : Type} [Scalar α] {o o' : ObjectivePropagation α}
    {c : ColumnId} {side : Side} {old new feastol : α} {violated : Bool}
    (h : o.boundMoved c side old new feastol = .ok (violated, o')) :
    o' = o ∨ o'.needsPropagation = true ∧ violated = o'.isViolated feastol := by
  simp only [boundMoved, bind_eq_ok] at h
  obtain ⟨cost, -, h⟩ := h
  split at h
  · exact .inl (Prod.mk.inj (pure_eq_ok.mp h)).2.symm
  rw [bind_eq_ok] at h
  obtain ⟨partition, -, h⟩ := h
  cases partition with
  | some index =>
      simp only [bind_eq_ok] at h
      obtain ⟨p, -, h⟩ := h
      split at h
      · exact .inl (Prod.mk.inj (pure_eq_ok.mp h)).2.symm
      · simp only [bind_eq_ok, pure_eq_ok, Prod.mk.injEq] at h
        obtain ⟨_, -, _, -, rfl, rfl⟩ := h
        exact .inr ⟨rfl, rfl⟩
  | none =>
      dsimp only at h
      split at h
      · exact .inl (Prod.mk.inj (pure_eq_ok.mp h)).2.symm
      · simp only [bind_eq_ok, pure_eq_ok, Prod.mk.injEq] at h
        obtain ⟨_, -, rfl, rfl⟩ := h
        exact .inr ⟨rfl, rfl⟩

namespace Domain

variable {α : Type} [Scalar α] {d d' : Domain α} {c : ColumnId} {side : Side} {old new : α}
  {position : Nat}

theorem moveCutTerms_unnoticed {index : Nat}
    (h : moveCutTerms c side old new (some position) d index = .ok d') : Unnoticed d d' := by
  intro hfeasible
  obtain ⟨p, violated, moved, hp, hmoved, rfl⟩ := moveCutTerms_eq_ok h
  cases violated with
  | some id =>
      rw [Option.elim_some] at hfeasible
      cases (of_setInfeasibleAt_feasible hfeasible).1
  | none =>
      refine ⟨hfeasible, fun reason hexceeded => ?_⟩
      cases reason with
      | cut i id =>
          obtain ⟨q, cut, min, hq, hknown, hexceeds⟩ := hexceeded
          rcases of_getElem?_setIfInBounds hq with ⟨rfl, rfl⟩ | ⟨-, hq⟩
          · simp only [CutPropagation.boundMoved, bind_eq_ok] at hmoved
            obtain ⟨found, -, hmoved⟩ := hmoved
            have hkept := foldlM_keeps (P := fun state : Option CutId × CutPropagation α =>
              state.1 = none → state.2.known id = some (cut, min) → p.known id = some (cut, min))
              (fun state o state' _ hstate hstep hnone hlast => by
                obtain ⟨violated, q⟩ := state
                obtain ⟨violated', q'⟩ := state'
                obtain rfl : violated' = none := hnone
                obtain ⟨hbefore, hsame⟩ := CutPropagation.moveOccurrence_tested hstep
                exact hstate hbefore (hsame id cut min hlast hexceeds)) hmoved
              (fun _ hstart => hstart)
            exact ⟨p, cut, min, hp, hkept rfl hknown, hexceeds⟩
          · exact ⟨q, cut, min, hq, hknown, hexceeds⟩
      | _ => exact hexceeded

theorem moveObjectiveTerm_unnoticed
    (h : d.moveObjectiveTerm c side old new (some position) = .ok d') : Unnoticed d d' := by
  rcases moveObjectiveTerm_eq_ok h with ⟨-, rfl⟩ | ⟨o, violated, moved, ho, hmoved, rfl⟩
  · exact .refl _
  intro hfeasible
  obtain ⟨rfl, hsame⟩ := of_setInfeasibleAt_feasible hfeasible
  rw [hsame] at hfeasible ⊢
  refine ⟨hfeasible, fun reason hexceeded => ?_⟩
  cases reason with
  | objective =>
      obtain ⟨_, hfound, htest⟩ := hexceeded
      obtain rfl := Option.some.inj hfound
      rcases ObjectivePropagation.boundMoved_tested hmoved with rfl | ⟨-, hviolated⟩
      · exact ⟨moved, ho, htest⟩
      · exact absurd (hviolated.trans htest) Bool.false_ne_true
  | _ => exact hexceeded

/-- A bound that tightens makes the domain infeasible if a sum violates its side that did not do so
before. -/
theorem boundMoved_unnoticed (h : d.boundMoved c side old new (some position) = .ok d') :
    Unnoticed d d' := by
  obtain ⟨occurrences, d₁, d₂, propagations, -, hrows, hcuts, -, hobjective⟩ := boundMoved_eq_ok h
  have h₁ : Unnoticed d d₁ := foldlM_keeps (P := Unnoticed d)
    (fun _ _ _ _ hbefore hstep => hbefore.trans (moveRowTerm_unnoticed hstep)) hrows (.refl d)
  have h₂ : Unnoticed d₁ d₂ := foldlM_keeps (P := Unnoticed d₁)
    (fun _ _ _ _ hbefore hstep => hbefore.trans (moveCutTerms_unnoticed hstep)) hcuts (.refl d₁)
  have h₃ : Unnoticed d₂ { d₂ with conflictPropagations := propagations } :=
    .of_same rfl rfl rfl rfl rfl rfl
  exact ((h₁.trans h₂).trans h₃).trans (moveObjectiveTerm_unnoticed hobjective)

theorem changeBound_unnoticed {change : BoundChange α} {reason : Reason}
    (h : d.changeBound change reason = .ok d') : Unnoticed d d' := by
  rcases changeBound_eq_ok h with
    ⟨-, rfl⟩ | ⟨hnone, current, opposite, -, -, ⟨-, rfl⟩ | ⟨value, crossing, -, happly⟩⟩
  · exact .refl _
  · exact .refl _
  obtain ⟨previous, -, hd'⟩ := applyChange_eq_ok happly
  have hlogged : Unnoticed d (d.logged { change with value := value } reason previous
    crossing) := by
    intro _
    rw [logged_eq _ _ _ _ _ hnone]
    exact ⟨hnone, fun _ hexceeded => hexceeded.of_same rfl rfl rfl rfl rfl⟩
  rcases hd' with ⟨-, rfl⟩ | ⟨-, followed, hmoved, hmark⟩
  · exact hlogged
  · refine (hlogged.trans (boundMoved_unnoticed hmoved)).trans ?_
    rw [markMoved_eq_ok hmark]
    exact .of_same rfl rfl rfl rfl rfl rfl

end Domain

/-- The activity of a linear expression over a box: every column is at the bound that a rule
picks. -/
def BoundValues.activity (β : BoundValues Exact) (pick : Exact → Side) (infinity : Exact)
    (entries : List (ColumnId × Exact)) : Exact :=
  if 0 < infiniteTerms (termsAt β pick entries) then infinity
  else number (finiteSum (termsAt β pick entries))

/-- Every point of a box violates a side by more than a tolerance. -/
def LinearSide.ViolatedOn (tolerance : Exact) (β : BoundValues Exact) : LinearSide Exact → Prop
  | .atMost entries limit => limit + tolerance < β.activity minSide (-Scalar.infinity) entries
  | .atLeast entries limit => β.activity maxSide Scalar.infinity entries < limit - tolerance

instance {tolerance : Exact} {β : BoundValues Exact} {side : LinearSide Exact} :
    Decidable (side.ViolatedOn tolerance β) := by
  cases side <;> exact inferInstanceAs (Decidable (_ < _))

namespace PartialSum

variable {s : PartialSum Exact} {β : BoundValues Exact} {pick : Exact → Side}
  {entries : List (ColumnId × Exact)} {limit : Exact} {q f : ℚ}

theorem Exactly.valueOr_eq (h : s.Exactly (termsAt β pick entries) 0) (infinity : Exact) :
    s.valueOr infinity = β.activity pick infinity entries := by
  rw [valueOr, h.infinite, h.finite, BoundValues.activity,
    CompensatedSum.value_exactly, constantSum,
    Multiset.map_zero, Multiset.sum_zero, add_zero]

theorem exceeds_iff (h : s.finite = .exactly q) : s.exceeds limit (number f) = true ↔
    limit + number f < s.valueOr (-Scalar.infinity) := by
  rw [exceeds, valueOr, h, CompensatedSum.value_exactly]
  rcases Nat.eq_zero_or_pos s.infinite with hzero | hpos
  · rw [hzero, if_neg (Nat.lt_irrefl 0), beq_self_eq_true, Bool.true_and, decide_eq_true_eq]
    cases limit with
    | number l =>
        rw [number_sub, number_add, number_lt, number_lt, lt_sub_iff_add_lt, add_comm]
    | plus | minus | nan => exact Iff.rfl
  · rw [if_pos hpos, beq_eq_false_iff_ne.mpr (Nat.ne_of_gt hpos)]
    cases limit <;> exact Iff.rfl

theorem fallsShort_iff (h : s.finite = .exactly q) : s.fallsShort limit (number f) = true ↔
    s.valueOr Scalar.infinity < limit - number f := by
  rw [fallsShort, valueOr, h, CompensatedSum.value_exactly]
  rcases Nat.eq_zero_or_pos s.infinite with hzero | hpos
  · rw [hzero, if_neg (Nat.lt_irrefl 0), beq_self_eq_true, Bool.true_and, decide_eq_true_eq]
    cases limit with
    | number l => rw [number_sub, number_sub, number_lt, number_lt, lt_sub_comm]
    | plus | minus | nan => exact Iff.rfl
  · rw [if_pos hpos, beq_eq_false_iff_ne.mpr (Nat.ne_of_gt hpos)]
    cases limit <;> exact Iff.rfl

end PartialSum

namespace Domain

/-- A side that is violated is there: its limit is not infinite. -/
theorem lt_infinity_of_add_lt {limit x : Exact} {f : ℚ} (h : limit + number f < x) :
    limit < Scalar.infinity := by
  cases limit with
  | number _ | minus => rfl
  | plus => cases x <;> cases h
  | nan => cases h

theorem infinity_lt_of_lt_sub {limit x : Exact} {f : ℚ} (h : x < limit - number f) :
    -Scalar.infinity < limit := by
  cases limit with
  | number _ | plus => rfl
  | minus => cases x <;> cases h
  | nan => cases x <;> cases h

variable {d d' : Domain Exact} {R : Range} {reason : Reason} {f : ℚ}

/-- Over exact numbers the sum that is kept for a side tells whether the box violates it. -/
theorem Settled.exceeded_iff (h : d.Settled (.exact R)) (hfeastol : d.feastol = number f)
    {side : LinearSide Exact} (hside : d.sideBehind reason = some side) :
    d.Exceeded reason ↔ side.ViolatedOn (number f) d.values := by
  cases reason with
  | rowUpper r =>
      obtain ⟨row, hrow, rfl⟩ := Option.map_eq_some_iff.mp hside
      obtain ⟨activity, hactivity, hmin, -⟩ := h.coherent.rows r row hrow
      have htest : activity.min.exceeds row.upper d.feastol = true ↔
          (LinearSide.atMost row.entries row.upper).ViolatedOn (number f) d.values := by
        rw [hfeastol, PartialSum.exceeds_iff hmin.finite, hmin.valueOr_eq]
        rfl
      rw [← htest]
      constructor
      · rintro ⟨row', activity', hrow', hactivity', -, hexceeds⟩
        obtain rfl := Option.some.inj (hrow.symm.trans hrow')
        obtain rfl := Option.some.inj (hactivity.symm.trans hactivity')
        exact hexceeds
      · exact fun hexceeds =>
          ⟨row, activity, hrow, hactivity, lt_infinity_of_add_lt (htest.mp hexceeds), hexceeds⟩
  | rowLower r =>
      obtain ⟨row, hrow, rfl⟩ := Option.map_eq_some_iff.mp hside
      obtain ⟨activity, hactivity, -, hmax⟩ := h.coherent.rows r row hrow
      have htest : activity.max.fallsShort row.lower d.feastol = true ↔
          (LinearSide.atLeast row.entries row.lower).ViolatedOn (number f) d.values := by
        rw [hfeastol, PartialSum.fallsShort_iff hmax.finite, hmax.valueOr_eq]
        rfl
      rw [← htest]
      constructor
      · rintro ⟨row', activity', hrow', hactivity', -, hshort⟩
        obtain rfl := Option.some.inj (hrow.symm.trans hrow')
        obtain rfl := Option.some.inj (hactivity.symm.trans hactivity')
        exact hshort
      · exact fun hshort =>
          ⟨row, activity, hrow, hactivity, infinity_lt_of_lt_sub (htest.mp hshort), hshort⟩
  | cut i id =>
      obtain ⟨⟨cut, min⟩, hfound, rfl⟩ := Option.map_eq_some_iff.mp hside
      obtain ⟨p, hp, hknown⟩ := Option.bind_eq_some_iff.mp hfound
      have hmin := (h.coherent.cuts i p hp).tracks id cut min hknown
      have htest : min.exceeds cut.rhs d.feastol = true ↔
          (LinearSide.atMost cut.entries cut.rhs).ViolatedOn (number f) d.values := by
        rw [hfeastol, PartialSum.exceeds_iff hmin.finite, hmin.valueOr_eq]
        rfl
      rw [← htest]
      constructor
      · rintro ⟨p', cut', min', hp', hknown', hexceeds⟩
        obtain rfl := Option.some.inj (hp.symm.trans hp')
        cases hknown.symm.trans hknown'
        exact hexceeds
      · exact fun hexceeds => ⟨p, cut, min, hp, hknown, hexceeds⟩
  | _ => cases hside

/-- The length of the log up to which a domain is feasible. -/
def feasibleLength {α : Type} (d : Domain α) : Nat :=
  d.infeasible.elim d.log.size Infeasibility.position

/-- A side is violated over no box that a domain had before it became infeasible. -/
def Spares (d : Domain Exact) (side : LinearSide Exact) : Prop :=
  ∀ length ≤ d.feasibleLength, ¬side.ViolatedOn d.feastol (d.valuesBefore length)

instance {d : Domain Exact} {side : LinearSide Exact} : Decidable (d.Spares side) :=
  inferInstanceAs (Decidable (∀ length ≤ d.feasibleLength, _))

variable {side : LinearSide Exact}

theorem Spares.still (h : d.Spares side) (hstill : Still d d') : d'.Spares side := by
  have hlog : d'.log = d.log := congrArg Trail.log hstill.trail
  have hlength : d'.feasibleLength = d.feasibleLength := by
    rcases hstill.infeasible with hsame | ⟨hnone, reason, hfound⟩
    · rw [feasibleLength, hsame, hlog, feasibleLength]
    · rw [feasibleLength, hfound, feasibleLength, hnone]
      rfl
  intro length hle
  rw [hstill.feastol, valuesBefore, hstill.trail]
  exact h length (hlength ▸ hle)

/-- A domain that is taken back had its boxes before. -/
theorem Spares.backtrackTo (h : d.Spares side) (hlatched : d.LatchedAtEnd) {position : Nat}
    (hback : d.backtrackTo position = .ok d') : d'.Spares side := by
  rcases backtrackTo_eq_ok hback with ⟨-, rfl⟩ | ⟨hlt, -⟩
  · exact h
  obtain ⟨htrail, hinfeasible, hsetting⟩ := backtrackTo_trail hback hlt
  have hlog : d'.log.size = position := by
    rw [← trail_log, htrail, Trail.rewindTo_log, trail_log, Array.take_eq_extract,
      Array.size_extract]
    omega
  have hfeasible : d'.infeasible = none := by
    rw [hinfeasible, Option.filter_eq_none_iff]
    intro i hi hearly
    have hlate := hlatched i hi
    have hbefore : i.position < position := by simpa using hearly
    omega
  have hle : position ≤ d.feasibleLength := by
    rw [feasibleLength]
    cases hfound : d.infeasible with
    | none => exact hlt.le
    | some i =>
        have hlate := hlatched i hfound
        rw [Option.elim_some]
        omega
  intro length hlength
  rw [feasibleLength, hfeasible, Option.elim_none, hlog] at hlength
  rw [hsetting.feastol, valuesBefore, htrail, Trail.rewindTo_rewindTo _ hlength]
  exact h length (hlength.trans hle)

/-- A change that violates a side makes the domain infeasible at its own position. -/
theorem Spares.changeBound (h : d.Spares side) (hsettled : d.Settled (.exact R))
    (hsettled' : d'.Settled (.exact R)) (hfeastol : d.feastol = number f)
    (hdecisions : d.trail.DecisionsLogged) (hdecisions' : d'.trail.DecisionsLogged)
    (hside : d.sideBehind reason = some side) (hside' : d'.sideBehind reason = some side)
    {change : BoundChange Exact} {why : Reason} (hchange : d.changeBound change why = .ok d') :
    d'.Spares side := by
  rcases changeBound_trail hchange with rfl | ⟨hnone, value, previous, hprevious, hfollows⟩
  · exact h
  have hfeastol' : d'.feastol = d.feastol := (changeBound_sameSetting hchange).feastol
  have hlog : d'.log.size = d.log.size + 1 := by
    rw [hfollows.log]
    exact Array.size_push ..
  have hearlier : ∀ length ≤ d.log.size, d'.valuesBefore length = d.valuesBefore length := by
    intro length hle
    rw [valuesBefore, hfollows.trail, withTrail_trail, Trail.rewindTo_append _ _ _ _ _ hle,
      valuesBefore]
    rwa [trail_bounds]
  intro length hle
  rw [hfeastol']
  by_cases hold : length ≤ d.log.size
  · rw [hearlier length hold]
    refine h length ?_
    rwa [feasibleLength, hnone, Option.elim_none]
  · have hfeasible : d'.infeasible = none := by
      rcases hfollows.latched with hsame | ⟨-, reason, p, hp, hfound⟩
      · exact hsame.trans hnone
      · rw [feasibleLength, hfound, Option.elim_some, ← Option.some.inj hp] at hle
        exact absurd hle hold
    rw [feasibleLength, hfeasible, Option.elim_none] at hle
    obtain rfl : length = d'.log.size := by omega
    rw [valuesBefore_size hdecisions', hfeastol]
    intro hviolated
    have hexceeded := (hsettled'.exceeded_iff (hfeastol'.trans hfeastol) hside').mpr hviolated
    have hbefore := (hsettled.exceeded_iff hfeastol hside).mp
      ((changeBound_unnoticed hchange hfeasible).2 reason hexceeded)
    refine h d.log.size ?_ ?_
    · rw [feasibleLength, hnone, Option.elim_none]
    · rwa [valuesBefore_size hdecisions, hfeastol]

end Domain

namespace PropagationState

variable {α : Type}

/-- The cut that a reason names was known to the domain and is known no more. -/
def Dropped (s : PropagationState α) : Reason → Prop
  | .cut i id => ∃ p, s.domain.cutPropagations[i]? = some p ∧
      p.follower.Dropped (s.pools.cutLedger p.pool) id
  | _ => False

theorem sideBehind_cut {d : Domain α} {i : Nat} {id : CutId} {side : LinearSide α} :
    d.sideBehind (.cut i id) = some side ↔ ∃ p cut, d.cutPropagations[i]? = some p ∧
      p.follower.known id = some cut ∧ .atMost cut.entries cut.rhs = side := by
  simp only [Domain.sideBehind, CutPropagation.follower, Option.map_eq_some_iff,
    Option.bind_eq_some_iff]
  constructor
  · rintro ⟨known, ⟨p, hp, hknown⟩, rfl⟩
    exact ⟨p, known.1, hp, ⟨known, hknown, rfl⟩, rfl⟩
  · rintro ⟨p, cut, hp, ⟨known, hknown, rfl⟩, rfl⟩
    exact ⟨known, ⟨p, hp, hknown⟩, rfl⟩

/-- The corresponding one of two related arrays. -/
theorem forall₂_getElem?' {β : Type} {R : β → β → Prop} {xs ys : Array β}
    (h : List.Forall₂ R xs.toList ys.toList) {i : Nat} {x : β} (hx : xs[i]? = some x) :
    ∃ y, ys[i]? = some y ∧ R x y :=
  Domain.forall₂_getElem? (R := flip R) h.flip hx

variable {s s' : PropagationState α} {reason : Reason} {side : LinearSide α}

/-- Reading news a domain keeps the sides that it knows until it drops their cuts. -/
theorem sideBehind_updates (hbalanced : s.pools.Balanced) (hobserves : s.domain.Observes s.pools)
    (hupdates : Domain.Updates s.pools s.domain s'.domain) (hsame : s.pools.SameLedgers s'.pools)
    (hmodel : s'.domain.model = s.domain.model) (h : s.domain.sideBehind reason = some side) :
    s'.domain.sideBehind reason = some side ∨ s'.Dropped reason := by
  cases reason with
  | rowUpper r | rowLower r => exact .inl (by rwa [Domain.sideBehind, hmodel])
  | cut i id =>
      obtain ⟨p, cut, hp, hknown, hside⟩ := sideBehind_cut.mp h
      obtain ⟨p', hp', hread⟩ := forall₂_getElem?' hupdates.cuts hp
      have hpool : p'.pool = p.pool := hread.pool
      rcases hread.known_or_dropped (hbalanced.cuts _) (hobserves.cuts i p hp) hknown with
        hkept | hdropped
      · exact .inl (sideBehind_cut.mpr ⟨p', cut, hp', hkept, hside⟩)
      · exact .inr ⟨p', hp', by rwa [hpool, hsame.cuts]⟩
  | _ => cases h

theorem Dropped.updates (h : s.Dropped reason) (hbalanced : s.pools.Balanced)
    (hobserves : s.domain.Observes s.pools)
    (hupdates : Domain.Updates s.pools s.domain s'.domain) (hsame : s.pools.SameLedgers s'.pools) :
    s'.Dropped reason := by
  cases reason with
  | cut i id =>
      obtain ⟨p, hp, hdropped⟩ := h
      obtain ⟨p', hp', hread⟩ := forall₂_getElem?' hupdates.cuts hp
      have hpool : p'.pool = p.pool := hread.pool
      refine ⟨p', hp', ?_⟩
      rw [hpool, hsame.cuts]
      exact hdropped.updates (hbalanced.cuts _) (hobserves.cuts i p hp) hread
  | _ => exact h

/-- A dropped cut stays so if other pools are attached and events are posted. -/
theorem Dropped.posts (h : s.Dropped reason) (hbalanced : s.pools.Balanced)
    (hdevelops : s.pools.Develops s'.pools)
    (hcuts : ∀ (i : Nat) p, s.domain.cutPropagations[i]? = some p →
      s'.domain.cutPropagations[i]? = some p) : s'.Dropped reason := by
  cases reason with
  | cut i id =>
      obtain ⟨p, hp, hdropped⟩ := h
      exact ⟨p, hcuts i p hp, hdropped.develops (hbalanced.cuts _) (hdevelops.cuts _)⟩
  | _ => exact h

end PropagationState

namespace Domain

variable {α : Type} {d d' : Domain α}

/-- Moving bounds leaves the sides alone. -/
theorem Stirs.sideBehind (h : Stirs d d') (hmodel : d'.model = d.model) {reason : Reason}
    {side : LinearSide α} (hside : d.sideBehind reason = some side) :
    d'.sideBehind reason = some side := by
  cases reason with
  | rowUpper r | rowLower r => rwa [Domain.sideBehind, hmodel]
  | cut i id =>
      obtain ⟨p, cut, hp, hknown, hside⟩ := PropagationState.sideBehind_cut.mp hside
      obtain ⟨p', hp', hstirs⟩ := PropagationState.forall₂_getElem?' h.cuts hp
      refine PropagationState.sideBehind_cut.mpr ⟨p', cut, hp', ?_, hside⟩
      rwa [hstirs.toSameCuts.follower hstirs.occurrences]
  | _ => cases hside

end Domain

/-- A state whose domain knows a side and had no box that violates it, or has dropped its cut. -/
structure PropagationState.Sparing (f : ℚ) (reason : Reason) (side : LinearSide Exact)
    (s : PropagationState Exact) : Prop where
  settled : s.Settled (.exact .any)
  feastol : s.domain.feastol = number f
  latched : s.domain.LatchedAtEnd
  decisions : s.domain.trail.DecisionsLogged
  balanced : s.pools.Balanced
  observes : s.domain.Observes s.pools
  kept : (s.domain.sideBehind reason = some side ∧ s.domain.Spares side) ∨ s.Dropped reason

section Runs

variable {f : ℚ} {reason : Reason} {side : LinearSide Exact} {s s' : PropagationState Exact}
  {op : Operation Exact}

/-- Changes that violate a side make the domain infeasible. -/
theorem Domain.Spares.changeBounds {d d' : Domain Exact} (hsettled : d.Settled (.exact .any))
    (hfeastol : d.feastol = number f) (hdecisions : d.trail.DecisionsLogged)
    (hside : d.sideBehind reason = some side) (h : d.Spares side)
    {changes : List (BoundChange Exact × Reason)} (hvalues : ∀ x ∈ changes, x.1.value ≠ nan)
    (hchanges : d.changeBounds changes = .ok d') : d'.Spares side := by
  have hall := Domain.changeBounds_keeps (P := fun e => e.Settled (.exact .any) ∧
    e.feastol = number f ∧ e.trail.DecisionsLogged ∧ e.sideBehind reason = some side ∧
    e.Spares side) (fun e e' x hx he hchange => by
      obtain ⟨hsettled, hfeastol, hdecisions, hside, hspares⟩ := he
      have hsetting := Domain.changeBound_sameSetting hchange
      have hsettled' := (Domain.changeBound_settled hsettled (hvalues x hx) hchange).1
      have hdecisions' := Domain.Turn.decisionsLogged hdecisions (.change hchange)
      have hside' := (Domain.changeBound_stirs hchange).sideBehind hsetting.model hside
      exact ⟨hsettled', hsetting.feastol.trans hfeastol, hdecisions', hside',
        hspares.changeBound hsettled hsettled' hfeastol hdecisions hdecisions' hside hside'
          hchange⟩)
    hchanges ⟨hsettled, hfeastol, hdecisions, hside, h⟩
  exact hall.2.2.2.2

/-- An advance of propagation makes changes, or it leaves the box alone. -/
theorem PropagationState.Sparing.spares_advance (h : s.Sparing f reason side)
    (hside : s.domain.sideBehind reason = some side) (hspares : s.domain.Spares side)
    (hadvance : Advance s s') : s'.domain.Spares side := by
  cases hadvance with
  | requeue hrequeued =>
      exact hspares.still ⟨hrequeued.trail, hrequeued.setting.model, hrequeued.setting.feastol,
        .inl hrequeued.infeasible⟩
  | refresh hrefresh =>
      rw [Domain.refreshActivity_eq_ok hrefresh]
      exact hspares.still ⟨rfl, rfl, rfl, .inl rfl⟩
  | readCuts _ _ _ | readConflicts _ _ _ => exact hspares.still ⟨rfl, rfl, rfl, .inl rfl⟩
  | change changes hderived hchanges =>
      exact hspares.changeBounds h.settled.domain h.feastol h.decisions hside
        (fun x hx => Exact.derives_any _ _ _ _ h.settled.domain h.settled.literals rfl
          (hderived x hx)) hchanges
  | refute _ => exact hspares.still (Domain.markInfeasible_still ..)
  | renew _ => exact hspares

/-- Changes, backtracking and propagation keep what is said of a side. -/
theorem Operation.Stage.sparing (h : s.Sparing f reason side) (hbrings : op.Brings (.exact .any))
    (hstage : op.Stage s s') : s'.Sparing f reason side := by
  have hconstant := hstage.turns.constant
  have hcount := hstage.turns.columnCount
  refine ⟨hstage.settled hbrings (Exact.derives_any _) h.settled, hconstant.2.trans h.feastol,
    Domain.Turns.latchedAtEnd h.latched hstage.turns, hstage.turns.decisionsLogged h.decisions,
    h.balanced.develops hstage.develops, hstage.observes h.balanced h.observes, ?_⟩
  have hupdates : Domain.Updates s.pools s.domain s'.domain ∧ s.pools.SameLedgers s'.pools := by
    cases hstage with
    | change x hx hchange =>
        exact ⟨(Domain.changeBound_stirs hchange).updates _ hcount, .refl _⟩
    | back hback => exact ⟨(Domain.backtrackTo_stirs hback).updates _ hcount, .refl _⟩
    | advance _ hadvance => exact ⟨hadvance.updates, hadvance.sameLedgers⟩
  rcases h.kept with ⟨hside, hspares⟩ | hdropped
  · rcases PropagationState.sideBehind_updates h.balanced h.observes hupdates.1 hupdates.2
      hconstant.1 hside with hside' | hdropped
    · refine .inl ⟨hside', ?_⟩
      cases hstage with
      | @change pools d d' x hx hchange =>
          have hchanges : d.changeBounds [x] = .ok d' := by
            simpa [Domain.changeBounds] using hchange
          refine hspares.changeBounds h.settled.domain h.feastol h.decisions hside (fun y hy => ?_)
            hchanges
          rw [List.mem_singleton.mp hy]
          exact hbrings.change x hx
      | back hback => exact hspares.backtrackTo h.latched hback
      | advance _ hadvance => exact h.spares_advance hside hspares hadvance
    · exact .inr hdropped
  · exact .inr (hdropped.updates h.balanced h.observes hupdates.1 hupdates.2)

end Runs

/-- Pools that are attached stay attached under their positions. -/
theorem Domain.Adjusts.cutPropagations {α : Type} [Scalar α] {d d' : Domain α} (h : d.Adjusts d')
    {i : Nat} {p : CutPropagation α} (hp : d.cutPropagations[i]? = some p) :
    d'.cutPropagations[i]? = some p := by
  cases h with
  | same | attachConflicts _ | setCliques _ | setVariableBounds _ | clearMoved => exact hp
  | attachCuts pool =>
      have hlt := (Array.getElem?_eq_some_iff.mp hp).1
      exact (Array.getElem?_push_lt hlt).trans ((Array.getElem?_eq_getElem hlt).symm.trans hp)
  | markInfeasible reason => rwa [Domain.markInfeasible_eq]
  | setObjectiveCutoff cutoff => rwa [Domain.setObjectiveCutoff_eq]
  | setupObjective hd' => rwa [Domain.setupObjective_eq_ok hd']
  | refreshActivities hd' => rwa [Domain.refreshActivities_eq_ok hd']

section Runs

variable {f : ℚ} {reason : Reason} {side : LinearSide Exact} {s s' : PropagationState Exact}
  {op : Operation Exact}

theorem Operation.sparing (h : s.Sparing f reason side) (hbrings : op.Brings (.exact .any))
    (hperform : op.perform s = .ok s') : s'.Sparing f reason side := by
  cases hmoves : op.movesBounds with
  | true =>
      have hall : ∀ t, Relation.ReflTransGen op.Stage s t → t.Sparing f reason side := by
        intro t ht
        induction ht with
        | refl => exact h
        | tail _ hstage ih => exact hstage.sparing ih hbrings
      exact hall s' (stages hmoves hperform)
  | false =>
      have hturns := turns hperform
      have hstill := still hmoves hperform
      have hdevelops := develops hperform
      have hcuts : ∀ (i : Nat) p, s.domain.cutPropagations[i]? = some p →
          s'.domain.cutPropagations[i]? = some p := fun _ _ hp =>
        (adjusts hmoves hperform).cutPropagations hp
      refine ⟨settled (Exact.derives_any _) h.settled hbrings hperform,
        hstill.feastol.trans h.feastol, Domain.Turns.latchedAtEnd h.latched hturns,
        hturns.decisionsLogged h.decisions, h.balanced.develops hdevelops,
        observes h.balanced h.observes hperform, ?_⟩
      rcases h.kept with ⟨hside, hspares⟩ | hdropped
      · refine .inl ⟨?_, hspares.still hstill⟩
        cases reason with
        | rowUpper r | rowLower r => rwa [Domain.sideBehind, hstill.model]
        | cut i id =>
            obtain ⟨p, cut, hp, hknown, hsame⟩ := PropagationState.sideBehind_cut.mp hside
            exact PropagationState.sideBehind_cut.mpr ⟨p, cut, hcuts i p hp, hknown, hsame⟩
        | _ => cases hside
      · exact .inr (hdropped.posts h.balanced hdevelops hcuts)

end Runs

end BranchBound
