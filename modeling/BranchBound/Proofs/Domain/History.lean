import BranchBound.Proofs.Bound
import BranchBound.Proofs.Domain.SettledRuns

/-!
# How a trail came about

In every run the trail of a domain is the trail of its model with changes appended, whatever was
undone in between: undoing takes the last changes off again. So what every change keeps holds of the
trail in every state, and no proof about the past of a domain has to look at backtracking. Boxes
only shrink from one change to the next, and the box is not empty when a change is made.
-/

namespace BranchBound

open Checked

namespace Trail

variable {α : Type}

/-- The trails that come from a first one by appending changes which a relation allows. -/
inductive Built (allowed : Trail α → BoundChange α → Reason → Prop) (start : Trail α) :
    Trail α → Prop
  | start : Built allowed start start
  | append {t : Trail α} {change : BoundChange α} {reason : Reason} {previous : Bound α}
      (h : Built allowed start t)
      (hprevious : (t.bounds change.side)[change.column]? = some previous)
      (hallowed : allowed t change reason) : Built allowed start (t.append change reason previous)

/-- A trail without changes. -/
structure Fresh (t : Trail α) : Prop where
  log : t.log = #[]
  branchings : t.branchings = #[]

variable {allowed : Trail α → BoundChange α → Reason → Prop} {start t : Trail α}

theorem Built.decisionsLogged (hstart : start.Fresh) (h : Built allowed start t) :
    t.DecisionsLogged := by
  induction h with
  | start =>
      intro p hp
      rw [hstart.branchings] at hp
      simp at hp
  | append _ _ _ ih => exact decisionsLogged_append _ _ _ _ ih

theorem rewindTo_of_le (ht : t.DecisionsLogged) {p : Nat} (hp : t.log.size ≤ p) :
    t.rewindTo p = t := by
  have hdrop : t.log.toList.drop p = [] := by
    rw [List.drop_eq_nil_iff]
    simpa using hp
  have hlog : t.log.take p = t.log := by
    rw [Array.take_eq_extract, Array.extract_eq_self_iff]
    exact .inr ⟨rfl, hp⟩
  have hbranchings : t.branchings.filter (· < p) = t.branchings := by
    rw [Array.filter_eq_self]
    intro q hq
    simpa using Nat.lt_of_lt_of_le (ht q hq) hp
  rw [rewindTo, hdrop, List.reverse_nil, List.foldl_nil, cut, hlog, hbranchings]

/-- Rewinding takes off the last changes. -/
theorem Built.rewindTo (hstart : start.Fresh) (h : Built allowed start t) (p : Nat) :
    Built allowed start (t.rewindTo p) := by
  induction h with
  | start =>
      have hfirst : Built allowed start start := .start
      rw [rewindTo_of_le (hfirst.decisionsLogged hstart) (by simp [hstart.log])]
      exact hfirst
  | @append t change reason previous h hprevious hallowed ih =>
      by_cases hp : p ≤ t.log.size
      · rw [rewindTo_append t change reason previous hprevious hp]
        exact ih
      · have hall := h.append hprevious hallowed
        rw [rewindTo_of_le (hall.decisionsLogged hstart)]
        · exact hall
        · rw [append_log, Array.size_push]
          omega

/-- Rewinding everything leads to the start. -/
theorem Built.rewindTo_zero (hstart : start.Fresh) (h : Built allowed start t) :
    t.rewindTo 0 = start := by
  induction h with
  | start =>
      have hfirst : Built allowed start start := .start
      exact rewindTo_of_le (hfirst.decisionsLogged hstart) (by simp [hstart.log])
  | @append t change reason previous _ hprevious _ ih =>
      rw [rewindTo_append t change reason previous hprevious (Nat.zero_le _)]
      exact ih

/-- What is on record at a position was allowed in the trail before it. -/
theorem Built.allowed_of_log (hstart : start.Fresh) (h : Built allowed start t) {p : Nat}
    {entry : LogEntry α} (hentry : t.log[p]? = some entry) :
    allowed (t.rewindTo p) entry.change entry.reason := by
  induction h with
  | start => simp [hstart.log] at hentry
  | @append t change reason previous h hprevious hallowed ih =>
      have hp := (Array.getElem?_eq_some_iff.mp hentry).1
      rw [append_log, Array.size_push] at hp
      rw [rewindTo_append t change reason previous hprevious (Nat.le_of_lt_succ hp)]
      rw [append_log] at hentry
      rcases Nat.lt_or_eq_of_le (Nat.le_of_lt_succ hp) with hlt | rfl
      · rw [Array.getElem?_push_lt hlt, ← Array.getElem?_eq_getElem hlt] at hentry
        exact ih hentry
      · rw [Array.getElem?_push_size, Option.some.injEq] at hentry
        rw [rewindTo_size t (h.decisionsLogged hstart), ← hentry]
        exact hallowed

/-- What holds of every trail to which a change was appended holds of every trail before the
present one. -/
theorem Built.of_rewindTo (hstart : start.Fresh) {P : Trail α → Prop}
    (hallows : ∀ t change reason, allowed t change reason → P t) (h : Built allowed start t)
    {p : Nat} (hp : p < t.log.size) : P (t.rewindTo p) :=
  hallows _ _ _ (h.allowed_of_log hstart (Array.getElem?_eq_getElem hp))

/-- What a trail came about by is also allowed by a weaker relation. -/
theorem Built.mono {allowed' : Trail α → BoundChange α → Reason → Prop}
    (hweaker : ∀ t change reason, allowed t change reason → allowed' t change reason)
    (h : Built allowed start t) : Built allowed' start t := by
  induction h with
  | start => exact .start
  | append _ hprevious hallowed ih => exact ih.append hprevious (hweaker _ _ _ hallowed)

/-- The trail of a model: its bounds, and no changes. -/
def ofModel (model : Model α) : Trail α :=
  { lower := model.columns.map fun column => ⟨column.lower, none⟩
    upper := model.columns.map fun column => ⟨column.upper, none⟩
    log := #[]
    branchings := #[] }

theorem fresh_ofModel (model : Model α) : (ofModel model).Fresh := ⟨rfl, rfl⟩

theorem bounds_ofModel_size (model : Model α) (side : Side) :
    ((ofModel model).bounds side).size = model.columns.size := by
  cases side <;> simp [bounds, ofModel]

/-- No entry set the bounds of a model. -/
def Pristine (t : Trail α) : Prop :=
  ∀ (side : Side) (c : ColumnId) b, (t.bounds side)[c]? = some b → b.position = none

theorem pristine_ofModel (model : Model α) : (ofModel model).Pristine := by
  intro side c b hb
  cases side <;>
    · simp only [bounds, ofModel, Array.getElem?_map, Option.map_eq_some_iff] at hb
      obtain ⟨column, -, rfl⟩ := hb
      rfl

variable [Scalar α]

/-- The values of the bounds of a trail. -/
def values (t : Trail α) : BoundValues α := fun side c => (t.bounds side)[c]?.elim 0 Bound.value

theorem values_append {change : BoundChange α} {reason : Reason} {previous : Bound α}
    (hprevious : (t.bounds change.side)[change.column]? = some previous) :
    (t.append change reason previous).values =
      t.values.set change.side change.column change.value := by
  have hlt := (Array.getElem?_eq_some_iff.mp hprevious).1
  funext side c
  by_cases hset : side = change.side ∧ c = change.column
  · obtain ⟨rfl, rfl⟩ := hset
    rw [values, append_bounds, Array.getElem?_setIfInBounds_self_of_lt hlt, BoundValues.set_self,
      Option.elim_some]
  · rw [values, append_bounds_of_ne t hset, BoundValues.set_of_ne _ _ hset, values]

end Trail

namespace Domain

variable {α : Type} [Scalar α]

theorem trail_values (d : Domain α) : d.trail.values = d.values := by
  funext side c
  rw [Trail.values, values, trail_bounds]

theorem ofModel_trail {model : Model α} {feastol : α} {d : Domain α}
    (h : ofModel model feastol = .ok d) : d.trail = .ofModel model := by
  unfold ofModel at h
  rw [refreshActivities_eq_ok h]
  rfl

end Domain

/-- What holds at the start, and is kept by the changes, backtracks and advances of operations and
by all other operations in settled states, holds in every reachable state. -/
theorem Reachable.settled_induction {α : Type} [Scalar α] {T : Tracking α} {model : Model α}
    (hT : T.Derives model) {permitted : PropagationState α → Operation α → Prop}
    (hpermitted : ∀ s op, permitted s op → op.Brings T) (hmodel : model.WellFormed)
    (hread : Domain.Readable T model) {feastol : α} {P : PropagationState α → Prop}
    (hstart : ∀ d, Domain.ofModel model feastol = .ok d → P ⟨.empty, d⟩)
    (hstage : ∀ (op : Operation α) s s', (∃ t, permitted t op) → s.Settled T →
      s.domain.model = model → s.domain.feastol = feastol → P s → op.Stage s s' → P s')
    (hother : ∀ (op : Operation α) s s', permitted s op → s.Settled T → s.domain.model = model →
      s.domain.feastol = feastol → P s → op.movesBounds = false → op.perform s = .ok s' → P s')
    {s : PropagationState α} (h : Reachable permitted model feastol s) : P s := by
  induction h with
  | start hd => exact hstart _ hd
  | @step s s' op hbefore hop hperform ih =>
      have hsettled := hbefore.settled hT hpermitted hmodel hread
      obtain ⟨hsame, hfeastol⟩ := hbefore.constant
      cases hmoves : op.movesBounds with
      | false => exact hother op s s' hop hsettled hsame hfeastol ih hmoves hperform
      | true =>
          have hbrings := hpermitted s op hop
          have hall : ∀ t, Relation.ReflTransGen op.Stage s t →
              P t ∧ t.Settled T ∧ t.domain.model = model ∧ t.domain.feastol = feastol := by
            intro t ht
            induction ht with
            | refl => exact ⟨ih, hsettled, hsame, hfeastol⟩
            | tail _ hlast ih =>
                obtain ⟨hP, hsettled, hsame, hfeastol⟩ := ih
                obtain ⟨hmodel', hfeastol'⟩ := hlast.turns.constant
                exact ⟨hstage op _ _ ⟨s, hop⟩ hsettled hsame hfeastol hP hlast,
                  hlast.settled hbrings (hsame.symm ▸ hT) hsettled, hmodel'.trans hsame,
                  hfeastol'.trans hfeastol⟩
          exact (hall s' (Operation.stages hmoves hperform)).1

namespace Trail

variable {α : Type} [Scalar α] {columnCount : Nat} {start t : Trail α}

/-- The box is not empty in the first columns. -/
def Ordered (columnCount : Nat) (t : Trail α) : Prop :=
  ∀ c, c < columnCount → t.values .lower c ≤ t.values .upper c

/-- A change of a box that is not empty to a bound at least as tight; only a decision may repeat a
bound. -/
structure Shrinks (columnCount : Nat) (t : Trail α) (change : BoundChange α)
    (reason : Reason) : Prop where
  ordered : t.Ordered columnCount
  tight : change.side.tightOrEqual change.value (t.values change.side change.column) = true
  tighter : reason ≠ .branching →
    change.side.tighter change.value (t.values change.side change.column) = true

/-- The values of the bounds are numbers, and no bound is less tight than it was at first or than
a change that was made. -/
structure Shrunk (start t : Trail α) : Prop where
  number : ∀ side c, Scalar.isNaN (t.values side c) = false
  within : ∀ (side : Side) c, side.tightOrEqual (t.values side c) (start.values side c) = true
  logged : ∀ entry ∈ t.log, entry.change.side.tightOrEqual
    (t.values entry.change.side entry.change.column) entry.change.value = true

variable [Scalar.LinearlyOrdered α]

/-- Setting a bound to one that is at least as tight makes no bound less tight. -/
theorem tightOrEqual_set {β : BoundValues α} (hβ : ∀ side c, Scalar.isNaN (β side c) = false)
    {side : Side} {c : ColumnId} {v : α} (hv : side.tightOrEqual v (β side c) = true) (side' : Side)
    (c' : ColumnId) : side'.tightOrEqual (β.set side c v side' c') (β side' c') = true := by
  by_cases hset : side' = side ∧ c' = c
  · obtain ⟨rfl, rfl⟩ := hset
    rw [BoundValues.set_self]
    exact hv
  · rw [BoundValues.set_of_ne _ _ hset]
    exact Side.tightOrEqual_refl _ (hβ side' c')

theorem Built.shrunk (hstart : start.Fresh)
    (hnumber : ∀ side c, Scalar.isNaN (start.values side c) = false)
    (h : Built (Shrinks columnCount) start t) : Shrunk start t := by
  induction h with
  | start =>
      refine ⟨hnumber, fun side c => Side.tightOrEqual_refl side (hnumber side c),
        fun entry hentry => ?_⟩
      rw [hstart.log] at hentry
      simp at hentry
  | @append t change reason previous h hprevious hallowed ih =>
      have hkeeps := tightOrEqual_set ih.number hallowed.tight
      refine ⟨fun side c => ?_, fun side c => ?_, fun entry hentry => ?_⟩
      · rw [values_append hprevious]
        exact (Side.number_of_tightOrEqual (hkeeps side c)).1
      · rw [values_append hprevious]
        exact Side.tightOrEqual_trans (hkeeps side c) (ih.within side c)
      · rw [values_append hprevious]
        rw [append_log, Array.mem_push] at hentry
        rcases hentry with hentry | rfl
        · exact Side.tightOrEqual_trans (hkeeps _ _) (ih.logged entry hentry)
        · rw [BoundValues.set_self]
          exact Side.tightOrEqual_refl _ (Side.number_of_tightOrEqual hallowed.tight).1

/-- No bound was tighter before. -/
theorem Built.tightOrEqual_rewindTo (hstart : start.Fresh)
    (hnumber : ∀ side c, Scalar.isNaN (start.values side c) = false)
    (h : Built (Shrinks columnCount) start t) (p : Nat) (side : Side) (c : ColumnId) :
    side.tightOrEqual (t.values side c) ((t.rewindTo p).values side c) = true := by
  have hkept {t : Trail α} (h : Built (Shrinks columnCount) start t) (hp : t.log.size ≤ p) :
      side.tightOrEqual (t.values side c) ((t.rewindTo p).values side c) = true := by
    rw [rewindTo_of_le (h.decisionsLogged hstart) hp]
    exact Side.tightOrEqual_refl side ((h.shrunk hstart hnumber).number side c)
  induction h with
  | start => exact hkept .start (by simp [hstart.log])
  | @append t change reason previous h hprevious hallowed ih =>
      by_cases hp : p ≤ t.log.size
      · rw [rewindTo_append t change reason previous hprevious hp, values_append hprevious]
        exact Side.tightOrEqual_trans
          (tightOrEqual_set (h.shrunk hstart hnumber).number hallowed.tight side c) ih
      · refine hkept (h.append hprevious hallowed) ?_
        rw [append_log, Array.size_push]
        omega

end Trail

end BranchBound
