import BranchBound.Model.Draft
import BranchBound.Proofs.Domain.FixedPoint
import BranchBound.Proofs.Domain.PooledLiterals
import BranchBound.Proofs.Number.Double

/-!
# Propagation makes progress

Whatever propagation derives, it only makes bounds tighter: every change that it appends to the log
replaces a bound by a strictly tighter one. A round after which there is to be another one has
appended a change, because rows wait again only for changes. Of finitely many numbers only finitely
many are tighter than a bound, so the rounds come to an end, also where nothing limits the bounds
that the constraints imply. Nothing is used of the numbers but their order and where calculations
give a number, so all of this holds for floating point numbers.
-/

namespace BranchBound

open Checked

variable {α : Type} [Scalar α]

namespace Trail

variable {start t u : Trail α}

/-- A change that replaces a bound by a strictly tighter one, and is not a decision. -/
structure Improves (t : Trail α) (change : BoundChange α) (reason : Reason) : Prop where
  derived : reason ≠ .branching
  tighter : change.side.tighter change.value (t.values change.side change.column) = true

/-- A trail comes from another one by changes that make bounds strictly tighter. -/
abbrev Improved (start t : Trail α) : Prop := Built Improves start t

omit [Scalar α] in
theorem Built.trans {allowed : Trail α → BoundChange α → Reason → Prop}
    (h : Built allowed start t) (h' : Built allowed t u) : Built allowed start u := by
  induction h' with
  | start => exact h
  | append _ hprevious hallowed ih => exact ih.append hprevious hallowed

/-- The numbers by which a bound of a column could still be replaced on a side. -/
def tighterThan (t : Trail α) (side : Side) (c : ColumnId) : Set α :=
  { v | side.tighter v (t.values side c) = true }

theorem mem_tighterThan {side : Side} {c : ColumnId} {v : α} :
    v ∈ t.tighterThan side c ↔ side.tighter v (t.values side c) = true := Iff.rfl

/-- How often the bounds of a side could be replaced by tighter ones, at most. -/
noncomputable def roomOn (t : Trail α) (side : Side) : Nat :=
  ∑ c ∈ Finset.range (t.bounds side).size, (t.tighterThan side c).ncard

/-- How often the bounds could be replaced by tighter ones, at most. -/
noncomputable def room (t : Trail α) : Nat := t.roomOn .lower + t.roomOn .upper

variable [Scalar.LinearlyOrdered α]

theorem Improved.number (h : Improved start t)
    (hstart : ∀ side c, Scalar.isNaN (start.values side c) = false) (side : Side) (c : ColumnId) :
    Scalar.isNaN (t.values side c) = false := by
  induction h generalizing side c with
  | start => exact hstart side c
  | @append t change reason previous _ hprevious himproves ih =>
      rw [values_append hprevious]
      by_cases hset : side = change.side ∧ c = change.column
      · obtain ⟨rfl, rfl⟩ := hset
        rw [BoundValues.set_self]
        exact (Side.number_of_tighter himproves.tighter).1
      · rw [BoundValues.set_of_ne _ _ hset]
        exact ih side c

section Append

variable {change : BoundChange α} {reason : Reason} {previous : Bound α}
  (hprevious : (t.bounds change.side)[change.column]? = some previous)
  (himproves : Improves t change reason)

include hprevious himproves

/-- What is tighter than a bound that was improved was tighter than it before. -/
theorem Improves.tighterThan_subset (side : Side) (c : ColumnId) :
    (t.append change reason previous).tighterThan side c ⊆ t.tighterThan side c := by
  intro v hv
  rw [mem_tighterThan, values_append hprevious] at hv
  by_cases hset : side = change.side ∧ c = change.column
  · obtain ⟨rfl, rfl⟩ := hset
    rw [BoundValues.set_self] at hv
    exact Side.tighter_trans hv himproves.tighter
  · rw [BoundValues.set_of_ne _ _ hset] at hv
    exact hv

theorem Improves.tighterThan_ssubset : (t.append change reason previous).tighterThan change.side
    change.column ⊂ t.tighterThan change.side change.column := by
  refine (himproves.tighterThan_subset hprevious _ _).ssubset_of_mem_notMem himproves.tighter ?_
  rw [mem_tighterThan, values_append hprevious, BoundValues.set_self, Side.tighter_irrefl]
  exact Bool.false_ne_true

theorem Improves.room_lt [Finite α] : (t.append change reason previous).room < t.room := by
  have hsize (side : Side) :
      ((t.append change reason previous).bounds side).size = (t.bounds side).size :=
    Built.bounds_size (Built.start.append hprevious himproves) side
  have hle (side : Side) : (t.append change reason previous).roomOn side ≤ t.roomOn side := by
    rw [roomOn, hsize]
    exact Finset.sum_le_sum fun c _ => Set.ncard_le_ncard
      (himproves.tighterThan_subset hprevious side c)
  have hlt : (t.append change reason previous).roomOn change.side < t.roomOn change.side := by
    rw [roomOn, hsize]
    refine Finset.sum_lt_sum
      (fun c _ => Set.ncard_le_ncard (himproves.tighterThan_subset hprevious change.side c))
      ⟨change.column, ?_, Set.ncard_lt_ncard (himproves.tighterThan_ssubset hprevious)⟩
    exact Finset.mem_range.mpr (Array.getElem?_eq_some_iff.mp hprevious).1
  have hlower := hle .lower
  have hupper := hle .upper
  unfold room
  cases hside : change.side with
  | lower =>
      rw [hside] at hlt
      omega
  | upper =>
      rw [hside] at hlt
      omega

end Append

/-- As many changes as were appended, as much less room is left. -/
theorem Improved.room_add_le [Finite α] (h : Improved start t) :
    t.room + t.log.size ≤ start.room + start.log.size := by
  induction h with
  | start => exact le_rfl
  | @append t change reason previous _ hprevious himproves ih =>
      have hroom := himproves.room_lt hprevious
      rw [append_log, Array.size_push]
      omega

omit [Scalar.LinearlyOrdered α] in
/-- Every entry that the log gained is no decision, and replaced a bound by a strictly tighter
one. -/
theorem Improved.entries (h : Improved start t) :
    ∃ entries, t.log.toList = start.log.toList ++ entries ∧ ∀ e ∈ entries, e.reason ≠ .branching ∧
      e.change.side.tighter e.change.value e.previous.value = true := by
  induction h with
  | start => exact ⟨[], by simp, by simp⟩
  | @append t change reason previous _ hprevious himproves ih =>
      obtain ⟨entries, hlog, hentries⟩ := ih
      refine ⟨entries ++ [⟨change, reason, previous⟩], ?_, ?_⟩
      · rw [append_log, Array.toList_push, hlog, List.append_assoc]
      · refine List.forall_mem_append.mpr ⟨hentries, List.forall_mem_singleton.mpr
          ⟨himproves.derived, ?_⟩⟩
        rw [← values_eq hprevious]
        exact himproves.tighter

end Trail

namespace Domain

variable {d d' : Domain α} {change : BoundChange α} {reason : Reason}

/-- No constraint gives the reason of a decision. -/
theorem Derived.reason_ne (h : d.Derived change reason) : reason ≠ .branching := by
  cases h with
  | implication _ _ himplied hmem _ =>
      rcases mem_impliedByFixing himplied hmem with ⟨_, _, _, -, -, -, heq⟩
        | ⟨_, _, _, -, -, -, heq⟩
      · cases heq
        exact Reason.noConfusion
      · cases heq
        exact Reason.noConfusion
  | rowUpper _ _ _ _ _ | rowLower _ _ _ _ _ | cut _ _ _ _ | conflict _ _ _ _ | objective _ _ _ _
  | partition _ _ _ _ _ => exact Reason.noConfusion

variable [Scalar.LinearlyOrdered α]

/-- A change to a number that is not a decision makes a bound tighter, or nothing happens. -/
theorem changeBound_improved (hnumbers : ∀ side c, Scalar.isNaN (d.values side c) = false)
    (hvalue : Scalar.isNaN change.value = false) (hreason : reason ≠ .branching)
    (h : d.changeBound change reason = .ok d') : d.trail.Improved d'.trail := by
  rcases changeBound_eq_ok h with ⟨-, rfl⟩ |
    ⟨-, current, opposite, hcurrent, hopposite, ⟨-, rfl⟩ | ⟨accepted, crossing, haccepted, happly⟩⟩
  · exact .start
  · exact .start
  obtain ⟨previous, hprevious, hfollows⟩ := applyChange_trail happly
  have htrail : d'.trail = _ := hfollows.trail
  rw [withTrail_trail] at htrail
  have hkind : (reason == .branching) = false := beq_eq_false_iff_ne.mpr hreason
  rw [← values_eq hcurrent, ← values_eq hopposite, hkind] at haccepted
  rw [htrail]
  refine Trail.Built.start.append (by rwa [trail_bounds]) ⟨hreason, ?_⟩
  rw [trail_values]
  exact acceptedValue_tighter (hnumbers _ _) (hnumbers _ _) hvalue haccepted

end Domain

/-- All bounds and the literals of all conflicts are numbers. -/
structure PropagationState.Numeric (s : PropagationState α) : Prop where
  values : ∀ side c, Scalar.isNaN (s.domain.values side c) = false
  literals : s.LiteralsAre fun l => Scalar.isNaN l.value = false

section Rounds

variable [Scalar.Calculable α] {s s' t u : PropagationState α}

/-- One advance of propagation makes bounds tighter, or leaves them as they are. -/
theorem Advance.improved (h : s.Numeric) (hadvance : Advance s s') :
    s.domain.trail.Improved s'.domain.trail := by
  cases hadvance with
  | requeue hrequeued =>
      rw [hrequeued.trail]
      exact .start
  | refresh hrefresh =>
      rw [Domain.refreshActivity_eq_ok hrefresh]
      exact .start
  | readCuts _ _ _ _ | readConflicts _ _ _ _ | renew _ => exact .start
  | refute _ =>
      rw [Domain.markInfeasible_eq]
      exact .start
  | @change pools d d' changes hderived hchanges =>
      refine Domain.changeBounds_keeps (P := fun e => d.trail.Improved e.trail)
        (fun e e' x hx he hchange => ?_) hchanges .start
      have hnumbers (side : Side) (c : ColumnId) : Scalar.isNaN (e.values side c) = false := by
        rw [← Domain.trail_values]
        refine he.number (fun side c => ?_) side c
        rw [Domain.trail_values]
        exact h.values side c
      exact he.trans (Domain.changeBound_improved hnumbers
        ((hderived x hx).number h.literals.domain) (hderived x hx).reason_ne hchange)

theorem Advance.numeric (h : s.Numeric) (hadvance : Advance s s') : s'.Numeric := by
  refine ⟨fun side c => ?_, hadvance.literalsAre h.literals⟩
  rw [← Domain.trail_values]
  refine (hadvance.improved h).number (fun side c => ?_) side c
  rw [Domain.trail_values]
  exact h.values side c

/-- Propagation only makes bounds tighter. -/
theorem Advances.improved (h : s.Numeric) (hadvances : Advances s s') :
    s'.Numeric ∧ s.domain.trail.Improved s'.domain.trail := by
  induction hadvances with
  | refl => exact ⟨h, .start⟩
  | tail _ hlast ih => exact ⟨hlast.numeric ih.1, ih.2.trans (hlast.improved ih.1)⟩

namespace PropagationStep

/-- The states after the rounds of propagation that are followed by another one. -/
abbrev Rounds : PropagationState α → PropagationState α → Prop :=
  Relation.ReflTransGen fun s s' => nextRound s = .inl s'

theorem Rounds.improved (h : s.Numeric) (hrounds : Rounds s t) :
    t.Numeric ∧ s.domain.trail.Improved t.domain.trail := by
  induction hrounds with
  | refl => exact ⟨h, .start⟩
  | tail _ hlast ih =>
      have hround := propagateRound_related advances_stages (nextRound_eq_inl hlast).2
      have hstep := Advances.improved ih.1 hround
      exact ⟨hstep.1, ih.2.trans hstep.2⟩

/-- Among finitely many numbers the rounds come to an end. -/
theorem exists_last_round [Finite α] (h : s.Numeric) :
    ∃ last result, Rounds s last ∧ nextRound last = .inr result ∧ outcome? s = some result := by
  have hnext : ∀ t u, Rounds s t → nextRound t = .inl u →
      Rounds s u ∧ u.domain.trail.room < t.domain.trail.room := by
    intro t u hrounds hnext
    have hnumeric := (Rounds.improved h hrounds).1
    have himproved := (Rounds.improved hnumeric (.single hnext)).2
    have hroom := himproved.room_add_le
    have hlog := log_lt_of_nextRound hnext
    simp only [Domain.trail_log] at hroom
    exact ⟨hrounds.tail hnext, by omega⟩
  obtain ⟨result, hresult, last, hrounds, hlast⟩ := iterate?_isSome
    (Q := fun result => ∃ last, Rounds s last ∧ nextRound last = .inr result)
    (fun t => t.domain.trail.room) (fun t result hrounds hend => ⟨t, hrounds, hend⟩) hnext
    (s := s) .refl
  exact ⟨last, result, hrounds, hlast, hresult⟩

end PropagationStep

end Rounds

/-- All bounds that a domain holds are numbers. -/
theorem Domain.values_number [Scalar.LinearlyOrdered α] {d : Domain α}
    (h : ∀ side, ∀ b ∈ d.bounds side, Scalar.isNaN b.value = false) (side : Side) (c : ColumnId) :
    Scalar.isNaN (d.values side c) = false := by
  unfold values
  cases hbound : (d.bounds side)[c]? with
  | none => exact Scalar.LinearlyOrdered.number_zero
  | some b => exact h side b (Array.mem_of_getElem? hbound)

namespace PropagationStep

/-- **Propagation makes progress in every round, and ends.** Take any domain whose bounds are
doubles that are numbers, as are the literals of the conflicts that it knows or can read. Every
round that is followed by another one has appended a change to the log. So after finitely many
rounds there is one that ends propagation, whatever the constraints are. Every change that
propagation has appended by then, and those of every round before, is no decision and replaced the
bound in force by a strictly tighter one; there are no more of them than the doubles leave room
for. -/
theorem propagation_progresses {s : PropagationState Float} (h : s.Numeric) :
    (∀ t u, Rounds s t → nextRound t = .inl u →
      t.domain.log.size < u.domain.log.size ∧ t.domain.trail.Improved u.domain.trail) ∧
    (∃ last result, Rounds s last ∧ nextRound last = .inr result ∧ outcome? s = some result) ∧
    ∀ pools d, s.domain.propagate s.pools = .ok (pools, d) →
      s.domain.trail.Improved d.trail ∧
      d.trail.room + d.log.size ≤ s.domain.trail.room + s.domain.log.size ∧
      ∃ entries, d.log.toList = s.domain.log.toList ++ entries ∧ ∀ e ∈ entries,
        e.reason ≠ .branching ∧ e.change.side.tighter e.change.value e.previous.value = true := by
  refine ⟨fun t u hrounds hnext => ⟨log_lt_of_nextRound hnext, ?_⟩, exists_last_round h,
    fun pools d hpropagate => ?_⟩
  · exact (Rounds.improved (Rounds.improved h hrounds).1 (.single hnext)).2
  · have himproved := (Advances.improved h (Domain.propagate_advances hpropagate)).2
    exact ⟨himproved, himproved.room_add_le, himproved.entries⟩

/-- Two integer columns without upper bounds, each of which has to exceed the other one. -/
def spiral : Draft Float :=
  ⟨#[⟨0, 0, Scalar.infinity, .integer⟩, ⟨0, 0, Scalar.infinity, .integer⟩],
    #[⟨1, Scalar.infinity, [(0, 1), (1, -1)]⟩, ⟨1, Scalar.infinity, [(0, -1), (1, 1)]⟩], 0⟩

/-- Each round raises a bound by one or two, and still they come to an end. -/
theorem spiral_ends :
    ∃ (model : Model Float) (s t u : PropagationState Float), spiral.build = .ok model ∧
      Domain.ofModel model 1e-6 = .ok s.domain ∧ s.Numeric ∧
      nextRound s = .inl t ∧ nextRound t = .inl u ∧
      s.domain.log.size < t.domain.log.size ∧ t.domain.log.size < u.domain.log.size ∧
      (outcome? s).isSome := by
  have hrun : passes spiral.build (fun model => passes (Domain.ofModel model 1e-6) fun d =>
      d.lower.all (fun b => !Scalar.isNaN b.value) && d.upper.all
        (fun b => !Scalar.isNaN b.value) &&
        d.conflictPropagations.isEmpty &&
        match nextRound ⟨.empty, d⟩ with
        | .inl t => (nextRound t).isLeft
        | .inr _ => false) = true := by
    decide +kernel
  obtain ⟨model, hmodel, hrun⟩ := passes_eq_true.mp hrun
  obtain ⟨d, hd, hrun⟩ := passes_eq_true.mp hrun
  simp only [Bool.and_eq_true, Array.all_eq_true_iff_forall_mem, Bool.not_eq_true',
    Array.isEmpty_iff] at hrun
  obtain ⟨⟨⟨hlower, hupper⟩, hconflicts⟩, hrounds⟩ := hrun
  have hnumeric : (⟨.empty, d⟩ : PropagationState Float).Numeric := by
    refine ⟨Domain.values_number fun side => ?_, fun i pool id literals hpool => ?_,
      fun i p id literals hp => ?_⟩
    · cases side with
      | lower => exact hlower
      | upper => exact hupper
    · simp [Pools.empty] at hpool
    · simp [hconflicts] at hp
  cases ht : nextRound (⟨.empty, d⟩ : PropagationState Float) with
  | inr _ =>
      rw [ht] at hrounds
      cases hrounds
  | inl t =>
      rw [ht] at hrounds
      obtain ⟨u, hu⟩ := Sum.isLeft_iff.mp hrounds
      obtain ⟨hprogress, ⟨_, result, -, -, hresult⟩, -⟩ := propagation_progresses hnumeric
      refine ⟨model, ⟨.empty, d⟩, t, u, hmodel, hd, hnumeric, ht, hu, (hprogress _ _ .refl ht).1,
        (hprogress _ _ (.single ht) hu).1, ?_⟩
      rw [hresult]
      rfl

end PropagationStep

end BranchBound
