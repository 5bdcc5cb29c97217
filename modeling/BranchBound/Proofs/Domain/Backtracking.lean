import BranchBound.Proofs.Domain.SettledRuns
import BranchBound.Proofs.Number.Exact

/-!
# Backtracking is the inverse of every change

The record of a run keeps the trail that the domain had right before each entry of the log was
appended; backtracking shortens it. Whatever the run was, backtracking to a position leads to the
recorded trail of that position, and the domain is not infeasible afterwards.
-/

namespace BranchBound

open Checked

variable {α : Type} [Scalar α]

namespace Domain

/-- How the record of the trails before the entries of the log goes on while a domain changes. -/
inductive Records : List (Trail α) × Domain α → List (Trail α) × Domain α → Prop
  /-- A change appended an entry: the trail before it is recorded. -/
  | append {past : List (Trail α)} {d d' : Domain α} {change : BoundChange α} {reason : Reason}
      (h : d.changeBound change reason = .ok d') (hlonger : d.log.size < d'.log.size) :
      Records (past, d) (past ++ [d.trail], d')
  /-- Backtracking took the entries from a position onwards off the log. -/
  | back {past : List (Trail α)} {d d' : Domain α} {position : Nat}
      (h : d.backtrackTo position = .ok d') : Records (past, d) (past.take position, d')
  /-- The trail stayed as it was. -/
  | keep {past : List (Trail α)} {d d' : Domain α} (h : d'.trail = d.trail) :
      Records (past, d) (past, d')

end Domain

/-- The states that a domain of a model reaches by any operations, with the record of the trails
before the entries of its log. -/
inductive Recorded (model : Model α) (feastol : α) : List (Trail α) → PropagationState α → Prop
  | start {d : Domain α} (h : Domain.ofModel model feastol = .ok d) :
      Recorded model feastol [] ⟨.empty, d⟩
  | step {past past' : List (Trail α)} {s s' : PropagationState α} {op : Operation α}
      (h : Recorded model feastol past s) (hperform : op.perform s = .ok s')
      (hrecords : Relation.ReflTransGen Domain.Records (past, s.domain) (past', s'.domain)) :
      Recorded model feastol past' s'

namespace Domain

variable {d d' : Domain α}

/-- A feasible domain has no infeasibility on record that backtracking could leave behind. -/
def LatchedAtEnd (d : Domain α) : Prop :=
  ∀ i, d.infeasible = some i → d.log.size ≤ i.position + 1

theorem Turn.latchedAtEnd (h : d.LatchedAtEnd) (hturn : Turn d d') : d'.LatchedAtEnd := by
  intro i hi
  cases hturn with
  | keep hstill =>
      have hlog : d'.log = d.log := congrArg Trail.log hstill.trail
      rw [hlog]
      rcases hstill.infeasible with hsame | ⟨-, reason, hfound⟩
      · exact h i (hsame ▸ hi)
      · obtain rfl := Option.some.inj (hfound.symm.trans hi)
        exact Nat.le_succ _
  | change hchange =>
      rcases changeBound_trail hchange with rfl | ⟨hnone, value, previous, -, hfollows⟩
      · exact h i hi
      · have hlog : d'.log = d.log.push _ := hfollows.log
        rw [hlog, Array.size_push]
        rcases hfollows.latched with hsame | ⟨-, reason, p, hp, hfound⟩
        · have hstill : d'.infeasible = d.infeasible := hsame
          rw [hstill, hnone] at hi
          cases hi
        · obtain rfl := Option.some.inj (hfound.symm.trans hi)
          obtain rfl := Option.some.inj hp
          exact Nat.le_refl _
  | @back position hback =>
      by_cases hp : position < d.log.size
      · obtain ⟨-, hinfeasible, -⟩ := backtrackTo_trail hback hp
        rw [hinfeasible, Option.filter_eq_some_iff] at hi
        have hlate := h i hi.1
        have hearly : i.position < position := by simpa using hi.2
        omega
      · rcases backtrackTo_eq_ok hback with ⟨-, rfl⟩ | ⟨hlt, -⟩
        · exact h i hi
        · exact absurd hlt hp

theorem Turns.latchedAtEnd (h : d.LatchedAtEnd) (hturns : Turns d d') : d'.LatchedAtEnd := by
  induction hturns with
  | refl => exact h
  | tail _ hturn ih => exact hturn.latchedAtEnd ih

theorem Turn.decisionsLogged (h : d.trail.DecisionsLogged) (hturn : Turn d d') :
    d'.trail.DecisionsLogged := by
  cases hturn with
  | keep hstill => exact hstill.trail ▸ h
  | change hchange =>
      rcases changeBound_trail hchange with rfl | ⟨-, value, previous, -, hfollows⟩
      · exact h
      · rw [hfollows.trail, withTrail_trail]
        exact Trail.decisionsLogged_append _ _ _ _ h
  | back hback =>
      rcases backtrackTo_eq_ok hback with ⟨-, rfl⟩ | ⟨hlt, -⟩
      · exact h
      · rw [(backtrackTo_trail hback hlt).1]
        exact Trail.decisionsLogged_rewindTo _ h _

theorem Turns.decisionsLogged (h : d.trail.DecisionsLogged) (hturns : Turns d d') :
    d'.trail.DecisionsLogged := by
  induction hturns with
  | refl => exact h
  | tail _ hturn ih => exact hturn.decisionsLogged ih

/-- What is on record in every run: before the entry at each position the trail was the present one
rewound to that position. -/
structure Remembered (past : List (Trail α)) (d : Domain α) : Prop where
  decisions : d.trail.DecisionsLogged
  past_eq : past = (List.range d.log.size).map d.trail.rewindTo

theorem Remembered.records {past past' : List (Trail α)} (h : Remembered past d)
    (hrecords : Records (past, d) (past', d')) : Remembered past' d' := by
  cases hrecords with
  | @append _ _ _ change reason hchange hlonger =>
      rcases changeBound_trail hchange with rfl | ⟨-, value, previous, hprevious, hfollows⟩
      · exact absurd hlonger (Nat.lt_irrefl _)
      · have htrail := hfollows.trail
        rw [withTrail_trail] at htrail
        rw [← trail_bounds] at hprevious
        have hsize : d'.log.size = d.log.size + 1 := by
          rw [← trail_log, htrail, Trail.append_log, Array.size_push, trail_log]
        refine ⟨?_, ?_⟩
        · rw [htrail]
          exact Trail.decisionsLogged_append _ _ _ _ h.decisions
        · rw [hsize, List.range_succ, List.map_append, List.map_singleton, htrail, h.past_eq]
          congr 1
          · refine List.map_congr_left fun p hp => ?_
            exact (Trail.rewindTo_append _ { change with value := value } reason _ hprevious
              (Nat.le_of_lt (List.mem_range.mp hp))).symm
          · exact congrArg (fun t => [t]) (Trail.rewindTo_append_size _
              { change with value := value } reason _ h.decisions hprevious).symm
  | @back _ _ _ position hback =>
      by_cases hp : position < d.log.size
      · obtain ⟨htrail, -, -⟩ := backtrackTo_trail hback hp
        have hsize : d'.log.size = position := by
          rw [← trail_log, htrail, Trail.rewindTo_log, trail_log, Array.take_eq_extract,
            Array.size_extract]
          omega
        refine ⟨?_, ?_⟩
        · rw [htrail]
          exact Trail.decisionsLogged_rewindTo _ h.decisions position
        · rw [hsize, htrail, h.past_eq, ← List.map_take, List.take_range, Nat.min_eq_left hp.le]
          refine List.map_congr_left fun p hp => ?_
          exact (Trail.rewindTo_rewindTo _ (Nat.le_of_lt (List.mem_range.mp hp))).symm
      · rcases backtrackTo_eq_ok hback with ⟨-, rfl⟩ | ⟨hlt, -⟩
        · have hall : past.take position = past := by
            rw [List.take_eq_self_iff, h.past_eq, List.length_map, List.length_range]
            exact Nat.le_of_not_lt hp
          rw [hall]
          exact h
        · exact absurd hlt hp
  | keep htrail =>
      have hlog : d'.log = d.log := congrArg Trail.log htrail
      exact ⟨htrail ▸ h.decisions, by rw [hlog, htrail, h.past_eq]⟩

/-- The domain that backtracking leads to: it has a given trail and is not infeasible. -/
structure Restored (t : Trail α) (d : Domain α) : Prop where
  trail : d.trail = t
  depth : d.depth = t.branchings.size
  feasible : d.infeasible = none

end Domain

variable {model : Model α} {feastol : α} {past : List (Trail α)} {s : PropagationState α}

theorem Recorded.remembered (h : Recorded model feastol past s) :
    Domain.Remembered past s.domain := by
  induction h with
  | start hstart =>
      obtain ⟨hlog, hbranchings, -⟩ := Domain.ofModel_record hstart
      refine ⟨fun p hp => ?_, ?_⟩
      · rw [Domain.trail_branchings, hbranchings] at hp
        simp at hp
      · rw [hlog]
        rfl
  | @step past past' s s' op _ _ hrecords ih =>
      have hall : ∀ x : List (Trail α) × Domain α,
          Relation.ReflTransGen Domain.Records (past, s.domain) x →
          Domain.Remembered x.1 x.2 := by
        intro x hx
        induction hx with
        | refl => exact ih
        | tail _ hrecord hlast => exact hlast.records hrecord
      exact hall _ hrecords

/-- The record of a run goes on with every operation. -/
theorem Domain.Turns.records {d d' : Domain α} (h : Domain.Turns d d') (past : List (Trail α)) :
    ∃ past', Relation.ReflTransGen Domain.Records (past, d) (past', d') := by
  induction h with
  | refl => exact ⟨past, .refl⟩
  | tail _ hturn ih =>
      obtain ⟨past', hrecords⟩ := ih
      cases hturn with
      | keep hstill => exact ⟨past', hrecords.tail (.keep hstill.trail)⟩
      | back hback => exact ⟨_, hrecords.tail (.back hback)⟩
      | change hchange =>
          rcases Domain.changeBound_trail hchange with rfl | ⟨-, value, previous, -, hfollows⟩
          · exact ⟨past', hrecords⟩
          · have hlog := hfollows.log
            refine ⟨_, hrecords.tail (.append hchange ?_)⟩
            rw [hlog]
            exact (Nat.lt_succ_self _).trans_eq (Array.size_push ..).symm

variable {permitted : PropagationState α → Operation α → Prop}

theorem Reachable.recorded (h : Reachable permitted model feastol s) :
    ∃ past, Recorded model feastol past s := by
  induction h with
  | start hstart => exact ⟨[], .start hstart⟩
  | step _ _ hperform ih =>
      obtain ⟨past, hpast⟩ := ih
      obtain ⟨past', hrecords⟩ := (Operation.turns hperform).records past
      exact ⟨past', .step hpast hperform hrecords⟩

theorem Reachable.latchedAtEnd (h : Reachable permitted model feastol s) :
    s.domain.LatchedAtEnd := by
  induction h with
  | start hstart =>
      intro i hi
      rw [(Domain.ofModel_record hstart).2.2] at hi
      cases hi
  | step _ _ hperform ih => exact Domain.Turns.latchedAtEnd ih (Operation.turns hperform)

namespace Domain

variable {T : Tracking α} {d : Domain α}

/-- Backtracking to a recorded position restores the trail of the record. -/
theorem Remembered.backtrackTo_returns (h : Remembered past d) (hsettled : d.Settled T)
    (hlatched : d.LatchedAtEnd) {p : Nat} {t : Trail α} (ht : past[p]? = some t) :
    Returns (d.backtrackTo p) (Restored t) := by
  have hp : p < d.log.size := by
    have hlt := (List.getElem?_eq_some_iff.mp ht).1
    rw [h.past_eq, List.length_map, List.length_range] at hlt
    exact hlt
  obtain rfl : d.trail.rewindTo p = t := by
    rw [h.past_eq, List.getElem?_map, List.getElem?_range hp] at ht
    exact Option.some.inj ht
  refine (Domain.backtrackTo_returns hsettled p).mono fun d' hd' _ => ?_
  obtain ⟨htrail, hinfeasible, -⟩ := backtrackTo_trail hd' hp
  refine ⟨htrail, congrArg (fun t => t.branchings.size) htrail, ?_⟩
  rw [hinfeasible, Option.filter_eq_none_iff]
  intro i hi hearly
  have hlate := hlatched i hi
  have hlt : i.position < p := by simpa using hearly
  omega

theorem backtrackTo_of_le {p : Nat} (hp : d.log.size ≤ p) : d.backtrackTo p = .ok d := by
  unfold Domain.backtrackTo
  rw [if_pos hp]
  rfl

end Domain

/-- **Backtracking is the exact inverse of every change.** In every state that a domain of a model
reaches by any operations, backtracking to the position of an entry of the log leads to the trail
that the domain had right before that entry was appended: the bounds and their positions, the log,
the branching positions and the depth. The domain is not infeasible afterwards. Backtracking to any
other position changes nothing. Backtracking one level or all levels does so for the first entry of
that level, and changes nothing at the global level. -/
theorem backtracking_inverts_changes (hα : EqualInfinities α) {draft : Draft α}
    (hmodel : draft.build = .ok model)
    (h : Reachable (fun _ _ => True) model feastol s) :
    (∃ past, Recorded model feastol past s) ∧
    ∀ past, Recorded model feastol past s →
      past.length = s.domain.log.size ∧
      (∀ (p : Nat) t, past[p]? = some t →
        Returns (s.domain.backtrackTo p) (Domain.Restored t)) ∧
      (∀ p, past.length ≤ p → s.domain.backtrackTo p = .ok s.domain) ∧
      (s.domain.depth = 0 → s.domain.backtrack = .ok (none, s.domain) ∧
        s.domain.backtrackToGlobal = .ok s.domain) ∧
      (0 < s.domain.depth →
        (∃ (p : Nat) (t : Trail α) (entry : LogEntry α),
          s.domain.branchings.back? = some p ∧ past[p]? = some t ∧
          s.domain.log[p]? = some entry ∧ Returns s.domain.backtrack fun result =>
            result.1 = some entry.change ∧ Domain.Restored t result.2) ∧
        ∃ (p : Nat) (t : Trail α), s.domain.branchings[0]? = some p ∧ past[p]? = some t ∧
          Returns s.domain.backtrackToGlobal (Domain.Restored t)) := by
  refine ⟨h.recorded, fun past hpast => ?_⟩
  have hremembered := hpast.remembered
  have hlatched := h.latchedAtEnd
  have hsettled : s.domain.Settled (.counting hα) := by
    refine (h.settled (fun _ _ _ _ _ _ _ => trivial) (fun _ op _ => ?_)
      (Draft.wellFormed_of_build hmodel) ?_).domain
    · cases op <;> simp [Operation.Brings, Tracking.counting]
    · exact ⟨fun _ _ _ _ _ => trivial, fun _ _ _ => trivial, fun _ _ _ => ⟨trivial, trivial⟩⟩
  have hlength : past.length = s.domain.log.size := by
    rw [hremembered.past_eq, List.length_map, List.length_range]
  have hback : ∀ (p : Nat) t, past[p]? = some t →
      Returns (s.domain.backtrackTo p) (Domain.Restored t) := fun p t ht =>
    hremembered.backtrackTo_returns hsettled hlatched ht
  have hdecision : ∀ p ∈ s.domain.branchings, ∃ t, past[p]? = some t := fun p hp => by
    have hlt : p < past.length := by
      rw [hlength]
      exact hremembered.decisions p hp
    exact ⟨past[p], List.getElem?_eq_getElem hlt⟩
  refine ⟨hlength, hback, fun p hp => Domain.backtrackTo_of_le (hlength ▸ hp), ?_, ?_⟩
  · intro hdepth
    have hempty : s.domain.branchings = #[] := Array.size_eq_zero_iff.mp hdepth
    refine ⟨by simp [Domain.backtrack, hempty]; rfl, ?_⟩
    exact Domain.backtrackTo_of_le (by simp [Domain.globalLength, hempty])
  · intro hdepth
    refine ⟨?_, ?_⟩
    · obtain ⟨p, hp⟩ : ∃ p, s.domain.branchings.back? = some p := by
        rw [Array.back?_eq_getElem?]
        exact ⟨_, Array.getElem?_eq_getElem (Nat.sub_lt hdepth Nat.one_pos)⟩
      have hmem : p ∈ s.domain.branchings := Array.mem_of_back? hp
      obtain ⟨t, ht⟩ := hdecision p hmem
      have hlogged : p < s.domain.log.size := hremembered.decisions p hmem
      have hentry := Array.getElem?_eq_getElem hlogged
      refine ⟨p, t, _, hp, ht, hentry, ?_⟩
      simp only [Domain.backtrack, hp, fetch_eq_ok.mpr hentry, ok_bind]
      exact (hback p t ht).bind fun d' _ hd' => .pure ⟨rfl, hd'⟩
    · have hfirst := Array.getElem?_eq_getElem hdepth
      obtain ⟨t, ht⟩ := hdecision _ (Array.getElem_mem hdepth)
      refine ⟨_, t, hfirst, ht, ?_⟩
      have hlength : s.domain.globalLength = s.domain.branchings[0] := by
        rw [Domain.globalLength, hfirst, Option.getD_some]
      rw [Domain.backtrackToGlobal, hlength]
      exact hback _ t ht

theorem Exact.equalInfinities : EqualInfinities Exact := by
  intro a b hab
  rw [(Exact.equal_iff.mp hab).1]

/-- Two columns between zero and three with a sum of at most four. -/
def twoColumns : Draft Exact :=
  ⟨#[⟨0, 0, 3, .integer⟩, ⟨0, 0, 3, .integer⟩], #[⟨-Scalar.infinity, 4, [(0, 1), (1, 1)]⟩], 0⟩

/-- Two changes of one bound, and a decision that crosses the opposite bound. -/
def crossingChanges : List (Operation Exact) :=
  [.changeBound (.atLeast 0 2) .branching, .changeBound (.atLeast 0 3) .unknown,
    .changeBound (.atLeast 1 4) .branching]

/-- Three changes of two columns can be undone from every position. -/
theorem crossing_changes_undone :
    ∃ (model : Model Exact) (s : PropagationState Exact) (past : List (Trail Exact)),
      Reachable (fun _ _ => True) model 1e-6 s ∧ s.domain.isInfeasible = true ∧
      Recorded model 1e-6 past s ∧ past.length = 3 ∧
      ∀ (p : Nat) t, past[p]? = some t →
        Returns (s.domain.backtrackTo p) (Domain.Restored t) := by
  have hrun : passes twoColumns.build (fun model => passes (Domain.ofModel model 1e-6) fun d =>
      passes (crossingChanges.foldlM (fun s op => op.perform s) ⟨.empty, d⟩) fun s =>
        s.domain.isInfeasible && s.domain.log.size == 3) = true := by
    decide +kernel
  obtain ⟨model, hmodel, hrun⟩ := passes_eq_true.mp hrun
  obtain ⟨d, hd, hrun⟩ := passes_eq_true.mp hrun
  obtain ⟨s, hs, hrun⟩ := passes_eq_true.mp hrun
  rw [Bool.and_eq_true, beq_iff_eq] at hrun
  have hreach : Reachable (fun _ _ => True) model 1e-6 s :=
    (Reachable.start hd).performAll (fun _ _ _ => trivial) hs
  obtain ⟨⟨past, hpast⟩, hall⟩ := backtracking_inverts_changes Exact.equalInfinities hmodel hreach
  obtain ⟨hlength, hback, -⟩ := hall past hpast
  exact ⟨model, s, past, hreach, hrun.1, hpast, hlength.trans hrun.2, hback⟩

end BranchBound
