import BranchBound.Proofs.Domain.Backtracking

/-!
# Depth levels

A decision opens a depth level, at the position of the log where it is noted. Whatever is changed
until the level is undone is logged behind it. Undoing the deepest level takes its decision and all
that follows it off the log, and leaves a feasible domain.
-/

namespace BranchBound

open Checked

variable {α : Type}

/-- The entry notes a decision: its value is the one which the decision's value was accepted as,
over the bound that the entry replaced and some opposite bound. -/
structure LogEntry.Decides [Scalar α] (entry : LogEntry α) (change : BoundChange α)
    (feastol : α) : Prop where
  reason : entry.reason = .branching
  column : entry.change.column = change.column
  side : entry.change.side = change.side
  value : ∃ opposite crossing, Domain.acceptedValue change.side feastol entry.previous.value
    opposite change.value true = some (entry.change.value, crossing)

namespace Domain

variable {d d' d'' : Domain α}

/-- The log may have become longer, and no depth level was opened or undone. -/
structure Deepened (d d' : Domain α) : Prop where
  log : d.log.toList <+: d'.log.toList
  branchings : d'.branchings = d.branchings

namespace Deepened

theorem refl (d : Domain α) : Deepened d d := ⟨List.prefix_rfl, rfl⟩

theorem trans (h : Deepened d d') (h' : Deepened d' d'') : Deepened d d'' :=
  ⟨h.log.trans h'.log, h'.branchings.trans h.branchings⟩

theorem of_trail (h : d'.trail = d.trail) : Deepened d d' := by
  have hlog : d'.log = d.log := congrArg Trail.log h
  exact ⟨hlog ▸ List.prefix_rfl, congrArg Trail.branchings h⟩

/-- What was logged stays where it is. -/
theorem getElem? (h : Deepened d d') {p : Nat} {entry : LogEntry α}
    (hentry : d.log[p]? = some entry) : d'.log[p]? = some entry := by
  rw [← Array.getElem?_toList] at hentry ⊢
  obtain ⟨rest, hrest⟩ := h.log
  rw [← hrest, List.getElem?_append_left (List.getElem?_eq_some_iff.mp hentry).1]
  exact hentry

end Deepened

/-- The depth levels were opened one after the other by decisions of the log, and only its last
entry, or what follows it, made the domain infeasible. -/
structure Leveled (d : Domain α) : Prop where
  increasing : d.branchings.toList.Pairwise (· < ·)
  logged : ∀ p ∈ d.branchings, ∃ entry, d.log[p]? = some entry ∧ entry.reason = .branching
  latched : d.LatchedAtEnd

theorem Leveled.decisionsLogged (h : d.Leveled) : d.trail.DecisionsLogged := fun p hp =>
  have ⟨_, hentry, _⟩ := h.logged p hp
  (Array.getElem?_eq_some_iff.mp hentry).1

/-- The global part of a log is a part of it. -/
theorem Leveled.globalLength_le (h : d.Leveled) : d.globalLength ≤ d.log.size := by
  rw [globalLength]
  cases hfirst : d.branchings[0]? with
  | none => exact Nat.le_refl _
  | some first => exact Nat.le_of_lt (h.decisionsLogged first (Array.mem_of_getElem? hfirst))

/-- There is no decision in the global part of a log. -/
theorem Leveled.globalLength_le_of_mem (h : d.Leveled) {p : Nat} (hp : p ∈ d.branchings) :
    d.globalLength ≤ p := by
  obtain ⟨i, hi, rfl⟩ := Array.mem_iff_getElem.mp hp
  have hpos : 0 < d.branchings.size := Nat.zero_lt_of_lt hi
  rw [globalLength, Array.getElem?_eq_getElem hpos, Option.getD_some]
  rcases Nat.eq_zero_or_pos i with rfl | hlt
  · exact Nat.le_refl _
  · have hordered := List.pairwise_iff_getElem.mp h.increasing 0 i (by simpa using hpos)
      (by simpa using hi) hlt
    simpa using Nat.le_of_lt hordered

variable [Scalar α]

/-- A decision was logged, which opened a depth level. -/
structure Opened (d : Domain α) (change : BoundChange α) (d' : Domain α) : Prop where
  branchings : d'.branchings = d.branchings.push d.log.size
  log : ∃ entry : LogEntry α, entry.Decides change d.feastol ∧ d'.log = d.log.push entry

/-- A change that is no decision opens no level. -/
theorem changeBound_deepened {change : BoundChange α} {reason : Reason}
    (h : d.changeBound change reason = .ok d') (hreason : reason ≠ .branching) : Deepened d d' := by
  rcases changeBound_trail h with rfl | ⟨-, value, previous, -, hfollows⟩
  · exact .refl _
  · have htrail := hfollows.trail
    rw [withTrail_trail] at htrail
    refine ⟨?_, ?_⟩
    · rw [← trail_log d', htrail, Trail.append_log, Array.toList_push]
      exact List.prefix_append _ _
    · rw [← trail_branchings d', htrail, Trail.append_branchings, if_neg (by simpa using hreason),
        trail_branchings]

theorem acceptedValue_ne_none (side : Side) (feastol current opposite value : α) :
    acceptedValue side feastol current opposite value true ≠ none := by
  unfold acceptedValue
  simp only [Bool.not_true, Bool.and_false, Bool.false_eq_true, if_false]
  generalize (if side.tightOrEqual current value = true then current else value) = accepted
  split
  · split <;> exact Option.some_ne_none _
  · exact Option.some_ne_none _

/-- A decision is never ignored in a feasible domain. -/
theorem changeBound_opened {change : BoundChange α}
    (h : d.changeBound change .branching = .ok d') (hfeasible : d.infeasible = none) :
    Opened d change d' := by
  rcases changeBound_eq_ok h with ⟨hinfeasible, -⟩ |
    ⟨-, current, opposite, hcurrent, -, ⟨hignored, -⟩ | ⟨value, crossing, haccepted, happly⟩⟩
  · rw [hfeasible] at hinfeasible
    cases hinfeasible
  · exact absurd hignored (acceptedValue_ne_none _ _ _ _ _)
  · obtain ⟨previous, hprevious, hfollows⟩ := applyChange_trail happly
    obtain rfl := Option.some.inj (hcurrent.symm.trans hprevious)
    have htrail := hfollows.trail
    rw [withTrail_trail] at htrail
    refine ⟨?_, ⟨{ change with value := value }, .branching, current⟩,
      ⟨rfl, rfl, rfl, opposite.value, crossing, haccepted⟩, ?_⟩
    · rw [← trail_branchings d', htrail, Trail.append_branchings, if_pos (beq_self_eq_true _),
        trail_branchings, trail_log]
    · rw [← trail_log d', htrail, Trail.append_log, trail_log]

theorem Turn.leveled (h : d.Leveled) (hturn : Turn d d') : d'.Leveled := by
  have hlatched := hturn.latchedAtEnd h.latched
  cases hturn with
  | keep hstill =>
      have hlog : d'.log = d.log := congrArg Trail.log hstill.trail
      have hbranchings : d'.branchings = d.branchings := congrArg Trail.branchings hstill.trail
      exact ⟨hbranchings ▸ h.increasing, by rw [hlog, hbranchings]; exact h.logged, hlatched⟩
  | @change change reason hchange =>
      by_cases hreason : reason = .branching
      · subst hreason
        cases hfeasible : d.infeasible with
        | some i =>
            have hsame : d' = d := by
              rcases changeBound_eq_ok hchange with ⟨-, hsame⟩ | ⟨hnone, -⟩
              · exact hsame
              · rw [hfeasible] at hnone
                cases hnone
            exact hsame ▸ h
        | none =>
            obtain ⟨hbranchings, entry, hentry, hlog⟩ := changeBound_opened hchange hfeasible
            refine ⟨?_, fun p hp => ?_, hlatched⟩
            · rw [hbranchings, Array.toList_push, List.pairwise_append]
              refine ⟨h.increasing, List.pairwise_singleton .., fun p hp q hq => ?_⟩
              rw [List.mem_singleton.mp hq]
              exact h.decisionsLogged p (Array.mem_toList_iff.mp hp)
            · rw [hbranchings] at hp
              rw [hlog]
              rcases Array.mem_push.mp hp with hp | rfl
              · obtain ⟨entry', hentry', hreason⟩ := h.logged p hp
                have hlt := (Array.getElem?_eq_some_iff.mp hentry').1
                exact ⟨entry', by rw [Array.getElem?_push_lt hlt, ← hentry',
                  Array.getElem?_eq_getElem hlt], hreason⟩
              · exact ⟨entry, Array.getElem?_push_size, hentry.reason⟩
      · have hdeeper := changeBound_deepened hchange hreason
        refine ⟨hdeeper.branchings ▸ h.increasing, fun p hp => ?_, hlatched⟩
        obtain ⟨entry, hentry, hbranching⟩ := h.logged p (hdeeper.branchings ▸ hp)
        exact ⟨entry, hdeeper.getElem? hentry, hbranching⟩
  | @back position hback =>
      rcases backtrackTo_eq_ok hback with ⟨-, rfl⟩ | ⟨hlt, -⟩
      · exact h
      · obtain ⟨htrail, -, -⟩ := backtrackTo_trail hback hlt
        have hlog : d'.log = d.log.take position := by
          rw [← trail_log d', htrail, Trail.rewindTo_log, trail_log]
        have hbranchings : d'.branchings = d.branchings.filter (· < position) := by
          rw [← trail_branchings d', htrail, Trail.rewindTo_branchings, trail_branchings]
        refine ⟨?_, fun p hp => ?_, hlatched⟩
        · rw [hbranchings, Array.toList_filter]
          exact h.increasing.filter _
        · rw [hbranchings, Array.mem_filter] at hp
          obtain ⟨entry, hentry, hreason⟩ := h.logged p hp.1
          refine ⟨entry, ?_, hreason⟩
          have hlt := (Array.getElem?_eq_some_iff.mp hentry).1
          have hbefore : p < position := by simpa using hp.2
          rw [hlog, Array.take_eq_extract, Array.getElem?_extract, if_pos (by omega), Nat.zero_add]
          exact hentry

theorem Turns.leveled (h : d.Leveled) (hturns : Turns d d') : d'.Leveled := by
  induction hturns with
  | refl => exact h
  | tail _ hturn ih => exact hturn.leveled ih

end Domain

theorem Reachable.leveled [Scalar α] {permitted : PropagationState α → Operation α → Prop}
    {model : Model α} {feastol : α} {s : PropagationState α}
    (h : Reachable permitted model feastol s) : s.domain.Leveled := by
  induction h with
  | start hstart =>
      obtain ⟨hlog, hbranchings, hfeasible⟩ := Domain.ofModel_record hstart
      refine ⟨?_, fun p hp => ?_, fun i hi => ?_⟩
      · rw [hbranchings]
        exact List.Pairwise.nil
      · rw [hbranchings] at hp
        simp at hp
      · rw [hfeasible] at hi
        cases hi
  | step _ _ hperform ih => exact Domain.Turns.leveled ih (Operation.turns hperform)

namespace Domain

variable [Scalar α] {d d' : Domain α}

/-- No constraint gives a decision as the reason of a change. -/
theorem Derived.not_branching {change : BoundChange α} {reason : Reason}
    (h : d.Derived change reason) : reason ≠ .branching := by
  cases h with
  | @implication entry c value implied change accepted reason hentry hfixing himplied hmem
      haccepted =>
      rcases mem_impliedByFixing himplied hmem with
        ⟨_, _, _, _, _, _, hx⟩ | ⟨_, _, _, _, _, _, hx⟩
      · rw [(Prod.mk.inj hx).2]
        exact Reason.noConfusion
      · rw [(Prod.mk.inj hx).2]
        exact Reason.noConfusion
  | rowUpper => simp
  | rowLower => simp
  | cut => simp
  | conflict => simp
  | objective => simp
  | partition => simp

end Domain

/-- An advance of propagation stays on its depth level. -/
theorem Advance.deepened [Scalar α] {s s' : PropagationState α} (h : Advance s s') :
    Domain.Deepened s.domain s'.domain := by
  cases h with
  | requeue hrequeued => exact .of_trail hrequeued.trail
  | refresh hrefresh =>
      rw [Domain.refreshActivity_eq_ok hrefresh]
      exact .of_trail rfl
  | readCuts _ _ _ => exact .of_trail rfl
  | readConflicts _ _ _ => exact .of_trail rfl
  | change changes hderived hchanges =>
      exact Domain.changeBounds_keeps (P := fun e => Domain.Deepened _ e)
        (fun _ _ x hx hdeepened hchange => hdeepened.trans
          (Domain.changeBound_deepened hchange (hderived x hx).not_branching)) hchanges (.refl _)
  | refute _ =>
      rw [Domain.markInfeasible_eq]
      exact .of_trail rfl
  | renew _ => exact .refl _

namespace Domain

variable [Scalar α] {d d' : Domain α}

/-- Propagation stays on its depth level. -/
theorem propagate_deepened {pools pools' : Pools α} (h : d.propagate pools = .ok (pools', d')) :
    Deepened d d' := by
  have hadvances (s' : PropagationState α) (h : Advances ⟨pools, d⟩ s') : Deepened d s'.domain := by
    induction h with
    | refl => exact .refl d
    | tail _ hlast ih => exact ih.trans hlast.deepened
  exact hadvances _ (Domain.propagate_advances h)

theorem propagate_turns {pools pools' : Pools α} (h : d.propagate pools = .ok (pools', d')) :
    Turns d d' := by
  have hadvances (s' : PropagationState α) (h : Advances ⟨pools, d⟩ s') : Turns d s'.domain := by
    induction h with
    | refl => exact .refl
    | tail _ hlast ih => exact ih.trans hlast.turns
  exact hadvances _ (Domain.propagate_advances h)

theorem backtrack_turns {undone : Option (BoundChange α)} (h : d.backtrack = .ok (undone, d')) :
    Turns d d' := by
  rcases backtrack_eq_ok h with ⟨-, -, rfl⟩ | ⟨_, _, -, -, -, hto⟩
  · exact .refl
  · exact .single (.back hto)

/-- Undoing the deepest level takes the log back to its decision and leaves a feasible domain. -/
theorem Leveled.backtrack {undone : Option (BoundChange α)} {levels : List Nat} {p : Nat}
    (h : d.Leveled) (hlevels : d.branchings.toList = levels ++ [p])
    (hback : d.backtrack = .ok (undone, d')) :
    d'.branchings.toList = levels ∧ d'.log.toList = d.log.toList.take p ∧ d'.infeasible = none ∧
      ∃ entry, d.log[p]? = some entry ∧ undone = some entry.change := by
  have hlast : d.branchings.back? = some p := by
    rw [← Array.getLast?_toList, hlevels, List.getLast?_concat]
  rcases backtrack_eq_ok hback with ⟨hnone, -⟩ | ⟨position, entry, hposition, hentry, hundone, hto⟩
  · rw [hlast] at hnone
    cases hnone
  · obtain rfl := Option.some.inj (hlast.symm.trans hposition)
    have hlt := (Array.getElem?_eq_some_iff.mp hentry).1
    obtain ⟨htrail, hinfeasible, -⟩ := backtrackTo_trail hto hlt
    refine ⟨?_, ?_, ?_, entry, hentry, hundone⟩
    · have hincreasing := h.increasing
      rw [hlevels, List.pairwise_append] at hincreasing
      rw [← trail_branchings d', htrail, Trail.rewindTo_branchings, trail_branchings,
        Array.toList_filter, hlevels, List.filter_append, List.filter_singleton]
      simp only [lt_irrefl, decide_false, cond_false, List.append_nil, List.filter_eq_self,
        decide_eq_true_eq]
      exact fun q hq => hincreasing.2.2 q hq p (List.mem_singleton_self p)
    · rw [← trail_log d', htrail, Trail.rewindTo_log, trail_log]
      simp
    · rw [hinfeasible, Option.filter_eq_none_iff]
      intro i hi hearly
      have hlate := h.latched i hi
      have hearly : i.position < p := by simpa using hearly
      omega

end Domain

end BranchBound
