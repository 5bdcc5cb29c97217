import BranchBound.Proofs.Action
import BranchBound.Proofs.Domain.Backtracking

/-!
# Truncation and growth

Every operation of a domain first takes a part of the log off its end, which is none of it for most
operations, and then only adds to what is left. The part is known beforehand, it is
`Operation.cutsTo`. So what a log holds after an operation, it held all the time since it was cut.
-/

namespace BranchBound

open Checked

variable {α : Type} [Scalar α]

namespace Domain

variable {d d' : Domain α}

/-- A turn that undoes nothing. -/
inductive Grow (d d' : Domain α) : Prop
  | keep (h : Still d d')
  | change {change : BoundChange α} {reason : Reason} (h : d.changeBound change reason = .ok d')

/-- Turns that undo nothing, one after the other. -/
abbrev Grows : Domain α → Domain α → Prop := Relation.ReflTransGen Grow

theorem Grow.log_extends (h : Grow d d') : d.log.toList <+: d'.log.toList := by
  cases h with
  | keep hstill =>
      have hlog : d'.log = d.log := congrArg Trail.log hstill.trail
      rw [hlog]
  | change hchange =>
      rcases changeBound_trail hchange with rfl | ⟨-, value, previous, -, hfollows⟩
      · exact List.prefix_rfl
      · rw [hfollows.log]
        exact ⟨_, (Array.toList_push ..).symm⟩

theorem Grows.log_extends (h : Grows d d') : d.log.toList <+: d'.log.toList := by
  induction h with
  | refl => exact List.prefix_rfl
  | tail _ hgrow ih => exact ih.trans hgrow.log_extends

theorem Grow.branchings_extend (h : Grow d d') :
    d.branchings.toList <+: d'.branchings.toList := by
  cases h with
  | keep hstill =>
      have hbranchings : d'.branchings = d.branchings := congrArg Trail.branchings hstill.trail
      rw [hbranchings]
  | @change change reason hchange =>
      rcases changeBound_trail hchange with rfl | ⟨-, value, previous, -, hfollows⟩
      · exact List.prefix_rfl
      · have hbranchings : d'.branchings = _ := congrArg Trail.branchings hfollows.trail
        rw [withTrail_trail, Trail.append_branchings] at hbranchings
        rw [hbranchings]
        split
        · exact ⟨_, (Array.toList_push ..).symm⟩
        · exact List.prefix_rfl

/-- Once there is a level, what happens later is not global. -/
theorem Grows.globalLength (h : Grows d d') {first : Nat} (hfirst : d.branchings[0]? = some first) :
    d'.globalLength = first := by
  have hextends : d.branchings.toList <+: d'.branchings.toList := by
    induction h with
    | refl => exact List.prefix_rfl
    | tail _ hgrow ih => exact ih.trans hgrow.branchings_extend
  obtain ⟨rest, hrest⟩ := hextends
  rw [Domain.globalLength, ← Array.getElem?_toList, ← hrest, List.getElem?_append_left,
    Array.getElem?_toList, hfirst, Option.getD_some]
  simpa using (Array.getElem?_eq_some_iff.mp hfirst).1

theorem Grows.keep (htrail : d'.trail = d.trail) (hmodel : d'.model = d.model)
    (hfeastol : d'.feastol = d.feastol) (hinfeasible : d'.infeasible = d.infeasible) :
    Grows d d' :=
  .single (.keep ⟨htrail, hmodel, hfeastol, .inl hinfeasible⟩)

theorem fixColumn_grows {c : ColumnId} {value : α} {reason : Reason}
    (h : d.fixColumn c value reason = .ok d') : Grows d d' :=
  fixColumn_keeps (fun _ _ _ _ hgrows hchange => hgrows.tail (.change hchange)) h .refl

theorem applyStack_grows (branchings : List Nat) (index : Nat) (changes : List (BoundChange α)) :
    Action.Keeps (fun e : Domain α => Grows d e) (applyStack branchings index changes) := by
  induction changes generalizing index with
  | nil => exact Action.Keeps.pure
  | cons change rest ih =>
      refine Action.Keeps.get.bind fun _ =>
        Action.Leads.ite (fun _ => Action.Keeps.pure) fun _ => ?_
      have hrest := ih (index + 1)
      exact Action.Leads.bind (Action.Leads.change fun _ _ hgrows hchange =>
        hgrows.tail (.change hchange)) fun _ => hrest

/-- Installing a stack is undoing every level and then only adding to the log. -/
theorem setStack_grows {changes : List (BoundChange α)} {branchings : List Nat} {b : Unit}
    (h : (setStack changes branchings).finish d = .ok (b, d')) :
    ∃ cleared, d.backtrackToGlobal = .ok cleared ∧ Grows cleared d' := by
  rw [Action.finish_eq_ok, setStack, Action.perform_bind_eq_ok] at h
  obtain ⟨⟨⟩, cleared, hback, happly⟩ := h
  rw [Action.perform_change_eq_ok] at hback
  exact ⟨cleared, hback, applyStack_grows branchings 0 changes cleared b d' .refl happly⟩

end Domain

/-- Propagation undoes nothing. -/
theorem Advance.grows {s s' : PropagationState α} (h : Advance s s') :
    Domain.Grows s.domain s'.domain := by
  have hsetting := h.setting
  cases h with
  | requeue hrequeued =>
      exact .keep hrequeued.trail hsetting.model hsetting.feastol hrequeued.infeasible
  | refresh hrefresh =>
      rw [Domain.refreshActivity_eq_ok hrefresh]
      exact .keep rfl rfl rfl rfl
  | readCuts _ _ _ | readConflicts _ _ _ => exact .keep rfl rfl rfl rfl
  | change _ _ hchanges =>
      exact Domain.changeBounds_keeps (P := Domain.Grows _)
        (fun _ _ _ _ hgrows hchange => hgrows.tail (.change hchange)) hchanges .refl
  | refute _ => exact .single (.keep (Domain.markInfeasible_still ..))
  | renew _ => exact .refl

theorem Domain.propagate_grows {d d' : Domain α} {pools pools' : Pools α}
    (h : d.propagate pools = .ok (pools', d')) : Domain.Grows d d' := by
  have hall (s' : PropagationState α) (h : Advances ⟨pools, d⟩ s') : Domain.Grows d s'.domain := by
    induction h with
    | refl => exact .refl
    | tail _ hlast ih => exact ih.trans hlast.grows
  exact hall _ (Domain.propagate_advances h)

/-- The position which an operation cuts the log to, before it does anything else. -/
def Operation.cutsTo (d : Domain α) : Operation α → Option Nat
  | backtrackTo position => some position
  | backtrack => d.branchings.back?
  | backtrackToGlobal | setStack _ _ => some d.globalLength
  | _ => none

/-- An operation cuts the log and then only adds to it. -/
theorem Operation.grows {s s' : PropagationState α} {op : Operation α}
    (h : op.perform s = .ok s') :
    ∃ d, s.domain.backtrackTo ((op.cutsTo s.domain).getD s.domain.log.size) = .ok d ∧
      Domain.Grows d s'.domain := by
  have hwhole : s.domain.backtrackTo s.domain.log.size = .ok s.domain :=
    Domain.backtrackTo_of_le (Nat.le_refl _)
  cases hmoves : op.movesBounds with
  | false =>
      have hnone : op.cutsTo s.domain = none := by cases op <;> first | rfl | cases hmoves
      rw [hnone]
      exact ⟨s.domain, hwhole, .single (.keep (still hmoves h))⟩
  | true =>
      cases op with
      | propagate =>
          simp only [perform, bind_eq_ok, pure_eq_ok] at h
          obtain ⟨⟨pools, d⟩, hpropagate, rfl⟩ := h
          exact ⟨s.domain, hwhole, Domain.propagate_grows hpropagate⟩
      | changeBound change reason =>
          rw [perform, PropagationState.onDomain_eq_ok] at h
          obtain ⟨d', hd', rfl⟩ := h
          exact ⟨s.domain, hwhole, .single (.change hd')⟩
      | fixColumn c value reason =>
          rw [perform, PropagationState.onDomain_eq_ok] at h
          obtain ⟨d', hd', rfl⟩ := h
          exact ⟨s.domain, hwhole, Domain.fixColumn_grows hd'⟩
      | setStack changes branchings =>
          rw [perform, PropagationState.onDomain_eq_ok] at h
          obtain ⟨d', hd', rfl⟩ := h
          simp only [bind_eq_ok, pure_eq_ok] at hd'
          obtain ⟨⟨_, after⟩, hfinish, rfl⟩ := hd'
          exact Domain.setStack_grows hfinish
      | backtrackTo position =>
          rw [perform, PropagationState.onDomain_eq_ok] at h
          obtain ⟨d', hd', rfl⟩ := h
          exact ⟨d', hd', .refl⟩
      | backtrack =>
          rw [perform, PropagationState.onDomain_eq_ok] at h
          obtain ⟨d', hd', rfl⟩ := h
          simp only [bind_eq_ok, pure_eq_ok] at hd'
          obtain ⟨⟨decision, after⟩, hback, rfl⟩ := hd'
          rcases Domain.backtrack_eq_ok hback with ⟨hnone, -, rfl⟩ |
            ⟨position, _, hlast, -, -, hback⟩
          · rw [cutsTo, hnone]
            exact ⟨s.domain, hwhole, .refl⟩
          · rw [cutsTo, hlast]
            exact ⟨after, hback, .refl⟩
      | backtrackToGlobal =>
          rw [perform, PropagationState.onDomain_eq_ok] at h
          obtain ⟨d', hd', rfl⟩ := h
          exact ⟨d', hd', .refl⟩
      | _ => cases hmoves

/-- In an infeasible domain nothing grows. -/
theorem Domain.Grows.of_infeasible {d d' : Domain α} (h : Domain.Grows d d')
    (hinfeasible : d.infeasible ≠ none) : d'.trail = d.trail ∧ d'.infeasible = d.infeasible := by
  induction h with
  | refl => exact ⟨rfl, rfl⟩
  | tail _ hgrow ih =>
      obtain ⟨htrail, hsame⟩ := ih
      cases hgrow with
      | keep hstill =>
          rcases hstill.infeasible with hkept | ⟨hnone, -⟩
          · exact ⟨hstill.trail.trans htrail, hkept.trans hsame⟩
          · exact absurd (hsame.symm.trans hnone) hinfeasible
      | change hchange =>
          rcases Domain.changeBound_trail hchange with rfl | ⟨hnone, -⟩
          · exact ⟨htrail, hsame⟩
          · exact absurd (hsame.symm.trans hnone) hinfeasible

end BranchBound
