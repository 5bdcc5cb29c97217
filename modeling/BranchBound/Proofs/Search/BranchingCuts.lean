import BranchBound.Proofs.Domain.FixedPoint
import BranchBound.Proofs.Domain.Width
import BranchBound.Proofs.Search.Effects
import BranchBound.Proofs.Search.NodeWork

/-!
# Branching cuts the box

A column is branched on because its value, moved between its bounds, is not whole. In a box of whole
numbers both roundings of the value are strictly inside one bound and not beyond the other one: both
children have a narrower box, and so has the node itself once a column of it was tightened. Trying
children undoes what it does, so the box in which the fractional columns were found is the one which
is cut. Since the box of a node becomes narrower with every repetition, branching on it ends.
-/

namespace BranchBound

open Checked BranchBound.Action

section Returned

variable {α ρ σ η τ : Type} [Scalar α]

/-- The second domain is feasible and has the log and the depth levels of the first one. -/
structure Domain.Returned (d e : Domain α) : Prop where
  log : e.log = d.log
  branchings : e.branchings = d.branchings
  feastol : e.feastol = d.feastol
  feasible : e.infeasible = none
  leveled : e.Leveled

namespace SearchStep

variable {d : Domain α}

/-- The domain of the search returned to a given one. -/
abbrev Returned (d : Domain α) (s : SearchState α ρ σ η τ) : Prop := d.Returned s.search.domain

omit [Scalar α] in
theorem returned_indifferent :
    Indifferent (Returned d : SearchState α ρ σ η τ → Prop) :=
  .alone fun _ _ hs h => by
    rw [Returned, h.domain]
    exact hs

variable [Relaxation ρ α]

/-- Once a child was tried, the domain is as before. -/
theorem tryChild_returned (solution : RelaxationSolution α) (c : ColumnId) (value : α)
    (direction : Direction) :
    Keeps (Returned d) (tryChild solution c value direction :
      SearchStep α ρ σ η τ (ChildOutcome α)) := by
  let Deeper : SearchState α ρ σ η τ → Prop := fun s =>
    d.log.toList <+: s.search.domain.log.toList ∧
      s.search.domain.branchings = d.branchings.push d.log.size ∧
      s.search.domain.feastol = d.feastol ∧ s.search.domain.Leveled
  have hdeeper : Indifferent Deeper := .alone fun _ _ hs h => by
    simp only [Deeper, h.domain]
    exact hs
  have hundo (outcome : ChildOutcome α) : Leads Deeper (do
      undoLevel
      return outcome : SearchStep α ρ σ η τ (ChildOutcome α)) fun _ => Returned d := by
    refine (undoLevel_leads (Q := Returned d)
      fun s undone e hs hback => ?_).bind fun _ => Keeps.pure
    obtain ⟨hlog, hbranchings, hfeastol, hleveled⟩ := hs
    have hturns := Domain.backtrack_turns hback
    obtain ⟨hlevels, hshorter, hfeasible, -⟩ :=
      hleveled.backtrack (by rw [hbranchings, Array.toList_push]) hback
    refine ⟨?_, Array.toList_inj.mp hlevels, hturns.constant.2.trans hfeastol, hfeasible,
      hturns.leveled hleveled⟩
    apply Array.toList_inj.mp
    change e.log.toList = _
    rw [hshorter, ← Array.length_toList, ← List.prefix_iff_eq_take.mp hlog]
  refine (changeDomain_leads (Q := Deeper) hdeeper fun s e hs hchange => ?_).bind fun _ => ?_
  · obtain ⟨hbranchings, entry, -, hlog⟩ := Domain.changeBound_opened hchange hs.feasible
    refine ⟨?_, ?_, ?_, Domain.Turn.leveled hs.leveled (.change hchange)⟩
    · change _ <+: e.log.toList
      rw [hlog, hs.log, Array.toList_push]
      exact List.prefix_append ..
    · change e.branchings = _
      rw [hbranchings, hs.branchings, hs.log]
    · exact (Domain.changeBound_sameSetting hchange).feastol.trans hs.feastol
  refine (propagate_leads (Q := fun _ => Deeper) (fun _ => hdeeper)
    fun s _ e hs hpropagate => ?_).bind
    fun isFeasible => ?_
  · obtain ⟨hlog, hbranchings, hfeastol, hleveled⟩ := hs
    have hdeepened := Domain.propagate_deepened hpropagate
    have hturns := Domain.propagate_turns hpropagate
    exact ⟨hlog.trans hdeepened.log, hdeepened.branchings.trans hbranchings,
      hturns.constant.2.trans hfeastol, hturns.leveled hleveled⟩
  · refine Leads.ite (fun _ => ?_) fun _ => Keeps.pure.bind hundo
    exact (boundChild_keeps hdeeper _ _).bind hundo

omit [Relaxation ρ α] in
/-- The result with which a node is finished is returned. -/
theorem prune_returns {P : SearchState α ρ σ η τ → Prop} (result : NodeResult) :
    Leads P (prune result : SearchStep α ρ σ η τ NodeResult) fun r _ => r = result := by
  have hany {β : Type} (x : SearchStep α ρ σ η τ β) : Leads P x fun _ _ => True :=
    fun _ _ _ _ _ => trivial
  have hkept {β : Type} (x : SearchStep α ρ σ η τ β) : Keeps (fun _ => True) x :=
    fun _ _ _ _ _ => trivial
  exact (hany _).bind fun _ => (hkept _).bind fun _ => (hkept _).bind fun _ =>
    (hkept _).bind fun _ => Leads.ite (fun _ => (hkept _).bind fun _ => Leads.pure fun _ _ => rfl)
      fun _ => Leads.pure fun _ _ => rfl

end SearchStep

end Returned

open Exact

namespace Exact

/-- A value that was moved between whole bounds lies between them. -/
theorem clamp_eq {k l : ℤ} (hkl : k ≤ l) (x : Exact) :
    ∃ q : ℚ, Scalar.min (Scalar.max x (number k)) (number l) = number q ∧ k ≤ q ∧ q ≤ l := by
  have hkl : (k : ℚ) ≤ l := Int.cast_le.mpr hkl
  have hmin (q : ℚ) (hq : (k : ℚ) ≤ q) :
      ∃ r : ℚ, Scalar.min (number q) (number l) = number r ∧ k ≤ r ∧ r ≤ l := by
    rcases Scalar.min_eq (number q) (number (l : ℚ)) with hleft | hright
    · refine ⟨q, hleft, hq, number_le.mp ?_⟩
      calc number q = Scalar.min (number q) (number l) := hleft.symm
        _ ≤ number l := Scalar.min_le_right rfl rfl
    · exact ⟨l, hright, hkl, le_rfl⟩
  cases x with
  | number p =>
      by_cases hp : p < k
      · have hmax : Scalar.max (number p) (number (k : ℚ)) = number k := if_pos (number_lt.mpr hp)
        rw [hmax]
        exact hmin k le_rfl
      · have hmax : Scalar.max (number p) (number (k : ℚ)) = number p :=
          if_neg fun hlt => hp (number_lt.mp hlt)
        rw [hmax]
        exact hmin p (not_lt.mp hp)
  | plus => exact ⟨l, rfl, hkl, le_rfl⟩
  | minus => exact hmin k le_rfl
  | nan => exact hmin k le_rfl

end Exact

theorem IsFractional.not_nan {v : Exact} (h : IsFractional v) : v ≠ nan := by
  rintro rfl
  obtain ⟨tolerance, hlt⟩ := h
  rw [nan_sub] at hlt
  exact (not_nan_of_le (Exact.le_of_lt hlt)).2 rfl

variable {m : Model Exact}

/-- A rounded value is whole. -/
theorem BoundChange.Rounds.whole {x : BoundChange Exact} (h : x.Rounds) : x.Whole m := by
  obtain ⟨c, value, objective, direction, hvalue, rfl⟩ := h
  intro _
  cases direction with
  | down => exact Draft.isWhole_floor hvalue.not_nan
  | up => exact Draft.isWhole_ceil hvalue.not_nan

section Effects

variable {x y : PropagationState Exact}

/-- What the work on a node does to a domain brings whole bounds only. -/
theorem Operation.Arises.whole {op : Operation Exact} (h : op.Arises x.domain) (hx : x.Narrow m) :
    op.Whole m := by
  cases op with
  | changeBound change reason =>
      refine ⟨fun y hy => ?_, nofun⟩
      rw [List.mem_singleton.mp hy]
      exact BoundChange.Rounds.whole h
  | addConflict pool literals =>
      refine ⟨nofun, ?_⟩
      rintro _ _ ⟨⟩ l hl
      obtain ⟨entry, hentry, rfl⟩ := h l hl
      obtain ⟨p, hp, rfl⟩ := Array.mem_iff_getElem.mp hentry
      exact (hx.domain.built.allowed_of_log (Trail.fresh_ofModel m)
        (Array.getElem?_eq_getElem hp)).whole.numeric
  | propagate | backtrack | setObjectiveCutoff _ => exact ⟨nofun, nofun⟩
  | _ => exact h.elim

theorem Effect.narrow (h : Effect x y) (hm : m.Boxed) (hx : x.Narrow m) : y.Narrow m := by
  cases h with
  | kept hdomain hconflicts =>
      obtain ⟨pools, d⟩ := y
      subst hdomain
      refine ⟨hx.domain, fun i pool id literals hpool => ?_, hx.literals.domain⟩
      exact hx.literals.pools i pool id literals (hconflicts ▸ hpool)
  | performed op harises hperform => exact Operation.narrow hperform hm (harises.whole hx) hx

variable {ρ σ η τ : Type}

/-- The work on a node leaves the box of the integer columns one of whole numbers. -/
theorem Affects.narrow {t : Tally τ} {s : SearchState Exact ρ σ η τ} (h : Affects x t s)
    (hm : m.Boxed) (hx : x.Narrow m) : s.propagation.Narrow m := by
  have hall (y : PropagationState Exact) (hy : Relation.ReflTransGen Effect x y) : y.Narrow m := by
    induction hy with
    | refl => exact hx
    | tail _ heffect ih => exact heffect.narrow hm ih
  exact hall _ h.effects

end Effects

namespace Domain

variable {d e : Domain Exact} {f : ℚ}

/-- Both roundings of a fractional value cut the box. -/
theorem Narrow.cuts (h : d.Narrow m) (hm : m.Boxed) (hf : 0 ≤ f) (hfeastol : d.feastol = number f)
    (hfeasible : d.infeasible = none) {solution : RelaxationSolution Exact}
    {fractional : List (ColumnId × Exact)}
    (hfractional : d.fractionalColumns solution = .ok fractional) {c : ColumnId} {value : Exact}
    (hmem : (c, value) ∈ fractional) (objective : Exact) (direction : Direction) :
    m.Cuts d.trail.values (Decision.ofValue c value objective direction).change := by
  obtain ⟨hcolumn, -, proposed, lower, upper, hlower, hupper, hvalue, hdown, hup⟩ :=
    mem_fractionalColumns hfractional hmem
  have hc : m.IsIntegerColumn c := Model.mem_integerColumns.mp (h.model ▸ hcolumn)
  obtain ⟨k, l, hk, hl, hkl⟩ := h.built.exists_int hm (h.ordered hfeasible) hc
  rw [boundValue_eq_ok hlower, boundValue_eq_ok hupper, ← trail_values, hk, hl] at hvalue
  obtain ⟨q, hq, hkq, hql⟩ := clamp_eq hkl proposed
  rw [hq] at hvalue
  subst hvalue
  rw [hfeastol] at hdown hup
  change number f < number q - number ⌊q⌋ at hdown
  change number f < number ⌈q⌉ - number q at hup
  rw [number_sub, number_lt] at hdown hup
  have hdown : (⌊q⌋ : ℚ) < q := by linarith
  have hup : q < ⌈q⌉ := by linarith
  cases direction with
  | down =>
      refine ⟨hc, .inr (.inr ⟨⌊q⌋, rfl⟩), decide_eq_true ?_, decide_eq_true ?_⟩
      · change number (⌊q⌋ : ℚ) < d.trail.values .upper c
        rw [hl, number_lt]
        exact hdown.trans_le hql
      · change d.trail.values .lower c ≤ number (⌊q⌋ : ℚ)
        rw [hk, number_le]
        exact_mod_cast Int.le_floor.mpr hkq
  | up =>
      refine ⟨hc, .inr (.inr ⟨⌈q⌉, rfl⟩), decide_eq_true ?_, decide_eq_true ?_⟩
      · change d.trail.values .lower c < number (⌈q⌉ : ℚ)
        rw [hk, number_lt]
        exact hkq.trans_lt hup
      · change number (⌈q⌉ : ℚ) ≤ d.trail.values .upper c
        rw [hl, number_le]
        exact_mod_cast Int.ceil_le.mpr hql

/-- With its log a domain got its box back. -/
theorem Returned.trail_eq (h : d.Returned e) (hd : d.Narrow m) (he : e.Narrow m) :
    e.trail = d.trail :=
  he.built.unique (Trail.fresh_ofModel m) hd.built h.log

end Domain

variable {ρ σ η τ : Type}

/-- The search may branch: its box is one of whole numbers, and a solution is kept only while the
domain is feasible. -/
structure SearchState.Ready (m : Model Exact) (f : ℚ) (s : SearchState Exact ρ σ η τ) : Prop where
  narrow : s.propagation.Narrow m
  feastol : s.search.domain.feastol = number f
  leveled : s.search.domain.Leveled
  feasible : s.search.solution.isSome → s.search.domain.infeasible = none

/-- The width of the box of the integer columns. -/
def SearchState.width (m : Model Exact) (s : SearchState Exact ρ σ η τ) : ℚ :=
  m.width s.search.domain.trail.values

/-- The node on top was created by a decision, and is not explored. Its decision and the one that is
left of its parent cut the box in which the parent was branched on. -/
def SearchState.Split (m : Model Exact) (s : SearchState Exact ρ σ η τ) : Prop :=
  ∃ child parent rest first second, s.search.nodes = child :: parent :: rest ∧
    child.isExplored = false ∧ child.decision = some first ∧ parent.pending = some second ∧
    m.Cuts (s.search.domain.trail.rewindTo child.position).values first.change ∧
    m.Cuts (s.search.domain.trail.rewindTo child.position).values second.change

namespace SearchStep

variable {x : PropagationState Exact} {t : Tally τ} {d : Domain Exact} {f : ℚ}
  {solution : RelaxationSolution Exact} {fractional : List (ColumnId × Exact)}

/-- What is known of the domain once children were tried: it is as before, unless a column was
tightened, which made the box narrower. -/
def Tried (m : Model Exact) (d : Domain Exact) (selection : Selection Exact)
    (s : SearchState Exact ρ σ η τ) : Prop :=
  match selection with
  | .tightened => s.width m + 1 ≤ m.width d.trail.values ∧
      s.search.domain.feastol = d.feastol ∧ s.search.domain.Leveled
  | _ => Returned d s

/-- Tightening a column to a rounded fractional value makes the box narrower. -/
theorem tighten_narrows (hm : m.Boxed) (hd : d.Narrow m) (hx : x.Narrow m)
    {decision : Decision Exact}
    (hcuts : m.Cuts d.trail.values decision.change) :
    Leads (fun s => Affects x t s ∧ Returned d s)
      (tighten decision : SearchStep Exact ρ σ η τ Unit) fun _ => Tried m d .tightened := by
  refine Leads.fix fun s₀ hs₀ => ?_
  let Changed : SearchState Exact ρ σ η τ → Prop := fun s =>
    s₀.search.domain.changeBound decision.change .unknown = .ok s.search.domain
  have hchanged : Indifferent Changed := .alone fun _ _ hs h => by
    simp only [Changed, h.domain]
    exact hs
  refine (changeDomain_leads (Q := Changed) hchanged fun s e hs he => ?_).after fun _ s hs => ?_
  · subst hs
    exact he
  · have hnarrow := (hs₀.1.narrow hm hx).domain
    have hsame := hs₀.2.trail_eq hd hnarrow
    have hwidth := (hnarrow.cut_width hm (hsame ▸ hcuts) hs₀.2.feasible hs).2
    exact ⟨hsame ▸ hwidth, (Domain.changeBound_sameSetting hs).feastol.trans hs₀.2.feastol,
      Domain.Turn.leveled hs₀.2.leveled (.change hs)⟩

section Branching

variable [Relaxation ρ Exact]

/-- Candidates are tried until one of them has an infeasible child. -/
theorem tryCandidates_tried (hm : m.Boxed) (hd : d.Narrow m) (hx : x.Narrow m)
    (hf : 0 ≤ f) (hfeastol : d.feastol = number f) (hfeasible : d.infeasible = none)
    (hfractional : d.fractionalColumns solution = .ok fractional)
    {candidates : List (Candidate Exact)}
    (hcandidates : ∀ candidate ∈ candidates, (candidate.column, candidate.value) ∈ fractional) :
    Leads (fun s => Affects x t s ∧ Returned d s) (tryCandidates solution candidates :
      SearchStep Exact ρ σ η τ (Option (Selection Exact)))
      fun selection s => selection.elim (Returned d s) fun selection => Tried m d selection s := by
  induction candidates with
  | nil => exact Leads.pure fun s hs => hs.2
  | cons candidate rest ih =>
      have hmem := hcandidates candidate (List.mem_cons_self ..)
      have hvalue : IsFractional candidate.value :=
        have ⟨_, _, _, _, _, _, _, _, hvalue, _⟩ := Domain.mem_fractionalColumns hfractional hmem
        ⟨_, hvalue⟩
      have hrest := ih fun other hother => hcandidates other (List.mem_cons_of_mem _ hother)
      have htry (direction : Direction) : Keeps (fun s => Affects x t s ∧ Returned d s)
          (tryChild solution candidate.column candidate.value direction :
            SearchStep Exact ρ σ η τ (ChildOutcome Exact)) :=
        ((tryChild_affects _ _ hvalue _).before fun _ hs => hs.1).and
          ((tryChild_returned _ _ _ _).before fun _ hs => hs.2)
      refine (htry .down).bind fun down => (htry .up).bind fun up => ?_
      have htightened (direction : Direction) : Leads (fun s => Affects x t s ∧ Returned d s) (do
          tighten (Decision.ofValue candidate.column candidate.value solution.objective direction)
          return some .tightened : SearchStep Exact ρ σ η τ (Option (Selection Exact)))
          fun selection s => selection.elim (Returned d s) fun selection => Tried m d selection s :=
        (tighten_narrows hm hd hx (hd.cuts hm hf hfeastol hfeasible hfractional hmem _ _)).bind
          fun _ => Leads.pure fun _ hs => hs
      cases down <;> cases up
      · exact Leads.pure fun _ hs => hs.2
      · exact htightened _
      · exact htightened _
      · exact htightened _
      · exact hrest
      · exact hrest
      · exact htightened _
      · exact hrest
      · exact hrest

theorem selectColumn_tried (hm : m.Boxed) (hd : d.Narrow m) (hx : x.Narrow m)
    (hf : 0 ≤ f) (hfeastol : d.feastol = number f) (hfeasible : d.infeasible = none)
    (hfractional : d.fractionalColumns solution = .ok fractional) :
    Leads (fun s => Affects x t s ∧ Returned d s) (selectColumn solution fractional :
      SearchStep Exact ρ σ η τ (Selection Exact)) (Tried m d) := by
  have hbest (ranked : List (Candidate Exact)) (s : SearchState Exact ρ σ η τ) (hs : Returned d s) :
      Tried m d (best ranked) s := by
    cases ranked <;> exact hs
  refine shared_keeps.bind fun _ => (rank_leads fractional).knowing fun ranked hranked => ?_
  obtain ⟨p, hranked⟩ := hranked
  refine Leads.ite (fun _ => Leads.pure fun s hs => hbest ranked s hs.2) fun _ => ?_
  refine search_keeps.bind fun search => Leads.lift.knowing fun unreliable hkept => ?_
  refine (tryCandidates_tried hm hd hx hf hfeastol hfeasible hfractional fun candidate hcandidate =>
    Pseudocost.mem_rank hranked (mem_keepIf hkept (List.mem_of_mem_take hcandidate)).1).bind
      fun selection => ?_
  cases selection with
  | some selection => exact Leads.pure fun _ hs => hs
  | none =>
      exact currentNode_keeps.bind fun _ => (warmStart_keeps returned_indifferent _).bind fun _ =>
        (rank_leads fractional).bind fun ranked => Leads.pure fun s hs => hbest ranked s hs.2

/-- Branching on a column with a fractional value splits the node. -/
theorem branchOn_splits (hleveled : d.Leveled) (hfeasible : d.infeasible = none)
    {c : ColumnId} {value : Exact}
    (hcuts : ∀ direction, m.Cuts d.trail.values
      (Decision.ofValue c value solution.objective direction).change) :
    Leads (fun s => s.search.domain = d) (branchOn solution c value :
      SearchStep Exact ρ σ η τ Unit) fun _ => SearchState.Split m := by
  have hsplit (first second : Decision Exact) (hfirst : m.Cuts d.trail.values first.change)
      (hsecond : m.Cuts d.trail.values second.change) :
      Leads (fun s => s.search.domain = d) (splitNode first second : SearchStep Exact ρ σ η τ Unit)
        fun _ => SearchState.Split m := by
    refine Leads.bind (Q := fun _ s => ∃ parent rest, parent.pending = some second ∧
      Stands (parent :: rest) d s) (changeNode_leads fun s node rest hs _ =>
        ⟨_, rest, rfl, rfl, hs⟩) fun _ => Leads.fix fun s hs => ?_
    obtain ⟨parent, rest, hpending, hstands⟩ := hs
    refine (enterChild_leads first).mono (by rintro _ rfl; exact hstands) fun _ s' hs' => ?_
    obtain ⟨child, subtrees, -, hnodes, hdecision, hposition, -, hexplored, hchange⟩ := hs'
    obtain ⟨previous, hprevious, htrail⟩ := Domain.changeBound_of_cuts hfirst hfeasible hchange
    have hback : s'.search.domain.trail.rewindTo child.position = d.trail := by
      rw [htrail, hposition]
      exact Trail.rewindTo_append_size _ _ _ _ hleveled.decisionsLogged hprevious
    refine ⟨child, _, rest, first, second, hnodes, hexplored, hdecision, hpending, ?_, ?_⟩
    · rwa [hback]
    · rwa [hback]
  have hdomain : Indifferent fun s : SearchState Exact ρ σ η τ => s.search.domain = d :=
    .alone fun _ _ hs h => h.domain.trans hs
  refine (firstDirection_keeps hdomain c value).bind fun direction => ?_
  cases direction with
  | down => exact hsplit _ _ (hcuts .down) (hcuts .up)
  | up => exact hsplit _ _ (hcuts .up) (hcuts .down)

variable [Separator σ Exact] [Proposer η Exact]

/-- A limit for how often the node is tightened: none if there is no solution to branch on, and else
the width of its box. -/
def retries (m : Model Exact) (s : SearchState Exact ρ σ η τ) : ℕ :=
  if s.search.solution.isSome then ⌊s.width m⌋₊ + 1 else 0

omit [Relaxation ρ Exact] [Separator σ Exact] [Proposer η Exact] in
theorem retries_lt {s s' : SearchState Exact ρ σ η τ} (hsome : s.search.solution.isSome)
    (hnarrower : s'.search.solution.isSome → 0 ≤ s'.width m ∧ s'.width m + 1 ≤ s.width m) :
    retries m s' < retries m s := by
  rw [retries, retries, if_pos hsome]
  split
  · next hsome' =>
      obtain ⟨hnonneg, hle⟩ := hnarrower hsome'
      have hfloor := Nat.floor_le_floor hle
      rw [Nat.floor_add_one hnonneg] at hfloor
      omega
  · omega

/-- One try to branch splits the node if it branches, and makes the box narrower if the node has to
be branched on again. -/
theorem branchOnce_cuts (hm : m.Boxed) (hf : 0 ≤ f) {s₀ : SearchState Exact ρ σ η τ}
    (hs₀ : s₀.Ready m f) :
    Leads (fun s => s = s₀) (branchOnce : SearchStep Exact ρ σ η τ (Option NodeResult))
      fun result s => result.elim (s.Ready m f ∧ retries m s < retries m s₀) fun result =>
        result = .branched → s.Split m := by
  have hprune {P : SearchState Exact ρ σ η τ → Prop} {result : NodeResult}
      (hresult : result ≠ .branched) : Leads P (do
      return some (← prune result) : SearchStep Exact ρ σ η τ (Option NodeResult))
      fun result s => result.elim (s.Ready m f ∧ retries m s < retries m s₀) fun result =>
        result = .branched → s.Split m :=
    (prune_returns result).bind fun r => Leads.pure fun s hs h => absurd (hs.symm.trans h) hresult
  refine search_leads.bind fun search => Leads.fix fun s hs => ?_
  obtain ⟨rfl, rfl⟩ := hs
  refine Leads.bind (Q := fun _ s' => Affects s.propagation s.tally s' ∧
    s'.search.domain = s.search.domain)
    (changeSearch_leads fun s' hs' => ?_) fun _ => ?_
  · subst hs'
    exact ⟨⟨.refl, rfl⟩, rfl⟩
  cases hsolution : s.search.solution with
  | none => exact hprune (by simp)
  | some solution =>
      have hfeasible := hs₀.feasible (by rw [hsolution]; rfl)
      have hd := hs₀.narrow.domain
      refine Leads.bind (Q := fun d s' => d = s.search.domain ∧ Affects s.propagation s.tally s' ∧
        Returned s.search.domain s') (domain_leads.after fun d s' hs' => ?_) fun d => ?_
      · obtain ⟨hdomain, haffects, hsame⟩ := hs'
        refine ⟨hdomain.trans hsame, haffects, ?_⟩
        rw [Returned, hsame]
        exact ⟨rfl, rfl, rfl, hfeasible, hs₀.leveled⟩
      refine Leads.fix fun s₁ hs₁ => ?_
      obtain ⟨rfl, hs₁⟩ := hs₁
      refine Leads.before (P := fun s' => Affects s.propagation s.tally s' ∧
        Returned s.search.domain s')
        ?_ (by rintro _ rfl; exact hs₁)
      refine Leads.lift.knowing fun fractional hfractional => ?_
      refine Leads.ite (fun _ => hprune (by simp)) fun _ => ?_
      have hvalues : ∀ entry ∈ fractional, IsFractional entry.2 := fun entry hentry =>
        have ⟨_, _, _, _, _, _, _, _, hvalue, _⟩ := Domain.mem_fractionalColumns hfractional hentry
        ⟨_, hvalue⟩
      refine Leads.bind (((selectColumn_affects solution hvalues).before fun _ hs => hs.1).and
        (selectColumn_tried hm hd hs₀.narrow hf hs₀.feastol hfeasible
          hfractional)) fun selection => ?_
      refine Leads.fix fun s₂ hs₂ => ?_
      obtain ⟨⟨hmem, haffects⟩, htried⟩ := hs₂
      have hnarrow := haffects.narrow hm hs₀.narrow
      cases selection with
      | column c value =>
          have hreturned : s.search.domain.Returned s₂.search.domain := htried
          have hcuts (direction : Direction) : m.Cuts s₂.search.domain.trail.values
              (Decision.ofValue c value solution.objective direction).change := by
            rw [hreturned.trail_eq hd hnarrow.domain]
            exact hd.cuts hm hf hs₀.feastol hfeasible hfractional (hmem c value rfl) _ _
          refine Leads.bind ((branchOn_splits hreturned.leveled hreturned.feasible hcuts).before
            (by rintro _ rfl; rfl)) fun _ => Leads.pure fun _ hs _ => hs
      | infeasible => exact hprune (by simp)
      | tightened =>
          obtain ⟨hwidth, hfeastol, hleveled⟩ := htried
          have hworks : s₂.search.Works s₂.search := .refl _
          refine Leads.bind ((evaluateOnce_worked.before (by rintro _ rfl; exact hworks)).and
            (evaluateOnce_affects.before (by rintro _ rfl; exact haffects))) fun result => ?_
          refine Leads.fix fun s₃ hs₃ => ?_
          obtain ⟨⟨hbranched, hworked⟩, haffects⟩ := hs₃
          refine Leads.ite (fun _ => ?_) fun _ => hprune hbranched
          refine Leads.pure fun s' hs' => ?_
          subst hs'
          have hnarrow' := haffects.narrow hm hs₀.narrow
          refine ⟨⟨hnarrow', ?_, hworked.works.turns.leveled hleveled, hworked.ready⟩,
            retries_lt (by rw [hsolution]; rfl) fun hsome => ?_⟩
          · exact hworked.works.turns.constant.2.trans (hfeastol.trans hs₀.feastol)
          · have hordered := hnarrow'.domain.ordered (hworked.ready hsome)
            have hle : s'.width m ≤ s₂.width m := hnarrow'.domain.built.width_le hm hordered
              hnarrow.domain.built hworked.works.domain.log
            refine ⟨(hnarrow'.domain.built.box_whole hm hordered).width_nonneg, ?_⟩
            linarith [show s₂.width m + 1 ≤ s.width m from hwidth]

theorem nextBranching_eq_inl {s s' : SearchState Exact ρ σ η τ} :
    nextBranching s = .inl s' ↔ branchOnce.perform s = (.ok none, s') := by
  unfold nextBranching
  split
  · next h => simp [h]
  · next h => simp [h]
  · next h => simp [h]

/-- Fixing a column, so that the node is evaluated again, makes the box narrower. -/
def FixingNarrows (m : Model Exact) (s : SearchState Exact ρ σ η τ) : Prop :=
  ∀ solution fractional s', s.search.solution = some solution →
    s.search.domain.fractionalColumns solution = .ok fractional →
    (selectColumn solution fractional).perform
      { s with search := { s.search with solution := none } } =
      (.ok .tightened, s') → s'.width m + 1 ≤ s.width m

omit [Separator σ Exact] [Proposer η Exact] in
/-- While the search may branch, every column that it fixes makes the box narrower. -/
theorem fixingNarrows_of_ready (hm : m.Boxed) (hf : 0 ≤ f)
    {s : SearchState Exact ρ σ η τ} (hs : s.Ready m f) : FixingNarrows m s := by
  intro solution fractional s' hsolution hfractional h
  have hfeasible := hs.feasible (by rw [hsolution]; rfl)
  have haffects : Affects s.propagation s.tally
      { s with search := { s.search with solution := none } } := ⟨.refl, rfl⟩
  exact (selectColumn_tried hm hs.narrow.domain hs.narrow hf hs.feastol hfeasible hfractional _ _ _
    ⟨haffects, rfl, rfl, rfl, hfeasible, hs.leveled⟩ h).1

section Repetition

variable (hm : m.Boxed) (hf : 0 ≤ f)
include hm hf

/-- Branching splits the node unless it finishes it. -/
theorem branch_splits : Leads (SearchState.Ready m f) (branch : SearchStep Exact ρ σ η τ NodeResult)
    fun result s => result = .branched → s.Split m :=
  branch_leads <| Leads.fix fun _ hs => (branchOnce_cuts hm hf hs).after fun result _ hs' => by
    cases result with
    | none => exact hs'.1
    | some result => exact hs'

theorem nextBranching_ready {s s' : SearchState Exact ρ σ η τ} (hs : s.Ready m f)
    (h : nextBranching s = .inl s') : s'.Ready m f ∧ retries m s' < retries m s :=
  branchOnce_cuts hm hf hs _ _ _ rfl (nextBranching_eq_inl.mp h)

/-- Tightening the node and evaluating it again ends. -/
theorem branchOutcome?_isSome {s : SearchState Exact ρ σ η τ} (hs : s.Ready m f) :
    (branchOutcome? s).isSome := by
  obtain ⟨outcome, houtcome, -⟩ := iterate?_isSome (P := SearchState.Ready m f) (Q := fun _ => True)
    (retries m) (fun _ _ _ _ => trivial) (fun _ _ => nextBranching_ready hm hf) hs
  exact Option.isSome_iff_exists.mpr ⟨outcome, houtcome⟩

end Repetition

end Branching

end SearchStep

end BranchBound
