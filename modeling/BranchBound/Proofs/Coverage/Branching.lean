import BranchBound.Proofs.Coverage.Evaluation
import BranchBound.Proofs.Search.BranchingCuts

/-!
# Branching that keeps a point

The two children of a fractional column have every whole point of their parent between them. So a
child that is infeasible or too expensive tells that the point is in the other one, a node with two
such children does not hold it, and once a node that holds it was branched on, one of the children
does: the one that was entered, or the one that is left on the stack.
-/

namespace BranchBound

open Checked Exact BranchBound.Action

variable {ρ σ η τ : Type} {g : Target ρ}

/-! ### Decisions -/

theorem IsFractional.exists_number {v : Exact} (h : IsFractional v) : ∃ q, v = number q := by
  obtain ⟨tolerance, hlt⟩ := h
  have hnan : v - Scalar.floor v ≠ nan := (not_nan_of_le (Exact.le_of_lt hlt)).2
  cases v with
  | number q => exact ⟨q, rfl⟩
  | plus => exact absurd rfl hnan
  | minus => exact absurd rfl hnan
  | nan => exact absurd rfl hnan

/-- Ranking loses no column. -/
theorem Pseudocost.length_rank {p : Pseudocost Exact} {fractional : List (ColumnId × Exact)}
    {ranked : List (Candidate Exact)} (h : p.rank fractional = .ok ranked) :
    ranked.length = fractional.length := by
  simp only [rank, bind_eq_ok, pure_eq_ok] at h
  obtain ⟨scored, hscored, rfl⟩ := h
  rw [List.length_mergeSort, (mapM_eq_ok.mp hscored).length_eq]

namespace Decision

/-- The decision is about a whole value. -/
def IsWhole (decision : Decision Exact) : Prop := ∃ k : ℤ, decision.change.value = number k

variable {c : ColumnId} {value objective : Exact} {direction : Direction} {x : Point}

theorem isWhole_ofValue (h : IsFractional value) :
    (ofValue c value objective direction).IsWhole := by
  obtain ⟨q, rfl⟩ := h.exists_number
  cases direction with
  | down => exact ⟨⌊q⌋, rfl⟩
  | up => exact ⟨⌈q⌉, rfl⟩

/-- The other child of a column has the points which one child has not. -/
theorem ofValue_other (c : ColumnId) (objective : Exact) (x : Point) (h : IsFractional value) :
    (ofValue c value objective .down).change.HoldsAt x ∨
      (ofValue c value objective .up).change.HoldsAt x := by
  obtain ⟨q, rfl⟩ := h.exists_number
  by_cases hle : x c ≤ ⌊q⌋
  · refine .inl ?_
    change number (x c : ℚ) ≤ number ⌊q⌋
    rw [number_le]
    exact_mod_cast hle
  · refine .inr ?_
    change number ⌈q⌉ ≤ number (x c : ℚ)
    rw [number_le]
    have hceil : ⌈q⌉ ≤ x c := Int.ceil_le.mpr (Int.floor_lt.mp (not_le.mp hle)).le
    exact_mod_cast hceil

end Decision

/-- A change of a bound is logged behind what was logged before. -/
theorem Domain.log_changeBound {d d' : Domain Exact} {change : BoundChange Exact} {reason : Reason}
    (h : d.changeBound change reason = .ok d') : d.log.toList <+: d'.log.toList := by
  by_cases hbranching : reason = .branching
  · subst hbranching
    by_cases hfeasible : d.infeasible = none
    · exact (changeBound_opened h hfeasible).extends
    · rcases changeBound_eq_ok h with ⟨-, rfl⟩ | ⟨hnone, -⟩
      · exact List.prefix_rfl
      · exact absurd hnone hfeasible
  · exact (changeBound_deepened h hbranching).log

namespace SearchStep

variable {start : Search Exact ρ} {held bounded : Prop} {d : Domain Exact}

/-! ### Trying children -/

/-- A change of a bound may be made that holds at the point if that is in the box. -/
theorem changeBound_attends {change : BoundChange Exact} {reason : Reason}
    (held held' : Prop) (hreason : reason = .branching ∨ reason = .unknown)
    (hwhole : ∃ k : ℤ, change.value = number k) :
    Leads (fun s => Attends g start held bounded s ∧
        s.search.domain.Harmless g.point change reason ∧ (held' → held ∧ change.HoldsAt g.point))
      (changeDomain fun d => d.changeBound change reason : SearchStep Exact ρ σ η τ Unit)
      fun _ => Attends g start held' bounded := by
  refine changeDomain_operates attends_aloof (fun _ => .changeBound change reason)
    (fun pools d d' h => ?_) fun s p hs hperform => ?_
  · rw [Operation.perform, PropagationState.onDomain_eq_ok]
    exact ⟨d', h, rfl⟩
  obtain ⟨h, hharmless, hheld⟩ := hs
  have hinforms : (Operation.changeBound change reason).Informs s.propagation := ⟨hreason, hwhole⟩
  rw [Operation.perform, PropagationState.onDomain_eq_ok] at hperform
  obtain ⟨d', hchange, rfl⟩ := hperform
  refine ⟨h.cares.onto hinforms hharmless (by simp) ?_, fun hheld' => ?_, h.bound, h.below,
    h.givenUpBound⟩
  · rw [Operation.perform, PropagationState.onDomain_eq_ok]
    exact ⟨d', hchange, rfl⟩
  · obtain ⟨hin, hholds⟩ := hheld hheld'
    exact h.cares.regards.held_changeBound (h.holds hin) hholds hchange _

/-- The search attends to the point in a node with the given domain. -/
structure Weighs (g : Target ρ) (start : Search Exact ρ) (held bounded : Prop) (d : Domain Exact)
    (s : SearchState Exact ρ σ η τ) : Prop where
  returned : Returned d s
  attends : Attends g start held bounded s

/-- A child whose sibling is infeasible has the point if its parent does. -/
theorem tighten_attends {decision : Decision Exact} (hwhole : decision.IsWhole) :
    Leads (fun s => Weighs g start held bounded d s ∧
        (d.Holds g.point → decision.change.HoldsAt g.point))
      (tighten decision : SearchStep Exact ρ σ η τ Unit) fun _ => Attends g start held bounded := by
  refine (changeBound_attends held held (.inr rfl) hwhole).before fun s hs => ?_
  obtain ⟨⟨hreturned, h⟩, hholds⟩ := hs
  have hinside : s.search.domain.Holds g.point → decision.change.HoldsAt g.point := fun hin =>
    hholds (hin.of_log hreturned.log.symm)
  exact ⟨h, h.cares.harmless hinside, fun hheld => ⟨hheld, hinside (h.holds hheld)⟩⟩

section Relaxation

variable [Relaxation ρ Exact] (hg : g.Valid)

include hg

/-- A child is not called infeasible if the point is in it. -/
theorem boundChild_attends (parentObjective : Exact) (decision : Decision Exact) :
    Leads (Attends g start held bounded) (boundChild parentObjective decision :
      SearchStep Exact ρ σ η τ (ChildOutcome Exact))
      fun outcome s => (outcome = .infeasible → ¬held) ∧ Attends g start held bounded s := by
  refine Leads.bind (changeStatistics_aloof attends_aloof (by intros; rfl)) fun _ =>
    (resolve_attends hg).bind fun result => ?_
  cases result with
  | optimal child =>
      refine Leads.bind (Q := fun _ => Solved g start held bounded child)
        ((changeStatistics_aloof solved_aloof (by intros; rfl)).before fun s hs => ⟨hs.1, hs.2⟩)
        fun _ => (changePseudocost_aloof solved_aloof _).bind fun _ => shared_leads.bind
          fun shared =>
          Leads.ite (fun habove => ?_) fun _ => ?_
      · refine Leads.pure fun s hs => ⟨fun _ hheld => ?_, hs.2.attends⟩
        obtain ⟨rfl, h⟩ := hs
        exact h.not_above hg hheld habove
      · exact ((notify_aloof solved_aloof _).before fun s hs => hs.2).bind fun _ =>
          Leads.pure fun s hs => ⟨nofun, hs.attends⟩
  | infeasible proof =>
      exact Leads.pure fun s hs => ⟨fun _ hheld =>
        hs.1.1 _ hg.feasible (hs.2.cares.contains (hs.2.holds hheld)), hs.2⟩
  | unbounded => exact Leads.pure fun s hs => ⟨nofun, hs.2⟩
  | numericalTrouble => exact Leads.pure fun s hs => ⟨nofun, hs.2⟩

/-- Trying a child tells whether the point may be in it, and is undone. -/
theorem tryChild_weighs {c : ColumnId} {value : Exact} (hvalue : IsFractional value)
    (solution : RelaxationSolution Exact) (direction : Direction) :
    Leads (Weighs g start held bounded d) (tryChild solution c value direction :
      SearchStep Exact ρ σ η τ (ChildOutcome Exact))
      fun outcome s => (outcome = .infeasible → d.Holds g.point →
        ¬(Decision.ofValue c value solution.objective direction).change.HoldsAt g.point) ∧
        Weighs g start held bounded d s := by
  let change := (Decision.ofValue c value solution.objective direction).change
  let inside := d.Holds g.point ∧ change.HoldsAt g.point
  refine Leads.fix fun s₀ hs₀ => ?_
  obtain ⟨hreturned, h⟩ := hs₀
  have hwhole : ∃ k : ℤ, change.value = number k := Decision.isWhole_ofValue hvalue
  -- all that is undone is told by what the child attends to
  have hundo (outcome : ChildOutcome Exact) :
      Leads (fun s => (outcome = .infeasible → ¬inside) ∧ Attends g start inside bounded s) (do
        undoLevel
        return outcome : SearchStep Exact ρ σ η τ (ChildOutcome Exact))
        fun outcome s => (outcome = .infeasible → ¬inside) ∧ Attends g start False bounded s := by
    refine (undoLevel_performs (Q := fun s => (outcome = .infeasible → ¬inside) ∧
      Attends g start False bounded s) fun s p hs hperform => ?_).bind fun _ =>
        Leads.pure fun s hs => hs
    have hinforms : Operation.backtrack.Informs s.propagation := trivial
    exact ⟨hs.1, hs.2.cares.onto hinforms trivial (by simp) hperform, False.elim, hs.2.bound,
      hs.2.below, hs.2.givenUpBound⟩
  have htried : Leads (Attends g start (d.Holds g.point) bounded)
    (tryChild solution c value direction :
      SearchStep Exact ρ σ η τ (ChildOutcome Exact))
      fun outcome s => (outcome = .infeasible → ¬inside) ∧ Attends g start False bounded s := by
    refine Leads.bind ((changeBound_attends (d.Holds g.point) inside (.inl rfl) hwhole).before
      fun s hs => ⟨hs, .inl rfl, id⟩) fun _ => propagate_attends.bind fun isFeasible =>
        Leads.ite (fun _ => ?_) fun hinfeasible => ?_
    · exact ((boundChild_attends hg _ _).before fun s hs => hs.2).bind hundo
    · refine Leads.bind (Q := fun outcome s => (outcome = .infeasible → ¬inside) ∧
        Attends g start inside bounded s) (Leads.pure fun s hs => ⟨fun _ hinside => ?_, hs.2⟩) hundo
      exact hinfeasible (hs.1 hinside)
  rintro _ outcome t rfl hperform
  have hback : Returned d t := tryChild_returned solution c value direction _ _ _ hreturned hperform
  obtain ⟨houtcome, hafter⟩ := htried _ _ _
    ⟨h.cares, fun hin => hin.of_log hreturned.log, h.bound, h.below, h.givenUpBound⟩ hperform
  refine ⟨fun hout hin hholds => houtcome hout ⟨hin, hholds⟩, hback, hafter.cares, fun hheld => ?_,
    hafter.bound, hafter.below, hafter.givenUpBound⟩
  exact ((h.holds hheld).of_log hreturned.log.symm).of_log hback.log

/-- What a selection of a column to branch on tells. -/
def Selects (g : Target ρ) (start : Search Exact ρ) (held bounded : Prop) (d : Domain Exact)
    (fractional : List (ColumnId × Exact)) (selection : Selection Exact)
    (s : SearchState Exact ρ σ η τ) : Prop :=
  match selection with
  | .column c value => (c, value) ∈ fractional ∧ Weighs g start held bounded d s
  | .tightened => Attends g start held bounded s
  | .infeasible => (fractional ≠ [] → ¬held) ∧ Attends g start held bounded s

theorem tryCandidates_selects {solution : RelaxationSolution Exact}
    (fractional : List (ColumnId × Exact)) {candidates : List (Candidate Exact)}
    (hvalues : ∀ candidate ∈ candidates, IsFractional candidate.value) :
    Leads (Weighs g start held bounded d) (tryCandidates solution candidates :
      SearchStep Exact ρ σ η τ (Option (Selection Exact)))
      fun selection s => selection.elim (Weighs g start held bounded d s)
        fun selection => Selects g start held bounded d fractional selection s := by
  induction candidates with
  | nil => exact Leads.pure fun _ hs => hs
  | cons candidate rest ih =>
      have hvalue := hvalues candidate (List.mem_cons_self ..)
      have hrest := ih fun other hother => hvalues other (List.mem_cons_of_mem _ hother)
      refine (tryChild_weighs hg hvalue solution .down).bind fun down => Leads.fix fun s₀ hs₀ => ?_
      obtain ⟨hdown, hs₀⟩ := hs₀
      refine Leads.before (P := Weighs g start held bounded d) ?_ (by rintro _ rfl; exact hs₀)
      refine (tryChild_weighs hg hvalue solution .up).bind fun up => Leads.fix fun s₁ hs₁ => ?_
      obtain ⟨hup, hs₁⟩ := hs₁
      refine Leads.before (P := Weighs g start held bounded d) ?_ (by rintro _ rfl; exact hs₁)
      have hother := Decision.ofValue_other candidate.column solution.objective g.point hvalue
      have htightened (direction : Direction) (hholds : d.Holds g.point →
          (Decision.ofValue candidate.column candidate.value solution.objective
            direction).change.HoldsAt g.point) : Leads (Weighs g start held bounded d) (do
          tighten (Decision.ofValue candidate.column candidate.value solution.objective direction)
          return some .tightened : SearchStep Exact ρ σ η τ (Option (Selection Exact)))
          fun selection s => selection.elim (Weighs g start held bounded d s)
            fun selection => Selects g start held bounded d fractional selection s :=
        Leads.bind ((tighten_attends (Decision.isWhole_ofValue hvalue)).before
          fun s hs => ⟨hs, hholds⟩) fun _ => Leads.pure fun s hs => hs
      cases down <;> cases up
      · refine Leads.pure fun s hs => ⟨fun _ hheld => ?_, hs.attends⟩
        have hin := (hs.attends.holds hheld).of_log hs.returned.log.symm
        exact hother.elim (hdown rfl hin) (hup rfl hin)
      · exact htightened _ fun hin => hother.resolve_left (hdown rfl hin)
      · exact htightened _ fun hin => hother.resolve_left (hdown rfl hin)
      · exact htightened _ fun hin => hother.resolve_right (hup rfl hin)
      · exact hrest
      · exact hrest
      · exact htightened _ fun hin => hother.resolve_right (hup rfl hin)
      · exact hrest
      · exact hrest

theorem warmStart_attends (basis : Option Basis) :
    Keeps (Attends g start held bounded) (warmStart basis : SearchStep Exact ρ σ η τ Unit) := by
  cases basis with
  | none => exact Keeps.pure
  | some basis =>
      exact changeSearch_leads (f := fun s => { s with
          relaxation := Relaxation.setBasis s.relaxation basis }) fun s h =>
        ⟨{ h.cares with honest := hg.contract.setBasis _ basis h.cares.honest },
          h.holds, h.bound, h.below,
          h.givenUpBound⟩

/-- A column is selected with its fractional value, and a node that holds the point is not called
infeasible. -/
theorem selectColumn_selects (solution : RelaxationSolution Exact)
    {fractional : List (ColumnId × Exact)} (hvalues : ∀ entry ∈ fractional, IsFractional entry.2) :
    Leads (Weighs g start held bounded d) (selectColumn solution fractional :
      SearchStep Exact ρ σ η τ (Selection Exact)) (Selects g start held bounded d fractional) := by
  have hbest {p : Pseudocost Exact} {ranked : List (Candidate Exact)}
      (hranked : p.rank fractional = .ok ranked) {s : SearchState Exact ρ σ η τ}
      (h : Weighs g start held bounded d s) :
      Selects g start held bounded d fractional (best ranked) s := by
    cases ranked with
    | nil =>
        refine ⟨fun hsome => absurd (List.length_eq_zero_iff.mp ?_) hsome, h.attends⟩
        rw [← Pseudocost.length_rank hranked]
        rfl
    | cons candidate rest => exact ⟨Pseudocost.mem_rank hranked (List.mem_cons_self ..), h⟩
  refine shared_keeps.bind fun _ => (rank_leads fractional).knowing fun ranked hranked => ?_
  obtain ⟨p, hranked⟩ := hranked
  refine Leads.ite (fun _ => Leads.pure fun s hs => hbest hranked hs) fun _ => ?_
  refine search_keeps.bind fun search => Leads.lift.knowing fun unreliable hkept => ?_
  refine (tryCandidates_selects hg fractional fun candidate hcandidate =>
    hvalues _ (Pseudocost.mem_rank hranked
      (mem_keepIf hkept (List.mem_of_mem_take hcandidate)).1)).bind fun selection => ?_
  cases selection with
  | some selection => exact Leads.pure fun s hs => hs
  | none =>
      refine Leads.bind (P := Weighs g start held bounded d) currentNode_keeps fun node =>
        Leads.bind (Q := fun _ => Weighs g start held bounded d) ?_ fun _ =>
          (rank_leads fractional).bind fun ranked => Leads.pure fun s hs =>
            hbest hs.1.choose_spec hs.2
      intro s _ t h hperform
      exact ⟨warmStart_keeps returned_indifferent _ _ _ _ h.returned hperform,
        warmStart_attends hg _ _ _ _ h.attends hperform⟩

/-! ### Entering children -/

/-- A child of the current node was entered. -/
structure Enters (g : Target ρ) (before : SearchState Exact ρ σ η τ) (decision : Decision Exact)
    (parent : SearchNode Exact) (rest : List (SearchNode Exact)) (s : SearchState Exact ρ σ η τ) :
    Prop where
  cares : Cares g s
  nodes : ∃ child subtrees, s.search.nodes = child :: { parent with openSubtrees := subtrees } ::
    rest ∧
    child.lowerBound = parent.lowerBound ∧ child.position = before.search.domain.log.size ∧
    child.isExplored = false ∧ child.pending = none
  log : before.search.domain.log.toList <+: s.search.domain.log.toList
  holds : before.search.domain.Holds g.point → decision.change.HoldsAt g.point →
    s.search.domain.Holds g.point
  givenUpBound : s.search.givenUpBound = before.search.givenUpBound

/-- Entering a child keeps the point, if it is in that child. -/
theorem enterChild_enters {decision : Decision Exact} (hwhole : decision.IsWhole)
    {before : SearchState Exact ρ σ η τ} {parent : SearchNode Exact}
    {rest : List (SearchNode Exact)}
    (hnodes : before.search.nodes = parent :: rest) (h : Cares g before) :
    Leads (fun s => s = before) (enterChild decision : SearchStep Exact ρ σ η τ Unit)
      fun _ => Enters g before decision parent rest := by
  refine currentNode_leads.bind fun node => search_keeps.bind fun _ => Keeps.lift.bind
    fun estimate =>
    Keeps.lift.bind fun subtrees => Leads.fix fun s₀ hs₀ => ?_
  obtain ⟨⟨_, hnode⟩, rfl⟩ := hs₀
  have hparent : parent = node := (List.cons.inj (hnodes.symm.trans hnode)).1
  subst hparent
  let below := { parent with openSubtrees := subtrees } :: rest
  let counted : SearchState Exact ρ σ η τ := { s₀ with search := { s₀.search with nodes := below } }
  have hcounted : Cares g counted := h.congr rfl rfl rfl
  refine Leads.bind (Q := fun _ s => s = counted) (changeNode_leads fun s top under hs htop => ?_)
    fun _ => Keeps.lift.bind fun depth => domain_leads.bind fun at' => ?_
  · subst hs
    obtain ⟨rfl, rfl⟩ := List.cons.inj (hnodes.symm.trans htop)
    rfl
  -- the domain opens the level of the decision
  let Opened : SearchState Exact ρ σ η τ → Prop := fun s => Cares g s ∧ s.search.nodes = below ∧
    s₀.search.domain.log.toList <+: s.search.domain.log.toList ∧
    (s₀.search.domain.Holds g.point → decision.change.HoldsAt g.point →
      s.search.domain.Holds g.point) ∧ s.search.givenUpBound = s₀.search.givenUpBound
  have hopened : Aloof Opened := .alone fun s s' hs hakin => by
    obtain ⟨hcares, hbelow, hlog, hholds, hgivenUp⟩ := hs
    refine ⟨cares_aloof.akin hcares hakin, hakin.alike.nodes.trans hbelow, ?_, ?_,
      hakin.alike.givenUpBound.trans hgivenUp⟩
    · rwa [hakin.alike.domain]
    · rwa [hakin.alike.domain]
  refine Leads.bind (Q := fun _ s => at' = s₀.search.domain ∧ Opened s) ?_ fun _ => ?_
  · refine changeDomain_operates (hopened.given _)
      (fun _ => .changeBound decision.change .branching) (fun pools d d' h => ?_)
        fun s p hs hperform => ?_
    · rw [Operation.perform, PropagationState.onDomain_eq_ok]
      exact ⟨d', h, rfl⟩
    obtain ⟨rfl, rfl⟩ := hs
    have hinforms : (Operation.changeBound decision.change .branching).Informs
      counted.propagation :=
      ⟨.inl rfl, hwhole⟩
    have hcares := hcounted.onto hinforms (.inl rfl) (by simp) hperform
    rw [Operation.perform, PropagationState.onDomain_eq_ok] at hperform
    obtain ⟨d', hchange, rfl⟩ := hperform
    refine ⟨rfl, hcares, rfl, ?_, fun hin hholds => ?_, rfl⟩
    · exact Domain.log_changeBound hchange
    · exact hcounted.regards.held_changeBound hin hholds hchange _
  refine Leads.bind (Q := fun _ s => at' = s₀.search.domain ∧ Opened s) ?_ fun _ =>
    changeSearch_leads fun s hs => ?_
  · cases parent.basis with
    | none => exact Keeps.pure
    | some basis =>
        refine changeSearch_leads (f := fun s => { s with
          relaxation := Relaxation.setBasis s.relaxation basis }) fun s hs => ?_
        obtain ⟨hat, hcares, hrest⟩ := hs
        exact ⟨hat, ⟨hcares.regards, hcares.model, hg.contract.setBasis _ basis hcares.honest,
          hcares.separators, hcares.noCuts, hcares.fits, hcares.seeks, hcares.hopeful⟩, hrest⟩
  · obtain ⟨rfl, hcares, hbelow, hlog, hholds, hgivenUp⟩ := hs
    refine ⟨hcares.congr rfl rfl rfl, ⟨.fresh parent.lowerBound estimate depth parent.basis
      (some decision) s₀.search.domain.log.size, subtrees, congrArg _ hbelow,
      rfl, rfl, rfl, rfl⟩, hlog,
      hholds, hgivenUp⟩

end Relaxation

end SearchStep

/-! ### Branching on a node -/

/-- A stack over a domain shelters a point: the point is in the current node, which is not explored,
or in the child that is left of some node, whose lower bound is not above the given value. The box
of a node is the one before the decision for the node above it was made. -/
def SearchNode.Shelters (x : Point) (v : ℚ) (d : Domain Exact) :
    Nat → List (SearchNode Exact) → Prop
  | _, [] => False
  | p, n :: rest =>
    (n.lowerBound ≤ number v ∧ d.HeldBefore p x ∧
      (n.isExplored = false ∨ ∃ decision, n.pending = some decision ∧ decision.change.HoldsAt x)) ∨
      Shelters x v d n.position rest

namespace SearchStep

variable {start : Search Exact ρ} {held bounded : Prop}

/-- The current node was branched on. If the point was in it, with a lower bound not above its
value, then it is in one of the children. -/
structure Divided (g : Target ρ) (start : Search Exact ρ) (bounded : Prop)
    (s : SearchState Exact ρ σ η τ) : Prop where
  cares : Cares g s
  nodes : ∃ child parent second, s.search.nodes = child :: parent :: start.nodes.tail ∧
    child.pending = none ∧ parent.pending = some second ∧ second.IsWhole
  shelters : bounded → SearchNode.Shelters g.point g.value s.search.domain s.search.domain.log.size
    s.search.nodes
  givenUpBound : s.search.givenUpBound = start.givenUpBound

/-- A solution is kept only while the domain is feasible. -/
def KeepsFeasible (s : SearchState Exact ρ σ η τ) : Prop :=
  s.search.solution.isSome → s.search.domain.infeasible = none

/-- What the result of branching tells. -/
def Resolved (g : Target ρ) (start : Search Exact ρ) (bounded : Prop) (result : NodeResult)
    (s : SearchState Exact ρ σ η τ) : Prop :=
  if result = .branched then Divided g start bounded s else Ended g start bounded s

section Relaxation

variable [Relaxation ρ Exact] (hg : g.Valid) (hin : bounded → held)

include hg hin

theorem splitNode_divides {first second : Decision Exact} (hfirst : first.IsWhole)
    (hsecond : second.IsWhole)
    (hother : first.change.HoldsAt g.point ∨ second.change.HoldsAt g.point) :
    Leads (Attends g start held bounded) (splitNode first second : SearchStep Exact ρ σ η τ Unit)
      fun _ => Divided g start bounded := by
  refine Leads.fix fun s₀ h => ?_
  let split (node : SearchNode Exact) (rest : List (SearchNode Exact)) : SearchState Exact ρ σ η
    τ :=
    { s₀ with search := { s₀.search with nodes :=
      { node with isExplored := true, openSubtrees := 2, pending := some second } :: rest } }
  refine Leads.bind (Q := fun _ s => ∃ node rest, s₀.search.nodes = node :: rest ∧
    s = split node rest)
    (changeNode_leads fun s node rest hs hnodes => ?_) fun _ => Leads.fix fun s₁ hs₁ => ?_
  · subst hs
    exact ⟨node, rest, hnodes, rfl⟩
  obtain ⟨node, rest, hnodes, rfl⟩ := hs₁
  have hcares : Cares g (split node rest) := h.cares.congr rfl rfl rfl
  refine (enterChild_enters hg hfirst rfl hcares).after fun _ s hs => ?_
  obtain ⟨child, subtrees, hs', hbound, hposition, hunexplored, hpending⟩ := hs.nodes
  have htail : rest = start.nodes.tail := by
    rw [← h.below, hnodes]
    rfl
  refine ⟨hs.cares, ⟨child, _, second, htail ▸ hs', hpending, rfl, hsecond⟩, fun hbounded => ?_,
    hs.givenUpBound.trans h.givenUpBound⟩
  have hle : node.lowerBound ≤ number g.value := h.bound hbounded node (by rw [hnodes]; rfl)
  have hheld : s₀.search.domain.Holds g.point := h.holds (hin hbounded)
  rw [hs']
  by_cases hholds : first.change.HoldsAt g.point
  · exact .inl ⟨hbound ▸ hle, hs.holds hheld hholds, .inl hunexplored⟩
  · refine .inr (.inl ⟨hle, ?_, .inr ⟨second, rfl, hother.resolve_left hholds⟩⟩)
    rw [hposition]
    exact Domain.HeldBefore.extend hheld (Nat.le_refl _) hs.log

theorem branchOn_divides {c : ColumnId} {value : Exact} (hvalue : IsFractional value)
    (solution : RelaxationSolution Exact) :
    Leads (Attends g start held bounded) (branchOn solution c value : SearchStep Exact ρ σ η τ Unit)
      fun _ => Divided g start bounded := by
  have hwhole (direction : Direction) :
      (Decision.ofValue c value solution.objective direction).IsWhole :=
        Decision.isWhole_ofValue hvalue
  have hother := Decision.ofValue_other c solution.objective g.point hvalue
  refine (firstDirection_aloof attends_aloof c value).bind fun direction => ?_
  cases direction with
  | down => exact splitNode_divides hg hin (hwhole _) (hwhole _) hother
  | up => exact splitNode_divides hg hin (hwhole _) (hwhole _) hother.symm

variable [Separator σ Exact] [Proposer η Exact]

omit hin [Separator σ Exact] in
/-- A node may be finished with a result that was judged. -/
theorem prune_resolves {result : NodeResult} (hunsolved : result ≠ .unsolved)
    (hbranched : result ≠ .branched) :
    Leads (fun s => Sated g s ∨ Judged g start held bounded result s) (do
      return some (← prune result) : SearchStep Exact ρ σ η τ (Option NodeResult))
      fun result s => Sated g s ∨ result.elim (Attends g start held bounded s ∧ KeepsFeasible s)
        fun result => Resolved g start bounded result s := by
  refine Leads.bind (Q := fun r s => r = result ∧ (Sated g s ∨ Ended g start bounded s)) ?_ fun r =>
    Leads.pure fun s hs => ?_
  · refine ((prune_returns result).and
      (orSated (sated_of_passes hg fun start => prune_passes result)
      ((prune_ends hunsolved).after fun _ _ h => .inr h)))
  · obtain ⟨rfl, hs⟩ := hs
    refine hs.imp_right fun h => ?_
    rw [Option.elim_some, Resolved, if_neg hbranched]
    exact h

theorem branchOnce_resolves :
    Leads (fun s => Attends g start held bounded s ∧ KeepsFeasible s)
      (branchOnce : SearchStep Exact ρ σ η τ (Option NodeResult))
      fun result s => Sated g s ∨ result.elim (Attends g start held bounded s ∧ KeepsFeasible s)
        fun result => Resolved g start bounded result s := by
  have hgivenUp : Leads (Attends g start held bounded) (do
      return some (← prune .givenUp) : SearchStep Exact ρ σ η τ (Option NodeResult))
      fun result s => Sated g s ∨ result.elim (Attends g start held bounded s ∧ KeepsFeasible s)
        fun result => Resolved g start bounded result s :=
    (prune_resolves hg (by simp) (by simp)).before fun s h => .inr ⟨fun _ => .inr rfl, h⟩
  refine search_leads.bind fun s₀ => Leads.bind (Q := fun _ s => (s₀.solution.isSome →
    s.search.domain.infeasible = none) ∧ Attends g start held bounded s)
    (changeSearch_leads fun s hs => ?_) fun _ => ?_
  · obtain ⟨rfl, h, hfeasible⟩ := hs
    exact ⟨hfeasible, h.congr rfl rfl rfl rfl rfl⟩
  cases s₀.solution with
  | none => exact hgivenUp.before fun s hs => hs.2
  | some solution =>
      refine domain_leads.bind fun d => Leads.lift.knowing fun fractional hfractional => ?_
      have hvalues : ∀ entry ∈ fractional, IsFractional entry.2 := fun entry hentry =>
        have ⟨_, _, _, _, _, _, _, _, hvalue, _⟩ := Domain.mem_fractionalColumns hfractional hentry
        ⟨_, hvalue⟩
      refine Leads.ite (fun _ => hgivenUp.before fun s hs => hs.2.2) fun hsome => ?_
      have hne : fractional ≠ [] := by simpa using hsome
      refine Leads.bind (Q := Selects g start held bounded d fractional)
        ((selectColumn_selects hg solution hvalues).before fun s hs => ?_) fun selection => ?_
      · obtain ⟨rfl, hfeasible, h⟩ := hs
        exact ⟨⟨rfl, rfl, rfl, hfeasible rfl, h.cares.regards.leveled⟩, h⟩
      cases selection with
      | column c value =>
          refine Leads.fix fun s hs => ?_
          refine Leads.bind ((branchOn_divides hg hin (hvalues _ hs.1) solution).before
            (by rintro _ rfl; exact hs.2.attends)) fun _ => Leads.pure fun s hs => .inr ?_
          rw [Option.elim_some, Resolved, if_pos rfl]
          exact hs
      | infeasible =>
          exact (prune_resolves hg (by simp) (by simp)).before fun s hs =>
            .inr ⟨fun hbounded => absurd (hin hbounded) (hs.1 hne), hs.2⟩
      | tightened =>
          refine Leads.bind (Q := fun result s => (result ≠ .branched ∧ KeepsFeasible s) ∧
            (Sated g s ∨ Judged g start held bounded result s)) (Leads.and ?_
              (evaluateOnce_judged hg hin)) fun result => Leads.ite (fun hunsolved => ?_)
                fun hsolved => ?_
          · refine Leads.fix fun s _ => ?_
            have hworks : s.search.Works s.search := .refl _
            exact evaluateOnce_worked.mono (by rintro _ rfl; exact hworks) fun _ _ h =>
              ⟨h.1, h.2.ready⟩
          · exact Leads.pure fun s hs => hs.2.imp_right fun h => ⟨h.2, hs.1.2⟩
          · refine Leads.fix fun s hs => ?_
            exact (prune_resolves hg (by simpa using hsolved) hs.1.1).before
              (by rintro _ rfl; exact hs.2)

/-- Branching on a node that holds the point leaves the point in one of the children, or gives the
node up. -/
theorem branch_resolves :
    Leads (fun s => Sated g s ∨ Attends g start held bounded s ∧ KeepsFeasible s)
      (branch : SearchStep Exact ρ σ η τ NodeResult)
      fun result s => Sated g s ∨ Resolved g start bounded result s := by
  refine branch_leads ((orSated (sated_of_passes hg fun start => branchOnce_passes)
    (branchOnce_resolves hg hin)).after fun result s hs => ?_)
  cases result with
  | none => exact hs
  | some result => exact hs

variable [StopCondition τ]

/-- After an evaluation the node has to be branched on, or it is finished. -/
theorem evaluate_judged :
    Leads (Attends g start held bounded) (evaluate : SearchStep Exact ρ σ η τ NodeResult)
      fun result s => Sated g s ∨
        if result = .unsolved then Attends g start held bounded s else Ended g start bounded s := by
  refine search_keeps.bind fun _ => Leads.bind (Q := fun _ => Attends g start held bounded)
    ((changeStatistics_leads fun s t h _ => h.congr rfl rfl rfl rfl rfl)) fun _ =>
      Leads.bind (Q := fun _ => Attends g start held bounded)
        (changeSearch_leads fun s h => h.congr rfl rfl rfl rfl rfl) fun _ =>
          shared_leads.bind fun shared => Leads.bind (Q := fun _ => Attends g start held bounded)
            (Leads.modify fun s hs => ?_) fun _ => ?_
  · obtain ⟨rfl, h⟩ := hs
    exact attends_aloof.akin h ⟨⟨.refl _, rfl, rfl, rfl⟩, rfl, rfl, rfl, rfl, rfl, rfl⟩
  refine Leads.bind (evaluateOnce_ne_branched.and (evaluateOnce_judged hg hin)) fun result =>
    Leads.ite (fun hpruned => ?_) fun hopen => ?_
  · have hunsolved : result ≠ .unsolved := by
      rintro rfl
      simp [NodeResult.isPruned] at hpruned
    have hprune : Keeps (Sated g) (prune result : SearchStep Exact ρ σ η τ NodeResult) :=
      sated_of_passes hg fun _ => prune_passes result
    refine ((prune_returns result).and (orSated hprune ((prune_ends hunsolved).after
      fun _ _ h => .inr h))).mono (fun _ hs => hs.2) fun r s hs => ?_
    obtain ⟨rfl, hs⟩ := hs
    exact hs.imp_right fun h => by rwa [if_neg hunsolved]
  · refine Leads.pure fun s hs => hs.2.imp_right fun h => ?_
    have hunsolved : result = .unsolved := by
      cases result <;> simp_all [NodeResult.isPruned]
    rw [if_pos hunsolved]
    exact h.2

end Relaxation

end SearchStep

end BranchBound
