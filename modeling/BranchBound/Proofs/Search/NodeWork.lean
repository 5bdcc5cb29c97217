import BranchBound.Proofs.Search.Moves
import BranchBound.Proofs.Search.Steps

/-!
# Work on the current node

Evaluating a node and trying its children leave the stack of nodes alone, but for what is learned
about the subtree of the current node, and end on the depth level on which they began. A
relaxation solution is kept only while the domain is feasible.
-/

namespace BranchBound

open Checked BranchBound.Action

variable {α ρ σ η τ : Type} [Scalar α]

/-- A search that works on its current node keeps no solution, and its domain is feasible if that
is said. -/
structure Search.Working (start : Search α ρ) (isFeasible : Bool) (s : Search α ρ) : Prop where
  works : start.Works s
  solution : s.solution = none
  feasible : isFeasible = true → s.domain.infeasible = none

/-- A search that worked on its current node keeps a solution only if its domain is feasible. -/
structure Search.Worked (start s : Search α ρ) : Prop where
  works : start.Works s
  ready : s.solution.isSome → s.domain.infeasible = none

/-- A search tries a child of its current node: one depth level more is open than in a feasible
domain which it reached while it worked on the node. -/
structure Search.Trying (start s : Search α ρ) : Prop where
  solution : s.solution = none
  nodes : List.Forall₂ SearchNode.Same start.nodes s.nodes
  domain : ∃ d, Domain.Deepened start.domain d ∧ Domain.Turns start.domain d ∧
    d.infeasible = none ∧ d.log.toList <+: s.domain.log.toList ∧
    s.domain.branchings = d.branchings.push d.log.size ∧ Domain.Turns d s.domain

namespace Search

variable {start s s' : Search α ρ} {isFeasible : Bool}

theorem Working.worked (h : start.Working isFeasible s) : start.Worked s :=
  ⟨h.works, fun hsome => by rw [h.solution] at hsome; cases hsome⟩

theorem Working.weaken (h : start.Working isFeasible s) : start.Working false s :=
  ⟨h.works, h.solution, nofun⟩

/-- The work goes on with a change of the domain on the same depth level. -/
theorem Working.onDomain (h : start.Working isFeasible s) {d : Domain α} {isFeasible' : Bool}
    (hdeepened : Domain.Deepened s.domain d) (hturns : Domain.Turns s.domain d)
    (hfeasible : isFeasible' = true → d.infeasible = none) :
    start.Working isFeasible' { s with domain := d } :=
  ⟨⟨h.works.nodes, h.works.domain.trans hdeepened, h.works.turns.trans hturns⟩, h.solution,
    hfeasible⟩

end Search

namespace SearchStep

variable {start : Search α ρ} {isFeasible : Bool}

/-- The search works on its current node. -/
abbrev Working (start : Search α ρ) (isFeasible : Bool) (s : SearchState α ρ σ η τ) : Prop :=
  start.Working isFeasible s.search

theorem works_indifferent :
    Indifferent fun s : SearchState α ρ σ η τ => start.Works s.search :=
  .alone fun _ _ hs h => ⟨by rw [h.nodes]; exact hs.nodes, by rw [h.domain]; exact hs.domain,
    by rw [h.domain]; exact hs.turns⟩

theorem working_indifferent :
    Indifferent (Working start isFeasible : SearchState α ρ σ η τ → Prop) :=
  .alone fun _ _ hs h => ⟨works_indifferent.alike hs.works h, h.solution.trans hs.solution,
    by rw [h.domain]; exact hs.feasible⟩

theorem trying_indifferent :
    Indifferent fun s : SearchState α ρ σ η τ => start.Trying s.search :=
  .alone fun _ _ hs h => ⟨h.solution.trans hs.solution, by rw [h.nodes]; exact hs.nodes,
    by rw [h.domain]; exact hs.domain⟩

theorem changeNode_working {f : SearchNode α → SearchNode α}
    (h : ∀ n : SearchNode α, n.Same (f n)) :
    Keeps (Working start isFeasible) (changeNode f : SearchStep α ρ σ η τ Unit) := by
  refine changeNode_leads fun s node rest hs hnodes => ⟨⟨?_, hs.works.domain, hs.works.turns⟩,
    hs.solution, hs.feasible⟩
  have hsame := hs.works.nodes
  rw [hnodes] at hsame
  exact Domain.forall₂_trans (fun _ _ _ h h' => h.trans h') hsame
    (.cons (h node) (List.forall₂_same.mpr fun n _ => .refl n))

theorem propagate_working :
    Leads (Working start isFeasible) (propagate : SearchStep α ρ σ η τ Bool) (Working start) :=
  propagate_leads (fun _ => working_indifferent) fun s _ d hs hpropagate =>
    hs.onDomain (Domain.propagate_deepened hpropagate) (Domain.propagate_turns hpropagate)
      fun hfeasible => by simpa [Domain.isInfeasible] using hfeasible

section Evaluation

theorem recordObjective_working (objective : α) :
    Keeps (Working start isFeasible)
      (recordObjective objective : SearchStep α ρ σ η τ Unit) := by
  refine currentNode_keeps.bind fun node =>
    Leads.bind (changeNode_working fun _ => ⟨rfl, rfl, rfl, rfl, rfl⟩) fun _ => ?_
  split
  · exact changePseudocost_keeps working_indifferent _
  · exact Keeps.pure

theorem submitIntegral_working (solution : RelaxationSolution α) :
    Leads (Working start isFeasible) (submitIntegral solution : SearchStep α ρ σ η τ NodeResult)
      fun result s => result ≠ .branched ∧ result ≠ .unsolved ∧ Working start isFeasible s := by
  refine domain_keeps.bind fun d => ?_
  refine Leads.bind (Keeps.foldlM (fun _ _ => Keeps.lift) _ _) fun point => ?_
  refine shared_keeps.bind fun shared => Leads.ite (fun _ => ?_) fun _ => ?_
  · refine Leads.bind (Q := fun _ => Working start isFeasible) (Leads.modify fun s hs => hs)
      fun _ => ?_
    exact (changeStatistics_keeps working_indifferent (by intros; rfl)).bind fun _ =>
      Leads.pure fun s hs => ⟨by simp, by simp, hs⟩
  · exact (notify_keeps working_indifferent _).bind fun _ =>
      Leads.pure fun s hs => ⟨by simp, by simp, hs⟩

theorem runHeuristics_working [Proposer η α] (solution : RelaxationSolution α) :
    Keeps (Working start isFeasible)
      (runHeuristics solution : SearchStep α ρ σ η τ Unit) := by
  refine shared_keeps.bind fun shared => search_keeps.bind fun search => ?_
  refine Leads.ite (fun _ => ?_) fun _ => Keeps.pure
  refine domain_keeps.bind fun d => Keeps.lift.bind fun found => ?_
  exact Leads.bind (Q := fun _ => Working start isFeasible) (Leads.modify fun s hs => hs)
    fun _ => changeStatistics_keeps working_indifferent (by intros; rfl)

/-- The conclusion keeps the solution if the node has to be branched on. -/
theorem concludeNode_worked [Proposer η α] (solution : RelaxationSolution α) :
    Leads (Working start true) (concludeNode solution : SearchStep α ρ σ η τ NodeResult)
      fun result s => result ≠ .branched ∧ start.Worked s.search := by
  have hrest : Leads (Working start true) (do
      runHeuristics solution
      let fractional ← (← domain).fractionalColumns solution
      if fractional.isEmpty then submitIntegral solution
      else if (← shared).cutoff < solution.objective then return .boundExceeding
      else
        let estimate ← (← search).pseudocost.estimate solution fractional
        changeNode fun node => { node with estimate := estimate }
        changeSearch fun s => { s with solution := some solution }
        return .unsolved : SearchStep α ρ σ η τ NodeResult)
      fun result s => result ≠ .branched ∧ start.Worked s.search := by
    refine (runHeuristics_working solution).bind fun _ => domain_keeps.bind fun _ =>
      Keeps.lift.bind fun fractional => Leads.ite (fun _ => ?_) fun _ => ?_
    · exact (submitIntegral_working solution).after fun _ _ h => ⟨h.1, h.2.2.worked⟩
    refine shared_keeps.bind fun _ => Leads.ite (fun _ => ?_) fun _ => ?_
    · exact Leads.pure fun s hs => ⟨by simp, hs.worked⟩
    refine search_keeps.bind fun _ => Keeps.lift.bind fun _ =>
      Leads.bind (changeNode_working fun _ => ⟨rfl, rfl, rfl, rfl, rfl⟩) fun _ => ?_
    refine Leads.bind (Q := fun _ s => start.Worked s.search)
      (changeSearch_leads fun s hs => ⟨⟨hs.works.nodes, hs.works.domain, hs.works.turns⟩,
        fun _ => hs.feasible rfl⟩) fun _ => Leads.pure fun s hs => ⟨by simp, hs⟩
  refine Leads.ite (fun _ => ?_) fun _ => hrest
  exact Leads.bind (changeNode_working fun _ => ⟨rfl, rfl, rfl, rfl, rfl⟩) fun _ => hrest

variable [Relaxation ρ α]

theorem boundNode_working :
    Leads (Working start isFeasible) (boundNode : SearchStep α ρ σ η τ (Bounded α))
      fun outcome s => outcome ≠ .error .branched ∧ Working start isFeasible s := by
  refine shared_keeps.bind fun _ =>
    (resolveNode_leads working_indifferent _ _).bind fun outcome => ?_
  cases outcome with
  | error result => exact Leads.pure fun s hs => hs
  | ok solution =>
      refine Leads.before ?_ fun s hs => hs.2
      refine (recordObjective_working _).bind fun _ => shared_keeps.bind fun _ => ?_
      exact Leads.ite (fun _ => Leads.pure fun s hs => ⟨by simp, hs⟩)
        fun _ => Leads.pure fun s hs => ⟨by simp, hs⟩

variable [Separator σ α]

/-- The domain is feasible if there is a solution. -/
theorem boundNodeWithCuts_working :
    Leads (Working start true) (boundNodeWithCuts : SearchStep α ρ σ η τ (Bounded α))
      fun outcome s => outcome ≠ .error .branched ∧
        Working start (outcome matches .ok _) s := by
  refine boundNode_working.bind fun outcome => ?_
  cases outcome with
  | error result => exact Leads.pure fun s hs => ⟨hs.1, hs.2.weaken⟩
  | ok solution =>
      refine Leads.before ?_ fun s hs => hs.2
      refine (separateNode_keeps working_indifferent solution).bind fun separated =>
        Leads.ite (fun _ => ?_) fun _ => Leads.pure fun s hs => ⟨by simp, hs⟩
      refine propagate_working.bind fun isFeasible => Leads.ite (fun hfeasible => ?_) fun _ => ?_
      · subst hfeasible
        refine boundNode_working.after fun outcome s hs => ⟨hs.1, ?_⟩
        cases outcome with
        | error result => exact hs.2.weaken
        | ok solution => exact hs.2
      · exact (analyse_keeps working_indifferent none).bind fun _ =>
          Leads.pure fun s hs => ⟨by simp, hs.weaken⟩

variable [Proposer η α]

/-- An evaluation works on the node. It never tells that the node was branched on. -/
theorem evaluateOnce_worked :
    Leads (fun s => start.Works s.search) (evaluateOnce : SearchStep α ρ σ η τ NodeResult)
      fun result s => result ≠ .branched ∧ start.Worked s.search := by
  refine Leads.bind (Q := fun _ => Working start false)
    (changeSearch_leads fun s hs => ⟨⟨hs.nodes, hs.domain, hs.turns⟩, rfl, nofun⟩) fun _ => ?_
  refine shared_keeps.bind fun shared => ?_
  refine (changeDomain_leads working_indifferent (Q := Working start false)
    fun s d hs hd => ?_).bind fun _ => ?_
  · rw [← pure_eq_ok.mp hd, Domain.setObjectiveCutoff_eq]
    exact hs.onDomain (.of_trail rfl) (.keep rfl rfl rfl rfl) nofun
  refine propagate_working.bind fun isFeasible =>
    (recordInferences_keeps working_indifferent).bind fun _ => Leads.ite (fun _ => ?_)
      fun hfeasible => ?_
  · exact (analyse_keeps working_indifferent none).bind fun _ =>
      Leads.pure fun s hs => ⟨by simp, hs.worked⟩
  · obtain rfl : isFeasible = true := by simpa using hfeasible
    refine shared_keeps.bind fun _ => currentNode_keeps.bind fun _ => Leads.ite (fun _ => ?_)
      fun _ => ?_
    · exact Leads.pure fun s hs => ⟨by simp, hs.worked⟩
    refine boundNodeWithCuts_working.bind fun outcome => ?_
    cases outcome with
    | error result => exact Leads.pure fun s hs => ⟨fun h => hs.1 (congrArg _ h), hs.2.worked⟩
    | ok solution => exact (concludeNode_worked solution).before fun s hs => hs.2

end Evaluation

section Branching

/-- Whether the domain is left alone by what a selection came from. -/
def keepsDomain : Selection α → Bool
  | .tightened => false
  | _ => true

theorem tighten_working (decision : Decision α) :
    Leads (Working start isFeasible) (tighten decision : SearchStep α ρ σ η τ Unit)
      fun _ => Working start false :=
  changeDomain_leads working_indifferent fun _ _ hs hchange =>
    hs.onDomain (Domain.changeBound_deepened hchange (by simp)) (.single (.change hchange)) nofun

variable [Relaxation ρ α]

/-- Trying a child undoes the level that it opens. -/
theorem tryChild_working (hstart : start.domain.Leveled) (solution : RelaxationSolution α)
    (c : ColumnId) (value : α) (direction : Direction) :
    Keeps (Working start true) (tryChild solution c value direction :
      SearchStep α ρ σ η τ (ChildOutcome α)) := by
  refine (changeDomain_leads (Q := fun s => start.Trying s.search) trying_indifferent
    fun s d hs hchange => ?_).bind fun _ => ?_
  · obtain ⟨hbranchings, entry, -, hlog⟩ := Domain.changeBound_opened hchange (hs.feasible rfl)
    refine ⟨hs.solution, hs.works.nodes, s.search.domain, hs.works.domain, hs.works.turns,
      hs.feasible rfl, ?_, hbranchings, .single (.change hchange)⟩
    change _ <+: d.log.toList
    rw [hlog, Array.toList_push]
    exact List.prefix_append ..
  have hundo (outcome : ChildOutcome α) : Leads (fun s => start.Trying s.search) (do
      undoLevel
      return outcome : SearchStep α ρ σ η τ (ChildOutcome α)) fun _ => Working start true := by
    refine (undoLevel_leads (Q := Working start true) fun s undone d' hs hback => ?_).bind
      fun _ => Keeps.pure
    obtain ⟨d, hdeepened, hturns, -, hlog, hbranchings, hafter⟩ := hs.domain
    have hleveled := (hafter.leveled (hturns.leveled hstart))
    obtain ⟨hlevels, hshorter, hfeasible, -⟩ :=
      hleveled.backtrack (by rw [hbranchings, Array.toList_push]) hback
    refine ⟨⟨hs.nodes, ⟨?_, ?_⟩, hturns.trans (hafter.trans (Domain.backtrack_turns hback))⟩,
      hs.solution, fun _ => hfeasible⟩
    · change _ <+: d'.log.toList
      rw [hshorter, ← Array.length_toList, ← List.prefix_iff_eq_take.mp hlog]
      exact hdeepened.log
    · exact (Array.toList_inj.mp hlevels).trans hdeepened.branchings
  refine (propagate_leads (fun _ => trying_indifferent) (Q := fun _ s => start.Trying s.search)
    fun s _ d hs hpropagate => ?_).bind fun isFeasible => ?_
  · obtain ⟨before, hdeepened, hturns, hfeasible, hlog, hbranchings, hafter⟩ := hs.domain
    have hdeeper := Domain.propagate_deepened hpropagate
    exact ⟨hs.solution, hs.nodes, before, hdeepened, hturns, hfeasible, hlog.trans hdeeper.log,
      hdeeper.branchings.trans hbranchings,
      hafter.trans (Domain.propagate_turns hpropagate)⟩
  · refine Leads.ite (fun _ => ?_) fun _ => Keeps.pure.bind hundo
    exact (boundChild_keeps trying_indifferent _ _).bind hundo

theorem tryCandidates_working (hstart : start.domain.Leveled) (solution : RelaxationSolution α)
    (candidates : List (Candidate α)) :
    Leads (Working start true) (tryCandidates solution candidates :
      SearchStep α ρ σ η τ (Option (Selection α)))
      fun selection => Working start (selection.elim true keepsDomain) := by
  induction candidates with
  | nil => exact Leads.pure fun s hs => hs
  | cons candidate rest ih =>
      refine (tryChild_working hstart _ _ _ _).bind fun down =>
        (tryChild_working hstart _ _ _ _).bind fun up => ?_
      have htightened (decision : Decision α) : Leads (Working start true) (do
          tighten decision
          return some .tightened : SearchStep α ρ σ η τ (Option (Selection α)))
          fun selection => Working start (selection.elim true keepsDomain) :=
        (tighten_working decision).bind fun _ => Leads.pure fun s hs => hs
      cases down <;> cases up
      · exact Leads.pure fun s hs => hs
      · exact htightened _
      · exact htightened _
      · exact htightened _
      · exact ih
      · exact ih
      · exact htightened _
      · exact ih
      · exact ih

theorem selectColumn_working (hstart : start.domain.Leveled) (solution : RelaxationSolution α)
    (fractional : List (ColumnId × α)) :
    Leads (Working start true) (selectColumn solution fractional :
      SearchStep α ρ σ η τ (Selection α)) fun selection =>
        Working start (keepsDomain selection) := by
  have hbest (ranked : List (Candidate α)) : keepsDomain (best ranked) = true := by
    cases ranked <;> rfl
  refine shared_keeps.bind fun _ => (rank_keeps _).bind fun ranked => ?_
  refine Leads.ite (fun _ => Leads.pure fun s hs => ?_) fun _ => search_keeps.bind fun _ => ?_
  · rw [hbest]
    exact hs
  refine Keeps.lift.bind fun unreliable =>
    (tryCandidates_working hstart _ _).bind fun selection => ?_
  cases selection with
  | some selection => exact Leads.pure fun s hs => hs
  | none =>
      refine currentNode_keeps.bind fun node => (warmStart_keeps working_indifferent _).bind
        fun _ =>
        (rank_keeps _).bind fun ranked => Leads.pure fun s hs => ?_
      rw [hbest]
      exact hs

end Branching

end SearchStep

end BranchBound

/-!
## What evaluating and branching end with

Whatever was done on the current node, in the end it has to be branched on, or it is finished, or
it was branched on and one of its two children is the current node.
-/

namespace BranchBound

open Checked BranchBound.Action

variable {α ρ σ η τ : Type} [Scalar α]

namespace Search

/-- After it worked on its current node, a search finished it with a result, or it branched on it if
that is the result. -/
def Concluded (start : Search α ρ) (result : NodeResult) (s : Search α ρ) : Prop :=
  ∃ before, start.Works before ∧
    if result = .branched then ∃ first second, before.Entered first (some second) s
    else before.Finished s

/-- After it worked on its current node, a search has to branch on it, or finished it. -/
def Evaluated (start : Search α ρ) (result : NodeResult) (s : Search α ρ) : Prop :=
  result ≠ .branched ∧ if result = .unsolved then start.Worked s else start.Concluded result s

end Search

namespace SearchStep

variable {start : Search α ρ}

/-- The search has given nodes and a given domain. -/
def Stands (nodes : List (SearchNode α)) (d : Domain α) (s : SearchState α ρ σ η τ) : Prop :=
  s.search.nodes = nodes ∧ s.search.domain = d

theorem prune_leads {result : NodeResult} (hresult : result ≠ .branched) :
    Leads (fun s => start.Worked s.search) (prune result : SearchStep α ρ σ η τ NodeResult)
      fun r s => r = result ∧ start.Concluded result s.search := by
  refine Leads.fix fun s₀ hs₀ => ?_
  let Done : SearchState α ρ σ η τ → Prop := fun s => s₀.search.Finished s.search
  have hend : Leads Done (pure result : SearchStep α ρ σ η τ NodeResult)
      fun r s => r = result ∧ start.Concluded result s.search :=
    Leads.pure fun s hs => ⟨rfl, s₀.search, hs₀.works, by rw [if_neg hresult]; exact hs⟩
  refine Leads.bind (Q := fun _ => Stands s₀.search.nodes s₀.search.domain)
    (changeSearch_leads fun s hs => by subst hs; exact ⟨rfl, rfl⟩) fun _ => ?_
  refine Leads.bind (Q := fun _ => Done)
    (changeNode_leads fun s node rest hs hnodes => ⟨⟨node, rest, hs.1 ▸ hnodes, rfl⟩, hs.2⟩)
    fun _ => currentNode_keeps.bind fun _ =>
      (changeStatistics_leads (Q := Done) fun s _ hs _ => ⟨hs.nodes, hs.domain⟩).bind fun _ => ?_
  refine Leads.ite (fun _ => ?_) fun _ => hend
  exact Leads.bind (changeSearch_leads (Q := fun _ => Done) fun s hs => ⟨hs.nodes, hs.domain⟩)
    fun _ => hend

/-- Entering a child opens the level of its decision. -/
theorem enterChild_leads [Relaxation ρ α] {parent : SearchNode α} {rest : List (SearchNode α)}
    {d : Domain α} (decision : Decision α) :
    Leads (Stands (parent :: rest) d) (enterChild decision : SearchStep α ρ σ η τ Unit)
      fun _ s => ∃ child subtrees, uncount parent.openSubtrees 1 = .ok subtrees ∧
        s.search.nodes = child :: { parent with openSubtrees := subtrees } :: rest ∧
        child.decision = some decision ∧ child.position = d.log.size ∧
        child.Childless ∧ child.isExplored = false ∧
        d.changeBound decision.change .branching = .ok s.search.domain := by
  refine currentNode_leads.bind fun node => search_keeps.bind fun _ => Keeps.lift.bind fun _ => ?_
  refine Leads.lift.bind fun subtrees => ?_
  refine Leads.bind (Q := fun _ s => node = parent ∧ uncount parent.openSubtrees 1 = .ok subtrees ∧
    Stands ({ parent with openSubtrees := subtrees } :: rest) d s) ?_ fun _ => ?_
  · refine changeNode_leads fun s top below hs hnodes => ?_
    obtain ⟨hcount, ⟨_, htop⟩, hstands, hdomain⟩ := hs
    obtain ⟨rfl, -⟩ := List.cons.inj (hstands.symm.trans htop)
    obtain ⟨rfl, rfl⟩ := List.cons.inj (hstands.symm.trans hnodes)
    exact ⟨rfl, hcount, rfl, hdomain⟩
  refine Keeps.lift.bind fun depth => domain_leads.bind fun before => ?_
  let Changed : SearchState α ρ σ η τ → Prop := fun s =>
    before = d ∧ uncount parent.openSubtrees 1 = .ok subtrees ∧
    s.search.nodes = { parent with openSubtrees := subtrees } :: rest ∧
    d.changeBound decision.change .branching = .ok s.search.domain
  have hchanged : Indifferent Changed := .alone fun _ _ hs h =>
    ⟨hs.1, hs.2.1, h.nodes.trans hs.2.2.1, by rw [h.domain]; exact hs.2.2.2⟩
  refine (changeDomain_leads hchanged fun s d' hs hd' => ?_).bind fun _ =>
    (warmStart_keeps hchanged _).bind fun _ => changeSearch_leads fun s hs => ?_
  · obtain ⟨hbefore, -, hcount, hnodes, hdomain⟩ := hs
    exact ⟨hbefore.trans hdomain, hcount, hnodes, hdomain ▸ hd'⟩
  · obtain ⟨hbefore, hcount, hnodes, hchange⟩ := hs
    exact ⟨_, subtrees, hcount, congrArg _ hnodes, rfl, congrArg (fun d => d.log.size) hbefore,
      ⟨rfl, rfl⟩, rfl, hchange⟩

section Branch

variable [Relaxation ρ α]

/-- Splitting a node leaves its second child for later. -/
theorem splitNode_leads (first second : Decision α) :
    Leads (Working start true) (splitNode first second : SearchStep α ρ σ η τ Unit)
      fun _ s => start.Concluded .branched s.search := by
  refine Leads.fix fun s₀ hs₀ => ?_
  cases hnodes : s₀.search.nodes with
  | nil =>
      refine Leads.bind (Q := fun _ _ => False)
        (changeNode_leads fun s node rest hs hcons => ?_) fun _ _ _ _ hs => hs.elim
      subst hs
      rw [hnodes] at hcons
      cases hcons
  | cons node rest =>
      refine Leads.bind (Q := fun _ => Stands
        ({ node with isExplored := true, openSubtrees := 2, pending := some second } :: rest)
        s₀.search.domain) (changeNode_leads fun s top below hs hcons => ?_) fun _ =>
        (enterChild_leads first).after fun _ s hs => ?_
      · subst hs
        obtain ⟨rfl, rfl⟩ := List.cons.inj (hnodes.symm.trans hcons)
        exact ⟨rfl, rfl⟩
      · obtain ⟨child, subtrees, hcount, hnodes', hdecision, hposition,
          hchildless, -, hchange⟩ := hs
        obtain rfl : subtrees = 1 := by simpa [uncount] using hcount.symm
        refine ⟨s₀.search, hs₀.works, ?_⟩
        rw [if_pos rfl]
        exact ⟨first, second, ⟨node, rest, _, child, hnodes, hnodes', rfl, rfl, rfl,
          ⟨rfl, .inl ⟨rfl, rfl⟩⟩, hdecision, hposition, hchildless⟩, hs₀.feasible rfl, hchange⟩

theorem branchOn_leads (solution : RelaxationSolution α) (c : ColumnId) (value : α) :
    Leads (Working start true) (branchOn solution c value : SearchStep α ρ σ η τ Unit)
      fun _ s => start.Concluded .branched s.search := by
  refine (firstDirection_keeps working_indifferent c value).bind fun direction => ?_
  cases direction with
  | down => exact splitNode_leads _ _
  | up => exact splitNode_leads _ _

variable [Separator σ α] [Proposer η α]

/-- One try to branch ends with a child as the current node, with a finished node, or without a
result. -/
theorem branchOnce_leads (hstart : start.domain.Leveled) :
    Leads (fun s => start.Worked s.search)
      (branchOnce : SearchStep α ρ σ η τ (Option NodeResult))
      fun result s => result.elim (start.Worked s.search) fun result =>
        result ≠ .unsolved ∧ start.Concluded result s.search := by
  have hprune (result : NodeResult) (hbranched : result ≠ .branched)
      (hunsolved : result ≠ .unsolved) : Leads (fun s => start.Worked s.search) (do
      return some (← prune result) : SearchStep α ρ σ η τ (Option NodeResult))
      fun result s => result.elim (start.Worked s.search) fun result =>
        result ≠ .unsolved ∧ start.Concluded result s.search :=
    (prune_leads hbranched).bind fun r => Leads.pure fun s hs => by
      obtain ⟨rfl, hs⟩ := hs
      exact ⟨hunsolved, hs⟩
  refine search_leads.bind fun s₀ => ?_
  refine Leads.bind (Q := fun _ => Working start s₀.solution.isSome)
    (changeSearch_leads fun s hs => ?_) fun _ => ?_
  · obtain ⟨rfl, hs⟩ := hs
    exact ⟨⟨hs.works.nodes, hs.works.domain, hs.works.turns⟩, rfl, hs.ready⟩
  cases s₀.solution with
  | none => exact (hprune _ (by simp) (by simp)).before fun s hs => hs.worked
  | some solution =>
      refine domain_keeps.bind fun _ => Keeps.lift.bind fun fractional => ?_
      refine Leads.ite (fun _ => (hprune _ (by simp) (by simp)).before fun s hs => hs.worked)
        fun _ => (selectColumn_working hstart _ _).bind fun selection => ?_
      cases selection with
      | column c value =>
          exact (branchOn_leads solution c value).bind fun _ =>
            Leads.pure fun s hs => ⟨by simp, hs⟩
      | infeasible => exact (hprune _ (by simp) (by simp)).before fun s hs => hs.worked
      | tightened =>
          refine Leads.bind (evaluateOnce_worked.before fun s hs => hs.works) fun result =>
            Leads.ite (fun _ => Leads.pure fun s hs => hs.2) fun hresult => ?_
          refine Leads.fix fun s hs => ?_
          refine (hprune result hs.1 (by simpa using hresult)).before ?_
          rintro _ rfl
          exact hs.2

/-- Branching ends with a child as the current node or with a finished node. -/
theorem branch_concluded (hstart : start.domain.Leveled) :
    Leads (fun s => start.Worked s.search) (branch : SearchStep α ρ σ η τ NodeResult)
      fun result s => result ≠ .unsolved ∧ start.Concluded result s.search :=
  branch_leads (branchOnce_leads hstart)

variable [StopCondition τ]

theorem evaluate_evaluated :
    Leads (fun s => start.Works s.search) (evaluate : SearchStep α ρ σ η τ NodeResult)
      fun result s => start.Evaluated result s.search := by
  refine search_keeps.bind fun _ => (changeStatistics_keeps works_indifferent (by intros; rfl)).bind
    fun _ => ?_
  refine Leads.bind (changeSearch_keeps works_indifferent fun _ => ⟨rfl, rfl, rfl, rfl, rfl⟩)
    fun _ => ?_
  refine shared_keeps.bind fun shared => ?_
  refine Leads.bind (Q := fun _ s => start.Works s.search) (Leads.modify fun s hs => hs) fun _ => ?_
  refine evaluateOnce_worked.bind fun result => Leads.ite (fun hpruned => ?_) fun hpruned =>
    Leads.pure fun s hs => ⟨hs.1, ?_⟩
  · refine Leads.fix fun s₀ hs₀ => ?_
    refine ((prune_leads hs₀.1).before (by rintro _ rfl; exact hs₀.2)).after fun r s hs => ?_
    obtain ⟨rfl, hs⟩ := hs
    refine ⟨hs₀.1, ?_⟩
    rw [if_neg (by rintro rfl; simp [NodeResult.isPruned] at hpruned)]
    exact hs
  · have hunsolved : result = .unsolved := by
      cases result with
      | unsolved => rfl
      | branched => exact absurd rfl hs.1
      | boundExceeding => simp [NodeResult.isPruned] at hpruned
      | domainInfeasible => simp [NodeResult.isPruned] at hpruned
      | relaxationInfeasible => simp [NodeResult.isPruned] at hpruned
      | givenUp => simp [NodeResult.isPruned] at hpruned
    rw [if_pos hunsolved]
    exact hs.2

end Branch

end SearchStep

end BranchBound
