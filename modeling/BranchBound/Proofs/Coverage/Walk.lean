import BranchBound.Proofs.Coverage.Branching
import BranchBound.Proofs.Domain.Resumption
import BranchBound.Proofs.Search.Termination

/-!
# Walks that keep a point

A search guards a point if the point is in a node that was given up or suspended, or in one that is
left on the stack. Whatever a search does on its walk through the subtree of an installed node, it
goes on guarding the point, until nothing as good as the point is of interest any more.
-/

namespace BranchBound

open Checked Exact BranchBound.Action

variable {ρ σ η τ : Type} {g : Target ρ}

/-! ### Nodes with the point -/

namespace OpenNode

/-- The changes that lead to an open node are to whole numbers. -/
def IsWhole (n : OpenNode Exact) : Prop := ∀ change ∈ n.changes, ∃ k : ℤ, change.value = number k

/-- The point is in the box of an open node, whose lower bound is not above its value. -/
structure Covers (g : Target ρ) (n : OpenNode Exact) : Prop where
  bound : n.lowerBound ≤ number g.value
  changes : ∀ change ∈ n.changes, change.HoldsAt g.point

end OpenNode

namespace SearchNode

variable {x : Point} {v : ℚ} {d d' : Domain Exact} {p : Nat} {nodes : List (SearchNode Exact)}

/-- Taking entries off the log leaves the point where it was. -/
theorem Shelters.of_extends (h : Shelters x v d p nodes) (hlog : d'.log.toList <+: d.log.toList) :
    Shelters x v d' p nodes := by
  induction nodes generalizing p with
  | nil => exact h
  | cons n rest ih =>
      refine h.imp (fun h => ⟨h.1, ?_, h.2.2⟩) ih
      exact h.2.1.of_extends hlog

end SearchNode

/-- So does adding entries to the log, for the nodes below the current one. -/
theorem Search.InStep.shelters_extend {base : List Nat} {ledger : List (Child Exact)}
    {s : Search Exact ρ} (h : s.InStep base ledger) {n : SearchNode Exact}
    {rest : List (SearchNode Exact)} (hnodes : s.nodes = n :: rest) {d' : Domain Exact}
    (hlog : s.domain.log.toList <+: d'.log.toList) {x : Point} {v : ℚ}
    (hshelters : SearchNode.Shelters x v s.domain n.position rest) :
    SearchNode.Shelters x v d' n.position rest := by
  have hposition : ∀ n ∈ s.nodes, n.decision.isSome → n.position ≤ s.domain.log.size := by
    intro n hn hsome
    obtain ⟨decision, hdecision⟩ := Option.isSome_iff_exists.mp hsome
    obtain ⟨entry, hentry, -⟩ := h.logged n hn decision hdecision
    exact Nat.le_of_lt (Array.getElem?_eq_some_iff.mp hentry).1
  have hchain := h.chain
  rw [hnodes] at hposition hchain
  clear hnodes
  induction rest generalizing n with
  | nil => exact hshelters
  | cons parent below ih =>
      rw [List.isChain_cons_cons] at hchain
      refine hshelters.imp (fun h => ⟨h.1, ?_, h.2.2⟩) fun h =>
        ih h (fun m hm => hposition m (List.mem_cons_of_mem _ hm)) hchain.2
      exact h.2.1.extend (hposition n (List.mem_cons_self ..) hchain.1.1) hlog

/-- A search that cares for the point guards it: the point is elsewhere, or it is in a node that was
given up or suspended, or in one that is left on the stack. -/
structure Guards (g : Target ρ) (elsewhere : Prop) (suspended : List (OpenNode Exact))
    (s : SearchState Exact ρ σ η τ) : Prop where
  cares : Cares g s
  decisions : ∀ n ∈ s.search.nodes, ∀ decision ∈ n.pending, decision.IsWhole
  whole : ∀ n ∈ suspended, n.IsWhole
  place : elsewhere ∨ s.search.givenUpBound ≤ number g.value ∨ (∃ n ∈ suspended, n.Covers g) ∨
    SearchNode.Shelters g.point g.value s.search.domain s.search.domain.log.size s.search.nodes

/-- The point is in the current node, whose lower bound is not above its value. -/
def Inside (g : Target ρ) (s : SearchState Exact ρ σ η τ) : Prop :=
  s.search.domain.Holds g.point ∧ ∀ n ∈ s.search.nodes.head?, n.lowerBound ≤ number g.value

section Guards

variable {elsewhere : Prop} {suspended more : List (OpenNode Exact)} {s : SearchState Exact ρ σ η τ}

/-- What is suspended may be taken for elsewhere. -/
theorem Guards.aside (h : Guards g elsewhere suspended s) :
    Guards g (elsewhere ∨ ∃ n ∈ suspended, n.Covers g) [] s where
  cares := h.cares
  decisions := h.decisions
  whole := nofun
  place := by
    rcases h.place with helse | hgivenUp | hcovers | hshelters
    · exact .inl (.inl helse)
    · exact .inr (.inl hgivenUp)
    · exact .inl (.inr hcovers)
    · exact .inr (.inr (.inr hshelters))

theorem Guards.together (h : Guards g (elsewhere ∨ ∃ n ∈ suspended, n.Covers g) more s)
    (hwhole : ∀ n ∈ suspended, n.IsWhole) : Guards g elsewhere (suspended ++ more) s where
  cares := h.cares
  decisions := h.decisions
  whole := fun n hn => (List.mem_append.mp hn).elim (hwhole n) (h.whole n)
  place := by
    rcases h.place with (helse | ⟨n, hn, hcovers⟩) | hgivenUp | ⟨n, hn, hcovers⟩ | hshelters
    · exact .inl helse
    · exact .inr (.inr (.inl ⟨n, List.mem_append_left _ hn, hcovers⟩))
    · exact .inr (.inl hgivenUp)
    · exact .inr (.inr (.inl ⟨n, List.mem_append_right _ hn, hcovers⟩))
    · exact .inr (.inr (.inr hshelters))

/-- A search that guards the point works on the current node as the point needs it. -/
theorem Guards.attends (h : Guards g elsewhere suspended s) :
    Attends g s.search (s.search.domain.Holds g.point) (Inside g s) s :=
  ⟨h.cares, id, And.right, rfl, rfl⟩

end Guards

namespace SearchStep

variable {elsewhere : Prop} {suspended : List (OpenNode Exact)} {base : List Nat}
  {start : List (Child Exact) × SearchState Exact ρ σ η τ} {isExplored : Bool}

/-! ### Backtracking -/

/-- The point is not in a finished node, so undoing the level of the node keeps it. -/
theorem Pops.guards {s : SearchState Exact ρ σ η τ} {node : SearchNode Exact}
    {rest : List (SearchNode Exact)} {d' : Domain Exact} (h : Pops s node rest d')
    (hreaches : Reaches base start (Rests isExplored) s) (hs : Guards g elsewhere suspended s) :
    Guards g elsewhere suspended
      { s with search := { s.search with nodes := rest, domain := d' } } := by
  obtain ⟨hnodes, hfinished, hlevel⟩ := h
  have hpending : node.pending = none :=
    pending_of_reaches hreaches node (by rw [hnodes]; exact List.mem_cons_self ..) hfinished
  obtain ⟨ledger, -, hstep, -⟩ := hreaches
  have hbelow : SearchNode.Shelters g.point g.value s.search.domain s.search.domain.log.size
      s.search.nodes → SearchNode.Shelters g.point g.value s.search.domain node.position rest := by
    intro hshelters
    rw [hnodes] at hshelters
    refine hshelters.resolve_left fun htop => ?_
    rcases htop.2.2 with hunexplored | ⟨decision, hdecision, -⟩
    · simp [SearchNode.isFinished, hunexplored] at hfinished
    · rw [hpending] at hdecision
      cases hdecision
  suffices hpopped : Cares g { s with search := { s.search with nodes := rest, domain := d' } } ∧
      (SearchNode.Shelters g.point g.value s.search.domain node.position rest →
        SearchNode.Shelters g.point g.value d' d'.log.size rest) by
    refine ⟨hpopped.1, fun n hn => hs.decisions n
      (hnodes ▸ List.mem_cons_of_mem _ hn), hs.whole, ?_⟩
    exact hs.place.imp_right (Or.imp_right (Or.imp_right fun h => hpopped.2 (hbelow h)))
  split at hlevel
  · next hdecision =>
      obtain ⟨undone, hback⟩ := hlevel
      have hinforms : (Operation.backtrack : Operation Exact).Informs s.propagation := trivial
      have hperform : Operation.backtrack.perform s.propagation = .ok ⟨s.shared.pools, d'⟩ := by
        simp only [Operation.perform, PropagationState.onDomain_eq_ok, bind_eq_ok, pure_eq_ok]
        exact ⟨d', ⟨(undone, d'), hback, rfl⟩, rfl⟩
      obtain ⟨-, hlog, -, entry, hentry, -⟩ := hstep.undo hnodes hdecision hback
      refine ⟨(hs.cares.onto hinforms trivial (by simp) hperform).congr rfl rfl rfl, fun h => ?_⟩
      have hsize : d'.log.size = node.position := by
        have hlt := (Array.getElem?_eq_some_iff.mp hentry).1
        have hlength := congrArg List.length hlog
        rw [List.length_take, Array.length_toList, Array.length_toList] at hlength
        omega
      rw [hsize]
      exact h.of_extends (hlog ▸ List.take_prefix _ _)
  · next hdecision =>
      subst hlevel
      refine ⟨hs.cares.congr rfl rfl rfl, fun h => ?_⟩
      -- only the node at the bottom was not created by a decision
      have hchain := hstep.chain
      rw [hnodes] at hchain
      cases rest with
      | nil => exact h
      | cons parent below => exact absurd (List.isChain_cons_cons.mp hchain).1.1 hdecision

/-- What is said between the steps of a walk. -/
def Walking (g : Target ρ) (elsewhere : Prop) (suspended : List (OpenNode Exact)) (base : List Nat)
    (start : List (Child Exact) × SearchState Exact ρ σ η τ)
    (top : Domain Exact → SearchNode Exact → Prop) (s : SearchState Exact ρ σ η τ) : Prop :=
  Reaches base start top s ∧ Guards g elsewhere suspended s

theorem popFinished_walking :
    Leads (Walking g elsewhere suspended base start (Rests isExplored))
      (popFinished : SearchStep Exact ρ σ η τ Unit)
      fun _ => Walking g elsewhere suspended base start (RestsOpen isExplored) :=
  (popFinished_keeps fun _ _ _ _ hpops hs => ⟨hpops.reaches hs.1, hpops.guards hs.1 hs.2⟩).after
    fun _ _ hs => ⟨hs.1.1.mono fun n hn hrests => ⟨hrests, hs.2 n hn⟩, hs.1.2⟩

/-- The decision for the child that was left was taken from the current node, and the child may have
the point. -/
structure Tends (g : Target ρ) (elsewhere : Prop) (suspended : List (OpenNode Exact))
    (decision : Decision Exact) (s : SearchState Exact ρ σ η τ) : Prop where
  cares : Cares g s
  decisions : ∀ n ∈ s.search.nodes, ∀ decision ∈ n.pending, decision.IsWhole
  whole : ∀ n ∈ suspended, n.IsWhole
  isWhole : decision.IsWhole
  place : elsewhere ∨ s.search.givenUpBound ≤ number g.value ∨ (∃ n ∈ suspended, n.Covers g) ∨
    ∃ node rest, s.search.nodes = node :: rest ∧
      (node.lowerBound ≤ number g.value ∧ s.search.domain.Holds g.point ∧
          decision.change.HoldsAt g.point ∨
        SearchNode.Shelters g.point g.value s.search.domain node.position rest)

theorem takePending_walking :
    Leads (Walking g elsewhere suspended base start (RestsOpen isExplored))
      (takePending : SearchStep Exact ρ σ η τ (Option (Decision Exact)))
      fun pending s => match pending with
        | none => Walking g elsewhere suspended base start
            (fun _ n => n.Childless ∧ isExplored = false) s
        | some decision =>
            Taken base start decision s ∧ Tends g elsewhere suspended decision s := by
  have hguards : Leads (Walking g elsewhere suspended base start (RestsOpen isExplored))
      (takePending : SearchStep Exact ρ σ η τ (Option (Decision Exact)))
      fun pending s => match pending with
        | none => Guards g elsewhere suspended s
        | some decision => Tends g elsewhere suspended decision s := by
    refine search_leads.bind fun search => ?_
    cases hnodes : search.nodes with
    | nil => exact Leads.pure fun s hs => hs.2.2
    | cons node rest =>
        refine Leads.bind (Q := fun _ s => match node.pending with
          | none => Guards g elsewhere suspended s
          | some decision => Tends g elsewhere suspended decision s)
          (changeNode_leads fun s top below hs hcons => ?_) fun _ => Leads.pure fun s hs => hs
        obtain ⟨rfl, hreaches, hs⟩ := hs
        obtain ⟨rfl, rfl⟩ := List.cons.inj (hnodes.symm.trans hcons)
        have hdecisions : ∀ n ∈ { node with pending := none } :: rest, ∀ decision ∈ n.pending,
            decision.IsWhole := by
          intro n hn decision hdecision
          rcases List.mem_cons.mp hn with rfl | hn
          · cases hdecision
          · exact hs.decisions n (hnodes ▸ List.mem_cons_of_mem _ hn) decision hdecision
        cases hpending : node.pending with
        | none =>
            have hsame : { node with pending := none } = node := by rw [← hpending]
            rw [hsame, ← hnodes]
            exact hs
        | some decision =>
            refine ⟨hs.cares.congr rfl rfl rfl, hdecisions, hs.whole,
              hs.decisions node (hnodes ▸ List.mem_cons_self ..) decision hpending, ?_⟩
            refine hs.place.imp_right (Or.imp_right (Or.imp_right fun h => ⟨_, rest, rfl, ?_⟩))
            rw [hnodes] at h
            refine h.imp_left fun htop => ⟨htop.1, htop.2.1, ?_⟩
            rcases htop.2.2 with hunexplored | ⟨other, hother, hholds⟩
            · obtain ⟨⟨hchildless, -⟩ | ⟨⟨hexplored, -⟩, -⟩, -⟩ :=
                hreaches.choose_spec.2.2 node (by rw [hnodes]; rfl)
              · rw [hchildless.2] at hpending
                cases hpending
              · rw [hexplored] at hunexplored
                cases hunexplored
            · rw [hpending] at hother
              exact Option.some.inj hother ▸ hholds
  refine ((takePending_leads.before fun _ hs => hs.1).and hguards).after fun pending s hs => ?_
  cases pending with
  | none => exact ⟨hs.1, hs.2⟩
  | some decision => exact ⟨hs.1, hs.2⟩

/-- A child with the point is not dropped. -/
theorem Tends.dropped {decision : Decision Exact} {s : SearchState Exact ρ σ η τ}
    (h : Tends g elsewhere suspended decision s) {top : SearchNode Exact}
    {below : List (SearchNode Exact)} (hnodes : s.search.nodes = top :: below)
    (hpending : top.pending = none) (hcutoff : s.shared.cutoff < top.lowerBound) :
    Guards g elsewhere suspended
      { s with search := { s.search with nodes := { top with openSubtrees := 0 } :: below } } where
  cares := h.cares.congr rfl rfl rfl
  decisions := fun n hn decision hdecision => by
    rcases List.mem_cons.mp hn with rfl | hn
    · rw [show _ = none from hpending] at hdecision
      cases hdecision
    · exact h.decisions n (hnodes ▸ List.mem_cons_of_mem _ hn) decision hdecision
  whole := h.whole
  place := by
    refine h.place.imp_right (Or.imp_right (Or.imp_right fun hstack => .inr ?_))
    obtain ⟨node, rest, hcons, hplace⟩ := hstack
    obtain ⟨rfl, rfl⟩ := List.cons.inj (hnodes.symm.trans hcons)
    exact hplace.resolve_left fun htop =>
      Exact.not_le_of_lt (Exact.lt_of_lt_of_le h.cares.lt_cutoff (Exact.le_of_lt hcutoff)) htop.1

/-- A current node that is suspended has the point if the point was in it. -/
theorem suspendNode_walking :
    Leads (Walking g elsewhere suspended base start fun _ => SearchNode.Childless)
      (suspendNode : SearchStep Exact ρ σ η τ (OpenNode Exact))
      fun n => Walking g elsewhere (suspended ++ [n]) base start (RestsOpen true) := by
  refine domain_leads.bind fun d => currentNode_leads.bind fun node => ?_
  let noted : OpenNode Exact := ⟨d.reducedStack.1, d.reducedStack.2, node.lowerBound, node.estimate,
    node.depth, node.basis⟩
  refine Leads.bind (Q := fun _ => Walking g elsewhere (suspended ++ [noted]) base start
    (Rests true))
    (changeNode_leads fun s top below hs hnodes => ?_) fun _ => ?_
  · obtain ⟨⟨rest, htop⟩, rfl, hreaches, hs⟩ := hs
    obtain ⟨rfl, rfl⟩ := List.cons.inj (hnodes.symm.trans htop)
    have hchildless := hreaches.choose_spec.2.2 top (by rw [hnodes]; rfl)
    have hsame : { top.finish with pending := none } = top.finish := by
      rw [← hchildless.2]
      rfl
    rw [hsame]
    have hfinished : Reaches base start (fun _ n => n.Childless ∧ n.isExplored = true)
        { s with search := { s.search with nodes := top.finish :: below } } :=
      hreaches.finished ⟨⟨top, below, hnodes, rfl⟩, rfl⟩
    refine ⟨hfinished.mono fun n _ hn => .inl ⟨hn.1, fun _ => hn.2⟩, hs.cares.congr rfl rfl rfl,
      fun n hn decision hdecision => ?_, fun n hn => ?_, ?_⟩
    · rcases List.mem_cons.mp hn with rfl | hn
      · rw [show top.finish.pending = none from hchildless.2] at hdecision
        cases hdecision
      · exact hs.decisions n (hnodes ▸ List.mem_cons_of_mem _ hn) decision hdecision
    · rcases List.mem_append.mp hn with hn | hn
      · exact hs.whole n hn
      · rw [List.mem_singleton.mp hn]
        intro change hchange
        obtain ⟨p, entry, -, hentry, -, rfl⟩ := Domain.mem_reducedStack.mp hchange
        exact hs.cares.regards.integers entry (Array.mem_of_getElem? hentry)
    · rcases hs.place with helse | hgivenUp | ⟨n, hn, hcovers⟩ | hshelters
      · exact .inl helse
      · exact .inr (.inl hgivenUp)
      · exact .inr (.inr (.inl ⟨n, List.mem_append_left _ hn, hcovers⟩))
      · rw [hnodes] at hshelters
        rcases hshelters with ⟨hbound, hheld, -⟩ | hbelow
        · refine .inr
            (.inr (.inl ⟨noted, List.mem_append_right _ (List.mem_singleton_self _), hbound,
            fun change hchange => ?_⟩))
          obtain ⟨p, entry, -, hentry, -, rfl⟩ := Domain.mem_reducedStack.mp hchange
          exact hheld p entry (Array.getElem?_eq_some_iff.mp hentry).1 hentry
        · exact .inr (.inr (.inr (.inr hbelow)))
  · refine Leads.bind (Q := fun _ => Walking g elsewhere (suspended ++ [noted]) base start
      (Rests true))
      (changeSearch_leads fun s hs =>
        ⟨hs.1.congr rfl rfl, hs.2.cares.congr rfl rfl rfl, hs.2.decisions,
        hs.2.whole, hs.2.place⟩) fun _ => popFinished_walking.bind fun _ =>
          Leads.pure fun s hs => hs

section Relaxation

variable [Relaxation ρ Exact] (hg : g.Valid)

include hg

/-- The child that was left is entered, with the point if it has it. -/
theorem enterChild_walking (decision : Decision Exact) :
    Leads (fun s => Taken base start decision s ∧ Tends g elsewhere suspended decision s)
      (enterChild decision : SearchStep Exact ρ σ η τ Unit)
      fun _ => Walking g elsewhere suspended base start fun _ => SearchNode.Childless := by
  refine Leads.fix fun s hs => ?_
  obtain ⟨htaken, h⟩ := hs
  obtain ⟨s₀, node, rest, hs₀, hnodes₀, -, -, -, hnodes, hdomain, -⟩ := id htaken
  obtain ⟨ledger, -, hstep, -⟩ := hs₀
  refine (((enterChild_reaches decision).before (by rintro _ rfl; exact htaken)).and
    (enterChild_enters hg h.isWhole hnodes h.cares)).after fun _ t ht => ⟨ht.1, ?_⟩
  obtain ⟨-, hcares, ⟨child, subtrees, hnodes', hbound, hposition, hunexplored,
    hpending⟩, hlog, hholds,
    hgivenUp⟩ := ht
  refine ⟨hcares, fun n hn other hother => ?_, h.whole, ?_⟩
  · rw [hnodes'] at hn
    rcases List.mem_cons.mp hn with rfl | hn
    · rw [hpending] at hother
      cases hother
    · rcases List.mem_cons.mp hn with rfl | hn
      · cases hother
      · exact h.decisions n (hnodes ▸ List.mem_cons_of_mem _ hn) other hother
  · rw [hgivenUp]
    refine h.place.imp_right (Or.imp_right (Or.imp_right fun hstack => ?_))
    obtain ⟨top, below, hcons, hplace⟩ := hstack
    obtain ⟨rfl, rfl⟩ := List.cons.inj (hnodes.symm.trans hcons)
    rw [hnodes']
    rcases hplace with ⟨hle, hheld, hdecides⟩ | hbelow
    · exact .inl ⟨hbound ▸ hle, hholds hheld hdecides, .inl hunexplored⟩
    · rw [hdomain] at hbelow hlog
      exact .inr (.inr (hstep.shelters_extend hnodes₀ hlog hbelow))

theorem backtrackWithin_walking (isExhausted isExplored : Bool) (suspended : List (OpenNode Exact))
    (steps : Nat) :
    Leads (Walking g elsewhere suspended base start (Rests isExplored))
      (backtrackWithin isExhausted suspended steps :
        SearchStep Exact ρ σ η τ (Bool × List (OpenNode Exact)))
      fun out => Guards g elsewhere out.2 := by
  induction steps generalizing suspended isExplored with
  | zero => exact Leads.throw
  | succ steps ih =>
      refine popFinished_walking.bind fun _ => takePending_walking.bind fun pending => ?_
      cases pending with
      | none => exact Leads.pure fun s hs => hs.2
      | some decision =>
          refine shared_leads.bind fun shared => currentNode_leads.bind fun node =>
            Leads.ite (fun hcutoff => ?_) fun _ => ?_
          · refine Leads.bind (changeNode_leads fun s top below hs hnodes => ?_) fun _ => ih true _
            obtain ⟨⟨_, htop⟩, rfl, htaken, h⟩ := hs
            obtain ⟨rfl, -⟩ := List.cons.inj (htop.symm.trans hnodes)
            refine ⟨htaken.dropped hnodes hcutoff, h.dropped hnodes ?_ hcutoff⟩
            obtain ⟨_, _, _, -, -, -, -, -, hcons, -⟩ := htaken
            obtain ⟨rfl, -⟩ := List.cons.inj (hcons.symm.trans hnodes)
            rfl
          · refine Leads.bind ((enterChild_walking hg decision).before
              fun s hs => hs.2.2) fun _ => ?_
            refine Leads.ite (fun _ => ?_) fun _ => Leads.pure fun s hs => hs.2
            exact suspendNode_walking.bind fun node => (ih true _).before fun s hs =>
              ⟨hs.1.mono fun n _ hn => hn.1, hs.2⟩

theorem backtrackPlunge_guards :
    Leads (Walking g elsewhere suspended base start fun _ => SearchNode.Childless)
      (backtrackPlunge : SearchStep Exact ρ σ η τ (Bool × List (OpenNode Exact)))
      fun out => Guards g elsewhere (suspended ++ out.2) := by
  refine search_keeps.bind fun _ => shared_keeps.bind fun _ => Leads.fix fun s hs => ?_
  have haside : Walking g (elsewhere ∨ ∃ n ∈ suspended, n.Covers g) [] base start (Rests false) s :=
    ⟨hs.1.mono fun n _ hn => .inl ⟨hn, nofun⟩, hs.2.aside⟩
  exact (backtrackWithin_walking hg _ _ _ _).mono (by rintro _ rfl; exact haside) fun out t ht =>
    ht.together hs.2.whole

/-! ### Suspending -/

theorem suspendWithin_walking (suspended : List (OpenNode Exact)) (steps : Nat) :
    Leads (Walking g elsewhere suspended base start (Rests false))
      (suspendWithin suspended steps : SearchStep Exact ρ σ η τ (List (OpenNode Exact)))
      fun all => Guards g elsewhere all := by
  induction steps generalizing suspended with
  | zero => exact Leads.throw
  | succ steps ih =>
      have hsuspend : Leads (Walking g elsewhere suspended base start fun _ => SearchNode.Childless)
        (do
          let node ← suspendNode
          suspendWithin (suspended ++ [node]) steps :
            SearchStep Exact ρ σ η τ (List (OpenNode Exact))) fun all => Guards g elsewhere all :=
        suspendNode_walking.bind fun node => (ih _).before fun s hs =>
          ⟨hs.1.mono fun n _ hn => hn.1.imp_left fun h => ⟨h.1, nofun⟩, hs.2⟩
      refine search_leads.bind fun search => ?_
      cases hnodes : search.nodes with
      | nil => exact Leads.pure fun s hs => hs.2.2
      | cons node rest =>
          refine Leads.ite (fun hunexplored => ?_) fun hexplored => ?_
          · refine hsuspend.before fun s hs => ⟨?_, hs.2.2⟩
            obtain ⟨rfl, hreaches, -⟩ := hs
            refine hreaches.mono fun n hn hrests => ?_
            rw [hnodes] at hn
            obtain rfl := Option.some.inj hn
            rcases hrests with h | h
            · exact h.1
            · simp [h.1.1] at hunexplored
          · refine Leads.bind (popFinished_walking.before fun s hs => hs.2) fun _ =>
              takePending_walking.bind fun pending => ?_
            cases pending with
            | none => exact Leads.pure fun s hs => hs.2
            | some decision => exact (enterChild_walking hg decision).bind fun _ => hsuspend

/-- Once all open nodes are suspended the point is not on the stack. -/
theorem suspendOpenNodes_guards :
    Leads (Walking g elsewhere suspended base start fun _ => SearchNode.Childless)
      (suspendOpenNodes : SearchStep Exact ρ σ η τ (List (OpenNode Exact)))
      fun more s => Guards g elsewhere (suspended ++ more) s ∧ s.search.nodes = [] := by
  refine search_keeps.bind fun _ => Leads.fix fun s hs => ?_
  have haside : Walking g (elsewhere ∨ ∃ n ∈ suspended, n.Covers g) [] base start (Rests false) s :=
    ⟨hs.1.mono fun n _ hn => .inl ⟨hn, nofun⟩, hs.2.aside⟩
  refine Leads.bind (Q := fun more t => Exhausts base start t ∧
      Guards g (elsewhere ∨ ∃ n ∈ suspended, n.Covers g) more t) ?_ fun more => ?_
  · refine Leads.before (P := Walking g _ [] base start (Rests false)) (Leads.and
      ((suspendWithin_exhausts [] _).before fun _ h => h.1) (suspendWithin_walking hg [] _)) ?_
    rintro _ rfl
    exact haside
  · refine Leads.bind (Q := fun _ s =>
      Guards g elsewhere (suspended ++ more) s ∧ s.search.nodes = [])
      (changeSearch_leads fun t ht => ⟨?_, rfl⟩) fun _ => Leads.pure fun s hs => hs
    obtain ⟨⟨-, hnil⟩, ht⟩ := ht
    have hsame : ({ t with search := { t.search with nodes := [] } } : SearchState Exact ρ σ η τ) =
        t := by
      rw [← hnil]
    rw [hsame]
    exact ht.together hs.2.whole

end Relaxation

/-! ### Visits -/

section Heads

variable {s t : SearchState Exact ρ σ η τ}

/-- At the head of a visit the point is in the current node, which is not explored, or in a child
that is left below it, wherever it is not outside of the stack. -/
theorem Walking.split
    (h : Walking g elsewhere suspended base start (fun _ => SearchNode.Childless) s) :
    elsewhere ∨ s.search.givenUpBound ≤ number g.value ∨ (∃ n ∈ suspended, n.Covers g) ∨
      ∃ n rest, s.search.nodes = n :: rest ∧ (n.isExplored = false ∧ Inside g s ∨
        ∀ d' : Domain Exact, s.search.domain.log.toList <+: d'.log.toList →
          SearchNode.Shelters g.point g.value d' n.position rest) := by
  obtain ⟨⟨ledger, -, hstep, htop⟩, hs⟩ := h
  refine hs.place.imp_right (Or.imp_right (Or.imp_right fun hshelters => ?_))
  cases hnodes : s.search.nodes with
  | nil =>
      rw [hnodes] at hshelters
      exact hshelters.elim
  | cons n rest =>
      rw [hnodes] at hshelters
      refine ⟨n, rest, rfl, hshelters.imp (fun hn => ⟨?_, hn.2.1, fun m hm => ?_⟩)
        fun hbelow d' hlog =>
        hstep.shelters_extend hnodes hlog hbelow⟩
      · refine hn.2.2.resolve_right fun ⟨decision, hdecision, _⟩ => ?_
        rw [(htop n (by rw [hnodes]; rfl)).2] at hdecision
        cases hdecision
      · rw [hnodes] at hm
        exact Option.some.inj hm ▸ hn.1

/-- Work on the current node keeps the point. -/
theorem Walking.worked
    (h : Walking g elsewhere suspended base start (fun _ => SearchNode.Childless) s)
    (hworks : s.search.Works t.search)
    (hattends : Attends g s.search (s.search.domain.Holds g.point) (Inside g s) t) :
    Guards g elsewhere suspended t := by
  refine ⟨hattends.cares, fun n' hn' decision hdecision => ?_, h.2.whole, ?_⟩
  · obtain ⟨n, hn, hsame⟩ := SearchNode.exists_same hworks.nodes hn'
    exact h.2.decisions n hn decision (hsame.pending ▸ hdecision)
  · rw [hattends.givenUpBound]
    refine h.split.imp_right (Or.imp_right (Or.imp_right fun ⟨n, rest, hnodes, hplace⟩ => ?_))
    have hnodes' := hworks.nodes
    rw [hnodes, List.forall₂_cons_left_iff] at hnodes'
    obtain ⟨n', rest', hsame, -, ht⟩ := hnodes'
    have hrest : rest' = rest := by
      have hbelow := hattends.below
      rwa [ht, hnodes] at hbelow
    subst hrest
    rw [ht]
    refine hplace.imp (fun ⟨hunexplored, hinside⟩ => ⟨hattends.bound hinside n' (by rw [ht]; rfl),
      hattends.holds hinside.1, .inl (hsame.isExplored.trans hunexplored)⟩) fun hbelow => ?_
    rw [hsame.position]
    exact hbelow _ hworks.domain.log

/-- A node that is finished gives the point up if it has it. -/
theorem Walking.ended
    (h : Walking g elsewhere suspended base start (fun _ => SearchNode.Childless) s)
    {result : NodeResult} (hresult : result ≠ .branched)
    (hconcluded : s.search.Concluded result t.search)
    (hended : Ended g s.search (Inside g s) t) : Guards g elsewhere suspended t := by
  obtain ⟨before, hworks, hend⟩ := hconcluded
  rw [if_neg hresult] at hend
  obtain ⟨⟨top, rest', hbefore, ht⟩, hdomain⟩ := hend
  have hnodes := hworks.nodes
  rw [hbefore, List.forall₂_cons_right_iff] at hnodes
  obtain ⟨n, rest, hsame, -, hs⟩ := hnodes
  have hrest : rest' = rest := by
    have hbelow := hended.below
    rwa [ht, hs] at hbelow
  subst hrest
  have hchildless : n.Childless := h.1.choose_spec.2.2 n (by rw [hs]; rfl)
  refine ⟨hended.cares, fun m hm decision hdecision => ?_, h.2.whole, ?_⟩
  · rw [ht] at hm
    rcases List.mem_cons.mp hm with rfl | hm
    · rw [show top.finish.pending = none from hsame.pending.trans hchildless.2] at hdecision
      cases hdecision
    · exact h.2.decisions m (hs ▸ List.mem_cons_of_mem _ hm) decision hdecision
  · rcases h.split with helse | hgivenUp | hcovers | ⟨m, below, hcons, hplace⟩
    · exact .inl helse
    · exact .inr (.inl (hended.givenUpBound hgivenUp))
    · exact .inr (.inr (.inl hcovers))
    · obtain ⟨rfl, rfl⟩ := List.cons.inj (hs.symm.trans hcons)
      rcases hplace with ⟨-, hinside⟩ | hbelow
      · exact .inr (.inl (hended.gaveUp hinside))
      · rw [ht]
        refine .inr (.inr (.inr (.inr ?_)))
        rw [show top.finish.position = n.position from hsame.position, hdomain]
        exact hbelow _ hworks.domain.log

/-- If a node with the point is branched on, then one of its children has the point. -/
theorem Walking.divided
    (h : Walking g elsewhere suspended base start (fun _ => SearchNode.Childless) s)
    (hconcluded : s.search.Concluded .branched t.search)
    (hdivided : Divided g s.search (Inside g s) t) : Guards g elsewhere suspended t := by
  obtain ⟨before, hworks, hend⟩ := hconcluded
  rw [if_pos rfl] at hend
  obtain ⟨first, second,
    ⟨top, rest', parent, child, hbefore, ht, -, hposition, -⟩, -, hchange⟩ := hend
  obtain ⟨child', parent', second', hnodes', hnone, hsome, hwhole⟩ := hdivided.nodes
  have hnodes := hworks.nodes
  rw [hbefore, List.forall₂_cons_right_iff] at hnodes
  obtain ⟨n, rest, hsame, -, hs⟩ := hnodes
  rw [hs, List.tail_cons] at hnodes'
  obtain ⟨rfl, hcons⟩ := List.cons.inj (ht.symm.trans hnodes')
  obtain ⟨rfl, rfl⟩ := List.cons.inj hcons
  refine ⟨hdivided.cares, fun m hm decision hdecision => ?_, h.2.whole, ?_⟩
  · rw [ht] at hm
    rcases List.mem_cons.mp hm with rfl | hm
    · rw [hnone] at hdecision
      cases hdecision
    · rcases List.mem_cons.mp hm with rfl | hm
      · rw [hsome] at hdecision
        exact Option.some.inj hdecision ▸ hwhole
      · exact h.2.decisions m (hs ▸ List.mem_cons_of_mem _ hm) decision hdecision
  · rw [hdivided.givenUpBound]
    refine h.split.imp_right (Or.imp_right (Or.imp_right fun ⟨m, below, hcons, hplace⟩ => ?_))
    obtain ⟨rfl, rfl⟩ := List.cons.inj (hs.symm.trans hcons)
    rcases hplace with ⟨-, hinside⟩ | hbelow
    · exact hdivided.shelters hinside
    · rw [ht]
      refine .inr (.inr ?_)
      rw [hposition, hsame.position]
      exact hbelow _ (hworks.domain.log.trans (Domain.log_changeBound hchange))

end Heads

section Visits

variable [Relaxation ρ Exact] [Separator σ Exact] [Proposer η Exact] [StopCondition τ]
  (hg : g.Valid)
  {s t : SearchState Exact ρ σ η τ} {suspended' all : List (OpenNode Exact)} {result : NodeResult}

omit [Relaxation ρ Exact] [Separator σ Exact] [Proposer η Exact] in
theorem asked_guards {stop : Bool} (hask : shouldStop.perform s = (.ok stop, t))
    (hs : Sated g s ∨ Guards g elsewhere suspended s) :
    Sated g t ∨ Guards g elsewhere suspended t := by
  cases hask
  refine hs.imp (fun h => ⟨h.model, h.fits, h.excludes⟩) fun h =>
    ⟨?_, h.decisions, h.whole, h.place⟩
  exact cares_aloof.akin h.cares ⟨⟨.refl _, rfl, rfl, rfl⟩, rfl, rfl, rfl, rfl, rfl, rfl⟩

include hg

theorem evaluated_guards (hevaluate : evaluate.perform s = (.ok result, t))
    (hsettles : Settles base start s) (hs : Sated g s ∨ Guards g elsewhere suspended s) :
    Sated g t ∨ Guards g elsewhere suspended t := by
  rcases hs with hsated | hguards
  · exact .inl (SearchStep.sated_of_passes hg (fun _ => evaluate_passes) _ _ _ hsated hevaluate)
  obtain ⟨hbranched, hend⟩ := evaluate_evaluated _ _ _ (Search.Works.refl s.search) hevaluate
  refine (evaluate_judged hg And.left _ _ _ hguards.attends hevaluate).imp_right fun hjudged => ?_
  have hwalking : Walking g elsewhere suspended base start (fun _ => SearchNode.Childless) s :=
    ⟨hsettles, hguards⟩
  by_cases hunsolved : result = .unsolved
  · rw [if_pos hunsolved] at hend hjudged
    exact hwalking.worked hend.works hjudged
  · rw [if_neg hunsolved] at hend hjudged
    exact hwalking.ended hbranched hend hjudged

omit [StopCondition τ] in
theorem branched_guards (hbranch : branch.perform s = (.ok result, t)) (hfeasible : KeepsFeasible s)
    (hsettles : Settles base start s) (hs : Sated g s ∨ Guards g elsewhere suspended s) :
    Sated g t ∨ Guards g elsewhere suspended t := by
  rcases hs with hsated | hguards
  · exact .inl (SearchStep.sated_of_passes hg (fun _ => branch_passes) _ _ _ hsated hbranch)
  obtain ⟨-, hconcluded⟩ := branch_concluded hguards.cares.regards.leveled _ _ _
    ⟨Search.Works.refl s.search, hfeasible⟩ hbranch
  refine (branch_resolves hg And.left _ _ _ (.inr ⟨hguards.attends, hfeasible⟩) hbranch).imp_right
    fun hresolved => ?_
  have hwalking : Walking g elsewhere suspended base start (fun _ => SearchNode.Childless) s :=
    ⟨hsettles, hguards⟩
  by_cases hbranched : result = .branched
  · subst hbranched
    exact hwalking.divided hconcluded hresolved
  · rw [Resolved, if_neg hbranched] at hresolved
    exact hwalking.ended hbranched hconcluded hresolved

theorem Handled.guards (h : Handled s result t) (hsettles : Settles base start s)
    (hs : Sated g s ∨ Guards g elsewhere suspended s) :
    Sated g t ∨ Guards g elsewhere suspended t := by
  cases h with
  | evaluated hevaluate _ => exact evaluated_guards hg hevaluate hsettles hs
  | tried hevaluate hbranch _ =>
      exact branched_guards hg hbranch ((evaluate_settles _ _ _ hsettles hevaluate).2 rfl)
        (evaluated_settles hevaluate hsettles) (evaluated_guards hg hevaluate hsettles hs)

omit [Separator σ Exact] [StopCondition τ] in
theorem plunged_guards {out : Bool × List (OpenNode Exact)}
    (hback : backtrackPlunge.perform s = (.ok out, t)) (hsettles : Settles base start s)
    (hs : Sated g s ∨ Guards g elsewhere suspended s) :
    Sated g t ∨ Guards g elsewhere (suspended ++ out.2) t :=
  hs.imp (fun hsated => SearchStep.sated_of_passes hg (fun _ => backtrackPlunge_passes) _ _ _ hsated
    hback)
    fun hguards => backtrackPlunge_guards hg _ _ _ ⟨hsettles, hguards⟩ hback

omit [Separator σ Exact] [StopCondition τ] in
theorem suspended_guards {more : List (OpenNode Exact)}
    (hsuspend : suspendOpenNodes.perform s = (.ok more, t)) (hsettles : Settles base start s)
    (hs : Sated g s ∨ Guards g elsewhere suspended s) :
    Sated g t ∨ Guards g elsewhere (suspended ++ more) t :=
  hs.imp (fun hsated =>
    SearchStep.sated_of_passes hg (fun _ => suspendOpenNodes_passes) _ _ _ hsated hsuspend)
    fun hguards => (suspendOpenNodes_guards hg _ _ _ ⟨hsettles, hguards⟩ hsuspend).1

/-- From the head of one visit to the head of the next the search guards the point. -/
theorem Visit.guards (h : Visit (suspended, s) (suspended', t)) (hsettles : Settles base start s)
    (hs : Sated g s ∨ Guards g elsewhere suspended s) :
    Sated g t ∨ Guards g elsewhere suspended' t := by
  cases h with
  | branched hask hevaluate hbranch =>
      have hasked := asked_settles hask hsettles
      exact branched_guards hg hbranch ((evaluate_settles _ _ _ hasked hevaluate).2 rfl)
        (evaluated_settles hevaluate hasked)
        (evaluated_guards hg hevaluate hasked (asked_guards hask hs))
  | finished hask hhandled _ _ hback =>
      have hasked := asked_settles hask hsettles
      exact plunged_guards hg hback (hhandled.settles hasked)
        (hhandled.guards hg hasked (asked_guards hask hs))

theorem Leaves.guards (h : Leaves suspended s all t) (hsettles : Settles base start s)
    (hs : Sated g s ∨ Guards g elsewhere suspended s) : Sated g t ∨ Guards g elsewhere all t := by
  cases h with
  | asked hask hsuspend =>
      exact suspended_guards hg hsuspend (asked_settles hask hsettles) (asked_guards hask hs)
  | given hask hhandled _ hsuspend =>
      have hasked := asked_settles hask hsettles
      exact suspended_guards hg hsuspend (hhandled.settles hasked)
        (hhandled.guards hg hasked (asked_guards hask hs))
  | through hask hhandled _ _ hback =>
      have hasked := asked_settles hask hsettles
      exact plunged_guards hg hback (hhandled.settles hasked)
        (hhandled.guards hg hasked (asked_guards hask hs))

/-- A search that is through with the subtree of an installed node guards the point, and no node is
left on its stack. -/
theorem solveDepthFirst_guards (h : solveDepthFirst.perform s = (.ok all, t))
    (hsettles : Settles base start s) (hs : Sated g s ∨ Guards g elsewhere [] s) :
    (Sated g t ∨ Guards g elsewhere all t) ∧ t.search.nodes = [] := by
  obtain ⟨suspended, u, hvisits, hleaves⟩ := solveDepthFirst_visits h
  have hhead : ∀ x : List (OpenNode Exact) × SearchState Exact ρ σ η τ,
      Relation.ReflTransGen Visit ([], s) x →
      Settles base start x.2 ∧ (Sated g x.2 ∨ Guards g elsewhere x.1 x.2) := by
    intro x hx
    induction hx with
    | refl => exact ⟨hsettles, hs⟩
    | tail _ hvisit ih => exact ⟨hvisit.settles ih.1, hvisit.guards hg ih.1 ih.2⟩
  obtain ⟨husettles, hu⟩ := hhead _ hvisits
  exact ⟨hleaves.guards hg husettles hu, (exploreWithin_exhausts [] _ _ _ _ hsettles h).2⟩

end Visits

/-! ### Installing -/

section Install

variable [Relaxation ρ Exact]

theorem install_sated (node : OpenNode Exact) :
    Keeps (Sated g) (install node : SearchStep Exact ρ σ η τ Unit) := by
  have hdomain {f : Domain Exact → Checked (Domain Exact)}
      (h : ∀ d d', f d = .ok d' → d'.model = d.model) :
      Keeps (Sated g) (changeDomain f : SearchStep Exact ρ σ η τ Unit) :=
    changeDomain_leads sated_indifferent fun s d hs hd =>
      ⟨(h _ _ hd).trans hs.model, hs.fits, hs.excludes⟩
  refine Leads.bind (Q := fun _ => Sated g)
    (changeSearch_leads fun s hs => ⟨hs.model, hs.fits, hs.excludes⟩) fun _ =>
      (hdomain fun d d' h => (Domain.backtrackTo_sameSetting h).model).bind fun _ =>
        (hdomain fun d d' h => ?_).bind fun _ =>
          Leads.bind (Q := fun _ => Sated g) (warmStart_keeps sated_indifferent _) fun _ =>
            changeSearch_leads fun s hs => ⟨hs.model, hs.fits, hs.excludes⟩
  simp only [bind_eq_ok, pure_eq_ok] at h
  obtain ⟨⟨_, reached⟩, happly, rfl⟩ := h
  exact (Domain.applyStack_keeps_model _ _ _).finish rfl happly

/-- An installed node is guarded. -/
theorem install_guards (hg : g.Valid) {node : OpenNode Exact} (hnode : node.IsWhole) :
    Leads (fun s => Cares g s ∧
        (elsewhere ∨ s.search.givenUpBound ≤ number g.value ∨ node.Covers g))
      (install node : SearchStep Exact ρ σ η τ Unit) fun _ => Guards g elsewhere [] := by
  let Bounds : SearchState Exact ρ σ η τ → Prop := fun s =>
    elsewhere ∨ s.search.givenUpBound ≤ number g.value ∨ node.Covers g
  let Reset : SearchState Exact ρ σ η τ → Prop := fun s => Cares g s ∧ Bounds s
  let Cleared : SearchState Exact ρ σ η τ → Prop := fun s => Reset s ∧ s.search.domain.Holds g.point
  let Applied : SearchState Exact ρ σ η τ → Prop := fun s =>
    Reset s ∧ (node.Covers g → s.search.domain.Holds g.point)
  have hreset : Aloof Reset := .alone fun s s' hs hakin =>
    ⟨cares_aloof.akin hs.1 hakin, by
      change elsewhere ∨ _ ≤ _ ∨ _
      rw [hakin.alike.givenUpBound]
      exact hs.2⟩
  have hcleared : Aloof Cleared :=
    .alone fun s s' hs hakin => ⟨hreset.akin hs.1 hakin, hakin.alike.domain ▸ hs.2⟩
  have happlied : Aloof Applied :=
    .alone fun s s' hs hakin => ⟨hreset.akin hs.1 hakin, hakin.alike.domain ▸ hs.2⟩
  refine Leads.bind (Q := fun _ => Reset) (changeSearch_leads fun s hs =>
    ⟨hs.1.congr rfl rfl rfl, hs.2⟩) fun _ => ?_
  refine Leads.bind (Q := fun _ => Cleared)
    (changeDomain_operates hcleared (fun _ => .backtrackToGlobal)
    (fun pools d d' h => ?_) fun s p hs hperform => ?_) fun _ => ?_
  · rw [Operation.perform, PropagationState.onDomain_eq_ok]
    exact ⟨d', h, rfl⟩
  · have hinforms : (Operation.backtrackToGlobal : Operation Exact).Informs s.propagation := trivial
    have hcares := hs.1.onto hinforms trivial (by simp) hperform
    rw [Operation.perform, PropagationState.onDomain_eq_ok] at hperform
    obtain ⟨d, hback, rfl⟩ := hperform
    have hlevels := (Domain.backtrackToGlobal_returns hs.1.regards.sound.domain.settled
      hs.1.regards.leveled).of_eq_ok hback
    exact ⟨⟨hcares, hs.2⟩, hcares.holds_of_no_levels hlevels.2.2.2.1⟩
  refine Leads.bind (Q := fun _ => Applied) (changeDomain_aloof happlied fun s d hs happly => ?_)
    fun _ => Leads.bind (Q := fun _ => Applied) ?_ fun _ => changeSearch_leads fun s hs => ?_
  · simp only [bind_eq_ok, pure_eq_ok] at happly
    obtain ⟨⟨_, reached⟩, happly, rfl⟩ := happly
    have hmodel :=
      (Domain.applyStack_keeps_model (m := s.search.domain.model) _ _ _).finish rfl happly
    have happly := finish_eq_ok.mp happly
    obtain ⟨⟨hcares, hbounds⟩, hheld⟩ := hs
    have hregards := hcares.regards.applyStack hnode (.inr rfl) happly
    exact ⟨⟨⟨hregards, hmodel.trans hcares.model, hcares.honest, hcares.separators, hcares.noCuts,
      hcares.fits, hcares.seeks, hcares.hopeful⟩, hbounds⟩, fun hcovers =>
        hcares.regards.held_applyStack hnode hcovers.changes hheld happly⟩
  · cases node.basis with
    | none => exact Keeps.pure
    | some basis =>
        refine changeSearch_leads (f := fun s => { s with
          relaxation := Relaxation.setBasis s.relaxation basis }) fun s hs => ⟨⟨?_, hs.1.2⟩, hs.2⟩
        exact { hs.1.1 with honest := hg.contract.setBasis _ basis hs.1.1.honest }
  · refine ⟨hs.1.1.congr rfl rfl rfl, fun n hn decision hdecision => ?_,
      fun n hn => absurd hn List.not_mem_nil, ?_⟩
    · rw [List.mem_singleton.mp hn] at hdecision
      cases hdecision
    · refine hs.1.2.imp_right (Or.imp_right fun hcovers =>
        .inr (.inl ⟨hcovers.bound, ?_, .inl rfl⟩))
      exact hs.2 hcovers

end Install

end SearchStep

end BranchBound
