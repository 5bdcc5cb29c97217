import BranchBound.Proofs.Search.NodeWork

/-!
# Walks through a subtree

From an installed node on, the operations of a search are put together from moves. Between two of
them the current node has no child that is left; while children are entered, dropped and suspended
it may have one, and the domain is feasible then.
-/

namespace BranchBound

open Checked BranchBound.Action

variable {α ρ σ η τ : Type} [Scalar α]

/-- Moves lead to a state in step, where something holds of the current node in its domain. -/
def Reaches (base : List Nat) (start : List (Child α) × SearchState α ρ σ η τ)
    (top : Domain α → SearchNode α → Prop) (s : SearchState α ρ σ η τ) : Prop :=
  ∃ ledger, Moves start (ledger, s) ∧ s.search.InStep base ledger ∧
    ∀ n ∈ s.search.nodes.head?, top s.search.domain n

/-- While children are looked for, the current node has no child that is left, or it waits in a
feasible domain. It may be known that it is explored. -/
def Rests (isExplored : Bool) (d : Domain α) (n : SearchNode α) : Prop :=
  n.Childless ∧ (isExplored = true → n.isExplored = true) ∨ n.Waits ∧ d.infeasible = none

/-- What is said of the current node once finished nodes were removed. -/
def RestsOpen (isExplored : Bool) (d : Domain α) (n : SearchNode α) : Prop :=
  Rests isExplored d n ∧ n.isFinished = false

section Reaches

variable {base : List Nat} {start : List (Child α) × SearchState α ρ σ η τ}
  {top top' : Domain α → SearchNode α → Prop} {s s' : SearchState α ρ σ η τ}

theorem Reaches.mono (h : Reaches base start top s)
    (htop : ∀ n ∈ s.search.nodes.head?, top s.search.domain n → top' s.search.domain n) :
    Reaches base start top' s := by
  obtain ⟨ledger, hmoves, hstep, hs⟩ := h
  exact ⟨ledger, hmoves, hstep, fun n hn => htop n hn (hs n hn)⟩

/-- One move leads further. -/
theorem Reaches.move (h : Reaches base start top s)
    (hmove : ∀ ledger, s.search.InStep base ledger → ∃ ledger', Move (ledger, s) (ledger', s'))
    (htop : ∀ n ∈ s'.search.nodes.head?, top' s'.search.domain n) :
    Reaches base start top' s' := by
  obtain ⟨ledger, hmoves, hstep, -⟩ := h
  obtain ⟨ledger', hmove⟩ := hmove ledger hstep
  exact ⟨ledger', hmoves.tail hmove, hmove.inStep hstep, htop⟩

/-- What a state has besides its nodes and its domain does not matter. -/
theorem Reaches.congr (h : Reaches base start top s)
    (hnodes : s'.search.nodes = s.search.nodes) (hdomain : s'.search.domain = s.search.domain) :
    Reaches base start top s' := by
  have htop : ∀ n ∈ s'.search.nodes.head?, top s'.search.domain n := by
    rw [hnodes, hdomain]
    exact h.choose_spec.2.2
  refine h.move (fun ledger _ => ⟨ledger, .works ⟨?_, ?_, ?_⟩⟩) htop
  · rw [hnodes]
    exact List.forall₂_same.mpr fun n _ => .refl n
  · rw [hdomain]
    exact .refl _
  · rw [hdomain]

theorem reaches_indifferent : Indifferent (Reaches base start top) :=
  .alone fun _ _ hs h => hs.congr h.nodes h.domain

theorem Reaches.nil (h : Reaches base start top s)
    (htop : ∀ n ∈ s.search.nodes.head?, ¬top s.search.domain n) : s.search.nodes = [] := by
  obtain ⟨ledger, -, -, hs⟩ := h
  cases hnodes : s.search.nodes with
  | nil => rfl
  | cons n rest =>
      have hn : n ∈ s.search.nodes.head? := by rw [hnodes]; rfl
      exact absurd (hs n hn) (htop n hn)

/-- Work on the current node leads to nodes that differ only in what was learned about it. -/
theorem Reaches.works (h : Reaches base start (fun _ => SearchNode.Childless) s)
    (hworks : s.search.Works s'.search) :
    Reaches base start (fun _ => SearchNode.Childless) s' := by
  refine h.move (fun ledger _ => ⟨ledger, .works hworks⟩) fun n' hn' => ?_
  obtain ⟨-, -, -, hs⟩ := h
  obtain ⟨n, hn, hsame⟩ := hworks.top hn'
  exact ⟨hsame.openSubtrees.trans (hs n hn).1, hsame.pending.trans (hs n hn).2⟩

theorem Reaches.finished (h : Reaches base start (fun _ => SearchNode.Childless) s)
    (hfinished : s.search.Finished s'.search) :
    Reaches base start (fun _ n => n.Childless ∧ n.isExplored = true) s' := by
  refine h.move (fun ledger _ => ⟨ledger, .finished hfinished⟩) fun n hn => ?_
  obtain ⟨-, -, -, hs⟩ := h
  obtain ⟨⟨node, rest, hnodes, hnodes'⟩, -⟩ := hfinished
  rw [hnodes'] at hn
  obtain rfl := Option.some.inj hn
  exact ⟨⟨rfl, (hs node (by rw [hnodes]; rfl)).2⟩, rfl⟩

/-- The first child of the current node has no children, and the other one is left. -/
theorem Reaches.branched (h : Reaches base start (fun _ => SearchNode.Childless) s)
    {first second : Decision α} (hentered : s.search.Entered first (some second) s'.search) :
    Reaches base start (fun _ => SearchNode.Childless) s' := by
  have hchildless := h.choose_spec.2.2
  refine h.move (fun ledger _ => ⟨_, .branched hentered fun n hn => (hchildless n hn).2⟩)
    fun n hn => ?_
  obtain ⟨⟨node, rest, parent, child, -, hnodes', -, -, -, -, -, -, hchild⟩, -, -⟩ := hentered
  rw [hnodes'] at hn
  obtain rfl := Option.some.inj hn
  exact hchild

theorem Reaches.concluded (h : Reaches base start (fun _ => SearchNode.Childless) s)
    {result : NodeResult} (hconcluded : s.search.Concluded result s'.search) :
    Reaches base start
      (fun _ n => n.Childless ∧ (result ≠ .branched → n.isExplored = true)) s' := by
  obtain ⟨before, hworks, hend⟩ := hconcluded
  have hbefore : Reaches base start _ ⟨before, s.shared⟩ := h.works hworks
  split at hend
  · next hbranched =>
      obtain ⟨first, second, hentered⟩ := hend
      have hs' : Reaches base start (fun _ => SearchNode.Childless) s' := hbefore.branched hentered
      exact hs'.mono fun n _ hn => ⟨hn, fun h => absurd hbranched h⟩
  · exact (hbefore.finished hend).mono fun n _ hn => ⟨hn.1, fun _ => hn.2⟩

end Reaches

namespace SearchStep

variable {base : List Nat} {start : List (Child α) × SearchState α ρ σ η τ} {isExplored : Bool}

section Removal

/-- A finished node was taken off the stack, with the level that it opened. -/
def Pops (s : SearchState α ρ σ η τ) (node : SearchNode α) (rest : List (SearchNode α))
    (d' : Domain α) : Prop :=
  s.search.nodes = node :: rest ∧ node.isFinished = true ∧
    if node.decision.isSome then ∃ undone, s.search.domain.backtrack = .ok (undone, d')
    else d' = s.search.domain

/-- Finished nodes are taken off one by one, until the current node is not finished. -/
theorem dropFinished_keeps {P : SearchState α ρ σ η τ → Prop}
    (hpop : ∀ s node rest d', Pops s node rest d' → P s →
      P { s with search := { s.search with nodes := rest, domain := d' } })
    {nodes nodes' : List (SearchNode α)} {d d' : Domain α}
    (h : dropFinished nodes d = .ok (nodes', d')) {s : SearchState α ρ σ η τ}
    (hnodes : s.search.nodes = nodes) (hdomain : s.search.domain = d) (hs : P s) :
    P { s with search := { s.search with nodes := nodes', domain := d' } } ∧
      ∀ n ∈ nodes'.head?, n.isFinished = false := by
  induction nodes generalizing d s with
  | nil =>
      cases h
      subst hdomain
      rw [← hnodes]
      exact ⟨hs, fun n hn => by rw [hnodes] at hn; cases hn⟩
  | cons node rest ih =>
      rw [dropFinished] at h
      split at h
      · next hopen =>
          cases h
          subst hdomain
          rw [← hnodes]
          refine ⟨hs, fun n hn => ?_⟩
          rw [hnodes] at hn
          obtain rfl := Option.some.inj hn
          simpa using hopen
      · next hclosed =>
          have hfinished : node.isFinished = true := by simpa using hclosed
          dsimp only at h
          split at h
          · next hdecision =>
              simp only [bind_eq_ok, pure_eq_ok] at h
              obtain ⟨⟨undone, d₁⟩, hback, _, rfl, h⟩ := h
              have hrest := hpop s node rest d₁ ⟨hnodes, hfinished, by
                rw [if_pos hdecision, hdomain]
                exact ⟨undone, hback⟩⟩ hs
              exact ih (s := { s with search := { s.search with nodes := rest, domain := d₁ } }) h
                rfl rfl hrest
          · next hdecision =>
              have hrest := hpop s node rest d ⟨hnodes, hfinished, by
                rw [if_neg hdecision, hdomain]⟩ hs
              exact ih (s := { s with search := { s.search with nodes := rest, domain := d } }) h
                rfl rfl hrest

theorem popFinished_keeps {P : SearchState α ρ σ η τ → Prop}
    (hpop : ∀ s node rest d', Pops s node rest d' → P s →
      P { s with search := { s.search with nodes := rest, domain := d' } }) :
    Leads P (popFinished : SearchStep α ρ σ η τ Unit)
      fun _ s => P s ∧ ∀ n ∈ s.search.nodes.head?, n.isFinished = false := by
  refine search_leads.bind fun search => Leads.lift.bind fun kept => ?_
  refine changeSearch_leads fun s hs => ?_
  obtain ⟨hdrop, rfl, hs⟩ := hs
  exact dropFinished_keeps hpop hdrop rfl rfl hs

/-- The node below a finished one waits, and undoing the level of the finished one leaves a feasible
domain. -/
theorem Pops.reaches {s : SearchState α ρ σ η τ} {node : SearchNode α} {rest : List (SearchNode α)}
    {d' : Domain α} (h : Pops s node rest d') (hs : Reaches base start (Rests isExplored) s) :
    Reaches base start (Rests isExplored)
      { s with search := { s.search with nodes := rest, domain := d' } } := by
  obtain ⟨hnodes, hfinished, hlevel⟩ := h
  have hpending : node.pending = none := by
    have hcount : node.openSubtrees = 0 := by
      simp only [SearchNode.isFinished, Bool.and_eq_true, beq_iff_eq] at hfinished
      exact hfinished.2
    rcases hs.choose_spec.2.2 node (by rw [hnodes]; rfl) with
      ⟨hchildless, -⟩ | ⟨⟨-, ⟨hone, -⟩ | hchildless⟩, -⟩
    · exact hchildless.2
    · rw [hcount] at hone
      cases hone
    · exact hchildless.2
  refine hs.move (fun ledger hstep => ⟨ledger, .popped ⟨node, hnodes, hfinished, hpending, hlevel⟩⟩)
    fun n hn => ?_
  obtain ⟨ledger, -, hstep, -⟩ := hs
  have hchain := hstep.chain
  rw [hnodes] at hchain
  obtain ⟨below, rfl⟩ : ∃ below, rest = n :: below := by
    cases rest with
    | nil => cases hn
    | cons top below =>
        obtain rfl := Option.some.inj hn
        exact ⟨below, rfl⟩
  rw [List.isChain_cons_cons] at hchain
  rw [if_pos hchain.1.1] at hlevel
  obtain ⟨undone, hback⟩ := hlevel
  obtain ⟨-, -, hfeasible, -⟩ := hstep.undo hnodes hchain.1.1 hback
  exact .inr ⟨hchain.1.2, hfeasible⟩

theorem popFinished_reaches :
    Leads (Reaches base start (Rests isExplored)) (popFinished : SearchStep α ρ σ η τ Unit)
      fun _ => Reaches base start (RestsOpen isExplored) :=
  (popFinished_keeps fun _ _ _ _ hpops hs => hpops.reaches hs).after fun _ _ hs =>
    hs.1.mono fun n hn hrests => ⟨hrests, hs.2 n hn⟩

end Removal

section Descent

/-- The decision for the child that was left was taken from the current node. -/
def Taken (base : List Nat) (start : List (Child α) × SearchState α ρ σ η τ)
    (decision : Decision α) (s : SearchState α ρ σ η τ) : Prop :=
  ∃ s₀ node rest, Reaches base start (fun d _ => d.infeasible = none) s₀ ∧
    s₀.search.nodes = node :: rest ∧ node.isExplored = true ∧ node.openSubtrees = 1 ∧
    node.pending = some decision ∧ s.search.nodes = { node with pending := none } :: rest ∧
    s.search.domain = s₀.search.domain ∧ s.shared.incumbent = s₀.shared.incumbent

/-- If the current node is known to be explored and no child is left, then no node is left. -/
theorem takePending_leads :
    Leads (Reaches base start (RestsOpen isExplored))
      (takePending : SearchStep α ρ σ η τ (Option (Decision α)))
      fun pending s => match pending with
        | none => Reaches base start (fun _ n => n.Childless ∧ isExplored = false) s
        | some decision => Taken base start decision s := by
  refine Leads.fix fun s₀ hs₀ => ?_
  refine Leads.before (P := fun s => s = s₀ ∧ Reaches base start (RestsOpen isExplored) s) ?_
    (by rintro _ rfl; exact ⟨rfl, hs₀⟩)
  refine search_leads.bind fun search => ?_
  cases hnodes : search.nodes with
  | nil =>
      refine Leads.pure fun s hs => ?_
      obtain ⟨rfl, -, hs⟩ := hs
      refine hs.mono fun n hn => ?_
      rw [hnodes] at hn
      cases hn
  | cons node rest =>
      refine Leads.bind (Q := fun _ s => match node.pending with
        | none => Reaches base start (fun _ n => n.Childless ∧ isExplored = false) s
        | some decision => Taken base start decision s)
        (changeNode_leads fun s top below hs hcons => ?_) fun _ => Leads.pure fun s hs => hs
      obtain ⟨rfl, rfl, hs⟩ := hs
      obtain ⟨rfl, rfl⟩ := List.cons.inj (hnodes.symm.trans hcons)
      have hrests := hs.choose_spec.2.2 node (by rw [hnodes]; rfl)
      obtain ⟨⟨hchildless, hexplored⟩ | ⟨⟨hexplored, ⟨hone, hsome⟩ | hchildless⟩, hfeasible⟩,
        hopen⟩ := hrests
      · rw [hchildless.2]
        have hsame : { node with pending := none } = node := by
          rw [← hchildless.2]
        have hdone : Reaches base start (fun _ n => n.Childless ∧ isExplored = false) s :=
          hs.mono fun n hn _ => by
            rw [hnodes] at hn
            obtain rfl := Option.some.inj hn
            refine ⟨hchildless, Bool.eq_false_iff.mpr fun h => ?_⟩
            simp [SearchNode.isFinished, hexplored h, hchildless.1] at hopen
        exact hdone.congr (by rw [hnodes, hsame]) rfl
      · obtain ⟨decision, hpending⟩ := Option.isSome_iff_exists.mp hsome
        rw [hpending]
        refine ⟨s, node, rest, hs.mono fun n hn _ => ?_, hnodes, hexplored,
          hone, hpending, rfl, rfl,
          rfl⟩
        exact hfeasible
      · simp [SearchNode.isFinished, hexplored, hchildless.1] at hopen

theorem Taken.dropped {decision : Decision α} {s : SearchState α ρ σ η τ}
    (h : Taken base start decision s) {top : SearchNode α} {below : List (SearchNode α)}
    (hnodes : s.search.nodes = top :: below) (hcutoff : s.shared.cutoff < top.lowerBound) :
    Reaches base start (Rests true)
      { s with search := { s.search with nodes := { top with openSubtrees := 0 } :: below } } := by
  obtain ⟨s₀, node, rest, hs₀, hnodes₀, hexplored, -, hpending, hs, hdomain, hincumbent⟩ := h
  obtain ⟨rfl, rfl⟩ := List.cons.inj (hs.symm.trans hnodes)
  refine hs₀.move (fun ledger hstep =>
    hstep.drops ⟨⟨node, rest, hnodes₀, hpending, ?_, rfl⟩, hdomain⟩)
    fun n hn => ?_
  · rw [Shared.cutoff, ← hincumbent]
    exact hcutoff
  · obtain rfl := Option.some.inj hn
    exact .inl ⟨⟨rfl, rfl⟩, fun _ => hexplored⟩

theorem suspendNode_reaches :
    Leads (Reaches base start fun _ => SearchNode.Childless)
      (suspendNode : SearchStep α ρ σ η τ (OpenNode α))
      fun _ => Reaches base start (RestsOpen true) := by
  refine domain_keeps.bind fun _ => currentNode_keeps.bind fun _ => ?_
  refine Leads.bind (Q := fun _ => Reaches base start (Rests true))
    (changeNode_leads fun s node rest hs hnodes => ?_) fun _ => ?_
  · have hchildless := hs.choose_spec.2.2 node (by rw [hnodes]; rfl)
    have hsame : { node.finish with pending := none } = node.finish := by
      rw [← hchildless.2]
      rfl
    rw [hsame]
    have hfinished : Reaches base start (fun _ n => n.Childless ∧ n.isExplored = true)
        { s with search := { s.search with nodes := node.finish :: rest } } :=
      hs.finished ⟨⟨node, rest, hnodes, rfl⟩, rfl⟩
    exact hfinished.mono fun n _ hn => .inl ⟨hn.1, fun _ => hn.2⟩
  · exact Leads.bind (Q := fun _ => Reaches base start (Rests true))
      (changeSearch_leads fun s hs => hs.congr rfl rfl) fun _ =>
      popFinished_reaches.bind fun _ => Keeps.pure

variable [Relaxation ρ α]

theorem enterChild_reaches (decision : Decision α) :
    Leads (Taken base start decision) (enterChild decision : SearchStep α ρ σ η τ Unit)
      fun _ => Reaches base start fun _ => SearchNode.Childless := by
  refine Leads.fix fun s hs => ?_
  obtain ⟨s₀, node, rest, hs₀, hnodes₀, hexplored, hone, hpending, hnodes, hdomain, -⟩ := hs
  have hstands : Stands ({ node with pending := none } :: rest) s₀.search.domain s :=
    ⟨hnodes, hdomain⟩
  refine (enterChild_leads decision).mono (by rintro _ rfl; exact hstands) fun _ t ht => ?_
  obtain ⟨child, subtrees, hcount, hnodes', hdecision, hposition, hchildless, -, hchange⟩ := ht
  obtain rfl : subtrees = 0 := by simpa [uncount, hone] using hcount.symm
  have hfeasible : s₀.search.domain.infeasible = none :=
    hs₀.choose_spec.2.2 node (by rw [hnodes₀]; rfl)
  refine hs₀.move
    (fun ledger hstep => hstep.enters ⟨⟨node, rest, _, child, hnodes₀, hnodes', rfl, rfl,
    rfl, ⟨hexplored, .inr ⟨rfl, rfl⟩⟩, hdecision, hposition, hchildless⟩, hfeasible, hchange⟩
    fun n hn => ?_) fun n hn => ?_
  · rw [hnodes₀] at hn
    obtain rfl := Option.some.inj hn
    exact hpending
  · rw [hnodes'] at hn
    obtain rfl := Option.some.inj hn
    exact hchildless

end Descent

section Operations

/-- Between two operations no child of the current node is left. -/
abbrev Settles (base : List Nat) (start : List (Child α) × SearchState α ρ σ η τ) :
    SearchState α ρ σ η τ → Prop :=
  Reaches base start fun _ => SearchNode.Childless

/-- No node is left. -/
def Exhausts (base : List Nat) (start : List (Child α) × SearchState α ρ σ η τ)
    (s : SearchState α ρ σ η τ) : Prop :=
  Settles base start s ∧ s.search.nodes = []

variable [Relaxation ρ α]

theorem backtrack_settles :
    Keeps (Settles base start) (backtrack : SearchStep α ρ σ η τ Bool) := by
  refine Leads.bind (Q := fun _ => Reaches base start (RestsOpen false))
    (popFinished_reaches.before fun s hs => hs.mono fun n _ hn => .inl ⟨hn, nofun⟩) fun _ =>
    takePending_leads.bind fun pending => ?_
  cases pending with
  | none => exact Leads.pure fun s hs => hs.mono fun n _ hn => hn.1
  | some decision => exact (enterChild_reaches decision).bind fun _ => Keeps.pure

/-- If no child was entered from a current node that is explored, then no node is left. -/
theorem backtrackWithin_settles (isExhausted isExplored : Bool) (suspended : List (OpenNode α))
    (steps : Nat) :
    Leads (Reaches base start (Rests isExplored))
      (backtrackWithin isExhausted suspended steps : SearchStep α ρ σ η τ
        (Bool × List (OpenNode α)))
      fun out s => Settles base start s ∧
        (isExplored = true → out.1 = false → s.search.nodes = []) := by
  induction steps generalizing suspended isExplored with
  | zero => exact Leads.throw
  | succ steps ih =>
      have hrest (suspended : List (OpenNode α)) : Leads (Reaches base start (Rests true))
          (backtrackWithin isExhausted suspended steps :
            SearchStep α ρ σ η τ (Bool × List (OpenNode α)))
          fun out s => Settles base start s ∧
            (isExplored = true → out.1 = false → s.search.nodes = []) :=
        (ih true suspended).after fun out s hs => ⟨hs.1, fun _ => hs.2 rfl⟩
      refine popFinished_reaches.bind fun _ => takePending_leads.bind fun pending => ?_
      cases pending with
      | none =>
          refine Leads.pure fun s hs => ⟨hs.mono fun n _ hn => hn.1, fun hexplored _ => ?_⟩
          refine hs.nil fun n _ hn => ?_
          rw [hexplored] at hn
          cases hn.2
      | some decision =>
          refine shared_leads.bind fun shared => currentNode_leads.bind fun node =>
            Leads.ite (fun hcutoff => ?_) fun _ => ?_
          · refine Leads.bind (changeNode_leads fun s top below hs hnodes => ?_) fun _ => hrest _
            obtain ⟨⟨_, htop⟩, rfl, hs⟩ := hs
            obtain ⟨rfl, -⟩ := List.cons.inj (htop.symm.trans hnodes)
            exact hs.dropped hnodes hcutoff
          · refine Leads.bind ((enterChild_reaches decision).before fun s hs => hs.2.2) fun _ => ?_
            refine Leads.ite (fun _ => ?_) fun _ => Leads.pure fun s hs => ⟨hs, nofun⟩
            exact suspendNode_reaches.bind fun node => (hrest _).before fun s hs =>
              hs.mono fun n _ hn => hn.1

theorem suspendWithin_exhausts (suspended : List (OpenNode α)) (steps : Nat) :
    Leads (Reaches base start (Rests false))
      (suspendWithin suspended steps : SearchStep α ρ σ η τ (List (OpenNode α)))
      fun _ => Exhausts base start := by
  induction steps generalizing suspended with
  | zero => exact Leads.throw
  | succ steps ih =>
      have hsuspend : Leads (Settles base start) (do
          let node ← suspendNode
          suspendWithin (suspended ++ [node]) steps : SearchStep α ρ σ η τ (List (OpenNode α)))
          fun _ => Exhausts base start :=
        suspendNode_reaches.bind fun node => (ih _).before fun s hs => hs.mono fun n _ hn =>
          hn.1.imp_left fun h => ⟨h.1, nofun⟩
      refine search_leads.bind fun search => ?_
      cases hnodes : search.nodes with
      | nil =>
          refine Leads.pure fun s hs => ?_
          obtain ⟨rfl, hs⟩ := hs
          refine ⟨hs.mono fun n hn => ?_, hnodes⟩
          rw [hnodes] at hn
          cases hn
      | cons node rest =>
          refine Leads.ite (fun hunexplored => ?_) fun hexplored => ?_
          · refine hsuspend.before fun s hs => ?_
            obtain ⟨rfl, hs⟩ := hs
            refine hs.mono fun n hn hrests => ?_
            rw [hnodes] at hn
            obtain rfl := Option.some.inj hn
            rcases hrests with h | h
            · exact h.1
            · simp [h.1.1] at hunexplored
          · refine Leads.bind (Q := fun _ => Reaches base start (RestsOpen true))
              (popFinished_reaches.before fun s hs => ?_) fun _ =>
              takePending_leads.bind fun pending => ?_
            · obtain ⟨rfl, hs⟩ := hs
              refine hs.mono fun n hn hrests => ?_
              rw [hnodes] at hn
              obtain rfl := Option.some.inj hn
              exact hrests.imp_left fun h => ⟨h.1, fun _ => by simpa using hexplored⟩
            cases pending with
            | none =>
                refine Leads.pure fun s hs => ⟨hs.mono fun n _ hn => hn.1, hs.nil fun n _ hn => ?_⟩
                cases hn.2
            | some decision => exact (enterChild_reaches decision).bind fun _ => hsuspend

theorem suspendOpenNodes_exhausts :
    Leads (Settles base start) (suspendOpenNodes : SearchStep α ρ σ η τ (List (OpenNode α)))
      fun _ => Exhausts base start := by
  refine search_keeps.bind fun _ => Leads.bind ((suspendWithin_exhausts _ _).before fun s hs =>
    hs.mono fun n _ hn => .inl ⟨hn, nofun⟩) fun _ => ?_
  exact Leads.bind (Q := fun _ => Exhausts base start)
    (changeSearch_leads fun s hs => ⟨hs.1.congr hs.2.symm rfl, rfl⟩) fun _ => Keeps.pure

theorem backtrackPlunge_settles :
    Keeps (Settles base start)
      (backtrackPlunge : SearchStep α ρ σ η τ (Bool × List (OpenNode α))) :=
  search_keeps.bind fun _ => shared_keeps.bind fun _ =>
    (backtrackWithin_settles _ false _ _).mono (fun _ hs => hs.mono fun _ _ hn => .inl ⟨hn, nofun⟩)
      fun _ _ hs => hs.1

variable [Separator σ α] [Proposer η α] [StopCondition τ]

/-- After an evaluation the node is explored, or the search may branch on it. -/
theorem evaluate_settles :
    Leads (Settles base start) (evaluate : SearchStep α ρ σ η τ NodeResult)
      fun result s => Reaches base start
        (fun _ n => n.Childless ∧ (result ≠ .unsolved → n.isExplored = true)) s ∧
        (result = .unsolved → s.search.solution.isSome → s.search.domain.infeasible = none) := by
  refine Leads.fix fun s hs => ?_
  have hworks : s.search.Works s.search := .refl _
  refine evaluate_evaluated.mono (by rintro _ rfl; exact hworks) fun result t ht => ?_
  obtain ⟨hbranched, hend⟩ := ht
  split at hend
  · next hunsolved =>
      exact ⟨(hs.works hend.works).mono fun n _ hn => ⟨hn, fun h => absurd hunsolved h⟩,
        fun _ => hend.ready⟩
  · next hunsolved =>
      exact ⟨(hs.concluded hend).mono fun n _ hn => ⟨hn.1, fun _ => hn.2 hbranched⟩,
        fun h => absurd h hunsolved⟩

omit [StopCondition τ] in
/-- After branching the node is explored, or its first child is the current node. -/
theorem branch_settles :
    Leads (fun s => Settles base start s ∧
        (s.search.solution.isSome → s.search.domain.infeasible = none))
      (branch : SearchStep α ρ σ η τ NodeResult)
      fun result => Reaches base start
        (fun _ n => n.Childless ∧ (result ≠ .branched → n.isExplored = true)) := by
  refine Leads.fix fun s hs => ?_
  have hleveled := hs.1.choose_spec.2.1.leveled
  refine (branch_concluded hleveled).mono (by rintro _ rfl; exact ⟨.refl _, hs.2⟩)
    fun result t ht => hs.1.concluded ht.2

theorem diveWithin_settles (nodes : Nat) :
    Leads (Settles base start) (diveWithin nodes : SearchStep α ρ σ η τ NodeResult)
      fun result => Reaches base start
        (fun _ n => n.Childless ∧ (result ≠ .unsolved → n.isExplored = true)) := by
  induction nodes with
  | zero => exact Leads.throw
  | succ nodes ih =>
      refine (shouldStop_keeps reaches_indifferent).bind fun stop => Leads.ite (fun _ => ?_)
        fun _ => ?_
      · exact Leads.pure fun s hs => hs.mono fun n _ hn => ⟨hn, fun h => absurd rfl h⟩
      refine evaluate_settles.bind fun result => Leads.ite (fun _ => Leads.pure fun s hs => hs.1)
        fun hresult => ?_
      obtain rfl : result = .unsolved := by simpa using hresult
      refine Leads.bind (branch_settles.before fun s hs =>
        ⟨hs.1.mono fun n _ hn => hn.1, hs.2 rfl⟩) fun result => Leads.ite (fun hresult => ?_)
          fun _ => ?_
      · exact Leads.pure fun s hs => hs.mono fun n _ hn =>
          ⟨hn.1, fun _ => hn.2 (by simpa using hresult)⟩
      · exact ih.before fun s hs => hs.mono fun n _ hn => hn.1

theorem exploreWithin_exhausts (suspended : List (OpenNode α)) (dives : Nat) :
    Leads (Settles base start)
      (exploreWithin suspended dives : SearchStep α ρ σ η τ (List (OpenNode α)))
      fun _ => Exhausts base start := by
  induction dives generalizing suspended with
  | zero => exact Leads.throw
  | succ dives ih =>
      refine (diveWithin_settles _).bind fun result => search_keeps.bind fun _ =>
        Leads.ite (fun _ => ?_) fun hresult => ?_
      · exact Leads.bind (suspendOpenNodes_exhausts.before fun s hs => hs.mono fun n _ hn => hn.1)
          fun _ => Keeps.pure
      · have hsolved : result ≠ .unsolved := by
          rintro rfl
          simp at hresult
        have hbacktrack : Leads (Reaches base start
              fun _ n => n.Childless ∧ (result ≠ .unsolved → n.isExplored = true))
            (backtrackPlunge : SearchStep α ρ σ η τ (Bool × List (OpenNode α)))
            fun out s => Settles base start s ∧ (out.1 = false → s.search.nodes = []) :=
          search_keeps.bind fun _ => shared_keeps.bind fun _ =>
            (backtrackWithin_settles _ true _ _).mono
              (fun s hs => hs.mono fun n _ hn => .inl ⟨hn.1, fun _ => hn.2 hsolved⟩)
              fun out s hs => ⟨hs.1, hs.2 rfl⟩
        refine hbacktrack.bind fun next => Leads.ite (fun _ => ?_) fun hnext => ?_
        · exact (ih _).before fun s hs => hs.1
        · exact Leads.pure fun s hs => ⟨hs.1, hs.2 (by simpa using hnext)⟩

end Operations

end SearchStep

end BranchBound
