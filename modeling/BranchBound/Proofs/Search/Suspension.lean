import BranchBound.Proofs.Search.Passage
import BranchBound.Proofs.Search.Walk

/-!
# Nothing open is lost

When a search suspends its open nodes, it returns exactly what is open on its stack: the current
node, unless that is explored, and the child that is left of every node below. Each of them comes
back as the open node of a state to which the search moved, with the decisions that lead to it on
the stack.
-/

namespace BranchBound

open Checked BranchBound.Action

variable {α ρ σ η τ : Type}

/-- Something open on the stack of a search. -/
structure OpenItem (α : Type) where
  /-- The decisions which lead to it from the installed node. -/
  decisions : List (Decision α)
  lowerBound : α
  depth : Nat
  basis : Option Basis

namespace SearchNode

/-- The decisions which lead to the current node from the installed one. -/
def path (nodes : List (SearchNode α)) : List (Decision α) :=
  nodes.reverse.filterMap SearchNode.decision

/-- The child that is left of the node on top of a stack. -/
def leftItem (node : SearchNode α) (rest : List (SearchNode α)) (decision : Decision α) :
    OpenItem α :=
  ⟨path (node :: rest) ++ [decision], node.lowerBound, node.depth + 1, node.basis⟩

/-- The children that are left of the nodes of a stack. -/
def leftItems : List (SearchNode α) → List (OpenItem α)
  | [] => []
  | node :: rest => node.pending.toList.map (leftItem node rest) ++ leftItems rest

/-- What is open on a stack. -/
def openItems : List (SearchNode α) → List (OpenItem α)
  | [] => []
  | node :: rest =>
    if node.isExplored then leftItems (node :: rest)
    else ⟨path (node :: rest), node.lowerBound, node.depth, node.basis⟩ :: leftItems (node :: rest)

theorem path_cons (node : SearchNode α) (rest : List (SearchNode α)) :
    path (node :: rest) = path rest ++ node.decision.toList := by
  rw [path, List.reverse_cons, List.filterMap_append, path]
  cases hdecision : node.decision with
  | none => simp [hdecision]
  | some decision => simp [hdecision]

/-- Nothing is left of a finished node that waits. -/
theorem Waits.pending_of_isFinished {n : SearchNode α} (h : n.Waits)
    (hfinished : n.isFinished = true) :
    n.pending = none := by
  rw [isFinished, Bool.and_eq_true, beq_iff_eq] at hfinished
  rcases h.2 with ⟨hone, -⟩ | hchildless
  · rw [hfinished.2] at hone
    cases hone
  · exact hchildless.2

variable {nodes : List (SearchNode α)}

/-- Removing finished nodes leaves the children that are left. -/
theorem leftItems_dropWhile (h : ∀ n ∈ nodes, n.isFinished = true → n.pending = none) :
    leftItems (nodes.dropWhile isFinished) = leftItems nodes := by
  induction nodes with
  | nil => rfl
  | cons node rest ih =>
      have hrest := ih fun n hn => h n (List.mem_cons_of_mem _ hn)
      by_cases hfinished : node.isFinished = true
      · rw [List.dropWhile_cons_of_pos hfinished, hrest, leftItems,
          h node (List.mem_cons_self ..) hfinished]
        rfl
      · rw [List.dropWhile_cons_of_neg hfinished]

/-- Of nodes that wait only their children are open. -/
theorem openItems_of_waits (h : ∀ n ∈ nodes, n.Waits) : openItems nodes = leftItems nodes := by
  cases nodes with
  | nil => rfl
  | cons node rest => rw [openItems, if_pos (h node (List.mem_cons_self ..)).1]

theorem openItems_dropWhile (h : ∀ n ∈ nodes, n.Waits) :
    openItems (nodes.dropWhile isFinished) = leftItems nodes := by
  rw [openItems_of_waits fun n hn => h n ((List.dropWhile_suffix _).subset hn),
    leftItems_dropWhile fun n hn => (h n hn).pending_of_isFinished]

end SearchNode

variable [Scalar α]

/-- The open node is that of a state in step to which the search moved, where the current node is
the item. -/
def OpenItem.SuspendedAs (asked : SearchState α ρ σ η τ) (item : OpenItem α) (x : OpenNode α) :
    Prop :=
  ∃ base before after v child rest, Moves (before, asked) (after, v) ∧
    v.search.InStep base after ∧ v.search.nodes = child :: rest ∧
    SearchNode.path v.search.nodes = item.decisions ∧ child.lowerBound = item.lowerBound ∧
    child.depth = item.depth ∧ child.basis = item.basis ∧ x = v.search.openNode child

theorem OpenItem.SuspendedAs.lowerBound {asked : SearchState α ρ σ η τ} {item : OpenItem α}
    {x : OpenNode α} (h : item.SuspendedAs asked x) : x.lowerBound = item.lowerBound := by
  obtain ⟨_, _, _, _, _, _, -, -, -, -, hbound, -, -, rfl⟩ := h
  exact hbound

namespace SearchStep

section Nodes

/-- The nodes of a search. -/
abbrev HasNodes (nodes : List (SearchNode α)) (s : SearchState α ρ σ η τ) : Prop :=
  s.search.nodes = nodes

theorem dropFinished_nodes {nodes rest : List (SearchNode α)} {d d' : Domain α}
    (h : dropFinished nodes d = .ok (rest, d')) : rest = nodes.dropWhile SearchNode.isFinished := by
  induction nodes generalizing d with
  | nil =>
      cases h
      rfl
  | cons node nodes ih =>
      rw [dropFinished] at h
      split at h
      · next hopen =>
          cases h
          rw [List.dropWhile_cons_of_neg (by simpa using hopen)]
      · next hfinished =>
          rw [List.dropWhile_cons_of_pos (by simpa using hfinished)]
          dsimp only at h
          split at h
          · simp only [bind_eq_ok, pure_eq_ok] at h
            obtain ⟨_, -, _, -, h⟩ := h
            exact ih h
          · exact ih h

theorem popFinished_nodes (nodes : List (SearchNode α)) :
    Leads (HasNodes nodes) (popFinished : SearchStep α ρ σ η τ Unit)
      fun _ => HasNodes (nodes.dropWhile SearchNode.isFinished) := by
  refine search_leads.bind fun search => Leads.lift.bind fun kept =>
    changeSearch_leads fun s hs => ?_
  obtain ⟨hdrop, rfl, hs⟩ := hs
  rw [show s.search.nodes = nodes from hs] at hdrop
  exact dropFinished_nodes hdrop

omit [Scalar α] in
theorem takePending_nodes (nodes : List (SearchNode α)) :
    Leads (HasNodes nodes) (takePending : SearchStep α ρ σ η τ (Option (Decision α)))
      fun pending s => match nodes with
        | [] => pending = none
        | node :: rest =>
            pending = node.pending ∧ HasNodes ({ node with pending := none } :: rest) s := by
  refine search_leads.bind fun search => ?_
  cases hnodes : search.nodes with
  | nil =>
      refine Leads.pure fun s hs => ?_
      obtain ⟨rfl, hs⟩ := hs
      rw [show nodes = [] from hs.symm.trans hnodes]
  | cons top below =>
      refine Leads.bind (Q := fun _ s => nodes = top :: below ∧
        HasNodes ({ top with pending := none } :: below) s)
        (changeNode_leads fun s node rest hs hcons => ?_) fun _ => Leads.pure fun s hs => ?_
      · obtain ⟨rfl, hs⟩ := hs
        obtain ⟨rfl, rfl⟩ := List.cons.inj (hnodes.symm.trans hcons)
        exact ⟨hs.symm.trans hnodes, rfl⟩
      · obtain ⟨rfl, hs⟩ := hs
        exact ⟨rfl, hs⟩

/-- A suspended node is the current one, and finished nodes are removed from the stack. -/
theorem suspendNode_nodes (s₀ : SearchState α ρ σ η τ) :
    Leads (fun s => s = s₀) (suspendNode : SearchStep α ρ σ η τ (OpenNode α))
      fun x s => ∃ node rest, s₀.search.nodes = node :: rest ∧ x = s₀.search.openNode node ∧
        HasNodes (rest.dropWhile SearchNode.isFinished) s := by
  refine domain_leads.bind fun d => currentNode_leads.bind fun node => Leads.fix fun s₁ hs₁ => ?_
  obtain ⟨⟨rest, hnodes⟩, rfl, rfl⟩ := hs₁
  refine Leads.bind (Q := fun _ => HasNodes ({ node.finish with pending := none } :: rest))
    (changeNode_leads fun s top below hs hcons => ?_) fun _ =>
      Leads.bind (Q := fun _ => HasNodes ({ node.finish with pending := none } :: rest))
        (changeSearch_leads fun s hs => hs) fun _ => (popFinished_nodes _).bind fun _ =>
          Leads.pure fun s hs => ⟨node, rest, hnodes, rfl, ?_⟩
  · subst hs
    obtain ⟨rfl, rfl⟩ := List.cons.inj (hnodes.symm.trans hcons)
    rfl
  · rwa [List.dropWhile_cons_of_pos rfl] at hs

variable [Relaxation ρ α]

/-- A child that is entered has the lower bound and the basis of its parent, and is one deeper. -/
theorem enterChild_nodes (parent : SearchNode α) (rest : List (SearchNode α))
    (decision : Decision α) :
    Leads (HasNodes (parent :: rest)) (enterChild decision : SearchStep α ρ σ η τ Unit)
      fun _ s => ∃ child subtrees, uncount parent.openSubtrees 1 = .ok subtrees ∧
        HasNodes (child :: { parent with openSubtrees := subtrees } :: rest) s ∧
        child.decision = some decision ∧ child.lowerBound = parent.lowerBound ∧
        child.depth = parent.depth + 1 ∧ child.basis = parent.basis := by
  refine currentNode_leads.bind fun node => search_keeps.bind fun _ => Keeps.lift.bind fun _ => ?_
  refine Leads.lift.bind fun subtrees => ?_
  let Counted : SearchState α ρ σ η τ → Prop := fun s => node = parent ∧
    uncount parent.openSubtrees 1 = .ok subtrees ∧
    s.search.nodes = { parent with openSubtrees := subtrees } :: rest
  have hcounted : Indifferent Counted := .alone fun _ _ hs h => ⟨hs.1, hs.2.1, h.nodes.trans hs.2.2⟩
  refine Leads.bind (Q := fun _ => Counted) (changeNode_leads fun s top below hs hcons => ?_)
    fun _ => Leads.lift.bind fun depth => ?_
  · obtain ⟨hcount, ⟨_, htop⟩, hs⟩ := hs
    obtain ⟨rfl, -⟩ := List.cons.inj (hs.symm.trans htop)
    obtain ⟨rfl, rfl⟩ := List.cons.inj (hs.symm.trans hcons)
    exact ⟨rfl, hcount, rfl⟩
  refine domain_keeps.bind fun _ => Leads.fix fun s₁ hs₁ => ?_
  obtain ⟨hdepth, hs₁⟩ := hs₁
  refine Leads.before (P := Counted) ?_ (by rintro _ rfl; exact hs₁)
  refine (changeDomain_leads hcounted fun s d hs _ => hs).bind fun _ =>
    (warmStart_keeps hcounted _).bind fun _ => changeSearch_leads fun s hs => ?_
  obtain ⟨rfl, hcount, hs⟩ := hs
  exact ⟨_, subtrees, hcount, congrArg _ hs, rfl, rfl, count_eq_ok hdepth, rfl⟩

end Nodes

variable {base : List Nat} {before : List (Child α)} {asked : SearchState α ρ σ η τ}
  [Relaxation ρ α]

omit [Relaxation ρ α] in
/-- The nodes below the current one wait. -/
theorem waits_of_reaches {top : Domain α → SearchNode α → Prop} {s : SearchState α ρ σ η τ}
    {start : List (Child α) × SearchState α ρ σ η τ} {node : SearchNode α}
    {rest : List (SearchNode α)} (h : Reaches base start top s)
    (hnodes : s.search.nodes = node :: rest) : ∀ n ∈ rest, n.Waits := by
  obtain ⟨ledger, -, hstep, -⟩ := h
  have hchain := hstep.chain
  rw [hnodes] at hchain
  clear hnodes
  induction rest generalizing node with
  | nil => exact fun _ hn => by cases hn
  | cons parent below ih =>
      rw [List.isChain_cons_cons] at hchain
      intro n hn
      rcases List.mem_cons.mp hn with rfl | hn
      · exact hchain.1.2
      · exact ih hchain.2 n hn

omit [Relaxation ρ α] in
/-- Of an explored node that is not finished a child is left. -/
theorem pending_ne_none_of_reaches {start : List (Child α) × SearchState α ρ σ η τ}
    {s : SearchState α ρ σ η τ} {node : SearchNode α} {rest : List (SearchNode α)}
    (h : Reaches base start (RestsOpen true) s) (hnodes : s.search.nodes = node :: rest) :
    node.pending ≠ none := by
  obtain ⟨hrests, hopen⟩ := h.choose_spec.2.2 node (by rw [hnodes]; rfl)
  intro hnone
  rcases hrests with ⟨hchildless, hexplored⟩ | ⟨⟨hexplored, ⟨-, hsome⟩ | hchildless⟩, -⟩
  · simp [SearchNode.isFinished, hexplored rfl, hchildless.1] at hopen
  · rw [hnone] at hsome
    cases hsome
  · simp [SearchNode.isFinished, hexplored, hchildless.1] at hopen

omit [Relaxation ρ α] in
/-- No child is left of a finished node. -/
theorem pending_of_reaches {start : List (Child α) × SearchState α ρ σ η τ} {isExplored : Bool}
    {s : SearchState α ρ σ η τ} (h : Reaches base start (Rests isExplored) s) :
    ∀ n ∈ s.search.nodes, n.isFinished = true → n.pending = none := by
  intro n hn hfinished
  cases hnodes : s.search.nodes with
  | nil =>
      rw [hnodes] at hn
      cases hn
  | cons node rest =>
      rw [hnodes] at hn
      rcases List.mem_cons.mp hn with rfl | hn
      · rcases h.choose_spec.2.2 n (by rw [hnodes]; rfl) with hrests | hrests
        · exact hrests.1.2
        · exact hrests.1.pending_of_isFinished hfinished
      · exact (waits_of_reaches h hnodes n hn).pending_of_isFinished hfinished

omit [Relaxation ρ α] in
/-- A node that is not explored has no children. -/
theorem childless_of_reaches {start : List (Child α) × SearchState α ρ σ η τ}
    {s : SearchState α ρ σ η τ} {node : SearchNode α} {rest : List (SearchNode α)}
    (h : Reaches base start (Rests false) s) (hnodes : s.search.nodes = node :: rest)
    (hunexplored : node.isExplored = false) : node.Childless := by
  rcases h.choose_spec.2.2 node (by rw [hnodes]; rfl) with hrests | hrests
  · exact hrests.1
  · rw [hrests.1.1] at hunexplored
    cases hunexplored

omit [Scalar α] [Relaxation ρ α] in
/-- The child that was left is the current node once it is entered. -/
theorem item_of_child (parent : SearchNode α) (rest : List (SearchNode α)) {child : SearchNode α}
    {decision : Decision α} {subtrees : Nat} (hdecision : child.decision = some decision)
    (hbound : child.lowerBound = parent.lowerBound) (hdepth : child.depth = parent.depth + 1)
    (hbasis : child.basis = parent.basis) :
    (⟨SearchNode.path (child :: { parent with openSubtrees := subtrees, pending := none } :: rest),
      child.lowerBound, child.depth, child.basis⟩ : OpenItem α) =
      SearchNode.leftItem parent rest decision := by
  rw [SearchNode.path_cons, SearchNode.path_cons, SearchNode.leftItem, SearchNode.path_cons,
    hdecision, hbound, hdepth, hbasis]
  rfl

/-- With so many steps, what is open when suspending begins is returned. -/
def Suspends (base : List Nat) (before : List (Child α)) (asked : SearchState α ρ σ η τ)
    (steps : Nat) : Prop :=
  ∀ (suspended : List (OpenNode α)) (nodes : List (SearchNode α)),
    Leads (fun s => Reaches base (before, asked) (Rests false) s ∧ HasNodes nodes s)
      (suspendWithin suspended steps : SearchStep α ρ σ η τ (List (OpenNode α)))
      fun all _ => ∃ more, all = suspended ++ more ∧
        List.Forall₂ (OpenItem.SuspendedAs asked) (SearchNode.openItems nodes) more

variable {steps : Nat}

/-- Suspending the current node leaves the children that are left of the nodes below it. -/
theorem Suspends.top (ih : Suspends base before asked steps) (suspended : List (OpenNode α))
    (top : SearchNode α) (below : List (SearchNode α)) :
    Leads (fun s => Settles base (before, asked) s ∧ HasNodes (top :: below) s)
      (do
        let node ← suspendNode
        suspendWithin (suspended ++ [node]) steps : SearchStep α ρ σ η τ (List (OpenNode α)))
      fun all _ => ∃ more, all = suspended ++ more ∧
        List.Forall₂ (OpenItem.SuspendedAs asked)
          (⟨SearchNode.path (top :: below), top.lowerBound, top.depth, top.basis⟩ ::
            SearchNode.leftItems below) more := by
  refine Leads.fix fun s₀ hs₀ => ?_
  obtain ⟨hsettles, hnodes⟩ := hs₀
  have hwaits := waits_of_reaches hsettles hnodes
  refine Leads.bind ((suspendNode_reaches.before (by rintro _ rfl; exact hsettles)).and
    (suspendNode_nodes s₀)) fun x => Leads.fix fun s₁ hs₁ => ?_
  obtain ⟨hreaches, node, rest, hcons, rfl, hrest⟩ := hs₁
  obtain ⟨rfl, rfl⟩ := List.cons.inj (hnodes.symm.trans hcons)
  have hrests : Reaches base (before, asked) (Rests false) s₁ :=
    hreaches.mono fun n _ hn => hn.1.imp_left fun h => ⟨h.1, nofun⟩
  refine (ih (suspended ++ [s₀.search.openNode top])
    (below.dropWhile SearchNode.isFinished)).mono (by rintro _ rfl; exact ⟨hrests, hrest⟩)
    fun all _ hall => ?_
  obtain ⟨more, rfl, hmore⟩ := hall
  rw [SearchNode.openItems_dropWhile hwaits] at hmore
  refine ⟨_ :: more, by rw [List.append_assoc, List.singleton_append], .cons ?_ hmore⟩
  obtain ⟨ledger, hmoves, hstep, -⟩ := hsettles
  exact ⟨base, before, ledger, s₀, top, below, hmoves, hstep, hnodes, by rw [hnodes], rfl,
    rfl, rfl, rfl⟩

/-- A child that is left of the topmost node is entered and suspended. If there is no node, nothing
is left. -/
theorem Suspends.left (ih : Suspends base before asked steps) (suspended : List (OpenNode α))
    (nodes : List (SearchNode α)) :
    Leads (fun s => Reaches base (before, asked) (RestsOpen true) s ∧ HasNodes nodes s)
      (do
        match ← takePending with
        | none => return suspended
        | some decision =>
          enterChild decision
          let node ← suspendNode
          suspendWithin (suspended ++ [node]) steps : SearchStep α ρ σ η τ (List (OpenNode α)))
      fun all _ => ∃ more, all = suspended ++ more ∧
        List.Forall₂ (OpenItem.SuspendedAs asked) (SearchNode.leftItems nodes) more := by
  refine Leads.fix fun s₀ hs₀ => ?_
  obtain ⟨hopen, hnodes₀⟩ := hs₀
  refine Leads.bind ((takePending_leads.before (by rintro _ rfl; exact hopen)).and
    ((takePending_nodes nodes).before (by rintro _ rfl; exact hnodes₀))) fun pending =>
      Leads.fix fun s₁ hs₁ => ?_
  cases nodes with
  | nil =>
      obtain rfl : pending = none := hs₁.2
      exact Leads.pure fun _ _ => ⟨[], by rw [List.append_nil], .nil⟩
  | cons top below =>
      obtain ⟨htaken, rfl, hnodes₁⟩ := hs₁
      cases hleft : top.pending with
      | none => exact absurd hleft (pending_ne_none_of_reaches hopen hnodes₀)
      | some decision =>
          rw [hleft] at htaken
          refine Leads.bind (((enterChild_reaches decision).before
            (by rintro _ rfl; exact htaken)).and ((enterChild_nodes _ below decision).before
            (by rintro _ rfl; exact hnodes₁))) fun _ => Leads.fix fun s₂ hs₂ => ?_
          obtain ⟨hsettles, child, subtrees, -, hchild, hdecision, hbound, hdepth, hbasis⟩ := hs₂
          refine (ih.top suspended child _).mono (by rintro _ rfl; exact ⟨hsettles, hchild⟩)
            fun all _ hall => ?_
          rw [item_of_child top below hdecision hbound hdepth hbasis, SearchNode.leftItems] at hall
          rw [SearchNode.leftItems, hleft]
          exact hall

/-- What is open when suspending begins is returned, whatever the number of steps is. -/
theorem suspendWithin_items (steps : Nat) : Suspends base before asked steps := by
  induction steps with
  | zero => exact fun _ _ => Leads.throw
  | succ steps ih =>
      intro suspended nodes
      refine search_leads.bind fun search => ?_
      cases hsearch : search.nodes with
      | nil =>
          refine Leads.pure fun s hs => ⟨[], by rw [List.append_nil], ?_⟩
          obtain ⟨rfl, -, hs⟩ := hs
          rw [show nodes = [] from hs.symm.trans hsearch]
          exact .nil
      | cons node rest =>
          refine Leads.fix fun s hs => ?_
          obtain ⟨rfl, hreaches, hs⟩ := hs
          obtain rfl : nodes = node :: rest := hs.symm.trans hsearch
          refine Leads.ite (fun hunexplored => ?_) fun hexplored => ?_
          · have hunexplored : node.isExplored = false := by simpa using hunexplored
            have hchildless := childless_of_reaches hreaches hsearch hunexplored
            have hsettles : Settles base (before, asked) s := hreaches.mono fun n hn _ => by
              rw [hsearch] at hn
              exact Option.some.inj hn ▸ hchildless
            refine (ih.top suspended node rest).mono (by rintro _ rfl; exact ⟨hsettles, hs⟩)
              fun all _ hall => ?_
            rwa [SearchNode.openItems, if_neg (by simp [hunexplored]), SearchNode.leftItems,
              hchildless.2]
          · have hexplored : node.isExplored = true := by simpa using hexplored
            have hrests : Reaches base (before, asked) (Rests true) s :=
              hreaches.mono fun n hn hrests => by
                rw [hsearch] at hn
                obtain rfl := Option.some.inj hn
                exact hrests.imp_left fun h => ⟨h.1, fun _ => hexplored⟩
            have hpending : ∀ n ∈ node :: rest, n.isFinished = true → n.pending = none :=
              hs ▸ pending_of_reaches hreaches
            rw [show SearchNode.openItems (node :: rest) = SearchNode.leftItems (node :: rest) from
              if_pos hexplored, ← SearchNode.leftItems_dropWhile hpending]
            exact Leads.bind ((popFinished_reaches.before (by rintro _ rfl; exact hrests)).and
              ((popFinished_nodes (node :: rest)).before (by rintro _ rfl; exact hs))) fun _ =>
                ih.left suspended _

/-- What is open when a search is asked to suspend it is returned. -/
theorem suspendOpenNodes_items {s t : SearchState α ρ σ η τ} {more : List (OpenNode α)}
    (hs : ∃ start, Settles base start s) (h : suspendOpenNodes.perform s = (.ok more, t)) :
    List.Forall₂ (OpenItem.SuspendedAs s) (SearchNode.openItems s.search.nodes) more := by
  obtain ⟨start, ledger, -, hstep, htop⟩ := hs
  have hreaches : Reaches base (ledger, s) (Rests false) s :=
    ⟨ledger, .refl, hstep, fun n hn => .inl ⟨htop n hn, nofun⟩⟩
  obtain ⟨_, _, hget, h⟩ := perform_bind_eq_ok.mp h
  cases hget
  obtain ⟨all, u, hsuspend, h⟩ := perform_bind_eq_ok.mp h
  obtain ⟨_, _, -, h⟩ := perform_bind_eq_ok.mp h
  cases h
  obtain ⟨_, rfl, hitems⟩ := suspendWithin_items _ [] _ _ _ _ ⟨hreaches, rfl⟩ hsuspend
  exact hitems

end SearchStep

end BranchBound
