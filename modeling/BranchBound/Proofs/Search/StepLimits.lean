import BranchBound.Proofs.Search.Suspension

/-!
# Steps that suffice

Backtracking and suspending go on in steps, of which there is a limit. A step of either takes a
child that is left or removes a node that is not explored, and nothing of the kind is put on the
stack in exchange. So the limits are never reached: with any larger ones the outcome and the state
are the same, also where some operation stops with a fault.
-/

namespace BranchBound

open Checked BranchBound.Action

variable {α ρ σ η τ : Type}

namespace SearchNode

/-- The number of nodes and children of a stack that have to be suspended. -/
def openCount (nodes : List (SearchNode α)) : Nat :=
  nodes.countP (fun n => !n.isExplored) + (pendings nodes).length

variable {nodes nodes' rest : List (SearchNode α)} {node : SearchNode α} {decision : Decision α}

theorem length_pendings_le (nodes : List (SearchNode α)) :
    (pendings nodes).length ≤ nodes.length :=
  (List.length_filterMap_le ..).trans_eq List.length_reverse

theorem openCount_le (nodes : List (SearchNode α)) : openCount nodes ≤ 2 * nodes.length := by
  have hunexplored : nodes.countP (fun n => !n.isExplored) ≤ nodes.length := List.countP_le_length
  have hleft := length_pendings_le nodes
  rw [openCount]
  omega

theorem length_pendings_mono (h : nodes <:+ nodes') :
    (pendings nodes).length ≤ (pendings nodes').length :=
  (h.sublist.reverse.filterMap SearchNode.pending).length_le

theorem openCount_mono (h : nodes <:+ nodes') : openCount nodes ≤ openCount nodes' :=
  Nat.add_le_add h.sublist.countP_le (length_pendings_mono h)

theorem length_pendings_taken (h : node.pending = some decision) :
    (pendings ({ node with pending := none } :: rest)).length + 1 =
      (pendings (node :: rest)).length := by
  simp [pendings_cons, h]

theorem openCount_taken (h : node.pending = some decision) :
    openCount ({ node with pending := none } :: rest) + 1 = openCount (node :: rest) := by
  rw [openCount, Nat.add_assoc, length_pendings_taken h, openCount, List.countP_cons,
    List.countP_cons]

/-- A node that is not explored does not have to be suspended once it is removed. -/
theorem openCount_removed (h : node.isExplored = false) :
    openCount (rest.dropWhile isFinished) < openCount (node :: rest) := by
  have hrest := openCount_mono (rest.dropWhile_suffix isFinished)
  have hleft := length_pendings_mono (rest.suffix_cons node)
  simp only [openCount] at hrest ⊢
  rw [List.countP_cons_of_pos (by simp [h])]
  omega

end SearchNode

namespace SearchStep

open SearchNode (pendings openCount)

variable [Scalar α]

/-- The child that is taken is left of the topmost node that is not finished. -/
theorem taken_of_perform {s t u : SearchState α ρ σ η τ} {decision : Decision α}
    (hpop : popFinished.perform s = (.ok (), t))
    (htake : takePending.perform t = (.ok (some decision), u)) :
    ∃ node rest, node :: rest <:+ s.search.nodes ∧ node.pending = some decision ∧
      HasNodes ({ node with pending := none } :: rest) u := by
  have hpopped := popFinished_nodes s.search.nodes s () t rfl hpop
  have htaken := takePending_nodes _ t _ u hpopped htake
  have hsuffix := s.search.nodes.dropWhile_suffix SearchNode.isFinished
  revert htaken hsuffix
  cases s.search.nodes.dropWhile SearchNode.isFinished with
  | nil => rintro ⟨⟩
  | cons node rest =>
      rintro ⟨hpending, hnodes⟩ hsuffix
      exact ⟨node, rest, hsuffix, hpending.symm, hnodes⟩

variable [Relaxation ρ α]

/-- Nothing more is left and open once a child was entered and suspended. -/
theorem suspended_of_perform {s t u : SearchState α ρ σ η τ} {decision : Decision α}
    {parent : SearchNode α} {rest : List (SearchNode α)} {x : OpenNode α}
    (hs : HasNodes (parent :: rest) s) (henter : (enterChild decision).perform s = (.ok (), t))
    (hsuspend : suspendNode.perform t = (.ok x, u)) :
    (pendings u.search.nodes).length ≤ (pendings (parent :: rest)).length ∧
      openCount u.search.nodes ≤ openCount (parent :: rest) := by
  obtain ⟨child, subtrees, -, hchild, -⟩ := enterChild_nodes parent rest decision s () t hs henter
  obtain ⟨node, below, hnodes, -, hbelow⟩ := suspendNode_nodes t t x u rfl hsuspend
  obtain ⟨-, rfl⟩ := List.cons.inj (hchild.symm.trans hnodes)
  have hsuffix : u.search.nodes <:+ { parent with openSubtrees := subtrees } :: rest :=
    hbelow ▸ List.dropWhile_suffix _
  have hleft : pendings ({ parent with openSubtrees := subtrees } :: rest) =
      pendings (parent :: rest) := by
    rw [SearchNode.pendings_cons, SearchNode.pendings_cons]
  have hopen : openCount ({ parent with openSubtrees := subtrees } :: rest) =
      openCount (parent :: rest) := by
    rw [openCount, openCount, hleft, List.countP_cons, List.countP_cons]
  exact ⟨(SearchNode.length_pendings_mono hsuffix).trans_eq (congrArg _ hleft),
    (SearchNode.openCount_mono hsuffix).trans_eq hopen⟩

/-- The number of steps does not matter, as long as there are more of them than children left. -/
theorem backtrackWithin_steps (isExhausted : Bool) (suspended : List (OpenNode α))
    {steps steps' : Nat} {s : SearchState α ρ σ η τ}
    (h : (pendings s.search.nodes).length < steps)
    (h' : (pendings s.search.nodes).length < steps') :
    (backtrackWithin isExhausted suspended steps).perform s =
      (backtrackWithin isExhausted suspended steps').perform s := by
  induction steps generalizing suspended steps' s with
  | zero => exact absurd h (Nat.not_lt_zero _)
  | succ steps ih =>
      obtain ⟨steps', rfl⟩ := Nat.exists_eq_succ_of_ne_zero (Nat.ne_zero_of_lt h')
      rw [backtrackWithin, backtrackWithin]
      refine perform_bind_congr fun _ t hpop => perform_bind_congr fun pending u htake => ?_
      cases pending with
      | none => rfl
      | some decision =>
          obtain ⟨node, rest, hsuffix, hpending, hu⟩ := taken_of_perform hpop htake
          have hfewer : (pendings ({ node with pending := none } :: rest)).length + 1 =
              (pendings (node :: rest)).length := SearchNode.length_pendings_taken hpending
          have hle := SearchNode.length_pendings_mono hsuffix
          refine perform_bind_congr fun _ v hv => perform_bind_congr fun _ w hw => ?_
          have hnodes : HasNodes ({ node with pending := none } :: rest) w :=
            currentNode_keeps _ _ _ (shared_keeps _ _ _ hu hv) hw
          split
          · refine perform_bind_congr fun _ x hchange => ?_
            have hx : pendings x.search.nodes = pendings ({ node with pending := none } :: rest) :=
              changeNode_leads (Q := fun _ x => pendings x.search.nodes = _)
                (fun s top below hs hcons => by
                  obtain ⟨rfl, rfl⟩ := List.cons.inj (hs.symm.trans hcons)
                  rw [SearchNode.pendings_cons, SearchNode.pendings_cons]) _ _ _ hnodes hchange
            exact ih _ (by rw [hx]; omega) (by rw [hx]; omega)
          · refine perform_bind_congr fun _ x henter => ?_
            split
            · refine perform_bind_congr fun item y hsuspend => ?_
              have hy := (suspended_of_perform hnodes henter hsuspend).1
              exact ih _ (by omega) (by omega)
            · rfl

/-- Nor does it when what is open is suspended. -/
theorem suspendWithin_steps (suspended : List (OpenNode α)) {steps steps' : Nat}
    {s : SearchState α ρ σ η τ} (h : openCount s.search.nodes < steps)
    (h' : openCount s.search.nodes < steps') :
    (suspendWithin suspended steps).perform s = (suspendWithin suspended steps').perform s := by
  induction steps generalizing suspended steps' s with
  | zero => exact absurd h (Nat.not_lt_zero _)
  | succ steps ih =>
      obtain ⟨steps', rfl⟩ := Nat.exists_eq_succ_of_ne_zero (Nat.ne_zero_of_lt h')
      rw [suspendWithin, suspendWithin]
      refine perform_bind_congr fun search t hsearch => ?_
      cases hsearch
      cases hnodes : s.search.nodes with
      | nil => rfl
      | cons node rest =>
          dsimp only
          split
          · next hunexplored =>
              refine perform_bind_congr fun item u hsuspend => ?_
              obtain ⟨top, below, hcons, -, hu⟩ := suspendNode_nodes s s item u rfl hsuspend
              obtain ⟨rfl, rfl⟩ := List.cons.inj (hnodes.symm.trans hcons)
              have hfewer : openCount u.search.nodes < openCount s.search.nodes := by
                rw [hu, hnodes]
                exact SearchNode.openCount_removed (by simpa using hunexplored)
              exact ih _ (by omega) (by omega)
          · refine perform_bind_congr fun _ t hpop => perform_bind_congr fun pending u htake => ?_
            cases pending with
            | none => rfl
            | some decision =>
                obtain ⟨node, rest, hsuffix, hpending, hu⟩ := taken_of_perform hpop htake
                have hfewer : openCount ({ node with pending := none } :: rest) + 1 =
                    openCount (node :: rest) := SearchNode.openCount_taken hpending
                have hle := SearchNode.openCount_mono hsuffix
                refine perform_bind_congr fun _ v henter =>
                  perform_bind_congr fun item w hsuspend => ?_
                have hw := (suspended_of_perform hu henter hsuspend).2
                exact ih _ (by omega) (by omega)

/-- Backtracking does the same with any larger number of steps. -/
theorem backtrackPlunge_perform {s : SearchState α ρ σ η τ} {steps : Nat}
    (h : s.search.nodes.length < steps) :
    backtrackPlunge.perform s = (do
      let current ← search
      let isExhausted := decide ((← shared).options.plungeNodeBudget ≤ current.plungeNodes)
      backtrackWithin isExhausted [] steps : SearchStep α ρ σ η τ _).perform s := by
  refine perform_bind_congr fun current t hcurrent => ?_
  cases hcurrent
  refine perform_bind_congr fun _ u hshared => ?_
  have hu : HasNodes s.search.nodes u := shared_keeps _ _ _ rfl hshared
  have hle := SearchNode.length_pendings_le s.search.nodes
  exact backtrackWithin_steps _ _ (by rw [hu]; omega) (by rw [hu]; omega)

/-- So does suspending what is open. -/
theorem suspendOpenNodes_perform {s : SearchState α ρ σ η τ} {steps : Nat}
    (h : 2 * s.search.nodes.length < steps) :
    suspendOpenNodes.perform s = (do
      let suspended ← suspendWithin [] steps
      changeSearch fun s => { s with nodes := [] }
      return suspended : SearchStep α ρ σ η τ _).perform s := by
  have hle := SearchNode.openCount_le s.search.nodes
  have hsteps : (suspendWithin [] (2 * s.search.nodes.length + 1)).perform s =
      (suspendWithin [] steps).perform s :=
    suspendWithin_steps [] (by omega) (hle.trans_lt h)
  rw [suspendOpenNodes, perform_bind]
  change (suspendWithin [] (2 * s.search.nodes.length + 1) >>= _).perform s = _
  rw [perform_bind, perform_bind, hsteps]

end SearchStep

end BranchBound
