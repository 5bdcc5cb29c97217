import BranchBound.Proofs.Search.Descent
import BranchBound.Proofs.Search.Visit

/-!
# A search is made of descents

The operations of a search on an installed node are moves by which no child is entered that has not
a narrower box than its parent had when it was branched on. Evaluating a node that was not explored
uses up a node of the allowance, and whatever a search does between two evaluations adds none.
-/

namespace BranchBound

open Checked BranchBound.Action

namespace SearchStep

section Steps

variable {α ρ σ η τ : Type} [Scalar α]

/-- Finished nodes are taken off the stack one by one. -/
theorem dropFinished_popped {nodes nodes' : List (SearchNode α)} {d d' : Domain α}
    (h : dropFinished nodes d = .ok (nodes', d'))
    (hpending : ∀ n ∈ nodes, n.isFinished = true → n.pending = none) {s : Search α ρ}
    (hnodes : s.nodes = nodes) (hdomain : s.domain = d) :
    Relation.ReflTransGen Search.Popped s { s with nodes := nodes', domain := d' } := by
  induction nodes generalizing d s with
  | nil =>
      cases h
      rw [← hnodes, ← hdomain]
  | cons node rest ih =>
      rw [dropFinished] at h
      split at h
      · cases h
        rw [← hnodes, ← hdomain]
      · next hclosed =>
          have hfinished : node.isFinished = true := by simpa using hclosed
          have hrest (e : Domain α) (h : dropFinished rest e = .ok (nodes', d'))
              (hlevel : if node.decision.isSome then ∃ undone, s.domain.backtrack = .ok (undone, e)
                else e = s.domain) :
              Relation.ReflTransGen Search.Popped s { s with nodes := nodes', domain := d' } := by
            have hpopped : s.Popped { s with nodes := rest, domain := e } :=
              ⟨node, hnodes, hfinished, hpending node (List.mem_cons_self ..) hfinished, hlevel⟩
            exact .head hpopped (ih (s := { s with nodes := rest, domain := e }) h
              (fun n hn => hpending n (List.mem_cons_of_mem _ hn)) rfl rfl)
          dsimp only at h
          split at h
          · next hdecision =>
              simp only [bind_eq_ok, pure_eq_ok] at h
              obtain ⟨⟨undone, e⟩, hback, _, rfl, h⟩ := h
              exact hrest e h (by rw [if_pos hdecision, hdomain]; exact ⟨undone, hback⟩)
          · next hdecision => exact hrest d h (by rw [if_neg hdecision, hdomain])

/-- The state after the pending decision was taken from its current node. -/
def withoutPending (s : SearchState α ρ σ η τ) (node : SearchNode α) (rest : List (SearchNode α)) :
    SearchState α ρ σ η τ :=
  { s with search := { s.search with nodes := { node with pending := none } :: rest } }

omit [Scalar α] in
theorem takePending_exact (s₀ : SearchState α ρ σ η τ) :
    Leads (fun s => s = s₀) (takePending : SearchStep α ρ σ η τ (Option (Decision α)))
      fun pending s => match pending with
        | none => s = s₀
        | some decision => ∃ node rest, s₀.search.nodes = node :: rest ∧
            node.pending = some decision ∧ s = withoutPending s₀ node rest := by
  refine search_leads.bind fun search => ?_
  cases hnodes : search.nodes with
  | nil => exact Leads.pure fun s hs => hs.2
  | cons node rest =>
      refine Leads.bind (Q := fun _ s => s₀.search.nodes = node :: rest ∧
        s = withoutPending s₀ node rest)
        (changeNode_leads fun s top below hs hcons => ?_) fun _ => Leads.pure fun s hs => ?_
      · obtain ⟨rfl, rfl⟩ := hs
        obtain ⟨rfl, rfl⟩ := List.cons.inj (hnodes.symm.trans hcons)
        exact ⟨hnodes, rfl⟩
      · obtain ⟨hcons, rfl⟩ := hs
        cases hpending : node.pending with
        | none =>
            have hsame : ({ node with pending := none } : SearchNode α) = node := by rw [← hpending]
            rw [withoutPending, hsame, ← hcons]
        | some decision => exact ⟨node, rest, hcons, hpending, rfl⟩

end Steps

section Runs

open Exact

variable {ρ σ η τ : Type} {m : Model Exact} {w : ℚ} {base : List Nat}
  {start : List (Child Exact) × SearchState Exact ρ σ η τ} {allowance : Nat}
  {top : Domain Exact → SearchNode Exact → Prop} {isExplored : Bool}

/-- The search came by descents, within an allowance, and something holds of its current node. -/
abbrev Descending (m : Model Exact) (w : ℚ) (base : List Nat)
    (start : List (Child Exact) × SearchState Exact ρ σ η τ) (allowance : Nat)
    (top : Domain Exact → SearchNode Exact → Prop) (s : SearchState Exact ρ σ η τ) : Prop :=
  Reaches base start top s ∧ Descended m w base start allowance s

/-- The current node is not explored. -/
def Unexplored (s : SearchState Exact ρ σ η τ) : Prop :=
  ∀ n ∈ s.search.nodes.head?, n.isExplored = false

theorem pools_aside (pools : Pools Exact) :
    Aside fun s : SearchState Exact ρ σ η τ => s.shared.pools = pools :=
  fun _ _ hs _ hpools => hpools.trans hs

section Taking

variable {s₀ : SearchState Exact ρ σ η τ} {node : SearchNode Exact}
  {rest : List (SearchNode Exact)} {decision : Decision Exact}
  (hs₀ : Descending m w base start allowance (RestsOpen isExplored) s₀)
  (hnodes : s₀.search.nodes = node :: rest) (hpending : node.pending = some decision)
include hs₀ hnodes hpending

/-- A node with a child that is left waits in a feasible domain. -/
theorem waits_of_pending : node.isExplored = true ∧ node.openSubtrees = 1 ∧
    s₀.search.domain.infeasible = none := by
  obtain ⟨hrests, -⟩ := hs₀.1.choose_spec.2.2 node (by rw [hnodes]; rfl)
  rcases hrests with ⟨hchildless, -⟩ | ⟨⟨hexplored, ⟨hone, -⟩ | hchildless⟩, hfeasible⟩
  · exact absurd (hpending.symm.trans hchildless.2) (by simp)
  · exact ⟨hexplored, hone, hfeasible⟩
  · exact absurd (hpending.symm.trans hchildless.2) (by simp)

theorem taken_withoutPending : Taken base start decision (withoutPending s₀ node rest) := by
  obtain ⟨hexplored, hone, hfeasible⟩ := waits_of_pending hs₀ hnodes hpending
  exact ⟨s₀, node, rest, hs₀.1.mono fun _ _ _ => hfeasible, hnodes, hexplored, hone, hpending, rfl,
    rfl, rfl⟩

theorem dropped_descending (hcutoff : s₀.shared.cutoff < node.lowerBound) :
    Descending m w base start allowance (Rests true)
      { s₀ with search := { s₀.search with
        nodes := { node with pending := none, openSubtrees := 0 } :: rest } } := by
  have htaken := taken_withoutPending hs₀ hnodes hpending
  exact ⟨htaken.dropped rfl hcutoff,
    hs₀.2.dropped ⟨⟨node, rest, hnodes, hpending, hcutoff, rfl⟩, rfl⟩ rfl⟩

variable [Relaxation ρ Exact] (hm : m.Boxed)
include hm

/-- The child that was left is entered by a descent. -/
theorem enterChild_descending : Leads (fun s => s = withoutPending s₀ node rest)
    (enterChild decision : SearchStep Exact ρ σ η τ Unit)
    fun _ s => Descending m w base start allowance (fun _ => SearchNode.Childless) s ∧
      Unexplored s := by
  have htaken := taken_withoutPending hs₀ hnodes hpending
  obtain ⟨hexplored, hone, hfeasible⟩ := waits_of_pending hs₀ hnodes hpending
  have hstands : Stands ({ node with pending := none } :: rest) s₀.search.domain
      (withoutPending s₀ node rest) := ⟨rfl, rfl⟩
  refine Leads.mono (((enterChild_reaches decision).before (by rintro _ rfl; exact htaken)).and
    (((enterChild_leads decision).before (by rintro _ rfl; exact hstands)).and
      ((enterChild_aside (pools_aside s₀.shared.pools) decision).before (by rintro _ rfl; rfl))))
    (fun _ hs => hs) fun _ s hs => ?_
  obtain ⟨hsettles, ⟨child, subtrees, hcount, hnodes', hdecision, hposition,
    hchildless, hunexplored,
    hchange⟩, hpools⟩ := hs
  obtain rfl : subtrees = 0 := by simpa [uncount, hone] using hcount.symm
  have hentered : s₀.search.Entered decision none s.search :=
    ⟨⟨node, rest, _, child, hnodes, hnodes', rfl, rfl, rfl, ⟨hexplored, .inr ⟨rfl, rfl⟩⟩, hdecision,
      hposition, hchildless⟩, hfeasible, hchange⟩
  have hleft : ∀ n ∈ s₀.search.nodes.head?, n.pending = some decision := by
    rw [hnodes]
    rintro _ ⟨⟩
    exact hpending
  refine ⟨⟨hsettles, hs₀.2.returned hm hentered hpools hleft⟩, ?_⟩
  rw [Unexplored, hnodes']
  rintro _ ⟨⟩
  exact hunexplored

end Taking

variable (hm : m.Boxed)
include hm

theorem popFinished_descending : Leads (Descending m w base start allowance (Rests isExplored))
    (popFinished : SearchStep Exact ρ σ η τ Unit)
    fun _ => Descending m w base start allowance (RestsOpen isExplored) := by
  refine (popFinished_reaches.before fun _ hs => hs.1).and ?_
  refine search_leads.bind fun search => Leads.lift.bind fun kept =>
    changeSearch_leads fun s hs => ?_
  obtain ⟨hdrop, rfl, hreaches, hs⟩ := hs
  have hall (x : Search Exact ρ) (hx : Relation.ReflTransGen Search.Popped s.search x) :
      Descended m w base start allowance ⟨x, s.shared⟩ := by
    induction hx with
    | refl => exact hs
    | tail _ hpopped ih => exact ih.popped hm hpopped rfl
  exact hall _ (dropFinished_popped hdrop (pending_of_reaches hreaches) rfl rfl)

theorem suspendNode_descending :
    Leads (Descending m w base start allowance fun _ => SearchNode.Childless)
      (suspendNode : SearchStep Exact ρ σ η τ (OpenNode Exact))
      fun _ => Descending m w base start allowance (RestsOpen true) := by
  refine domain_keeps.bind fun _ => currentNode_keeps.bind fun _ => ?_
  refine Leads.bind (Q := fun _ => Descending m w base start allowance (Rests true))
    (changeNode_leads fun s node rest hs hnodes => ?_) fun _ => ?_
  · have hchildless := hs.1.choose_spec.2.2 node (by rw [hnodes]; rfl)
    have hsame : { node.finish with pending := none } = node.finish := by
      rw [← hchildless.2]
      rfl
    have hfinished : s.search.Finished { s.search with nodes := node.finish :: rest } :=
      ⟨⟨node, rest, hnodes, rfl⟩, rfl⟩
    rw [hsame]
    exact ⟨(hs.1.finished hfinished).mono fun n _ hn => .inl ⟨hn.1, fun _ => hn.2⟩,
      hs.2.finished hfinished hs.2.narrow⟩
  · exact Leads.bind (Q := fun _ => Descending m w base start allowance (Rests true))
      (changeSearch_leads fun s hs => ⟨hs.1.congr rfl rfl, hs.2.congr rfl rfl⟩) fun _ =>
        (popFinished_descending hm).bind fun _ => Keeps.pure

variable [Relaxation ρ Exact]

/-- Backtracking is made of descents. If a child was entered in the end, then it is not explored. -/
theorem backtrackWithin_descending (isExhausted isExplored : Bool)
    (suspended : List (OpenNode Exact)) (steps : Nat) :
    Leads (Descending m w base start allowance (Rests isExplored))
      (backtrackWithin isExhausted suspended steps :
        SearchStep Exact ρ σ η τ (Bool × List (OpenNode Exact)))
      fun out s => Descended m w base start allowance s ∧ (out.1 = true → Unexplored s) := by
  induction steps generalizing suspended isExplored with
  | zero => exact Leads.throw
  | succ steps ih =>
      refine (popFinished_descending hm).bind fun _ => Leads.fix fun s₀ hs₀ => ?_
      refine (takePending_exact s₀).bind fun pending => ?_
      cases pending with
      | none => exact Leads.pure fun s hs => ⟨hs ▸ hs₀.2, nofun⟩
      | some decision =>
          refine Leads.fix fun s₁ hs₁ => ?_
          obtain ⟨node, rest, hnodes, hpending, rfl⟩ := hs₁
          refine shared_leads.bind fun shared => currentNode_leads.bind fun current =>
            Leads.ite (fun hcutoff => ?_) fun _ => ?_
          · refine Leads.bind (Q := fun _ => Descending m w base start allowance (Rests true))
              (changeNode_leads fun s top below hs hcons => ?_) fun _ => ih true _
            obtain ⟨⟨_, hcurrent⟩, rfl, rfl⟩ := hs
            obtain ⟨rfl, rfl⟩ := List.cons.inj hcons
            obtain ⟨rfl, -⟩ := List.cons.inj hcurrent
            have hdropped := dropped_descending hs₀ hnodes hpending hcutoff
            exact hdropped
          · refine Leads.bind ((enterChild_descending hs₀ hnodes hpending hm).before
              fun s hs => hs.2.2) fun _ => Leads.ite (fun _ => ?_) fun _ =>
                Leads.pure fun s hs => ⟨hs.1.2, fun _ => hs.2⟩
            refine Leads.bind ((suspendNode_descending hm).before fun _ hs => hs.1) fun node =>
              (ih true _).before fun s hs => ⟨hs.1.mono fun n _ hn => hn.1, hs.2⟩

theorem backtrackPlunge_descending :
    Leads (Descending m w base start allowance fun _ => SearchNode.Childless)
      (backtrackPlunge : SearchStep Exact ρ σ η τ (Bool × List (OpenNode Exact)))
      fun out s => Descended m w base start allowance s ∧ (out.1 = true → Unexplored s) :=
  search_keeps.bind fun _ => shared_keeps.bind fun _ =>
    (backtrackWithin_descending hm _ false _ _).before fun _ hs =>
      ⟨hs.1.mono fun _ _ hn => .inl ⟨hn, nofun⟩, hs.2⟩

theorem suspendWithin_descending (suspended : List (OpenNode Exact)) (steps : Nat) :
    Leads (Descending m w base start allowance (Rests false))
      (suspendWithin suspended steps : SearchStep Exact ρ σ η τ (List (OpenNode Exact)))
      fun _ => Descended m w base start allowance := by
  induction steps generalizing suspended with
  | zero => exact Leads.throw
  | succ steps ih =>
      have hsuspend : Leads (Descending m w base start allowance fun _ => SearchNode.Childless) (do
          let node ← suspendNode
          suspendWithin (suspended ++ [node]) steps :
            SearchStep Exact ρ σ η τ (List (OpenNode Exact)))
          fun _ => Descended m w base start allowance :=
        (suspendNode_descending hm).bind fun node => (ih _).before fun s hs =>
          ⟨hs.1.mono fun n _ hn => hn.1.imp_left fun h => ⟨h.1, nofun⟩, hs.2⟩
      refine search_leads.bind fun search => ?_
      cases hnodes : search.nodes with
      | nil => exact Leads.pure fun s hs => hs.2.2
      | cons node rest =>
          refine Leads.ite (fun hunexplored => ?_) fun _ => ?_
          · refine hsuspend.before fun s hs => ?_
            obtain ⟨rfl, hreaches, hs⟩ := hs
            refine ⟨hreaches.mono fun n hn hrests => ?_, hs⟩
            rw [hnodes] at hn
            obtain rfl := Option.some.inj hn
            rcases hrests with h | h
            · exact h.1
            · simp [h.1.1] at hunexplored
          · refine Leads.bind ((popFinished_descending hm).before fun _ hs => hs.2) fun _ =>
              Leads.fix fun s₀ hs₀ => (takePending_exact s₀).bind fun pending => ?_
            cases pending with
            | none => exact Leads.pure fun s hs => hs ▸ hs₀.2
            | some decision =>
                refine Leads.fix fun s₁ hs₁ => ?_
                obtain ⟨node, rest, hnodes, hpending, rfl⟩ := hs₁
                exact (enterChild_descending hs₀ hnodes hpending hm).bind fun _ =>
                  hsuspend.before fun _ hs => hs.1

theorem suspendOpenNodes_descending :
    Leads (Descending m w base start allowance fun _ => SearchNode.Childless)
      (suspendOpenNodes : SearchStep Exact ρ σ η τ (List (OpenNode Exact)))
      fun _ => Descended m w base start allowance := by
  refine search_keeps.bind fun _ => Leads.bind
    (((suspendWithin_descending hm _ _).before fun s hs =>
        ⟨hs.1.mono fun n _ hn => .inl ⟨hn, nofun⟩, hs.2⟩).and
      ((suspendWithin_exhausts _ _).before fun s hs =>
        hs.1.mono fun n _ hn => .inl ⟨hn, nofun⟩)) fun _ => ?_
  exact Leads.bind (Q := fun _ => Descended m w base start allowance)
    (changeSearch_leads fun s hs => hs.1.congr hs.2.2.symm rfl) fun _ => Keeps.pure

end Runs

end SearchStep

end BranchBound
