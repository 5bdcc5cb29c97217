import BranchBound.Proofs.Domain.State
import BranchBound.Proofs.Incumbent
import BranchBound.Proofs.Search.Passage

/-!
# Searches keep a checked incumbent

Whatever the relaxation, the separators, the heuristics and the condition of the user answer, a
search changes its incumbent only to points that were checked against the model of its domain.
-/

namespace BranchBound

open Checked BranchBound.Action

variable {α ρ σ η τ : Type} [Scalar α]

/-- The heuristics check with the tolerance of the options, at the nodes that they ask for. -/
structure HeuristicManager.Suits (m : HeuristicManager α η) (o : Options α) : Prop where
  feastol : m.feastol = o.feastol
  frequency : m.frequency = o.separation.heuristicFrequency

/-- The options are given ones, and the incumbent that is shared was checked with their tolerance.
The heuristics suit them. -/
structure Shared.Vetted (m : Model α) (o : Options α) (s : Shared α σ η τ) : Prop where
  options : s.options = o
  heuristics : s.heuristics.Suits o
  incumbent : s.incumbent.Vetted m o.feastol

namespace Shared

variable {m : Model α} {o : Options α} {s s' : Shared α σ η τ}

theorem Vetted.congr (h : s.Vetted m o) (hoptions : s'.options = s.options)
    (hheuristics : s'.heuristics = s.heuristics) (hincumbent : s'.incumbent = s.incumbent) :
    s'.Vetted m o :=
  ⟨hoptions ▸ h.options, hheuristics ▸ h.heuristics, hincumbent ▸ h.incumbent⟩

theorem Vetted.notify (h : s.Vetted m o) (notices : List (Notice α)) :
    (s.notify notices).Vetted m o :=
  h.congr rfl rfl rfl

theorem Vetted.propagate (h : s.Vetted m o) {d d' : Domain α}
    (hpropagate : s.propagate d = .ok (s', d')) :
    s'.Vetted m o ∧ d'.model = d.model := by
  simp only [Shared.propagate, bind_eq_ok, pure_eq_ok, Prod.mk.injEq] at hpropagate
  obtain ⟨⟨pools, after⟩, hpropagate, rfl, rfl⟩ := hpropagate
  exact ⟨h.congr rfl rfl rfl, (Advances.setting (Domain.propagate_advances hpropagate)).model⟩

theorem Vetted.submit (h : s.Vetted m o) {point : Array α}
    (hcheck : m.check point o.feastol = true) :
    (s.submit point (m.objectiveValue point)).2.Vetted m o := by
  have hincumbent := h.incumbent.tryUpdate hcheck
  unfold Shared.submit
  dsimp only
  split
  · exact ⟨h.options, h.heuristics, hincumbent⟩
  · exact ⟨h.options, h.heuristics, hincumbent⟩

theorem Vetted.runHeuristics [Proposer η α] {d : Domain α} (h : s.Vetted d.model o)
    {solution : RelaxationSolution α} {found : Nat}
    (hrun : s.runHeuristics d solution = .ok (found, s')) : s'.Vetted d.model o := by
  simp only [Shared.runHeuristics, HeuristicManager.run, bind_eq_ok, pure_eq_ok,
    Prod.mk.injEq] at hrun
  obtain ⟨_, ⟨⟨improvements, incumbent, heuristics⟩, hall, rfl⟩, -, rfl⟩ := hrun
  rw [h.heuristics.feastol] at hall
  exact ⟨h.options, ⟨h.heuristics.feastol, h.heuristics.frequency⟩,
    HeuristicManager.runAll_vetted h.incumbent hall⟩

theorem Vetted.separate [Separator σ α] (h : s.Vetted m o) {d : Domain α}
    {solution : RelaxationSolution α} {violated : List (CutId × Inequality α)}
    (hseparate : s.separate d solution = .ok (violated, s')) : s'.Vetted m o := by
  simp only [Shared.separate, bind_eq_ok, pure_eq_ok, Prod.mk.injEq] at hseparate
  obtain ⟨_, -, ⟨round, after⟩, -, _, -, -, rfl⟩ := hseparate
  split
  · exact h.congr rfl rfl rfl
  · exact h.congr rfl rfl rfl

theorem Vetted.ageCuts (h : s.Vetted m o) {used : List CutId}
    (hage : s.ageCuts used = .ok s') : s'.Vetted m o := by
  simp only [Shared.ageCuts, bind_eq_ok, pure_eq_ok] at hage
  obtain ⟨_, -, rfl⟩ := hage
  split
  · exact h.congr rfl rfl rfl
  · exact h.congr rfl rfl rfl

theorem Vetted.ageConflicts (h : s.Vetted m o) (hage : s.ageConflicts = .ok s') :
    s'.Vetted m o := by
  simp only [Shared.ageConflicts, bind_eq_ok, pure_eq_ok] at hage
  obtain ⟨_, -, rfl⟩ := hage
  split
  · exact h.congr rfl rfl rfl
  · exact h.congr rfl rfl rfl

end Shared

/-- A search for solutions of a model, with a checked incumbent. -/
structure SearchState.Vetted (m : Model α) (o : Options α) (s : SearchState α ρ σ η τ) : Prop where
  model : s.search.domain.model = m
  shared : s.shared.Vetted m o

/-- No passage changes the model, and what replaces the incumbent was checked against it. -/
theorem Passage.vetted [Proposer η α] {m : Model α} {o : Options α}
    {x y : SearchRecord α × SearchState α ρ σ η τ} (h : Passage x y)
    (hx : x.2.Vetted m o) : y.2.Vetted m o := by
  cases h with
  | yielded => exact hx
  | alike h =>
      exact ⟨h.domain ▸ hx.model, hx.shared.congr h.options h.heuristics h.incumbent⟩
  | turned h => exact ⟨h.constant.1.trans hx.model, hx.shared⟩
  | solution _ => exact ⟨hx.model, hx.shared⟩
  | raised _ => exact ⟨hx.model, hx.shared⟩
  | improved h =>
      refine ⟨hx.model, ?_⟩
      have hshared := hx.shared
      rw [← hx.model] at hshared ⊢
      cases h with
      | submitted hcheck => exact hshared.submit (hshared.options ▸ hcheck)
      | proposed hmodel hrun =>
          rw [← hmodel] at hshared ⊢
          exact hshared.runHeuristics hrun
  | gaveUp _ => exact ⟨hx.model, hx.shared⟩
  | suspended _ => exact hx

theorem Passages.vetted [Proposer η α] {m : Model α} {o : Options α}
    {x y : SearchRecord α × SearchState α ρ σ η τ} (h : Passages x y)
    (hx : x.2.Vetted m o) : y.2.Vetted m o := by
  induction h with
  | refl => exact hx
  | tail _ hpassage ih => exact hpassage.vetted ih

theorem Domain.applyStack_keeps_model {m : Model α} (branchings : List Nat) (index : Nat)
    (changes : List (BoundChange α)) :
    Keeps (fun d : Domain α => d.model = m) (applyStack branchings index changes) := by
  induction changes generalizing index with
  | nil => exact Keeps.pure
  | cons change rest ih =>
      refine Keeps.get.bind fun d => Leads.ite (fun _ => Keeps.pure) fun _ => ?_
      have hrest := ih (index + 1)
      refine Leads.bind (Leads.change fun d d' hmodel hchange => ?_) fun _ => hrest
      exact (changeBound_sameSetting hchange).model.trans hmodel

namespace SearchStep

variable {β : Type} {m : Model α} {o : Options α}

/-- The step keeps the incumbent checked. -/
abbrev Vets (m : Model α) (o : Options α) (x : SearchStep α ρ σ η τ β) : Prop :=
  Keeps (SearchState.Vetted m o) x

theorem vetted_indifferent :
    Indifferent (SearchState.Vetted m o : SearchState α ρ σ η τ → Prop) :=
  .alone fun _ _ hs halike => ⟨by rw [halike.domain]; exact hs.model,
    hs.shared.congr halike.options halike.heuristics halike.incumbent⟩

theorem changeSearch_vets {f : Search α ρ → Search α ρ}
    (h : ∀ s, (f s).domain.model = s.domain.model) :
    Vets m o (changeSearch f : SearchStep α ρ σ η τ Unit) :=
  changeSearch_leads fun _ hs => ⟨(h _).trans hs.model, hs.shared⟩

theorem changeDomain_vets {f : Domain α → Checked (Domain α)}
    (h : ∀ d d', f d = .ok d' → d'.model = d.model) :
    Vets m o (changeDomain f : SearchStep α ρ σ η τ Unit) :=
  changeDomain_leads vetted_indifferent fun _ _ hs hd => ⟨(h _ _ hd).trans hs.model, hs.shared⟩

variable [Relaxation ρ α]

theorem install_vets (node : OpenNode α) :
    Vets m o (install node : SearchStep α ρ σ η τ Unit) := by
  refine Leads.bind (changeSearch_vets fun _ => rfl) fun _ => ?_
  refine (changeDomain_vets fun d d' h => ?_).bind fun _ => ?_
  · exact (Domain.backtrackTo_sameSetting h).model
  · refine (changeDomain_vets fun d d' h => ?_).bind fun _ => ?_
    · simp only [bind_eq_ok, pure_eq_ok] at h
      obtain ⟨⟨_, reached⟩, happly, rfl⟩ := h
      exact (Domain.applyStack_keeps_model _ _ _).finish rfl happly
    · exact Leads.bind (warmStart_keeps vetted_indifferent _) fun _ =>
        changeSearch_vets fun _ => rfl

variable [Separator σ α] [Proposer η α] [StopCondition τ]

theorem solveDepthFirst_vets :
    Vets m o (solveDepthFirst : SearchStep α ρ σ η τ (List (OpenNode α))) := by
  intro s all t hs h
  obtain ⟨givenUp, hpassages⟩ := solveDepthFirst_passages h
  exact hpassages.vetted hs

end SearchStep

end BranchBound
