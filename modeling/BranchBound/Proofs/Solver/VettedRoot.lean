import BranchBound.Proofs.Domain.State
import BranchBound.Proofs.Search.Vetted
import BranchBound.Solver.Solve

/-!
# Reported solutions were checked

The solution that a solve reports was checked against the model and is reported with its objective
value, whatever the relaxation, the separators, the heuristics, the symmetry detection and the
condition answer.
-/

namespace BranchBound

open Checked

variable {α ρ σ η τ : Type}

namespace RootStep

variable {β γ : Type} {P : RootState α ρ σ η τ → Prop} {Q Q' : β → RootState α ρ σ η τ → Prop}
  {R : γ → RootState α ρ σ η τ → Prop} {x : RootStep α ρ σ η τ β}

/-- From a state that satisfies `P` the step leads to a result and a state that satisfy `Q`. -/
def Leads (P : RootState α ρ σ η τ → Prop) (x : RootStep α ρ σ η τ β)
    (Q : β → RootState α ρ σ η τ → Prop) : Prop :=
  ∀ s b t, P s → x.run s = .ok (b, t) → Q b t

theorem Leads.bind {f : β → RootStep α ρ σ η τ γ} (hx : Leads P x Q)
    (hf : ∀ b, Leads (Q b) (f b) R) : Leads P (x >>= f) R := by
  intro s c t hs h
  rw [StateT.run_bind] at h
  obtain ⟨⟨b, u⟩, hu, ht⟩ := bind_eq_ok.mp h
  exact hf b u c t (hx s b u hs hu) ht

/-- What is known of a result is known in all that follows. -/
theorem Leads.learning {p : β → Prop} {f : β → RootStep α ρ σ η τ γ}
    (hx : Leads P x fun b s => p b ∧ Q b s) (hf : ∀ b, p b → Leads (Q b) (f b) R) :
    Leads P (x >>= f) R :=
  hx.bind fun b s c t hs h => hf b hs.1 s c t hs.2 h

theorem Leads.knowing {p : β → Prop} {f : β → RootStep α ρ σ η τ γ}
    (hx : Leads P x fun b s => p b ∧ P s) (hf : ∀ b, p b → Leads P (f b) R) :
    Leads P (x >>= f) R :=
  hx.learning hf

theorem Leads.pure {b : β} (h : ∀ s, P s → Q b s) : Leads P (pure b) Q := by
  intro s c t hs hp
  cases hp
  exact h s hs

theorem Leads.modify {f : RootState α ρ σ η τ → RootState α ρ σ η τ}
    {Q : Unit → RootState α ρ σ η τ → Prop} (h : ∀ s, P s → Q () (f s)) :
    Leads P (modify f : RootStep α ρ σ η τ Unit) Q := by
  intro s b t hs hm
  cases hm
  exact h s hs

/-- The state that is read is the present one. -/
theorem Leads.read : Leads P (get : RootStep α ρ σ η τ _) fun b s => b = s ∧ P s := by
  intro s b t hs h
  cases h
  exact ⟨rfl, hs⟩

theorem Leads.get : Leads P (get : RootStep α ρ σ η τ _) fun b s => P b ∧ P s := by
  intro s b t hs h
  cases h
  exact ⟨hs, hs⟩

theorem Leads.lift {x : Checked β} :
    Leads P (liftM x : RootStep α ρ σ η τ β) fun b s => x = .ok b ∧ P s := by
  intro s b t hs h
  cases x with
  | error fault => cases h
  | ok c =>
      cases h
      exact ⟨rfl, hs⟩

theorem Leads.before {P' : RootState α ρ σ η τ → Prop} (h : Leads P x Q) (hP : ∀ s, P' s → P s) :
    Leads P' x Q :=
  fun s b t hs hrun => h s b t (hP s hs) hrun

theorem Leads.and {P' : RootState α ρ σ η τ → Prop} (h : Leads P x Q) (h' : Leads P' x Q') :
    Leads (fun s => P s ∧ P' s) x fun b s => Q b s ∧ Q' b s :=
  fun s b t hs hrun => ⟨h s b t hs.1 hrun, h' s b t hs.2 hrun⟩

/-- What is kept besides is kept together with what is learned. -/
theorem Leads.beside {p : β → Prop} {P' : RootState α ρ σ η τ → Prop}
    (h : Leads P x fun b s => p b ∧ Q b s) (h' : Leads P' x fun _ => P') :
    Leads (fun s => P s ∧ P' s) x fun b s => p b ∧ Q b s ∧ P' s :=
  fun s b t hs hrun => ⟨(h s b t hs.1 hrun).1, (h s b t hs.1 hrun).2, h' s b t hs.2 hrun⟩

theorem Leads.ite {p : Prop} [Decidable p] {y : RootStep α ρ σ η τ β} (hx : p → Leads P x Q)
    (hy : ¬p → Leads P y Q) : Leads P (if p then x else y) Q := by
  split
  · next h => exact hx h
  · next h => exact hy h

end RootStep

variable [Scalar α]

/-- What every change of a bound keeps is kept by fixing columns by symmetries. -/
theorem Symmetry.orbitalFixing_keeps {P : Domain α → Prop}
    (hstep : ∀ d d' c, P d → d.changeBound (.atMost c 0) .unknown = .ok d' → P d')
    {symmetry : Symmetry} {d d' : Domain α} {fixed : Nat}
    (h : symmetry.orbitalFixing d = .ok (fixed, d')) (hd : P d) : P d' := by
  have hcolumn (state : Nat × Domain α) (c : ColumnId) (state' : Nat × Domain α) (hd : P state.2)
      (hfix : fixColumns state c = .ok state') : P state'.2 := by
    simp only [fixColumns, bind_eq_ok] at hfix
    obtain ⟨_, -, hfix⟩ := hfix
    split at hfix
    · simp only [bind_eq_ok, pure_eq_ok] at hfix
      obtain ⟨_, hchange, rfl⟩ := hfix
      exact hstep _ _ c hd hchange
    · cases hfix
      exact hd
  refine foldlM_keeps (P := fun state : Nat × Domain α => P state.2) ?_ h hd
  intro state orbit state' _ hd hfix
  simp only [fixOrbit, bind_eq_ok] at hfix
  obtain ⟨binary, -, hfix⟩ := hfix
  split at hfix
  · cases hfix
    exact hd
  · obtain ⟨hasZero, -, hfix⟩ := bind_eq_ok.mp hfix
    split at hfix
    · exact foldlM_keeps (P := fun state : Nat × Domain α => P state.2)
        (fun state c state' _ hd hfix => hcolumn state c state' hd hfix) hfix hd
    · cases hfix
      exact hd

theorem Symmetry.orbitalFixing_sameSetting {symmetry : Symmetry} {d d' : Domain α} {fixed : Nat}
    (h : symmetry.orbitalFixing d = .ok (fixed, d')) : Domain.SameSetting d d' :=
  orbitalFixing_keeps (P := Domain.SameSetting d)
    (fun _ _ _ hd hchange => hd.trans (Domain.changeBound_sameSetting hchange)) h (.refl d)

/-- The root of a model, with a checked incumbent. -/
structure RootState.Vetted (m : Model α) (o : Options α) (s : RootState α ρ σ η τ) : Prop where
  model : s.domain.model = m
  shared : s.shared.Vetted m o

namespace RootStep

variable {β γ : Type} {m : Model α} {o : Options α}

/-- The step keeps the incumbent checked. -/
abbrev Vets (m : Model α) (o : Options α) (x : RootStep α ρ σ η τ β) : Prop :=
  Leads (RootState.Vetted m o) x fun _ => RootState.Vetted m o

theorem pure_vets {b : β} : Vets m o (pure b : RootStep α ρ σ η τ β) :=
  Leads.pure fun _ h => h

theorem setShared_vets {shared : Shared α σ η τ} (h : shared.Vetted m o) :
    Vets m o (setShared shared : RootStep α ρ σ η τ Unit) :=
  Leads.modify fun _ hs => ⟨hs.model, h⟩

theorem setDomain_vets {d : Domain α} (h : d.model = m) :
    Vets m o (setDomain d : RootStep α ρ σ η τ Unit) :=
  Leads.modify fun _ hs => ⟨h, hs.shared⟩

theorem notify_vets (notice : Notice α) :
    Vets m o (notify notice : RootStep α ρ σ η τ Unit) :=
  Leads.modify fun _ hs => ⟨hs.model, hs.shared.congr rfl rfl rfl⟩

theorem changeStatistics_vets (f : RootStatistics → Checked RootStatistics) :
    Vets m o (changeStatistics f : RootStep α ρ σ η τ Unit) :=
  Leads.get.knowing fun _ _ => Leads.lift.knowing fun _ _ =>
    Leads.modify fun _ hs => ⟨hs.model, hs.shared⟩

theorem setRelaxation_vets (f : RootState α ρ σ η τ → ρ) :
    Vets m o (modify fun s => { s with relaxation := f s } : RootStep α ρ σ η τ Unit) :=
  Leads.modify fun _ hs => ⟨hs.model, hs.shared⟩

theorem changeDomain_vets {f : Domain α → Checked (Domain α)}
    (h : ∀ d d', d.model = m → f d = .ok d' → d'.model = m) :
    Vets m o (changeDomain f : RootStep α ρ σ η τ Unit) := by
  refine Leads.get.knowing fun s hs => Leads.lift.knowing fun after hafter => ?_
  refine (setDomain_vets (h _ _ hs.model hafter)).bind fun _ => ?_
  exact Leads.get.knowing fun t ht => setShared_vets (ht.shared.congr rfl rfl rfl)

theorem propagate_vets : Vets m o (propagate : RootStep α ρ σ η τ Bool) := by
  refine Leads.get.knowing fun s hs => Leads.lift.knowing fun result hresult => ?_
  obtain ⟨hshared, hmodel⟩ := hs.shared.propagate hresult
  refine (setShared_vets hshared).bind fun _ => ?_
  exact (setDomain_vets (hmodel.trans hs.model)).bind fun _ => pure_vets

theorem detectStructure_vets :
    Vets m o (detectStructure : RootStep α ρ σ η τ (Implications α)) := by
  refine Leads.get.knowing fun s hs => Leads.lift.knowing fun found hfound => ?_
  refine (notify_vets _).bind fun _ => (changeStatistics_vets _).bind fun _ => ?_
  refine Leads.lift.knowing fun withCost _ => Leads.lift.knowing fun partitions _ => ?_
  refine Leads.lift.knowing fun d hd => Leads.lift.knowing fun bounds _ => ?_
  refine (setDomain_vets ?_).bind fun _ => pure_vets
  have hmodel := congrArg Domain.model (Domain.setupObjective_eq_ok hd)
  exact hmodel.trans hs.model

theorem consequences_vets (implications : Implications α) (c : ColumnId) (value : Bool) :
    Vets m o (consequences implications c value :
      RootStep α ρ σ η τ (Consequences α × Implications α)) := by
  refine Leads.get.knowing fun s hs => Leads.lift.knowing fun result _ => ?_
  refine Leads.bind (setShared_vets ?_) fun _ => pure_vets
  exact hs.shared.congr rfl rfl rfl

theorem probe_vets (implications : Implications α) (fixed : Nat) (columns : List ColumnId) :
    Vets m o (probe implications fixed columns : RootStep α ρ σ η τ (Option Nat)) := by
  induction columns generalizing implications fixed with
  | nil => exact pure_vets
  | cons c rest ih =>
      refine Leads.get.knowing fun s hs => Leads.lift.knowing fun isFixed _ => ?_
      refine Leads.ite (fun _ => ih _ _) fun _ => ?_
      refine (consequences_vets _ _ _).bind fun down => (consequences_vets _ _ _).bind fun up => ?_
      have hfix (value : α) : Vets m o (do
          changeDomain fun d => d.fixColumn c value .unknown
          if ← propagate then probe up.2 (fixed + 1) rest else return none :
          RootStep α ρ σ η τ (Option Nat)) := by
        refine (changeDomain_vets fun d d' hd hfixed => ?_).bind fun _ => ?_
        · exact (Domain.fixColumn_sameSetting hfixed).model.trans hd
        · exact propagate_vets.bind fun _ => Leads.ite (fun _ => ih _ _) fun _ => pure_vets
      dsimp only
      split
      · exact ih _ _
      · exact hfix _

theorem probeColumns_vets (implications : Implications α) :
    Vets m o (probeColumns implications : RootStep α ρ σ η τ Bool) := by
  refine Leads.get.knowing fun s _ => Leads.lift.knowing fun candidates _ => ?_
  refine (probe_vets _ _ _).bind fun fixed => ?_
  cases fixed with
  | none => exact pure_vets
  | some fixed =>
      refine Leads.ite (fun _ => (notify_vets _).bind fun _ => ?_) fun _ => ?_
      · exact (changeStatistics_vets _).bind fun _ => pure_vets
      · exact (changeStatistics_vets _).bind fun _ => pure_vets

variable [Relaxation ρ α]

theorem resolve_vets :
    Vets m o (resolve : RootStep α ρ σ η τ (RelaxationResult α)) := by
  refine Leads.get.knowing fun s hs => ?_
  refine Leads.bind (Q := fun _ => RootState.Vetted m o) ?_ fun _ => ?_
  · exact Leads.modify fun _ _ => ⟨hs.model, hs.shared⟩
  · refine Leads.lift.knowing fun result _ => ?_
    cases result with
    | optimal solution => exact (changeStatistics_vets _).bind fun _ => pure_vets
    | infeasible proof => exact pure_vets
    | unbounded => exact pure_vets
    | numericalTrouble => exact pure_vets

theorem resolveWithin_vets (budget : Nat) :
    Vets m o (resolveWithin budget : RootStep α ρ σ η τ (RelaxationResult α)) := by
  induction budget with
  | zero => exact resolve_vets
  | succ budget ih =>
      refine resolve_vets.bind fun result => ?_
      cases result with
      | optimal solution => exact pure_vets
      | infeasible proof => exact pure_vets
      | unbounded => exact pure_vets
      | numericalTrouble =>
          refine Leads.get.knowing fun s hs => ?_
          refine Leads.bind (Q := fun _ => RootState.Vetted m o) ?_ fun _ =>
            Leads.ite (fun _ => ih) fun _ => pure_vets
          exact Leads.modify fun _ _ => ⟨hs.model, hs.shared⟩

omit [Relaxation ρ α] in
theorem ageCuts_vets (cuts : List (CutId × Inequality α)) (solution : RelaxationSolution α) :
    Vets m o (ageCuts cuts solution : RootStep α ρ σ η τ Unit) := by
  refine Leads.get.knowing fun s hs => Leads.lift.knowing fun tight _ => ?_
  exact Leads.lift.knowing fun shared hshared => setShared_vets (hs.shared.ageCuts hshared)

variable [Separator σ α]

theorem separate_vets (round : Nat) (cuts : List (CutId × Inequality α))
    (solution : RelaxationSolution α) (rounds : Nat) :
    Vets m o (separate round cuts solution rounds :
      RootStep α ρ σ η τ (RelaxationResult α)) := by
  induction rounds generalizing round cuts solution with
  | zero => exact pure_vets
  | succ rounds ih =>
      refine Leads.get.knowing fun s hs => Leads.lift.knowing fun found hfound => ?_
      refine (setShared_vets (hs.shared.separate hfound)).bind fun _ => ?_
      refine Leads.ite (fun _ => pure_vets) fun _ => (changeStatistics_vets _).bind fun _ => ?_
      refine (setRelaxation_vets _).bind fun _ => propagate_vets.bind fun _ => ?_
      refine Leads.ite (fun _ => pure_vets) fun _ => resolve_vets.bind fun result => ?_
      cases result with
      | optimal next =>
          refine (ageCuts_vets _ _).bind fun _ => (notify_vets _).bind fun _ => ?_
          exact Leads.ite (fun _ => pure_vets) fun _ => ih _ _ _
      | infeasible proof => exact pure_vets
      | unbounded => exact pure_vets
      | numericalTrouble => exact pure_vets

theorem solveRelaxation_vets :
    Vets m o (solveRelaxation : RootStep α ρ σ η τ (RelaxationResult α)) := by
  refine Leads.get.knowing fun s _ => (resolveWithin_vets _).bind fun result => ?_
  cases result with
  | optimal solution => exact separate_vets _ _ _ _
  | infeasible proof => exact pure_vets
  | unbounded => exact pure_vets
  | numericalTrouble => exact pure_vets

variable [Proposer η α]

omit [Relaxation ρ α] [Separator σ α] in
theorem conclude_vets (implications : Implications α) (solution : Option (RelaxationSolution α)) :
    Vets m o (conclude implications solution : RootStep α ρ σ η τ (RootResult α)) := by
  have hprobing : Vets m o (do
      let isFeasible ←
        if (← get).shared.options.rootProbing then probeColumns implications else pure true
      return if isFeasible then .processed solution else .infeasible :
      RootStep α ρ σ η τ (RootResult α)) := by
    refine Leads.get.knowing fun s _ => Leads.ite (fun _ => ?_) fun _ =>
      pure_vets.bind fun _ => pure_vets
    exact (probeColumns_vets _).bind fun _ => pure_vets
  cases solution with
  | none => exact (notify_vets _).bind fun _ => hprobing
  | some solution =>
      refine Leads.get.knowing fun s hs => Leads.lift.knowing fun found hfound => ?_
      have hshared := hs.shared
      rw [← hs.model] at hshared
      have hshared := hshared.runHeuristics hfound
      rw [hs.model] at hshared
      refine (setShared_vets hshared).bind fun _ => ?_
      exact (changeStatistics_vets _).bind fun _ => hprobing

theorem process_vets : Vets m o (process : RootStep α ρ σ η τ (RootResult α)) := by
  refine detectStructure_vets.bind fun implications => propagate_vets.bind fun _ => ?_
  refine Leads.ite (fun _ => pure_vets) fun _ => solveRelaxation_vets.bind fun result => ?_
  cases result with
  | optimal solution => exact conclude_vets _ _
  | infeasible proof => exact pure_vets
  | unbounded => exact pure_vets
  | numericalTrouble => exact conclude_vets _ _

end RootStep

theorem Solver.useSymmetry_vets {m : Model α} {o : Options α} (generators : List (List ColumnId)) :
    RootStep.Vets m o (useSymmetry generators : RootStep α ρ σ η τ Bool) := by
  refine RootStep.Leads.get.knowing fun _ _ => (RootStep.notify_vets _).bind fun _ => ?_
  refine RootStep.Leads.get.knowing fun s hs => RootStep.Leads.lift.knowing fun fixed hfixed => ?_
  have hmodel : fixed.2.model = m :=
    (Symmetry.orbitalFixing_sameSetting hfixed).model.trans hs.model
  refine (RootStep.changeDomain_vets fun _ d' _ hd => ?_).bind fun _ => ?_
  · cases hd
    exact hmodel
  · refine RootStep.Leads.ite (fun _ => (RootStep.notify_vets _).bind fun _ => ?_) fun _ => ?_
    · exact (RootStep.changeStatistics_vets _).bind fun _ => RootStep.propagate_vets
    · exact (RootStep.changeStatistics_vets _).bind fun _ => RootStep.propagate_vets

end BranchBound
