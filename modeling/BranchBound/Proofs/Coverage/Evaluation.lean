import BranchBound.Proofs.Coverage.NodeWork
import BranchBound.Proofs.Pool.Record
import BranchBound.Proofs.Search.NodeWork

/-!
# Evaluations that keep a point

Once a solution was found with which nothing as good as a point is of interest any more, nothing is
left to be lost. Until then the evaluation of a node whose box contains the point, and whose lower
bound is not above its value, ends in one of three ways: the node has to be branched on, it was
given up, or such a solution was found.
-/

namespace BranchBound

open Checked Exact BranchBound.Action

variable {ρ σ η τ : Type} {g : Target ρ}

/-! ### Points that are of no interest any more -/

/-- The objective values of points that pass the check are numbers, since the offset is one. -/
theorem Target.Valid.numeric [Relaxation ρ Exact] (hg : g.Valid) : g.model.Numeric := by
  intro point tolerance hcheck
  obtain ⟨draft, hbuilt⟩ := hg.built
  obtain ⟨q, hoffset⟩ := hg.offset
  obtain ⟨value, hvalue⟩ := Draft.objectiveValue_of_check hbuilt hcheck
  exact ⟨q + value, by rw [hvalue, hoffset, number_add]⟩

/-- Nothing as good as the point is of interest any more. -/
structure Sated (g : Target ρ) (s : SearchState Exact ρ σ η τ) : Prop where
  model : s.search.domain.model = g.model
  fits : s.shared.incumbent.Fits g.model g.feastol
  excludes : s.shared.incumbent.Excludes g.value

section Sated

variable {s s' : SearchState Exact ρ σ η τ}

theorem sated_indifferent : Indifferent (Sated g : SearchState Exact ρ σ η τ → Prop) :=
  .alone fun _ _ h halike => ⟨halike.domain ▸ h.model, halike.incumbent ▸ h.fits,
    halike.incumbent ▸ h.excludes⟩

theorem Shared.submit_incumbent (s : Shared Exact σ η τ) (point : Array Exact) (objective : Exact) :
    (s.submit point objective).2.incumbent = (s.incumbent.tryUpdate point objective).2 := by
  unfold submit
  dsimp only
  split <;> rfl

/-- What replaces the incumbent was checked, so what such updates keep is kept. -/
theorem Shared.Improves.keeps [Proposer η Exact] {m : Model Exact} {P : Incumbent Exact → Prop}
    (hP : ∀ (i : Incumbent Exact) point tolerance, P i → m.check point tolerance = true →
      P (i.tryUpdate point (m.objectiveValue point)).2)
    {shared shared' : Shared Exact σ η τ} (h : shared.Improves m shared')
    (hs : P shared.incumbent) :
    P shared'.incumbent := by
  cases h with
  | submitted hcheck =>
      rw [Shared.submit_incumbent]
      exact hP _ _ _ hs hcheck
  | proposed hmodel hrun =>
      simp only [Shared.runHeuristics, HeuristicManager.run, bind_eq_ok, pure_eq_ok,
        Prod.mk.injEq] at hrun
      obtain ⟨_, ⟨⟨improvements, incumbent, heuristics⟩, hall, rfl⟩, -, rfl⟩ := hrun
      subst hmodel
      exact HeuristicManager.runAll_keeps (fun i point hi hcheck => hP i point _ hi hcheck) hs hall

variable [Relaxation ρ Exact] [Proposer η Exact] (hg : g.Valid)

include hg

theorem Target.Valid.fits {shared shared' : Shared Exact σ η τ}
    (h : shared.Improves g.model shared') (hs : shared.incumbent.Fits g.model g.feastol) :
    shared'.incumbent.Fits g.model g.feastol :=
  h.keeps (fun _ _ _ hi hcheck => hi.tryUpdate hg.numeric hcheck) hs

theorem Target.Valid.excludes {shared shared' : Shared Exact σ η τ}
    (h : shared.Improves g.model shared') (hs : shared.incumbent.Fits g.model g.feastol)
    (hexcludes : shared.incumbent.Excludes g.value) :
    shared'.incumbent.Fits g.model g.feastol ∧ shared'.incumbent.Excludes g.value :=
  h.keeps (P := fun i => i.Fits g.model g.feastol ∧ i.Excludes g.value)
    (fun _ _ _ hi hcheck => ⟨hi.1.tryUpdate hg.numeric hcheck,
      hi.2.tryUpdate hg.numeric hg.positive.le hg.below.le hi.1 hcheck⟩) ⟨hs, hexcludes⟩

omit [Proposer η Exact] in
/-- After the submission of a point that is as good nothing is of interest. -/
theorem Target.Valid.submit_excludes {shared : Shared Exact σ η τ} {point : Array Exact}
    {tolerance : Exact} (hcheck : g.model.check point tolerance = true)
    (hs : shared.incumbent.Fits g.model g.feastol)
    (hle : g.model.objectiveValue point ≤ number g.value) :
    (shared.submit point (g.model.objectiveValue point)).2.incumbent.Excludes g.value := by
  rw [Shared.submit_incumbent]
  exact hs.excludes_tryUpdate hg.numeric hg.positive.le hg.below.le hcheck hle

/-- What is of no interest never becomes so again. -/
theorem Passage.sated {x y : SearchRecord Exact × SearchState Exact ρ σ η τ} (h : Passage x y)
    (hx : Sated g x.2) : Sated g y.2 := by
  cases h with
  | yielded => exact hx
  | alike h => exact sated_indifferent.alike hx h
  | turned h => exact ⟨h.constant.1.trans hx.model, hx.fits, hx.excludes⟩
  | solution _ => exact ⟨hx.model, hx.fits, hx.excludes⟩
  | raised _ => exact ⟨hx.model, hx.fits, hx.excludes⟩
  | improved h =>
      obtain ⟨hfits, hexcludes⟩ := hg.excludes (hx.model ▸ h) hx.fits hx.excludes
      exact ⟨hx.model, hfits, hexcludes⟩
  | gaveUp _ => exact ⟨hx.model, hx.fits, hx.excludes⟩
  | suspended _ => exact hx

theorem Passages.sated {x y : SearchRecord Exact × SearchState Exact ρ σ η τ} (h : Passages x y)
    (hx : Sated g x.2) : Sated g y.2 := by
  induction h with
  | refl => exact hx
  | tail _ hpassage ih => exact hpassage.sated hg ih

/-- What consists of passages keeps it so. -/
theorem SearchStep.sated_of_passes {β : Type} {x : SearchStep Exact ρ σ η τ β}
    {suspended : β → List (OpenNode Exact)}
    (h : ∀ start, Leads (Passes start []) x fun b => Passes start (suspended b)) :
    Keeps (Sated g) x := by
  intro s b t hs hx
  obtain ⟨givenUp, hpassages⟩ := h (.empty, s) s b t ⟨[], .refl⟩ hx
  exact hpassages.sated hg hs

end Sated

namespace SearchStep

variable {β : Type} {P : SearchState Exact ρ σ η τ → Prop}
  {Q : β → SearchState Exact ρ σ η τ → Prop} {x : SearchStep Exact ρ σ η τ β}

/-- A step may begin with nothing of interest. -/
theorem orSated (hsated : Keeps (Sated g) x) (h : Leads P x fun b s => Sated g s ∨ Q b s) :
    Leads (fun s => Sated g s ∨ P s) x fun b s => Sated g s ∨ Q b s := by
  rintro s b t (hs | hs) hx
  · exact .inl (hsated s b t hs hx)
  · exact h s b t hs hx

/-- What does not depend on what is counted, observed and noted may be said of one case of two. -/
theorem orSated_aloof {P : SearchState Exact ρ σ η τ → Prop} (hP : Aloof P) :
    Aloof fun s => Sated g s ∨ P s :=
  .alone fun _ _ hs hakin =>
    hs.imp (fun h => sated_indifferent.alike h hakin.alike) fun h => hP.akin h hakin

end SearchStep

/-! ### Solving the relaxation of a node -/

namespace Exact

theorem max_le {a b v : Exact} (ha : a ≤ v) (hb : b ≤ v) : Scalar.max a b ≤ v := by
  unfold Scalar.max
  split
  · exact hb
  · split
    · exact ha
    · split
      · exact hb
      · exact ha

theorem min_le_of_left {a b v : Exact} (h : a ≤ v) : Scalar.min a b ≤ v := by
  have ha : Scalar.isNaN a = false := by
    cases a with
    | nan => exact absurd rfl (not_nan_of_le h).1
    | _ => rfl
  exact Exact.le_trans (Scalar.min_le_left ha) h

theorem min_le_of_right {a b v : Exact} (h : b ≤ v) : Scalar.min a b ≤ v := by
  have hb : Scalar.isNaN b = false := by
    cases b with
    | nan => exact absurd rfl (not_nan_of_le h).1
    | _ => rfl
  cases ha : Scalar.isNaN a with
  | true =>
      have hmin : Scalar.min a b = b := if_pos ha
      rwa [hmin]
  | false => exact Exact.le_trans (Scalar.min_le_right ha hb) h

end Exact

/-- Without separators and without cuts in the pool a round of separation finds nothing. -/
theorem SeparationManager.separate_nothing [Separator σ Exact] (start : SeparationState Exact σ)
    (hseparators : start.manager.separators = []) (hempty : start.pool.toList = [])
    (d : Domain Exact) (solution : RelaxationSolution Exact) :
    Leads (fun st => st = start) (separate d solution)
      fun round st => round = ⟨0, []⟩ ∧ st = start := by
  refine Leads.get.bind fun st => Leads.fix fun st₀ hst₀ => ?_
  obtain ⟨rfl, rfl⟩ := hst₀
  rw [hseparators]
  refine Leads.bind (Q := fun inserted st' => inserted = 0 ∧ st' = st)
    (Leads.pure fun _ h => ⟨rfl, h⟩)
    fun inserted => Leads.get.bind fun now => Leads.lift.bind fun violated =>
      Leads.pure fun _ h => ?_
  obtain ⟨hviolated, rfl, rfl, rfl⟩ := h
  simp only [CutPool.violated, hempty, collect, bind_eq_ok, pure_eq_ok] at hviolated
  obtain ⟨_, hfound, rfl⟩ := hviolated
  cases hfound
  exact ⟨by simp, rfl⟩

/-- So nothing changes when a relaxation solution is separated. -/
theorem Shared.separate_nothing [Separator σ Exact] {s s' : Shared Exact σ η τ} {d : Domain Exact}
    {solution : RelaxationSolution Exact} {violated : List (CutId × Inequality Exact)}
    (hseparators : s.separation.separators = [])
    (hnone : ∀ (i : PoolId) pool id cut, s.pools.cuts[i]? = some pool → pool.get? id ≠ some cut)
    (h : s.separate d solution = .ok (violated, s')) : violated = [] ∧ s' = s := by
  simp only [Shared.separate, bind_eq_ok, pure_eq_ok, Prod.mk.injEq] at h
  obtain ⟨pool, hpool, ⟨round, after⟩, hround, cuts, hstore, rfl, rfl⟩ := h
  have hfetch : s.pools.cuts[s.cutPool]? = some pool := fetch_eq_ok.mp hpool
  have hempty : pool.toList = [] :=
    List.eq_nil_iff_forall_not_mem.mpr fun item hitem =>
      hnone _ pool _ _ hfetch (CutPool.get?_of_mem_toList hitem)
  obtain ⟨rfl, rfl⟩ :=
    (SeparationManager.separate_nothing ⟨s.separation, pool⟩ hseparators hempty d solution).finish
      rfl
      hround
  obtain ⟨hlt, rfl⟩ := store_eq_ok.mp hstore
  have hsame : s.pools.cuts.setIfInBounds s.cutPool pool = s.pools.cuts := by
    obtain ⟨_, rfl⟩ := Array.getElem?_eq_some_iff.mp hfetch
    rw [Array.setIfInBounds_def, dif_pos hlt, Array.set_getElem_self]
  refine ⟨rfl, ?_⟩
  simp [hsame]

theorem Domain.Holds.of_log {d d' : Domain Exact} {x : Point} (h : d.Holds x)
    (hlog : d'.log = d.log) :
    d'.Holds x := by
  have hheld : d'.HeldBefore d.log.size x := HeldBefore.of_log h hlog
  rwa [← hlog] at hheld

/-- What a search cares for depends on its domain, its relaxation and what it shares. -/
theorem Cares.congr {s : SearchState Exact ρ σ η τ} (h : Cares g s) {search : Search Exact ρ}
    (hdomain : search.domain = s.search.domain) (hrelaxation : search.relaxation =
      s.search.relaxation)
    (hexcluded : search.improvementExcluded = s.search.improvementExcluded) :
    Cares g { s with search := search } := by
  have hpropagation : SearchState.propagation { s with search := search } = s.propagation := by
    rw [SearchState.propagation, SearchState.propagation, hdomain]
  exact ⟨hpropagation ▸ h.regards, hdomain ▸ h.model, hrelaxation ▸ h.honest, h.separators,
    hpropagation ▸ h.noCuts, h.fits, h.seeks, hexcluded ▸ h.hopeful⟩

theorem Attends.congr {start : Search Exact ρ} {held bounded : Prop} {s : SearchState Exact ρ σ η τ}
    (h : Attends g start held bounded s) {search : Search Exact ρ}
    (hdomain : search.domain = s.search.domain) (hrelaxation : search.relaxation =
      s.search.relaxation)
    (hexcluded : search.improvementExcluded = s.search.improvementExcluded)
    (hnodes : search.nodes = s.search.nodes)
    (hgivenUp : search.givenUpBound = s.search.givenUpBound) :
    Attends g start held bounded { s with search := search } :=
  ⟨h.cares.congr hdomain hrelaxation hexcluded, hdomain ▸ h.holds, hnodes ▸ h.bound,
    hnodes ▸ h.below,
    hgivenUp ▸ h.givenUpBound⟩

/-- The current node may change as long as its lower bound is not raised above the value. -/
theorem Attends.changeNode {start : Search Exact ρ} {held bounded : Prop}
    {s : SearchState Exact ρ σ η τ} (h : Attends g start held bounded s)
    {node node' : SearchNode Exact} {rest : List (SearchNode Exact)}
    (hnodes : s.search.nodes = node :: rest)
    (hbound : bounded → node.lowerBound ≤ number g.value → node'.lowerBound ≤ number g.value) :
    Attends g start held bounded
      { s with search := { s.search with nodes := node' :: rest } } where
  cares := h.cares.congr rfl rfl rfl
  holds := h.holds
  bound := by
    rintro hbounded _ ⟨⟩
    exact hbound hbounded (h.bound hbounded node (by rw [hnodes]; rfl))
  below := by
    rw [← h.below, hnodes]
    rfl
  givenUpBound := h.givenUpBound

namespace SearchStep

variable {start : Search Exact ρ} {held bounded : Prop}

/-- A solution of the relaxation over the box of the current node is at hand. -/
structure Solved (g : Target ρ) (start : Search Exact ρ) (held bounded : Prop)
    (solution : RelaxationSolution Exact) (s : SearchState Exact ρ σ η τ) : Prop where
  bounds : solution.Bounds g.model g.feastol s.search.domain
  attends : Attends g start held bounded s

/-- What the outcome of solving the relaxation of the current node tells. -/
def Told (g : Target ρ) (start : Search Exact ρ) (held bounded : Prop)
    (outcome : Bounded Exact) (s : SearchState Exact ρ σ η τ) : Prop :=
  match outcome with
  | .ok solution => Solved g start held bounded solution s
  | .error result => (bounded → result = .givenUp) ∧ Attends g start held bounded s

/-- What the result of an evaluation tells. -/
def Judged (g : Target ρ) (start : Search Exact ρ) (held bounded : Prop) (result : NodeResult)
    (s : SearchState Exact ρ σ η τ) : Prop :=
  (bounded → result = .unsolved ∨ result = .givenUp) ∧ Attends g start held bounded s

theorem solved_aloof {solution : RelaxationSolution Exact} :
    Aloof (Solved g start held bounded solution : SearchState Exact ρ σ η τ → Prop) :=
  .alone fun _ _ hs hakin =>
    ⟨hakin.alike.domain ▸ hs.bounds, attends_aloof.akin hs.attends hakin⟩

theorem judged_aloof {result : NodeResult} :
    Aloof (Judged g start held bounded result : SearchState Exact ρ σ η τ → Prop) :=
  .alone fun _ _ hs hakin => ⟨hs.1, attends_aloof.akin hs.2 hakin⟩

/-- The objective value of a solution over the box is not above the value of the point. -/
theorem Solved.objective_le [Relaxation ρ Exact] (hg : g.Valid) {s : SearchState Exact ρ σ η τ}
    {solution : RelaxationSolution Exact} (h : Solved g start held bounded solution s)
    (hheld : held) :
    solution.objective ≤ number g.value :=
  hg.value ▸ h.bounds.least _ hg.feasible (h.attends.cares.contains (h.attends.holds hheld))

theorem Solved.not_above [Relaxation ρ Exact] (hg : g.Valid) {s : SearchState Exact ρ σ η τ}
    {solution : RelaxationSolution Exact} (h : Solved g start held bounded solution s)
    (hheld : held) :
    ¬s.shared.cutoff < solution.objective := fun habove =>
  Exact.not_le_of_lt (Exact.lt_of_lt_of_le h.attends.cares.lt_cutoff (Exact.le_of_lt habove))
    (h.objective_le hg hheld)

section Relaxation

variable [Relaxation ρ Exact] (hg : g.Valid) (hin : bounded → held)

include hg hin

theorem resolveOnce_tells :
    Leads (Attends g start held bounded)
      (resolveOnce : SearchStep Exact ρ σ η τ (Option (Bounded Exact)))
      fun outcome s => outcome.elim (Attends g start held bounded s)
        fun outcome => Told g start held bounded outcome s := by
  refine (resolve_attends hg).bind fun result => ?_
  cases result with
  | optimal solution =>
      refine Leads.bind (Q := fun _ => Solved g start held bounded solution)
        ((changeStatistics_aloof solved_aloof (by intros; rfl)).before fun s hs => ⟨hs.1, hs.2⟩)
        fun _ => Leads.pure fun s hs => hs
  | infeasible proof =>
      refine Leads.fix fun s₀ hs₀ => ?_
      obtain ⟨⟨hempty, hproof⟩, h⟩ := hs₀
      have hout : ¬held := fun hheld => hempty _ hg.feasible (h.cares.contains (h.holds hheld))
      refine Leads.bind (Q := fun _ => Attends g start held bounded)
        ((analyse_attends hg fun i hi => ⟨(hproof i hi).1, (hproof i hi).2 _ hg.feasible⟩).before
          (by rintro _ rfl; exact h)) fun _ => Leads.pure fun s hs => ?_
      exact ⟨fun hbounded => absurd (hin hbounded) hout, hs⟩
  | unbounded =>
      refine Leads.before (P := Attends g start held bounded) ?_ fun s hs => hs.2
      exact search_keeps.bind fun _ => (notify_aloof attends_aloof _).bind fun _ =>
        Leads.pure fun s hs => ⟨fun _ => rfl, hs⟩
  | numericalTrouble => exact Leads.pure fun s hs => hs.2

theorem resolveNode_tells (retries budget : Nat) :
    Leads (Attends g start held bounded)
      (resolveNode retries budget : SearchStep Exact ρ σ η τ (Bounded Exact))
      (Told g start held bounded) := by
  have hgiveUp (retries : Nat) : Leads (Attends g start held bounded)
      (giveUp retries : SearchStep Exact ρ σ η τ (Bounded Exact)) (Told g start held bounded) :=
    search_keeps.bind fun _ => (notify_aloof attends_aloof _).bind fun _ =>
      Leads.pure fun s hs => ⟨fun _ => rfl, hs⟩
  induction budget generalizing retries with
  | zero =>
      refine (resolveOnce_tells hg hin).bind fun outcome => ?_
      cases outcome with
      | none => exact hgiveUp _
      | some outcome => exact Leads.pure fun s hs => hs
  | succ budget ih =>
      refine (resolveOnce_tells hg hin).bind fun outcome => ?_
      cases outcome with
      | none =>
          exact (recover_attends hg).bind fun _ => Leads.ite
            (fun _ => (notify_aloof attends_aloof _).bind fun _ => ih _) fun _ => hgiveUp _
      | some outcome => exact Leads.pure fun s hs => hs

theorem recordObjective_solved {solution : RelaxationSolution Exact} :
    Keeps (Solved g start held bounded solution)
      (recordObjective solution.objective : SearchStep Exact ρ σ η τ Unit) := by
  refine currentNode_keeps.bind fun node =>
    Leads.bind (Q := fun _ => Solved g start held bounded solution)
      (changeNode_leads fun s top rest hs hnodes => ⟨hs.bounds, hs.attends.changeNode hnodes
        fun hbounded hle => Exact.max_le hle (hs.objective_le hg (hin hbounded))⟩) fun _ => ?_
  split
  · exact changePseudocost_aloof solved_aloof _
  · exact Keeps.pure

theorem boundNode_tells :
    Leads (Attends g start held bounded) (boundNode : SearchStep Exact ρ σ η τ (Bounded Exact))
      (Told g start held bounded) := by
  refine shared_keeps.bind fun _ => (resolveNode_tells hg hin _ _).bind fun outcome => ?_
  cases outcome with
  | error result => exact Leads.pure fun s hs => hs
  | ok solution =>
      refine Leads.bind (P := Solved g start held bounded solution) (recordObjective_solved hg hin)
        fun _ => shared_leads.bind fun shared => Leads.ite (fun habove => ?_) fun _ =>
          Leads.pure fun s hs => hs.2
      refine Leads.pure fun s hs => ⟨fun hbounded => ?_, hs.2.attends⟩
      obtain ⟨rfl, h⟩ := hs
      exact absurd habove (h.not_above hg (hin hbounded))

variable [Separator σ Exact]

omit hg hin in
/-- There is nothing to be separated. -/
theorem separateNode_solved {solution : RelaxationSolution Exact} :
    Leads (Solved g start held bounded solution)
      (separateNode solution : SearchStep Exact ρ σ η τ Bool)
      fun separated s => separated = false ∧ Solved g start held bounded solution s := by
  refine shared_keeps.bind fun _ => search_keeps.bind fun _ =>
    Leads.ite (fun _ => Leads.pure fun s hs => ⟨rfl, hs⟩) fun _ => domain_keeps.bind fun _ =>
      Keeps.lift.bind fun _ => Leads.ite (fun _ => Leads.pure fun s hs => ⟨rfl, hs⟩) fun _ =>
        shared_leads.bind fun shared => domain_keeps.bind fun d => Leads.lift.bind fun found =>
          Leads.fix fun s₀ hs₀ => ?_
  obtain ⟨hseparate, rfl, h⟩ := hs₀
  obtain ⟨violated, separated⟩ := found
  obtain ⟨rfl, rfl⟩ :=
    Shared.separate_nothing h.attends.cares.separators h.attends.cares.noCuts hseparate
  refine Leads.bind (Q := fun _ => Solved g start held bounded solution)
    (Leads.modify fun s hs => ?_) fun _ => Leads.pure fun s hs => ⟨rfl, hs⟩
  subst hs
  exact h

theorem boundNodeWithCuts_tells :
    Leads (Attends g start held bounded)
      (boundNodeWithCuts : SearchStep Exact ρ σ η τ (Bounded Exact))
      (Told g start held bounded) := by
  refine (boundNode_tells hg hin).bind fun outcome => ?_
  cases outcome with
  | error result => exact Leads.pure fun s hs => hs
  | ok solution =>
      refine Leads.bind (P := Solved g start held bounded solution) separateNode_solved
        fun separated => Leads.fix fun s₀ hs₀ => ?_
      obtain ⟨rfl, hs₀⟩ := hs₀
      exact Leads.pure fun s hs => hs ▸ hs₀

end Relaxation

end SearchStep

/-! ### Integral solutions -/

namespace Exact

theorem max_eq_left {a b : Exact} (h : b ≤ a) : Scalar.max a b = a := by
  obtain ⟨hb, ha⟩ := not_nan_of_le h
  have hlt : ¬a < b := fun hlt => not_le_of_lt hlt h
  cases a with
  | nan => exact absurd rfl ha
  | _ =>
    cases b with
    | nan => exact absurd rfl hb
    | _ => exact if_neg hlt

theorem min_eq_left {a b : Exact} (h : a ≤ b) : Scalar.min a b = a := by
  obtain ⟨ha, hb⟩ := not_nan_of_le h
  have hlt : ¬b < a := fun hlt => not_le_of_lt hlt h
  cases a with
  | nan => exact absurd rfl ha
  | _ =>
    cases b with
    | nan => exact absurd rfl hb
    | _ => exact if_neg hlt

theorem round_int (z : ℤ) : Scalar.round (number (z : ℚ)) = number z := by
  have hnearest : nearest (z : ℚ) = z := by
    unfold nearest
    split
    · rw [Int.floor_intCast_add]
      norm_num
    · rw [sub_eq_add_neg, Int.ceil_intCast_add]
      norm_num
  exact congrArg (fun k : ℤ => number (k : ℚ)) hnearest

end Exact

/-- A solution over a box of whole numbers is integral if it has no fractional columns. -/
theorem RelaxationSolution.Bounds.integral_of_none {m : Model Exact} {f : ℚ} {d : Domain Exact}
    {solution : RelaxationSolution Exact} (h : solution.Bounds m f d) (hmodel : d.model = m)
    (hsize : ∀ side, (d.bounds side).size = d.model.columns.size) (hfeastol : d.feastol = number f)
    (hwhole : ∀ side c, IsWhole (d.values side c)) (hnone : d.fractionalColumns solution = .ok [])
    {c : ColumnId} (hc : c ∈ m.integerColumns) :
    ∃ z : ℤ, solution.values[c]? = some (number z) := by
  obtain ⟨hrange, hkind⟩ := List.mem_filter.mp hc
  have hlt : c < m.columns.size := List.mem_range.mp hrange
  have hinteger : m.columns[c].kind = .integer := by
    simpa [Array.getElem?_eq_getElem hlt] using hkind
  obtain ⟨q, hq, hlow, hhigh⟩ := h.inBox c hlt
  have hnear (z : ℤ) (hz : |q - z| ≤ f) : solution.values[c]? = some (number z) := by
    rw [hq, h.integral c _ q z (Array.getElem?_eq_getElem hlt) hinteger hq hz]
  have hvalue := collect_eq_nil hnone (hmodel.symm ▸ hc)
  have hbound (side : Side) : d.boundValue side c = .ok (d.values side c) :=
    Domain.boundValue_of_lt (by rw [hsize, hmodel]; exact hlt)
  simp only [Domain.fractionalValue?, Domain.isFixed, hbound, bind_eq_ok, pure_eq_ok, hq,
    Except.ok.injEq, exists_eq_left'] at hvalue
  split at hvalue
  · next hfixed =>
      -- the value is that of both bounds
      have hsame := (Exact.equal_iff.mp hfixed).1
      have hbound : number q = d.values .lower c := Exact.le_antisymm (hsame ▸ hhigh) hlow
      rcases hwhole .lower c with hplus | hminus | ⟨z, hz⟩
      · rw [hplus] at hbound
        cases hbound
      · rw [hminus] at hbound
        cases hbound
      · exact ⟨z, by rw [hq, hbound, hz]⟩
  · simp only [bind_eq_ok, pure_eq_ok, Except.ok.injEq, exists_eq_left'] at hvalue
    rw [Exact.max_eq_left hlow, Exact.min_eq_left hhigh, hfeastol] at hvalue
    have hclose : ¬(f < q - ⌊q⌋ ∧ f < ⌈q⌉ - q) := by
      rintro ⟨hdown, hup⟩
      have hdown' : number f < number q - Scalar.floor (number q) := by
        change number f < number q - number ⌊q⌋
        rw [number_sub, number_lt]
        exact hdown
      have hup' : number f < Scalar.ceil (number q) - number q := by
        change number f < number ⌈q⌉ - number q
        rw [number_sub, number_lt]
        exact hup
      simp [hdown', hup'] at hvalue
    rcases not_and_or.mp hclose with hdown | hup
    · refine ⟨⌊q⌋, hnear _ ?_⟩
      rw [abs_of_nonneg (sub_nonneg.mpr (Int.floor_le q))]
      exact not_lt.mp hdown
    · refine ⟨⌈q⌉, hnear _ ?_⟩
      rw [abs_sub_comm, abs_of_nonneg (sub_nonneg.mpr (Int.le_ceil q))]
      exact not_lt.mp hup

/-- Rounding changes nothing in the columns with integral values. -/
theorem Array.update_round {values : Array Exact} {c : ColumnId} {z : ℤ}
    (hz : values[c]? = some (number z)) :
    update values c (fun value => .ok (Scalar.round value)) = .ok values := by
  refine update_eq_ok.mpr ⟨_, _, hz, rfl, ?_⟩
  obtain ⟨hlt, hvalue⟩ := Array.getElem?_eq_some_iff.mp hz
  rw [Exact.round_int, ← hvalue, Array.setIfInBounds_def, dif_pos hlt, Array.set_getElem_self]

namespace SearchStep

variable {start : Search Exact ρ} {held bounded : Prop}

theorem round_leads {P : SearchState Exact ρ σ η τ → Prop} {values : Array Exact}
    {columns : List ColumnId} (hvalues : ∀ c ∈ columns, ∃ z : ℤ, values[c]? = some (number z)) :
    Leads P (columns.foldlM (fun point c => update point c fun value => .ok (Scalar.round value))
      values :
      SearchStep Exact ρ σ η τ (Array Exact)) fun point s => point = values ∧ P s := by
  induction columns with
  | nil => exact Leads.pure fun s hs => ⟨rfl, hs⟩
  | cons c rest ih =>
      rw [List.foldlM_cons]
      obtain ⟨z, hz⟩ := hvalues c (List.mem_cons_self ..)
      refine Leads.bind (Q := fun point s => point = values ∧ P s)
        (Leads.lift.after fun point s hs => ?_) fun point => ?_
      · rw [Array.update_round hz] at hs
        exact ⟨(Except.ok.inj hs.1).symm, hs.2⟩
      · refine Leads.fix fun s hs => ?_
        obtain ⟨rfl, hs⟩ := hs
        exact (ih fun c' hc' => hvalues c' (List.mem_cons_of_mem _ hc')).before
          (by rintro _ rfl; exact hs)

end SearchStep

/-! ### Evaluating a node -/

/-- A new incumbent changes neither the pools nor the separators. -/
theorem Shared.Improves.beside [Proposer η Exact] {m : Model Exact}
    {shared shared' : Shared Exact σ η τ}
    (h : shared.Improves m shared') :
    shared'.pools = shared.pools ∧ shared'.separation = shared.separation := by
  cases h with
  | submitted hcheck =>
      unfold Shared.submit
      dsimp only
      split <;> exact ⟨rfl, rfl⟩
  | proposed hmodel hrun =>
      simp only [Shared.runHeuristics, bind_eq_ok, pure_eq_ok, Prod.mk.injEq] at hrun
      obtain ⟨_, -, -, rfl⟩ := hrun
      exact ⟨rfl, rfl⟩

section Improved

variable [Relaxation ρ Exact] [Proposer η Exact] (hg : g.Valid) {s : SearchState Exact ρ σ η τ}
  {shared : Shared Exact σ η τ}

include hg

/-- After an update of the incumbent nothing as good as the point is of interest, or the search goes
on caring for it. -/
theorem Cares.improved (h : Cares g s) (himproves : s.shared.Improves g.model shared) :
    Sated g { s with shared := shared } ∨ Cares g { s with shared := shared } := by
  have hfits := hg.fits himproves h.fits
  obtain ⟨hpools, hseparation⟩ := himproves.beside
  have hpropagation : SearchState.propagation { s with shared := shared } = s.propagation := by
    rw [SearchState.propagation, SearchState.propagation, hpools]
  by_cases hexcludes : shared.incumbent.Excludes g.value
  · exact .inl ⟨h.model, hfits, hexcludes⟩
  · exact .inr ⟨hpropagation ▸ h.regards, h.model, h.honest, hseparation ▸ h.separators,
      hpropagation ▸ h.noCuts, hfits, hexcludes, h.hopeful⟩

theorem Attends.improved {start : Search Exact ρ} {held bounded : Prop}
    (h : Attends g start held bounded s) (himproves : s.shared.Improves g.model shared) :
    Sated g { s with shared := shared } ∨ Attends g start held bounded
      { s with shared := shared } :=
  (h.cares.improved hg himproves).imp_right fun hcares =>
    ⟨hcares, h.holds, h.bound, h.below, h.givenUpBound⟩

end Improved

namespace SearchStep

variable {start : Search Exact ρ} {held bounded : Prop}

section Conclusion

variable [Relaxation ρ Exact] [Proposer η Exact] (hg : g.Valid) (hin : bounded → held)

include hg

/-- A heuristic may find a solution with which nothing as good as the point is of interest any
more. -/
theorem runHeuristics_solved {solution : RelaxationSolution Exact} :
    Leads (Solved g start held bounded solution)
      (runHeuristics solution : SearchStep Exact ρ σ η τ Unit)
      fun _ s => Sated g s ∨ Solved g start held bounded solution s := by
  refine shared_leads.bind fun shared => search_keeps.bind fun search => Leads.ite (fun _ => ?_)
    fun _ => Leads.pure fun s hs => .inr hs.2
  refine domain_leads.bind fun d => Leads.lift.bind fun found => ?_
  refine Leads.bind (Q := fun _ s => Sated g s ∨ Solved g start held bounded solution s)
    (Leads.modify fun s hs => ?_) fun _ =>
      changeStatistics_aloof (orSated_aloof solved_aloof) (by intros; rfl)
  obtain ⟨hrun, rfl, rfl, h⟩ := hs
  exact (h.attends.improved hg (.proposed h.attends.cares.model hrun)).imp_right fun hattends =>
    ⟨h.bounds, hattends⟩

include hin

/-- An integral solution in a box with the point is at least as good. -/
theorem submitIntegral_judged {solution : RelaxationSolution Exact} :
    Leads (fun s => s.search.domain.fractionalColumns solution = .ok [] ∧
        Solved g start held bounded solution s)
      (submitIntegral solution : SearchStep Exact ρ σ η τ NodeResult)
      fun result s => Sated g s ∨ Judged g start held bounded result s := by
  refine domain_leads.bind fun d => Leads.fix fun s₀ hs₀ => ?_
  obtain ⟨rfl, hnone, h⟩ := hs₀
  have hmodel : s₀.search.domain.model = g.model := h.attends.cares.model
  have hsound := h.attends.cares.regards.sound.domain
  have hvalues : ∀ c ∈ s₀.search.domain.model.integerColumns,
      ∃ z : ℤ, solution.values[c]? = some (number z) := fun c hc =>
    h.bounds.integral_of_none h.attends.cares.model hsound.settled.coherent.bounds_size
      hsound.feastol
      h.attends.cares.whole hnone (h.attends.cares.model ▸ hc)
  refine Leads.bind ((round_leads (P := Solved g start held bounded solution) hvalues).before
    (by rintro _ rfl; exact h)) fun point => shared_leads.bind fun shared =>
      Leads.fix fun s₁ hs₁ => ?_
  obtain ⟨rfl, rfl, h⟩ := hs₁
  refine Leads.ite (fun hcheck => ?_) fun _ => ?_
  · rw [hmodel] at hcheck ⊢
    refine Leads.bind (Q := fun _ s => Sated g s ∨ Judged g start held bounded .boundExceeding s)
      (Leads.modify fun s hs => ?_) fun _ => (changeStatistics_aloof (orSated_aloof judged_aloof)
        (by intros; rfl)).bind fun _ => Leads.pure fun s hs => hs
    subst hs
    by_cases hheld : held
    · have hle : g.model.objectiveValue solution.values ≤ number g.value :=
        h.bounds.objective ▸ h.objective_le hg hheld
      exact .inl ⟨h.attends.cares.model, hg.fits (.submitted hcheck) h.attends.cares.fits,
        hg.submit_excludes hcheck h.attends.cares.fits hle⟩
    · exact (h.attends.improved hg (.submitted hcheck)).imp_right fun hattends =>
        ⟨fun hbounded => absurd (hin hbounded) hheld, hattends⟩
  · exact ((notify_aloof solved_aloof _).before (by rintro _ rfl; exact h)).bind fun _ =>
      Leads.pure fun s hs => .inr ⟨fun _ => .inr rfl, hs.attends⟩

theorem concludeNode_judged {solution : RelaxationSolution Exact} :
    Leads (Solved g start held bounded solution)
      (concludeNode solution : SearchStep Exact ρ σ η τ NodeResult)
      fun result s => Sated g s ∨ Judged g start held bounded result s := by
  have hsubmit : Leads (fun s => Sated g s ∨ s.search.domain.fractionalColumns solution = .ok [] ∧
        Solved g start held bounded solution s)
      (submitIntegral solution : SearchStep Exact ρ σ η τ NodeResult)
      fun result s => Sated g s ∨ Judged g start held bounded result s :=
    orSated (sated_of_passes hg fun start => submitIntegral_passes solution)
      (submitIntegral_judged hg hin)
  have hrest : Leads (Solved g start held bounded solution) (do
      runHeuristics solution
      let fractional ← (← domain).fractionalColumns solution
      if fractional.isEmpty then submitIntegral solution
      else if (← shared).cutoff < solution.objective then return .boundExceeding
      else
        let estimate ← (← search).pseudocost.estimate solution fractional
        changeNode fun node => { node with estimate := estimate }
        changeSearch fun s => { s with solution := some solution }
        return .unsolved : SearchStep Exact ρ σ η τ NodeResult)
      fun result s => Sated g s ∨ Judged g start held bounded result s := by
    refine (runHeuristics_solved hg).bind fun _ => domain_leads.bind fun d => Leads.lift.bind
      fun fractional => Leads.ite (fun hempty => ?_) fun _ => ?_
    · refine hsubmit.before fun s hs => ?_
      obtain ⟨hfractional, rfl, hs⟩ := hs
      exact hs.imp_right fun h => ⟨List.isEmpty_iff.mp hempty ▸ hfractional, h⟩
    · refine Leads.before (P := fun s => Sated g s ∨ Solved g start held bounded solution s) ?_
        fun s hs => hs.2.2
      refine shared_leads.bind fun shared => Leads.ite (fun habove => ?_) fun _ => ?_
      · refine Leads.pure fun s hs => ?_
        obtain ⟨rfl, hs⟩ := hs
        exact hs.imp_right fun h =>
          ⟨fun hbounded => absurd habove (h.not_above hg (hin hbounded)), h.attends⟩
      · refine Leads.before (P := fun s => Sated g s ∨ Solved g start held bounded solution s) ?_
          fun s hs => hs.2
        refine search_keeps.bind fun _ => Keeps.lift.bind fun estimate => ?_
        refine Leads.bind (Q := fun _ s => Sated g s ∨ Solved g start held bounded solution s)
          (changeNode_leads fun s node rest hs hnodes => hs.imp
            (fun h => ⟨h.model, h.fits, h.excludes⟩)
            fun h => ⟨h.bounds, h.attends.changeNode hnodes fun _ hle => hle⟩) fun _ => ?_
        refine Leads.bind (Q := fun _ s => Sated g s ∨ Attends g start held bounded s)
          (changeSearch_leads fun s hs => hs.imp (fun h => ⟨h.model, h.fits, h.excludes⟩)
            fun h => ?_) fun _ => Leads.pure fun s hs => hs.imp_right fun h =>
              ⟨fun _ => .inl rfl, h⟩
        exact h.attends.congr rfl rfl rfl rfl rfl
  refine Leads.ite (fun _ => ?_) fun _ => hrest
  exact Leads.bind (Q := fun _ => Solved g start held bounded solution)
    (changeNode_leads fun s node rest hs hnodes => ⟨hs.bounds, hs.attends.changeNode hnodes
      fun _ hle => hle⟩) fun _ => hrest

end Conclusion

section Evaluation

/-- The point respects the cutoff that is handed down to the domain. -/
theorem setObjectiveCutoff_attends [Relaxation ρ Exact] (hg : g.Valid)
    {shared : Shared Exact σ η τ} :
    Leads (fun s => shared = s.shared ∧ Attends g start held bounded s)
      (changeDomain fun d => return d.setObjectiveCutoff shared.cutoff : SearchStep Exact ρ σ η τ
        Unit)
      fun _ => Attends g start held bounded := by
  refine changeDomain_operates attends_aloof (fun _ => .setObjectiveCutoff shared.cutoff)
    (fun pools d d' h => ?_) fun s p hs hperform => ?_
  · rw [← pure_eq_ok.mp h]
    rfl
  obtain ⟨rfl, h⟩ := hs
  have hinforms : (Operation.setObjectiveCutoff s.shared.cutoff).Informs s.propagation := trivial
  have hrespects : (Operation.setObjectiveCutoff s.shared.cutoff).Respects g.anchor g.point
      s.propagation := by
    intro o ho
    obtain ⟨draft, hbuilt⟩ := hg.built
    obtain ⟨q, hoffset⟩ := hg.offset
    have hcosts := (h.cares.regards.sound.domain.wellMade.placed o ho).costs
    have hentries : o.entries = g.model.costEntries := by
      have hmodel : s.propagation.domain.model = g.model := h.cares.model
      rw [ObjectivePropagation.entries, Model.costEntries, hcosts, hmodel]
    have hvalue := hg.value
    rw [Model.valueAt_eq hoffset fun c column hcolumn =>
      (Draft.checkedColumn_of_build hbuilt hcolumn).cost, number.injEq] at hvalue
    have hbelow := h.cares.lt_cutoff
    change _ ≤ s.shared.cutoff - s.search.domain.model.offset
    rw [hentries, h.cares.model, hoffset]
    cases hcutoff : s.shared.cutoff with
    | number c =>
        rw [hcutoff, number_lt] at hbelow
        rw [number_sub, number_le]
        linarith
    | plus => rfl
    | minus =>
        rw [hcutoff] at hbelow
        cases hbelow
    | nan =>
        rw [hcutoff] at hbelow
        cases hbelow
  have hlog : p.domain.log = s.search.domain.log :=
    congrArg Trail.log (Operation.still rfl hperform).trail
  exact ⟨h.cares.onto hinforms hrespects (by simp) hperform, fun hheld =>
    (h.holds hheld).of_log hlog,
    h.bound, h.below, h.givenUpBound⟩

/-- Propagation keeps the point in the box, which stays feasible then. -/
theorem propagate_attends :
    Leads (Attends g start held bounded) (propagate : SearchStep Exact ρ σ η τ Bool)
      fun isFeasible s => (held → isFeasible = true) ∧ Attends g start held bounded s := by
  refine propagate_performs (fun _ => attends_aloof.given _)
    fun s p h hperform => ?_
  simp only [Operation.perform, bind_eq_ok, pure_eq_ok] at hperform
  obtain ⟨⟨pools, d⟩, hpropagate, rfl⟩ := hperform
  have hperform : Operation.propagate.perform s.propagation = .ok ⟨pools, d⟩ := by
    simp only [Operation.perform, bind_eq_ok, pure_eq_ok]
    exact ⟨_, hpropagate, rfl⟩
  have hinforms : Operation.propagate.Informs s.propagation := trivial
  have hcares := h.cares.onto hinforms trivial (by simp) hperform
  have hheld : held → d.Holds g.point := fun hheld =>
    h.cares.regards.held_propagate hpropagate (h.holds hheld)
  refine ⟨fun hin => ?_, hcares, hheld, h.bound, h.below, h.givenUpBound⟩
  have hfeasible : d.infeasible = none := hcares.feasible (hheld hin)
  simp [Domain.isInfeasible, hfeasible]

variable [Relaxation ρ Exact] [Separator σ Exact] [Proposer η Exact] (hg : g.Valid)
  (hin : bounded → held)

include hg hin

/-- A node that holds the point with a lower bound not above its value has to be branched on or is
given up, unless nothing as good as the point is of interest any more. -/
theorem evaluateOnce_judged :
    Leads (Attends g start held bounded) (evaluateOnce : SearchStep Exact ρ σ η τ NodeResult)
      fun result s => Sated g s ∨ Judged g start held bounded result s := by
  refine Leads.bind (Q := fun _ => Attends g start held bounded)
    (changeSearch_leads fun s h => h.congr rfl rfl rfl rfl rfl) fun _ => shared_leads.bind
      fun shared =>
      Leads.bind (setObjectiveCutoff_attends hg) fun _ => ?_
  refine propagate_attends.bind fun isFeasible => Leads.fix fun s₀ hs₀ => ?_
  obtain ⟨hfeasible, hs₀⟩ := hs₀
  refine Leads.before (P := Attends g start held bounded) ?_ (by rintro _ rfl; exact hs₀)
  refine (recordInferences_aloof attends_aloof).bind fun _ => Leads.ite (fun hinfeasible => ?_)
    fun _ => shared_leads.bind fun shared => currentNode_leads.bind fun node =>
      Leads.ite (fun habove => ?_) fun _ => ?_
  · exact (analyse_attends hg fun i hi => by cases hi).bind fun _ => Leads.pure fun s hs => .inr
      ⟨fun hbounded => by simp [hfeasible (hin hbounded)] at hinfeasible, hs⟩
  · refine Leads.pure fun s hs => .inr ⟨fun hbounded => ?_, hs.2.2⟩
    obtain ⟨⟨rest, hnodes⟩, rfl, h⟩ := hs
    have hle := h.bound hbounded node (by rw [hnodes]; rfl)
    exact absurd hle
      (Exact.not_le_of_lt (Exact.lt_of_lt_of_le h.cares.lt_cutoff (Exact.le_of_lt habove)))
  · refine Leads.bind ((boundNodeWithCuts_tells hg hin).before fun s hs => hs.2.2) fun outcome => ?_
    cases outcome with
    | error result => exact Leads.pure fun s hs => .inr ⟨fun hbounded => .inr (hs.1 hbounded), hs.2⟩
    | ok solution => exact concludeNode_judged hg hin

omit hg hin in
/-- An evaluation does not tell that the node was branched on. -/
theorem evaluateOnce_ne_branched {P : SearchState Exact ρ σ η τ → Prop} :
    Leads P (evaluateOnce : SearchStep Exact ρ σ η τ NodeResult) fun result _ =>
      result ≠ .branched :=
  Leads.fix fun s _ =>
    have hworks : s.search.Works s.search := .refl _
    evaluateOnce_worked.mono (by rintro _ rfl; exact hworks) fun _ _ h => h.1

end Evaluation

/-- The current node is finished. If the point was in it, with a lower bound not above its value,
then the node was given up. -/
structure Ended (g : Target ρ) (start : Search Exact ρ) (bounded : Prop)
    (s : SearchState Exact ρ σ η τ) : Prop where
  cares : Cares g s
  below : s.search.nodes.tail = start.nodes.tail
  gaveUp : bounded → s.search.givenUpBound ≤ number g.value
  givenUpBound : start.givenUpBound ≤ number g.value → s.search.givenUpBound ≤ number g.value

theorem prune_ends {result : NodeResult} (hresult : result ≠ .unsolved) :
    Leads (Judged g start held bounded result) (prune result : SearchStep Exact ρ σ η τ NodeResult)
      fun _ => Ended g start bounded := by
  refine Leads.bind (Q := fun _ => Judged g start held bounded result)
    (changeSearch_leads fun s h => ⟨h.1, h.2.congr rfl rfl rfl rfl rfl⟩) fun _ =>
      Leads.bind (Q := fun _ => Judged g start held bounded result)
        (changeNode_leads fun s node rest h hnodes => ⟨h.1, h.2.changeNode hnodes fun _ hle => hle⟩)
        fun _ => currentNode_leads.bind fun node => ?_
  refine (changeStatistics_leads (Q := fun s => (bounded → node.lowerBound ≤ number g.value) ∧
    Judged g start held bounded result s) fun s t h _ => ?_).bind fun _ => ?_
  · obtain ⟨⟨rest, hnodes⟩, hjudged, h⟩ := h
    exact ⟨fun hbounded => h.bound hbounded node (by rw [hnodes]; rfl), hjudged,
      h.congr rfl rfl rfl rfl rfl⟩
  refine Leads.ite (fun _ => ?_) fun hkept => ?_
  · refine Leads.bind (Q := fun _ => Ended g start bounded)
      (changeSearch_leads fun s h => ?_) fun _ => Keeps.pure
    obtain ⟨hbound, -, h⟩ := h
    exact ⟨h.cares.congr rfl rfl rfl, h.below, fun hbounded => Exact.min_le_of_right
      (hbound hbounded),
      fun hle => Exact.min_le_of_left (h.givenUpBound ▸ hle)⟩
  · refine Leads.pure fun s h => ?_
    obtain ⟨-, hjudged, h⟩ := h
    refine ⟨h.cares, h.below, fun hbounded => ?_, fun hle => h.givenUpBound ▸ hle⟩
    rcases hjudged hbounded with rfl | rfl
    · exact absurd rfl hresult
    · simp at hkept

end SearchStep

end BranchBound
