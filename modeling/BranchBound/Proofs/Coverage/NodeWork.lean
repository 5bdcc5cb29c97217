import BranchBound.Proofs.Coverage.SparedRuns
import BranchBound.Proofs.Search.Vetted
import BranchBound.Proofs.Search.Effects

/-!
# Work on a node that keeps a point

A relaxation that keeps its contract bounds what is in a box from below and calls a box empty only
if no feasible point is in it. Then a search which was told nothing wrong about a feasible point
works on a node without losing the point: as long as the point is of interest, a node whose box
contains it is not finished without having been given up.
-/

namespace BranchBound

open Checked Exact BranchBound.Action

/-- The values of a point in the first columns. -/
def Point.values (x : Point) (columnCount : Nat) : Array Exact :=
  Array.ofFn fun c : Fin columnCount => number (x c : ℚ)

namespace Model

/-- The objective value of a point. -/
def valueAt (m : Model Exact) (x : Point) : Exact := m.objectiveValue (x.values m.columns.size)

variable {m : Model Exact} {x : Point}

/-- The costs of a model as the entries of an inequality. -/
def costEntries (m : Model Exact) : List (ColumnId × Exact) :=
  (m.columns.map Column.cost).toList.zipIdx.map fun (cost, c) => (c, cost)

/-- The objective value of a point is what its columns cost, and the offset. -/
theorem valueAt_eq {q : ℚ} (hoffset : m.offset = number q)
    (hcosts : ∀ (c : ColumnId) column, m.columns[c]? = some column → ∃ q, column.cost = number q)
    (x : Point) : m.valueAt x = number (q + dot (m.costEntries : List (ColumnId × Exact)) x) := by
  have hterms : (m.columns.toList.zip (x.values m.columns.size).toList).map
      (fun (column, v) => column.cost * v) =
        m.costEntries.map fun e => number (e.2.toRat * (x e.1 : ℚ)) := by
    refine List.ext_getElem (by simp [Point.values, costEntries]) fun i hi hi' => ?_
    have hsize : i < m.columns.size := by simpa [costEntries] using hi'
    obtain ⟨q, hq⟩ := hcosts i _ (Array.getElem?_eq_getElem hsize)
    simp [Point.values, costEntries, hq]
  have hvalue : m.valueAt x = m.offset + Scalar.sum
      ((m.columns.toList.zip (x.values m.columns.size).toList).map fun (column, v) =>
        column.cost * v) :=
    rfl
  rw [hvalue, hterms, sum_eq fun v hv => ?_, hoffset, number_add, List.map_map]
  · rfl
  · obtain ⟨e, -, rfl⟩ := List.mem_map.mp hv
    exact ⟨_, rfl⟩

end Model

/-! ### The contract of a relaxation -/

/-- A solution of a relaxation over the box of a domain has its objective value, which is not above
that of any feasible point in the box. Values of integer columns that are near an integer are
integral. -/
structure RelaxationSolution.Underestimates (m : Model Exact) (f : ℚ) (d : Domain Exact)
    (solution : RelaxationSolution Exact) : Prop where
  integral : ∀ (c : ColumnId) column (q : ℚ) (z : ℤ), m.columns[c]? = some column →
    column.kind = .integer → solution.values[c]? = some (number q) → |q - z| ≤ f → q = z
  objective : solution.objective = m.objectiveValue solution.values
  least : ∀ x, m.Feasible x → d.values.Contains m.columns.size x → solution.objective ≤ m.valueAt x

/-- Such a solution that is a point of the box. -/
structure RelaxationSolution.Bounds (m : Model Exact) (f : ℚ) (d : Domain Exact)
    (solution : RelaxationSolution Exact) : Prop extends solution.Underestimates m f d where
  size : solution.values.size = m.columns.size
  inBox : ∀ c < m.columns.size, ∃ q, solution.values[c]? = some (number q) ∧
    d.values .lower c ≤ number q ∧ number q ≤ d.values .upper c

/-- What the outcome of solving a relaxation over the box of a domain tells about the feasible
points: an optimal solution is an allowed one, and an infeasible relaxation has no feasible points
in the box and a proof that holds for all of them. -/
def RelaxationResult.Complies (Allowed : RelaxationSolution Exact → Prop) (m : Model Exact)
    (d : Domain Exact) : RelaxationResult Exact → Prop
  | .optimal solution => Allowed solution
  | .infeasible proof =>
    (∀ x, m.Feasible x → ¬d.values.Contains m.columns.size x) ∧
      ∀ i, proof = some i → Entries m.columns.size (i.entries : List (ColumnId × Exact)) ∧
        ∀ x, m.Feasible x → i.HoldsAt x
  | .unbounded | .numericalTrouble => True

/-- The outcome of solving a relaxation whose solutions are in the box. -/
abbrev RelaxationResult.Tells (m : Model Exact) (f : ℚ) (d : Domain Exact) :
    RelaxationResult Exact → Prop :=
  RelaxationResult.Complies (RelaxationSolution.Bounds m f d) m d

/-- Relaxations that keep their contract over all domains of a model with whole bounds, however they
are forked, warm started and recovered: their optimal solutions over a domain are those allowed for
it. -/
structure KeepContract {ρ : Type} [Relaxation ρ Exact]
    (Allowed : Domain Exact → RelaxationSolution Exact → Prop) (m : Model Exact) (honest : ρ →
      Prop) :
    Prop where
  resolve : ∀ r d, honest r → d.model = m → (∀ side c, IsWhole (d.values side c)) →
    honest (Relaxation.resolve r d).2 ∧
      ∀ result, (Relaxation.resolve r d).1 = .ok result → result.Complies (Allowed d) m d
  fork : ∀ r : ρ, honest r → honest (Relaxation.fork r).1 ∧ honest (Relaxation.fork r).2
  recover : ∀ r : ρ, honest r → honest (Relaxation.recover r).2
  setBasis : ∀ (r : ρ) basis, honest r → honest (Relaxation.setBasis r basis)

/-- What is learned from an infeasibility, or from a proof that holds at a regarded point, holds
there. -/
theorem PropagationState.Regards.learned {s : PropagationState Exact} {a : Domain.Anchor} {f : ℚ}
    {x : Point} (h : s.Regards a f x)
    (hnonzero : ∀ (r : RowId) row, s.domain.model.rows[r]? = some row →
      ∀ e ∈ row.entries, e.2 ≠ number 0)
    {proof : Option (Inequality Exact)}
    (hproof : ∀ i, proof = some i →
      Entries s.domain.model.columns.size (i.entries : List (ColumnId × Exact)) ∧ i.HoldsAt x)
    {set : ConflictSet} (hset : s.domain.conflictSet? s.pools proof = .ok (some set))
    {maxSize maxConflicts : Nat} {r : Resolution Exact}
    (hr : s.domain.computeConflicts s.pools set maxSize maxConflicts = .ok r) :
    ∀ conflict ∈ r.conflicts, ConflictHoldsAt conflict x := by
  have hd := h.sound.domain
  have hX : ∀ y, y = x → s.Possible y := fun y hy => hy ▸ h.possible
  have hlocal := hd.traced.conflictSet?_local (h.justified.refers h.sound) hset
  suffices hcontradicts : ¬s.domain.Meets set.positions x.reading from
    fun conflict hconflict => (h.justified.computeConflicts_hold h.sound hX hlocal
      (fun y hy => hy ▸ hcontradicts) maxSize maxConflicts).of_eq_ok hr conflict hconflict x rfl
  intro hmeets
  have hpositions : ∀ {e : Checked (Option (List Nat))}, (do
      let explanation ← e
      return explanation.map (ConflictSet.empty.insert s.domain.globalLength)) = .ok (some set) →
      ∃ positions, e = .ok (some positions) ∧ s.domain.Meets positions x.reading := by
    intro e he
    obtain ⟨o, hexplain, he⟩ := bind_eq_ok.mp he
    obtain ⟨positions, rfl, rfl⟩ := Option.map_eq_some_iff.mp (pure_eq_ok.mp he)
    exact ⟨positions, hexplain, fun p hp hlocal =>
      hmeets p (ConflictSet.mem_insert.mpr (.inr ⟨hp, hlocal⟩)) hlocal⟩
  cases proof with
  | some i =>
      obtain ⟨positions, hexplain, hmeets⟩ := hpositions hset
      obtain ⟨hentries, hholds⟩ := hproof i rfl
      exact ((hd.traced.explainAtMost_violated hd.feastol hentries hd.positive).of_eq_ok hexplain).1
        positions rfl _ h.possible.box hmeets hholds
  | none =>
      obtain ⟨positions, hexplain, hmeets⟩ := hpositions hset
      cases hinfeasible : s.domain.infeasible with
      | none =>
          rw [Domain.explainInfeasibility, hinfeasible] at hexplain
          cases hexplain
      | some i =>
          have hcontradicts :=
            h.justified.explainInfeasibility_contradicts h.sound hnonzero hinfeasible
          obtain ⟨_, hsome, -, hnone⟩ := hcontradicts.of_eq_ok hexplain
          obtain rfl := Option.some.inj hsome
          exact hnone _ h.possible hmeets

/-! ### States that care for a point -/

/-- A point with its objective value, and what is relied on to not lose it: the model, the
tolerance, what the objective was set up with, and which relaxations keep their contract. -/
structure Target (ρ : Type) where
  model : Model Exact
  feastol : ℚ
  anchor : Domain.Anchor
  honest : ρ → Prop
  point : Point
  value : ℚ

/-- A target is a feasible point of a built model without continuous columns. -/
structure Target.Valid {ρ : Type} [Relaxation ρ Exact] (g : Target ρ) : Prop where
  positive : 0 < g.feastol
  below : g.feastol < 1
  built : ∃ draft : Draft Exact, draft.build = .ok g.model
  integer : g.model.AllInteger
  offset : ∃ q, g.model.offset = number q
  feasible : g.model.Feasible g.point
  value : g.model.valueAt g.point = number g.value
  contract : KeepContract (RelaxationSolution.Bounds g.model g.feastol) g.model g.honest

variable {ρ σ η τ : Type} {g : Target ρ}

/-- The state after an operation on its domain and its pools. -/
def SearchState.onto (s : SearchState Exact ρ σ η τ) (p : PropagationState Exact) :
    SearchState Exact ρ σ η τ :=
  ⟨{ s.search with domain := p.domain }, { s.shared with pools := p.pools }⟩

/-- A search was told nothing wrong about a point, which is still of interest. -/
structure Cares (g : Target ρ) (s : SearchState Exact ρ σ η τ) : Prop where
  regards : s.propagation.Regards g.anchor g.feastol g.point
  model : s.search.domain.model = g.model
  honest : g.honest s.search.relaxation
  separators : s.shared.separation.separators = []
  noCuts : s.propagation.PooledCuts fun _ => False
  fits : s.shared.incumbent.Fits g.model g.feastol
  seeks : ¬s.shared.incumbent.Excludes g.value
  hopeful : s.search.improvementExcluded = false

/-- An operation that tells nothing wrong about the point. -/
theorem Cares.onto {s : SearchState Exact ρ σ η τ} (h : Cares g s)
    {op : Operation Exact} {p : PropagationState Exact} (hinforms : op.Informs s.propagation)
    (hrespects : op.Respects g.anchor g.point s.propagation)
    (hinsert : ∀ pool cut ageLimit, op ≠ .insertCut pool cut ageLimit)
    (hperform : op.perform s.propagation = .ok p) : Cares g (s.onto p) where
  regards := h.regards.perform hinforms hrespects hperform
  model := (Operation.turns hperform).constant.1.trans h.model
  honest := h.honest
  separators := h.separators
  noCuts := h.noCuts.perform (fun pool cut ageLimit heq => hinsert pool cut ageLimit heq) hperform
  fits := h.fits
  seeks := h.seeks
  hopeful := h.hopeful

/-- The whole log of a domain holds at a point. -/
def Domain.Holds (d : Domain Exact) (x : Point) : Prop := d.HeldBefore d.log.size x

/-- A search that cares for a point works on its current node. It may be known that the point is in
the box of the node, and that the lower bound of the node is not above the value of the point. -/
structure Attends (g : Target ρ) (start : Search Exact ρ) (held bounded : Prop)
    (s : SearchState Exact ρ σ η τ) : Prop where
  cares : Cares g s
  holds : held → s.search.domain.Holds g.point
  bound : bounded → ∀ n ∈ s.search.nodes.head?, n.lowerBound ≤ number g.value
  below : s.search.nodes.tail = start.nodes.tail
  givenUpBound : s.search.givenUpBound = start.givenUpBound

section Cares

variable {s : SearchState Exact ρ σ η τ}

/-- The bounds are whole. -/
theorem Cares.whole (h : Cares g s) (side : Side) (c : ColumnId) :
    IsWhole (s.search.domain.values side c) :=
  h.regards.sound.domain.values_whole h.regards.whole h.regards.integers.whole side c

/-- The point is in the box if the whole log holds there. -/
theorem Cares.contains (h : Cares g s) (hheld : s.search.domain.Holds g.point) :
    s.search.domain.values.Contains g.model.columns.size g.point :=
  h.model ▸ h.regards.sound.domain.contains_of_held h.regards.inModel hheld

/-- The domain is feasible then. -/
theorem Cares.feasible (h : Cares g s) (hheld : s.search.domain.Holds g.point) :
    s.search.domain.infeasible = none :=
  h.regards.feasible hheld

/-- As long as no decision was made, the point is in the box. -/
theorem Cares.holds_of_no_levels (h : Cares g s) (hlevels : s.search.domain.branchings = #[]) :
    s.search.domain.Holds g.point := by
  unfold Domain.Holds
  rw [← Domain.globalLength_of_no_levels hlevels]
  exact h.regards.global

/-- The value of the point is below the cutoff. -/
theorem Cares.lt_cutoff (h : Cares g s) : number g.value < s.shared.cutoff :=
    h.fits.lt_cutoff h.seeks

/-- What does not concern the point happens on a depth level of its own. -/
theorem Cares.harmless (h : Cares g s) {change : BoundChange Exact} {reason : Reason}
    (hholds : s.search.domain.Holds g.point → change.HoldsAt g.point) :
    s.search.domain.Harmless g.point change reason := by
  by_cases hlevels : s.search.domain.branchings = #[]
  · exact .inr (.inr (hholds (h.holds_of_no_levels hlevels)))
  · exact .inr (.inl hlevels)

end Cares

namespace SearchStep

variable {start : Search Exact ρ} {held bounded : Prop}

theorem cares_aloof : Aloof (Cares g : SearchState Exact ρ σ η τ → Prop) := by
  refine .alone fun s s' h hakin => ?_
  have hpropagation : s'.propagation = s.propagation := by
    rw [SearchState.propagation, SearchState.propagation, hakin.pools, hakin.alike.domain]
  refine ⟨hpropagation ▸ h.regards, ?_, ?_, ?_, hpropagation ▸ h.noCuts, ?_, ?_, ?_⟩
  · rw [hakin.alike.domain, h.model]
  · rw [hakin.relaxation]
    exact h.honest
  · rw [hakin.separation, h.separators]
  · rw [hakin.alike.incumbent]
    exact h.fits
  · rw [hakin.alike.incumbent]
    exact h.seeks
  · rw [hakin.improvementExcluded, h.hopeful]

theorem attends_aloof :
    Aloof (Attends g start held bounded : SearchState Exact ρ σ η τ → Prop) := by
  refine .alone fun s s' h hakin => ?_
  refine ⟨cares_aloof.akin h.cares hakin, ?_, ?_, ?_, ?_⟩
  · rw [hakin.alike.domain]
    exact h.holds
  · rw [hakin.alike.nodes]
    exact h.bound
  · rw [hakin.alike.nodes]
    exact h.below
  · rw [hakin.alike.givenUpBound]
    exact h.givenUpBound

section Operations

theorem changeDomain_aloof {P Q : SearchState Exact ρ σ η τ → Prop} (hQ : Aloof Q)
    {f : Domain Exact → Checked (Domain Exact)}
    (h : ∀ s d, P s → f s.search.domain = .ok d → Q (withDomain s d)) :
    Leads P (changeDomain f) fun _ => Q := by
  refine domain_leads.bind fun before => Leads.lift.bind fun after => ?_
  refine Leads.bind (Q := fun _ => Q) (changeSearch_leads fun s hs => ?_) fun _ => ?_
  · obtain ⟨hafter, rfl, hs⟩ := hs
    exact h s after hs hafter
  · refine shared_leads.bind fun shared => Leads.modify fun s hs => ?_
    obtain ⟨rfl, hs⟩ := hs
    exact hQ.akin hs ⟨⟨.refl _, rfl, rfl, rfl⟩, rfl, rfl, rfl, rfl, rfl, rfl⟩

/-- A change of the domain that is an operation. -/
theorem changeDomain_operates {P Q : SearchState Exact ρ σ η τ → Prop} (hQ : Aloof Q)
    {f : Domain Exact → Checked (Domain Exact)} (op : Domain Exact → Operation Exact)
    (hf : ∀ pools d d', f d = .ok d' → (op d).perform ⟨pools, d⟩ = .ok ⟨pools, d'⟩)
    (h : ∀ s p, P s → (op s.search.domain).perform s.propagation = .ok p → Q (s.onto p)) :
    Leads P (changeDomain f) fun _ => Q :=
  changeDomain_aloof hQ fun s d hs hd => h s ⟨s.shared.pools, d⟩ hs (hf _ _ _ hd)

theorem propagate_performs {P : SearchState Exact ρ σ η τ → Prop}
    {Q : Bool → SearchState Exact ρ σ η τ → Prop} (hQ : ∀ b, Aloof (Q b))
    (h : ∀ s p, P s → Operation.propagate.perform s.propagation = .ok p →
      Q (!p.domain.isInfeasible) (s.onto p)) : Leads P propagate Q := by
  refine shared_leads.bind fun shared => domain_leads.bind fun d => Leads.lift.bind fun result => ?_
  refine Leads.bind (Q := fun _ s => Q (!result.2.isInfeasible) (withDomain s result.2)) ?_
    fun _ => ?_
  · refine Leads.modify fun s hs => ?_
    obtain ⟨hresult, rfl, rfl, hs⟩ := hs
    simp only [Shared.propagate, bind_eq_ok, pure_eq_ok] at hresult
    obtain ⟨⟨pools, after⟩, hpropagate, rfl⟩ := hresult
    refine (hQ _).akin (h s ⟨pools, after⟩ hs ?_)
      ⟨⟨.refl _, rfl, rfl, rfl⟩, rfl, rfl, rfl, rfl, rfl, rfl⟩
    simp only [Operation.perform, bind_eq_ok, pure_eq_ok]
    exact ⟨_, hpropagate, rfl⟩
  · exact Leads.bind (Q := fun _ => Q (!result.2.isInfeasible))
      (changeSearch_leads fun s hs => hs) fun _ => Leads.pure fun s hs => hs

theorem undoLevel_performs {P Q : SearchState Exact ρ σ η τ → Prop}
    (h : ∀ s p, P s → Operation.backtrack.perform s.propagation = .ok p → Q (s.onto p)) :
    Leads P undoLevel fun _ => Q := by
  refine undoLevel_leads fun s undone d hs hback => h s ⟨s.shared.pools, d⟩ hs ?_
  simp only [Operation.perform, PropagationState.onDomain_eq_ok, bind_eq_ok, pure_eq_ok]
  exact ⟨d, ⟨(undone, d), hback, rfl⟩, rfl⟩

end Operations

section Relaxation

variable [Relaxation ρ Exact] (hg : g.Valid)

include hg

/-- Solving the relaxation tells about the box of the present domain. -/
theorem resolve_attends :
    Leads (Attends g start held bounded)
      (resolve : SearchStep Exact ρ σ η τ (RelaxationResult Exact))
      fun result s => result.Tells g.model g.feastol s.search.domain ∧
        Attends g start held bounded s := by
  refine search_leads.bind fun search => ?_
  refine Leads.bind (Q := fun _ s => (∀ result,
      (Relaxation.resolve search.relaxation search.domain).1 = .ok result →
        result.Tells g.model g.feastol s.search.domain) ∧ Attends g start held bounded s)
    (changeSearch_leads fun s hs => ?_) fun _ => ?_
  · obtain ⟨rfl, h⟩ := hs
    obtain ⟨hhonest, htells⟩ :=
      hg.contract.resolve _ s.search.domain h.cares.honest h.cares.model h.cares.whole
    exact ⟨htells, { h.cares with honest := hhonest }, h.holds, h.bound, h.below,
      h.givenUpBound⟩
  · exact Leads.lift.after fun result s hs => ⟨hs.2.1 result hs.1, hs.2.2⟩

theorem recover_attends :
    Keeps (Attends g start held bounded) (recover : SearchStep Exact ρ σ η τ Bool) := by
  refine search_leads.bind fun search => Leads.bind (Q := fun _ => Attends g start held bounded)
    (changeSearch_leads fun s hs => ?_) fun _ => Keeps.pure
  obtain ⟨rfl, h⟩ := hs
  exact ⟨{ h.cares with honest := hg.contract.recover _ h.cares.honest }, h.holds, h.bound,
    h.below, h.givenUpBound⟩

end Relaxation

section Analysis

/-- A conflict that holds at the point may be learned. -/
theorem learn_attends {d : Domain Exact} {conflict : List (BoundChange Exact)}
    (hholds : ConflictHoldsAt conflict g.point)
    (hlogged : ∀ l ∈ conflict, ∃ entry ∈ d.log, entry.change = l) :
    Keeps (fun s => s.search.domain = d ∧ Attends g start held bounded s)
      (learn conflict : SearchStep Exact ρ σ η τ Unit) := by
  refine Leads.ite (fun hempty => ?_) fun _ => ?_
  · obtain ⟨l, hl, -⟩ := hholds
    rw [List.isEmpty_iff.mp hempty] at hl
    cases hl
  refine shared_leads.bind fun shared => Leads.lift.bind fun result => ?_
  refine Leads.bind (Q := fun _ s => s.search.domain = d ∧ Attends g start held bounded s)
    (Leads.modify fun s hs => ?_) fun _ =>
      Leads.ite (fun _ => changeConflictStatistics_aloof
        (attends_aloof.over d) _) fun _ => Keeps.pure
  obtain ⟨hlearn, rfl, rfl, h⟩ := hs
  simp only [Shared.learn, Pools.onConflicts, Pools.conflictPool, bind_eq_ok, pure_eq_ok] at hlearn
  obtain ⟨_, ⟨pool, hpool, conflicts, hstore, rfl⟩, rfl⟩ := hlearn
  have hwhole : (Operation.addConflict s.shared.conflictPool conflict).Informs s.propagation := by
    intro l hl
    obtain ⟨entry, hentry, rfl⟩ := hlogged l hl
    obtain ⟨p, hp⟩ := Array.mem_iff_getElem?.mp hentry
    exact ⟨h.cares.regards.sound.domain.traced.column_lt hp, h.cares.regards.integers entry hentry⟩
  have hperform : (Operation.addConflict s.shared.conflictPool conflict).perform s.propagation =
      .ok ⟨{ s.shared.pools with conflicts := conflicts }, s.search.domain⟩ := by
    simp only [Operation.perform, PropagationState.onConflictPool, Pools.onConflicts,
      Pools.conflictPool, bind_eq_ok, pure_eq_ok]
    exact ⟨_, ⟨pool, hpool, conflicts, hstore, rfl⟩, rfl⟩
  have hcares := h.cares.onto hwhole hholds (by simp) hperform
  exact ⟨rfl, hcares, h.holds, h.bound, h.below, h.givenUpBound⟩

/-- What is learned from an infeasibility, or from a proof that holds at the point, holds there. -/
theorem analyse_attends [Relaxation ρ Exact] (hg : g.Valid) {proof : Option (Inequality Exact)}
    (hproof : ∀ i, proof = some i →
      Entries g.model.columns.size (i.entries : List (ColumnId × Exact)) ∧ i.HoldsAt g.point) :
    Keeps (Attends g start held bounded) (analyse proof : SearchStep Exact ρ σ η τ Unit) := by
  refine domain_leads.bind fun d => ?_
  let At : SearchState Exact ρ σ η τ → Prop := fun s =>
    s.search.domain = d ∧ Attends g start held bounded s
  have hcount (f : ConflictStatistics → Checked ConflictStatistics) :
      Keeps At (changeConflictStatistics f : SearchStep Exact ρ σ η τ Unit) :=
    changeConflictStatistics_aloof (attends_aloof.over d) f
  refine Leads.mono (P := At) (Q := fun _ => At) ?_ (fun s hs => ⟨hs.1.symm, hs.2⟩)
    fun _ _ hs => hs.2
  refine shared_leads.bind fun shared => Leads.lift.bind fun set => ?_
  cases set with
  | none => exact (hcount _).before fun s hs => hs.2.2
  | some set =>
      refine shared_keeps.bind fun _ => Leads.lift.bind fun resolution => Leads.fix fun s₀ hs₀ => ?_
      obtain ⟨hresolution, hset, rfl, hs₀⟩ := hs₀
      obtain ⟨rfl, h⟩ := hs₀
      have hlearned : ∀ conflict ∈ resolution.conflicts, ConflictHoldsAt conflict g.point := by
        obtain ⟨draft, hbuilt⟩ := hg.built
        have hproof' : ∀ i, proof = some i →
            Entries s₀.search.domain.model.columns.size (i.entries : List (ColumnId × Exact)) ∧
              i.HoldsAt g.point :=
          fun i hi => ⟨h.cares.model.symm ▸ (hproof i hi).1, (hproof i hi).2⟩
        exact h.cares.regards.learned
          (fun r row hrow => Draft.nonzero_of_build hbuilt (h.cares.model ▸ hrow)) hproof' hset
          hresolution
      have hlearn : Keeps At (resolution.conflicts.forM learn : SearchStep Exact ρ σ η τ Unit) :=
        Keeps.forM_mem fun conflict hconflict => learn_attends (hlearned conflict hconflict)
          (Domain.computeConflicts_logged hresolution conflict hconflict)
      have hrest : Keeps At (do
          if resolution.conflicts.isEmpty then
            changeConflictStatistics fun s => return { s with failures := ← count 64 s.failures 1 }
          resolution.conflicts.forM learn : SearchStep Exact ρ σ η τ Unit) :=
        Leads.ite (fun _ => (hcount _).bind fun _ => hlearn) fun _ => hlearn
      refine Leads.before (P := At) ?_ (by rintro _ rfl; exact ⟨rfl, h⟩)
      dsimp only
      split
      · exact (notify_aloof (attends_aloof.over _) _).bind fun _ => hrest
      · exact hrest

end Analysis

end SearchStep

end BranchBound
