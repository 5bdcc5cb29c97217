import BranchBound.Proofs.Coverage.Structure
import BranchBound.Proofs.Coverage.Tree
import BranchBound.Proofs.Implication.Probing
import BranchBound.Proofs.OrbitalFixing

/-!
# Roots that keep all feasible points

Before the first decision everything that a domain is told or tightened to holds at all feasible
points: what is detected in the rows, what propagation derives, the values that probing leaves to a
binary column, and what the symmetries of the feasible points say of the columns of an orbit. So the
domain of a root is never called infeasible while there is a feasible point, and the relaxation of
the root bounds the objective values of all of them.
-/

namespace BranchBound

open Checked Exact

variable {ρ σ η τ : Type} {g : Target ρ}

namespace PropagationState

/-- No decision was made, and all feasible points are regarded. -/
structure Accepts (g : Target ρ) (s : PropagationState Exact) : Prop where
  regards : ∀ x, g.model.Feasible x → s.Regards g.anchor g.feastol x
  model : s.domain.model = g.model
  levels : s.domain.branchings = #[]
  noCuts : s.PooledCuts fun _ => False

namespace Accepts

variable {s s' : PropagationState Exact} {pools pools' : Pools Exact} {d d' : Domain Exact}
  {x : Point}

/-- The feasible points are in the box. -/
theorem allows (h : s.Accepts g) (hx : g.model.Feasible x) : s.Allows x := by
  have hglobal := (h.regards x hx).global
  rw [Domain.globalLength_of_no_levels h.levels] at hglobal
  exact (h.regards x hx).allows hglobal

theorem feasible (h : s.Accepts g) (hx : g.model.Feasible x) : s.domain.infeasible = none :=
  (h.allows hx).feasible (h.regards x hx).sound

/-- Propagation keeps all feasible points. -/
theorem advances (h : s.Accepts g) (hadvances : Advances s s') : s'.Accepts g := by
  induction hadvances with
  | refl => exact h
  | tail _ hadvance ih =>
      refine ⟨fun x hx => (ih.regards x hx).advance hadvance, ?_, ?_, ?_⟩
      · exact hadvance.setting.model.trans ih.model
      · exact hadvance.deepened.branchings.trans ih.levels
      · exact fun i pool id cut hpool => ih.noCuts i pool id cut (hadvance.contents.cuts ▸ hpool)

/-- A domain may be told what holds at all feasible points. -/
theorem tell (h : s.Accepts g) (op : Operation Exact) (hmoves : op.movesBounds = false)
    (hinforms : op.Informs s) (hrespects : ∀ x, g.model.Feasible x → op.Respects g.anchor x s)
    (hinsert : ∀ pool cut ageLimit, op ≠ .insertCut pool cut ageLimit)
    (hperform : op.perform s = .ok s') : s'.Accepts g := by
  have hstill := Operation.still hmoves hperform
  refine ⟨fun x hx => (h.regards x hx).perform hinforms (hrespects x hx) hperform, ?_, ?_, ?_⟩
  · exact hstill.model.trans h.model
  · exact (congrArg Trail.branchings hstill.trail).trans h.levels
  · exact h.noCuts.perform (fun pool cut ageLimit heq => hinsert pool cut ageLimit heq) hperform

/-- A bound may be tightened to what holds at all feasible points. -/
theorem changeBound (h : Accepts g ⟨pools, d⟩) {change : BoundChange Exact}
    (hvalue : ∃ k : ℤ, change.value = number k)
    (hholds : ∀ x, g.model.Feasible x → change.HoldsAt x)
    (hchange : d.changeBound change .unknown = .ok d') : Accepts g ⟨pools, d'⟩ := by
  have hdeepened := Domain.changeBound_deepened hchange (by simp)
  refine ⟨fun x hx => (h.regards x hx).changeBound ⟨.inr rfl, hvalue⟩ (.inr (.inr (hholds x hx)))
    hchange,
    ?_, hdeepened.branchings.trans h.levels, h.noCuts⟩
  exact (Domain.changeBound_sameSetting hchange).model.trans h.model

/-- A column may be fixed to the value that it has at all feasible points. -/
theorem fixColumn (h : Accepts g ⟨pools, d⟩) {c : ColumnId} {value : Exact}
    (hvalue : ∃ k : ℤ, value = number k)
    (hholds : ∀ x, g.model.Feasible x → value = number (x c : ℚ))
    (hfix : d.fixColumn c value .unknown = .ok d') : Accepts g ⟨pools, d'⟩ := by
  refine Domain.fixColumn_keeps (P := fun e => Accepts g ⟨pools, e⟩)
    (fun e e' change hchange he hchanged => ?_) hfix h
  rcases hchange with rfl | rfl
  · refine he.changeBound hvalue (fun x hx => ?_) hchanged
    rw [hholds x hx]
    exact Exact.le_refl (by simp [BoundChange.atLeast])
  · refine he.changeBound hvalue (fun x hx => ?_) hchanged
    rw [hholds x hx]
    exact Exact.le_refl (by simp [BoundChange.atMost])

/-- The domain of a model with empty pools accepts all feasible points. -/
theorem ofModel [Relaxation ρ Exact] (hg : g.Valid) (hanchor : g.anchor = .ofModel g.model)
    (hd : Domain.ofModel g.model (number g.feastol) = .ok d) : Accepts g ⟨.empty, d⟩ := by
  obtain ⟨draft, hbuilt⟩ := hg.built
  have hstart : Reachable (fun s op => op.Informs s) g.model (number g.feastol)
    ⟨.empty, d⟩ := .start hd
  obtain ⟨hsound, hjustified⟩ :=
    hstart.justified hbuilt hg.integer hg.positive hg.below fun _ _ _ hop => hop
  obtain ⟨-, -, -, hmodel, -⟩ := Domain.ofModel_untold hd
  obtain ⟨hlog, hbranchings, -⟩ := Domain.ofModel_record hd
  refine ⟨fun x hx => ?_, hmodel, hbranchings,
    fun i pool id cut hpool => by simp [Pools.empty] at hpool⟩
  exact
    { below := hg.below
      whole := hmodel ▸ Draft.wholeBounds_of_build hbuilt hg.integer
      sound := hanchor ▸ hsound
      anchored := by
        rw [hanchor]
        exact Nat.zero_le _
      justified := hjustified
      leveled := hstart.leveled
      integers := fun entry hentry => by simp [hlog] at hentry
      spares := (Keeps.ofModel hx hd).spares
      inModel := hmodel ▸ hx.inModel
      global := fun q entry _ hentry => by simp [hlog] at hentry }

/-- What was consulted about fixings is consulted rightly. -/
theorem faithful [Relaxation ρ Exact] (h : s.Accepts g) (hg : g.Valid) {i : Implications Exact}
    (hknown : ∀ x, g.model.Feasible x → i.KnownAt x) :
    Implications.Faithful g.model g.feastol i s where
  sound := ⟨g.anchor, (h.regards _ hg.feasible).sound⟩
  model := h.model
  keeps := fun x hx => ⟨(h.regards x hx).spares, (h.allows hx).domain.box⟩
  known := hknown

end Accepts

end PropagationState

/-! ### Detection -/

/-- What was not detected yet: neither cliques nor variable bounds, and the objective is not set
up. -/
structure Domain.Untold (d : Domain Exact) : Prop where
  cliques : d.cliques = none
  variableBounds : d.variableBounds = none
  objective : d.objective = none

/-- Of an advance of one domain another one only sees what happens to the pools. -/
theorem Advances.beside {s s' : PropagationState Exact} (h : Advances s s') (d : Domain Exact) :
    Advances ⟨s.pools, d⟩ ⟨s'.pools, d⟩ := by
  induction h with
  | refl => exact .refl
  | tail _ hadvance ih =>
      cases hadvance with
      | renew hrenew => exact ih.tail (.renew hrenew)
      | requeue _ | refresh _ | readCuts _ _ _ | readConflicts _ _ _
      | change _ _ _ | refute _ => exact ih

/-- What is detected in an untold domain holds at all feasible points. -/
theorem PropagationState.Accepts.detect [Relaxation ρ Exact] (hg : g.Valid) {pools : Pools Exact}
    {d ready : Domain Exact}
    (h : Accepts g ⟨pools, d⟩) (huntold : d.Untold) {found : Nat} {cliques : CliqueTable}
    (hextract : (CliqueTable.extract d).finish (.empty d.columnCount) = .ok (found, cliques))
    {columns : List ColumnId} (hcolumns : ∀ c ∈ columns, c < d.model.columns.size)
    {parts : List (List ColumnId)} (hparts : cliques.partition columns = .ok parts)
    (hready : (d.setCliques cliques).setupObjective parts = .ok ready)
    {bounds : VariableBounds Exact}
    (hbounds : VariableBounds.detect ready = .ok bounds) :
    Accepts g ⟨pools, ready.setVariableBounds bounds⟩ := by
  have hsound : d.Sound g.anchor g.feastol := (h.regards _ hg.feasible).sound.domain
  have hcount : d.columnCount = d.model.columns.size := hsound.settled.coherent.bounds_size .lower
  rw [hcount] at hextract
  have hextracted :=
    CliqueTable.extract_extracted hsound.boxed (fun row hrow => hsound.readsRow hrow) hextract
  have hcliques : ∀ x, g.model.Feasible x → cliques.HoldsAt x := fun x hx =>
    hsound.extract_holds (h.allows hx).domain.toAdmits hextract
  have hwith : Accepts g ⟨pools, d.setCliques cliques⟩ :=
    h.tell (.setCliques cliques) rfl ⟨huntold.cliques, hextracted.made⟩ hcliques (by simp) rfl
  have hparted := (hextracted.indexed.partition_returns hcolumns).of_eq_ok hparts
  have hover {d' : Domain Exact} {o : ObjectivePropagation Exact}
      (hsetup : (d.setCliques cliques).setupObjective parts = .ok d')
      (ho : d'.objective = some o) :=
    Domain.setupObjective_over (d := d.setCliques cliques) (t := cliques)
      ⟨hextracted.made, hextracted.indexed, hextracted.free⟩ huntold.objective hparted.related
        hsetup ho
  have hset : Accepts g ⟨pools, ready⟩ := by
    refine hwith.tell (.setupObjective parts) rfl ⟨huntold.objective, ?_⟩ ?_ (by simp) ?_
    · intro d' o hsetup ho c i hi hone
      exact absurd hone (hsound.not_one_of_isFree (h.allows hg.feasible).domain.box
        ((hover hsetup ho).1 c i hi))
    · intro x hx d' o hsetup ho
      obtain ⟨-, hcutoff, hchooses⟩ := hover hsetup ho
      refine ⟨hchooses x (hcliques x hx), ?_⟩
      rw [hcutoff]
      rfl
    · rw [Operation.perform, PropagationState.onDomain_eq_ok]
      exact ⟨ready, hready, rfl⟩
  have hready := Domain.setupObjective_eq_ok hready
  have hbuilt : ∃ draft : Draft Exact, draft.build = .ok ready.model := hset.model ▸ hg.built
  obtain ⟨draft, hbuilt⟩ := hbuilt
  refine hset.tell (.setVariableBounds bounds) rfl ⟨?_, ?_⟩ (fun x hx => ?_) (by simp) rfl
  · rw [hready]
    exact huntold.variableBounds
  · exact VariableBounds.detect_made hbounds
  · exact VariableBounds.detect_holds (hset.regards x hx).sound.domain hbuilt
      (hset.allows hx).domain.toAdmits hbounds

/-! ### Symmetries -/

namespace Model

/-- A generator maps feasible points to feasible points. -/
def Permits (m : Model Exact) (generator : List ColumnId) : Prop :=
  ∀ x, m.Feasible x → m.Feasible fun c => x (generator[c]?.getD c)

/-- The feasible points as assignments. -/
def solutions (m : Model Exact) : Set Assignment := {y | ∃ x, m.Feasible x ∧ x.assignment = y}

/-- A permutation that maps feasible points to feasible points maps them onto themselves. -/
theorem Permits.image_eq {m : Model Exact} {generator : List ColumnId} (h : m.Permits generator)
    {n : Nat}
    (hperm : generator.Perm (List.range n)) :
    Symmetry.permuted generator '' m.solutions = m.solutions :=
  Symmetry.permuted_image hperm fun _ ⟨_, hx, hy⟩ => ⟨_, h _ hx, by rw [← hy]; rfl⟩

end Model

namespace PropagationState.Accepts

variable {pools : Pools Exact} {d : Domain Exact}

/-- Fixing the columns of an orbit keeps all feasible points. -/
theorem fixOrbit {state state' : Nat × Domain Exact} {orbit : List ColumnId}
    (h : Accepts g ⟨pools, state.2⟩)
    (hzero : ∀ c ∈ orbit, ∀ c' ∈ orbit, (∀ x, g.model.Feasible x → x c = 0) →
      ∀ x, g.model.Feasible x → x c' = 0)
    (hfix : Symmetry.fixOrbit state orbit = .ok state') : Accepts g ⟨pools, state'.2⟩ := by
  obtain ⟨fixed, e⟩ := state
  simp only [Symmetry.fixOrbit, bind_eq_ok] at hfix
  obtain ⟨binary, hbinary, hfix⟩ := hfix
  split at hfix
  · cases hfix
    exact h
  · next hall =>
      obtain ⟨hasZero, hhas, hfix⟩ := bind_eq_ok.mp hfix
      split at hfix
      · next hsome =>
          obtain rfl : binary = true := by simpa using hall
          subst hsome
          obtain ⟨c, hc, hupper⟩ := someHolds_eq_ok hhas
          simp only [bind_eq_ok, pure_eq_ok] at hupper
          obtain ⟨upper, hbound, hupper⟩ := hupper
          rw [Domain.boundValue_eq_ok hbound] at hupper
          have hbinary {c : ColumnId} (hc : c ∈ orbit) : g.model.Binary c :=
            h.model ▸ Domain.isBinary_eq_ok.mp (allHold_eq_ok hbinary c hc)
          -- no feasible point has more than zero in the column that is fixed to zero
          have hat : ∀ x, g.model.Feasible x → x c = 0 := by
            intro x hx
            obtain ⟨column, hcolumn, -⟩ := hbinary hc
            have hlt : c < e.model.columns.size :=
              h.model ▸ (Array.getElem?_eq_some_iff.mp hcolumn).1
            have hle : number (x c : ℚ) ≤ e.values .upper c := (h.allows hx).domain.box .upper c hlt
            rw [(equal_iff.mp hupper).1] at hle
            refine (hx.binary (hbinary hc)).resolve_right fun hone => ?_
            rw [hone] at hle
            exact absurd hle (by decide +kernel)
          refine foldlM_keeps (P := fun state : Nat × Domain Exact => Accepts g ⟨pools, state.2⟩)
            (fun state c' state' hc' hstate hstep => ?_) hfix h
          simp only [Symmetry.fixColumns, bind_eq_ok] at hstep
          obtain ⟨_, -, hstep⟩ := hstep
          split at hstep
          · simp only [bind_eq_ok, pure_eq_ok] at hstep
            obtain ⟨_, hchange, rfl⟩ := hstep
            refine hstate.changeBound ⟨0, by simp [BoundChange.atMost]⟩ (fun x hx => ?_) hchange
            exact Assignment.holds_atMost_zero (y := x.assignment) (by
              rw [Point.assignment, hzero c hc c' hc' hat x hx, Int.cast_zero])
          · cases hstep
            exact hstate
      · cases hfix
        exact h

/-- So do all orbits of generators that map feasible points to feasible points. -/
theorem orbitalFixing {n fixed : Nat} {generators : List (List ColumnId)} {d' : Domain Exact}
    (h : Accepts g ⟨pools, d⟩) (hgenerators : ∀ generator ∈ generators, g.model.Permits generator)
    (hfix : (Symmetry.ofGenerators n generators).orbitalFixing d = .ok (fixed, d')) :
    Accepts g ⟨pools, d'⟩ := by
  refine foldlM_keeps (P := fun state : Nat × Domain Exact => Accepts g ⟨pools, state.2⟩)
    (fun state orbit state' horbit hstate hstep => ?_) hfix h
  refine hstate.fixOrbit (fun c hc c' hc' hat x hx => ?_) hstep
  have himage : ∀ generator ∈ (Symmetry.ofGenerators n generators).generators,
      Symmetry.permuted generator '' g.model.solutions = g.model.solutions := fun generator hmem =>
    (hgenerators generator (List.mem_filter.mp hmem).1).image_eq
      (Symmetry.perm_of_mem_generators hmem)
  have hzero := (Symmetry.mem_orbits_iff.mp horbit).eq_zero himage hc hc' (by
    rintro _ ⟨y, hy, rfl⟩
    rw [Point.assignment, hat y hy, Int.cast_zero]) _ ⟨x, hx, rfl⟩
  rw [Point.assignment] at hzero
  exact_mod_cast hzero

end PropagationState.Accepts

/-! ### The invariant of a root -/

/-- The domain of a root accepts all feasible points, its relaxation keeps its contract, and nothing
is separated. -/
structure RootState.Minds (g : Target ρ) (r : RootState Exact ρ σ η τ) : Prop where
  accepts : r.propagation.Accepts g
  honest : g.honest r.relaxation
  separators : r.shared.separation.separators = []
  fits : r.shared.incumbent.Fits g.model g.feastol

/-- Propagation detects nothing. -/
theorem Advance.untold {a : Domain.Anchor} {f : ℚ} {s s' : PropagationState Exact}
    (hs : s.Sound a f)
    (hadvance : Advance s s') (h : s.domain.Untold) : s'.domain.Untold := by
  have hsetting := hadvance.setting
  refine ⟨hsetting.cliques.trans h.cliques, hsetting.variableBounds.trans h.variableBounds, ?_⟩
  have hnone {d d' : Domain Exact} (hdemand : d'.demand = d.demand) (hd : d.objective = none) :
      d'.objective = none := by
    rw [Domain.demand, Domain.demand, hd, Option.map_none, Option.map_eq_none_iff] at hdemand
    exact hdemand
  cases hadvance with
  | requeue hrequeued => exact hnone hrequeued.sameConstraints.demand h.objective
  | refresh hrefresh =>
      rw [Domain.refreshActivity_eq_ok hrefresh]
      exact h.objective
  | @change pools d d' changes hderived hchanges =>
      refine (Domain.changeBounds_keeps (P := fun e : Domain Exact => e.Sound a f ∧
        e.objective = none)
        (fun e e' y hy he hchange => ?_) hchanges ⟨hs.domain, h.objective⟩).2
      have hnan : y.1.value ≠ nan :=
        Exact.derives_any _ _ _ _ hs.settled.domain hs.settled.literals rfl (hderived y hy)
      have hcarried := (Domain.changeBound_settled he.1.settled hnan hchange).2.carried
      exact ⟨he.1.changeBound hnan hchange, hcarried.objective_none he.2⟩
  | refute _ => exact hnone (Domain.markInfeasible_sameConstraints _ _).demand h.objective
  | readCuts _ _ _ | readConflicts _ _ _ | renew _ => exact h.objective

/-- Two roots which differ in what was counted and noted. -/
structure RootState.Akin (r r' : RootState Exact ρ σ η τ) : Prop where
  domain : r'.domain = r.domain
  relaxation : r'.relaxation = r.relaxation
  pools : r'.shared.pools = r.shared.pools
  separation : r'.shared.separation = r.shared.separation
  incumbent : r'.shared.incumbent = r.shared.incumbent

namespace RootStep

variable {β : Type} {P : RootState Exact ρ σ η τ → Prop} {r r' : RootState Exact ρ σ η τ}

/-- What does not depend on what was counted and noted. -/
def Aloof (P : RootState Exact ρ σ η τ → Prop) : Prop := ∀ r r', P r → r.Akin r' → P r'

theorem minds_aloof : Aloof (RootState.Minds g : RootState Exact ρ σ η τ → Prop) := by
  intro r r' h hakin
  have hpropagation : r'.propagation = r.propagation := by
    rw [RootState.propagation, RootState.propagation, hakin.domain, hakin.pools]
  exact ⟨hpropagation ▸ h.accepts, hakin.relaxation ▸ h.honest, hakin.separation ▸ h.separators,
    hakin.incumbent ▸ h.fits⟩

theorem Aloof.over (hP : Aloof P) (d : Domain Exact) : Aloof fun r => r.domain = d ∧ P r :=
  fun _ _ h hakin => ⟨hakin.domain.trans h.1, hP _ _ h.2 hakin⟩

theorem Aloof.given (hP : Aloof P) (p : Prop) : Aloof fun r => p ∧ P r :=
  fun _ _ h hakin => ⟨h.1, hP _ _ h.2 hakin⟩

theorem notify_aloof (hP : Aloof P) (notice : Notice Exact) :
    Leads P (notify notice) fun _ => P :=
  Leads.modify fun _ h => hP _ _ h ⟨rfl, rfl, rfl, rfl, rfl⟩

theorem changeStatistics_aloof (hP : Aloof P) (f : RootStatistics → Checked RootStatistics) :
    Leads P (changeStatistics f) fun _ => P :=
  Leads.get.knowing fun _ _ => Leads.lift.knowing fun _ _ =>
    Leads.modify fun _ h => hP _ _ h ⟨rfl, rfl, rfl, rfl, rfl⟩

theorem changeDomain_aloof {Q : RootState Exact ρ σ η τ → Prop} (hQ : Aloof Q)
    {f : Domain Exact → Checked (Domain Exact)}
    (h : ∀ r d, P r → f r.domain = .ok d → Q { r with domain := d }) :
    Leads P (changeDomain f) fun _ => Q := by
  refine Leads.read.bind fun before => Leads.lift.knowing fun after hafter => ?_
  refine Leads.bind (Q := fun _ => Q) (Leads.modify fun r hr => ?_) fun _ => ?_
  · obtain ⟨rfl, hr⟩ := hr
    exact h _ _ hr hafter
  · refine Leads.read.bind fun now => Leads.modify fun r hr => ?_
    obtain ⟨rfl, hr⟩ := hr
    exact hQ _ _ hr ⟨rfl, rfl, rfl, rfl, rfl⟩

/-- Propagation keeps all feasible points, so the domain stays feasible. -/
theorem propagate_minds [Relaxation ρ Exact] (hg : g.Valid) :
    Leads (RootState.Minds g : RootState Exact ρ σ η τ → Prop) propagate
      fun isFeasible r => isFeasible = true ∧ RootState.Minds g r := by
  refine Leads.read.bind fun before => Leads.lift.bind fun result => ?_
  refine Leads.bind (Q := fun _ r => RootState.Minds g { r with domain := result.2 }) ?_ fun _ => ?_
  · refine Leads.modify fun r hr => ?_
    obtain ⟨hresult, rfl, h⟩ := hr
    simp only [Shared.propagate, bind_eq_ok, pure_eq_ok] at hresult
    obtain ⟨⟨pools, after⟩, hpropagate, rfl⟩ := hresult
    exact ⟨h.accepts.advances (Domain.propagate_advances hpropagate),
      h.honest, h.separators, h.fits⟩
  · refine Leads.bind (Q := fun _ r => r.domain = result.2 ∧ RootState.Minds g r)
      (Leads.modify fun r hr => ⟨rfl, hr⟩) fun _ => Leads.pure fun r hr => ?_
    obtain ⟨hdomain, h⟩ := hr
    have hnone : r.domain.infeasible = none := h.accepts.feasible hg.feasible
    refine ⟨?_, h⟩
    rw [← hdomain, Domain.isInfeasible, hnone]
    rfl

theorem propagate_untold [Relaxation ρ Exact] (hg : g.Valid) :
    Leads (fun r : RootState Exact ρ σ η τ => RootState.Minds g r ∧ r.domain.Untold) propagate
      fun _ r => r.domain.Untold := by
  refine Leads.get.knowing fun before hbefore => Leads.lift.knowing fun result hresult => ?_
  simp only [Shared.propagate, bind_eq_ok, pure_eq_ok] at hresult
  obtain ⟨⟨pools, after⟩, hpropagate, rfl⟩ := hresult
  have hadvances := Domain.propagate_advances hpropagate
  have hafter : after.Untold := by
    have hall : ∀ s, Advances ⟨before.shared.pools, before.domain⟩ s → s.domain.Untold := by
      intro s hs
      induction hs with
      | refl => exact hbefore.2
      | tail hlead hadvance ih =>
          exact hadvance.untold ((hbefore.1.accepts.advances hlead).regards _ hg.feasible).sound ih
    exact hall _ hadvances
  refine Leads.bind (Q := fun _ _ => True) (Leads.modify fun _ _ => trivial) fun _ => ?_
  exact Leads.bind (Q := fun _ r => r.domain.Untold) (Leads.modify fun _ _ => hafter) fun _ =>
    Leads.pure fun _ hr => hr

/-- Everything that is detected holds at all feasible points. -/
theorem detectStructure_minds [Relaxation ρ Exact] (hg : g.Valid) :
    Leads (fun r : RootState Exact ρ σ η τ => RootState.Minds g r ∧ r.domain.Untold) detectStructure
      fun i r => i.known = [] ∧ RootState.Minds g r := by
  refine Leads.read.bind fun before => ?_
  let At (r : RootState Exact ρ σ η τ) : Prop := r.domain = before.domain ∧ RootState.Minds g r
  have haloof : Aloof At := minds_aloof.over _
  by_cases huntold : before.domain.Untold
  · refine Leads.before (P := At) ?_ fun r hr => ⟨congrArg RootState.domain hr.1.symm, hr.2.1⟩
    refine Leads.lift.knowing fun found hfound => (notify_aloof haloof _).bind fun _ =>
      (changeStatistics_aloof haloof _).bind fun _ => ?_
    refine Leads.lift.knowing fun withCost hwithCost => Leads.lift.knowing fun parts hparts =>
      Leads.lift.knowing fun ready hready => Leads.lift.knowing fun bounds hbounds => ?_
    refine Leads.bind (Q := fun _ => RootState.Minds g) (Leads.modify fun r hr => ?_) fun _ =>
      Leads.pure fun r hr => ⟨rfl, hr⟩
    obtain ⟨hdomain, h⟩ := hr
    have haccepts : PropagationState.Accepts g ⟨r.shared.pools, before.domain⟩ :=
      hdomain ▸ h.accepts
    refine ⟨haccepts.detect hg huntold hfound (fun c hc => ?_) hparts hready hbounds, h.honest,
      h.separators, h.fits⟩
    exact List.mem_range.mp (mem_keepIf hwithCost hc).1
  · intro r i r' hr
    exact absurd (hr.1 ▸ hr.2.2) huntold

section Probing

/-- Asking what follows from fixing a column changes nothing but the ages of conflicts. -/
theorem consequences_minds (i : Implications Exact) (c : ColumnId) (value : Bool) :
    Leads (RootState.Minds g : RootState Exact ρ σ η τ → Prop) (consequences i c value)
      fun _ => RootState.Minds g := by
  refine Leads.read.bind fun before => Leads.lift.knowing fun result hresult => ?_
  refine Leads.bind (Q := fun _ r => _) (Leads.modify fun r hr => ?_)
    fun _ => Leads.pure fun _ h => h
  obtain ⟨rfl, h⟩ := hr
  have hadvances : Advances ⟨before.shared.pools, before.domain⟩ ⟨result.2.2, before.domain⟩ := by
    rcases Implications.consequences_eq_ok (Action.finish_eq_ok.mp hresult) with
      ⟨-, -, hpools⟩ | ⟨_, hprobe, -⟩
    · rw [hpools]
    · obtain ⟨copy, -, hpropagate⟩ := Implications.probe_eq_ok.mp hprobe
      exact (Domain.propagate_advances hpropagate).beside before.domain
  exact ⟨h.accepts.advances hadvances, h.honest, h.separators, h.fits⟩

/-- A column may be fixed to the value that it has at all feasible points. -/
theorem fixColumn_minds {c : ColumnId} {value : Exact} (hvalue : ∃ k : ℤ, value = number k)
    (hholds : ∀ x, g.model.Feasible x → value = number (x c : ℚ)) :
    Leads (RootState.Minds g : RootState Exact ρ σ η τ → Prop)
      (changeDomain fun d => d.fixColumn c value .unknown) fun _ => RootState.Minds g :=
  changeDomain_aloof minds_aloof fun _ _ h hfix =>
    ⟨h.accepts.fixColumn hvalue hholds hfix, h.honest, h.separators, h.fits⟩

theorem minds_steady [Relaxation ρ Exact] (hg : g.Valid) :
    Steady g.model (RootState.Minds g : RootState Exact ρ σ η τ → Prop) where
  consequences := consequences_minds
  fixColumn := fun _ _ hvalue hholds => fixColumn_minds hvalue hholds
  propagate := fun r b r' hr hrun => (propagate_minds hg r b r' hr hrun).2
  notify := notify_aloof minds_aloof
  changeStatistics := changeStatistics_aloof minds_aloof

theorem probeColumns_minds [Relaxation ρ Exact] (hg : g.Valid) {i : Implications Exact}
    (hknown : i.known = []) :
    Leads (RootState.Minds g : RootState Exact ρ σ η τ → Prop) (probeColumns i)
      fun isFeasible r => isFeasible = true ∧ RootState.Minds g r := by
  intro r isFeasible r' hr hrun
  have hconsulted : ∀ x, g.model.Feasible x → i.KnownAt x := by
    intro x _ c value found hmem
    rw [hknown] at hmem
    cases hmem
  obtain ⟨⟨-, hnone⟩, hminds⟩ := probeColumns_keeps (minds_steady hg) r isFeasible r'
    ⟨hr.accepts.faithful hg hconsulted, hr⟩ hrun
  exact ⟨Bool.of_not_eq_false fun hinfeasible => hnone hinfeasible _ hg.feasible, hminds⟩

end Probing

section Relaxation

variable [Relaxation ρ Exact] (hg : g.Valid)

/-- The solution of a relaxation bounds the objective values of all feasible points. -/
def Bounding (g : Target ρ) (solution : RelaxationSolution Exact) : Prop :=
  ∀ x, g.model.Feasible x → solution.objective ≤ g.model.valueAt x

/-- What the relaxation of a root tells of the feasible points. -/
def Fair (g : Target ρ) : RelaxationResult Exact → Prop
  | .optimal solution => Bounding g solution
  | .infeasible _ => False
  | .unbounded | .numericalTrouble => True

include hg

theorem resolve_minds :
    Leads (RootState.Minds g : RootState Exact ρ σ η τ → Prop) resolve
      fun result r => Fair g result ∧ RootState.Minds g r := by
  refine Leads.read.bind fun before => ?_
  refine Leads.bind (Q := fun _ r =>
    (∀ result, (Relaxation.resolve before.relaxation before.domain).1 =
      .ok result → Fair g result) ∧ RootState.Minds g r) (Leads.modify fun r hr => ?_) fun _ => ?_
  · obtain ⟨rfl, h⟩ := hr
    have hregards := h.accepts.regards _ hg.feasible
    obtain ⟨hhonest, htells⟩ := hg.contract.resolve _ before.domain h.honest h.accepts.model
      fun side c =>
      hregards.sound.domain.values_whole hregards.whole hregards.integers.whole side c
    refine ⟨fun result hresult => ?_, h.accepts, hhonest, h.separators, h.fits⟩
    have hbox {x : Point} (hx : g.model.Feasible x) :
        before.domain.values.Contains g.model.columns.size x :=
      h.accepts.model ▸ (h.accepts.allows hx).domain.box
    cases result with
    | optimal solution => exact fun x hx => (htells _ hresult).least x hx (hbox hx)
    | infeasible proof => exact (htells _ hresult).1 _ hg.feasible (hbox hg.feasible)
    | unbounded | numericalTrouble => trivial
  · refine Leads.lift.knowing fun result hresult => ?_
    refine Leads.before (P := fun r => Fair g result ∧ RootState.Minds g r) ?_
      fun r hr => ⟨hr.1 result hresult, hr.2⟩
    cases result with
    | optimal solution =>
        exact (changeStatistics_aloof (minds_aloof.given _) _).bind fun _ => Leads.pure fun _ h => h
    | infeasible _ | unbounded | numericalTrouble => exact Leads.pure fun _ h => h

theorem resolveWithin_minds (budget : Nat) :
    Leads (RootState.Minds g : RootState Exact ρ σ η τ → Prop) (resolveWithin budget)
      fun result r => Fair g result ∧ RootState.Minds g r := by
  induction budget with
  | zero => exact resolve_minds hg
  | succ budget ih =>
      refine (resolve_minds hg).learning fun result hresult => ?_
      cases result with
      | optimal _ | infeasible _ | unbounded => exact Leads.pure fun _ h => ⟨hresult, h⟩
      | numericalTrouble =>
          refine Leads.read.bind fun before => ?_
          refine Leads.bind (Q := fun _ => RootState.Minds g) (Leads.modify fun r hr => ?_) fun _ =>
            Leads.ite (fun _ => ih) fun _ => Leads.pure fun _ h => ⟨trivial, h⟩
          obtain ⟨rfl, h⟩ := hr
          exact ⟨h.accepts, hg.contract.recover _ h.honest, h.separators, h.fits⟩

variable [Separator σ Exact]

omit hg in
/-- Without separators and cuts the solution stays as it is. -/
theorem separate_minds {solution : RelaxationSolution Exact} (hsolution : Bounding g solution)
    (round rounds : Nat) (cuts : List (CutId × Inequality Exact)) :
    Leads (RootState.Minds g : RootState Exact ρ σ η τ → Prop) (separate round cuts solution rounds)
      fun result r => Fair g result ∧ RootState.Minds g r := by
  cases rounds with
  | zero => exact Leads.pure fun _ h => ⟨hsolution, h⟩
  | succ rounds =>
      refine Leads.read.bind fun before => Leads.lift.knowing fun separated hseparated => ?_
      refine Leads.bind (Q := fun _ r => separated.1 = [] ∧ RootState.Minds g r)
        (Leads.modify fun r hr => ?_) fun _ => Leads.ite (fun _ => Leads.pure fun _ h =>
          ⟨hsolution, h.2⟩)
          fun hsome => ?_
      · obtain ⟨rfl, h⟩ := hr
        obtain ⟨hnone, hsame⟩ := Shared.separate_nothing h.separators h.accepts.noCuts hseparated
        rw [hsame]
        exact ⟨hnone, h⟩
      · intro r _ _ hr
        exact absurd (hr.1 ▸ rfl) hsome

theorem solveRelaxation_minds :
    Leads (RootState.Minds g : RootState Exact ρ σ η τ → Prop) solveRelaxation
      fun result r => Fair g result ∧ RootState.Minds g r := by
  refine Leads.get.knowing fun before _ =>
    (resolveWithin_minds hg _).learning fun result hresult => ?_
  cases result with
  | optimal solution => exact separate_minds hresult _ _ _
  | infeasible _ | unbounded | numericalTrouble => exact Leads.pure fun _ h => ⟨hresult, h⟩

variable [Proposer η Exact]

/-- A root is processed with a solution that bounds the objective values, or without one. -/
def Bounded (g : Target ρ) : RootResult Exact → Prop
  | .infeasible => False
  | .unbounded => True
  | .processed solution => ∀ s ∈ solution, Bounding g s

omit [Separator σ Exact] in
theorem conclude_minds {i : Implications Exact} (hknown : i.known = [])
    {solution : Option (RelaxationSolution Exact)} (hsolution : ∀ s ∈ solution, Bounding g s) :
    Leads (RootState.Minds g : RootState Exact ρ σ η τ → Prop) (conclude i solution)
      fun result r => Bounded g result ∧ RootState.Minds g r := by
  have hprobing : Leads (RootState.Minds g : RootState Exact ρ σ η τ → Prop) (do
      let isFeasible ←
        if (← get).shared.options.rootProbing then probeColumns i else pure true
      return if isFeasible then .processed solution else .infeasible)
      fun result r => Bounded g result ∧ RootState.Minds g r := by
    have hfinish (isFeasible : Bool) : Leads (fun r => isFeasible = true ∧ RootState.Minds g r)
        (pure (if isFeasible then .processed solution else .infeasible) : RootStep Exact ρ σ η τ _)
        fun result r => Bounded g result ∧ RootState.Minds g r :=
      Leads.pure fun r hr => by
        rw [hr.1]
        exact ⟨hsolution, hr.2⟩
    refine Leads.get.knowing fun before _ => Leads.ite (fun _ => ?_) fun _ => ?_
    · exact (probeColumns_minds hg hknown).bind hfinish
    · exact Leads.bind (Leads.pure fun _ h => ⟨rfl, h⟩) hfinish
  cases solution with
  | none => exact (notify_aloof minds_aloof _).bind fun _ => hprobing
  | some solution =>
      refine Leads.read.bind fun before => Leads.lift.knowing fun found hfound => ?_
      refine Leads.bind (Q := fun _ => RootState.Minds g) (Leads.modify fun r hr => ?_) fun _ =>
        (changeStatistics_aloof minds_aloof _).bind fun _ => hprobing
      obtain ⟨rfl, h⟩ := hr
      have himproves : before.shared.Improves g.model found.2 := .proposed h.accepts.model hfound
      obtain ⟨hpools, hseparation⟩ := himproves.beside
      refine ⟨?_, h.honest, hseparation ▸ h.separators, hg.fits himproves h.fits⟩
      have haccepts := h.accepts
      rw [RootState.propagation] at haccepts ⊢
      rw [hpools]
      exact haccepts

/-- Processing a root keeps all feasible points. -/
theorem process_minds :
    Leads (fun r : RootState Exact ρ σ η τ => RootState.Minds g r ∧ r.domain.Untold) process
      fun result r => Bounded g result ∧ RootState.Minds g r := by
  refine (detectStructure_minds hg).learning fun i hknown => (propagate_minds hg).learning
    fun isFeasible hfeasible => ?_
  subst hfeasible
  refine Leads.ite (fun hnot => absurd hnot (by simp)) fun _ => (solveRelaxation_minds hg).learning
    fun result hresult => ?_
  cases result with
  | optimal solution =>
      refine conclude_minds hg hknown fun s hs => ?_
      obtain rfl := Option.some.inj hs
      exact hresult
  | infeasible _ => exact hresult.elim
  | unbounded => exact Leads.pure fun _ h => ⟨trivial, h⟩
  | numericalTrouble => exact conclude_minds hg hknown nofun

end Relaxation

end RootStep

/-- Fixing columns by symmetries keeps all feasible points. -/
theorem Solver.useSymmetry_minds [Relaxation ρ Exact] (hg : g.Valid)
    {generators : List (List ColumnId)}
    (hgenerators : ∀ generator ∈ generators, g.model.Permits generator) :
    RootStep.Leads (RootState.Minds g : RootState Exact ρ σ η τ → Prop) (useSymmetry generators)
      fun isFeasible r => isFeasible = true ∧ RootState.Minds g r := by
  open RootStep in
  refine Leads.get.knowing fun _ _ => (notify_aloof minds_aloof _).bind fun _ =>
    Leads.read.bind fun before => Leads.lift.knowing fun fixed hfixed => ?_
  obtain ⟨fixed, d⟩ := fixed
  dsimp only
  refine Leads.bind (Q := fun _ => RootState.Minds g)
    (changeDomain_aloof minds_aloof fun r d' hr hd => ?_) fun _ =>
    Leads.ite (fun _ => (notify_aloof minds_aloof _).bind fun _ => ?_) fun _ => ?_
  · obtain ⟨rfl, h⟩ := hr
    cases hd
    exact ⟨h.accepts.orbitalFixing hgenerators hfixed, h.honest, h.separators, h.fits⟩
  · exact (changeStatistics_aloof minds_aloof _).bind fun _ => propagate_minds hg
  · exact (changeStatistics_aloof minds_aloof _).bind fun _ => propagate_minds hg

end BranchBound
