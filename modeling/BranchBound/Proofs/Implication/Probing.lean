import BranchBound.Proofs.Implication.Answers
import BranchBound.Proofs.Solver.Unrolling
import BranchBound.Proofs.Solver.VettedRoot

/-!
# Probing loses no feasible point

At the root each value of a binary column is asked for. If one of them is impossible, then the
column has the other one at all feasible points, and the domain is fixed to it and propagated before
the next column is asked for. So the root stays one that may be consulted, and if its domain becomes
infeasible, then there is no feasible point.
-/

namespace BranchBound

open Checked Exact

variable {ρ σ η τ : Type} {m : Model Exact} {f : ℚ}

/-- The domain of the root with the pools that it is propagated over. -/
def RootState.propagation {α : Type} (r : RootState α ρ σ η τ) : PropagationState α :=
  ⟨r.shared.pools, r.domain⟩

namespace RootStep

section Operations

variable {α : Type} {P : PropagationState α → Prop}

theorem changeDomain_leads [Scalar α] {Q : PropagationState α → Prop} {g : Domain α →
    Checked (Domain α)}
    (h : ∀ pools d d', P ⟨pools, d⟩ → g d = .ok d' → Q ⟨pools, d'⟩) :
    Leads (fun r : RootState α ρ σ η τ => P r.propagation) (changeDomain g)
      fun _ r => Q r.propagation := by
  refine Leads.read.bind fun before => Leads.lift.knowing fun after hafter => ?_
  refine Leads.bind (Q := fun _ r => Q r.propagation) (Leads.modify fun r hr => ?_) fun _ => ?_
  · obtain ⟨rfl, hr⟩ := hr
    exact h _ _ _ hr hafter
  · refine Leads.read.bind fun now => Leads.modify fun r hr => ?_
    obtain ⟨rfl, hr⟩ := hr
    exact hr

theorem propagate_leads [Scalar α] {Q : Bool → PropagationState α → Prop}
    (h : ∀ pools d pools' d', P ⟨pools, d⟩ → d.propagate pools = .ok (pools', d') →
      Q (!d'.isInfeasible) ⟨pools', d'⟩) :
    Leads (fun r : RootState α ρ σ η τ => P r.propagation) propagate
      fun isFeasible r => Q isFeasible r.propagation := by
  refine Leads.get.knowing fun before hbefore => Leads.lift.knowing fun result hresult => ?_
  simp only [Shared.propagate, bind_eq_ok, pure_eq_ok] at hresult
  obtain ⟨⟨pools, after⟩, hpropagate, rfl⟩ := hresult
  have hafter := h _ _ _ _ hbefore hpropagate
  refine Leads.bind (Q := fun _ r => r.shared.pools = pools)
    (Leads.modify fun _ _ => rfl) fun _ => ?_
  refine Leads.bind (Q := fun _ r => r.propagation = ⟨pools, after⟩) (Leads.modify fun r hr => ?_)
    fun _ => Leads.pure fun r hr => ?_
  · exact congrArg (fun pools => (⟨pools, after⟩ : PropagationState α)) hr
  · rw [hr]
    exact hafter

end Operations

open Implications

/-- The root may be consulted, and all answers that it knows are right. -/
abbrev Trusts (m : Model Exact) (f : ℚ) (i : Implications Exact) (r : RootState Exact ρ σ η τ) :
    Prop :=
  Faithful m f i r.propagation

variable {i : Implications Exact}

theorem consequences_trusts (c : ColumnId) (value : Bool) :
    Leads (Trusts m f i : RootState Exact ρ σ η τ → Prop) (consequences i c value) fun answer r =>
      (∀ x, m.Feasible x → BinaryLiteral.HoldsAt ⟨c, value⟩ x → answer.1.HoldAt x) ∧
        Trusts m f answer.2 r := by
  refine Leads.read.bind fun before => Leads.lift.knowing fun result hresult => ?_
  refine Leads.bind (Q := fun _ r => _) (Leads.modify fun r hr => ?_)
    fun _ => Leads.pure fun _ h => h
  obtain ⟨rfl, hr⟩ := hr
  obtain ⟨htrusts, hholds⟩ := hr.consult hresult
  exact ⟨hholds, htrusts⟩

/-- What the root is left with after some columns were probed. If it is called infeasible, then so
is the model. -/
def Probed (m : Model Exact) (f : ℚ) (isFeasible : Bool) (r : RootState Exact ρ σ η τ) : Prop :=
  (∃ i, Trusts m f i r) ∧ (isFeasible = false → ∀ x, ¬m.Feasible x)

/-- A column may be fixed to the value that it has at all feasible points. -/
theorem fixColumn_trusts {c : ColumnId} {value : Exact} (hnan : value ≠ nan)
    (hvalue : ∀ x, m.Feasible x → value = number (x c : ℚ)) :
    Leads (Trusts m f i : RootState Exact ρ σ η τ → Prop)
      (changeDomain fun d => d.fixColumn c value .unknown) fun _ => Trusts m f i := by
  refine changeDomain_leads fun pools d d' h hfix => ?_
  have hperform : Operation.perform ⟨pools, d⟩ (.fixColumn c value .unknown) = .ok ⟨pools, d'⟩ := by
    rw [Operation.perform, PropagationState.onDomain_eq_ok]
    exact ⟨d', hfix, rfl⟩
  have hop : Operation.ProperFor d.FixedToOne ⟨pools, d⟩ (.fixColumn c value .unknown) := hnan
  exact Faithful.perform h hop rfl hvalue hperform

theorem propagate_trusts :
    Leads (Trusts m f i : RootState Exact ρ σ η τ → Prop) propagate fun isFeasible r =>
      (isFeasible = false → ∀ x, ¬m.Feasible x) ∧ Trusts m f i r := by
  refine propagate_leads (P := Faithful m f i) (Q := fun isFeasible s =>
    (isFeasible = false → ∀ x, ¬m.Feasible x) ∧ Faithful m f i s) ?_
  intro pools d pools' d' h hpropagate
  have hperform : Operation.perform ⟨pools, d⟩ .propagate = .ok ⟨pools', d'⟩ := by
    simp only [Operation.perform, bind_eq_ok, pure_eq_ok]
    exact ⟨_, hpropagate, rfl⟩
  have hop : Operation.ProperFor d.FixedToOne ⟨pools, d⟩ .propagate := trivial
  have hafter : Faithful m f i ⟨pools', d'⟩ := h.perform hop rfl (fun _ _ => trivial) hperform
  refine ⟨fun hinfeasible x hx => ?_, hafter⟩
  have hnone : d'.infeasible = none := hafter.feasible hx
  rw [Domain.isInfeasible, hnone] at hinfeasible
  cases hinfeasible

/-- What the steps of probing keep besides, if columns are fixed only to what all feasible points
have. -/
structure Steady (m : Model Exact) (P : RootState Exact ρ σ η τ → Prop) : Prop where
  consequences : ∀ i c value, Leads P (consequences i c value) fun _ => P
  fixColumn : ∀ (c : ColumnId) (value : Exact), (∃ k : ℤ, value = number k) →
    (∀ x, m.Feasible x → value = number (x c : ℚ)) →
      Leads P (changeDomain fun d => d.fixColumn c value .unknown) fun _ => P
  propagate : Leads P propagate fun _ => P
  notify : ∀ notice, Leads P (notify notice) fun _ => P
  changeStatistics : ∀ f, Leads P (changeStatistics f) fun _ => P

section Probing

variable {P : RootState Exact ρ σ η τ → Prop} (hP : Steady m P)

include hP

/-- Probing binary columns keeps all feasible points. -/
theorem probe_probed {columns : List ColumnId} (hbinary : ∀ c ∈ columns, m.Binary c) (fixed : Nat) :
    Leads (fun r : RootState Exact ρ σ η τ => Trusts m f i r ∧ P r) (probe i fixed columns)
      fun result r => Probed m f result.isSome r ∧ P r := by
  induction columns generalizing i fixed with
  | nil => exact Leads.pure fun r hr => ⟨⟨⟨i, hr.1⟩, nofun⟩, hr.2⟩
  | cons c rest ih =>
      have hrest {i : Implications Exact} (fixed : Nat) :=
        ih (i := i) (fun k hk => hbinary k (List.mem_cons_of_mem _ hk)) fixed
      refine Leads.get.knowing fun before _ => Leads.lift.knowing fun isFixed _ =>
        Leads.ite (fun _ => hrest _) fun _ => ?_
      refine ((consequences_trusts c false).beside (hP.consequences i c false)).learning
        fun down hdown =>
        ((consequences_trusts c true).beside
          (hP.consequences down.2 c true)).learning fun up hup => ?_
      -- a column without one value has the other one
      have hfix (value : Exact) (hwhole : ∃ k : ℤ, value = number k)
          (hvalue : ∀ x, m.Feasible x → value = number (x c : ℚ)) :
          Leads (fun r => Trusts m f up.2 r ∧ P r) (do
              changeDomain fun d => d.fixColumn c value .unknown
              if ← propagate then probe up.2 (fixed + 1) rest else return none)
            fun result r => Probed m f result.isSome r ∧ P r := by
        have hnan : value ≠ nan := by
          obtain ⟨k, rfl⟩ := hwhole
          simp
        refine Leads.bind ((fixColumn_trusts hnan hvalue).and (hP.fixColumn c value hwhole hvalue))
          fun _ => (propagate_trusts.beside hP.propagate).learning fun isFeasible hnone => ?_
        refine Leads.ite (fun _ => hrest _) fun hinfeasible =>
          Leads.pure fun r hr => ⟨⟨⟨_, hr.1⟩, fun _ => ?_⟩, hr.2⟩
        exact hnone (Bool.eq_false_iff.mpr hinfeasible)
      have hbinary := hbinary c (List.mem_cons_self ..)
      obtain ⟨down, known⟩ := down
      obtain ⟨up, known'⟩ := up
      dsimp only at hdown hup hfix ⊢
      cases down with
      | error reason =>
          refine hfix 1 ⟨1, by simp⟩ fun x hx => ?_
          rw [(hx.binary hbinary).resolve_left (hdown x hx)]
          simp
      | ok changes =>
          cases up with
          | error reason =>
              refine hfix 0 ⟨0, by simp⟩ fun x hx => ?_
              rw [(hx.binary hbinary).resolve_right (hup x hx)]
              simp
          | ok changes' => exact hrest _

/-- Probing keeps all feasible points. -/
theorem probeColumns_keeps :
    Leads (fun r : RootState Exact ρ σ η τ => Trusts m f i r ∧ P r) (probeColumns i)
      fun isFeasible r => Probed m f isFeasible r ∧ P r := by
  refine Leads.get.knowing fun before hbefore => Leads.lift.knowing fun candidates hcandidates => ?_
  have hbinary : ∀ c ∈ candidates.take before.shared.options.maxProbingColumns, m.Binary c := by
    intro c hc
    obtain ⟨-, htest⟩ := mem_keepIf hcandidates (List.mem_of_mem_take hc)
    simp only [bind_eq_ok, pure_eq_ok, Bool.and_eq_true] at htest
    obtain ⟨isBinary, hisBinary, isFixed, -, rfl, -⟩ := htest
    exact hbefore.1.model ▸ Domain.isBinary_eq_ok.mp hisBinary
  refine (probe_probed hP hbinary 0).bind fun result => ?_
  cases result with
  | none => exact Leads.pure fun r hr => hr
  | some fixed =>
      have hnotice (notice : Notice Exact) : Leads (Probed m f true : RootState Exact ρ σ η τ →
        Prop)
          (notify notice) fun _ => Probed m f true := Leads.modify fun r hr => hr
      have hstatistics (g : RootStatistics → Checked RootStatistics) :
          Leads (Probed m f true : RootState Exact ρ σ η τ → Prop) (changeStatistics g)
            fun _ => Probed m f true :=
        Leads.get.knowing fun _ _ => Leads.lift.knowing fun _ _ => Leads.modify fun r hr => hr
      refine Leads.ite (fun _ => ((hnotice _).and (hP.notify _)).bind fun _ => ?_) fun _ => ?_
      · exact ((hstatistics _).and (hP.changeStatistics _)).bind fun _ => Leads.pure fun r hr => hr
      · exact ((hstatistics _).and (hP.changeStatistics _)).bind fun _ => Leads.pure fun r hr => hr

end Probing

theorem probeColumns_probed :
    Leads (Trusts m f i : RootState Exact ρ σ η τ → Prop) (probeColumns i) (Probed m f) := by
  have hsteady : Steady m fun _ : RootState Exact ρ σ η τ => True :=
    ⟨fun _ _ _ _ _ _ _ _ => trivial, fun _ _ _ _ _ _ _ _ _ => trivial, fun _ _ _ _ _ => trivial,
      fun _ _ _ _ _ _ => trivial, fun _ _ _ _ _ _ => trivial⟩
  exact fun r isFeasible r' hr hrun =>
    (probeColumns_keeps hsteady r isFeasible r' ⟨hr, trivial⟩ hrun).1

end RootStep

namespace Implications

variable {i : Implications Exact} {s : PropagationState Exact}

/-- Let a domain be consulted, and tightened in between only to what holds at all feasible points.
If a feasible point has a value of a binary column, then asking for this value gets an answer,
computed now or before, all changes of which hold at the point. So only a fixing that no feasible
point has is called impossible. Probing keeps all feasible points and calls the domain infeasible
only if there is none. -/
theorem probing_loses_no_point {draft : Draft Exact} (hmodel : draft.build = .ok m)
    (hinteger : m.AllInteger) (hf : 0 < f) (hrun : Consulted m f i s) :
    (∀ c value, s.domain.isBinary c = .ok true → ∀ x, m.Feasible x →
      BinaryLiteral.HoldsAt ⟨c, value⟩ x →
        Returns ((consequences s.domain c value).finish (i, s.pools)) fun answer =>
          answer.1.consequences.HoldAt x) ∧
    ∀ (r r' : RootState Exact ρ σ η τ) (isFeasible : Bool), r.propagation = s →
      (RootStep.probeColumns i).run r = .ok (isFeasible, r') → ∀ x, m.Feasible x →
        isFeasible = true ∧ r'.domain.values.Contains m.columns.size x := by
  have hfaithful := hrun.faithful hmodel hinteger hf
  refine ⟨fun c value hbinary x hx hvalue => ?_, fun r r' isFeasible hr hprobe x hx => ?_⟩
  · obtain ⟨column, hcolumn, -⟩ := Domain.isBinary_eq_ok.mp hbinary
    rw [hfaithful.model] at hcolumn
    exact hfaithful.answers hx (Array.getElem?_eq_some_iff.mp hcolumn).1 hvalue
  · have htrusts : RootStep.Trusts m f i r := by
      rw [RootStep.Trusts, hr]
      exact hfaithful
    obtain ⟨⟨known, hafter⟩, hnone⟩ := RootStep.probeColumns_probed _ _ _ htrusts hprobe
    have hbox := (hafter.keeps x hx).box
    rw [hafter.model] at hbox
    exact ⟨Bool.of_not_eq_false fun hinfeasible => hnone hinfeasible x hx, hbox⟩

/-- A row which allows only the second of three binary columns to be one. -/
def crowded : Draft Exact :=
  ⟨#[.binary 0, .binary 0, .binary 0], #[⟨minus, 1, [(0, 2), (1, 1), (2, 2)]⟩], 0⟩

/-- The root with a domain and pools. -/
def rootOf (s : PropagationState Exact) : RootState Exact Unit Unit Unit Unit :=
  ⟨s.domain, (), { Shared.initial .standard false () with pools := s.pools }, ⟨0, 0, 0, 0, 0, 0, 0⟩⟩

/-- The second column alone is one. -/
def middlePoint : Point := fun c => if c = 1 then 1 else 0

set_option maxRecDepth 100000 in
/-- An answer is remembered though the third column was fixed since, and probing fixes the first
one. -/
theorem crowded_columns_probed : ∃ (m : Model Exact) (i : Implications Exact)
    (s : PropagationState Exact) (answer : Answer Exact × Implications Exact × Pools Exact)
    (r : RootState Exact Unit Unit Unit Unit), crowded.build = .ok m ∧ m.Feasible middlePoint ∧
      s.domain.values .upper 2 = 0 ∧
      (consequences s.domain 1 true).finish (i, s.pools) = .ok answer ∧
      answer.1.consequences.toOption.map (List.map BoundChange.column) = some [0, 2] ∧
      answer.1.consequences.HoldAt middlePoint ∧
      (RootStep.probeColumns i).run (rootOf s) = .ok (true, r) ∧ r.domain.values .upper 0 = 0 ∧
      r.domain.values.Contains m.columns.size middlePoint := by
  have hrun : passes crowded.build (fun m =>
        passes (Domain.ofModel m (number (1 / 1000000))) fun d =>
          passes ((consequences d 1 true).finish (⟨.empty 3, []⟩, .empty)) fun asked =>
            passes (Operation.perform ⟨asked.2.2, d⟩ (.changeBound (.atMost 2 0) .unknown)) fun s =>
              passes ((consequences s.domain 1 true).finish (asked.2.1, s.pools)) fun again =>
                passes ((RootStep.probeColumns asked.2.1).run (rootOf s)) fun probed =>
                  decide (m.Feasible middlePoint ∧
                    (m.rows[0]?.map fun row => (row.upper, row.entries)) =
                      some (1, [(0, 2), (1, 1), (2, 2)])) &&
                  m.columns.all (fun c => c.kind == .integer) &&
                  [0, 1].all (fun c => passes (d.isBinary c) id) && passes (s.domain.isBinary 1)
                    id &&
                  decide (s.domain.values .upper 2 = 0 ∧
                    again.1.consequences.toOption.map (List.map BoundChange.column) = some [0, 2] ∧
                    probed.2.domain.values .upper 0 = 0)) = true := by
    rw [(consequencesUnrolled 100).property, (Operation.performUnrolled 100).property,
      (RootStep.probeColumnsUnrolled 100).property]
    decide +kernel
  obtain ⟨m, hmodel, hrun⟩ := passes_eq_true.mp hrun
  obtain ⟨d, hd, hrun⟩ := passes_eq_true.mp hrun
  obtain ⟨⟨asked, i, pools⟩, hasked, hrun⟩ := passes_eq_true.mp hrun
  obtain ⟨s, hs, hrun⟩ := passes_eq_true.mp hrun
  obtain ⟨again, hagain, hrun⟩ := passes_eq_true.mp hrun
  obtain ⟨⟨isFeasible, r⟩, hprobe, hrun⟩ := passes_eq_true.mp hrun
  simp only [Bool.and_eq_true, decide_eq_true_eq, Array.all_eq_true_iff_forall_mem, beq_iff_eq,
    List.all_cons, List.all_nil, Bool.and_true, passes_eq_true, id_eq, exists_eq_right] at hrun
  obtain ⟨⟨⟨⟨⟨hfeasible, hrow⟩, hinteger⟩, hzero, hone⟩, hbinary⟩, htight, hcolumns, hfixed⟩ := hrun
  have hstart : Consulted m (1 / 1000000) ⟨.empty 3, []⟩ ⟨.empty, d⟩ := .start hd _
  have hbuilt : d.model = m := (Domain.ofModel_untold hd).2.2.2.1
  -- the row allows the third column only to be zero
  have hvalid : ∀ x, m.Feasible x → (BoundChange.atMost 2 0 : BoundChange Exact).HoldsAt x := by
    intro x hx
    obtain ⟨row, hrow, hsides⟩ := Option.map_eq_some_iff.mp hrow
    obtain ⟨hupper, hentries⟩ := Prod.mk.inj hsides
    have hle : 2 * (x 0 : ℚ) + (x 1 + 2 * x 2) ≤ 1 := by
      simpa [hupper, hentries, dot] using (hx.rows 0 row hrow).2
    have hle : 2 * x 0 + (x 1 + 2 * x 2) ≤ 1 := by exact_mod_cast hle
    have hfirst := hx.binary (hbuilt ▸ Domain.isBinary_eq_ok.mp hzero)
    have hsecond := hx.binary (hbuilt ▸ Domain.isBinary_eq_ok.mp hone)
    have hthird : x 2 ≤ 0 := by omega
    change number (x 2 : ℚ) ≤ 0
    simpa using hthird
  have hop : Operation.ProperFor d.FixedToOne ⟨pools, d⟩ (.changeBound (.atMost 2 0) .unknown) := by
    change (0 : Exact) ≠ nan
    simp
  have hconsulted : Consulted m (1 / 1000000) i s :=
    .perform (hstart.consult hasked) hop rfl hvalid hs
  obtain ⟨hanswers, hprobes⟩ := @probing_loses_no_point Unit Unit Unit Unit m _ i s crowded hmodel
    (fun c column hc => hinteger column (Array.mem_of_getElem? hc)) (by norm_num) hconsulted
  have hholds := (hanswers 1 true hbinary middlePoint hfeasible rfl).of_eq_ok hagain
  obtain ⟨rfl, hcontains⟩ := hprobes (rootOf s) r isFeasible rfl hprobe middlePoint hfeasible
  exact ⟨m, i, s, again, r, hmodel, hfeasible, htight, hagain, hcolumns, hholds,
    hprobe, hfixed, hcontains⟩

end Implications

end BranchBound
