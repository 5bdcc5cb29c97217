import BranchBound.Proofs.Domain.SettledRuns
import BranchBound.Proofs.Domain.Survival
import BranchBound.Proofs.Model.Numbers
import BranchBound.Proofs.Symmetry

/-!
# Orbital fixing

A set of points that every generator maps onto itself takes the same values at all columns of an
orbit: between any two of them the generators lead from a point to one that has, at the second
column, the value of the first point at the first column. If one column of an orbit of binary
columns is fixed to zero, it is zero at all points of such a set, so every column of the orbit is.
Each column that is then fixed to zero is therefore a change that holds at all points of the set;
without pools and an objective, nothing but rows could refute the domain, and the points satisfy the
rows.
-/

namespace BranchBound

open Checked Exact

/-- An assignment satisfies the rows of a model and is zero or one on its binary columns. -/
structure Assignment.Meets (y : Assignment) (m : Model Exact) : Prop where
  rows : ∀ row ∈ m.rows, y.SatisfiesRow row
  binary : ∀ c, m.Binary c → y c = 0 ∨ y c = 1

namespace Assignment

variable {y : Assignment} {m : Model Exact} {c : ColumnId}

theorem holds_atMost_zero (h : y c = 0) : y.reading.Holds (.atMost c 0) := by
  simp [reading, BoundChange.atMost, h]

/-- A binary column that is at most zero is zero. -/
theorem Meets.eq_zero (h : y.Meets m) (hbinary : m.Binary c) (hle : y.reading.Holds (.atMost c 0)) :
    y c = 0 := by
  rcases h.binary c hbinary with hzero | hone
  · exact hzero
  · have hle : number (y c) ≤ 0 := hle
    rw [hone, ofNat_eq, number_le, Nat.cast_zero] at hle
    exact absurd hle (by norm_num)

end Assignment

namespace Domain

variable {f : ℚ} {d d' : Domain Exact} {change : BoundChange Exact} {reason : Reason}
  {y : Assignment}

/-- A settled domain without pools and objective. -/
structure Bare (f : ℚ) (d : Domain Exact) : Prop where
  settled : d.Settled (.exact .any)
  feastol : d.feastol = number f
  nonneg : 0 ≤ f
  cuts : d.cutPropagations = #[]
  conflicts : d.conflictPropagations = #[]
  objective : d.objective = none

/-- While bounds are set, an absent objective stays absent. -/
theorem Carried.objective_none {T : Tracking Exact} (h : Carried T d d')
    (hnone : d.objective = none) :
    d'.objective = none := by
  have hall : ∀ after, Relation.ReflTransGen (ObjectiveStep T d.feastol) (d.objective, d.values)
    after →
      after.1 = none := by
    intro after hafter
    induction hafter with
    | refl => exact hnone
    | tail _ hstep ih =>
        obtain ⟨_, _, _, -, -, ⟨-, hkept⟩ | ⟨-, ⟨-, hnone'⟩ | ⟨o, -, -, ho, -⟩⟩⟩ := hstep
        · exact hkept.trans ih
        · exact hnone'
        · cases ho.symm.trans ih
  exact hall _ h.objective

namespace Bare

variable (h : d.Bare f)

include h

theorem changeBound (hvalue : change.value ≠ nan) (hchange : d.changeBound change reason = .ok d') :
    d'.Bare f := by
  obtain ⟨hsettled, heffect⟩ := changeBound_settled h.settled hvalue hchange
  have hcarried := heffect.carried
  refine ⟨hsettled, hcarried.setting.feastol.trans h.feastol, h.nonneg, ?_, ?_,
    hcarried.objective_none h.objective⟩
  · apply Array.eq_empty_of_size_eq_zero
    rw [hcarried.cuts_size, h.cuts, Array.size_empty]
  · apply Array.eq_empty_of_size_eq_zero
    have hlength := hcarried.conflicts.length_eq
    rwa [h.conflicts, eq_comm] at hlength

variable (hrows : ∀ row ∈ d.model.rows, y.SatisfiesRow row)
  (hinside : y.reading.Inside d.values d.model.columns.size)

include hrows hinside

/-- No row can be blamed for an infeasibility while a bound moves to one that holds at an assignment
which satisfies the rows. -/
theorem not_blamed {c : ColumnId} {side : Side} {new : Exact} (hc : c < d.model.columns.size)
    (hnew : y.reading.Holds ⟨c, side, new⟩) :
    ¬Blame (.exact .any) d.values c side (d.values side c) new d reason := by
  have hcoherent := h.settled.coherent
  have hentries {r : RowId} {row : Row Exact} (hrow : d.model.rows[r]? = some row) :
      Entries d.model.columns.size row.entries := fun e he =>
    ⟨hcoherent.wellFormed.entry_lt r row hrow e he, hcoherent.coefficients r row hrow e he⟩
  intro hblame
  cases hblame with
  | rowUpper hrow hmoving hexceeds =>
      rw [h.feastol, hmoving.exceeds_eq_false h.nonneg (hentries hrow) hinside hc hnew
        (hrows _ (Array.mem_of_getElem? hrow)).2] at hexceeds
      cases hexceeds
  | rowLower hrow hmoving hshort =>
      rw [h.feastol, hmoving.fallsShort_eq_false h.nonneg (hentries hrow) hinside hc hnew
        (hrows _ (Array.mem_of_getElem? hrow)).1] at hshort
      cases hshort
  | cut hpool => simp [h.cuts] at hpool
  | objective hobjective => cases h.objective.symm.trans hobjective

/-- A change that holds at an assignment which satisfies the rows keeps it in the box, and keeps a
feasible domain feasible. -/
theorem keeps_changeBound (hholds : y.reading.Holds change)
    (hchange : d.changeBound change reason = .ok d') :
    y.reading.Inside d'.values d.model.columns.size ∧
      (d.infeasible = none → d'.infeasible = none) := by
  obtain ⟨-, heffect⟩ := changeBound_settled h.settled (Assignment.not_nan_of_holds hholds) hchange
  rcases heffect with rfl | ⟨-, value, crossing, haccepted, hchanged⟩
  · exact ⟨hinside, id⟩
  · have hc : change.column < d.model.columns.size := (hchanged.column_lt h.settled :)
    have hvalue : y.reading.Holds ⟨change.column, change.side, value⟩ :=
      acceptedValue_holds hholds (hinside _ _ hc) (hinside _ _ hc) haccepted
    have hinside' : y.reading.Inside d'.values d.model.columns.size := by
      rw [hchanged.values]
      exact hinside.set hvalue
    refine ⟨hinside', fun _ => ?_⟩
    cases crossing with
    | true =>
        have hcrosses := tighter_of_crossing haccepted
        rw [Assignment.tighter_opposite_eq_false hvalue (hinside _ _ hc)] at hcrosses
        cases hcrosses
    | false =>
        rcases hchanged.infeasible with hnone | ⟨-, reason', -, hblame⟩
        · exact hnone
        · exact absurd hblame (h.not_blamed hrows hinside hc hvalue)

end Bare

/-- A change leaves the bounds of the other columns as they are. -/
theorem Effect.bounds_of_ne {T : Tracking Exact} (h : Effect T d change reason d') {side : Side}
    {c : ColumnId} (hne : c ≠ change.column) : (d'.bounds side)[c]? = (d.bounds side)[c]? := by
  rcases h with rfl | ⟨-, value, crossing, -, hchanged⟩
  · rfl
  · obtain ⟨previous, -, htrail⟩ := hchanged.trail
    rw [← trail_bounds, htrail, Trail.append_bounds_of_ne d.trail, trail_bounds]
    exact fun hsame => hne hsame.2

theorem isBinary_returns {c : ColumnId} (hc : c < d.model.columns.size) :
    Returns (d.isBinary c) fun answer => answer = true ↔ d.model.Binary c := by
  have hreturns : Returns (d.isBinary c) fun _ => True :=
    (fetch_returns hc).bind fun _ _ _ => .pure trivial
  refine hreturns.mono fun answer hanswer _ => ?_
  rw [← isBinary_eq_ok, hanswer, Except.ok.injEq]

end Domain

namespace Symmetry

/-! ### Sets of points that generators keep -/

/-- The point whose values are those of another one at the images of the columns. -/
def permuted (g : List ColumnId) (y : Assignment) : Assignment := fun c => y (g[c]?.getD c)

variable {F : Set Assignment} {generators : List (List ColumnId)}

/-- In a set that every generator maps onto itself, every value of a point at one of two connected
columns is the value of a point at the other one. -/
theorem Connected.exists_eq (hF : ∀ g ∈ generators, permuted g '' F = F) {c c' : ColumnId}
    (h : Connected generators c c') :
    (∀ y ∈ F, ∃ z ∈ F, z c = y c') ∧ ∀ y ∈ F, ∃ z ∈ F, z c' = y c := by
  induction h with
  | rel c c' h =>
      obtain ⟨g, hg, himage⟩ := h
      have hvalue (y : Assignment) : permuted g y c = y c' := by rw [permuted, himage,
        Option.getD_some]
      refine ⟨fun y hy => ⟨permuted g y, ?_, hvalue y⟩, fun y hy => ?_⟩
      · rw [← hF g hg]
        exact Set.mem_image_of_mem _ hy
      · rw [← hF g hg] at hy
        obtain ⟨z, hz, rfl⟩ := hy
        exact ⟨z, hz, (hvalue z).symm⟩
  | refl c => exact ⟨fun y hy => ⟨y, hy, rfl⟩, fun y hy => ⟨y, hy, rfl⟩⟩
  | symm c c' _ ih => exact ih.symm
  | trans c c' c'' _ _ ih ih' =>
      refine ⟨fun y hy => ?_, fun y hy => ?_⟩
      · obtain ⟨z, hz, heq⟩ := ih'.1 y hy
        obtain ⟨w, hw, heq'⟩ := ih.1 z hz
        exact ⟨w, hw, heq'.trans heq⟩
      · obtain ⟨z, hz, heq⟩ := ih.2 y hy
        obtain ⟨w, hw, heq'⟩ := ih'.2 z hz
        exact ⟨w, hw, heq'.trans heq⟩

/-- If one column of an orbit is zero at all points of such a set, then every column of the orbit
is. -/
theorem IsOrbit.eq_zero {n : Nat} {orbit : List ColumnId} (h : IsOrbit n generators orbit)
    (hF : ∀ g ∈ generators, permuted g '' F = F) {c c' : ColumnId} (hc : c ∈ orbit)
    (hc' : c' ∈ orbit)
    (hzero : ∀ y ∈ F, y c = 0) : ∀ y ∈ F, y c' = 0 := by
  obtain ⟨start, -, hclass⟩ := h.class_eq
  have hconnected : Connected generators c c' :=
    .trans _ _ _ (.symm _ _ ((hclass c).mp hc)) ((hclass c').mp hc')
  intro y hy
  obtain ⟨z, hz, heq⟩ := (hconnected.exists_eq hF).1 y hy
  rw [← heq]
  exact hzero z hz

/-- A permutation that maps a set of points into itself maps it onto itself, as some power of it is
the identity. -/
theorem permuted_image {n : Nat} {generator : List ColumnId} (hperm : generator.Perm (List.range n))
    (hinto : ∀ y ∈ F, permuted generator y ∈ F) : permuted generator '' F = F := by
  obtain ⟨σ, hσ⟩ := exists_action hperm
  let image (c : ColumnId) : ColumnId := generator[c]?.getD c
  have himage (k : Nat) (c : Fin n) : image^[k] c = (σ ^ k) c := by
    induction k with
    | zero => rfl
    | succ k ih =>
        rw [Function.iterate_succ_apply', ih, pow_succ', Equiv.Perm.mul_apply]
        simp [image, hσ]
  have houtside (k : Nat) {c : ColumnId} (hc : n ≤ c) : image^[k] c = c := by
    refine Function.iterate_fixed ?_ k
    have hnone : generator[c]? = none := List.getElem?_eq_none (by
      rwa [hperm.length_eq, List.length_range])
    simp [image, hnone]
  have hiterate (k : Nat) (y : Assignment) : (permuted generator)^[k] y = fun c =>
    y (image^[k] c) := by
    induction k generalizing y with
    | zero => rfl
    | succ k ih =>
        rw [Function.iterate_succ_apply, ih]
        funext c
        rw [Function.iterate_succ_apply']
        rfl
  have hpower (y : Assignment) : (permuted generator)^[orderOf σ] y = y := by
    rw [hiterate]
    funext c
    by_cases hc : c < n
    · rw [himage _ ⟨c, hc⟩, pow_orderOf_eq_one]
      rfl
    · rw [houtside _ (Nat.le_of_not_lt hc)]
  refine Set.Subset.antisymm (Set.image_subset_iff.mpr hinto) fun y hy => ?_
  obtain ⟨k, hk⟩ := Nat.exists_eq_succ_of_ne_zero (orderOf_pos σ).ne'
  refine ⟨(permuted generator)^[k] y, ?_, ?_⟩
  · clear hk
    induction k with
    | zero => exact hy
    | succ k ih =>
        rw [Function.iterate_succ_apply']
        exact hinto _ ih
  · rw [← Function.iterate_succ_apply' (permuted generator), ← hk, hpower]

/-! ### Fixing columns -/

/-- The columns in an orbit of binary columns. -/
def Fixable (m : Model Exact) (orbits : List (List ColumnId)) (c : ColumnId) : Prop :=
  ∃ orbit ∈ orbits, c ∈ orbit ∧ ∀ c' ∈ orbit, m.Binary c'

/-- What fixing columns leaves of a set of points, and of a domain where all others stay. -/
structure Keeps (F : Set Assignment) (f : ℚ) (fixable : ColumnId → Prop) (d d' : Domain Exact) :
    Prop where
  bare : d'.Bare f
  model : d'.model = d.model
  inside : ∀ y ∈ F, y.reading.Inside d'.values d'.model.columns.size
  feasible : F.Nonempty → d'.infeasible = none
  bounds : ∀ c, ¬fixable c → ∀ side, (d'.bounds side)[c]? = (d.bounds side)[c]?

variable {f : ℚ} {fixable : ColumnId → Prop} {d : Domain Exact} {state : Nat × Domain Exact}

/-- Fixing a column to zero that is zero at all points keeps the points. -/
theorem Keeps.fixColumn (h : Keeps F f fixable d state.2) (hmeets : ∀ y ∈ F, y.Meets d.model)
    {c : ColumnId} (hc : c < d.model.columns.size) (hfixable : fixable c)
    (hzero : ∀ y ∈ F, y c = 0) :
    Returns (fixColumns state c) fun state' => Keeps F f fixable d state'.2 := by
  obtain ⟨fixed, e⟩ := state
  obtain ⟨hbare, hmodel, hinside, hfeasible, hbounds⟩ := h
  dsimp only at *
  have hlt : c < e.model.columns.size := hmodel ▸ hc
  have hnumber : (BoundChange.atMost c (0 : Exact)).value ≠ nan := by simp [BoundChange.atMost]
  rw [fixColumns, Domain.boundValue_of_lt ((hbare.settled.coherent.bounds_size .upper).symm ▸ hlt),
    ok_bind]
  split
  · refine (Domain.changeBound_returns hbare.settled hlt hnumber .unknown).bind
      fun e' hchange heffect => .pure ?_
    have hmodel' : e'.model = e.model := heffect.2.carried.setting.model
    have hkept (y : Assignment) (hy : y ∈ F) := hbare.keeps_changeBound
      (hmodel ▸ (hmeets y hy).rows) (hinside y hy) (Assignment.holds_atMost_zero (hzero y hy))
        hchange
    refine ⟨hbare.changeBound hnumber hchange, hmodel'.trans hmodel, fun y hy => ?_, ?_, ?_⟩
    · rw [hmodel']
      exact (hkept y hy).1
    · rintro ⟨y, hy⟩
      exact (hkept y hy).2 (hfeasible ⟨y, hy⟩)
    · intro c' hc' side
      have hne : c' ≠ c := fun heq => hc' (heq ▸ hfixable)
      rw [heffect.2.bounds_of_ne hne, hbounds c' hc' side]
  · exact .pure ⟨hbare, hmodel, hinside, hfeasible, hbounds⟩

/-- Fixing the columns of an orbit keeps a set of points that all generators map onto itself. -/
theorem Keeps.fixOrbit {n : Nat} {orbit : List ColumnId} (h : Keeps F f fixable d state.2)
    (hmeets : ∀ y ∈ F, y.Meets d.model) (hF : ∀ g ∈ generators, permuted g '' F = F)
    (horbit : IsOrbit n generators orbit) (hcolumns : ∀ c ∈ orbit, c < d.model.columns.size)
    (hfixable : (∀ c ∈ orbit, d.model.Binary c) → ∀ c ∈ orbit, fixable c) :
    Returns (fixOrbit state orbit) fun state' => Keeps F f fixable d state'.2 := by
  obtain ⟨fixed, e⟩ := state
  have hmodel : e.model = d.model := h.model
  have hlt (c : ColumnId) (hc : c ∈ orbit) : c < e.model.columns.size := hmodel ▸ hcolumns c hc
  have hupper (c : ColumnId) (hc : c ∈ orbit) : e.boundValue .upper c = .ok (e.values .upper c) :=
    Domain.boundValue_of_lt ((h.bare.settled.coherent.bounds_size .upper).symm ▸ hlt c hc)
  rw [Symmetry.fixOrbit]
  refine (allHold_returns fun c hc => Domain.isBinary_returns (hlt c hc)).bind
    fun binary _ hbinary => ?_
  cases binary with
  | false => exact .pure h
  | true =>
      have hall : ∀ c ∈ orbit, d.model.Binary c := hmodel ▸ hbinary.mp rfl
      have hzeros : Returns (someHolds (fun c => do return (← e.boundValue .upper c) == 0) orbit)
          fun answer => answer = true ↔ ∃ c ∈ orbit, (e.values .upper c == 0) = true :=
        someHolds_returns fun c hc => by
          rw [hupper c hc]
          exact .pure .rfl
      refine hzeros.bind fun hasZero _ hhas => ?_
      cases hasZero with
      | false => exact .pure h
      | true =>
          obtain ⟨c, hc, hbound⟩ := hhas.mp rfl
          have hzero : ∀ y ∈ F, y c = 0 := fun y hy => by
            have hheld := h.inside y hy .upper c (hlt c hc)
            rw [(equal_iff.mp hbound).1] at hheld
            exact (hmeets y hy).eq_zero (hall c hc) hheld
          refine foldlM_returns (P := fun state : Nat × Domain Exact => Keeps F f fixable d state.2)
            (fun state c' hc' hkeeps => ?_) h
          exact hkeeps.fixColumn hmeets (hcolumns c' hc') (hfixable hall c' hc')
            (horbit.eq_zero hF hc hc' hzero)

/-- **Orbital fixing is valid.** Let a feasible domain have no pools and no objective, and let a set
of points of its box satisfy all rows and be zero or one on the binary columns. If every generator
that is kept maps the set onto itself, then orbital fixing returns, all points of the set are in the
box afterwards, and the domain is infeasible only if the set is empty. The bounds of columns which
are in no orbit of binary columns stay as they are. -/
theorem orbital_fixing_keeps_symmetric_points {draft : Draft Exact} {m : Model Exact}
    {s : PropagationState Exact} {n : Nat} {generators : List (List ColumnId)}
    (hbuild : draft.build = .ok m) (hf : 0 ≤ f)
    (hrun : Reachable (fun _ op => op.Brings (.exact .any)) m (number f) s)
    (hfeasible : s.domain.infeasible = none) (hcuts : s.domain.cutPropagations = #[])
    (hconflicts : s.domain.conflictPropagations = #[]) (hobjective : s.domain.objective = none)
    (hn : n ≤ m.columns.size)
    (hbox : ∀ y ∈ F, y.reading.Inside s.domain.values m.columns.size)
    (hmeets : ∀ y ∈ F, y.Meets m)
    (hsymmetric : ∀ g ∈ (ofGenerators n generators).generators, permuted g '' F = F) :
    ∃ fixed d', (ofGenerators n generators).orbitalFixing s.domain = .ok (fixed, d') ∧
      (∀ y ∈ F, y.reading.Inside d'.values m.columns.size) ∧
      (d'.infeasible ≠ none → F = ∅) ∧
      ∀ c, ¬Fixable m (ofGenerators n generators).orbits c → ∀ side,
        (d'.bounds side)[c]? = (s.domain.bounds side)[c]? := by
  obtain ⟨hmodel, hfeastol⟩ := hrun.constant
  have hsettled :=
    (hrun.settled (Exact.derives_any m) (fun _ _ h => h) (Draft.wellFormed_of_build hbuild)
    (Draft.readable_of_build hbuild)).domain
  have hstart : Keeps F f (Fixable m (ofGenerators n generators).orbits) s.domain s.domain :=
    ⟨⟨hsettled, hfeastol, hf, hcuts, hconflicts, hobjective⟩, rfl, hmodel ▸ hbox,
      fun _ => hfeasible,
      fun _ _ _ => rfl⟩
  have hreturns : Returns ((ofGenerators n generators).orbitalFixing s.domain) fun state =>
      Keeps F f (Fixable m (ofGenerators n generators).orbits) s.domain state.2 :=
    foldlM_returns (P := fun state : Nat × Domain Exact =>
      Keeps F f (Fixable m (ofGenerators n generators).orbits) s.domain state.2)
      (fun state orbit horbit hkeeps => by
        refine hkeeps.fixOrbit (hmodel ▸ hmeets) hsymmetric (mem_orbits_iff.mp horbit)
          (fun c hc => ?_)
          fun hall c hc => ⟨orbit, horbit, hc, hmodel ▸ hall⟩
        rw [hmodel]
        exact (lt_of_mem_orbits horbit hc).trans_le hn) hstart
  obtain ⟨⟨fixed, d'⟩, hfix, hkeeps⟩ := hreturns
  have hmodel' : d'.model = m := hkeeps.model.trans hmodel
  refine ⟨fixed, d', hfix, hmodel' ▸ hkeeps.inside, fun hinfeasible => ?_, hkeeps.bounds⟩
  by_contra hne
  exact hinfeasible (hkeeps.feasible (Set.nonempty_iff_ne_empty.mpr hne))

/-- Three binary columns which can be exchanged, and a continuous one. -/
def threeAlike : Draft Exact :=
  ⟨#[⟨-1, 0, 1, .integer⟩, ⟨-1, 0, 1, .integer⟩, ⟨-1, 0, 1, .integer⟩, ⟨0, 0, 4, .continuous⟩],
    #[⟨minus, 4, [(0, 1), (1, 1), (2, 1), (3, 1)]⟩], 0⟩

/-- A cycle of the three columns, and a list that is no permutation. -/
def cycleOfThree : List (List ColumnId) := [[1, 2, 0, 3], [0, 0, 2, 3]]

/-- The value two for the continuous column, and zero for the binary ones. -/
def restPoint : Assignment := fun c => if c = 3 then 2 else 0

theorem permuted_restPoint : permuted [1, 2, 0, 3] restPoint = restPoint := by
  funext c
  match c with
  | 0 | 1 | 2 | 3 => rfl
  | c + 4 => rfl

/-- If one of the columns is fixed to zero, then the two others are. -/
theorem threeAlike_fixed : ∃ (d d' : Domain Exact), d.log.size = 1 ∧
    (ofGenerators 4 cycleOfThree).orbitalFixing d = .ok (2, d') ∧
    restPoint.reading.Inside d'.values 4 ∧ d'.infeasible = none ∧
    ∀ side, (d'.bounds side)[3]? = (d.bounds side)[3]? := by
  have hrun : passes threeAlike.build (fun m => passes (Domain.ofModel m (number (1 / 1000000)))
    fun d =>
      passes ((Operation.changeBound (.atMost 1 0) .unknown).perform ⟨.empty, d⟩) fun s =>
        m.columns.size == 4 && m.columns[3]?.all (fun column => column.kind == .continuous) &&
        s.domain.infeasible.isNone && s.domain.cutPropagations.isEmpty &&
        s.domain.conflictPropagations.isEmpty && s.domain.objective.isNone &&
          s.domain.log.size == 1 &&
        ((List.range 4).all fun c => decide (s.domain.values .lower c ≤ number (restPoint c) ∧
          number (restPoint c) ≤ s.domain.values .upper c)) &&
        (m.rows.all fun row => decide (
          row.lower ≤ number (restPoint.total (row.entries : List (ColumnId × Exact))) ∧
          number (restPoint.total (row.entries : List (ColumnId × Exact))) ≤ row.upper)) &&
        passes ((ofGenerators 4 cycleOfThree).orbitalFixing s.domain) fun result =>
          result.1 == 2) = true := by
    decide +kernel
  obtain ⟨m, hm, hrun⟩ := passes_eq_true.mp hrun
  obtain ⟨d, hd, hrun⟩ := passes_eq_true.mp hrun
  obtain ⟨s, hs, hrun⟩ := passes_eq_true.mp hrun
  simp only [Bool.and_eq_true, beq_iff_eq, List.all_eq_true, List.mem_range, decide_eq_true_eq,
    Array.all_eq_true_iff_forall_mem, Option.isNone_iff_eq_none, Array.isEmpty_iff,
    Option.all_eq_true,
    passes_eq_true] at hrun
  obtain ⟨⟨⟨⟨⟨⟨⟨⟨⟨hsize, hlast⟩, hfeasible⟩, hcuts⟩, hconflicts⟩, hobjective⟩, hlog⟩, hbox⟩, hrows⟩,
    result, hresult, htwo⟩ := hrun
  have hstart : Reachable (fun _ op => op.Brings (.exact .any)) m (number (1 / 1000000))
    ⟨.empty, d⟩ :=
    .start hd
  have hreach := hstart.step (show (Operation.changeBound (.atMost 1 0) .unknown).Brings _ from by
    simp [Operation.Brings, Tracking.exact, Exact.Range.any, BoundChange.atMost]) hs
  have hinside : restPoint.reading.Inside s.domain.values m.columns.size := by
    intro side c hc
    cases side with
    | lower => exact (hbox c (hsize ▸ hc)).1
    | upper => exact (hbox c (hsize ▸ hc)).2
  have hbinary : ∀ c, m.Binary c → restPoint c = 0 ∨ restPoint c = 1 := by
    rintro c ⟨column, hcolumn, hinteger, -⟩
    refine .inl (if_neg ?_)
    rintro rfl
    cases hinteger.symm.trans (hlast column hcolumn)
  have hgenerators : (ofGenerators 4 cycleOfThree).generators = [[1, 2, 0, 3]] := by decide +kernel
  have horbits : (ofGenerators 4 cycleOfThree).orbits = [[0, 1, 2]] := by decide +kernel
  have hsymmetric : ∀ g ∈ (ofGenerators 4 cycleOfThree).generators,
      permuted g '' {restPoint} = {restPoint} := by
    intro g hg
    rw [hgenerators, List.mem_singleton] at hg
    rw [hg, Set.image_singleton, permuted_restPoint]
  obtain ⟨fixed, d', hfix, hkept, hfeasible', hbounds⟩ := orbital_fixing_keeps_symmetric_points
    (F := {restPoint}) hm (by norm_num) hreach hfeasible hcuts hconflicts hobjective hsize.ge
    (by rintro y rfl; exact hinside) (by rintro y rfl; exact ⟨hrows, hbinary⟩) hsymmetric
  obtain rfl : (fixed, d') = result := Except.ok.inj (hfix.symm.trans hresult)
  obtain rfl : fixed = 2 := htwo
  refine ⟨s.domain, d', hlog, hfix, hsize ▸ hkept _ rfl, ?_, hbounds 3 ?_⟩
  · by_contra hne
    exact Set.singleton_ne_empty _ (hfeasible' hne)
  · rintro ⟨orbit, horbit, hmem, -⟩
    rw [horbits, List.mem_singleton] at horbit
    subst horbit
    simp at hmem

end Symmetry

end BranchBound
