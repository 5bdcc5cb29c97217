import BranchBound.Proofs.Action
import BranchBound.Proofs.Domain.Tightening
import BranchBound.Proofs.Pool.Record
import BranchBound.Separation

/-!
# Separated cuts

A round of separation pools the cuts of all separators in tightened form. Tightening refers to the
global box, wherever in the tree it happens, so it changes nothing at the points of that box with
whole values in the integer columns. The pool brings cuts into normal form and keeps one copy of
each. It drops a cut that has no coefficient other than zero, even if no point satisfies it. In the
end every other cut of a separator stands in the pool, and every new cut there excludes the same of
these points as such a cut of a separator.
-/

namespace BranchBound

open Checked Exact

variable {a : Assignment} {i j : Inequality Exact}

/-- Some coefficient of the inequality is not zero. -/
def Inequality.HasCoefficient (i : Inequality Exact) : Prop := ∃ e ∈ i.entries, e.2 ≠ 0

/-- Two inequalities hold at the same ones among some points. -/
def Inequality.SameAmong (P : Assignment → Prop) (i j : Inequality Exact) : Prop :=
  ∀ a, P a → (a.Satisfies i ↔ a.Satisfies j)

theorem Exact.bne_zero {v : Exact} : (v != 0) = true ↔ v ≠ 0 := by
  have hbne : (v != 0) = !(v == 0) := rfl
  rw [hbne, Bool.not_eq_true', Bool.eq_false_iff, ne_eq, equal_iff, not_and, not_not]
  constructor
  · rintro h rfl
    cases h rfl
  · intro hne hzero
    exact absurd hzero hne

/-- Entries without a coefficient do not matter. -/
theorem Assignment.total_filter_nonzero (a : Assignment) (entries : List (ColumnId × Exact)) :
    a.total ((entries.filter fun e => e.2 != 0 : List (ColumnId × Exact)) : Multiset _) =
      a.total (entries : List (ColumnId × Exact)) := by
  induction entries with
  | nil => rfl
  | cons e rest ih =>
      by_cases hzero : e.2 = 0
      · have hdropped : (e.2 != 0) = false :=
          Bool.eq_false_iff.mpr fun hne => Exact.bne_zero.mp hne hzero
        simp only [List.filter_cons, hdropped, Bool.false_eq_true, if_false, total_coe_cons, ih]
        simp [hzero]
      · simp only [List.filter_cons, Exact.bne_zero.mpr hzero, if_true, total_coe_cons, ih]

theorem Assignment.satisfies_normalized : a.Satisfies i.normalized ↔ a.Satisfies i := by
  have hperm : (i.normalized.entries : Multiset (ColumnId × Exact)) =
      (i.entries.filter fun e => e.2 != 0 : List (ColumnId × Exact)) :=
    Multiset.coe_eq_coe.mpr (List.mergeSort_perm ..)
  rw [Satisfies, hperm, total_filter_nonzero]
  rfl

/-- Inequalities that consist of the same numbers are equal. -/
theorem Inequality.eq_of_sameAs (h : i.sameAs j = true) : i = j := by
  obtain ⟨entries, rhs⟩ := i
  obtain ⟨entries', rhs'⟩ := j
  simp only [sameAs, Bool.and_eq_true, beq_iff_eq] at h
  obtain ⟨⟨⟨hlength, hentries⟩, hrhs⟩, -⟩ := h
  obtain rfl := (equal_iff.mp hrhs).1
  have heq : entries = entries' := by
    refine List.ext_getElem hlength fun n hn hn' => ?_
    have hsame := List.all_eq_true.mp hentries (entries[n], entries'[n])
      (List.mem_iff_getElem.mpr ⟨n, by simpa using ⟨hn, hn'⟩, List.getElem_zip⟩)
    simp only [sameEntry, Bool.and_eq_true, beq_iff_eq] at hsame
    exact Prod.ext hsame.1.1 (equal_iff.mp hsame.1.2).1
  rw [heq]

namespace CutPool

variable {p p' p'' : CutPool Exact} {P : Assignment → Prop} {cuts cuts' : List (Inequality Exact)}

/-- A pool says something of a point: all its cuts hold there. -/
def HoldsAt (p : CutPool Exact) (a : Assignment) : Prop :=
  ∀ id cut, p.get? id = some cut → a.Satisfies cut

/-- A cut without coefficients is not pooled. -/
theorem insert_of_not_hasCoefficient (p : CutPool Exact) {cut : Inequality Exact}
    (h : ¬cut.HasCoefficient) : (p.insert cut).2 = p := by
  have hfilter : (cut.entries.filter fun e => e.2 != 0) = [] :=
    List.filter_eq_nil_iff.mpr fun e he hne => h ⟨e, he, Exact.bne_zero.mp hne⟩
  have hempty : cut.normalized.entries = [] := by
    rw [Inequality.normalized, hfilter, List.mergeSort_nil]
  rw [insert, insertWithAgeLimit, hempty]
  rfl

/-- What a pool looks like after the insertion of a cut with a coefficient: a copy of a pooled cut
leaves it alone, every other cut is pooled in normal form under a new identifier. -/
theorem insert_cases (p : CutPool Exact) {cut : Inequality Exact} (h : cut.HasCoefficient) :
    (∃ id, p.get? id = some cut.normalized ∧ (p.insert cut).2 = p) ∨
      ∀ id, (p.insert cut).2.get? id =
        if id = p.cuts.entries.size then some cut.normalized else p.get? id := by
  rcases insertWithAgeLimit_cases p cut p.ageLimit with
    ⟨hempty, -⟩ | ⟨⟨id, other, hother, hcopy⟩, hsame⟩ | ⟨-, -, -, hget⟩
  · obtain ⟨e, he, hne⟩ := h
    have hmem : e ∈ cut.normalized.entries :=
      List.mem_mergeSort.mpr (List.mem_filter.mpr ⟨he, Exact.bne_zero.mpr hne⟩)
    rw [hempty] at hmem
    exact absurd hmem List.not_mem_nil
  · obtain rfl := Inequality.eq_of_sameAs hcopy
    exact .inl ⟨id, hother, congrArg Prod.snd hsame⟩
  · exact .inr hget

/-- A pool has gained cuts, as far as some points can tell: nothing is lost, what is new holds at
the same points as one of the cuts, and each of the cuts is represented. Cuts without coefficients
do not count. -/
structure Gains (P : Assignment → Prop) (p : CutPool Exact) (cuts : List (Inequality Exact))
    (p' : CutPool Exact) : Prop where
  kept : ∀ id cut, p.get? id = some cut → p'.get? id = some cut
  origin : ∀ id cut, p'.get? id = some cut →
    p.get? id = some cut ∨ ∃ c ∈ cuts, c.HasCoefficient ∧ Inequality.SameAmong P cut c
  pooled : ∀ c ∈ cuts, c.HasCoefficient →
    ∃ id cut, p'.get? id = some cut ∧ Inequality.SameAmong P cut c

theorem Gains.nil (P : Assignment → Prop) (p : CutPool Exact) : Gains P p [] p where
  kept := fun _ _ h => h
  origin := fun _ _ h => .inl h
  pooled := fun _ h => absurd h List.not_mem_nil

theorem Gains.append (h : Gains P p cuts p') (h' : Gains P p' cuts' p'') :
    Gains P p (cuts ++ cuts') p'' where
  kept := fun id cut hcut => h'.kept id cut (h.kept id cut hcut)
  origin := fun id cut hcut => by
    rcases h'.origin id cut hcut with hbefore | ⟨c, hc, hsame⟩
    · rcases h.origin id cut hbefore with hfirst | ⟨c, hc, hsame⟩
      · exact .inl hfirst
      · exact .inr ⟨c, List.mem_append_left _ hc, hsame⟩
    · exact .inr ⟨c, List.mem_append_right _ hc, hsame⟩
  pooled := fun c hc hcoefficient => by
    rcases List.mem_append.mp hc with hc | hc
    · obtain ⟨id, cut, hcut, hsame⟩ := h.pooled c hc hcoefficient
      exact ⟨id, cut, h'.kept id cut hcut, hsame⟩
    · exact h'.pooled c hc hcoefficient

/-- A point is excluded by the pool afterwards exactly if it was before or one of the cuts that
count excludes it. -/
theorem Gains.holdsAt_iff (h : Gains P p cuts p') (ha : P a) :
    p'.HoldsAt a ↔ p.HoldsAt a ∧ ∀ c ∈ cuts, c.HasCoefficient → a.Satisfies c := by
  refine ⟨fun hholds => ⟨fun id cut hcut => hholds id cut (h.kept id cut hcut),
    fun c hc hcoefficient => ?_⟩, fun ⟨hbefore, hcuts⟩ id cut hcut => ?_⟩
  · obtain ⟨id, cut, hcut, hsame⟩ := h.pooled c hc hcoefficient
    exact (hsame a ha).mp (hholds id cut hcut)
  · rcases h.origin id cut hcut with hold | ⟨c, hc, hcoefficient, hsame⟩
    · exact hbefore id cut hold
    · exact (hsame a ha).mpr (hcuts c hc hcoefficient)

/-- Inserting a cut that was tightened. -/
theorem insert_gains {c cut : Inequality Exact} (hsame : Inequality.SameAmong P cut c)
    (hcoefficient : cut.HasCoefficient ↔ c.HasCoefficient) (p : CutPool Exact) :
    Gains P p [c] (p.insert cut).2 := by
  have hnormal : Inequality.SameAmong P cut.normalized c := fun a ha =>
    Assignment.satisfies_normalized.trans (hsame a ha)
  by_cases hcut : cut.HasCoefficient
  · rcases insert_cases p hcut with ⟨id, hid, hsamePool⟩ | hnew
    · rw [hsamePool]
      refine ⟨fun _ _ h => h, fun _ _ h => .inl h, fun c' hc' _ => ?_⟩
      obtain rfl := List.mem_singleton.mp hc'
      exact ⟨id, _, hid, hnormal⟩
    · refine ⟨fun id cut' hcut' => ?_, fun id cut' hcut' => ?_, fun c' hc' _ => ?_⟩
      · rw [hnew, if_neg, hcut']
        rintro rfl
        rw [get?_eq, Array.getElem?_eq_none (Nat.le_refl _)] at hcut'
        cases hcut'
      · rw [hnew] at hcut'
        split at hcut'
        · obtain rfl := Option.some.inj hcut'
          exact .inr ⟨c, List.mem_singleton_self _, hcoefficient.mp hcut, hnormal⟩
        · exact .inl hcut'
      · obtain rfl := List.mem_singleton.mp hc'
        exact ⟨p.cuts.entries.size, _, by rw [hnew, if_pos rfl], hnormal⟩
  · rw [insert_of_not_hasCoefficient p hcut]
    refine ⟨fun _ _ h => h, fun _ _ h => .inl h, fun c' hc' hc => ?_⟩
    obtain rfl := List.mem_singleton.mp hc'
    exact absurd (hcoefficient.mpr hc) hcut

end CutPool

/-- The points of the global box with whole values in the integer columns. -/
structure Domain.HasGlobally (d : Domain Exact) (a : Assignment) : Prop where
  inside : a.reading.Inside d.globalBox d.model.columns.size
  whole : a.WholeOn d.model

/-- The bounds of the integer columns in the global box are whole numbers or infinite. -/
def Domain.GloballyWhole (d : Domain Exact) : Prop :=
  ∀ (c : ColumnId) column, d.model.columns[c]? = some column → column.kind = .integer →
    ∀ side, IsWhole (d.globalBox side c)

/-- An inequality over the model is tightened to one that holds at the same points and that has a
coefficient exactly if there was one before. -/
def Domain.TightensSoundly (d : Domain Exact) : Prop :=
  ∀ i : Inequality Exact, i.Over d.model → Returns (d.tighten i) fun r =>
    Inequality.SameAmong d.HasGlobally r.2 i ∧ (r.2.HasCoefficient ↔ i.HasCoefficient)

namespace SeparationManager

variable {σ : Type} {d : Domain Exact} {solution : RelaxationSolution Exact}

theorem foldlM_insertCut_perform (hd : d.TightensSoundly) {cuts : List (Inequality Exact)}
    (hcuts : ∀ cut ∈ cuts, cut.Over d.model) (inserted : Nat) (st : SeparationState Exact σ) :
    ∃ n pool, (cuts.foldlM (insertCut d) inserted).perform st = (.ok n, { st with pool := pool }) ∧
      st.pool.Gains d.HasGlobally cuts pool := by
  induction cuts generalizing inserted st with
  | nil => exact ⟨inserted, st.pool, rfl, .nil _ _⟩
  | cons cut rest ih =>
      obtain ⟨hcut, hrest⟩ := List.forall_mem_cons.mp hcuts
      obtain ⟨r, hr, hsame, hcoefficient⟩ := hd cut hcut
      let pool := (st.pool.insert r.2).2
      have hstep : (insertCut d inserted cut).perform st =
          (.ok (inserted + (st.pool.insert r.2).1.isSome.toNat), { st with pool := pool }) := by
        simp only [insertCut, Action.perform_bind, Action.perform_lift, hr, Action.perform_get,
          Action.perform_modify, Action.perform_pure]
        rfl
      obtain ⟨n, pool', hperform, hgains⟩ := ih hrest _ { st with pool := pool }
      refine ⟨n, pool', ?_, (CutPool.insert_gains hsame hcoefficient st.pool).append hgains⟩
      rw [List.foldlM_cons, Action.perform_bind, hstep]
      exact hperform

variable [Separator σ Exact]

/-- The cuts which a separator returns. -/
abbrev cutsOf (d : Domain Exact) (solution : RelaxationSolution Exact) (separator : σ) :
    List (Inequality Exact) :=
  (Separator.separate separator d solution).1

theorem runSeparator_perform (hd : d.TightensSoundly) (solution : RelaxationSolution Exact)
    {st : SeparationState Exact σ} {position : Nat}
    {separator : σ} (hseparator : st.manager.separators[position]? = some separator)
    (hcuts : ∀ cut ∈ cutsOf d solution separator, cut.Over d.model) (inserted : Nat) :
    ∃ n st', (runSeparator d solution inserted position).perform st = (.ok n, st') ∧
      st'.manager.separators = st.manager.separators.set position
        (Separator.separate separator d solution).2 ∧
      st.pool.Gains d.HasGlobally (cutsOf d solution separator) st'.pool := by
  let st' := { st with
    manager.separators := st.manager.separators.set position
      (Separator.separate separator d solution).2 }
  obtain ⟨n, pool, hperform, hgains⟩ := foldlM_insertCut_perform hd hcuts inserted st'
  refine ⟨n, { st' with pool := pool }, ?_, rfl, hgains⟩
  simp only [runSeparator, Action.perform_bind, Action.perform_get, hseparator,
    Action.perform_modify]
  exact hperform

/-- The separators run one after the other, each as it was at the beginning of the round. -/
theorem foldlM_runSeparator_perform (hd : d.TightensSoundly) {st : SeparationState Exact σ}
    (hcuts : ∀ separator ∈ st.manager.separators, ∀ cut ∈ cutsOf d solution separator,
      cut.Over d.model) {count : Nat} (hcount : count ≤ st.manager.separators.length) :
    ∃ n st', ((List.range count).foldlM (runSeparator d solution) 0).perform st = (.ok n, st') ∧
      (∀ q, count ≤ q → st'.manager.separators[q]? = st.manager.separators[q]?) ∧
      st.pool.Gains d.HasGlobally
        ((st.manager.separators.take count).flatMap (cutsOf d solution)) st'.pool := by
  induction count with
  | zero => exact ⟨0, st, rfl, fun _ _ => rfl, .nil _ _⟩
  | succ count ih =>
      obtain ⟨n, st', hperform, hothers, hgains⟩ := ih (Nat.le_of_succ_le hcount)
      have hget := List.getElem?_eq_getElem (Nat.lt_of_succ_le hcount)
      obtain ⟨n', st'', hperform', hset, hgains'⟩ := runSeparator_perform hd solution
        ((hothers count (Nat.le_refl _)).trans hget) (hcuts _ (List.getElem_mem _)) n
      refine ⟨n', st'', ?_, fun q hq => ?_, ?_⟩
      · rw [List.range_succ, List.foldlM_append, Action.perform_bind, hperform]
        simp only [List.foldlM_cons, List.foldlM_nil, bind_pure]
        exact hperform'
      · rw [hset, List.getElem?_set_ne (Nat.ne_of_lt hq), hothers q (Nat.le_of_succ_le hq)]
      · rw [List.take_add_one, hget, List.flatMap_append]
        simpa using hgains.append hgains'

/-- A round of separation pools the cuts of all separators. -/
theorem separate_gains (hd : d.TightensSoundly) (st : SeparationState Exact σ)
    (solution : RelaxationSolution Exact)
    (hcuts : ∀ separator ∈ st.manager.separators, ∀ cut ∈ cutsOf d solution separator,
      cut.Over d.model) :
    st.pool.Gains d.HasGlobally (st.manager.separators.flatMap (cutsOf d solution))
      ((separate d solution).perform st).2.pool := by
  obtain ⟨n, st', hperform, -, hgains⟩ := foldlM_runSeparator_perform hd hcuts (Nat.le_refl _)
  rw [List.take_length] at hgains
  have hlast : ((separate d solution).perform st).2 = st' := by
    simp only [separate, Action.perform_bind, Action.perform_get, hperform, Action.perform_lift]
    cases st'.pool.violated solution.values st'.manager.feastol with
    | ok violated => rfl
    | error fault => rfl
  rw [hlast]
  exact hgains

end SeparationManager

section Runs

variable {model : Model Exact} {feastol : Exact} {s : PropagationState Exact}
  {permitted : PropagationState Exact → Operation Exact → Prop}

/-- The bounds that are looked up for the global box are those of the box before the first
decision. -/
theorem Reachable.globalValue (h : Reachable permitted model feastol s) (side : Side) {c : ColumnId}
    (hc : c < model.columns.size) :
    s.domain.globalValue side c = .ok (s.domain.globalBox side c) := by
  have hfresh := Trail.fresh_ofModel model
  have hstart : c < ((Trail.ofModel model).bounds side).size := by
    rwa [Trail.bounds_ofModel_size]
  obtain ⟨b, hb, hforce⟩ := h.built.inForce_rewindTo hfresh s.domain.globalLength hstart
  obtain ⟨b', hlookup, hforce'⟩ := Domain.boundBefore_inForce (h.built.chained hfresh)
    (Trail.pristine_ofModel model) hstart s.domain.globalLength
  obtain rfl := hforce.unique hforce'
  rw [Domain.globalValue, hlookup, Domain.globalBox, Trail.values_eq hb]
  rfl

theorem Reachable.tightensSoundly (h : Reachable permitted model feastol s) (hfeastol : 0 ≤ feastol)
    (hwhole : s.domain.GloballyWhole) : s.domain.TightensSoundly := by
  obtain ⟨hmodel, htolerance⟩ := h.constant
  intro i hi
  have hvalue : ∀ side c, c < s.domain.model.columns.size →
      s.domain.globalValue side c = .ok (s.domain.globalBox side c) := fun side c hc =>
    h.globalValue side (hmodel ▸ hc)
  refine (Domain.tighten_returns hvalue rfl hi).mono fun r hr _ => ?_
  rcases Domain.tighten_eq_ok rfl hvalue (htolerance ▸ hfeastol) hi hr with
    hsame | ⟨b, limit, entries', b', hb, hlimit, hmax, habove, hreduces, hr⟩
  · rw [hsame]
    exact ⟨fun _ _ => Iff.rfl, Iff.rfl⟩
  · have hinteger {c : ColumnId} (hc : s.domain.model.isInteger c = .ok true) :
        ∃ column, s.domain.model.columns[c]? = some column ∧ column.kind = .integer := by
      simp only [Model.isInteger, Model.column, bind_eq_ok, fetch_eq_ok, pure_eq_ok,
        beq_iff_eq] at hc
      exact hc
    constructor
    · intro a ha
      rw [hr, Assignment.Satisfies, Assignment.Satisfies, hb, number_le, number_le]
      refine hreduces.le_iff hlimit hmax (fun c hc side => ?_) (fun c hc => ?_) fun e he => ?_
      · obtain ⟨column, hcolumn, hkind⟩ := hinteger hc
        exact hwhole c column hcolumn hkind side
      · obtain ⟨column, hcolumn, hkind⟩ := hinteger hc
        exact ha.whole c column hcolumn hkind
      · exact ⟨(hi e he).2, fun side => ha.inside side e.1 (hi e he).1, habove e he⟩
    · rw [hr]
      exact hreduces.nonzero_iff hlimit

/-- **Tightening coefficients keeps the integer points.** Take any state that a domain of a model
reaches by any operations, at any depth, with a tolerance that is not negative and with whole or
infinite global bounds of the integer columns. Tightening an inequality over the model, in which
columns may repeat, returns one that holds at exactly the same points of the global box with whole
values in the integer columns. So a round of separation loses no pooled cut, every cut that is new
in the pool holds at the same of these points as a cut of some separator which has a coefficient
that is not zero, and every such cut is represented in the pool by one that holds at the same of
these points. The pool excludes exactly the points that it excluded before and that these cuts
exclude. -/
theorem tightening_keeps_integer_points (hfeastol : 0 ≤ feastol)
    (h : Reachable (fun _ _ => True) model feastol s) (hwhole : s.domain.GloballyWhole) :
    (∀ i : Inequality Exact, i.Over model → Returns (s.domain.tighten i) fun r =>
      ∀ a, s.domain.HasGlobally a → (a.Satisfies r.2 ↔ a.Satisfies i)) ∧
    ∀ {σ : Type} [Separator σ Exact] (st : SeparationState Exact σ)
      (solution : RelaxationSolution Exact),
      (∀ separator ∈ st.manager.separators,
        ∀ cut ∈ SeparationManager.cutsOf s.domain solution separator, cut.Over model) →
      let cuts := st.manager.separators.flatMap (SeparationManager.cutsOf s.domain solution)
      let pool := ((SeparationManager.separate s.domain solution).perform st).2.pool
      st.pool.Gains s.domain.HasGlobally cuts pool ∧
        ∀ a, s.domain.HasGlobally a → (pool.HoldsAt a ↔
          st.pool.HoldsAt a ∧ ∀ c ∈ cuts, c.HasCoefficient → a.Satisfies c) := by
  have hsound := h.tightensSoundly hfeastol hwhole
  have hmodel := h.constant.1
  constructor
  · intro i hi
    exact (hsound i (hmodel ▸ hi)).mono fun r _ hr => hr.1
  · intro σ _ st solution hcuts
    have hgains := SeparationManager.separate_gains hsound st solution
      fun separator hmem cut hcut => hmodel ▸ hcuts separator hmem cut hcut
    exact ⟨hgains, fun a ha => hgains.holdsAt_iff ha⟩

end Runs

/-- Three integer columns and a continuous one. -/
def mixedColumns : Draft Exact :=
  ⟨#[⟨0, 0, 1, .integer⟩, ⟨0, 0, 1, .integer⟩, ⟨0, 0, 1, .integer⟩, ⟨0, 0, 2, .continuous⟩], #[], 0⟩

/-- A cut with large coefficients of both signs. -/
def wideCut : Inequality Exact := ⟨[(0, 3), (1, 1), (2, -5), (3, 1)], 4⟩

/-- A cut without a coefficient that is not zero, which no point satisfies. -/
def contradictoryCut : Inequality Exact := ⟨[(0, 0)], -1⟩

/-- One separator that returns a cut, and an empty pool. -/
def oneCutSeparation (cut : Inequality Exact) : SeparationState Exact (CutList Exact) :=
  ⟨⟨[⟨"cuts", [[cut]], 0⟩], ⟨1, 0, 1, 1, 10⟩, 1e-6⟩, .empty 10⟩

/-- The state below a decision about one of the columns, with the outcome of tightening the wide cut
there. -/
theorem mixedColumns_below_decision :
    ∃ (model : Model Exact) (s : PropagationState Exact), mixedColumns.build = .ok model ∧
      Reachable (fun _ _ => True) model 1e-6 s ∧ s.domain.depth = 1 ∧ model.columns.size = 4 ∧
      (∀ c < 4, s.domain.globalBox .lower c = number 0 ∧
        (s.domain.globalBox .upper c = number 1 ∨ s.domain.globalBox .upper c = number 2)) ∧
      ∃ r, s.domain.tighten wideCut = .ok r ∧
        r.2.entries = [(0, 2), (1, 1), (2, -2), (3, 1)] := by
  have hrun : passes mixedColumns.build (fun model => passes (Domain.ofModel model 1e-6) fun d =>
      passes (Operation.perform ⟨.empty, d⟩ (.changeBound (.atMost 2 0) .branching)) fun s =>
        s.domain.depth == 1 && model.columns.size == 4 &&
          ((List.range 4).all fun c => decide (s.domain.globalBox .lower c = number 0 ∧
            (s.domain.globalBox .upper c = number 1 ∨ s.domain.globalBox .upper c = number 2))) &&
          passes (s.domain.tighten wideCut) fun r =>
            decide (r.2.entries = [(0, 2), (1, 1), (2, -2), (3, 1)])) = true := by
    decide +kernel
  obtain ⟨model, hmodel, hrun⟩ := passes_eq_true.mp hrun
  obtain ⟨d, hd, hrun⟩ := passes_eq_true.mp hrun
  obtain ⟨s, hs, hrun⟩ := passes_eq_true.mp hrun
  simp only [Bool.and_eq_true, beq_iff_eq, List.all_eq_true, List.mem_range, decide_eq_true_eq,
    passes_eq_true] at hrun
  obtain ⟨⟨⟨hdepth, hsize⟩, hbox⟩, htightened⟩ := hrun
  exact ⟨model, s, hmodel, .step (.start hd) trivial hs, hdepth, hsize, hbox, htightened⟩

/-- A box with the bounds zero below and one or two above is whole. -/
theorem Domain.globallyWhole_of_small {d : Domain Exact} {n : Nat}
    (hsize : d.model.columns.size = n)
    (hbox : ∀ c < n, d.globalBox .lower c = number 0 ∧
      (d.globalBox .upper c = number 1 ∨ d.globalBox .upper c = number 2)) : d.GloballyWhole := by
  intro c column hcolumn _ side
  have hc : c < n := by
    rw [← hsize]
    exact (Array.getElem?_eq_some_iff.mp hcolumn).1
  obtain ⟨hlower, hupper⟩ := hbox c hc
  refine .inr (.inr ?_)
  cases side with
  | lower => exact ⟨0, by rw [hlower, Int.cast_zero]⟩
  | upper =>
      rcases hupper with hupper | hupper
      · exact ⟨1, by rw [hupper, Int.cast_one]⟩
      · exact ⟨2, by rw [hupper, Int.cast_ofNat]⟩

/-- Below a decision about one of its columns the cut is tightened with respect to the global
bounds: two coefficients are reduced, and the points of the global box are kept. A round of
separation that yields the cut makes the pool exclude the points that the cut excludes. -/
theorem wideCut_tightened_below_decision :
    ∃ (model : Model Exact) (s : PropagationState Exact),
      Reachable (fun _ _ => True) model 1e-6 s ∧ s.domain.depth = 1 ∧ s.domain.GloballyWhole ∧
      Returns (s.domain.tighten wideCut) (fun r =>
        r.2.entries = [(0, 2), (1, 1), (2, -2), (3, 1)] ∧
        ∀ a, s.domain.HasGlobally a → (a.Satisfies r.2 ↔ a.Satisfies wideCut)) ∧
      let pool := ((SeparationManager.separate s.domain ⟨#[1 / 2, 1, 0, 2], 0, none, 0⟩).perform
        (oneCutSeparation wideCut)).2.pool
      CutPool.Gains s.domain.HasGlobally (.empty 10) [wideCut] pool ∧
        ∀ a, s.domain.HasGlobally a → (pool.HoldsAt a ↔ a.Satisfies wideCut) := by
  obtain ⟨model, s, -, hreach, hdepth, hsize, hbox, r, hr, htightened⟩ :=
    mixedColumns_below_decision
  have hwhole : s.domain.GloballyWhole :=
    Domain.globallyWhole_of_small (hreach.constant.1 ▸ hsize) hbox
  have hover : wideCut.Over model := by
    simp [Inequality.Over, wideCut, hsize]
  obtain ⟨htighten, hseparate⟩ :=
    tightening_keeps_integer_points (by decide +kernel) hreach hwhole
  obtain ⟨hgains, hholds⟩ := hseparate (oneCutSeparation wideCut) ⟨#[1 / 2, 1, 0, 2], 0, none, 0⟩
    fun separator hseparator cut hcut => by
      obtain rfl := List.mem_singleton.mp hseparator
      obtain rfl := List.mem_singleton.mp hcut
      exact hover
  refine ⟨model, s, hreach, hdepth, hwhole, ⟨r, hr, htightened, ?_⟩, hgains, fun a ha => ?_⟩
  · exact (htighten wideCut hover).of_eq_ok hr
  · have hcoefficient : wideCut.HasCoefficient := ⟨(0, 3), List.mem_cons_self, by decide +kernel⟩
    refine (hholds a ha).trans ⟨fun h => h.2 wideCut (List.mem_singleton_self _) hcoefficient,
      fun h => ⟨fun _ _ hcut => ?_, fun c hc _ => ?_⟩⟩
    · cases hcut
    · obtain rfl := List.mem_singleton.mp hc
      exact h

/-- **A contradiction is not pooled.** A separator returns a cut with the coefficient zero and a
negative right-hand side. It excludes every point, but the pool, which takes no cut without
coefficients, holds at the origin after the round. -/
theorem contradictory_cut_not_pooled :
    ∃ (model : Model Exact) (s : PropagationState Exact) (a : Assignment),
      mixedColumns.build = .ok model ∧ Reachable (fun _ _ => True) model 1e-6 s ∧
      s.domain.GloballyWhole ∧
      contradictoryCut.Over model ∧ s.domain.HasGlobally a ∧ ¬a.Satisfies contradictoryCut ∧
      ((SeparationManager.separate s.domain ⟨#[0, 0, 0, 0], 0, none, 0⟩).perform
        (oneCutSeparation contradictoryCut)).2.pool.HoldsAt a := by
  obtain ⟨model, s, hbuild, hreach, -, hsize, hbox, -⟩ := mixedColumns_below_decision
  have hmodel := hreach.constant.1
  have hwhole : s.domain.GloballyWhole := Domain.globallyWhole_of_small (hmodel ▸ hsize) hbox
  have hover : contradictoryCut.Over model := by
    simp [Inequality.Over, contradictoryCut, hsize]
  have hpoint : s.domain.HasGlobally fun _ => 0 := by
    refine ⟨fun side c hc => ?_, fun _ _ _ _ => ⟨0, Int.cast_zero.symm⟩⟩
    rw [hmodel, hsize] at hc
    obtain ⟨hlower, hupper⟩ := hbox c hc
    cases side with
    | lower =>
        rw [hlower]
        exact number_le.mpr (le_refl 0)
    | upper =>
        rcases hupper with hupper | hupper
        · rw [hupper]
          exact number_le.mpr zero_le_one
        · rw [hupper]
          exact number_le.mpr zero_le_two
  have hgains :=
    SeparationManager.separate_gains (hreach.tightensSoundly (by decide +kernel) hwhole)
    (oneCutSeparation contradictoryCut) ⟨#[0, 0, 0, 0], 0, none, 0⟩
      fun separator hseparator cut hcut => by
      obtain rfl := List.mem_singleton.mp hseparator
      obtain rfl := List.mem_singleton.mp hcut
      exact hmodel ▸ hover
  refine ⟨model, s, fun _ => 0, hbuild, hreach, hwhole, hover, hpoint, ?_, ?_⟩
  · have htotal : Assignment.total (fun _ => 0) (contradictoryCut.entries : List _) = 0 := by
      rw [contradictoryCut, Assignment.total_coe_cons, mul_zero, zero_add]
      rfl
    rw [Assignment.Satisfies, htotal]
    decide +kernel
  · refine (hgains.holdsAt_iff hpoint).mpr ⟨fun _ _ hcut => ?_, fun c hc hcoefficient => ?_⟩
    · cases hcut
    · obtain rfl := List.mem_singleton.mp hc
      obtain ⟨e, he, hne⟩ := hcoefficient
      obtain rfl := List.mem_singleton.mp he
      exact absurd rfl hne

end BranchBound
