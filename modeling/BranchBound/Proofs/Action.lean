import BranchBound.Proofs.Checked

/-!
# What an action leads to

`Action.Leads P x Q` says that an action, started in a state that satisfies `P`, gives only results
and leaves only states that satisfy `Q`, if it does not stop. An action that keeps an invariant
leads from it to itself. These statements are put together along the parts of an action.
-/

namespace BranchBound

namespace Action

variable {σ τ β γ : Type}

/-- From a state that satisfies `P` the action leads to a result and a state that satisfy `Q`. -/
def Leads (P : σ → Prop) (x : Action σ β) (Q : β → σ → Prop) : Prop :=
  ∀ s b t, P s → x.perform s = (.ok b, t) → Q b t

/-- The action leads from states that satisfy an invariant to such states. -/
abbrev Keeps (P : σ → Prop) (x : Action σ β) : Prop := Leads P x fun _ => P

variable {P P' : σ → Prop} {Q Q' : β → σ → Prop} {R : γ → σ → Prop} {x : Action σ β}

theorem Leads.mono (h : Leads P x Q) (hP : ∀ s, P' s → P s) (hQ : ∀ b s, Q b s → Q' b s) :
    Leads P' x Q' :=
  fun s b t hs hx => hQ b t (h s b t (hP s hs) hx)

theorem Leads.before (h : Leads P x Q) (hP : ∀ s, P' s → P s) : Leads P' x Q :=
  h.mono hP fun _ _ hs => hs

theorem Leads.after (h : Leads P x Q) (hQ : ∀ b s, Q b s → Q' b s) : Leads P x Q' :=
  h.mono (fun _ hs => hs) hQ

theorem Leads.and (h : Leads P x Q) (h' : Leads P x Q') : Leads P x fun b s => Q b s ∧ Q' b s :=
  fun s b t hs hx => ⟨h s b t hs hx, h' s b t hs hx⟩

/-- What an action leads to may be said of each state that it is started in. -/
theorem Leads.fix (h : ∀ s, P s → Leads (fun t => t = s) x Q) : Leads P x Q :=
  fun s b t hs hx => h s hs s b t rfl hx

theorem Leads.bind {f : β → Action σ γ} (hx : Leads P x Q) (hf : ∀ b, Leads (Q b) (f b) R) :
    Leads P (x >>= f) R := by
  intro s c t hs h
  obtain ⟨b, u, hu, ht⟩ := perform_bind_eq_ok.mp h
  exact hf b u c t (hx s b u hs hu) ht

/-- What is known of a result is known in all that follows. -/
theorem Leads.knowing {p : β → Prop} {f : β → Action σ γ} (hx : Leads P x fun b s => p b ∧ P s)
    (hf : ∀ b, p b → Leads P (f b) R) : Leads P (x >>= f) R :=
  hx.bind fun b s c t hs h => hf b hs.1 s c t hs.2 h

theorem Leads.pure {b : β} (h : ∀ s, P s → Q b s) : Leads P (pure b) Q := by
  intro s c t hs hp
  cases hp
  exact h s hs

theorem Leads.throw {fault : Fault} : Leads P (throw fault : Action σ β) Q :=
  fun s b t _ h => by cases h

theorem Leads.get : Leads P (get : Action σ σ) fun b s => b = s ∧ P s := by
  intro s b t hs h
  cases h
  exact ⟨rfl, hs⟩

theorem Leads.modify {f : σ → σ} {Q : Unit → σ → Prop} (h : ∀ s, P s → Q () (f s)) :
    Leads P (modify f : Action σ Unit) Q := by
  intro s b t hs hm
  cases hm
  exact h s hs

/-- A checked operation leaves the state alone. -/
theorem Leads.lift {x : Checked β} :
    Leads P (liftM x : Action σ β) fun b s => x = .ok b ∧ P s := by
  intro s b t hs h
  rw [perform_lift, Prod.mk.injEq] at h
  exact ⟨h.1, h.2 ▸ hs⟩

theorem Leads.ite {p : Prop} [Decidable p] {y : Action σ β} (hx : p → Leads P x Q)
    (hy : ¬p → Leads P y Q) : Leads P (if p then x else y) Q := by
  split
  · next h => exact hx h
  · next h => exact hy h

theorem Leads.change {f : σ → Checked σ} {Q : Unit → σ → Prop}
    (h : ∀ s t, P s → f s = .ok t → Q () t) : Leads P (change f) Q :=
  fun s _ t hs hf => h s t hs (perform_change_eq_ok.mp hf)

theorem Leads.finish (h : Leads P x Q) {s t : σ} {b : β} (hs : P s)
    (hx : x.finish s = .ok (b, t)) : Q b t :=
  h s b t hs (finish_eq_ok.mp hx)

section Keeps

theorem Keeps.lift {x : Checked β} : Keeps P (liftM x : Action σ β) :=
  Leads.lift.after fun _ _ h => h.2

theorem Keeps.pure {b : β} : Keeps P (pure b) := Leads.pure fun _ h => h

theorem Keeps.get : Keeps P (get : Action σ σ) := Leads.get.after fun _ _ h => h.2

theorem Keeps.modify {f : σ → σ} (h : ∀ s, P s → P (f s)) : Keeps P (modify f : Action σ Unit) :=
  Leads.modify h

/-- An action that is repeated for the elements of a list keeps what it keeps for each of them. -/
theorem Keeps.forM_mem {f : β → Action σ Unit} {xs : List β} (h : ∀ x ∈ xs, Keeps P (f x)) :
    Keeps P (xs.forM f) := by
  induction xs with
  | nil => exact Keeps.pure
  | cons x xs ih =>
      exact (h x (List.mem_cons_self ..)).bind fun _ =>
        ih fun y hy => h y (List.mem_cons_of_mem _ hy)

theorem Keeps.forM {f : β → Action σ Unit} (h : ∀ x, Keeps P (f x)) (xs : List β) :
    Keeps P (xs.forM f) :=
  Keeps.forM_mem fun x _ => h x

/-- So does an action that is folded over a list. -/
theorem Keeps.foldlM {f : γ → β → Action σ γ} (h : ∀ c x, Keeps P (f c x)) (c : γ) (xs : List β) :
    Keeps P (xs.foldlM f c) := by
  induction xs generalizing c with
  | nil => exact Keeps.pure
  | cons x xs ih =>
      rw [List.foldlM_cons]
      exact (h c x).bind ih

end Keeps

end Action

end BranchBound
