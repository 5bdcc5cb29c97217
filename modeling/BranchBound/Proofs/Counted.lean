import BranchBound.Proofs.Checked

/-!
# Operations that do not stop

A checked operation may stop for many reasons. That a counter would fall below zero is never the
caller's fault, and `Counted` says that an operation does not stop for this reason. Only `uncount`
itself can do so; everything else passes the property on from its parts. `Succeeds` says more: the
operation returns, whatever it returns. It is passed on as well, where the positions that are read
have to be shown to exist.
-/

namespace BranchBound

namespace Checked

variable {β γ σ : Type}

/-- The operation does not stop because a counter would fall below zero. -/
def Counted (x : Checked β) : Prop := x ≠ .error .counterUnderflow

theorem Counted.ok (b : β) : Counted (.ok b) := fun h => by cases h

theorem Counted.pure (b : β) : Counted (pure b) := fun h => by cases h

theorem Counted.throw {fault : Fault} (h : fault ≠ .counterUnderflow) :
    Counted (throw fault : Checked β) := by
  intro hthrow
  cases hthrow
  exact h rfl

theorem Returns.counted {x : Checked β} {Q : β → Prop} (h : Returns x Q) : Counted x := by
  obtain ⟨b, rfl, -⟩ := h
  exact .ok b

theorem Counted.bind {x : Checked β} {f : β → Checked γ} (hx : Counted x)
    (hf : ∀ b, x = .ok b → Counted (f b)) : Counted (x >>= f) := by
  cases x with
  | error fault =>
      intro h
      cases h
      exact hx rfl
  | ok b => exact hf b rfl

theorem Counted.ite {p : Prop} [Decidable p] {x y : Checked β} (hx : p → Counted x)
    (hy : ¬p → Counted y) : Counted (if p then x else y) := by
  split
  · next h => exact hx h
  · next h => exact hy h

/-- The operation returns. -/
abbrev Succeeds (x : Checked β) : Prop := Returns x fun _ => True

theorem Returns.succeeds {x : Checked β} {Q : β → Prop} (h : Returns x Q) : Succeeds x :=
  h.mono fun _ _ _ => trivial

theorem succeeds_pure (b : β) : Succeeds (pure b) := .pure trivial

theorem Succeeds.bind {x : Checked β} {f : β → Checked γ} (hx : Succeeds x)
    (hf : ∀ b, x = .ok b → Succeeds (f b)) : Succeeds (x >>= f) :=
  Returns.bind hx fun b hb _ => hf b hb

theorem Succeeds.ite {p : Prop} [Decidable p] {x y : Checked β} (hx : p → Succeeds x)
    (hy : ¬p → Succeeds y) : Succeeds (if p then x else y) := by
  split
  · next h => exact hx h
  · next h => exact hy h

end Checked

open Checked

section Tables

variable {β : Type}

theorem fetch_counted (table : Array β) (position : Nat) : Counted (fetch table position) := by
  unfold fetch
  split
  · exact .ok _
  · exact fun h => by cases h

theorem store_counted (table : Array β) (position : Nat) (entry : β) :
    Counted (store table position entry) := by
  unfold store
  split
  · exact .ok _
  · exact fun h => by cases h

theorem update_counted (table : Array β) (position : Nat) {f : β → Checked β}
    (h : ∀ entry, Counted (f entry)) : Counted (update table position f) :=
  (fetch_counted table position).bind fun entry _ => (h entry).bind fun _ _ => store_counted _ _ _

theorem fetch_succeeds {table : Array β} {position : Nat} (h : position < table.size) :
    Succeeds (fetch table position) :=
  (fetch_returns h).succeeds

theorem store_succeeds {table : Array β} {position : Nat} (entry : β) (h : position < table.size) :
    Succeeds (store table position entry) :=
  (store_returns entry h).succeeds

theorem update_succeeds {table : Array β} {position : Nat} (f : β → β)
    (h : position < table.size) : Succeeds (update table position fun entry => .ok (f entry)) :=
  (fetch_succeeds h).bind fun _ _ => store_succeeds _ h

theorem keepIf_succeeds {test : β → Checked Bool} {xs : List β} (h : ∀ x ∈ xs, Succeeds (test x)) :
    Succeeds (keepIf test xs) := by
  induction xs with
  | nil => exact .ok trivial
  | cons x xs ih =>
      refine Succeeds.bind (h x (List.mem_cons_self ..)) fun _ _ => ?_
      exact Succeeds.bind (ih fun y hy => h y (List.mem_cons_of_mem _ hy)) fun _ _ =>
        succeeds_pure _

end Tables

section Loops

variable {β γ σ : Type}

/-- A loop does not stop if no step does under an invariant that the steps keep. -/
theorem foldlM_counted {f : σ → β → Checked σ} (P : σ → Prop) {xs : List β} {s : σ}
    (hstep : ∀ s x, x ∈ xs → P s → Counted (f s x) ∧ ∀ s', f s x = .ok s' → P s') (hs : P s) :
    Counted (xs.foldlM f s) := by
  induction xs generalizing s with
  | nil => exact .pure s
  | cons x xs ih =>
      rw [List.foldlM_cons]
      obtain ⟨hx, hkeeps⟩ := hstep s x (List.mem_cons_self ..) hs
      exact hx.bind fun t ht =>
        ih (fun s y hy => hstep s y (List.mem_cons_of_mem _ hy)) (hkeeps t ht)

theorem mapM_counted {f : β → Checked γ} (h : ∀ x, Counted (f x)) (xs : List β) :
    Counted (xs.mapM f) := by
  induction xs with
  | nil => exact .pure []
  | cons x xs ih =>
      rw [List.mapM_cons]
      exact (h x).bind fun _ _ => ih.bind fun _ _ => .pure _

theorem keepIf_counted {test : β → Checked Bool} (h : ∀ x, Counted (test x)) (xs : List β) :
    Counted (keepIf test xs) := by
  induction xs with
  | nil => exact .ok []
  | cons x xs ih => exact (h x).bind fun _ _ => ih.bind fun _ _ => .pure _

theorem allHold_counted {test : β → Checked Bool} (h : ∀ x, Counted (test x)) (xs : List β) :
    Counted (allHold test xs) := by
  induction xs with
  | nil => exact .ok true
  | cons x xs ih =>
      refine (h x).bind fun holds _ => ?_
      split
      · exact ih
      · exact .pure false

theorem collect_counted {f : β → Checked (Option γ)} (h : ∀ x, Counted (f x)) (xs : List β) :
    Counted (collect f xs) := by
  induction xs with
  | nil => exact .ok []
  | cons x xs ih => exact (h x).bind fun _ _ => ih.bind fun _ _ => .pure _

end Loops

namespace Action

variable {σ τ β γ : Type}

/-- An action made of two parts does not stop if neither does. -/
theorem bind_counted {x : Action σ β} {f : β → Action σ γ} {s : σ} (hx : Counted (x.perform s).1)
    (hf : ∀ b t, x.perform s = (.ok b, t) → Counted ((f b).perform t).1) :
    Counted ((x >>= f).perform s).1 := by
  rw [perform_bind]
  rcases h : x.perform s with ⟨outcome, after⟩
  rw [h] at hx
  cases outcome with
  | error fault => exact fun hfault => hx (congrArg Except.error (Except.error.inj hfault))
  | ok b => exact hf b after h

theorem perform_get_bind (f : σ → Action σ β) (s : σ) :
    ((get : Action σ σ) >>= f).perform s = (f s).perform s := rfl

theorem change_counted {f : σ → Checked σ} {s : σ} (h : Counted (f s)) :
    Counted ((change f).perform s).1 := by
  rw [change, perform_get_bind]
  exact bind_counted h fun _ _ _ => .ok ()

theorem forM_change_counted {f : β → σ → Checked σ} (h : ∀ x s, Counted (f x s)) (xs : List β)
    (s : σ) : Counted ((xs.forM fun x => change (f x)).perform s).1 := by
  induction xs generalizing s with
  | nil => exact .ok ()
  | cons x xs ih => exact bind_counted (change_counted (h x s)) fun _ t _ => ih t

theorem finish_counted {x : Action σ β} {s : σ} (h : Counted (x.perform s).1) :
    Counted (x.finish s) := by
  unfold finish
  rcases hx : x.perform s with ⟨outcome, after⟩
  rw [hx] at h
  cases outcome with
  | error fault => exact fun hfault => h (congrArg Except.error (Except.error.inj hfault))
  | ok b => exact .ok _

/-- An action made of two parts returns if both do. -/
theorem bind_succeeds {x : Action σ β} {f : β → Action σ γ} {s : σ} (hx : Succeeds (x.perform s).1)
    (hf : ∀ b t, x.perform s = (.ok b, t) → Succeeds ((f b).perform t).1) :
    Succeeds ((x >>= f).perform s).1 := by
  rw [perform_bind]
  obtain ⟨b, hb, -⟩ := hx
  rcases h : x.perform s with ⟨outcome, after⟩
  rw [h] at hb
  obtain rfl : outcome = .ok b := hb
  exact hf b after h

theorem change_succeeds {f : σ → Checked σ} {s : σ} (h : Succeeds (f s)) :
    Succeeds ((change f).perform s).1 := by
  rw [change, perform_get_bind]
  exact bind_succeeds h fun _ _ _ => .ok trivial

/-- Changes made for every element of a list return under an invariant that they keep. -/
theorem forM_change_succeeds {f : β → σ → Checked σ} {P : σ → Prop} {xs : List β} {s : σ}
    (hstep : ∀ x ∈ xs, ∀ s, P s → Returns (f x s) P) (hs : P s) :
    Succeeds ((xs.forM fun x => change (f x)).perform s).1 := by
  induction xs generalizing s with
  | nil => exact .ok trivial
  | cons x xs ih =>
      have hx := hstep x (List.mem_cons_self ..) s hs
      refine bind_succeeds (change_succeeds hx.succeeds) fun _ t ht => ?_
      exact ih (fun y hy => hstep y (List.mem_cons_of_mem _ hy))
        (hx.of_eq_ok (perform_change_eq_ok.mp ht))

end Action

end BranchBound
