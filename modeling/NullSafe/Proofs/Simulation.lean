import NullSafe.Eval

/-! # Computations that run alike

Two computations with states of their own run alike when, started in related states and the same world,
both end in the same world, either with the same error or with related results and states.
-/

namespace NullSafe

theorem mem_of_lookup_eq_some {κ α : Type} [BEq κ] [LawfulBEq κ] {entries : List (κ × α)} {k : κ} {a : α}
    (h : entries.lookup k = some a) : (k, a) ∈ entries := by
  obtain ⟨before, after, rfl, -⟩ := List.lookup_eq_some_iff.1 h
  simp

section Failing

variable {ε σ α β : Type} {x : ExceptT ε (StateM σ) α} {s s' : σ}

/-- A computation with a state that can fail goes on with the result of its first part. -/
theorem run_bind_of_ok {a : α} (h : x.run.run s = (.ok a, s')) (k : α → ExceptT ε (StateM σ) β) :
    (x >>= k).run.run s = (k a).run.run s' := by
  rw [ExceptT.run_bind, StateT.run_bind, h]
  rfl

/-- A computation with a state that can fail ends where its first part fails. -/
theorem run_bind_of_error {e : ε} (h : x.run.run s = (.error e, s')) (k : α → ExceptT ε (StateM σ) β) :
    (x >>= k).run.run s = (.error e, s') := by
  rw [ExceptT.run_bind, StateT.run_bind, h]
  rfl

end Failing

/-- How a run ends in a world: with a result or an error, and in which world. -/
def Run.outcome {α : Type} (x : Run α) (w : World) : Except Raised α × World := x.run.run w

namespace Run

variable {α β : Type}

@[simp] theorem outcome_pure (a : α) (w : World) : (pure a : Run α).outcome w = (.ok a, w) := rfl

@[simp] theorem outcome_throw (r : Raised) (w : World) : (throw r : Run α).outcome w = (.error r, w) := rfl

@[simp] theorem outcome_get (w : World) : (get : Run World).outcome w = (.ok w, w) := rfl

theorem outcome_bind (x : Run α) (k : α → Run β) (w : World) :
    (x >>= k).outcome w = match x.outcome w with
      | (.ok a, w') => (k a).outcome w'
      | (.error r, w') => (.error r, w') := by
  rcases hx : x.outcome w with ⟨r | a, w'⟩
  · exact run_bind_of_error hx k
  · exact run_bind_of_ok hx k

theorem ext_outcome {x y : Run α} (h : ∀ w, x.outcome w = y.outcome w) : x = y :=
  funext h

theorem outcome_tryCatch (x : Run α) (k : Raised → Run α) (w : World) :
    (tryCatch x k : Run α).outcome w = match x.outcome w with
      | (.ok a, w') => (.ok a, w')
      | (.error e, w') => (k e).outcome w' := by
  rw [outcome, ExceptT.run_tryCatch, StateT.run_bind]
  rcases hx : x.outcome w with ⟨e | a, w'⟩ <;> rw [show x.run.run w = _ from hx] <;> rfl

end Run

namespace Host

variable {host : Host} {op : Operation} {args : List Value} {w : World}

theorem outcome_operate (host : Host) (op : Operation) (args : List Value) (w : World) :
    (host.operate op args).outcome w = ((host.accessor? w op args).getD (op.run args)).outcome w := by
  unfold operate
  rw [Run.outcome_bind, Run.outcome_get]
  dsimp only
  cases host.accessor? w op args <;> rfl

theorem operate_eq_run (h : ∀ w, host.accessor? w op args = none) : host.operate op args = op.run args :=
  Run.ext_outcome fun w => by rw [outcome_operate, h]; rfl

/-- Only reading and writing of properties of objects is done by the host. -/
theorem operate_of_head (h : ∀ r rest, args ≠ .object r :: rest) : host.operate op args = op.run args := by
  refine operate_eq_run fun w => ?_
  unfold accessor?
  split
  · exact absurd rfl (h _ _)
  · exact absurd rfl (h _ _)
  · rfl

end Host

theorem run_liftM {σ α : Type} (x : Run α) (f : σ) :
    (liftM x : StateT σ Run α).run f = x >>= fun a => pure (a, f) := rfl

/-- Two ends that agree: the same world, and the same error or related results. -/
def Alike {α β : Type} (P : α → β → Prop) : Except Raised α × World → Except Raised β × World → Prop
  | (.ok a, w), (.ok b, w') => w = w' ∧ P a b
  | (.error r, w), (.error r', w') => w = w' ∧ r = r'
  | _, _ => False

/-- Two computations run alike: `R` relates their states and `P` their results. -/
def Simulates {σ τ α β : Type} (R : σ → τ → Prop) (P : α → β → Prop) (x : StateT σ Run α) (y : StateT τ Run β) : Prop :=
  ∀ f e w, R f e → Alike (fun p q => P p.1 q.1 ∧ R p.2 q.2) ((x.run f).outcome w) ((y.run e).outcome w)

namespace Simulates

variable {σ τ α β γ δ : Type} {R : σ → τ → Prop} {P : α → β → Prop} {Q : γ → δ → Prop}
  {x : StateT σ Run α} {y : StateT τ Run β}

theorem pure {a : α} {b : β} (h : P a b) : Simulates R P (Pure.pure a) (Pure.pure b) :=
  fun _ _ _ hR => ⟨rfl, h, hR⟩

theorem bind {k : α → StateT σ Run γ}
    {l : β → StateT τ Run δ} (h : Simulates R P x y) (hk : ∀ a b, P a b → Simulates R Q (k a) (l b)) :
    Simulates R Q (x >>= k) (y >>= l) := by
  intro f e w hR
  have hxy := h f e w hR
  rw [StateT.run_bind, StateT.run_bind, Run.outcome_bind, Run.outcome_bind]
  rcases hx : (x.run f).outcome w with ⟨r | ⟨a, f'⟩, w₁⟩ <;>
    rcases hy : (y.run e).outcome w with ⟨r' | ⟨b, e'⟩, w₂⟩ <;> rw [hx, hy] at hxy
  · exact hxy
  · exact hxy.elim
  · exact hxy.elim
  · obtain ⟨rfl, hP, hR'⟩ := hxy
    exact hk a b hP f' e' w₁ hR'

theorem bind_eq {y : StateT τ Run α} {k : α → StateT σ Run γ}
    {l : α → StateT τ Run δ} (h : Simulates R Eq x y) (hk : ∀ a, Simulates R Q (k a) (l a)) :
    Simulates R Q (x >>= k) (y >>= l) :=
  bind h fun a _ hab => hab ▸ hk a

theorem map {g : α → γ} {k : β → δ} (h : Simulates R P x y) (hk : ∀ a b, P a b → Q (g a) (k b)) :
    Simulates R Q (g <$> x) (k <$> y) := by
  rw [map_eq_pure_bind, map_eq_pure_bind]
  exact bind h fun a b hP => pure (hk a b hP)

theorem lift (x : Run α) : Simulates R Eq (liftM x) (liftM x) := by
  intro f e w hR
  rw [run_liftM, run_liftM, Run.outcome_bind, Run.outcome_bind]
  rcases x.outcome w with ⟨r | a, w'⟩
  · exact ⟨rfl, rfl⟩
  · exact ⟨rfl, rfl, hR⟩

theorem get : Simulates R R (MonadState.get : StateT σ Run σ) (MonadState.get : StateT τ Run τ) :=
  fun _ _ _ hR => ⟨rfl, hR, hR⟩

theorem getWorld : Simulates R Eq (getThe World : StateT σ Run World) (getThe World : StateT τ Run World) :=
  fun _ _ _ hR => ⟨rfl, rfl, hR⟩

theorem update {g : σ → σ} {k : τ → τ} (h : ∀ f e, R f e → R (g f) (k e)) :
    Simulates R Eq (modify g : StateT σ Run PUnit) (modify k : StateT τ Run PUnit) :=
  fun f e _ hR => ⟨rfl, rfl, h f e hR⟩

theorem update_left {g : σ → σ} {k : PUnit → StateT σ Run α}
    (hg : ∀ f e, R f e → R (g f) e) (h : Simulates R P (k ⟨⟩) y) :
    Simulates R P ((modify g : StateT σ Run PUnit) >>= k) y :=
  fun f e w hR => h (g f) e w (hg f e hR)

end Simulates

end NullSafe
