import NullSafe.Proofs.Direct
import NullSafe.Proofs.Simulation

/-! # How evaluations of a tree end

An evaluation with variables ends with a result and variables, or with an error, in some world.
-/

namespace NullSafe

theorem Run.outcome_bind_congr {α β : Type} {x y : Run α} {w w' : World} (h : x.outcome w = y.outcome w')
    (k : α → Run β) : (x >>= k).outcome w = (y >>= k).outcome w' := by
  rw [Run.outcome_bind, Run.outcome_bind, h]

namespace Direct

variable {α β : Type} {e e₁ : Env} {w w₁ : World}

theorem outcome_pure (a : α) (e : Env) (w : World) : ((pure a : Direct α).run e).outcome w = (.ok (a, e), w) := rfl

theorem outcome_bind (x : Direct α) (k : α → Direct β) (e : Env) (w : World) :
    ((x >>= k).run e).outcome w = match (x.run e).outcome w with
      | (.ok (a, e'), w') => ((k a).run e').outcome w'
      | (.error r, w') => (.error r, w') := by
  rw [StateT.run_bind, Run.outcome_bind]
  rcases (x.run e).outcome w with ⟨r | ⟨a, e'⟩, w'⟩ <;> rfl

theorem outcome_bind_congr {x y : Direct α} (h : (x.run e).outcome w = (y.run e₁).outcome w₁) (k : α → Direct β) :
    ((x >>= k).run e).outcome w = ((y >>= k).run e₁).outcome w₁ := by
  rw [outcome_bind, outcome_bind, h]

theorem outcome_map (f : α → β) (x : Direct α) (e : Env) (w : World) :
    ((f <$> x).run e).outcome w = match (x.run e).outcome w with
      | (.ok (a, e'), w') => (.ok (f a, e'), w')
      | (.error r, w') => (.error r, w') := by
  rw [map_eq_pure_bind, outcome_bind]
  rcases (x.run e).outcome w with ⟨r | ⟨a, e'⟩, w'⟩ <;> rfl

theorem outcome_lift (x : Run α) (e : Env) (w : World) :
    ((liftM x : Direct α).run e).outcome w = match x.outcome w with
      | (.ok a, w') => (.ok (a, e), w')
      | (.error r, w') => (.error r, w') := by
  rw [run_liftM, Run.outcome_bind]
  rcases x.outcome w with ⟨r | a, w'⟩ <;> rfl

theorem outcome_get (e : Env) (w : World) : ((get : Direct Env).run e).outcome w = (.ok (e, e), w) := rfl

section Onward

variable {x : Direct (Option Value)} {test : Value → Direct Bool} {next : Value → Direct Value}

theorem outcome_onward_none (hx : (x.run e).outcome w = (.ok (none, e₁), w₁)) :
    ((onward x test next).run e).outcome w = (.ok (none, e₁), w₁) := by
  rw [onward, outcome_bind, hx]
  rfl

theorem outcome_onward_stop {v : Value} {e₂ : Env} {w₂ : World} (hx : (x.run e).outcome w = (.ok (some v, e₁), w₁))
    (htest : ((test v).run e₁).outcome w₁ = (.ok (false, e₂), w₂)) :
    ((onward x test next).run e).outcome w = (.ok (none, e₂), w₂) := by
  rw [onward, outcome_bind, hx]
  dsimp only
  rw [outcome_bind, htest]
  rfl

theorem outcome_onward_next {v : Value} {e₂ : Env} {w₂ : World} (hx : (x.run e).outcome w = (.ok (some v, e₁), w₁))
    (htest : ((test v).run e₁).outcome w₁ = (.ok (true, e₂), w₂)) :
    ((onward x test next).run e).outcome w = ((some <$> next v).run e₂).outcome w₂ := by
  rw [onward, outcome_bind, hx]
  dsimp only
  rw [outcome_bind, htest]
  rfl

end Onward

theorem outcome_whole (x : Direct (Option Value)) (e : Env) (w : World) :
    ((whole x).run e).outcome w = match (x.run e).outcome w with
      | (.ok (o, e'), w') => (.ok (o.getD .null, e'), w')
      | (.error r, w') => (.error r, w') := by
  rw [whole, outcome_bind]
  rcases (x.run e).outcome w with ⟨r | ⟨o, e'⟩, w'⟩ <;> rfl

theorem outcome_whole_onward {x : Direct (Option Value)} {test : Value → Direct Bool} {next : Value → Direct Value}
    {v : Value} {e₂ : Env} {w₂ : World} (hx : (x.run e).outcome w = (.ok (some v, e₁), w₁))
    (htest : ((test v).run e₁).outcome w₁ = (.ok (true, e₂), w₂)) :
    ((whole (onward x test next)).run e).outcome w = ((next v).run e₂).outcome w₂ := by
  rw [outcome_whole, outcome_onward_next hx htest, outcome_map]
  rcases ((next v).run e₂).outcome w₂ with ⟨r | ⟨y, e₃⟩, w₃⟩ <;> rfl

theorem outcome_isThere {ι : Type} {scope : Scope} {t : Surface.Expr ι} (ht : isPresent scope t = false) (v : Value)
    (e : Env) (w : World) : ((isThere scope t v).run e).outcome w = (.ok (v ≠ .null, e), w) := by
  rw [isThere, ht, Bool.false_or]
  rfl

end Direct

end NullSafe
