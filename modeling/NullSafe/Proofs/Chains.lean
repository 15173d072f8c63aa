import NullSafe.Proofs.Direct
import NullSafe.Proofs.Emission
import NullSafe.Proofs.Parameters
import NullSafe.Proofs.Simulation

/-! # What guarded code does

Code behind guards is evaluated when every guard passes, the first one first. The value of a chain is
used right after its test, so a temporary always holds it then, and a variable that is read twice is not
changed in between.
-/

namespace NullSafe

open Surface

variable {ι : Type}

def Code.isVariable : Code ι → Bool
  | .this | .globals | .formatters | .parameter _ => true
  | _ => false

/-- Only variables are read twice. -/
theorem Emits.isVariable {scope : Scope} {t : Expr ι} {c : Chain ι} {n m : Nat} (h : Emits scope t n m c)
    (hr : c.repeatable = true) : c.head.isVariable = true := by
  cases h with
  | this => rfl
  | name =>
    revert hr
    unfold Scope.chain
    split
    · exact fun _ => rfl
    · exact nofun
    · intro _; unfold keywordCode; split <;> rfl
    · exact nofun
  | _ => cases hr

def Test.admits (s : Surroundings) (v : Value) : Test → Run Bool
  | .present => return v ≠ .null
  | .callable => do
    let callable ← s.operate .callable [v]
    return (← get).isTrue callable

/-- Evaluates the test of a guard: whether the code behind it is evaluated. -/
def Guard.passes (s : Surroundings) (g : Guard Leaf) : Eval Bool := do
  let v ← g.tested.eval s
  Code.keep g.kept v
  g.test.admits s v

/-- Evaluates the tests of guards up to the first that does not pass. -/
def Guard.allPass (s : Surroundings) : List (Guard Leaf) → Eval Bool
  | [] => return true
  | g :: rest => do if ← g.passes s then allPass s rest else return false

def behind (s : Surroundings) (gs : List (Guard Leaf)) (x : Eval Value) : Eval (Option Value) := do
  if ← Guard.allPass s gs then some <$> x else return none

def Chain.reach (s : Surroundings) (c : Chain Leaf) : Eval (Option Value) :=
  behind s c.guards (c.head.eval s)

variable (s : Surroundings)

include s

theorem Guard.eval_wrap (g : Guard Leaf) (code : Code Leaf) :
    (g.wrap code).eval s = do if ← g.passes s then code.eval s else return .null := by
  rcases g with ⟨_ | _, n, tested⟩
  · simp only [wrap, passes, Test.admits, Code.eval, bind_assoc]
    refine bind_congr fun v => bind_congr fun _ => ?_
    by_cases hv : v = .null <;> simp [hv]
  · simp only [wrap, passes, Test.admits, Code.eval, bind_assoc, liftM_bind, liftM_pure, pure_bind]
    rfl

theorem eval_guarded (gs : List (Guard Leaf)) (code : Code Leaf) :
    (guarded gs code).eval s = (·.getD .null) <$> behind s gs (code.eval s) := by
  induction gs with
  | nil => simp [guarded, behind, Guard.allPass]
  | cons g rest ih =>
    have hstep : (guarded (g :: rest) code).eval s = (g.wrap (guarded rest code)).eval s := rfl
    rw [hstep, Guard.eval_wrap, ih]
    simp only [behind, Guard.allPass, bind_assoc, map_bind]
    refine bind_congr fun b => ?_
    cases b <;> simp

theorem Chain.eval_close (c : Chain Leaf) : c.close.eval s = (·.getD .null) <$> c.reach s :=
  eval_guarded s c.guards c.head

theorem Guard.allPass_append (gs hs : List (Guard Leaf)) :
    allPass s (gs ++ hs) = do if ← allPass s gs then allPass s hs else return false := by
  induction gs with
  | nil => simp [allPass]
  | cons g rest ih =>
    simp only [List.cons_append, allPass, ih, bind_assoc]
    refine bind_congr fun b => ?_
    cases b <;> simp

theorem Guard.allPass_singleton (g : Guard Leaf) : allPass s [g] = g.passes s := by
  rw [allPass]
  refine Eq.trans (bind_congr fun b => ?_) (bind_pure (g.passes s))
  cases b <;> rfl

theorem behind_nil (x : Eval Value) : behind s [] x = some <$> x := by
  simp [behind, Guard.allPass]

theorem behind_bind (gs : List (Guard Leaf)) (x : Eval Value) (k : Value → Eval Value) :
    behind s gs (x >>= k) = behind s gs x >>= fun
      | none => return none
      | some v => some <$> k v := by
  rw [behind, behind, bind_assoc]
  refine bind_congr fun b => ?_
  cases b <;> simp

theorem Code.eval_isVariable {code : Code Leaf} (h : code.isVariable = true) :
    ∃ read : Frame → Value, code.eval s = read <$> get := by
  cases code <;> first | exact ⟨_, by simp only [eval, map_eq_pure_bind]; rfl⟩ | cases h

omit s

theorem Frame.temporary_setTemporary (f : Frame) (n : Nat) (v : Value) : (f.setTemporary n v).temporary n = v := by
  simp [temporary, setTemporary]

/-- How the value that a guard tests is used behind it: from its temporary, or, if it is a variable, by
reading it again. -/
def Guard.Recalls (g : Guard Leaf) (value : Code Leaf) : Prop :=
  g.kept = none ∧ g.tested.isVariable = true ∧ value = g.tested ∨ ∃ n, g.kept = some n ∧ value = .temporary n

theorem Guard.passes_bind (s : Surroundings) {g : Guard Leaf} {value : Code Leaf}
    (h : g.Recalls value) (k : Value → Eval Value) :
    (do if ← g.passes s then some <$> (value.eval s >>= k) else return none) = do
      let v ← g.tested.eval s
      Code.keep g.kept v
      if ← (g.test.admits s v : Eval Bool) then some <$> k v else return none := by
  rcases h with ⟨hkept, hvar, rfl⟩ | ⟨n, hkept, rfl⟩
  · obtain ⟨read, hread⟩ := Code.eval_isVariable s hvar
    rw [passes, hkept, hread]
    apply StateT.ext
    intro f
    simp only [StateT.run_bind, StateT.run_map, StateT.run_get, Code.keep, map_pure, bind_assoc, pure_bind, run_liftM]
    refine bind_congr fun b => ?_
    cases b <;> simp
  · simp only [passes, bind_assoc]
    refine bind_congr fun v => ?_
    apply StateT.ext
    intro f
    simp only [hkept, Code.keep, StateT.run_bind, StateT.run_modify, pure_bind, Code.eval, bind_assoc, run_liftM]
    refine bind_congr fun b => ?_
    cases b <;> simp [Frame.temporary_setTemporary]

/-- The value that the last guard tests is the value that is used behind it. -/
theorem behind_append_bind (s : Surroundings) (gs : List (Guard Leaf)) {g : Guard Leaf}
    {value : Code Leaf} (h : g.Recalls value) (k : Value → Eval Value) :
    behind s (gs ++ [g]) (value.eval s >>= k) = behind s gs (g.tested.eval s) >>= fun
      | none => return none
      | some v => do
        Code.keep g.kept v
        if ← (g.test.admits s v : Eval Bool) then some <$> k v else return none := by
  rw [behind, behind, Guard.allPass_append, Guard.allPass_singleton, bind_assoc, bind_assoc]
  refine bind_congr fun b => ?_
  cases b with
  | false => simp
  | true =>
    simp only [if_true, bind_map_left]
    exact Guard.passes_bind s h k

end NullSafe
