import NullSafe.Proofs.Building
import NullSafe.Proofs.Correctness
import NullSafe.Proofs.Isolation
import NullSafe.Service

/-! # Calls of generated functions

The function that a request is compiled to evaluates the tree of the request. It can be compiled if code can be
generated for the tree and the code can be built.
-/

namespace NullSafe

open Surface

section Running

def Program.runIn (p : Program) (s : Surroundings) (args : List Value) : Run Value := do
  match p.frame? args with
  | none => throw .mistyped
  | some frame =>
    let (v, _) ← (p.body.code.eval s).run frame
    return if p.setter then .null else v

theorem Program.run_eq {p : Program} (hname : ∀ op : Operation, op.name ≠ p.name) (host : Host) (args : List Value) :
    p.run host args = p.runIn ⟨host, host.operate⟩ args := by
  have hoperate : (fun (op : Operation) (args : List Value) =>
      if op.name = p.name then p.runWithin host 999 args else host.operate op args) = host.operate := by
    funext op args
    exact if_neg (hname op)
  calc p.run host args
      = p.runIn ⟨host, fun op args =>
          if op.name = p.name then p.runWithin host 999 args else host.operate op args⟩ args := by
        unfold Program.run Program.maxDepth Program.runWithin
        exact rfl
    _ = p.runIn ⟨host, host.operate⟩ args := by rw [hoperate]

end Running

section Generated

variable {functionName : String} {globals : List String} {r : Request} {generated : Generated}
  {scope : Scope} {queue : List (List Char)} {t₀ : Expr Placeholder} {t : Expr Leaf}

/-- The tree of a request, with its literals. -/
def Request.IsTree (r : Request) (t : Expr Leaf) : Prop :=
  ∃ text t₀, desugar (Literal.isolate r.expression.toList) = .ok text ∧ parse (replaceWords text) = .ok t₀ ∧
    t₀.filled (Literal.literals r.expression.toList) = .ok t

theorem Compile.run_eq_ok (h : Compile.run functionName globals r = .ok generated) :
    ∃ body code, Compile.analyse (r.scope globals) (Literal.isolate r.expression.toList) = .ok body ∧
      body.fill (Literal.literals r.expression.toList) = .ok code ∧
      generated.program = ⟨functionName, (r.scope globals).parameters, code, r.setter⟩ := by
  unfold Compile.run at h
  dsimp only at h
  split at h
  · cases h
  · cases h
  · rename_i body hbody
    split at h
    · cases h
    · rename_i code hcode
      split at h
      · cases h
      · split at h
        · cases h
        · cases h
          exact ⟨body, code, hbody, hcode, rfl⟩

theorem fill_of_emit {body : Body Placeholder} (hemit : emit scope t₀ = .ok body) (htree : t₀.filled queue = .ok t) :
    ∃ code, body.fill queue = .ok code ∧ emit scope t = .ok code := by
  have hfill := fill_emit hemit queue
  rwa [htree] at hfill

variable (hrun : Compile.run functionName globals r = .ok generated)

include hrun

/-- The code of the function for a request is that of the tree of the request. -/
theorem Compile.emit_of_isTree (htree : r.IsTree t) : emit (r.scope globals) t = .ok generated.program.body := by
  obtain ⟨body, code, hbody, hcode, hprogram⟩ := Compile.run_eq_ok hrun
  obtain ⟨text, t₀, htext, hparse, hfilled⟩ := htree
  obtain ⟨text', t₁, htext', hparse', hemit⟩ := Compile.analyse_eq_ok hbody
  rw [htext] at htext'
  cases htext'
  rw [hparse] at hparse'
  cases hparse'
  obtain ⟨code', hcode', hemit'⟩ := fill_of_emit hemit hfilled
  rw [hcode] at hcode'
  cases hcode'
  rw [hprogram]
  exact hemit'

theorem Program.outcome_runIn (hrequest : Request.namesProblem? r.arguments = none) (htree : r.IsTree t)
    {this g fm : Value} {extra : List Value} (hextra : extra.length ≤ r.arguments.length) (s : Surroundings)
    (w : World) :
    (generated.program.runIn s (this :: g :: fm :: extra)).outcome w =
      ((Direct.eval s (r.scope globals) t).run (Env.start r.arguments this g fm extra) >>= fun p =>
        pure (if r.setter then .null else p.1) : Run Value).outcome w := by
  have hemit := Compile.emit_of_isTree hrun htree
  obtain ⟨body, code, -, -, hprogram⟩ := Compile.run_eq_ok hrun
  have hparameters : generated.program.parameters = (r.scope globals).parameters := by rw [hprogram]
  have hsetter : generated.program.setter = r.setter := by rw [hprogram]
  obtain ⟨f, hf⟩ : ∃ f, generated.program.frame? (this :: g :: fm :: extra) = some f := by
    have hlength : generated.program.parameters.length = r.arguments.length := by
      rw [hparameters, Scope.parameters_ofNames globals (Request.nodup_of_accepted hrequest), List.length_map]
    unfold Program.frame?
    dsimp only
    rw [if_pos (hlength ▸ hextra)]
    exact ⟨_, rfl⟩
  have hagrees := agrees_start (Request.nodup_of_accepted hrequest) hparameters hf
  have hend := simulates_of_emit (Scope.distinct_ofNames hrequest) hemit s f _ w hagrees
  unfold Program.runIn
  rw [hf]
  dsimp only
  rw [hsetter, Run.outcome_bind, Run.outcome_bind]
  rcases hx : ((generated.program.body.code.eval s).run f).outcome w with ⟨e | ⟨v, f'⟩, w₁⟩ <;>
    rcases hy : ((Direct.eval s (r.scope globals) t).run
      (Env.start r.arguments this g fm extra)).outcome w with ⟨e' | ⟨v', e'⟩, w₂⟩ <;>
    rw [hx, hy] at hend
  · rw [hend.1, hend.2]
  · exact hend.elim
  · exact hend.elim
  · obtain ⟨rfl, hv, -⟩ := hend
    rw [show v = v' from hv]

theorem Compile.operation_name_ne (hname : ∀ op : Operation, op.name ≠ functionName) :
    ∀ op : Operation, op.name ≠ generated.program.name := by
  obtain ⟨_, _, -, -, h⟩ := Compile.run_eq_ok hrun
  rwa [h]

/-- A call of the function for a request evaluates the tree of the request. -/
theorem Compile.outcome_run (hname : ∀ op : Operation, op.name ≠ functionName)
    (hrequest : Request.namesProblem? r.arguments = none)
    (htree : r.IsTree t) {this g fm : Value} {extra : List Value} (hextra : extra.length ≤ r.arguments.length)
    (host : Host) (w : World) : (generated.program.run host (this :: g :: fm :: extra)).outcome w =
      ((Direct.eval ⟨host, host.operate⟩ (r.scope globals) t).run
        (Env.start r.arguments this g fm extra) >>= fun p =>
          pure (if r.setter then .null else p.1) : Run Value).outcome w := by
  rw [Program.run_eq (Compile.operation_name_ne hrun hname), Program.outcome_runIn hrun hrequest htree hextra]

omit hrun

def Compile.canDeclare (functionName : String) (parameters : List String) : Bool :=
  canBeNamed functionName && parameters.all canBeNamed && Text.isPlainName functionName.toList

/-- A request can be compiled exactly if the function can be declared and code can be built for the tree. -/
theorem Compile.exists_run_iff (h : r.IsTree t) : (∃ generated, Compile.run functionName globals r = .ok generated) ↔
    Compile.canDeclare functionName (r.scope globals).parameters = true ∧
      t.canEmit (r.scope globals) = true ∧ t.isBuildable = true := by
  obtain ⟨text, t₀, htext, hparse, hfilled⟩ := h
  unfold Compile.run Compile.analyse
  dsimp only
  rw [htext, canEmit_filled hfilled]
  dsimp only
  rcases hgenerate : generate (r.scope globals) text with fault | body
  · refine iff_of_false (fun h => ?_) fun h => ?_
    · obtain ⟨generated, h⟩ := h
      cases fault <;> cases h
    · obtain ⟨body, hemit⟩ := exists_emit_iff.2 h.2.1
      rw [generate_eq_ok_iff.2 ⟨t₀, hparse, hemit⟩] at hgenerate
      cases hgenerate
  · obtain ⟨t₁, hparse', hemit⟩ := generate_eq_ok_iff.1 hgenerate
    rw [hparse] at hparse'
    cases hparse'
    obtain ⟨code, hcode, hemit'⟩ := fill_of_emit hemit hfilled
    dsimp only
    have hparts : canDeclare functionName (r.scope globals).parameters = true ∧
        t₀.canEmit (r.scope globals) = true ∧ t.isBuildable = true ↔
          isBuildable functionName (r.scope globals).parameters code = true ∧
            Text.isPlainName functionName.toList = true := by
      rw [← isBuildable_emit hemit', exists_emit_iff.1 ⟨body, hemit⟩, canDeclare, isBuildable]
      simp only [Bool.and_eq_true, true_and]
      exact and_right_comm
    rw [hcode, hparts]
    dsimp only
    cases isBuildable functionName (r.scope globals).parameters code <;>
      cases Text.isPlainName functionName.toList <;> simp

end Generated

def bareHost : Host where
  call _ _ := throw .noAttribute

theorem operation_name_ne (op : Operation) : op.name ≠ "expression" := by
  cases op <;> decide

end NullSafe
