import NullSafe.Proofs.Queues

/-! # Pipelines from left to right

A pipeline whose parts can be compiled on their own can be compiled, unless a part takes a literal of another. The
function for it evaluates the parts in the order in which they are written and calls each formatter on what the one
before it gives.
-/

namespace NullSafe

open Surface Literal Text List Stage

section Parts

variable {ι : Type} {p : Piped ι} {P : Expr ι → Prop}

def Piped.parts (p : Piped ι) : List (Expr ι) := p.target.toList ++ p.value :: p.stages.flatMap arguments

theorem Stage.forall_nest_iff (hcall : ∀ v s, P (call v s) ↔ P v ∧ ∀ a ∈ s.arguments, P a) (v : Expr ι)
    (stages : List (Stage ι)) : P (Stage.nest v stages) ↔ P v ∧ ∀ s ∈ stages, ∀ a ∈ s.arguments, P a := by
  induction stages generalizing v with
  | nil => exact (and_iff_left nofun).symm
  | cons s stages ih =>
    change P (Stage.nest (call v s) stages) ↔ _
    rw [ih, hcall, forall_mem_cons, and_assoc]

/-- What holds of the tree of a pipeline holds of its parts and the other way round, if this is so for calls and for
assignments. -/
theorem Piped.forall_tree_iff {A : Expr ι → Prop} (hcall : ∀ v s, P (call v s) ↔ P v ∧ ∀ a ∈ s.arguments, P a)
    (hassign : ∀ t v, P (.assign t v) ↔ A t ∧ P t ∧ P v) (hyes : P (.constant .yes)) (p : Piped ι) :
    P p.tree ↔ (∀ t ∈ p.target, A t) ∧ ∀ t ∈ p.parts, P t := by
  have hcalls : (∀ s ∈ p.calls, ∀ a ∈ s.arguments, P a) ↔ ∀ a ∈ p.stages.flatMap arguments, P a := by
    rw [forall_mem_flatMap]
    rcases p with ⟨_ | target, value, _ | ⟨s, stages⟩⟩ <;> simp [calls, or_imp, forall_and, hyes]
  have hnest : P (Stage.nest p.value p.calls) ↔ ∀ t ∈ p.value :: p.stages.flatMap arguments, P t := by
    rw [forall_nest_iff hcall, hcalls, forall_mem_cons]
  unfold tree parts
  rw [forall_mem_append, ← hnest]
  rcases p.target with _ | target
  · simp
  · simp [hassign]

theorem Surface.Layout.Denotes.forall₂_parts {R : List Char → Expr ι → Prop} {l : Layout} (h : l.Denotes R p) :
    List.Forall₂ R l.parts p.parts := by
  obtain ⟨htarget, hvalue, hstages⟩ := h
  unfold Layout.parts Piped.parts
  refine rel_append ?_ (.cons hvalue (rel_flatMap hstages fun s stage hs => hs.2))
  generalize l.target = target, p.target = target' at htarget
  cases htarget with
  | none => exact .nil
  | some h => exact .cons h.1 .nil

end Parts

section Compiling

variable {functionName : String} {globals names : List String} {cs : List Char} {generated : Generated}
  {t₀ : Expr Placeholder} {t : Expr Leaf}

theorem desugar_of_isExpression (h : IsExpression cs) : desugar cs = .ok cs := by
  have hpipes : splitPipes (cs ++ ([] : List (List Char)).flatMap ('|' :: ·)) = [cs] :=
    splitPipes_segments h.contained.barless nofun
  rw [flatMap_nil, append_nil] at hpipes
  unfold desugar
  rw [hpipes]

theorem IsSkeleton.isExpression (h : IsSkeleton cs t₀) : IsExpression (isolate cs) := ⟨t₀, h⟩

theorem Reads.isTree (h : Reads cs t) (names : List String) (setter : Bool) :
    (⟨String.ofList cs, names, setter⟩ : Request).IsTree t := by
  obtain ⟨t₀, ht₀, hfilled⟩ := h
  unfold Request.IsTree
  rw [String.toList_ofList]
  exact ⟨_, t₀, desugar_of_isExpression ht₀.isExpression, ht₀, hfilled⟩

end Compiling

section Running

variable {functionName : String} {globals : List String} {r : Request} {l : Layout} {own : Piped Leaf}

theorem Stage.canEmit_call {ι : Type} (scope : Scope) (v : Expr ι) (s : Stage ι) :
    (call v s).canEmit scope = true ↔ v.canEmit scope = true ∧ ∀ a ∈ s.arguments, a.canEmit scope = true := by
  simp [call, Expr.canEmit, Expr.canEmitAll, Expr.canEmitAll_iff]

theorem Stage.isBuildable_call (v : Expr Leaf) (s : Stage Leaf) :
    (call v s).isBuildable = true ↔ v.isBuildable = true ∧ ∀ a ∈ s.arguments, a.isBuildable = true := by
  simp [call, Expr.isBuildable, Expr.areBuildable, Expr.areBuildable_iff]

theorem Piped.canEmit_tree {ι : Type} (scope : Scope) (p : Piped ι) : p.tree.canEmit scope = true ↔
    (∀ t ∈ p.target, t.canAssign scope = true) ∧ ∀ t ∈ p.parts, t.canEmit scope = true :=
  p.forall_tree_iff (P := (·.canEmit scope = true)) (A := (·.canAssign scope = true)) (canEmit_call scope)
    (fun _ _ => by simp [Expr.canEmit]) (by rw [Expr.canEmit])

theorem Piped.isBuildable_tree (p : Piped Leaf) : p.tree.isBuildable = true ↔ ∀ t ∈ p.parts, t.isBuildable = true := by
  have htree := p.forall_tree_iff (P := (·.isBuildable = true)) (A := fun _ => True) isBuildable_call
    (fun _ _ => by simp [Expr.isBuildable]) (by rw [Expr.isBuildable])
  rwa [and_iff_right fun _ _ => trivial] at htree

theorem forall_mem_congr_of_forall₂ {α β : Type} {R : α → β → Prop} {P : α → Prop} {Q : β → Prop} {as : List α}
    {bs : List β} (h : List.Forall₂ R as bs) (hR : ∀ a b, R a b → (P a ↔ Q b)) : (∀ a ∈ as, P a) ↔ ∀ b ∈ bs, Q b := by
  induction h with
  | nil => exact iff_of_true nofun nofun
  | cons h _ ih => rw [forall_mem_cons, forall_mem_cons, hR _ _ h, ih]

/-- A pipeline can be compiled exactly if its parts can be compiled on their own and its target can be assigned to. -/
theorem Surface.Layout.Reads.exists_run_iff (htext : r.expression.toList = l.text) (h : l.Reads own)
    (hseparate : l.Separate) (hne : l.segments ≠ []) (hapart : Undisturbed l.parts []) :
    (∃ generated, Compile.run functionName globals r = .ok generated) ↔
      (∀ t ∈ own.target, t.canAssign (r.scope globals) = true) ∧
        ∀ part ∈ l.parts, ∃ generated,
          Compile.run functionName globals ⟨String.ofList part, r.arguments, r.setter⟩ = .ok generated := by
  have hpart : ∀ part t, NullSafe.Reads part t →
      ((∃ generated, Compile.run functionName globals ⟨String.ofList part, r.arguments, r.setter⟩ = .ok generated) ↔
        Compile.canDeclare functionName (r.scope globals).parameters = true ∧
          t.canEmit (r.scope globals) = true ∧ t.isBuildable = true) :=
    fun part t ht => Compile.exists_run_iff (ht.isTree r.arguments r.setter)
  rw [Compile.exists_run_iff ((h.isTree_iff htext hseparate hne).2 hapart), Piped.canEmit_tree, Piped.isBuildable_tree,
    forall_mem_congr_of_forall₂ h.forall₂_parts hpart]
  have hvalue : own.value ∈ own.parts := mem_append_right _ (mem_cons_self ..)
  constructor
  · rintro ⟨hdeclare, ⟨htarget, hemit⟩, hbuild⟩
    exact ⟨htarget, fun t ht => ⟨hdeclare, hemit t ht, hbuild t ht⟩⟩
  · rintro ⟨htarget, hall⟩
    exact ⟨(hall _ hvalue).1, ⟨htarget, fun t ht => (hall t ht).2.1⟩, fun t ht => (hall t ht).2.2⟩

/-- A call of the function for a request whose tree is that of a pipeline evaluates the pipeline stage by stage. -/
theorem Piped.outcome_run (hname : ∀ op : Operation, op.name ≠ functionName)
    (hrequest : Request.namesProblem? r.arguments = none) (htree : r.IsTree own.tree) {generated : Generated}
    (hrun : Compile.run functionName globals r = .ok generated) {host : Host} (hhost : host.Confined)
    {this g fm : Value} {extra : List Value} (hextra : extra.length ≤ r.arguments.length) {w : World}
    {hidden : Ref → Prop} (hw : w.Hides hidden) (he : (Env.start r.arguments this g fm extra).Open w hidden)
    (hfits : own.Fits host (r.scope globals) (Env.start r.arguments this g fm extra) w) :
    (generated.program.run host (this :: g :: fm :: extra)).outcome w =
      ((own.run host (r.scope globals)).run (Env.start r.arguments this g fm extra) >>= fun p =>
        pure (if r.setter then .null else p.1) : Run Value).outcome w := by
  have hkeyword := Scope.classify_of_mem_keywords globals hrequest (show "_formatters_" ∈ Scope.keywords by decide)
  rw [Compile.outcome_run hrun hname hrequest htree hextra, Run.outcome_bind, Run.outcome_bind,
    Piped.outcome_eval hhost hkeyword hw he hfits]

/-- A pipeline has the tree of its parts exactly if no part takes a literal of another. It can then be compiled exactly
if its parts can be, and a call of the function for it evaluates the parts and calls the formatters in the order in
which they are written. -/
theorem pipeline_left_to_right (hname : ∀ op : Operation, op.name ≠ functionName)
    (hrequest : Request.namesProblem? r.arguments = none) (htext : r.expression.toList = l.text) (h : l.Reads own)
    (hne : l.segments ≠ []) (hseparate : l.Separate) :
    (r.IsTree own.tree ↔ Undisturbed l.parts []) ∧
      (Undisturbed l.parts [] →
        ((∃ generated, Compile.run functionName globals r = .ok generated) ↔
          (∀ t ∈ own.target, t.canAssign (Scope.ofNames globals r.arguments) = true) ∧
            ∀ part ∈ l.parts, ∃ generated,
              Compile.run functionName globals ⟨String.ofList part, r.arguments, r.setter⟩ = .ok generated) ∧
        ∀ generated, Compile.run functionName globals r = .ok generated →
          ∀ (host : Host) (this g fm : Value) (extra : List Value) (w : World), host.Confined →
            extra.length ≤ r.arguments.length → w.Hides (fun _ => False) →
            (Env.start r.arguments this g fm extra).Open w (fun _ => False) →
            own.Fits host (Scope.ofNames globals r.arguments) (Env.start r.arguments this g fm extra) w →
            (generated.program.run host (this :: g :: fm :: extra)).outcome w =
              ((own.run host (Scope.ofNames globals r.arguments)).run (Env.start r.arguments this g fm extra) >>=
                fun p => pure (if r.setter then .null else p.1) : Run Value).outcome w) := by
  have htree := h.isTree_iff htext hseparate hne
  refine ⟨htree, fun hapart => ⟨h.exists_run_iff htext hseparate hne hapart, ?_⟩⟩
  intro generated hrun host this g fm extra w hhost hextra hw he hfits
  exact Piped.outcome_run hname hrequest (htree.2 hapart) hrun hhost hextra hw he hfits

end Running

section Samples

/-- A host whose functions give back what they are called on. -/
def echoHost : Host where
  call _ args := pure (args.headD .null)

theorem confined_echoHost : echoHost.Confined where
  call hidden name args w h := by
    refine .pure ?_
    cases args with
    | nil => trivial
    | cons v args => exact h v (.head _)
  invoke _ _ _ _ _ _ _ := .throw _
  getter _ _ _ _ _ _ := .throw _
  setter _ _ _ _ _ _ _ _ := .throw _

def formatterWorld : World := { dicts := #[[(.str "f", .function (.host "f"))]] }

theorem hides_formatterWorld : formatterWorld.Hides fun _ => False := by
  refine ⟨nofun, nofun, nofun, ?_, nofun, nofun⟩
  intro entries hentries e he
  rw [Array.mem_singleton.1 (show entries ∈ #[_] from hentries)] at he
  rw [mem_singleton.1 he]
  exact ⟨trivial, trivial⟩

def sampleLayout (value : List Char) : Layout where
  target := none
  value := value
  segments := [⟨[' '], ['f'], [], some ["'b'".toList], [], by unfold IsName; decide, by decide⟩]

def textLeaf (cs : List Char) : Expr Leaf := .literal (.literal (.text (cs.map Char.toNat)))

theorem isSkeleton_b : IsSkeleton "'b'".toList (.literal (.string .single)) := by
  unfold IsSkeleton
  rw [show replaceWords (isolate "'b'".toList) = "''".toList by decide +kernel]
  exact parse_placeholder (.string .single)

theorem reads_b : Reads "'b'".toList (textLeaf ['b']) := ⟨_, isSkeleton_b, by with_unfolding_all rfl⟩

def samplePiped {ι : Type} (v b : Expr ι) : Piped ι := ⟨none, v, [⟨"f", [b]⟩]⟩

theorem reads_sample {value : List Char} {v : Expr Leaf} (hv : Reads value v)
    (hvalue : straddles (· != .symbol .assign) (replaceWords (isolate value)) = false) :
    (sampleLayout value).Reads (samplePiped v (textLeaf ['b'])) where
  target := .none
  value := hv
  stages := .cons ⟨rfl, .cons reads_b .nil⟩ .nil
  unassigned _ := hvalue

theorem reads_a : Reads "'a' ".toList (textLeaf ['a']) := by
  refine ⟨.literal (.string .single), ?_, by with_unfolding_all rfl⟩
  unfold IsSkeleton
  rw [show replaceWords (isolate "'a' ".toList) = "'' ".toList by decide +kernel]
  exact parse_of_placeholder (by decide +kernel)

theorem fits_sample (host : Host) (scope : Scope) (v b : Expr Leaf) :
    (samplePiped v b).Fits host scope (Env.start [] .null .null (.dict 0) []) formatterWorld := by
  intro s hs
  rw [mem_singleton.1 hs]
  rfl

theorem open_sample : (Env.start [] .null .null (.dict 0) []).Open formatterWorld fun _ => False :=
  ⟨trivial, trivial, trivial, nofun⟩

/-- `'a' | f('b')` calls `f` on `'a'` and `'b'`. -/
theorem pipeline_left_to_right_sample :
    ∃ generated, Compile.run "expression" [] ⟨"'a' | f('b')", [], false⟩ = .ok generated ∧
      (generated.program.run echoHost [.null, .null, .dict 0]).outcome formatterWorld =
        (.ok (.str "a"), formatterWorld.withCalls [.host "f"]) := by
  have hreads := reads_sample reads_a (by decide +kernel)
  obtain ⟨-, hruns⟩ := @pipeline_left_to_right "expression" [] ⟨"'a' | f('b')", [], false⟩ (sampleLayout "'a' ".toList)
    _ operation_name_ne rfl (by decide +kernel) hreads nofun (by decide +kernel)
  have hapart : Undisturbed (sampleLayout "'a' ".toList).parts [] := by
    unfold Undisturbed
    decide +kernel
  obtain ⟨hexists, hcalls⟩ := hruns hapart
  have hdeclare : Compile.canDeclare "expression" (Scope.ofNames [] []).parameters = true := by decide +kernel
  have hpart : ∀ {part : List Char} {t : Expr Leaf}, Reads part t →
      t.canEmit (Scope.ofNames [] []) = true ∧ t.isBuildable = true →
        ∃ generated, Compile.run "expression" [] ⟨String.ofList part, [], false⟩ = .ok generated := fun ht hbuild =>
    (Compile.exists_run_iff (ht.isTree [] false)).2 ⟨hdeclare, hbuild⟩
  obtain ⟨generated, hrun⟩ := hexists.2 ⟨nofun, List.forall_mem_cons.2
    ⟨hpart reads_a (by decide +kernel), List.forall_mem_singleton.2 (hpart reads_b (by decide +kernel))⟩⟩
  refine ⟨generated, hrun, ?_⟩
  rw [hcalls generated hrun echoHost .null .null (.dict 0) [] formatterWorld confined_echoHost (by decide)
    hides_formatterWorld open_sample (fits_sample _ _ _ _)]
  rfl

/-- Two slashes open no literal, but they take one. -/
def slashesRequest : Request := ⟨"// + 'a' | f('b')", [], false⟩

theorem isSkeleton_slashes : IsSkeleton "// + 'a' ".toList (.binary .add (.literal .pattern)
    (.literal (.string .single))) := by
  unfold IsSkeleton
  rw [show replaceWords (isolate "// + 'a' ".toList) = "// + '' ".toList by decide +kernel]
  exact parse_of_derivation (.sum .pattern (.string .single)) (by decide +kernel) (by unfold Fit; decide +kernel)
    (by repeat' constructor)

/-- On its own the value in front of the pipe is `'a'`, but `f` is called on `'ab'`. -/
theorem pipeline_takes_literal : ∃ own generated, (sampleLayout "// + 'a' ".toList).Reads own ∧
    Compile.run "expression" [] slashesRequest = .ok generated ∧
    ((own.run echoHost (Scope.ofNames [] [])).run (Env.start [] .null .null (.dict 0) [])).outcome formatterWorld =
      (.ok (.str "a", Env.start [] .null .null (.dict 0) []), formatterWorld.withCalls [.host "f"]) ∧
    (generated.program.run echoHost [.null, .null, .dict 0]).outcome formatterWorld =
      (.ok (.str "ab"), formatterWorld.withCalls [.host "f"]) := by
  have hstraddles : straddles (· != .symbol .assign) (replaceWords (isolate "// + 'a' ".toList)) = false := by
    decide +kernel
  have hreads : Reads "// + 'a' ".toList (.binary .add (textLeaf ['a']) (.literal (.unfilled (.string .single)))) := by
    refine ⟨_, isSkeleton_slashes, ?_⟩
    rw [show literals "// + 'a' ".toList = ["'a'".toList] by decide +kernel]
    with_unfolding_all rfl
  have hdenotes : (sampleLayout "// + 'a' ".toList).Denotes IsSkeleton (samplePiped _ _) :=
    ⟨.none, isSkeleton_slashes, .cons ⟨rfl, .cons isSkeleton_b .nil⟩ .nil⟩
  obtain ⟨text, hdesugar, hparse⟩ := hdenotes.parse_desugar (fun _ => hstraddles) (by decide +kernel)
    (by simp [sampleLayout])
  have htree : slashesRequest.IsTree (samplePiped (.binary .add (textLeaf ['a']) (textLeaf ['b']))
      (.literal (.unfilled (.string .single)))).tree := by
    refine ⟨text, _, ?_, hparse, ?_⟩
    · rw [show slashesRequest.expression.toList = (sampleLayout "// + 'a' ".toList).text by decide +kernel]
      exact hdesugar
    · rw [show literals slashesRequest.expression.toList = ["'a'".toList, "'b'".toList] by decide +kernel]
      with_unfolding_all rfl
  obtain ⟨generated, hrun⟩ : ∃ generated, Compile.run "expression" [] slashesRequest = .ok generated :=
    (Compile.exists_run_iff htree).2 (by decide +kernel)
  have hextra : ([] : List Value).length ≤ slashesRequest.arguments.length := Nat.le_refl 0
  refine ⟨_, generated, reads_sample hreads hstraddles, hrun, rfl, ?_⟩
  rw [Piped.outcome_run operation_name_ne rfl htree hrun confined_echoHost hextra hides_formatterWorld open_sample
    (fits_sample _ _ _ _)]
  rfl

end Samples

end NullSafe
