import NullSafe.Proofs.Additions
import NullSafe.Proofs.FunctionNames
import NullSafe.Proofs.Lens

/-! # Assigning to a global

An expression without calls and assignments adds values to the world and changes none. So what is changed by a call of
an assignment to a global is one entry of the globals that the function is called with.
-/

namespace NullSafe

open Surface Program

variable {α β : Type}

instance World.allowsNew_extends : AllowsNew Extends where
  refl := .refl
  trans := .trans
  newList items w := w.extends_newList items
  newTuple _ _ := ⟨id, getElem?_push_of_some, id, id, rfl⟩
  newDict entries w := w.extends_newDict entries
  newObject o w _ := w.extends_newObject o
  mark _ := ⟨id, id, id, id, rfl⟩

namespace Surface.Expr

variable {ι : Type}

mutual

def onlyComputes : Expr ι → Bool
  | .number _ | .literal _ | .constant _ | .this | .name _ => true
  | .array items => allOnlyCompute items
  | .object entries => entriesOnlyCompute entries
  | .member target _ => onlyComputes target
  | .index target key => onlyComputes target && onlyComputes key
  | .unary _ operand => onlyComputes operand
  | .binary _ left right => onlyComputes left && onlyComputes right
  | .logical _ left right => onlyComputes left && onlyComputes right
  | .conditional test yes no => onlyComputes test && (onlyComputes yes && onlyComputes no)
  | .call _ _ | .assign _ _ => false

def allOnlyCompute : List (Expr ι) → Bool
  | [] => true
  | t :: rest => onlyComputes t && allOnlyCompute rest

def entriesOnlyCompute : List (Key ι × Expr ι) → Bool
  | [] => true
  | (_, t) :: rest => onlyComputes t && entriesOnlyCompute rest

end

end Surface.Expr

section Evaluations

variable {I : World → Prop} {R : World → World → Prop}

/-- With at most two arguments, an operation does the same in both surroundings and respects a relation of worlds. -/
def Surroundings.Calm (I : World → Prop) (R : World → World → Prop) (s s' : Surroundings) : Prop :=
  ∀ (op : Operation) {args : List Value}, args.length ≤ 2 → Run.Agree I R (s.operate op args) (s'.operate op args)

/-- Whatever the variables are, two evaluations do the same in worlds of a kind, and respect a relation of worlds. -/
def Direct.Agree (I : World → Prop) (R : World → World → Prop) (x y : Direct α) : Prop :=
  ∀ e : Env, Run.Agree I R (x.run e) (y.run e)

namespace Direct

namespace Agree

theorem same {x : Direct α} (h : ∀ e : Env, (x.run e).Respects R) : Agree I R x x := fun e => ⟨fun _ _ => rfl, h e⟩

variable [World.AllowsNew R]

theorem pure (a : α) : Agree I R (Pure.pure a) (Pure.pure a) := same fun _ => .pure _

theorem get : Agree I R (MonadState.get : Direct Env) MonadState.get := same fun _ => .pure _

theorem world : Agree I R (getThe World : Direct World) (getThe World) := same fun _ => World.Goes.refl

variable [World.Lasts I R]

theorem lift {x y : Run α} (h : Run.Agree I R x y) : Agree I R (liftM x) (liftM y) :=
  fun _ => h.bind fun _ => ⟨fun _ _ => rfl, .pure _⟩

theorem bind {x y : Direct α} {k l : α → Direct β} (hx : Agree I R x y) (hk : ∀ a, Agree I R (k a) (l a)) :
    Agree I R (x >>= k) (y >>= l) :=
  fun e => (hx e).bind fun p => hk p.1 p.2

theorem map {x y : Direct α} (f : α → β) (hx : Agree I R x y) : Agree I R (f <$> x) (f <$> y) := by
  rw [map_eq_pure_bind, map_eq_pure_bind]
  exact hx.bind fun _ => pure _

theorem whole {x y : Direct (Option Value)} (hx : Agree I R x y) : Agree I R (whole x) (whole y) :=
  hx.bind fun _ => pure _

theorem onward {x y : Direct (Option Value)} {test : Value → Direct Bool} {next next' : Value → Direct Value}
    (hx : Agree I R x y) (htest : ∀ v, Agree I R (test v) (test v)) (hnext : ∀ v, Agree I R (next v) (next' v)) :
    Agree I R (onward x test next) (onward y test next') := by
  refine hx.bind fun o => ?_
  cases o with
  | none => exact pure _
  | some v =>
    refine (htest v).bind fun b => ?_
    cases b with
    | true => exact (hnext v).map _
    | false => exact pure _

end Agree

variable [World.AllowsNew R] {s s' : Surroundings} {scope : Scope} (hs : s.Calm I R s')

include hs

theorem agree_leaf (x : Leaf) : Run.Agree I R (x.eval s) (x.eval s') := by
  cases x with
  | unfilled => exact ⟨fun _ _ => rfl, .pure _⟩
  | literal l =>
    cases l with
    | text => exact ⟨fun _ _ => rfl, .pure _⟩
    | pattern => exact hs _ (le_refl 2)

variable [World.Lasts I R]

theorem agree_readName (name : String) : Agree I R (readName s scope name) (readName s' scope name) := by
  refine Agree.get.bind fun e => ?_
  cases scope.classify name with
  | argument => exact .pure _
  | global => exact .lift ⟨fun _ _ => rfl, .globalValue _ _⟩
  | keyword => exact .pure _
  | context => exact .lift (hs _ (le_refl 2))

theorem agree_unaryValue (op : UnaryOp) (v : Value) : Agree I R (unaryValue s op v) (unaryValue s' op v) := by
  cases op with
  | not => exact Agree.world.bind fun _ => .pure _
  | negate | plus | typeof => exact .lift (hs _ (Nat.le_succ 1))

theorem agree_binaryValue (op : BinaryOp) (a b : Value) : Agree I R (binaryValue s op a b) (binaryValue s' op a b) := by
  cases op with
  | equal | strictEqual | differ | strictDiffer =>
    exact (Agree.lift ⟨fun _ _ => rfl, .ofExcept _⟩).bind fun _ => .pure _
  | _ => exact .lift (hs _ (le_refl 2))

theorem agree_keyValue (k : Key Leaf) : Agree I R (keyValue s k) (keyValue s' k) := by
  cases k with
  | name | number => exact .pure _
  | literal x => exact .lift (agree_leaf hs x)

omit hs [World.Lasts I R] in
theorem agree_isThere {ι : Type} (t : Expr ι) (v : Value) : Agree I R (isThere scope t v) (isThere scope t v) :=
  .pure _

omit hs

open Expr

mutual

/-- An expression without calls and assignments makes new values only, apart from what its operations do. -/
theorem agree_reach (hs : s.Calm I R s') :
    ∀ t : Expr Leaf, t.onlyComputes = true → Agree I R (reach s scope t) (reach s' scope t)
  | .number _, _ => .pure _
  | .literal x, _ => .map _ (.lift (agree_leaf hs x))
  | .constant _, _ => .pure _
  | .this, _ => Agree.get.bind fun _ => .pure _
  | .name n, _ => .map _ (agree_readName hs n)
  | .array items, h => by
    rw [onlyComputes] at h
    exact (agree_values hs items h).bind fun _ => .map _ (.lift ⟨fun _ _ => rfl, World.AllowsNew.newList _⟩)
  | .object entries, h => by
    rw [onlyComputes] at h
    exact (agree_entryValues hs entries h).bind fun _ => .map _ (.lift ⟨fun _ _ => rfl, .buildDict _⟩)
  | .member target _, h => by
    rw [onlyComputes] at h
    exact .onward (agree_reach hs target h) (agree_isThere target) fun _ => .lift (hs _ (le_refl 2))
  | .index target key, h => by
    rw [onlyComputes, Bool.and_eq_true] at h
    refine .onward (agree_reach hs target h.1) (agree_isThere target) fun _ => ?_
    exact (agree_reach hs key h.2).whole.bind fun _ => .lift (hs _ (le_refl 2))
  | .call _ _, h => by rw [onlyComputes] at h; cases h
  | .unary op operand, h => by
    rw [onlyComputes] at h
    exact (agree_reach hs operand h).whole.bind fun v => .map _ (agree_unaryValue hs op v)
  | .binary op left right, h => by
    rw [onlyComputes, Bool.and_eq_true] at h
    exact (agree_reach hs left h.1).whole.bind fun a => (agree_reach hs right h.2).whole.bind fun b =>
      .map _ (agree_binaryValue hs op a b)
  | .logical op left right, h => by
    rw [onlyComputes, Bool.and_eq_true] at h
    have hright := (agree_reach hs right h.2).whole.map some
    refine (agree_reach hs left h.1).whole.bind fun v => Agree.world.bind fun w => ?_
    cases op <;> dsimp only <;> split
    · exact hright
    · exact .pure _
    · exact .pure _
    · exact hright
  | .conditional test yes no, h => by
    rw [onlyComputes, Bool.and_eq_true, Bool.and_eq_true] at h
    refine (agree_reach hs test h.1).whole.bind fun v => Agree.world.bind fun w => ?_
    split
    · exact (agree_reach hs yes h.2.1).whole.map _
    · exact (agree_reach hs no h.2.2).whole.map _
  | .assign _ _, h => by rw [onlyComputes] at h; cases h

theorem agree_values (hs : s.Calm I R s') : ∀ ts : List (Expr Leaf), allOnlyCompute ts = true →
    Agree I R (values s scope ts) (values s' scope ts)
  | [], _ => .pure _
  | t :: rest, h => by
    rw [allOnlyCompute, Bool.and_eq_true] at h
    exact (agree_reach hs t h.1).whole.bind fun _ => (agree_values hs rest h.2).bind fun _ => .pure _

theorem agree_entryValues (hs : s.Calm I R s') : ∀ es : List (Key Leaf × Expr Leaf), entriesOnlyCompute es = true →
    Agree I R (entryValues s scope es) (entryValues s' scope es)
  | [], _ => .pure _
  | (k, t) :: rest, h => by
    rw [entriesOnlyCompute, Bool.and_eq_true] at h
    exact (agree_keyValue hs k).bind fun _ => (agree_reach hs t h.1).whole.bind fun _ =>
      (agree_entryValues hs rest h.2).bind fun _ => .pure _

end

theorem agree_eval (hs : s.Calm I R s') {t : Expr Leaf} (ht : t.onlyComputes = true) :
    Agree I R (eval s scope t) (eval s' scope t) := (agree_reach hs t ht).whole

end Direct

variable [World.AllowsNew R]

/-- A function in whose own code an operation may be hidden leaves values alone when its operations have at most two
arguments: the function takes more. -/
theorem Program.calm_inside (p : Program) {host host' : Host} (hhost : host.ReadsWithin R)
    (hsame : ∀ (op : Operation) {args : List Value}, args.length ≤ 2 → ∀ w, I w →
      (host.operate op args).outcome w = (host'.operate op args).outcome w) (fuel : Nat) :
    (p.inside host fuel).Calm I R (p.inside host' fuel) := by
  intro op args h
  by_cases hname : op.name = p.name
  · obtain ⟨r, hr⟩ := p.exists_error_of_short fuel (Nat.lt_succ_of_le h)
    rw [p.operate_inside_of_eq host fuel args hname, p.operate_inside_of_eq host' fuel args hname, hr, hr]
    exact ⟨fun _ _ => rfl, .throw r⟩
  · rw [p.operate_inside_of_ne host fuel args hname, p.operate_inside_of_ne host' fuel args hname]
    exact ⟨hsame op h, .operate hhost (.inr (by omega))⟩

theorem Program.calm_same (p : Program) {host : Host} (hhost : host.ReadsWithin R) (fuel : Nat) :
    (p.inside host fuel).Calm (fun _ => True) R (p.inside host fuel) :=
  p.calm_inside hhost (fun _ _ _ _ _ => rfl) fuel

end Evaluations

namespace World

/-- All that is there is as it was, except for what one mapping holds under one name. -/
structure OnlyBinds (w w' : World) (d : Ref) (name : String) : Prop where
  lists : ∀ {r : Ref} {items}, w.lists[r]? = some items → w'.lists[r]? = some items
  tuples : ∀ {r : Ref} {items}, w.tuples[r]? = some items → w'.tuples[r]? = some items
  objects : ∀ {r : Ref} {o}, w.objects[r]? = some o → w'.objects[r]? = some o
  attributes : w'.attributes = w.attributes
  dicts : ∀ {r : Ref} {entries}, r ≠ d → w.dicts[r]? = some entries → w'.dicts[r]? = some entries
  own : (w'.dict d).filter (fun e => e.1 ≠ .str name) = (w.dict d).filter (fun e => e.1 ≠ .str name)

variable {w w₁ w₂ : World} {d : Ref} {name : String} (h : w.Extends w₁) (hd : d < w.dicts.size)

include h hd

theorem Extends.dict_eq : w₁.dict d = w.dict d := by
  have hold : w.dicts[d]? = some (w.dict d) := by
    rw [World.dict, Array.getElem?_eq_getElem hd, Option.getD_some]
  rw [World.dict, h.dicts hold, Option.getD_some]

theorem Extends.onlyBinds (name : String) : w.OnlyBinds w₁ d name :=
  ⟨h.lists, h.tuples, h.objects, h.attributes, fun _ => h.dicts, by rw [h.dict_eq hd]⟩

theorem Extends.size_dicts : d < w₁.dicts.size := by
  have hold := h.dicts (Array.getElem?_eq_getElem hd)
  exact (Array.getElem?_eq_some_iff.1 hold).1

theorem Extends.onlyBinds_of_onlyAssigns (hassigns : w₁.OnlyAssigns w₂ (.dict d) name) : w.OnlyBinds w₂ d name where
  lists hr := by rw [hassigns.lists]; exact h.lists hr
  tuples hr := by rw [hassigns.tuples]; exact h.tuples hr
  attributes := hassigns.functions.trans h.attributes
  objects {r o} hr := by
    have hr₁ := h.objects hr
    have hsize : r < w₂.objects.size := hassigns.places.2 ▸ (Array.getElem?_eq_some_iff.1 hr₁).1
    have hobject : w₂.object r = w₁.object r := by
      have hattributes := hassigns.attributes r
      simp only [reduceCtorEq, false_and, not_false_eq_true, decide_true, List.filter_true] at hattributes
      exact congrArg₂ Object.mk (hassigns.kinds r) hattributes
    rw [World.object, World.object, hr₁, Option.getD_some, Array.getElem?_eq_getElem hsize, Option.getD_some] at hobject
    rw [Array.getElem?_eq_getElem hsize, hobject]
  dicts {r entries} hne hr := by
    have hr₁ := h.dicts hr
    have hsize : r < w₂.dicts.size := hassigns.places.1 ▸ (Array.getElem?_eq_some_iff.1 hr₁).1
    have hdict : w₂.dict r = w₁.dict r := by
      have hentries := hassigns.entries r
      have hne' : (.dict d : Value) ≠ .dict r := fun h => hne (Value.dict.inj h).symm
      simp only [hne', false_and, not_false_eq_true, decide_true, List.filter_true] at hentries
      exact hentries
    rw [World.dict, World.dict, hr₁, Option.getD_some, Array.getElem?_eq_getElem hsize, Option.getD_some] at hdict
    rw [Array.getElem?_eq_getElem hsize, hdict]
  own := by
    have hentries := hassigns.entries d
    simp only [true_and] at hentries
    rw [← h.dict_eq hd]
    exact hentries

end World

section Assigning

variable {s : Surroundings} {scope : Scope} {g : String} {e : Expr Leaf}

/-- An assignment to a global evaluates the value, and then sets the entry of the globals. -/
theorem Direct.outcome_eval_assign (hglobal : scope.classify g = .global) (env : Env) (w : World) :
    ((Direct.eval s scope (.assign (.name g) e)).run env).outcome w =
      match ((Direct.eval s scope e).run env).outcome w with
      | (.ok (v, env'), w') =>
        match (s.operate .set [env.globals, .str g, v]).outcome w' with
        | (.ok u, w'') => (.ok (u, env'), w'')
        | (.error r, w'') => (.error r, w'')
      | (.error r, w') => (.error r, w') := by
  rw [Direct.eval, Direct.outcome_whole, Direct.reach, Direct.outcome_map, Direct.writeName, hglobal]
  dsimp only
  rw [Direct.outcome_bind, Direct.outcome_get]
  dsimp only
  rw [Direct.outcome_bind, ← Direct.eval]
  rcases ((Direct.eval s scope e).run env).outcome w with ⟨r | ⟨v, env'⟩, w'⟩
  · rfl
  · dsimp only
    rw [Direct.outcome_lift]
    rcases (s.operate .set [env.globals, .str g, v]).outcome w' with ⟨r | u, w''⟩ <;> rfl

variable {functionName : String} {globals : List String} {r : Request} {generated : Generated}
  (hrequest : Request.namesProblem? r.arguments = none) (hrun : Compile.run functionName globals r = .ok generated)

include hrequest hrun

theorem Compile.length_parameters : generated.program.parameters.length = r.arguments.length := by
  obtain ⟨body, code, -, -, hprogram⟩ := Compile.run_eq_ok hrun
  rw [hprogram]
  dsimp only
  rw [Scope.parameters_ofNames globals (Request.nodup_of_accepted hrequest), List.length_map]

theorem Compile.frame?_cases (args : List Value) :
    generated.program.frame? args = none ∨
      ∃ this g fm extra, args = this :: g :: fm :: extra ∧ extra.length ≤ r.arguments.length := by
  match args with
  | [] | [_] | [_, _] => exact .inl rfl
  | this :: g :: fm :: extra =>
    by_cases hextra : extra.length ≤ r.arguments.length
    · exact .inr ⟨this, g, fm, extra, rfl, hextra⟩
    · refine .inl (if_neg ?_)
      rwa [Compile.length_parameters hrequest hrun]

variable (htree : r.IsTree (.assign (.name g) e)) (hglobal : (r.scope globals).classify g = .global)

include htree hglobal

theorem Program.outcome_runIn_assign {extra : List Value}
    (hextra : extra.length ≤ r.arguments.length) (s : Surroundings) (this gl fm : Value) (w : World) :
    (generated.program.runIn s (this :: gl :: fm :: extra)).outcome w =
      match ((Direct.eval s (r.scope globals) e).run (Env.start r.arguments this gl fm extra)).outcome w with
      | (.ok (v, _), w') =>
        match (s.operate .set [gl, .str g, v]).outcome w' with
        | (.ok u, w'') => (.ok (if r.setter then .null else u), w'')
        | (.error fault, w'') => (.error fault, w'')
      | (.error fault, w') => (.error fault, w') := by
  rw [outcome_runIn hrun hrequest htree hextra, Run.outcome_bind, Direct.outcome_eval_assign hglobal]
  rcases ((Direct.eval s (r.scope globals) e).run
    (Env.start r.arguments this gl fm extra)).outcome w with ⟨fault | ⟨v, env⟩, w'⟩
  · rfl
  · dsimp only
    rw [show (Env.start r.arguments this gl fm extra).globals = gl from rfl]
    rcases (s.operate .set [gl, .str g, v]).outcome w' with ⟨fault | u, w''⟩ <;> rfl

/-- A function that hides the writing of entries from its own assignment calls itself until it fails, and writes
nothing. -/
theorem exists_error_of_hidden_set (he : e.onlyComputes = true)
    (hname : Operation.set.name = generated.program.name) {host : Host} (hhost : host.ReadsWithin World.Extends)
    (fuel : Nat) (args : List Value) (w : World) :
    ∃ fault w', (generated.program.runWithin host fuel args).outcome w = (.error fault, w') ∧ w.Extends w' := by
  induction fuel generalizing args w with
  | zero => exact ⟨.tooDeep, w, rfl, .refl w⟩
  | succ fuel ih =>
    rw [runWithin_succ]
    rcases Compile.frame?_cases hrequest hrun args with hframe | ⟨this, gl, fm, extra, rfl, hextra⟩
    · exact ⟨.mistyped, w, outcome_runIn_of_frame?_eq_none _ _ hframe w, .refl w⟩
    have hadds : w.Extends (((Direct.eval (generated.program.inside host fuel)
        (r.scope globals) e).run (Env.start r.arguments this gl fm extra)).outcome w).2 :=
      (Direct.agree_eval (calm_same generated.program hhost fuel) he _).2 w
    rw [outcome_runIn_assign hrequest hrun htree hglobal hextra]
    rcases heval : ((Direct.eval (generated.program.inside host fuel) (r.scope globals) e).run
      (Env.start r.arguments this gl fm extra)).outcome w with ⟨fault | ⟨v, env⟩, w₁⟩ <;> rw [heval] at hadds
    · exact ⟨fault, w₁, rfl, hadds⟩
    · obtain ⟨fault, w₂, hset, hw₂⟩ := ih [gl, .str g, v] w₁
      dsimp only
      rw [operate_inside_of_eq _ _ _ _ hname, hset]
      exact ⟨fault, w₂, rfl, hadds.trans hw₂⟩

/-- A call of an assignment to a global changes the entry of that name in the globals that it is called with, if there
is a value to assign, and nothing else. -/
theorem exists_onlyBinds_run (he : e.onlyComputes = true) {host : Host} (hhost : host.ReadsWithin World.Extends)
    {d : Ref} {w : World} (hd : d < w.dicts.size) (this fm : Value) (extra : List Value) :
    ∃ result w', (generated.program.run host (this :: .dict d :: fm :: extra)).outcome w = (result, w') ∧
      w.OnlyBinds w' d g ∧ ∀ v, result = .ok v →
        ∃ u, (w'.dict d).lookup (.str g) = some u ∧ v = if r.setter then .null else u := by
  by_cases hname : Operation.set.name = generated.program.name
  · obtain ⟨fault, w', hout, hw'⟩ := exists_error_of_hidden_set hrequest hrun htree hglobal he hname hhost
      maxDepth (this :: .dict d :: fm :: extra) w
    exact ⟨.error fault, w', hout, hw'.onlyBinds hd g, nofun⟩
  rw [run_inside]
  rcases Compile.frame?_cases hrequest hrun (this :: .dict d :: fm :: extra) with hframe | ⟨_, _, _, _, heq, hextra⟩
  · exact ⟨.error .mistyped, w, outcome_runIn_of_frame?_eq_none _ _ hframe w,
      (World.Extends.refl w).onlyBinds hd g, nofun⟩
  cases heq
  have hadds : w.Extends (((Direct.eval (generated.program.inside host 999) (r.scope globals) e).run
      (Env.start r.arguments this (.dict d) fm extra)).outcome w).2 :=
    (Direct.agree_eval (calm_same generated.program hhost 999) he _).2 w
  rw [outcome_runIn_assign hrequest hrun htree hglobal hextra]
  rcases heval : ((Direct.eval (generated.program.inside host 999) (r.scope globals) e).run
    (Env.start r.arguments this (.dict d) fm extra)).outcome w with ⟨fault | ⟨v, env⟩, w₁⟩ <;> rw [heval] at hadds
  · exact ⟨.error fault, w₁, rfl, hadds.onlyBinds hd g, nofun⟩
  · have hholder : w₁.IsHolder (.dict d) g := hadds.size_dicts hd
    obtain ⟨w₂, hset, hheld, hassigns⟩ := World.setProperty_of_holder hholder v
    dsimp only
    rw [operate_inside_of_ne _ _ _ _ hname, World.operate_of_holder host hholder, hset]
    refine ⟨_, w₂, rfl, hadds.onlyBinds_of_onlyAssigns hd hassigns, fun result hresult => ⟨v, hheld, ?_⟩⟩
    exact (Except.ok.inj hresult).symm

end Assigning

end NullSafe
