import NullSafe.Proofs.ConfinedCalls
import NullSafe.Proofs.Outcomes

/-! # Evaluation and hidden objects

An evaluation whose variables lead to no hidden object leaves hidden objects alone, and its value leads to none.
-/

namespace NullSafe

open Surface List Direct

section Evaluations

variable {α β : Type} {hidden : Ref → Prop} {e : Env} {w w' : World}

structure Env.Open (e : Env) (w : World) (hidden : Ref → Prop) : Prop where
  this : w.Open hidden e.this
  globals : w.Open hidden e.globals
  formatters : w.Open hidden e.formatters
  arguments : ∀ a ∈ e.arguments, w.Open hidden a.2

theorem Env.Open.mono (h : e.Open w hidden) (hw : w.Spares hidden w') : e.Open w' hidden :=
  ⟨hw.open h.this, hw.open h.globals, hw.open h.formatters, fun a ha => hw.open (h.arguments a ha)⟩

/-- An evaluation leaves hidden objects and the binding context alone, and its result satisfies `P`. -/
def ConfinesTree (hidden : Ref → Prop) (e : Env) (w : World) (x : Direct α) (P : World → α → Prop) : Prop :=
  e.Open w hidden → Confines hidden w (x.run e) fun w' p => P w' p.1 ∧ p.2.Open w' hidden ∧ p.2.this = e.this

namespace ConfinesTree

variable {P : World → α → Prop} {Q : World → β → Prop} {x : Direct α}

theorem pure {a : α} (h : P w a) : ConfinesTree hidden e w (Pure.pure a) P :=
  fun he => .pure ⟨h, he, rfl⟩

theorem throw (r : Raised) : ConfinesTree hidden e w (MonadExcept.throw r : Direct α) P :=
  fun _ => .throw r

theorem bind {k : α → Direct β} (hx : ConfinesTree hidden e w x P)
    (hk : ∀ a e' w', w.Spares hidden w' → e'.this = e.this → P w' a → ConfinesTree hidden e' w' (k a) Q) :
    ConfinesTree hidden e w (x >>= k) Q := by
  intro he
  rw [StateT.run_bind]
  refine (hx he).bind ?_
  rintro ⟨a, e'⟩ w' hw ⟨ha, he', hthis⟩
  exact (hk a e' w' hw hthis ha he').imp fun _ _ h => ⟨h.1, h.2.1, h.2.2.trans hthis⟩

theorem map {f : α → β} (hx : ConfinesTree hidden e w x P) (h : ∀ w' a, P w' a → Q w' (f a)) :
    ConfinesTree hidden e w (f <$> x) Q := by
  rw [map_eq_pure_bind]
  exact hx.bind fun a _ w' _ _ ha => .pure (h w' a ha)

theorem lift {x : Run α} (hx : Confines hidden w x P) : ConfinesTree hidden e w (liftM x) P := by
  intro he
  rw [run_liftM]
  exact hx.bind fun a w' hw ha => .pure ⟨ha, he.mono hw, rfl⟩

theorem get_bind {k : Env → Direct β} (hk : e.Open w hidden → ConfinesTree hidden e w (k e) Q) :
    ConfinesTree hidden e w (MonadState.get >>= k) Q :=
  fun he => hk he he

theorem getWorld_bind {k : World → Direct β} (hk : ConfinesTree hidden e w (k w) Q) :
    ConfinesTree hidden e w (getThe World >>= k) Q :=
  hk

end ConfinesTree

end Evaluations

section Trees

variable {hidden : Ref → Prop} {host : Host} {scope : Scope}

def OpenReached (hidden : Ref → Prop) (w : World) (o : Option Value) : Prop := ∀ v ∈ o, w.Open hidden v

def AllOpen (hidden : Ref → Prop) (w : World) (vs : List Value) : Prop := ∀ v ∈ vs, w.Open hidden v

def EntriesOpen (hidden : Ref → Prop) (w : World) (kvs : List (Value × Value)) : Prop :=
  ∀ x ∈ kvs, w.Open hidden x.1 ∧ w.Open hidden x.2

namespace ConfinesTree

variable {e : Env} {w : World} {x : Direct (Option Value)}

theorem whole (hx : ConfinesTree hidden e w x (OpenReached hidden)) :
    ConfinesTree hidden e w (Direct.whole x) fun w' v => w'.Open hidden v := by
  refine hx.bind fun o _ w' _ _ ho => .pure ?_
  rcases o with _ | v
  · trivial
  · exact ho v rfl

theorem some {x : Direct Value} (hx : ConfinesTree hidden e w x fun w' v => w'.Open hidden v) :
    ConfinesTree hidden e w (Option.some <$> x) (OpenReached hidden) :=
  hx.map fun w' v hv y hy => by cases hy; exact hv

theorem onward {test : Value → Direct Bool} {next : Value → Direct Value}
    (hx : ConfinesTree hidden e w x (OpenReached hidden))
    (htest : ∀ v e' w', w.Spares hidden w' → w'.Open hidden v → ConfinesTree hidden e' w' (test v) fun _ _ => True)
    (hnext : ∀ v e' w', w.Spares hidden w' → w'.Open hidden v →
      ConfinesTree hidden e' w' (next v) fun w'' y => w''.Open hidden y) :
    ConfinesTree hidden e w (Direct.onward x test next) (OpenReached hidden) := by
  refine hx.bind fun o e₁ w₁ hw₁ _ ho => ?_
  rcases o with _ | v
  · exact .pure nofun
  · refine (htest v e₁ w₁ hw₁ (ho v rfl)).bind fun b e₂ w₂ hw₂ _ _ => ?_
    cases b
    · exact .pure nofun
    · exact (hnext v e₂ w₂ (hw₁.trans hw₂) (hw₂.open (ho v rfl))).some

theorem operate (hhost : host.Confined) (op : Operation) (args : List Value) (h : ∀ v ∈ args, w.Open hidden v) :
    ConfinesTree hidden e w (liftM (host.operate op args) : Direct Value) fun w' v => w'.Open hidden v :=
  .lift (confines_operate hhost op h)

theorem isThere (t : Expr Leaf) (v : Value) : ConfinesTree hidden e w (Direct.isThere scope t v) fun _ _ => True :=
  .pure trivial

theorem canBeCalled (v : Value) :
    ConfinesTree hidden e w (Direct.canBeCalled ⟨host, host.operate⟩ v) fun _ _ => True := by
  refine (lift (Run.Within.get_bind fun _ => .pure trivial) :
    ConfinesTree hidden e w (liftM (Operation.run .callable [v]) : Direct Value) fun _ _ => True).bind ?_
  exact fun _ _ _ _ _ _ => .getWorld_bind (.pure trivial)

theorem readName (hhost : host.Confined) (name : String) :
    ConfinesTree hidden e w (Direct.readName ⟨host, host.operate⟩ scope name) fun w' v => w'.Open hidden v := by
  refine .get_bind fun he => ?_
  split
  · refine .pure ?_
    unfold Env.argument
    rcases hlookup : e.arguments.lookup name with _ | v
    · trivial
    · exact World.open_lookup he.arguments hlookup
  · exact .lift (.globalValue _ name)
  · refine .pure ?_
    split
    · exact he.globals
    · exact he.formatters
  · exact .operate hhost .get [e.this, .str name] (forall_mem_cons.2 ⟨he.this, forall_mem_singleton.2 trivial⟩)

theorem writeName (hhost : host.Confined) (name : String) {value : Direct Value}
    (hvalue : ConfinesTree hidden e w value fun w' v => w'.Open hidden v) :
    ConfinesTree hidden e w (Direct.writeName ⟨host, host.operate⟩ scope name value) fun w' v => w'.Open hidden v := by
  have hset : ∀ {obj v : Value} {e' : Env} {w' : World}, w'.Open hidden obj → w'.Open hidden v →
      ConfinesTree hidden e' w' (liftM (host.operate .set [obj, .str name, v]) : Direct Value)
        fun w'' y => w''.Open hidden y := fun hobj hv =>
    .operate hhost .set [_, .str name, _]
      (forall_mem_cons.2 ⟨hobj, forall_mem_cons.2 ⟨trivial, forall_mem_singleton.2 hv⟩⟩)
  unfold Direct.writeName
  split
  · refine hvalue.bind fun v e' w' _ _ hv he' => .pure ⟨hv, ?_, rfl⟩
    exact ⟨he'.this, he'.globals, he'.formatters, open_putAttribute he'.arguments hv⟩
  · refine .get_bind fun he => hvalue.bind fun v e' w' hw _ hv => hset (hw.open he.globals) hv
  · exact .throw _
  · exact .get_bind fun he => hvalue.bind fun v e' w' hw _ hv => hset (hw.open he.this) hv

theorem leaf (hhost : host.Confined) (x : Leaf) :
    ConfinesTree hidden e w (x.eval ⟨host, host.operate⟩ : Direct Value) fun w' v => w'.Open hidden v := by
  rcases x with (_ | ⟨body, flags⟩) | _
  · exact .pure trivial
  · exact .operate hhost .pattern [.str body, .str flags] (forall_mem_cons.2 ⟨trivial, forall_mem_singleton.2 trivial⟩)
  · exact .pure trivial

theorem keyValue (hhost : host.Confined) (k : Key Leaf) :
    ConfinesTree hidden e w (Direct.keyValue ⟨host, host.operate⟩ k) fun w' v => w'.Open hidden v := by
  cases k with
  | literal x => exact leaf hhost x
  | _ => exact .pure trivial

theorem unaryValue (hhost : host.Confined) (op : UnaryOp) {v : Value} (hv : w.Open hidden v) :
    ConfinesTree hidden e w (Direct.unaryValue ⟨host, host.operate⟩ op v) fun w' v => w'.Open hidden v := by
  cases op with
  | not => exact .getWorld_bind (.pure trivial)
  | negate => exact .operate hhost .negate [v] (forall_mem_singleton.2 hv)
  | plus => exact .operate hhost .plus [v] (forall_mem_singleton.2 hv)
  | typeof => exact .operate hhost .typeof [v] (forall_mem_singleton.2 hv)

theorem binaryValue (hhost : host.Confined) (op : BinaryOp) {a b : Value} (ha : w.Open hidden a)
    (hb : w.Open hidden b) :
    ConfinesTree hidden e w (Direct.binaryValue ⟨host, host.operate⟩ op a b) fun w' v => w'.Open hidden v := by
  have hequal : ConfinesTree hidden e w (Run.ofExcept (·.equal a b) : Direct Bool) fun _ _ => True :=
    .lift (.ofExcept fun _ _ _ => trivial)
  have hoperate : ∀ op : Operation, ConfinesTree hidden e w (liftM (host.operate op [a, b]) : Direct Value)
      fun w' v => w'.Open hidden v := fun op =>
    .operate hhost op [a, b] (forall_mem_cons.2 ⟨ha, forall_mem_singleton.2 hb⟩)
  cases op with
  | equal | strictEqual | differ | strictDiffer => exact hequal.bind fun _ _ _ _ _ _ => .pure trivial
  | below => exact hoperate .below
  | above => exact hoperate .above
  | atMost => exact hoperate .atMost
  | atLeast => exact hoperate .atLeast
  | add => exact hoperate .add
  | subtract => exact hoperate .subtract
  | multiply => exact hoperate .multiply
  | divide => exact hoperate .divide
  | remainder => exact hoperate .remainder

end ConfinesTree

mutual

theorem confines_reach (hhost : host.Confined) : ∀ (t : Expr Leaf) {e : Env} {w : World},
    ConfinesTree hidden e w (reach ⟨host, host.operate⟩ scope t) (OpenReached hidden)
  | .number text, e, w => by
    simp only [reach]
    refine .pure ?_
    rintro v ⟨⟩
    unfold numeralValue
    dsimp only
    split <;> trivial
  | .literal x, e, w => by
    simp only [reach]
    exact (ConfinesTree.leaf hhost x).some
  | .constant c, e, w => by
    simp only [reach]
    exact .pure (by rintro v ⟨⟩; cases c <;> trivial)
  | .this, e, w => by
    simp only [reach]
    exact .get_bind fun he => .pure (by rintro v ⟨⟩; exact he.this)
  | .name n, e, w => by
    simp only [reach]
    exact (ConfinesTree.readName hhost n).some
  | .array items, e, w => by
    simp only [reach]
    exact (confines_values hhost items).bind fun vs _ _ _ _ hvs =>
      (ConfinesTree.lift (.newList (G := (World.Open · hidden)) hvs)).some
  | .object entries, e, w => by
    simp only [reach]
    exact (confines_entryValues hhost entries).bind fun kvs _ _ _ _ hkvs =>
      (ConfinesTree.lift (.buildDict (G := (World.Open · hidden)) hkvs)).some
  | .member target name, e, w => by
    simp only [reach]
    refine (confines_reach hhost target).onward (fun v _ _ _ _ => .isThere target v) fun v _ _ _ hv => ?_
    exact .operate hhost .get [v, .str name] (forall_mem_cons.2 ⟨hv, forall_mem_singleton.2 trivial⟩)
  | .index target key, e, w => by
    simp only [reach]
    refine (confines_reach hhost target).onward (fun v _ _ _ _ => .isThere target v) fun v _ _ _ hv => ?_
    refine (confines_reach hhost key).whole.bind fun k _ _ hw _ hk => ?_
    exact .operate hhost .get [v, k] (forall_mem_cons.2 ⟨hw.open hv, forall_mem_singleton.2 hk⟩)
  | .call callee arguments, e, w => by
    simp only [reach]
    refine (confines_reach hhost callee).onward (fun v _ _ _ _ => .canBeCalled v) fun f _ _ _ hf => ?_
    refine (confines_values hhost arguments).bind fun vs _ _ hw _ hvs => ?_
    exact .lift (confines_callValue hhost (hw.open hf) hvs)
  | .unary op operand, e, w => by
    simp only [reach]
    exact (confines_reach hhost operand).whole.bind fun v _ _ _ _ hv => (ConfinesTree.unaryValue hhost op hv).some
  | .binary op left right, e, w => by
    simp only [reach]
    refine (confines_reach hhost left).whole.bind fun a _ _ _ _ ha => ?_
    refine (confines_reach hhost right).whole.bind fun b _ _ hw _ hb => ?_
    exact (ConfinesTree.binaryValue hhost op (hw.open ha) hb).some
  | .logical op left right, e, w => by
    simp only [reach]
    refine (confines_reach hhost left).whole.bind fun v e' w' _ _ hv => .getWorld_bind ?_
    have hleft : OpenReached hidden w' (some v) := by rintro x ⟨⟩; exact hv
    have hright : ConfinesTree hidden e' w' _ _ := (confines_reach hhost right).whole.some
    cases op with
    | both =>
      dsimp only
      split
      · exact hright
      · exact .pure hleft
    | either =>
      dsimp only
      split
      · exact .pure hleft
      · exact hright
  | .conditional test yes no, e, w => by
    simp only [reach]
    refine (confines_reach hhost test).whole.bind fun v _ _ _ _ _ => .getWorld_bind ?_
    split
    · exact (confines_reach hhost yes).whole.some
    · exact (confines_reach hhost no).whole.some
  | .assign target value, e, w => by
    have hset : ∀ {obj k v : Value} {e' : Env} {w' : World}, w'.Open hidden obj → w'.Open hidden k → w'.Open hidden v →
        ConfinesTree hidden e' w' (liftM (host.operate .set [obj, k, v]) : Direct Value)
          fun w'' y => w''.Open hidden y := fun hobj hk hv =>
      .operate hhost .set _ (forall_mem_cons.2 ⟨hobj, forall_mem_cons.2 ⟨hk, forall_mem_singleton.2 hv⟩⟩)
    cases target with
    | name n =>
      simp only [reach]
      exact (ConfinesTree.writeName hhost n (confines_reach hhost value).whole).some
    | member target name =>
      simp only [reach]
      refine ((confines_reach hhost target).onward (fun v _ _ _ _ => .isThere target v) fun v _ _ _ hv => ?_).whole.some
      exact (confines_reach hhost value).whole.bind fun x _ _ hw _ hx => hset (hw.open hv) trivial hx
    | index target key =>
      simp only [reach]
      refine ((confines_reach hhost target).onward (fun v _ _ _ _ => .isThere target v) fun v _ _ _ hv => ?_).whole.some
      refine (confines_reach hhost key).whole.bind fun k _ _ hw _ hk => ?_
      exact (confines_reach hhost value).whole.bind fun x _ _ hw' _ hx =>
        hset (hw'.open (hw.open hv)) (hw'.open hk) hx
    | _ =>
      simp only [reach]
      exact .throw _

theorem confines_values (hhost : host.Confined) : ∀ (ts : List (Expr Leaf)) {e : Env} {w : World},
    ConfinesTree hidden e w (values ⟨host, host.operate⟩ scope ts) (AllOpen hidden)
  | [], e, w => by
    simp only [values]
    exact .pure nofun
  | t :: rest, e, w => by
    simp only [values]
    refine (confines_reach hhost t).whole.bind fun v _ _ _ _ hv => ?_
    refine (confines_values hhost rest).bind fun vs _ _ hw _ hvs => ?_
    exact .pure (forall_mem_cons.2 ⟨hw.open hv, hvs⟩)

theorem confines_entryValues (hhost : host.Confined) : ∀ (ts : List (Key Leaf × Expr Leaf)) {e : Env} {w : World},
    ConfinesTree hidden e w (entryValues ⟨host, host.operate⟩ scope ts) (EntriesOpen hidden)
  | [], e, w => by
    simp only [entryValues]
    exact .pure nofun
  | (k, t) :: rest, e, w => by
    simp only [entryValues]
    refine (ConfinesTree.keyValue hhost k).bind fun k _ _ _ _ hk => ?_
    refine (confines_reach hhost t).whole.bind fun v _ _ hw _ hv => ?_
    refine (confines_entryValues hhost rest).bind fun kvs _ _ hw' _ hkvs => ?_
    exact .pure (forall_mem_cons.2 ⟨⟨hw'.open (hw.open hk), hw'.open hv⟩, hkvs⟩)

end

end Trees

end NullSafe
