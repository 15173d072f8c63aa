import NullSafe.Proofs.Filling

/-! # Generated code evaluates its tree

Generated code runs like the direct evaluation of the tree it was generated from: with the same result or
error, in the same world and with the same values of the extra arguments.
-/

namespace NullSafe

open Surface List Direct

/-- The frame of a running function holds the variables of the expression. -/
structure Agrees (scope : Scope) (f : Frame) (e : Env) : Prop where
  this : f.this = e.this
  globals : f.globals = e.globals
  formatters : f.formatters = e.formatters
  parameters : f.parameters = e.arguments.map fun a => (scope.parameterOf a.1, a.2)
  declared : ∀ a ∈ e.arguments, (scope.parameter? a.1).isSome = true

section Variables

variable {scope : Scope} {f : Frame} {e : Env} {name p : String}

theorem Agrees.setTemporary (h : Agrees scope f e) (n : Nat) (v : Value) : Agrees scope (f.setTemporary n v) e :=
  ⟨h.this, h.globals, h.formatters, h.parameters, h.declared⟩

theorem Agrees.parameter_eq_iff (h : Agrees scope f e) (hd : scope.Distinct) (hp : scope.parameter? name = some p) :
    ∀ a ∈ e.arguments, (scope.parameterOf a.1 = p ↔ a.1 = name) := by
  intro a ha
  obtain ⟨q, hq⟩ := Option.isSome_iff_exists.1 (h.declared a ha)
  rw [Scope.parameterOf, hq, Option.getD_some]
  constructor
  · rintro rfl; exact hd _ _ _ hq hp
  · rintro rfl; exact Option.some.inj (hq.symm.trans hp)

theorem lookup_map_key {α : Type} {g : String → String} (l : List (String × α))
    (h : ∀ a ∈ l, (g a.1 = p ↔ a.1 = name)) : (l.map fun a => (g a.1, a.2)).lookup p = l.lookup name := by
  induction l with
  | nil => rfl
  | cons a rest ih =>
    have ha := h a mem_cons_self
    rw [map_cons, lookup_cons, lookup_cons, ih fun b hb => h b (mem_cons_of_mem _ hb)]
    have hb : (p == g a.1) = (name == a.1) := by
      rw [Bool.eq_iff_iff, beq_iff_eq, beq_iff_eq, eq_comm, ha, eq_comm]
    rw [hb]

theorem putAttribute_map_key {α : Type} {g : String → String} (v : α)
    (l : List (String × α)) (h : ∀ a ∈ l, (g a.1 = p ↔ a.1 = name)) (hname : g name = p) :
    putAttribute (l.map fun a => (g a.1, a.2)) p v = (putAttribute l name v).map fun a => (g a.1, a.2) := by
  have hany : (l.map fun a => (g a.1, a.2)).any (·.1 = p) = l.any (·.1 = name) := by
    rw [any_map]
    rw [Bool.eq_iff_iff, any_eq_true, any_eq_true]
    exact exists_congr fun a => and_congr_right fun ha => by simpa using h a ha
  unfold putAttribute
  rw [hany]
  split
  · rw [map_map, map_map]
    refine map_congr_left fun a ha => ?_
    by_cases hn : a.1 = name
    · simp [hn, hname]
    · simp [hn, mt (h a ha).1 hn]
  · simp [hname]

theorem Agrees.parameter (h : Agrees scope f e) (hd : scope.Distinct)
    (hp : scope.parameter? name = some p) : f.parameter p = e.argument name := by
  rw [Frame.parameter, Env.argument, h.parameters, lookup_map_key _ (h.parameter_eq_iff hd hp)]

theorem mem_putAttribute {α : Type} {l : List (String × α)} {v : α}
    {a : String × α} (h : a ∈ putAttribute l name v) : a.1 = name ∨ ∃ b ∈ l, b.1 = a.1 := by
  unfold putAttribute at h
  split at h
  · obtain ⟨b, hb, rfl⟩ := mem_map.1 h
    by_cases hn : b.1 = name
    · left; simp [hn]
    · right; exact ⟨b, hb, by simp [hn]⟩
  · rcases mem_append.1 h with h | h
    · exact Or.inr ⟨a, h, rfl⟩
    · left; rw [mem_singleton.1 h]

theorem Agrees.setParameter (h : Agrees scope f e) (hd : scope.Distinct)
    (hp : scope.parameter? name = some p) (v : Value) : Agrees scope (f.setParameter p v) (e.setArgument name v) where
  this := h.this
  globals := h.globals
  formatters := h.formatters
  parameters := by
    change putAttribute f.parameters p v = (putAttribute e.arguments name v).map _
    rw [h.parameters, putAttribute_map_key v _ (h.parameter_eq_iff hd hp)
      (by rw [Scope.parameterOf, hp, Option.getD_some])]
  declared := by
    intro a ha
    rcases mem_putAttribute ha with hn | ⟨b, hb, hn⟩
    · rw [hn, hp]; rfl
    · rw [← hn]; exact h.declared b hb

end Variables

section Chains

variable {s : Surroundings} {scope : Scope}
  {c : Chain Leaf} {t : Expr Leaf} {y : Direct Value} {k : Value → Eval Value}
  {l : Value → Direct Value} {value : Code Leaf} {gs : List (Guard Leaf)} {x x' : Code Leaf} {y' : Direct Value}

/-- Code and the evaluation of a tree end alike wherever the frame holds the variables. -/
abbrev Follows {α : Type} (scope : Scope) (x : Eval α) (y : Direct α) : Prop := Simulates (Agrees scope) Eq x y

/-- A chain of generated code and a tree: they reach the same, and the chain tests what the tree does. -/
structure Represents (s : Surroundings) (scope : Scope) (c : Chain Leaf) (t : Expr Leaf) : Prop where
  reach : Simulates (Agrees scope) Eq (c.reach s) (Direct.reach s scope t)
  present : c.present = isPresent scope t

theorem Represents.close (h : Represents s scope c t) : Follows scope (c.close.eval s) (eval s scope t) := by
  have hwhole : eval s scope t = (·.getD .null) <$> Direct.reach s scope t := by
    rw [eval, whole, map_eq_pure_bind]
  rw [Chain.eval_close, hwhole]
  exact h.reach.map fun a b hab => by rw [hab]

theorem Simulates.some {x : Eval Value} (h : Follows scope x y) :
    Follows scope (Option.some <$> x) (Option.some <$> y) :=
  h.map fun a b hab => by rw [hab]

theorem Simulates.keep {α β : Type} {P : α → β → Prop} {x : Eval α} {y : Direct β} (n : Option Nat)
    (v : Value) (h : Simulates (Agrees scope) P x y) : Simulates (Agrees scope) P (Code.keep n v >>= fun _ => x) y := by
  cases n with
  | none => simpa [Code.keep] using h
  | some n => exact update_left (fun _ _ ha => ha.setTemporary n v) h

variable (hc : Represents s scope c t)

include hc

/-- Going on from a chain whose value is used as it is. -/
theorem Represents.onward_present (hp : c.present = true) (hk : ∀ v, Follows scope (k v) (l v)) :
    Follows scope (behind s c.guards (c.head.eval s >>= k)) (onward (Direct.reach s scope t) (isThere scope t) l) := by
  rw [behind_bind]
  refine hc.reach.bind ?_
  rintro _ (_ | v) rfl
  · exact .pure rfl
  · have hpt : isPresent scope t = true := hc.present ▸ hp
    simpa [isThere, hpt] using (hk v).some

/-- Going on from a chain whose value is tested first. -/
theorem Represents.onward_tested {g : Guard Leaf} (hg : g.tested = c.head) (hv : g.Recalls value)
    {test : Value → Direct Bool}
    (ht : ∀ v, Follows scope (g.test.admits s v : Eval Bool) (test v))
    (hk : ∀ v, Follows scope (k v) (l v)) :
    Follows scope (behind s (c.guards ++ [g]) (value.eval s >>= k)) (onward (Direct.reach s scope t) test l) := by
  rw [behind_append_bind s c.guards hv, hg]
  refine hc.reach.bind ?_
  rintro _ (_ | v) rfl
  · exact .pure rfl
  · refine .keep _ _ ((ht v).bind ?_)
    rintro _ (_ | _) rfl
    · exact .pure rfl
    · exact (hk v).some

variable (hr : c.repeatable = true → c.head.isVariable = true)

include hr

theorem Represents.guard {n m : Nat} {test : Test}
    (h : (c.guard test).run n = .ok ((gs, value), m)) {admits : Value → Direct Bool}
    (ht : ∀ v, Follows scope (test.admits s v : Eval Bool) (admits v))
    (hk : ∀ v, Follows scope (k v) (l v)) :
    Follows scope (behind s gs (value.eval s >>= k)) (onward (Direct.reach s scope t) admits l) := by
  unfold Chain.guard at h
  split at h <;> rename_i hrep <;> cases h
  · exact hc.onward_tested (g := ⟨test, none, c.head⟩) rfl (Or.inl ⟨rfl, hr hrep, rfl⟩) ht hk
  · exact hc.onward_tested rfl (Or.inr ⟨_, rfl, rfl⟩) ht hk

theorem Represents.demand {n m : Nat} (h : c.demand.run n = .ok ((gs, value), m))
    (hk : ∀ v, Follows scope (k v) (l v)) :
    Follows scope (behind s gs (value.eval s >>= k)) (onward (Direct.reach s scope t) (isThere scope t) l) := by
  unfold Chain.demand at h
  split at h <;> rename_i hp
  · cases h
    exact hc.onward_present hp hk
  · have hpt : isPresent scope t = false := hc.present ▸ Bool.eq_false_iff.2 hp
    refine hc.guard hr h (fun v => ?_) hk
    simpa [Test.admits, isThere, hpt] using Simulates.pure rfl

theorem Represents.demandCallable {n m : Nat}
    (h : c.demandCallable.run n = .ok ((gs, value), m)) (hk : ∀ v, Follows scope (k v) (l v)) :
    Follows scope (behind s gs (value.eval s >>= k)) (onward (Direct.reach s scope t) (canBeCalled s) l) := by
  have hcall (v : Value) : canBeCalled s v = liftM (Test.callable.admits s v) := by
    simp only [canBeCalled, Test.admits, liftM_bind, liftM_pure]
    rfl
  exact hc.guard hr h (fun v => hcall v ▸ Simulates.lift _) hk

omit hr hc

theorem Represents.unguarded {head : Code Leaf} {p r : Bool} (hy : Direct.reach s scope t = Option.some <$> y)
    (h : Follows scope (head.eval s) y) (hp : p = isPresent scope t) : Represents s scope ⟨[], head, p, r⟩ t :=
  ⟨by rw [Chain.reach, behind_nil, hy]; exact h.some, hp⟩

theorem represents_name (hd : scope.Distinct) (name : String) : Represents s scope (scope.chain name) (.name name) := by
  have hy : Direct.reach s scope (.name name) = Option.some <$> readName s scope name := by
    rw [Direct.reach]
  cases hb : scope.classify name with
  | argument =>
    obtain ⟨p, hp⟩ := Scope.parameter?_of_argument hb
    simp only [Scope.chain, hb, hp, Option.getD_some]
    refine .unguarded hy ?_ (by simp [isPresent, hb])
    simp only [Code.eval, readName, hb]
    exact Simulates.get.bind fun f e hfe => .pure (hfe.parameter hd hp)
  | global =>
    simp only [Scope.chain, hb, Chain.known]
    refine .unguarded hy ?_ (by simp [isPresent, hb])
    simp only [Code.eval, readName, hb]
    refine Simulates.get.bind fun f e hfe => ?_
    rw [hfe.globals]
    exact .lift _
  | keyword =>
    simp only [Scope.chain, hb, keywordCode]
    refine .unguarded hy ?_ (by simp [isPresent, hb])
    simp only [readName, hb]
    split
    · exact Simulates.get.bind fun f e hfe => .pure hfe.globals
    · exact Simulates.get.bind fun f e hfe => .pure hfe.formatters
  | context =>
    simp only [Scope.chain, hb, Chain.plain]
    refine .unguarded hy ?_ (by simp [isPresent, hb])
    simp only [Code.eval, Code.evalAll, readName, hb, bind_assoc, pure_bind]
    refine Simulates.get.bind fun f e hfe => ?_
    rw [hfe.this]
    exact .lift _

theorem simulates_key (k : Key Leaf) : Follows scope ((keyCode k).eval s) (keyValue s k) := by
  cases k with
  | name text => rw [keyCode, Code.eval, keyValue]; exact .pure rfl
  | number text => rw [keyCode, Code.eval, keyValue]; exact .pure rfl
  | literal x => rw [keyCode, Code.eval, keyValue]; exact .lift _

theorem simulates_unaryCode (op : UnaryOp) (h : Follows scope (x.eval s) y) :
    Follows scope ((unaryCode op x).eval s) (y >>= unaryValue s op) := by
  cases op <;> simp only [unaryCode, Code.eval, Code.evalAll, bind_assoc, pure_bind] <;>
    refine h.bind_eq fun v => ?_
  case not => exact Simulates.getWorld.bind_eq fun w => .pure rfl
  all_goals exact .lift _

theorem simulates_binaryCode (op : BinaryOp) (h : Follows scope (x.eval s) y) (h' : Follows scope (x'.eval s) y') :
    Follows scope ((binaryCode op x x').eval s) (y >>= fun a => y' >>= fun b => binaryValue s op a b) := by
  cases op <;> simp only [binaryCode, Code.eval, Code.evalAll, bind_assoc, pure_bind] <;>
    refine h.bind_eq fun a => h'.bind_eq fun b => ?_
  case equal | differ | strictEqual | strictDiffer =>
    exact (Simulates.lift _).bind_eq fun r => .pure rfl
  all_goals exact .lift _

theorem simulates_logical (op : LogicalOp)
    (h : Follows scope (x.eval s) y) (h' : Follows scope (x'.eval s) y') :
    Follows scope ((Code.logical op x x').eval s) (do
      let v ← y
      let truth := (← getThe World).isTrue v
      match op with
      | .both => if truth then y' else return v
      | .either => if truth then return v else y') := by
  rw [Code.eval]
  refine h.bind_eq fun v => Simulates.getWorld.bind_eq fun w => ?_
  cases op <;> cases w.isTrue v <;> simp only [if_true, if_false, Bool.false_eq_true]
  · exact .pure rfl
  · exact h'
  · exact h'
  · exact .pure rfl

theorem simulates_choose (n : Nat) {x'' : Code Leaf} {y'' : Direct Value}
    (h : Follows scope (x.eval s) y) (h' : Follows scope (x'.eval s) y')
    (h'' : Follows scope (x''.eval s) y'') :
    Follows scope ((Code.choose n x x' x'').eval s) (do
      let v ← y
      if (← getThe World).isTrue v then y' else y'') := by
  rw [Code.eval]
  refine h.bind_eq fun v => .update_left (fun _ _ ha => ha.setTemporary n v) (Simulates.getWorld.bind_eq fun w => ?_)
  cases w.isTrue v
  · exact h''
  · exact h'

theorem simulates_guarded {code : Code Leaf} {y : Direct (Option Value)}
    (h : Follows scope (behind s gs (code.eval s)) y) : Follows scope ((guarded gs code).eval s) (whole y) := by
  rw [eval_guarded, whole, ← map_eq_pure_bind]
  exact h.map fun a b hab => by rw [hab]

theorem simulates_write (hd : scope.Distinct) {name : String} (hname : scope.classify name ≠ .keyword) {c : Code Leaf}
    (h : Follows scope (c.eval s) y) :
    Follows scope ((scope.write name c).eval s) (writeName s scope name y) := by
  unfold Scope.write
  cases hb : scope.classify name with
  | keyword => exact absurd hb hname
  | argument =>
    obtain ⟨p, hp⟩ := Scope.parameter?_of_argument hb
    simp only [Code.eval, writeName, hb, hp, Option.getD_some]
    refine h.bind_eq fun v => (Simulates.update ?_).bind_eq fun _ => .pure rfl
    exact fun f e hfe => hfe.setParameter hd hp v
  | global =>
    simp only [Code.eval, Code.evalAll, writeName, hb, bind_assoc, pure_bind]
    refine Simulates.get.bind fun f e hfe => h.bind_eq fun v => ?_
    rw [hfe.globals]
    exact .lift _
  | context =>
    simp only [Code.eval, Code.evalAll, writeName, hb, bind_assoc, pure_bind]
    refine Simulates.get.bind fun f e hfe => h.bind_eq fun v => ?_
    rw [hfe.this]
    exact .lift _

end Chains

section Trees

variable {s : Surroundings} {scope : Scope}

mutual

theorem represents_of_emits (hd : scope.Distinct) : ∀ {t : Expr Leaf} {n m : Nat} {c : Chain Leaf},
    Emits scope t n m c → Represents s scope c t
  | _, _, _, _, .number text =>
    .unguarded (y := pure (numeralValue text)) (by simp [Direct.reach]) (by rw [Code.eval]; exact .pure rfl) rfl
  | _, _, _, _, .literal x =>
    .unguarded (y := liftM (x.eval s)) (by rw [Direct.reach]) (by rw [Code.eval]; exact .lift _) rfl
  | _, _, _, _, .constant k =>
    .unguarded (y := pure k.value) (by simp [Direct.reach]) (by rw [Code.eval]; exact .pure rfl) rfl
  | _, _, _, _, .this => by
    refine .unguarded (y := do return (← get).this) (by simp [Direct.reach]) ?_ rfl
    rw [Code.eval]
    exact Simulates.get.bind fun f e hfe => .pure hfe.this
  | _, _, _, _, .name name => represents_name hd name
  | .array items, _, _, _, .array h => by
    refine .unguarded (y := do let vs ← values s scope items; Run.newList vs) (by rw [Direct.reach, map_bind]) ?_ rfl
    rw [Code.eval]
    exact (simulates_of_emitsAll hd h).bind_eq fun _ => .lift _
  | .object entries, _, _, _, .object h => by
    refine .unguarded (y := do let kvs ← entryValues s scope entries; buildDict kvs)
      (by rw [Direct.reach, map_bind]) ?_ rfl
    rw [Code.eval]
    exact (simulates_of_emitsEntries hd h).bind_eq fun _ => .lift _
  | .member _ name, _, _, _, .member ht hdem => by
    refine ⟨?_, rfl⟩
    have hstep := (represents_of_emits hd ht).demand ht.isVariable hdem
      fun v => Simulates.lift (s.operate .get [v, .str name])
    rw [Direct.reach]
    simpa [Chain.reach, Code.eval, Code.evalAll] using hstep
  | _, _, _, _, .index ht hdem hk => by
    refine ⟨?_, rfl⟩
    have hstep := (represents_of_emits hd ht).demand ht.isVariable hdem fun v =>
      (represents_of_emits hd hk).close.bind_eq fun k => Simulates.lift (s.operate .get [v, k])
    rw [Direct.reach]
    simpa [Chain.reach, Code.eval, Code.evalAll, eval] using hstep
  | _, _, _, _, .call hc hdem hs => by
    refine ⟨?_, rfl⟩
    have hstep := (represents_of_emits hd hc).demandCallable hc.isVariable hdem fun f =>
      (simulates_of_emitsAll hd hs).bind_eq fun vs => Simulates.lift (Run.callValue s.host f vs)
    rw [Direct.reach]
    simpa [Chain.reach, Code.eval] using hstep
  | .unary _ operand, _, _, _, .unary op hx =>
    .unguarded (y := eval s scope operand >>= unaryValue s op) (by rw [Direct.reach, map_bind]; rfl)
      (simulates_unaryCode op (represents_of_emits hd hx).close) rfl
  | .binary _ left right, _, _, _, .binary op hl hr =>
    .unguarded (y := do
        let a ← eval s scope left
        let b ← eval s scope right
        binaryValue s op a b)
      (by simp only [Direct.reach, map_bind]; rfl)
      (simulates_binaryCode op (represents_of_emits hd hl).close (represents_of_emits hd hr).close) rfl
  | _, _, _, _, .logical op hl hr => by
    refine .unguarded ?_ (simulates_logical op (represents_of_emits hd hl).close (represents_of_emits hd hr).close) rfl
    rw [Direct.reach]
    simp only [eval, map_bind]
    refine bind_congr fun v => bind_congr fun w => ?_
    cases op <;> cases w.isTrue v <;> simp
  | _, _, _, _, .conditional ht hy hn => by
    refine .unguarded ?_ (simulates_choose _ (represents_of_emits hd ht).close (represents_of_emits hd hy).close
      (represents_of_emits hd hn).close) rfl
    rw [Direct.reach]
    simp only [eval, map_bind]
    refine bind_congr fun v => bind_congr fun w => ?_
    cases w.isTrue v <;> simp
  | _, _, _, _, .assignName hname hv =>
    .unguarded (by rw [Direct.reach]; rfl) (simulates_write hd hname (represents_of_emits hd hv).close) rfl
  | .assign (.member _ name) _, _, _, _, .assignMember ht hdem hv => by
    refine .unguarded (by rw [Direct.reach]) ?_ rfl
    have hstep := (represents_of_emits hd ht).demand ht.isVariable hdem fun v =>
      (represents_of_emits hd hv).close.bind_eq fun x => Simulates.lift (s.operate .set [v, .str name, x])
    refine simulates_guarded ?_
    simpa [Code.eval, Code.evalAll, eval] using hstep
  | _, _, _, _, .assignIndex ht hdem hk hv => by
    refine .unguarded (by rw [Direct.reach]) ?_ rfl
    have hstep := (represents_of_emits hd ht).demand ht.isVariable hdem fun v =>
      (represents_of_emits hd hk).close.bind_eq fun k =>
        (represents_of_emits hd hv).close.bind_eq fun x => Simulates.lift (s.operate .set [v, k, x])
    refine simulates_guarded ?_
    simpa [Code.eval, Code.evalAll, eval] using hstep

theorem simulates_of_emitsAll (hd : scope.Distinct) : ∀ {ts : List (Expr Leaf)} {n m : Nat} {cs : List (Code Leaf)},
    EmitsAll scope ts n m cs → Follows scope (Code.evalAll s cs) (values s scope ts)
  | _, _, _, _, .nil => by
    rw [Code.evalAll, values]
    exact .pure rfl
  | _, _, _, _, .cons h hs => by
    rw [Code.evalAll, values]
    exact (represents_of_emits hd h).close.bind_eq fun v =>
      (simulates_of_emitsAll hd hs).bind_eq fun vs => .pure rfl

theorem simulates_of_emitsEntries (hd : scope.Distinct) : ∀ {es : List (Key Leaf × Expr Leaf)} {n m : Nat}
    {cs : List (Code Leaf × Code Leaf)}, EmitsEntries scope es n m cs →
      Follows scope (Code.evalEntries s cs) (entryValues s scope es)
  | _, _, _, _, .nil => by
    rw [Code.evalEntries, entryValues]
    exact .pure rfl
  | _, _, _, _, .cons key h hs => by
    rw [Code.evalEntries, entryValues]
    exact (simulates_key key).bind_eq fun _ => (represents_of_emits hd h).close.bind_eq fun v =>
      (simulates_of_emitsEntries hd hs).bind_eq fun vs => .pure rfl

end

theorem simulates_of_emit (hd : scope.Distinct) {t : Expr Leaf} {body : Body Leaf} (h : emit scope t = .ok body)
    (s : Surroundings) : Follows scope (body.code.eval s) (eval s scope t) := by
  obtain ⟨c, hc, hcode⟩ := emit_eq_ok_iff.1 h
  rw [hcode]
  exact (represents_of_emits hd hc).close

end Trees

section Calls

/-- How generated code ends in a frame: its value and what the parameters hold then. -/
def Body.outcome (s : Surroundings) (body : Body Leaf) (f : Frame) : Run (Value × List Value) := do
  let (v, f) ← (body.code.eval s).run f
  return (v, f.parameters.map Prod.snd)

def Direct.outcome (s : Surroundings) (scope : Scope) (t : Expr Leaf) (e : Env) :
    Run (Value × List Value) := do
  let (v, e) ← (eval s scope t).run e
  return (v, e.arguments.map Prod.snd)

variable {globals names : List String}

theorem agrees_start (h : names.Nodup) {p : Program}
    (hp : p.parameters = (Scope.ofNames globals names).parameters) {this g fm : Value}
    {extra : List Value} {f : Frame} (hf : p.frame? (this :: g :: fm :: extra) = some f) :
    Agrees (Scope.ofNames globals names) f (Env.start names this g fm extra) := by
  have hparams : p.parameters = names.map (Scope.ofNames globals names).parameterOf :=
    hp.trans (Scope.parameters_ofNames globals h)
  rw [Program.frame?, hparams, length_map] at hf
  split at hf
  · cases hf
    refine ⟨rfl, rfl, rfl, ?_, ?_⟩
    · rw [zip_map_left]
      rfl
    · intro a ha
      exact Scope.isSome_parameter?_of_mem globals h (of_mem_zip ha).1
  · cases hf

theorem Agrees.snd_parameters {scope : Scope} {f : Frame} {e : Env} (h : Agrees scope f e) :
    f.parameters.map Prod.snd = e.arguments.map Prod.snd := by
  rw [h.parameters, map_map]
  rfl

theorem outcome_eq_of_simulates {s : Surroundings} {scope : Scope} {body : Body Leaf} {t : Expr Leaf}
    (h : Follows scope (body.code.eval s) (eval s scope t)) {f : Frame} {e : Env}
    (hfe : Agrees scope f e) : body.outcome s f = Direct.outcome s scope t e := by
  apply Run.ext_outcome
  intro w
  have hend := h f e w hfe
  rw [Body.outcome, Direct.outcome, Run.outcome_bind, Run.outcome_bind]
  rcases hx : ((body.code.eval s).run f).outcome w with ⟨r | ⟨v, f'⟩, w₁⟩ <;>
    rcases hy : ((eval s scope t).run e).outcome w with ⟨r' | ⟨v', e'⟩, w₂⟩ <;>
    rw [hx, hy] at hend
  · rw [hend.1, hend.2]
  · exact hend.elim
  · exact hend.elim
  · obtain ⟨rfl, hv, hfe'⟩ := hend
    simp only [Run.outcome_pure]
    rw [show v = v' from hv, hfe'.snd_parameters]

/-- A function with the given code, called with anything, ends as the direct evaluation of a tree does:
with the same value or the same error, in the same world and with the same values of the extra arguments.
The surroundings are arbitrary, so both also make the same calls with the same arguments in the same
order. -/
def Body.Implements (scope : Scope) (names : List String) (code : Body Leaf) (tree : Expr Leaf) : Prop :=
  ∀ (s : Surroundings) (p : Program), p.parameters = scope.parameters → p.body = code →
    ∀ (this g fm : Value) (extra : List Value) (f : Frame),
      p.frame? (this :: g :: fm :: extra) = some f →
        p.body.outcome s f = Direct.outcome s scope tree (Env.start names this g fm extra)

/-- Generated code does what the expression says: it takes the literals that the tree takes, and with them
it implements the tree with them. -/
theorem implements_emit (hnames : Request.namesProblem? names = none) {t : Expr Placeholder}
    {body : Body Placeholder} (hemit : emit (Scope.ofNames globals names) t = .ok body)
    (queue : List (List Char)) :
    match body.fill queue, t.filled queue with
    | .ok code, .ok tree => code.Implements (Scope.ofNames globals names) names tree
    | .error fault, .error fault' => fault = fault'
    | _, _ => False := by
  have hfill := fill_emit hemit queue
  rcases htree : t.filled queue with fault | tree <;> rw [htree] at hfill
  · rw [hfill]
  · obtain ⟨code, hcode, hemit⟩ := hfill
    rw [hcode]
    intro s p hp hbody this g fm extra f hf
    refine outcome_eq_of_simulates ?_ (agrees_start (Request.nodup_of_accepted hnames) hp hf)
    rw [hbody]
    exact simulates_of_emit (Scope.distinct_ofNames hnames) hemit s

theorem implements_emit_index :
    Request.namesProblem? ["a"] = none ∧
      ∃ body, emit (Scope.ofNames [] ["a"])
          (.index (.name "a") (.literal (.string .single))) = .ok body ∧
        match body.fill ["'b'".toList], (Expr.index (.name "a") (.literal (.string .single))).filled ["'b'".toList] with
        | .ok code, .ok tree => code.Implements (Scope.ofNames [] ["a"]) ["a"] tree
        | .error fault, .error fault' => fault = fault'
        | _, _ => False :=
  ⟨by decide, _, rfl, implements_emit (by decide) rfl ["'b'".toList]⟩

end Calls

end NullSafe
