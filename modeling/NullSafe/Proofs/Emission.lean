import NullSafe.Code.Emit

/-! # Generating code

What is generated for a tree, as a relation with one rule for each kind of expression. It holds exactly of what the
generator gives, so facts about generated code are proved by induction on it.
-/

namespace NullSafe

open Surface

variable {ι : Type} {scope : Scope}

theorem Emit.of_bind_ok {α β : Type} {x : Emit α} {k : α → Emit β} {n : Nat} {r : β × Nat}
    (h : (x >>= k).run n = .ok r) : ∃ a m, x.run n = .ok (a, m) ∧ (k a).run m = .ok r := by
  rw [StateT.run_bind] at h
  rcases hx : x.run n with f | ⟨a, m⟩
  · rw [hx] at h; cases h
  · rw [hx] at h; exact ⟨a, m, rfl, h⟩

theorem Emit.bind_ok {α β : Type} {x : Emit α} {k : α → Emit β} {n m : Nat} {a : α}
    {r : Except Fault (β × Nat)} (hx : x.run n = .ok (a, m)) (hk : (k a).run m = r) : (x >>= k).run n = r := by
  rw [StateT.run_bind, hx]
  exact hk

def Scope.write (scope : Scope) (name : String) (value : Code ι) : Code ι :=
  match scope.classify name with
  | .argument => .setParameter ((scope.parameter? name).getD name) value
  | .global => .operate .set [.globals, .key name, value]
  | .keyword | .context => .operate .set [.this, .key name, value]

mutual

/-- The chain that is generated for a tree, with the number of temporaries in use before and behind it. -/
inductive Emits (scope : Scope) : Expr ι → Nat → Nat → Chain ι → Prop where
  | number {n} (text : String) : Emits scope (.number text) n n (.known (.number text))
  | literal {n} (x : ι) : Emits scope (.literal x) n n (.known (.literal x))
  | constant {n} (k : Constant) : Emits scope (.constant k) n n (.plain (.constant k))
  | this {n} : Emits scope .this n n ⟨[], .this, true, true⟩
  | name {n} (name : String) : Emits scope (.name name) n n (scope.chain name)
  | array {ts n m cs} (h : EmitsAll scope ts n m cs) : Emits scope (.array ts) n m (.known (.array cs))
  | object {es n m ces} (h : EmitsEntries scope es n m ces) : Emits scope (.object es) n m (.known (.object ces))
  | member {target n m k c gs object name} (ht : Emits scope target n m c)
      (hd : c.demand.run m = .ok ((gs, object), k)) :
      Emits scope (.member target name) n k ⟨gs, .operate .get [object, .key name], false, false⟩
  | index {target key n m k l c ck gs object} (ht : Emits scope target n m c)
      (hd : c.demand.run m = .ok ((gs, object), k)) (hk : Emits scope key k l ck) :
      Emits scope (.index target key) n l ⟨gs, .operate .get [object, ck.close], false, false⟩
  | call {callee n m k l c gs object arguments cs} (hc : Emits scope callee n m c)
      (hd : c.demandCallable.run m = .ok ((gs, object), k)) (hs : EmitsAll scope arguments k l cs) :
      Emits scope (.call callee arguments) n l ⟨gs, .apply object cs, false, false⟩
  | unary {operand n m cx} (op : UnaryOp) (hx : Emits scope operand n m cx) :
      Emits scope (.unary op operand) n m (.plain (unaryCode op cx.close))
  | binary {left right n m k cl cr} (op : BinaryOp) (hl : Emits scope left n m cl) (hr : Emits scope right m k cr) :
      Emits scope (.binary op left right) n k (.plain (binaryCode op cl.close cr.close))
  | logical {left right n m k cl cr} (op : LogicalOp) (hl : Emits scope left n m cl) (hr : Emits scope right m k cr) :
      Emits scope (.logical op left right) n k (.plain (.logical op cl.close cr.close))
  | conditional {test yes no n m k l ct cy cn} (ht : Emits scope test (n + 1) m ct) (hy : Emits scope yes m k cy)
      (hn : Emits scope no k l cn) :
      Emits scope (.conditional test yes no) n l (.plain (.choose (n + 1) ct.close cy.close cn.close))
  | assignName {name value n m cv} (hname : scope.classify name ≠ .keyword) (hv : Emits scope value n m cv) :
      Emits scope (.assign (.name name) value) n m (.plain (scope.write name cv.close))
  | assignMember {target value n m k l c cv gs object name} (ht : Emits scope target n m c)
      (hd : c.demand.run m = .ok ((gs, object), k)) (hv : Emits scope value k l cv) :
      Emits scope (.assign (.member target name) value) n l
        (.plain (guarded gs (.operate .set [object, .key name, cv.close])))
  | assignIndex {target key value n m k l j c ck cv gs object} (ht : Emits scope target n m c)
      (hd : c.demand.run m = .ok ((gs, object), k)) (hk : Emits scope key k l ck) (hv : Emits scope value l j cv) :
      Emits scope (.assign (.index target key) value) n j
        (.plain (guarded gs (.operate .set [object, ck.close, cv.close])))

inductive EmitsAll (scope : Scope) : List (Expr ι) → Nat → Nat → List (Code ι) → Prop where
  | nil {n} : EmitsAll scope [] n n []
  | cons {t ts n m k c cs} (h : Emits scope t n m c) (hs : EmitsAll scope ts m k cs) :
      EmitsAll scope (t :: ts) n k (c.close :: cs)

inductive EmitsEntries (scope : Scope) : List (Key ι × Expr ι) → Nat → Nat → List (Code ι × Code ι) → Prop where
  | nil {n} : EmitsEntries scope [] n n []
  | cons {t es n m k c ces} (key : Key ι) (h : Emits scope t n m c) (hs : EmitsEntries scope es m k ces) :
      EmitsEntries scope ((key, t) :: es) n k ((keyCode key, c.close) :: ces)

end

section Inversion

variable {α β : Type} {P : β × Nat → Prop} {n : Nat}

theorem Emit.of_pure {b : β} (h : P (b, n)) : ∀ r, (pure b : Emit β).run n = .ok r → P r := by
  rintro _ ⟨⟩
  exact h

theorem Emit.of_bind {x : Emit α} {k : α → Emit β}
    (h : ∀ a, x.run n = .ok a → ∀ r, (k a.1).run a.2 = .ok r → P r) : ∀ r, (x >>= k).run n = .ok r → P r := by
  intro r hr
  obtain ⟨a, m, ha, hr⟩ := Emit.of_bind_ok hr
  exact h (a, m) ha r hr

theorem Emit.of_assign {name : String} {x : Emit (Code ι)} {P : Code ι × Nat → Prop}
    (h : scope.classify name ≠ .keyword → ∀ r, x.run n = .ok r → P (scope.write name r.1, r.2)) :
    ∀ r, (scope.assign name x).run n = .ok r → P r := by
  unfold Scope.assign
  unfold Scope.write at h
  generalize scope.classify name = binding at h ⊢
  cases binding
  case keyword => nofun
  all_goals exact Emit.of_bind fun a ha => Emit.of_pure (h nofun a ha)

theorem Scope.run_assign {name : String} (h : scope.classify name ≠ .keyword) {x : Emit (Code ι)} {code : Code ι}
    {m : Nat} (hx : x.run n = .ok (code, m)) : (scope.assign name x).run n = .ok (scope.write name code, m) := by
  unfold assign write
  rcases hc : scope.classify name with _ | _ | _ | _
  case keyword => exact absurd hc h
  all_goals exact Emit.bind_ok hx rfl

end Inversion

open Emit

mutual

theorem emits_of_run : ∀ (t : Expr ι) (n : Nat) (r : Chain ι × Nat), (emitChain scope t).run n = .ok r →
    Emits scope t n r.2 r.1
  | .number text, _ => of_pure (.number text)
  | .literal x, _ => of_pure (.literal x)
  | .constant k, _ => of_pure (.constant k)
  | .this, _ => of_pure .this
  | .name name, _ => of_pure (.name name)
  | .array items, _ => of_bind fun _ h => of_pure (.array (emitsAll_of_run items _ _ h))
  | .object entries, _ => of_bind fun _ h => of_pure (.object (emitsEntries_of_run entries _ _ h))
  | .member target _, _ => of_bind fun _ h => of_bind fun _ hd => of_pure (.member (emits_of_run target _ _ h) hd)
  | .index target key, _ => of_bind fun _ h => of_bind fun _ hd => of_bind fun _ hk =>
    of_pure (.index (emits_of_run target _ _ h) hd (emits_of_run key _ _ hk))
  | .call callee arguments, _ => of_bind fun _ h => of_bind fun _ hd => of_bind fun _ hs =>
    of_pure (.call (emits_of_run callee _ _ h) hd (emitsAll_of_run arguments _ _ hs))
  | .unary op operand, _ => of_bind fun _ h => of_pure (.unary op (emits_of_run operand _ _ h))
  | .binary op left right, _ => of_bind fun _ hl => of_bind fun _ hr =>
    of_pure (.binary op (emits_of_run left _ _ hl) (emits_of_run right _ _ hr))
  | .logical op left right, _ => of_bind fun _ hl => of_bind fun _ hr =>
    of_pure (.logical op (emits_of_run left _ _ hl) (emits_of_run right _ _ hr))
  | .conditional test yes no, n => of_bind fun _ hn => by
    cases hn
    exact of_bind fun _ ht => of_bind fun _ hy => of_bind fun _ hz => of_pure
      (.conditional (emits_of_run test _ _ ht) (emits_of_run yes _ _ hy) (emits_of_run no _ _ hz))
  | .assign (.name _) value, _ => of_bind (of_assign fun hname => of_bind fun _ hv =>
    of_pure (of_pure (.assignName hname (emits_of_run value _ _ hv))))
  | .assign (.member target _) value, _ => of_bind fun _ h => of_bind fun _ hd => of_bind fun _ hv =>
    of_pure (.assignMember (emits_of_run target _ _ h) hd (emits_of_run value _ _ hv))
  | .assign (.index target key) value, _ =>
    of_bind fun _ h => of_bind fun _ hd => of_bind fun _ hk => of_bind fun _ hv =>
    of_pure (.assignIndex (emits_of_run target _ _ h) hd (emits_of_run key _ _ hk) (emits_of_run value _ _ hv))
  | .assign (.number _) _, _ | .assign (.literal _) _, _ | .assign (.constant _) _, _ | .assign .this _, _
  | .assign (.array _) _, _ | .assign (.object _) _, _ | .assign (.call _ _) _, _ | .assign (.unary _ _) _, _
  | .assign (.binary _ _ _) _, _ | .assign (.logical _ _ _) _, _ | .assign (.conditional _ _ _) _, _
  | .assign (.assign _ _) _, _ => nofun

theorem emitsAll_of_run : ∀ (ts : List (Expr ι)) (n : Nat) (r : List (Code ι) × Nat), (emitAll scope ts).run n = .ok r →
    EmitsAll scope ts n r.2 r.1
  | [], _ => of_pure .nil
  | t :: rest, _ => of_bind fun _ h => of_bind fun _ hs =>
    of_pure (.cons (emits_of_run t _ _ h) (emitsAll_of_run rest _ _ hs))

theorem emitsEntries_of_run : ∀ (es : List (Key ι × Expr ι)) (n : Nat) (r : List (Code ι × Code ι) × Nat),
    (emitEntries scope es).run n = .ok r → EmitsEntries scope es n r.2 r.1
  | [], _ => of_pure .nil
  | (key, t) :: rest, _ => of_bind fun _ h => of_bind fun _ hs =>
    of_pure (.cons key (emits_of_run t _ _ h) (emitsEntries_of_run rest _ _ hs))

end

mutual

theorem Emits.run : ∀ {t : Expr ι} {n m : Nat} {c : Chain ι},
    Emits scope t n m c → (emitChain scope t).run n = .ok (c, m)
  | _, _, _, _, .number _ | _, _, _, _, .literal _ | _, _, _, _, .constant _ | _, _, _, _, .this
    | _, _, _, _, .name _ => rfl
  | _, _, _, _, .array h => Emit.bind_ok h.run rfl
  | _, _, _, _, .object h => Emit.bind_ok h.run rfl
  | _, _, _, _, .member ht hd => Emit.bind_ok ht.run (Emit.bind_ok hd rfl)
  | _, _, _, _, .index ht hd hk => Emit.bind_ok ht.run (Emit.bind_ok hd (Emit.bind_ok hk.run rfl))
  | _, _, _, _, .call hc hd hs => Emit.bind_ok hc.run (Emit.bind_ok hd (Emit.bind_ok hs.run rfl))
  | _, _, _, _, .unary _ hx => Emit.bind_ok hx.run rfl
  | _, _, _, _, .binary _ hl hr | _, _, _, _, .logical _ hl hr => Emit.bind_ok hl.run (Emit.bind_ok hr.run rfl)
  | _, _, _, _, .conditional ht hy hn =>
    Emit.bind_ok rfl (Emit.bind_ok ht.run (Emit.bind_ok hy.run (Emit.bind_ok hn.run rfl)))
  | _, _, _, _, .assignName hname hv =>
    Emit.bind_ok (scope.run_assign hname (Emit.bind_ok hv.run rfl)) rfl
  | _, _, _, _, .assignMember ht hd hv => Emit.bind_ok ht.run (Emit.bind_ok hd (Emit.bind_ok hv.run rfl))
  | _, _, _, _, .assignIndex ht hd hk hv =>
    Emit.bind_ok ht.run (Emit.bind_ok hd (Emit.bind_ok hk.run (Emit.bind_ok hv.run rfl)))

theorem EmitsAll.run : ∀ {ts : List (Expr ι)} {n m : Nat} {cs : List (Code ι)}, EmitsAll scope ts n m cs →
    (emitAll scope ts).run n = .ok (cs, m)
  | _, _, _, _, .nil => rfl
  | _, _, _, _, .cons h hs => Emit.bind_ok h.run (Emit.bind_ok hs.run rfl)

theorem EmitsEntries.run : ∀ {es : List (Key ι × Expr ι)} {n m : Nat} {cs : List (Code ι × Code ι)},
    EmitsEntries scope es n m cs → (emitEntries scope es).run n = .ok (cs, m)
  | _, _, _, _, .nil => rfl
  | _, _, _, _, .cons _ h hs => Emit.bind_ok h.run (Emit.bind_ok hs.run rfl)

end

theorem emit_eq_ok_iff {t : Expr ι} {body : Body ι} :
    emit scope t = .ok body ↔ ∃ c, Emits scope t 0 body.temporaries c ∧ body.code = c.close := by
  unfold emit
  constructor
  · intro h
    rcases hc : (emitChain scope t).run 0 with f | ⟨c, n⟩ <;> rw [hc] at h <;> cases h
    exact ⟨c, emits_of_run t 0 _ hc, rfl⟩
  · rintro ⟨c, h, hcode⟩
    rcases body with ⟨n, code⟩
    cases hcode
    rw [h.run]
    rfl

end NullSafe
