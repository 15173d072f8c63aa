import NullSafe.Proofs.Chains

/-! # Literals in trees and in code

The literals that generated code takes are those that its tree takes, in the same order: code for a tree
with its literals put in is the code of the tree with its literals put in.
-/

namespace NullSafe

open Surface Chain

def Surface.Key.fill : Key Placeholder → Filling (Key Leaf)
  | .name text => return .name text
  | .literal p => do return .literal (← p.fill)
  | .number text => return .number text

namespace Surface.Expr

mutual

/-- A tree with literals in place of its placeholders, from left to right. -/
def fill : Expr Placeholder → Filling (Expr Leaf)
  | .number text => return .number text
  | .literal p => do return .literal (← p.fill)
  | .constant c => return .constant c
  | .this => return .this
  | .name text => return .name text
  | .array items => do return .array (← fillAll items)
  | .object entries => do return .object (← fillEntries entries)
  | .member target property => do return .member (← fill target) property
  | .index target key => do
    let target ← fill target
    return .index target (← fill key)
  | .call callee arguments => do
    let callee ← fill callee
    return .call callee (← fillAll arguments)
  | .unary op operand => do return .unary op (← fill operand)
  | .binary op left right => do
    let left ← fill left
    return .binary op left (← fill right)
  | .logical op left right => do
    let left ← fill left
    return .logical op left (← fill right)
  | .conditional test yes no => do
    let test ← fill test
    let yes ← fill yes
    return .conditional test yes (← fill no)
  | .assign target value => do
    let target ← fill target
    return .assign target (← fill value)

def fillAll : List (Expr Placeholder) → Filling (List (Expr Leaf))
  | [] => return []
  | t :: rest => do
    let t ← fill t
    return t :: (← fillAll rest)

def fillEntries : List (Key Placeholder × Expr Placeholder) → Filling (List (Key Leaf × Expr Leaf))
  | [] => return []
  | (k, t) :: rest => do
    let k ← k.fill
    let t ← fill t
    return (k, t) :: (← fillEntries rest)

end

def filled (t : Expr Placeholder) (queue : List (List Char)) :
    Except Literal.EscapeFault (Expr Leaf) := do
  let (t, _) ← t.fill.run queue
  return t

end Surface.Expr

def Guard.fill (g : Guard Placeholder) : Filling (Guard Leaf) := do
  return ⟨g.test, g.kept, ← g.tested.fill⟩

def Guard.fillAll : List (Guard Placeholder) → Filling (List (Guard Leaf))
  | [] => return []
  | g :: rest => do
    let g ← g.fill
    return g :: (← fillAll rest)

def Chain.fill (c : Chain Placeholder) : Filling (Chain Leaf) := do
  let guards ← Guard.fillAll c.guards
  let head ← c.head.fill
  return ⟨guards, head, c.present, c.repeatable⟩

section Code

theorem fill_guarded (gs : List (Guard Placeholder)) (code : Code Placeholder) :
    (guarded gs code).fill = do
      let gs ← Guard.fillAll gs
      let code ← code.fill
      return guarded gs code := by
  induction gs with
  | nil => simp [guarded, Guard.fillAll]
  | cons g rest ih =>
    have hstep : guarded (g :: rest) code = g.wrap (guarded rest code) := rfl
    rw [hstep, Guard.fillAll]
    rcases g with ⟨_ | _, n, tested⟩ <;>
    · simp only [Guard.wrap, Guard.fill, Code.fill, ih, bind_assoc, pure_bind]
      rfl

theorem Chain.fill_close (c : Chain Placeholder) : c.close.fill = Chain.close <$> c.fill := by
  rw [Chain.close, fill_guarded, Chain.fill, map_bind]
  simp [Chain.close]

theorem Guard.fillAll_concat (gs : List (Guard Placeholder)) (g : Guard Placeholder) :
    fillAll (gs ++ [g]) = do
      let gs ← fillAll gs
      let g ← g.fill
      return gs ++ [g] := by
  induction gs with
  | nil => simp [fillAll]
  | cons h rest ih => simp [fillAll, ih]

theorem fill_plain (code : Code Placeholder) : (plain code).fill = code.fill >>= fun code => return .plain code := by
  simp [Chain.fill, plain, Guard.fillAll]

theorem Code.fill_isVariable {code : Code Placeholder} (h : code.isVariable = true) :
    ∃ code' : Code Leaf, code.fill = pure code' := by
  cases code <;> first | exact ⟨_, by rw [fill]⟩ | cases h

theorem fill_keyCode (k : Key Placeholder) : (keyCode k).fill = keyCode <$> k.fill := by
  cases k <;> simp [keyCode, Code.fill, Key.fill]

theorem fill_unaryCode (op : UnaryOp) (x : Code Placeholder) : (unaryCode op x).fill = unaryCode op <$> x.fill := by
  rw [map_eq_pure_bind]
  cases op <;> simp [unaryCode, Code.fill, Code.fillAll]

theorem fill_binaryCode (op : BinaryOp) (x y : Code Placeholder) :
    (binaryCode op x y).fill = do
      let x ← x.fill
      let y ← y.fill
      return binaryCode op x y := by
  cases op <;> simp [binaryCode, Code.fill, Code.fillAll]

theorem fill_chain (scope : Scope) (name : String) : (scope.chain name).fill = pure (scope.chain name) := by
  cases hb : scope.classify name <;>
    simp only [Scope.chain, hb, known, plain, Chain.fill, Guard.fillAll, keywordCode]
  case keyword => split <;> simp [Code.fill]
  all_goals simp [Code.fill, Code.fillAll]

end Code

/-- Two fillings that take the same literals: they fail alike or have related results. -/
def Filling.Alike {α β : Type} (P : α → β → Prop) (x : Filling α) (y : Filling β) : Prop :=
  ∀ queue, match x.run queue, y.run queue with
    | .ok (a, rest), .ok (b, rest') => rest = rest' ∧ P a b
    | .error f, .error f' => f = f'
    | _, _ => False

namespace Filling.Alike

variable {α β γ δ : Type} {P : α → β → Prop} {Q : γ → δ → Prop} {x : Filling α} {y : Filling β}

theorem pure {a : α} {b : β} (h : P a b) : Alike P (Pure.pure a) (Pure.pure b) :=
  fun _ => ⟨rfl, h⟩

theorem refl (x : Filling α) : Alike Eq x x := by
  intro queue
  rcases x.run queue with f | ⟨a, rest⟩
  · rfl
  · exact ⟨rfl, rfl⟩

theorem bind {k : α → Filling γ} {l : β → Filling δ}
    (h : Alike P x y) (hk : ∀ a b, P a b → Alike Q (k a) (l b)) : Alike Q (x >>= k) (y >>= l) := by
  intro queue
  have hxy := h queue
  rw [StateT.run_bind, StateT.run_bind]
  rcases hx : x.run queue with f | ⟨a, rest⟩ <;> rcases hy : y.run queue with f' | ⟨b, rest'⟩ <;>
    rw [hx, hy] at hxy
  · exact hxy
  · exact hxy.elim
  · exact hxy.elim
  · obtain ⟨rfl, hP⟩ := hxy
    exact hk a b hP rest

theorem map {g : α → γ} {k : β → δ} (h : Alike P x y)
    (hk : ∀ a b, P a b → Q (g a) (k b)) : Alike Q (g <$> x) (k <$> y) := by
  rw [map_eq_pure_bind, map_eq_pure_bind]
  exact bind h fun a b hP => pure (hk a b hP)

theorem imp {P' : α → β → Prop} (h : Alike P x y) (hP : ∀ a b, P a b → P' a b) : Alike P' x y := by
  simpa using h.map (g := id) (k := id) hP

theorem trans {P : α → β → Prop} {Q : β → γ → Prop} {z : Filling γ}
    (h : Alike P x y) (h' : Alike Q y z) : Alike (fun a c => ∃ b, P a b ∧ Q b c) x z := by
  intro queue
  have hxy := h queue
  have hyz := h' queue
  rcases hx : x.run queue with f | ⟨a, rest⟩ <;> rcases hy : y.run queue with f' | ⟨b, rest'⟩ <;>
    rcases hz : z.run queue with f'' | ⟨c, rest''⟩ <;> rw [hx, hy] at hxy <;> rw [hy, hz] at hyz <;>
    first | exact hxy.elim | exact hyz.elim | skip
  · exact hxy.trans hyz
  · exact ⟨hxy.1.trans hyz.1, b, hxy.2, hyz.2⟩

theorem bind_eq {k : α → Filling γ} {l : α → Filling δ} (hk : ∀ a, Alike Q (k a) (l a)) : Alike Q (x >>= k) (x >>= l) :=
  (refl x).bind fun a _ hab => hab ▸ hk a

end Filling.Alike

def fillBehind (gs : List (Guard Placeholder)) (value : Code Placeholder) :
    Filling (List (Guard Leaf) × Code Leaf) := do
  let gs ← Guard.fillAll gs
  let value ← value.fill
  return (gs, value)

section Links

variable (gs : List (Guard Placeholder)) (op : Operation) (value : Code Placeholder) (rest : List (Code Placeholder))
  (p r : Bool)

theorem fill_operate : Chain.fill ⟨gs, .operate op (value :: rest), p, r⟩ = do
    let x ← fillBehind gs value
    let rest ← Code.fillAll rest
    return ⟨x.1, .operate op (x.2 :: rest), p, r⟩ := by
  simp [Chain.fill, fillBehind, Code.fill, Code.fillAll]

theorem fill_apply : Chain.fill ⟨gs, .apply value rest, p, r⟩ = do
    let x ← fillBehind gs value
    let rest ← Code.fillAll rest
    return ⟨x.1, .apply x.2 rest, p, r⟩ := by
  simp [Chain.fill, fillBehind, Code.fill]

theorem fill_guarded_operate : (guarded gs (.operate op (value :: rest))).fill = do
    let x ← fillBehind gs value
    let rest ← Code.fillAll rest
    return guarded x.1 (.operate op (x.2 :: rest)) := by
  simp [fill_guarded, fillBehind, Code.fill, Code.fillAll]

end Links

section Chains

variable {c : Chain Placeholder} {n m : Nat} {gs : List (Guard Placeholder)} {value : Code Placeholder}

theorem Chain.fill_guard (hr : c.repeatable = true → c.head.isVariable = true) {test : Test}
    (h : (c.guard test).run n = .ok ((gs, value), m)) :
    Filling.Alike (fun p c' => c'.present = c.present ∧ (c'.guard test).run n = .ok (p, m))
      (fillBehind gs value) c.fill := by
  unfold guard at h
  split at h <;> rename_i hrep <;> cases h
  · -- A variable takes no literal, so it may be filled twice.
    obtain ⟨code, hcode⟩ := Code.fill_isVariable (hr hrep)
    simp only [fillBehind, Guard.fillAll_concat, Guard.fill, hcode, Chain.fill, bind_assoc, pure_bind]
    refine .bind_eq fun gs => .pure ⟨rfl, ?_⟩
    rw [guard, if_pos hrep]
    rfl
  · simp only [fillBehind, Guard.fillAll_concat, Guard.fill, Code.fill, Chain.fill, bind_assoc, pure_bind]
    refine .bind_eq fun gs => .bind_eq fun head => .pure ⟨rfl, ?_⟩
    rw [guard, if_neg hrep]
    rfl

theorem Chain.fill_demand (hr : c.repeatable = true → c.head.isVariable = true)
    (h : c.demand.run n = .ok ((gs, value), m)) :
    Filling.Alike (fun p c' => c'.demand.run n = .ok (p, m)) (fillBehind gs value) c.fill := by
  unfold demand at h
  split at h <;> rename_i hp
  · cases h
    refine .bind_eq fun gs => .bind_eq fun head => .pure ?_
    rw [demand, if_pos hp]
    rfl
  · refine (fill_guard hr h).imp fun p c' hc' => ?_
    rw [demand, hc'.1, if_neg hp, hc'.2]

end Chains

section Trees

variable {scope : Scope}

theorem Filling.Alike.close {n m : Nat} {c : Chain Placeholder} {y : Filling (Expr Leaf)}
    (h : Alike (fun c t => Emits scope t n m c) c.fill y) :
    Alike (fun code t => ∃ c, code = c.close ∧ Emits scope t n m c) c.close.fill y := by
  rw [fill_close, ← id_map y]
  exact h.map fun c t hct => ⟨c, rfl, hct⟩

theorem fill_write (scope : Scope) (name : String) (code : Code Placeholder) :
    (scope.write name code).fill = scope.write name <$> code.fill := by
  rw [map_eq_pure_bind]
  unfold Scope.write
  split <;> simp [Code.fill, Code.fillAll]

mutual

theorem alike_of_emits : ∀ {t : Expr Placeholder} {n m : Nat} {c : Chain Placeholder}, Emits scope t n m c →
    Filling.Alike (fun c t => Emits scope t n m c) c.fill t.fill
  | _, _, _, _, .number text => by
    rw [Expr.fill]
    exact .pure (.number text)
  | _, _, _, _, .literal p => by
    rw [Expr.fill]
    simp only [Chain.fill, known, Guard.fillAll, Code.fill, bind_assoc, pure_bind]
    exact .bind_eq fun x => .pure (.literal x)
  | _, _, _, _, .constant k => by
    rw [Expr.fill]
    exact .pure (.constant k)
  | _, _, _, _, .this => by
    rw [Expr.fill]
    exact .pure .this
  | _, _, _, _, .name name => by
    rw [Expr.fill, fill_chain]
    exact .pure (.name name)
  | _, _, _, _, .array h => by
    rw [Expr.fill]
    simp only [Chain.fill, known, Guard.fillAll, Code.fill, bind_assoc, pure_bind]
    exact (alike_of_emitsAll h).bind fun _ _ h' => .pure (.array h')
  | _, _, _, _, .object h => by
    rw [Expr.fill]
    simp only [Chain.fill, known, Guard.fillAll, Code.fill, bind_assoc, pure_bind]
    exact (alike_of_emitsEntries h).bind fun _ _ h' => .pure (.object h')
  | _, _, _, _, .member ht hd => by
    simp only [Expr.fill, fill_operate, Code.fillAll, Code.fill, pure_bind]
    refine ((fill_demand ht.isVariable hd).trans (alike_of_emits ht)).bind ?_
    rintro _ _ ⟨_, hd', ht'⟩
    exact .pure (.member ht' hd')
  | _, _, _, _, .index ht hd hk => by
    simp only [Expr.fill, fill_operate, Code.fillAll, bind_assoc, pure_bind]
    refine ((fill_demand ht.isVariable hd).trans (alike_of_emits ht)).bind ?_
    rintro _ _ ⟨_, hd', ht'⟩
    refine (alike_of_emits hk).close.bind ?_
    rintro _ _ ⟨_, rfl, hk'⟩
    exact .pure (.index ht' hd' hk')
  | _, _, _, _, .call hc hd hs => by
    simp only [Expr.fill, fill_apply]
    refine ((fill_guard hc.isVariable hd).trans (alike_of_emits hc)).bind ?_
    rintro _ _ ⟨_, hd', hc'⟩
    exact (alike_of_emitsAll hs).bind fun _ _ hs' => .pure (.call hc' hd'.2 hs')
  | _, _, _, _, .unary op hx => by
    rw [Expr.fill, fill_plain, fill_unaryCode, bind_map_left]
    refine (alike_of_emits hx).close.bind ?_
    rintro _ _ ⟨_, rfl, hx'⟩
    exact .pure (.unary op hx')
  | _, _, _, _, .binary op hl hr => by
    simp only [Expr.fill, fill_plain, fill_binaryCode, bind_assoc, pure_bind]
    refine (alike_of_emits hl).close.bind ?_
    rintro _ _ ⟨_, rfl, hl'⟩
    refine (alike_of_emits hr).close.bind ?_
    rintro _ _ ⟨_, rfl, hr'⟩
    exact .pure (.binary op hl' hr')
  | _, _, _, _, .logical op hl hr => by
    simp only [Expr.fill, fill_plain, Code.fill, bind_assoc, pure_bind]
    refine (alike_of_emits hl).close.bind ?_
    rintro _ _ ⟨_, rfl, hl'⟩
    refine (alike_of_emits hr).close.bind ?_
    rintro _ _ ⟨_, rfl, hr'⟩
    exact .pure (.logical op hl' hr')
  | _, _, _, _, .conditional ht hy hn => by
    simp only [Expr.fill, fill_plain, Code.fill, bind_assoc, pure_bind]
    refine (alike_of_emits ht).close.bind ?_
    rintro _ _ ⟨_, rfl, ht'⟩
    refine (alike_of_emits hy).close.bind ?_
    rintro _ _ ⟨_, rfl, hy'⟩
    refine (alike_of_emits hn).close.bind ?_
    rintro _ _ ⟨_, rfl, hn'⟩
    exact .pure (.conditional ht' hy' hn')
  | _, _, _, _, .assignName hname hv => by
    simp only [Expr.fill, fill_plain, fill_write, bind_map_left, pure_bind]
    refine (alike_of_emits hv).close.bind ?_
    rintro _ _ ⟨_, rfl, hv'⟩
    exact .pure (.assignName hname hv')
  | _, _, _, _, .assignMember ht hd hv => by
    simp only [Expr.fill, fill_plain, fill_guarded_operate, Code.fillAll, Code.fill, bind_assoc, pure_bind]
    refine ((fill_demand ht.isVariable hd).trans (alike_of_emits ht)).bind ?_
    rintro _ _ ⟨_, hd', ht'⟩
    refine (alike_of_emits hv).close.bind ?_
    rintro _ _ ⟨_, rfl, hv'⟩
    exact .pure (.assignMember ht' hd' hv')
  | _, _, _, _, .assignIndex ht hd hk hv => by
    simp only [Expr.fill, fill_plain, fill_guarded_operate, Code.fillAll, bind_assoc, pure_bind]
    refine ((fill_demand ht.isVariable hd).trans (alike_of_emits ht)).bind ?_
    rintro _ _ ⟨_, hd', ht'⟩
    refine (alike_of_emits hk).close.bind ?_
    rintro _ _ ⟨_, rfl, hk'⟩
    refine (alike_of_emits hv).close.bind ?_
    rintro _ _ ⟨_, rfl, hv'⟩
    exact .pure (.assignIndex ht' hd' hk' hv')

theorem alike_of_emitsAll : ∀ {ts : List (Expr Placeholder)} {n m : Nat} {cs : List (Code Placeholder)},
    EmitsAll scope ts n m cs → Filling.Alike (fun cs ts => EmitsAll scope ts n m cs) (Code.fillAll cs) (Expr.fillAll ts)
  | _, _, _, _, .nil => by
    rw [Code.fillAll, Expr.fillAll]
    exact .pure .nil
  | _, _, _, _, .cons h hs => by
    rw [Code.fillAll, Expr.fillAll]
    refine (alike_of_emits h).close.bind ?_
    rintro _ t' ⟨c', rfl, h'⟩
    exact (alike_of_emitsAll hs).bind fun _ _ hs' => .pure (.cons h' hs')

theorem alike_of_emitsEntries : ∀ {es : List (Key Placeholder × Expr Placeholder)} {n m : Nat}
    {cs : List (Code Placeholder × Code Placeholder)}, EmitsEntries scope es n m cs →
      Filling.Alike (fun cs es => EmitsEntries scope es n m cs) (Code.fillEntries cs) (Expr.fillEntries es)
  | _, _, _, _, .nil => by
    rw [Code.fillEntries, Expr.fillEntries]
    exact .pure .nil
  | _, _, _, _, .cons key h hs => by
    rw [Code.fillEntries, Expr.fillEntries, fill_keyCode, bind_map_left]
    refine .bind_eq fun key' => (alike_of_emits h).close.bind ?_
    rintro _ t' ⟨c', rfl, h'⟩
    exact (alike_of_emitsEntries hs).bind fun _ _ hs' => .pure (.cons key' h' hs')

end

/-- Code with the literals put in is the code of the tree with the literals put in. -/
theorem fill_emit {t : Expr Placeholder} {body : Body Placeholder} (h : emit scope t = .ok body)
    (queue : List (List Char)) :
    match t.filled queue with
    | .ok tree => ∃ code, body.fill queue = .ok code ∧ emit scope tree = .ok code
    | .error f => body.fill queue = .error f := by
  obtain ⟨c, hc, hcode⟩ := emit_eq_ok_iff.1 h
  have hfill := (alike_of_emits hc).close queue
  rw [Expr.filled, Body.fill, hcode]
  rcases hcode : c.close.fill.run queue with f | ⟨code, rest⟩ <;>
    rcases htree : t.fill.run queue with f' | ⟨tree, rest'⟩ <;> rw [hcode, htree] at hfill
  · exact congrArg Except.error hfill
  · exact hfill.elim
  · exact hfill.elim
  · obtain ⟨-, c', rfl, hc'⟩ := hfill
    exact ⟨_, rfl, emit_eq_ok_iff.2 ⟨c', hc', rfl⟩⟩

end Trees

end NullSafe
