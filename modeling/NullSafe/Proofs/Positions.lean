import NullSafe.Proofs.Emission

/-! # The positions of a tree

Code is generated for every position of a tree, so the code of each of them stands in the code of the tree, and an
assignment that cannot be generated is met wherever it stands.
-/

namespace NullSafe

open Surface List

variable {ι α β : Type} {scope : Scope}

namespace Surface.Expr

mutual

/-- The positions below that of a tree. The target of an assignment is a part of the assignment, but what stands in the
target is a position of its own. -/
def inner : Expr ι → List (Expr ι)
  | .number _ | .literal _ | .constant _ | .this | .name _ => []
  | .array items => innerAll items
  | .object entries => innerEntries entries
  | .member target _ => target :: inner target
  | .index target key => (target :: inner target) ++ (key :: inner key)
  | .call callee arguments => (callee :: inner callee) ++ innerAll arguments
  | .unary _ operand => operand :: inner operand
  | .binary _ left right | .logical _ left right => (left :: inner left) ++ (right :: inner right)
  | .conditional test yes no => (test :: inner test) ++ ((yes :: inner yes) ++ (no :: inner no))
  | .assign target value => inner target ++ (value :: inner value)

def innerAll : List (Expr ι) → List (Expr ι)
  | [] => []
  | t :: rest => (t :: inner t) ++ innerAll rest

def innerEntries : List (Key ι × Expr ι) → List (Expr ι)
  | [] => []
  | (_, t) :: rest => (t :: inner t) ++ innerEntries rest

end

def positions (t : Expr ι) : List (Expr ι) := t :: t.inner

end Surface.Expr

section Parts

/-- The codes that a code applies directly to one another. -/
def Code.operands : Code ι → List (Code ι)
  | .setParameter _ value => [value]
  | .array items => items
  | .object entries => entries.flatMap fun (k, v) => [k, v]
  | .operate _ arguments => arguments
  | .apply callee arguments => callee :: arguments
  | .not operand => [operand]
  | .logical _ left right | .equal left right | .differ left right => [left, right]
  | .choose _ test yes no => [test, yes, no]
  | .unlessNull _ test body | .whenCallable _ test body => [test, body]
  | .number _ | .literal _ | .constant _ | .this | .globals | .formatters | .parameter _ | .key _ | .global _
  | .temporary _ => []

/-- A code stands in another. -/
inductive Code.StandsIn : Code ι → Code ι → Prop where
  | refl (x : Code ι) : StandsIn x x
  | operand {x y z : Code ι} (hx : StandsIn x y) (hy : y ∈ z.operands) : StandsIn x z

theorem Code.StandsIn.trans {x y z : Code ι} (hxy : x.StandsIn y) (hyz : y.StandsIn z) : x.StandsIn z := by
  induction hyz with
  | refl => exact hxy
  | operand _ hz ih => exact .operand ih hz

def StandIn (xs ys : List (Code ι)) : Prop := ∀ x ∈ xs, ∃ y ∈ ys, x.StandsIn y

variable {xs ys zs : List (Code ι)} {gs : List (Guard ι)} {x y : Code ι}

theorem StandIn.of_subset (h : xs ⊆ ys) : StandIn xs ys := fun x hx => ⟨x, h hx, .refl x⟩

theorem StandIn.trans (h : StandIn xs ys) (h' : StandIn ys zs) : StandIn xs zs := by
  intro x hx
  obtain ⟨y, hy, hxy⟩ := h x hx
  obtain ⟨z, hz, hyz⟩ := h' y hy
  exact ⟨z, hz, hxy.trans hyz⟩

def codesBehind (gs : List (Guard ι)) (code : Code ι) : List (Code ι) := gs.map Guard.tested ++ [code]

def Chain.codes (c : Chain ι) : List (Code ι) := codesBehind c.guards c.head

theorem standIn_operands (h : xs ⊆ y.operands) (gs : List (Guard ι)) : StandIn xs (codesBehind gs y) :=
  fun x hx => ⟨y, by simp [codesBehind], .operand (.refl x) (h hx)⟩

theorem Chain.standIn_head {c : Chain ι} (h : xs ⊆ c.head.operands) : StandIn xs c.codes := standIn_operands h c.guards

theorem standIn_codesBehind (h : x ∈ y.operands) : StandIn (codesBehind gs x) (codesBehind gs y) := by
  intro z hz
  rcases mem_append.1 hz with hz | hz
  · exact ⟨z, mem_append_left _ hz, .refl z⟩
  · exact standIn_operands (cons_subset.2 ⟨h, nil_subset _⟩) gs z hz

theorem standIn_guarded (gs : List (Guard ι)) (code : Code ι) : StandIn (codesBehind gs code) [guarded gs code] := by
  induction gs with
  | nil => exact .of_subset (List.Subset.refl _)
  | cons g gs ih =>
    have hwrap : (g.wrap (guarded gs code)).operands = [g.tested, guarded gs code] := by
      unfold Guard.wrap
      split <;> rfl
    intro x hx
    refine ⟨_, .head _, ?_⟩
    change x.StandsIn (g.wrap (guarded gs code))
    rcases mem_cons.1 hx with rfl | hx
    · exact .operand (.refl _) (by simp [hwrap])
    · obtain ⟨y, hy, hxy⟩ := ih x hx
      rw [mem_singleton.1 hy] at hxy
      exact .operand hxy (by simp [hwrap])

theorem Chain.standIn_close (c : Chain ι) : StandIn c.codes [c.close] := standIn_guarded c.guards c.head

end Parts

section Emitted

variable {c : Chain ι} {test : Test} {n m : Nat} {x : List (Guard ι) × Code ι}
  {codes : List (Code ι)} {ts : List (Expr ι)}

/-- The code of a tree stands in the given codes: what its chain tests and what the chain leads to. -/
def EmittedIn (scope : Scope) (codes : List (Code ι)) (t : Expr ι) : Prop :=
  ∃ n r, (emitChain scope t).run n = .ok r ∧ StandIn r.1.codes codes

theorem Chain.standIn_guard (h : (c.guard test).run n = .ok (x, m)) : StandIn c.codes (codesBehind x.1 x.2) := by
  have hsub : ∀ kept code, StandIn c.codes (codesBehind (c.guards ++ [⟨test, kept, c.head⟩]) code) := by
    intro kept code
    refine .of_subset fun x hx => mem_append_left _ ?_
    rw [map_append]
    exact hx
  unfold Chain.guard at h
  split at h
  · cases h
    exact hsub none c.head
  · cases h
    exact hsub (some (n + 1)) (.temporary (n + 1))

theorem Chain.standIn_demand (h : c.demand.run n = .ok (x, m)) : StandIn c.codes (codesBehind x.1 x.2) := by
  unfold Chain.demand at h
  split at h
  · cases h
    exact .of_subset (List.Subset.refl _)
  · exact standIn_guard h

theorem EmittedIn.mono {codes' : List (Code ι)} {t : Expr ι} (h : EmittedIn scope codes t)
    (hcodes : StandIn codes codes') : EmittedIn scope codes' t := by
  obtain ⟨n, r, hrun, hr⟩ := h
  exact ⟨n, r, hrun, hr.trans hcodes⟩

abbrev AllEmittedIn (scope : Scope) (codes : List (Code ι)) (ts : List (Expr ι)) : Prop :=
  ∀ t ∈ ts, EmittedIn scope codes t

theorem AllEmittedIn.mono {codes' : List (Code ι)} (h : AllEmittedIn scope codes ts)
    (hcodes : StandIn codes codes') : AllEmittedIn scope codes' ts := fun t ht => (h t ht).mono hcodes

theorem AllEmittedIn.closed {c : Chain ι}
    (h : AllEmittedIn scope c.codes ts) (hcodes : StandIn [c.close] codes) : AllEmittedIn scope codes ts :=
  h.mono (c.standIn_close.trans hcodes)

theorem AllEmittedIn.demanded {code : Code ι} (h : AllEmittedIn scope c.codes ts)
    (hd : c.demand.run n = .ok (x, m)) (hcode : x.2 ∈ code.operands) : AllEmittedIn scope (codesBehind x.1 code) ts :=
  (h.mono (Chain.standIn_demand hd)).mono (standIn_codesBehind hcode)

theorem Emits.allEmittedIn {t : Expr ι} (h : Emits scope t n m c) (hinner : AllEmittedIn scope c.codes t.inner) :
    AllEmittedIn scope c.codes t.positions :=
  forall_mem_cons.2 ⟨⟨n, (c, m), h.run, .of_subset (List.Subset.refl _)⟩, hinner⟩

theorem operands_unaryCode (op : UnaryOp) (x : Code ι) : (unaryCode op x).operands = [x] := by cases op <;> rfl

theorem operands_binaryCode (op : BinaryOp) (x y : Code ι) : (binaryCode op x y).operands = [x, y] := by
  cases op <;> rfl

theorem standIn_write {name : String} {code : Code ι} : StandIn [code] (Chain.plain (scope.write name code)).codes := by
  refine Chain.standIn_head (?_ : [code] ⊆ (scope.write name code).operands)
  unfold Scope.write
  split <;> simp [Code.operands]

open Chain

mutual

/-- The code of every position of a tree stands in what is generated for the tree. -/
theorem emitted_of_emits : ∀ {t : Expr ι} {n m : Nat} {c : Chain ι}, Emits scope t n m c →
    AllEmittedIn scope c.codes t.positions
  | _, _, _, _, h@(.number _) | _, _, _, _, h@(.literal _) | _, _, _, _, h@(.constant _) | _, _, _, _, h@.this
  | _, _, _, _, h@(.name _) => h.allEmittedIn nofun
  | _, _, _, _, h@(.array hs) => h.allEmittedIn ((emitted_of_emitsAll hs).mono (standIn_head (List.Subset.refl _)))
  | _, _, _, _, h@(.object hs) =>
    h.allEmittedIn ((emitted_of_emitsEntries hs).mono (standIn_head (List.Subset.refl _)))
  | _, _, _, _, h@(.member ht hd) => h.allEmittedIn ((emitted_of_emits ht).demanded hd (by simp [Code.operands]))
  | _, _, _, _, h@(.index ht hd hk) => h.allEmittedIn (forall_mem_append.2
    ⟨(emitted_of_emits ht).demanded hd (by simp [Code.operands]),
      (emitted_of_emits hk).closed (standIn_head (by simp [Code.operands]))⟩)
  | _, _, _, _, h@(.call hc hd hs) => h.allEmittedIn (forall_mem_append.2
    ⟨((emitted_of_emits hc).mono (standIn_guard hd)).mono (standIn_codesBehind (by simp [Code.operands])),
      (emitted_of_emitsAll hs).mono (standIn_head (by simp [Code.operands]))⟩)
  | _, _, _, _, h@(.unary _ hx) =>
    h.allEmittedIn ((emitted_of_emits hx).closed (standIn_head (by simp [plain, operands_unaryCode])))
  | _, _, _, _, h@(.binary _ hl hr) => h.allEmittedIn (forall_mem_append.2
    ⟨(emitted_of_emits hl).closed (standIn_head (by simp [plain, operands_binaryCode])),
      (emitted_of_emits hr).closed (standIn_head (by simp [plain, operands_binaryCode]))⟩)
  | _, _, _, _, h@(.logical _ hl hr) => h.allEmittedIn (forall_mem_append.2
    ⟨(emitted_of_emits hl).closed (standIn_head (by simp [plain, Code.operands])),
      (emitted_of_emits hr).closed (standIn_head (by simp [plain, Code.operands]))⟩)
  | _, _, _, _, h@(.conditional ht hy hn) => h.allEmittedIn (forall_mem_append.2
    ⟨(emitted_of_emits ht).closed (standIn_head (by simp [plain, Code.operands])), forall_mem_append.2
      ⟨(emitted_of_emits hy).closed (standIn_head (by simp [plain, Code.operands])),
        (emitted_of_emits hn).closed (standIn_head (by simp [plain, Code.operands]))⟩⟩)
  | _, _, _, _, h@(.assignName _ hv) => h.allEmittedIn ((emitted_of_emits hv).closed standIn_write)
  | _, _, _, _, h@(.assignMember ht hd hv) => h.allEmittedIn (AllEmittedIn.mono (forall_mem_append.2
    ⟨(emitted_of_emits ht).demanded hd (by simp [Code.operands]),
      (emitted_of_emits hv).closed (standIn_operands (by simp [Code.operands]) _)⟩) (standIn_guarded _ _))
  | _, _, _, _, h@(.assignIndex ht hd hk hv) => h.allEmittedIn (AllEmittedIn.mono (forall_mem_append.2
    ⟨forall_mem_append.2 ⟨(emitted_of_emits ht).demanded hd (by simp [Code.operands]),
      (emitted_of_emits hk).closed (standIn_operands (by simp [Code.operands]) _)⟩,
      (emitted_of_emits hv).closed (standIn_operands (by simp [Code.operands]) _)⟩) (standIn_guarded _ _))

theorem emitted_of_emitsAll : ∀ {ts : List (Expr ι)} {n m : Nat} {cs : List (Code ι)}, EmitsAll scope ts n m cs →
    AllEmittedIn scope cs (Expr.innerAll ts)
  | _, _, _, _, .nil => nofun
  | _, _, _, _, .cons h hs => by
    refine forall_mem_append.2
      ⟨(emitted_of_emits h).closed (.of_subset ?_), (emitted_of_emitsAll hs).mono (.of_subset ?_)⟩ <;> simp

theorem emitted_of_emitsEntries : ∀ {es : List (Key ι × Expr ι)} {n m : Nat} {cs : List (Code ι × Code ι)},
    EmitsEntries scope es n m cs → AllEmittedIn scope (cs.flatMap fun (k, v) => [k, v]) (Expr.innerEntries es)
  | _, _, _, _, .nil => nofun
  | _, _, _, _, .cons _ h hs => by
    refine forall_mem_append.2
      ⟨(emitted_of_emits h).closed (.of_subset ?_), (emitted_of_emitsEntries hs).mono (.of_subset ?_)⟩ <;> simp

end

end Emitted

section Refused

/-- The fault of an assignment to a tree, if it is refused. -/
def Surface.Expr.refusal? (scope : Scope) : Expr ι → Option Fault
  | .name n => if scope.classify n = .keyword then some { cause := .cannotAssign n } else none
  | .member _ _ | .index _ _ => none
  | .call _ _ => some { cause := .assignToCall }
  | _ => some { cause := .invalidTarget }

/-- One of the trees is an assignment that is refused with a fault. -/
def RefusedIn (scope : Scope) (ts : List (Expr ι)) (f : Fault) : Prop :=
  ∃ target value, .assign target value ∈ ts ∧ target.refusal? scope = some f

/-- If generation fails, then because of an assignment among the given trees. -/
def Refuses (scope : Scope) (ts : List (Expr ι)) (x : Emit α) : Prop :=
  ∀ n f, x.run n = .error f → RefusedIn scope ts f

namespace Refuses

variable {ts us : List (Expr ι)} {x : Emit α}

theorem pure (a : α) : Refuses scope ts (Pure.pure a) := nofun

theorem bind {k : α → Emit β} (hx : Refuses scope ts x) (hk : ∀ a, Refuses scope ts (k a)) :
    Refuses scope ts (x >>= k) := by
  intro n f h
  rw [StateT.run_bind] at h
  rcases hxn : x.run n with f' | ⟨a, m⟩ <;> rw [hxn] at h
  · cases h
    exact hx n f hxn
  · exact hk a m f h

theorem widen (hx : Refuses scope ts x) (h : ts ⊆ us) : Refuses scope us x := by
  intro n f hf
  obtain ⟨target, value, hmem, hf⟩ := hx n f hf
  exact ⟨target, value, h hmem, hf⟩

theorem guard (c : Chain ι) (test : Test) : Refuses scope ts (c.guard test) := by
  unfold Chain.guard
  split <;> exact nofun

theorem demand (c : Chain ι) : Refuses scope ts c.demand := by
  unfold Chain.demand
  split
  · exact pure _
  · exact guard c .present

theorem assign {value : Emit (Code ι)} {name : String} (h : Refuses scope ts value)
    (hname : scope.classify name = .keyword → RefusedIn scope ts { cause := .cannotAssign name }) :
    Refuses scope ts (scope.assign name value) := by
  unfold Scope.assign
  split
  case h_3 hclass =>
    rintro n _ ⟨⟩
    exact hname hclass
  all_goals exact h.bind fun _ => pure _

end Refuses

theorem subset_left (a : α) (xs ys : List α) : xs ⊆ a :: (xs ++ ys) :=
  subset_cons_of_subset a (subset_append_left xs ys)

theorem subset_right (a : α) (xs ys : List α) : ys ⊆ a :: (xs ++ ys) :=
  subset_cons_of_subset a (subset_append_right xs ys)

mutual

/-- Generation meets an assignment that is refused wherever it stands. -/
theorem refuses_emitChain (scope : Scope) : ∀ t : Expr ι, Refuses scope t.positions (emitChain scope t)
  | .number _ | .literal _ | .constant _ | .this | .name _ => .pure _
  | .array items => ((refuses_emitAll scope items).widen (subset_cons_self ..)).bind fun _ => .pure _
  | .object entries => ((refuses_emitEntries scope entries).widen (subset_cons_self ..)).bind fun _ => .pure _
  | .member target _ => ((refuses_emitChain scope target).widen (subset_cons_self ..)).bind fun c =>
    (Refuses.demand c).bind fun _ => .pure _
  | .index target key => ((refuses_emitChain scope target).widen (subset_left ..)).bind fun c =>
    (Refuses.demand c).bind fun _ => ((refuses_emitChain scope key).widen (subset_right ..)).bind fun _ => .pure _
  | .call callee arguments => ((refuses_emitChain scope callee).widen (subset_left ..)).bind fun c =>
    (Refuses.guard c .callable).bind fun _ =>
      ((refuses_emitAll scope arguments).widen (subset_right ..)).bind fun _ => .pure _
  | .unary _ operand => ((refuses_emitChain scope operand).widen (subset_cons_self ..)).bind fun _ => .pure _
  | .binary _ left right | .logical _ left right =>
    ((refuses_emitChain scope left).widen (subset_left ..)).bind fun _ =>
      ((refuses_emitChain scope right).widen (subset_right ..)).bind fun _ => .pure _
  | .conditional test yes no => by
    have hyes : yes.positions ⊆ (Expr.conditional test yes no).positions :=
      List.Subset.trans (subset_append_left ..) (subset_right ..)
    have hno : no.positions ⊆ (Expr.conditional test yes no).positions :=
      List.Subset.trans (subset_append_right ..) (subset_right ..)
    exact .bind nofun fun _ => ((refuses_emitChain scope test).widen (subset_left ..)).bind fun _ =>
      ((refuses_emitChain scope yes).widen hyes).bind fun _ =>
        ((refuses_emitChain scope no).widen hno).bind fun _ => .pure _
  | .assign (.name name) value => by
    have hvalue := (refuses_emitChain scope value).widen (subset_cons_self (.assign (.name name) value) _)
    refine ((hvalue.bind fun _ => .pure _).assign fun hclass => ?_).bind fun _ => .pure _
    exact ⟨.name name, value, .head _, by simp [Expr.refusal?, hclass]⟩
  | .assign (.member target _) value => ((refuses_emitChain scope target).widen (subset_left ..)).bind fun c =>
    (Refuses.demand c).bind fun _ => ((refuses_emitChain scope value).widen (subset_right ..)).bind fun _ => .pure _
  | .assign (.index target key) value => by
    have htarget : target.positions ⊆ (Expr.assign (.index target key) value).positions :=
      List.Subset.trans (subset_append_left ..) (subset_left ..)
    have hkey : key.positions ⊆ (Expr.assign (.index target key) value).positions :=
      List.Subset.trans (subset_append_right ..) (subset_left ..)
    exact ((refuses_emitChain scope target).widen htarget).bind fun c => (Refuses.demand c).bind fun _ =>
      ((refuses_emitChain scope key).widen hkey).bind fun _ =>
        ((refuses_emitChain scope value).widen (subset_right ..)).bind fun _ => .pure _
  | .assign (.number _) _ | .assign (.literal _) _ | .assign (.constant _) _ | .assign .this _ | .assign (.array _) _
  | .assign (.object _) _ | .assign (.call _ _) _ | .assign (.unary _ _) _ | .assign (.binary _ _ _) _
  | .assign (.logical _ _ _) _ | .assign (.conditional _ _ _) _ | .assign (.assign _ _) _ => by
    rintro n _ ⟨⟩
    exact ⟨_, _, .head _, rfl⟩

theorem refuses_emitAll (scope : Scope) : ∀ ts : List (Expr ι), Refuses scope (Expr.innerAll ts) (emitAll scope ts)
  | [] => .pure _
  | t :: rest => ((refuses_emitChain scope t).widen (subset_append_left ..)).bind fun _ =>
    ((refuses_emitAll scope rest).widen (subset_append_right ..)).bind fun _ => .pure _

theorem refuses_emitEntries (scope : Scope) :
    ∀ es : List (Key ι × Expr ι), Refuses scope (Expr.innerEntries es) (emitEntries scope es)
  | [] => .pure _
  | (_, t) :: rest => ((refuses_emitChain scope t).widen (subset_append_left ..)).bind fun _ =>
    ((refuses_emitEntries scope rest).widen (subset_append_right ..)).bind fun _ => .pure _

end

theorem refusal_none_of_run {target value : Expr ι} {n : Nat} {r : Chain ι × Nat}
    (h : (emitChain scope (.assign target value)).run n = .ok r) : target.refusal? scope = none := by
  cases target with
  | member | index => rfl
  | name text =>
    refine if_neg fun hclass => ?_
    rw [emitChain, Scope.assign, hclass] at h
    cases h
  | _ => cases h

theorem not_refusedIn {codes : List (Code ι)} {ts : List (Expr ι)} {f : Fault} (h : AllEmittedIn scope codes ts) :
    ¬ RefusedIn scope ts f := by
  rintro ⟨target, value, hmem, hf⟩
  obtain ⟨n, r, hrun, -⟩ := h _ hmem
  rw [refusal_none_of_run hrun] at hf
  cases hf

/-- The code of every position of a tree stands in the code of the tree, unless one of the assignments is refused. -/
theorem emit_positions (scope : Scope) (t : Expr ι) :
    match emit scope t with
    | .ok body => AllEmittedIn scope [body.code] t.positions
    | .error f => RefusedIn scope t.positions f := by
  rcases hemit : emit scope t with f | body
  · unfold emit at hemit
    rcases hrun : (emitChain scope t).run 0 with f' | ⟨c, n⟩ <;> rw [hrun] at hemit <;> cases hemit
    exact refuses_emitChain scope t 0 f hrun
  · obtain ⟨c, hc, hcode⟩ := emit_eq_ok_iff.1 hemit
    dsimp only
    rw [hcode]
    exact (emitted_of_emits hc).mono c.standIn_close

end Refused

end NullSafe
