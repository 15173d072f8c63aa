import NullSafe.Proofs.BareNames

/-! # Temporaries of generated code

Generation numbers temporaries as it needs them. So each temporary is bound at one place, and on every way through
the code it is bound before it is used.
-/

namespace NullSafe

open Surface Text List

/-- What evaluation does with a temporary. -/
inductive Access where
  | keep (n : Nat)
  | use (n : Nat)
  deriving DecidableEq, Repr

def sequence (ps qs : List (List Access)) : List (List Access) := ps.flatMap fun p => qs.map (p ++ ·)

namespace Code

variable {ι : Type}

def keepAccess (n : Option Nat) : List Access := (n.map Access.keep).toList

mutual

/-- The ways through code: what evaluation does with temporaries, for all ways that its tests can end. -/
def paths : Code ι → List (List Access)
  | number _ | literal _ | constant _ | this | globals | formatters | parameter _ | key _ | global _ => [[]]
  | temporary n => [[.use n]]
  | setParameter _ value => paths value
  | array items => pathsAll items
  | object entries => pathsEntries entries
  | operate _ arguments => pathsAll arguments
  | apply callee arguments => sequence (paths callee) (pathsAll arguments)
  | not operand => paths operand
  | logical _ left right => sequence (paths left) ([] :: paths right)
  | equal left right | differ left right => sequence (paths left) (paths right)
  | choose n test yes no => sequence (paths test) ((paths yes ++ paths no).map fun p => .keep n :: .use n :: p)
  | unlessNull n test body | whenCallable n test body =>
    sequence (paths test) (([] :: paths body).map (keepAccess n ++ ·))

def pathsAll : List (Code ι) → List (List Access)
  | [] => [[]]
  | c :: rest => sequence (paths c) (pathsAll rest)

def pathsEntries : List (Code ι × Code ι) → List (List Access)
  | [] => [[]]
  | (k, v) :: rest => sequence (sequence (paths k) (paths v)) (pathsEntries rest)

end

end Code

section Order

variable {K L : Nat → Prop} {p q : List Access} {ps qs : List (List Access)}

/-- Temporaries are used only if they are known at first or kept before. -/
def Ordered (K : Nat → Prop) : List Access → Prop
  | [] => True
  | .keep n :: rest => Ordered (fun k => k = n ∨ K k) rest
  | .use n :: rest => K n ∧ Ordered K rest

theorem Ordered.mono (h : Ordered K p) (hK : ∀ k, K k → L k) : Ordered L p := by
  induction p generalizing K L with
  | nil => trivial
  | cons a p ih =>
    cases a with
    | keep n => exact ih h fun k => Or.imp_right (hK k)
    | use n => exact ⟨hK n h.1, ih h.2 hK⟩

theorem Ordered.append (hp : Ordered K p) (hq : Ordered K q) : Ordered K (p ++ q) := by
  induction p generalizing K with
  | nil => exact hq
  | cons a p ih =>
    cases a with
    | keep n => exact ih hp (hq.mono fun _ => .inr)
    | use n => exact ⟨hp.1, ih hp.2 hq⟩

theorem ordered_sequence (hps : ∀ p ∈ ps, Ordered K p) (hqs : ∀ q ∈ qs, Ordered K q) :
    ∀ r ∈ sequence ps qs, Ordered K r := by
  intro r hr
  obtain ⟨p, hp, hr⟩ := mem_flatMap.1 hr
  obtain ⟨q, hq, rfl⟩ := mem_map.1 hr
  exact (hps p hp).append (hqs q hq)

/-- What is used is kept before, or known at first. -/
theorem Ordered.keep_mem {before after : List Access} {k : Nat} (h : Ordered K (before ++ Access.use k :: after)) :
    .keep k ∈ before ∨ K k := by
  induction before generalizing K with
  | nil => exact .inr h.1
  | cons a before ih =>
    cases a with
    | keep n =>
      rcases ih h with hmem | rfl | hK
      · exact .inl (.tail _ hmem)
      · exact .inl (.head _)
      · exact .inr hK
    | use n => exact (ih h.2).imp_left (.tail _)

end Order

theorem temporaryName_injective {i j : Nat} (h : temporaryName i = temporaryName j) : i = j := by
  have hl := congrArg String.toList h
  simp only [temporaryName, String.toList_append, Name.toList_toString, append_cancel_left_eq] at hl
  exact Name.toDigits_injective hl

/-- The names that generated code can use without declaring them: those of its own parameters, its constants and the
operations that it calls. -/
def fixedNames : List String :=
  ["this", "_globals_", "_formatters_", "True", "False", "None"] ++ Operation.all.map Operation.name

/-- A name that generated code may mention: a parameter of an argument, a temporary that is known or one of its own, or
a fixed name, which is never bound. -/
def Mention.Allowed (scope : Scope) (K : Nat → Prop) (n m : Nat) (x : Mention) : Prop :=
  x.name ∈ scope.parameters ∨ (∃ k, (n < k ∧ k ≤ m ∨ K k) ∧ x.name = temporaryName k) ∨
    x.bound = false ∧ x.name ∈ fixedNames

/-- The parameters of a scope can be written and are no temporaries. -/
def Scope.Clear (scope : Scope) : Prop := ∀ p ∈ scope.parameters, IsBareName p ∧ ∀ k, p ≠ temporaryName k

/-- A part of generated code with the temporaries after the first `n`, up to `m`: it can be written, it binds each of
them once, it mentions only names that it may, and it uses temporaries only after they are kept, or if they are
known. -/
structure Neat (scope : Scope) (K : Nat → Prop) (n m : Nat) (written : Prop) (ms : List Mention)
    (ps : List (List Access)) : Prop where
  le : n ≤ m
  written : written
  binds : ∀ k, ms.count ⟨temporaryName k, true⟩ = if n < k ∧ k ≤ m then 1 else 0
  names : ∀ x ∈ ms, x.Allowed scope K n m
  ordered : ∀ p ∈ ps, Ordered K p

namespace Neat

variable {scope : Scope} {K L : Nat → Prop} {n m j : Nat} {w w' : Prop} {ms ns : List Mention}
  {ps qs : List (List Access)}

theorem allowed_mono {x : Mention} {n' m' : Nat} (h : x.Allowed scope K n m) (hn : n' ≤ n) (hm : m ≤ m')
    (hK : ∀ k, K k → n' < k ∧ k ≤ m' ∨ L k) : x.Allowed scope L n' m' := by
  refine h.imp_right (Or.imp_left ?_)
  rintro ⟨k, hk, hname⟩
  refine ⟨k, ?_, hname⟩
  rcases hk with hk | hk
  · exact .inl ⟨by omega, by omega⟩
  · exact hK k hk

theorem mono (h : Neat scope K n m w ms ps) (hK : ∀ k, K k → L k) : Neat scope L n m w ms ps where
  le := h.le
  written := h.written
  binds := h.binds
  names x hx := allowed_mono (h.names x hx) (Nat.le_refl n) (Nat.le_refl m) fun k hk => .inr (hK k hk)
  ordered p hp := (h.ordered p hp).mono hK

theorem append (h : Neat scope K n j w ms ps) (h' : Neat scope K j m w' ns qs) :
    Neat scope K n m (w ∧ w') (ms ++ ns) (sequence ps qs) where
  le := Nat.le_trans h.le h'.le
  written := ⟨h.written, h'.written⟩
  binds k := by
    have := h.le
    have := h'.le
    rw [count_append, h.binds, h'.binds]
    split <;> split <;> split <;> omega
  names := forall_mem_append.2
    ⟨fun x hx => allowed_mono (h.names x hx) (Nat.le_refl n) h'.le fun _ => .inr,
      fun x hx => allowed_mono (h'.names x hx) h.le (Nat.le_refl m) fun _ => .inr⟩
  ordered := ordered_sequence h.ordered h'.ordered

theorem nil (hw : w) : Neat scope K n n w [] [[]] where
  le := Nat.le_refl n
  written := hw
  binds k := by
    rw [if_neg (by omega)]
    rfl
  names := nofun
  ordered := forall_mem_singleton.2 trivial

theorem fixed (h : Neat scope K n m w ms ps) {s : String} (hs : s ∈ fixedNames) :
    Neat scope K n m w (⟨s, false⟩ :: ms) ps where
  le := h.le
  written := h.written
  binds k := by rw [count_cons_of_ne (by simp), h.binds]
  names := forall_mem_cons.2 ⟨.inr (.inr ⟨rfl, hs⟩), h.names⟩
  ordered := h.ordered

/-- Code that keeps a value and can use it in what follows. The number is taken before or after those of the value. -/
theorem keep {c i a : Nat} (h : Neat scope K a i w ms ps) (h' : Neat scope (fun k => k = c ∨ K k) j m w' ns qs)
    (hc : c = n + 1 ∧ a = n + 1 ∧ j = i ∨ a = n ∧ c = i + 1 ∧ j = i + 1) :
    Neat scope K n m (w ∧ w') (⟨temporaryName c, true⟩ :: (ms ++ ns)) (sequence ps (qs.map (.keep c :: ·))) where
  le := by
    have := h.le
    have := h'.le
    omega
  written := ⟨h.written, h'.written⟩
  binds k := by
    have := h.le
    have := h'.le
    rw [count_cons, count_append, h.binds, h'.binds]
    by_cases hk : k = c
    · subst hk
      rw [beq_self_eq_true, if_pos rfl, if_neg (by omega), if_neg (by omega), if_pos (by omega)]
    · have hne : ((⟨temporaryName c, true⟩ : Mention) == ⟨temporaryName k, true⟩) = false :=
        beq_eq_false_iff_ne.2 fun he => hk (temporaryName_injective (congrArg Mention.name he)).symm
      simp only [hne, Bool.false_eq_true, if_false]
      split <;> split <;> split <;> omega
  names := by
    have := h.le
    have := h'.le
    refine forall_mem_cons.2 ⟨.inr (.inl ⟨c, .inl (by omega), rfl⟩), forall_mem_append.2 ⟨?_, ?_⟩⟩
    · exact fun x hx => allowed_mono (h.names x hx) (by omega) (by omega) fun _ => .inr
    · refine fun x hx => allowed_mono (h'.names x hx) (by omega) (Nat.le_refl m) ?_
      rintro k (rfl | hk)
      · exact .inl (by omega)
      · exact .inr hk
  ordered := by
    refine ordered_sequence h.ordered fun p hp => ?_
    obtain ⟨q, hq, rfl⟩ := mem_map.1 hp
    exact h'.ordered q hq

theorem branches {c : Nat} (hc : K c) (h : Neat scope K n j w ms ps) (h' : Neat scope K j m w' ns qs) :
    Neat scope K n m (w ∧ w') (ms ++ ⟨temporaryName c, false⟩ :: ns) ((ps ++ qs).map (.use c :: ·)) where
  le := (h.append h').le
  written := (h.append h').written
  binds k := by
    have hcount := (h.append h').binds k
    rw [count_append] at hcount
    rw [count_append, count_cons_of_ne (by simp), hcount]
  names := by
    have hall := forall_mem_append.1 (h.append h').names
    exact forall_mem_append.2 ⟨hall.1, forall_mem_cons.2 ⟨.inr (.inl ⟨c, .inr hc, rfl⟩), hall.2⟩⟩
  ordered := by
    refine forall_mem_map.2 fun p hp => ⟨hc, ?_⟩
    exact forall_mem_append.2 ⟨h.ordered, h'.ordered⟩ p hp

theorem orNothing (h : Neat scope K n m w ms ps) : Neat scope K n m w ms ([] :: ps) :=
  { h with ordered := forall_mem_cons.2 ⟨trivial, h.ordered⟩ }

end Neat

namespace Code

variable {scope : Scope} {K : Nat → Prop} {n m j : Nat} {code left right : Code Leaf}

/-- Code with the temporaries after the first `n`, up to `m`. -/
def Neat (scope : Scope) (K : Nat → Prop) (n m : Nat) (code : Code Leaf) : Prop :=
  NullSafe.Neat scope K n m code.IsWritten code.mentions code.paths

def AllNeat (scope : Scope) (K : Nat → Prop) (n m : Nat) (codes : List (Code Leaf)) : Prop :=
  NullSafe.Neat scope K n m (AreWritten codes) (mentionsAll codes) (pathsAll codes)

def EntriesNeat (scope : Scope) (K : Nat → Prop) (n m : Nat) (entries : List (Code Leaf × Code Leaf)) : Prop :=
  NullSafe.Neat scope K n m (EntriesWritten entries) (mentionsEntries entries) (pathsEntries entries)

theorem AllNeat.nil : AllNeat scope K n n [] := NullSafe.Neat.nil trivial

theorem AllNeat.cons {codes : List (Code Leaf)} (h : code.Neat scope K n j) (h' : AllNeat scope K j m codes) :
    AllNeat scope K n m (code :: codes) :=
  NullSafe.Neat.append h h'

theorem EntriesNeat.cons {key value : Code Leaf} {entries : List (Code Leaf × Code Leaf)} (hk : key.Neat scope K n n)
    (hv : value.Neat scope K n j) (h : EntriesNeat scope K j m entries) :
    EntriesNeat scope K n m ((key, value) :: entries) := by
  have hall := (NullSafe.Neat.append hk hv).append h
  exact { hall with written := and_assoc.1 hall.written }

theorem mem_fixedNames_operation (op : Operation) : op.name ∈ fixedNames := by
  cases op <;> decide

theorem mem_fixedNames_constant (c : Constant) : c.text ∈ fixedNames := by
  cases c <;> decide

theorem Neat.operate {arguments : List (Code Leaf)} (op : Operation) (h : AllNeat scope K n m arguments) :
    (Code.operate op arguments).Neat scope K n m :=
  h.fixed (mem_fixedNames_operation op)

theorem neat_key (text : String) : (Code.key text).Neat scope K n n := NullSafe.Neat.nil trivial

theorem neat_this : (Code.this : Code Leaf).Neat scope K n n := (NullSafe.Neat.nil trivial).fixed (by decide)

theorem neat_globals : (Code.globals : Code Leaf).Neat scope K n n := (NullSafe.Neat.nil trivial).fixed (by decide)

theorem neat_formatters : (Code.formatters : Code Leaf).Neat scope K n n :=
  (NullSafe.Neat.nil trivial).fixed (by decide)

theorem neat_constant (c : Constant) : (Code.constant c).Neat scope K n n :=
  (NullSafe.Neat.nil trivial).fixed (mem_fixedNames_constant c)

theorem neat_global (name : String) : (Code.global name).Neat scope K n n :=
  (NullSafe.Neat.nil trivial).fixed (by decide)

theorem neat_leaf {x : Leaf} (h : x.IsWritten) : (Code.literal x).Neat scope K n n := by
  match x, h with
  | .literal (.pattern _ _), h => exact (NullSafe.Neat.nil h).fixed (mem_fixedNames_operation .pattern)
  | .literal (.text _), h => exact NullSafe.Neat.nil h
  | .unfilled _, h => exact NullSafe.Neat.nil h

theorem neat_temporary (hj : K j) : (Code.temporary j : Code Leaf).Neat scope K n n where
  le := Nat.le_refl n
  written := trivial
  binds k := by
    rw [if_neg (by omega)]
    exact count_eq_zero.2 (by simp [mentions])
  names := forall_mem_singleton.2 (.inr (.inl ⟨j, .inr hj, rfl⟩))
  ordered := forall_mem_singleton.2 ⟨hj, trivial⟩

theorem neat_parameter (hscope : scope.Clear) {p : String} (hp : p ∈ scope.parameters) :
    (Code.parameter p : Code Leaf).Neat scope K n n where
  le := Nat.le_refl n
  written := (hscope p hp).1
  binds k := by
    rw [if_neg (by omega)]
    exact count_eq_zero.2 (by simp [mentions])
  names := forall_mem_singleton.2 (.inl hp)
  ordered := forall_mem_singleton.2 trivial

theorem Neat.setParameter (hscope : scope.Clear) {p : String} (hp : p ∈ scope.parameters)
    (h : code.Neat scope K n m) : (Code.setParameter p code).Neat scope K n m where
  le := h.le
  written := ⟨(hscope p hp).1, h.written⟩
  binds k := by
    have hne : (⟨p, true⟩ : Mention) ≠ ⟨temporaryName k, true⟩ := fun he => (hscope p hp).2 k (congrArg Mention.name he)
    rw [mentions, count_cons_of_ne hne, h.binds]
  names := forall_mem_cons.2 ⟨.inl hp, h.names⟩
  ordered := h.ordered

theorem Neat.unaryCode (op : UnaryOp) (h : code.Neat scope K n m) : (unaryCode op code).Neat scope K n m := by
  have hall : AllNeat scope K n m [code] := .cons h .nil
  cases op with
  | not => exact h
  | negate | plus | typeof => exact hall.fixed (mem_fixedNames_operation _)

theorem Neat.binaryCode (op : BinaryOp) (h : left.Neat scope K n j) (h' : right.Neat scope K j m) :
    (binaryCode op left right).Neat scope K n m := by
  have hpair := NullSafe.Neat.append h h'
  have hall : AllNeat scope K n m [left, right] := .cons h (.cons h' .nil)
  cases op with
  | equal | strictEqual | differ | strictDiffer => exact hpair
  | _ => exact hall.fixed (mem_fixedNames_operation _)

theorem Neat.logical (op : LogicalOp) (h : left.Neat scope K n j) (h' : right.Neat scope K j m) :
    (Code.logical op left right).Neat scope K n m :=
  NullSafe.Neat.append h h'.orNothing

theorem Neat.choose {yes no : Code Leaf} {i : Nat} (ht : code.Neat scope K (n + 1) i)
    (hy : yes.Neat scope (fun k => k = n + 1 ∨ K k) i j) (hn : no.Neat scope (fun k => k = n + 1 ∨ K k) j m) :
    (Code.choose (n + 1) code yes no).Neat scope K n m := by
  have hall := NullSafe.Neat.keep ht (hy.branches (.inl rfl) hn) (.inl ⟨rfl, rfl, rfl⟩)
  rw [map_map] at hall
  exact hall

theorem Neat.wrap {body : Code Leaf} (test : Test) (h : code.Neat scope K n j) (h' : body.Neat scope K j m) :
    (Guard.wrap ⟨test, none, code⟩ body).Neat scope K n m := by
  have hnone : "None" ∈ fixedNames := by decide
  have hpaths (ps : List (List Access)) : ps.map (keepAccess none ++ ·) = ps := map_id' ps
  cases test with
  | present =>
    have hall := (NullSafe.Neat.append h (h'.orNothing.fixed hnone)).fixed hnone
    rw [← hpaths ([] :: body.paths)] at hall
    exact hall
  | callable =>
    have hall := ((NullSafe.Neat.append h h'.orNothing).fixed (mem_fixedNames_operation .callable)).fixed hnone
    rw [← hpaths ([] :: body.paths)] at hall
    exact hall

theorem Neat.wrapKept {body : Code Leaf} (test : Test) (h : code.Neat scope K n j)
    (h' : body.Neat scope (fun k => k = j + 1 ∨ K k) (j + 1) m) :
    (Guard.wrap ⟨test, some (j + 1), code⟩ body).Neat scope K n m := by
  have hnone : "None" ∈ fixedNames := by decide
  cases test with
  | present => exact (NullSafe.Neat.keep h (h'.orNothing.fixed hnone) (.inr ⟨rfl, rfl, rfl⟩)).fixed hnone
  | callable =>
    exact ((NullSafe.Neat.keep h h'.orNothing (.inr ⟨rfl, rfl, rfl⟩)).fixed
      (mem_fixedNames_operation .callable)).fixed hnone

end Code

section Guards

variable {scope : Scope} {K : Nat → Prop} {n m j : Nat} {gs : List (Guard Leaf)} {head : Code Leaf} {c : Chain Leaf}

/-- Code behind guards: a value that a guard keeps is known behind it. -/
inductive NeatBehind (scope : Scope) : (Nat → Prop) → Nat → Nat → List (Guard Leaf) → Code Leaf → Prop where
  | nil {K : Nat → Prop} {n m : Nat} {head : Code Leaf} (h : head.Neat scope K n m) : NeatBehind scope K n m [] head
  | repeated {K : Nat → Prop} {n j m : Nat} {test : Test} {tested head : Code Leaf} {gs : List (Guard Leaf)}
      (h : tested.Neat scope K n j) (h' : NeatBehind scope K j m gs head) :
      NeatBehind scope K n m (⟨test, none, tested⟩ :: gs) head
  | kept {K : Nat → Prop} {n j m : Nat} {test : Test} {tested head : Code Leaf} {gs : List (Guard Leaf)}
      (h : tested.Neat scope K n j) (h' : NeatBehind scope (fun k => k = j + 1 ∨ K k) (j + 1) m gs head) :
      NeatBehind scope K n m (⟨test, some (j + 1), tested⟩ :: gs) head

namespace NeatBehind

variable (h : NeatBehind scope K n m gs head)

include h

theorem guarded : (guarded gs head).Neat scope K n m := by
  induction h with
  | nil h => exact h
  | repeated h _ ih => exact h.wrap _ ih
  | kept h _ ih => exact h.wrapKept _ ih

theorem map {head' : Code Leaf} {m' : Nat}
    (hf : ∀ L i, head.Neat scope L i m → head'.Neat scope L i m') : NeatBehind scope K n m' gs head' := by
  induction h with
  | nil h => exact .nil (hf _ _ h)
  | repeated h _ ih => exact .repeated h (ih hf)
  | kept h _ ih => exact .kept h (ih hf)

theorem concat_kept (test : Test) :
    NeatBehind scope K n (m + 1) (gs ++ [⟨test, some (m + 1), head⟩]) (.temporary (m + 1)) := by
  induction h with
  | nil h => exact .kept h (.nil (Code.neat_temporary (.inl rfl)))
  | repeated h _ ih => exact .repeated h ih
  | kept h _ ih => exact .kept h ih

theorem concat_repeated (test : Test) (hhead : ∀ L i, head.Neat scope L i i) :
    NeatBehind scope K n m (gs ++ [⟨test, none, head⟩]) head := by
  induction h with
  | nil h => exact .repeated h (.nil (hhead _ _))
  | repeated h _ ih => exact .repeated h (ih hhead)
  | kept h _ ih => exact .kept h (ih hhead)

end NeatBehind

structure Chain.Neat (scope : Scope) (n m : Nat) (c : Chain Leaf) : Prop where
  behind : NeatBehind scope (fun _ => False) n m c.guards c.head
  repeats : c.repeatable = true → ∀ L i, c.head.Neat scope L i i

theorem Chain.Neat.close (h : c.Neat scope n m) : c.close.Neat scope K n m :=
  h.behind.guarded.mono nofun

theorem Chain.Neat.guard {test : Test} {value : Code Leaf} (h : c.Neat scope n m)
    (hrun : (c.guard test).run m = .ok ((gs, value), j)) : NeatBehind scope (fun _ => False) n j gs value := by
  unfold Chain.guard at hrun
  split at hrun <;> rename_i hr <;> cases hrun
  · exact h.behind.concat_repeated test (h.repeats hr)
  · exact h.behind.concat_kept test

theorem Chain.Neat.demand {value : Code Leaf} (h : c.Neat scope n m)
    (hrun : c.demand.run m = .ok ((gs, value), j)) : NeatBehind scope (fun _ => False) n j gs value := by
  unfold Chain.demand at hrun
  split at hrun
  · cases hrun
    exact h.behind
  · exact h.guard hrun

theorem Code.Neat.plain {code : Code Leaf} (h : code.Neat scope (fun _ => False) n m) :
    (Chain.plain code).Neat scope n m :=
  ⟨.nil h, nofun⟩

theorem Code.Neat.known {code : Code Leaf} (h : code.Neat scope (fun _ => False) n m) :
    (Chain.known code).Neat scope n m :=
  ⟨.nil h, nofun⟩

end Guards

namespace Surface.Expr

mutual

def IsWritten : Expr Leaf → Prop
  | .number digits => IsNumeral digits.toList
  | .literal x => x.IsWritten
  | .constant _ | .this | .name _ => True
  | .array items => AreWritten items
  | .object entries => EntriesWritten entries
  | .member target _ => IsWritten target
  | .index target key => IsWritten target ∧ IsWritten key
  | .call callee arguments => IsWritten callee ∧ AreWritten arguments
  | .unary _ operand => IsWritten operand
  | .binary _ left right | .logical _ left right => IsWritten left ∧ IsWritten right
  | .conditional test yes no => IsWritten test ∧ IsWritten yes ∧ IsWritten no
  | .assign target value => IsWritten target ∧ IsWritten value

def AreWritten : List (Expr Leaf) → Prop
  | [] => True
  | t :: rest => IsWritten t ∧ AreWritten rest

def EntriesWritten : List (Key Leaf × Expr Leaf) → Prop
  | [] => True
  | (k, t) :: rest => (keyCode k).IsWritten ∧ IsWritten t ∧ EntriesWritten rest

end

end Surface.Expr

section Emission

variable {scope : Scope}

theorem Code.neat_keyCode {k : Key Leaf} (h : (keyCode k).IsWritten) {K : Nat → Prop} {n : Nat} :
    (keyCode k).Neat scope K n n := by
  cases k with
  | name | number => exact neat_key _
  | literal x => exact neat_leaf h

theorem Scope.mem_parameters {name : String} (h : scope.classify name = .argument) :
    (scope.parameter? name).getD name ∈ scope.parameters := by
  obtain ⟨p, hp⟩ := scope.parameter?_of_argument h
  obtain ⟨before, after, harguments, -⟩ := lookup_eq_some_iff.1 hp
  rw [hp, Option.getD_some, Scope.parameters, harguments]
  simp

theorem Scope.neat_chain (hscope : scope.Clear) (name : String) {n : Nat} : (scope.chain name).Neat scope n n := by
  unfold Scope.chain
  split
  · rename_i hname
    have hparameter {L : Nat → Prop} {i : Nat} := Code.neat_parameter (K := L) (n := i) hscope
      (scope.mem_parameters hname)
    exact ⟨.nil hparameter, fun _ _ _ => hparameter⟩
  · exact (Code.neat_global name).known
  · unfold keywordCode
    split
    · exact ⟨.nil Code.neat_globals, fun _ _ _ => Code.neat_globals⟩
    · exact ⟨.nil Code.neat_formatters, fun _ _ _ => Code.neat_formatters⟩
  · exact Code.Neat.plain (.operate .get (.cons Code.neat_this (.cons (Code.neat_key name) .nil)))

theorem Scope.neat_write (hscope : scope.Clear) {name : String} {code : Code Leaf} {n m : Nat}
    (h : code.Neat scope (fun _ => False) n m) : (scope.write name code).Neat scope (fun _ => False) n m := by
  unfold Scope.write
  split
  · rename_i hname
    exact h.setParameter hscope (scope.mem_parameters hname)
  · exact .operate .set (.cons Code.neat_globals (.cons (Code.neat_key name) (.cons h .nil)))
  · exact .operate .set (.cons Code.neat_this (.cons (Code.neat_key name) (.cons h .nil)))
  · exact .operate .set (.cons Code.neat_this (.cons (Code.neat_key name) (.cons h .nil)))

mutual

/-- The chain of a tree takes temporaries in turn. -/
theorem neat_of_emits (hscope : scope.Clear) : ∀ {t : Expr Leaf} {n m : Nat} {c : Chain Leaf},
    Emits scope t n m c → t.IsWritten → c.Neat scope n m
  | _, _, _, _, .number _, ht => ⟨.nil (Neat.nil ht), nofun⟩
  | _, _, _, _, .literal _, ht => (Code.neat_leaf ht).known
  | _, _, _, _, .constant k, _ => (Code.neat_constant k).plain
  | _, _, _, _, .this, _ => ⟨.nil Code.neat_this, fun _ _ _ => Code.neat_this⟩
  | _, _, _, _, .name name, _ => scope.neat_chain hscope name
  | _, _, _, _, .array h, ht => ⟨.nil (neat_of_emitsAll hscope h ht), nofun⟩
  | _, _, _, _, .object h, ht => ⟨.nil (neat_of_emitsEntries hscope h ht), nofun⟩
  | .member _ name, _, _, _, .member h hd, ht => by
    have hvalue := (neat_of_emits hscope h ht).demand hd
    exact ⟨hvalue.map fun _ _ hv => .operate .get (.cons hv (.cons (Code.neat_key name) .nil)), nofun⟩
  | _, _, _, _, .index h hd hk, ht => by
    have hvalue := (neat_of_emits hscope h ht.1).demand hd
    have hkey := neat_of_emits hscope hk ht.2
    exact ⟨hvalue.map fun _ _ hv => .operate .get (.cons hv (.cons hkey.close .nil)), nofun⟩
  | _, _, _, _, .call h hd hs, ht => by
    have hvalue := (neat_of_emits hscope h ht.1).guard hd
    have harguments := neat_of_emitsAll hscope hs ht.2
    exact ⟨hvalue.map fun _ _ hv => Neat.append hv (harguments.mono nofun), nofun⟩
  | _, _, _, _, .unary op hx, ht => (Code.Neat.unaryCode op (neat_of_emits hscope hx ht).close).plain
  | _, _, _, _, .binary op hl hr, ht =>
    (Code.Neat.binaryCode op (neat_of_emits hscope hl ht.1).close (neat_of_emits hscope hr ht.2).close).plain
  | _, _, _, _, .logical op hl hr, ht =>
    (Code.Neat.logical op (neat_of_emits hscope hl ht.1).close (neat_of_emits hscope hr ht.2).close).plain
  | _, _, _, _, .conditional h hy hn, ht =>
    (Code.Neat.choose (neat_of_emits hscope h ht.1).close (neat_of_emits hscope hy ht.2.1).close
      (neat_of_emits hscope hn ht.2.2).close).plain
  | _, _, _, _, .assignName _ hv, ht => (scope.neat_write hscope (neat_of_emits hscope hv ht.2).close).plain
  | .assign (.member _ name) _, _, _, _, .assignMember h hd hv, ht => by
    have hobject := (neat_of_emits hscope h ht.1).demand hd
    have hvalue := neat_of_emits hscope hv ht.2
    exact (hobject.map fun _ _ ho =>
      .operate .set (.cons ho (.cons (Code.neat_key name) (.cons hvalue.close .nil)))).guarded.plain
  | _, _, _, _, .assignIndex h hd hk hv, ht => by
    have hobject := (neat_of_emits hscope h ht.1.1).demand hd
    have hkey := neat_of_emits hscope hk ht.1.2
    have hvalue := neat_of_emits hscope hv ht.2
    exact (hobject.map fun _ _ ho =>
      .operate .set (.cons ho (.cons hkey.close (.cons hvalue.close .nil)))).guarded.plain

theorem neat_of_emitsAll (hscope : scope.Clear) : ∀ {ts : List (Expr Leaf)} {n m : Nat} {cs : List (Code Leaf)},
    EmitsAll scope ts n m cs → Expr.AreWritten ts → Code.AllNeat scope (fun _ => False) n m cs
  | _, _, _, _, .nil, _ => .nil
  | _, _, _, _, .cons h hs, ht => .cons (neat_of_emits hscope h ht.1).close (neat_of_emitsAll hscope hs ht.2)

theorem neat_of_emitsEntries (hscope : scope.Clear) : ∀ {es : List (Key Leaf × Expr Leaf)} {n m : Nat}
    {cs : List (Code Leaf × Code Leaf)}, EmitsEntries scope es n m cs → Expr.EntriesWritten es →
      Code.EntriesNeat scope (fun _ => False) n m cs
  | _, _, _, _, .nil, _ => Neat.nil trivial
  | _, _, _, _, .cons _ h hs, ht => .cons (Code.neat_keyCode ht.1) (neat_of_emits hscope h ht.2.1).close
      (neat_of_emitsEntries hscope hs ht.2.2)

end

theorem neat_emit (hscope : scope.Clear) {t : Expr Leaf} (ht : t.IsWritten) {body : Body Leaf}
    (h : emit scope t = .ok body) : body.code.Neat scope (fun _ => False) 0 body.temporaries := by
  obtain ⟨c, hc, hcode⟩ := emit_eq_ok_iff.1 h
  rw [hcode]
  exact (neat_of_emits hscope hc ht).close

end Emission

end NullSafe
