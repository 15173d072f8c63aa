import NullSafe.Proofs.Outcomes
import NullSafe.Proofs.Sessions

/-! # Names that interfere

Functions of compilers that differ in the name of their functions only do the same exactly if the names are of one
kind. So a name that hides an operation is told from all others by an expression that uses the operation.
-/

namespace NullSafe

open Surface

section Probes

namespace Surface.Derivation

def thisName : Derivation .primary := .name "this".toList (by decide)

def this : Derivation .unary := .chain thisName .linked

def thisAt : (level : Nat) → Derivation (.operation level)
  | 0 => .operand this
  | level + 1 => .operation (thisAt level) .joined

def thisTwice (op : BinaryOp) {level : Nat} (h : (Operator.binary op).level = level + 1) :
    Derivation (.operation (level + 1)) :=
  .operation (thisAt level) (.join (.binary op) h (thisAt level) .joined)

end Surface.Derivation

namespace Operation

/-- An expression that uses an operation, and no other. -/
def probe : Operation → String
  | get => "this.a"
  | set => "this.a=this"
  | add => "this+this"
  | subtract => "this-this"
  | multiply => "this*this"
  | divide => "this/this"
  | remainder => "this%this"
  | negate => "-this"
  | plus => "+this"
  | below => "this<this"
  | above => "this>this"
  | atMost => "this<=this"
  | atLeast => "this>=this"
  | callable => "this()"
  | typeof => "typeof this"
  | pattern => "/a/"

def probeDerivation : Operation → Derivation .assign
  | get => .alone (Derivation.single (.chain .thisName (.member ['a'] .linked)))
  | set => .assign (.unconditional (Derivation.single (.chain .thisName (.member ['a'] .linked))))
      (.alone (.single .this))
  | add => .alone (.raised (.thisTwice .add rfl) 4)
  | subtract => .alone (.raised (.thisTwice .subtract rfl) 4)
  | multiply => .alone (.raised (.thisTwice .multiply rfl) 5)
  | divide => .alone (.raised (.thisTwice .divide rfl) 5)
  | remainder => .alone (.raised (.thisTwice .remainder rfl) 5)
  | negate => .alone (Derivation.single (.unary .negate .this))
  | plus => .alone (Derivation.single (.unary .plus .this))
  | below => .alone (.raised (.thisTwice .below rfl) 3)
  | above => .alone (.raised (.thisTwice .above rfl) 3)
  | atMost => .alone (.raised (.thisTwice .atMost rfl) 3)
  | atLeast => .alone (.raised (.thisTwice .atLeast rfl) 3)
  | callable => .alone (Derivation.single (.chain .thisName (.call .noItem .linked)))
  | typeof => .alone (Derivation.single (.unary .typeof .this))
  | pattern => .alone (Derivation.single (.chain (.literal .pattern) .linked))

def probeTree : Operation → Expr Leaf
  | get => .member .this "a"
  | set => .assign (.member .this "a") .this
  | add => .binary .add .this .this
  | subtract => .binary .subtract .this .this
  | multiply => .binary .multiply .this .this
  | divide => .binary .divide .this .this
  | remainder => .binary .remainder .this .this
  | negate => .unary .negate .this
  | plus => .unary .plus .this
  | below => .binary .below .this .this
  | above => .binary .above .this .this
  | atMost => .binary .atMost .this .this
  | atLeast => .binary .atLeast .this .this
  | callable => .call .this []
  | typeof => .unary .typeof .this
  | pattern => .literal (.literal (.pattern "a" ""))

def probeArguments : Operation → List Value
  | get => [.null, .str "a"]
  | set => [.null, .str "a", .null]
  | negate | plus | typeof | callable => [.null]
  | pattern => [.str "a", .str ""]
  | _ => [.null, .null]

def probeText : Operation → List Char
  | pattern => "//".toList
  | op => op.probe.toList

theorem parse_probe (op : Operation) : parse op.probeText = .ok op.probeDerivation.meaning := by
  have htokens : (tokenize op.probeText).map lexemes = .ok op.probeDerivation.yield := by
    cases op <;> decide +kernel
  have hfit : Fit op.probeDerivation.yield := by
    unfold Fit
    cases op <;> decide +kernel
  have hvalid : op.probeDerivation.Valid := by
    cases op <;> (repeat' constructor)
  exact parse_of_derivation op.probeDerivation htokens hfit hvalid

theorem isTree_probe (op : Operation) : (⟨op.probe, [], false⟩ : Request).IsTree op.probeTree := by
  refine ⟨op.probeText, op.probeDerivation.meaning, ?_, ?_, ?_⟩
  · cases op <;> decide +kernel
  · have hwords : replaceWords op.probeText = op.probeText := by cases op <;> decide +kernel
    rw [hwords, parse_probe]
  · cases op
    case pattern =>
      have hliterals : Literal.literals "/a/".toList = ["/a/".toList] := by decide +kernel
      change (.literal .pattern : Expr Placeholder).filled (Literal.literals "/a/".toList) = _
      rw [hliterals]
      rfl
    all_goals rfl

variable {op : Operation} {s : Surroundings} {scope : Scope} {e : Env} {w w' : World}

theorem outcome_eval_probe_error {r : Raised} (hthis : e.this = .null)
    (h : (s.operate op op.probeArguments).outcome w = (.error r, w')) :
    ((Direct.eval s scope op.probeTree).run e).outcome w = (.error r, w') := by
  obtain ⟨this, globals, formatters, arguments⟩ := e
  subst hthis
  cases op <;> simp only [probeArguments] at h <;>
    simp only [probeTree, Direct.eval, Direct.reach, Direct.onward, Direct.isThere, Direct.isPresent, Direct.unaryValue,
      Direct.binaryValue, Direct.canBeCalled, Leaf.eval, Direct.outcome_whole, Direct.outcome_bind, Direct.outcome_map,
      Direct.outcome_lift, Direct.outcome_pure, Direct.outcome_get, Bool.true_or, if_true, Option.getD_some, h]

theorem outcome_eval_probe_ok {v : Value} (hthis : e.this = .null)
    (h : (s.operate op op.probeArguments).outcome w = (.ok v, w')) (hv : op = .callable → w'.isTrue v = false) :
    ∃ v', ((Direct.eval s scope op.probeTree).run e).outcome w = (.ok (v', e), w') := by
  obtain ⟨this, globals, formatters, arguments⟩ := e
  subst hthis
  cases op
  case callable =>
    refine ⟨.null, ?_⟩
    have hget : ((getThe World : Direct World).run ⟨.null, globals, formatters, arguments⟩).outcome w' =
      (.ok (w', ⟨.null, globals, formatters, arguments⟩), w') := rfl
    simp only [probeArguments] at h
    simp only [probeTree, Direct.eval, Direct.reach, Direct.onward, Direct.canBeCalled, Direct.outcome_whole,
      Direct.outcome_bind, Direct.outcome_lift, Direct.outcome_pure, Direct.outcome_get, h, hget, hv rfl]
    rfl
  all_goals
    refine ⟨v, ?_⟩
    simp only [probeArguments] at h
    simp only [probeTree, Direct.eval, Direct.reach, Direct.onward, Direct.isThere, Direct.isPresent, Direct.unaryValue,
      Direct.binaryValue, Leaf.eval, Direct.outcome_whole, Direct.outcome_bind, Direct.outcome_map,
      Direct.outcome_lift, Direct.outcome_pure, Direct.outcome_get, Bool.true_or, if_true, Option.getD_some, h]

theorem probeArguments_cases (op : Operation) :
    op.probeArguments = [.null, .str "a", .null] ∨ op.probeArguments.length < 3 := by
  cases op
  case set => exact .inl rfl
  all_goals exact .inr (by decide)

theorem outcome_operate_probe (op : Operation) (host : Host) (w : World) : ∃ v w',
    (host.operate op op.probeArguments).outcome w = (.ok v, w') ∧ (op = .callable → w'.isTrue v = false) := by
  cases op
  case callable => exact ⟨.bool false, w, rfl, fun _ => rfl⟩
  all_goals exact ⟨_, _, rfl, nofun⟩

end Operation

def Operation.probeRequest (op : Operation) : Request := ⟨op.probe, [], false⟩

section Running

variable {op : Operation} {n : String} {globals : List String} {generated : Generated}

/-- A function that hides an operation which it uses fails. Where the operation takes as many arguments as a function
does, it fails because it calls itself without end. -/
theorem exists_error_of_hiding (hrun : Compile.run op.name globals op.probeRequest = .ok generated) (host : Host)
    (fuel : Nat) (g f : Value) (w : World) :
    ∃ r w', (generated.program.runWithin host fuel [.null, g, f]).outcome w = (.error r, w') := by
  obtain ⟨body, code, -, -, hprogram⟩ := Compile.run_eq_ok hrun
  induction fuel generalizing g f w with
  | zero => exact ⟨.tooDeep, w, rfl⟩
  | succ fuel ih =>
    have hname : op.name = generated.program.name := by rw [hprogram]
    have hoperate : ∃ r w', ((generated.program.inside host fuel).operate op op.probeArguments).outcome w =
        (.error r, w') := by
      rw [Program.operate_inside_of_eq _ _ _ _ hname]
      rcases op.probeArguments_cases with hargs | hshort
      · rw [hargs]
        exact ih (.str "a") .null w
      · obtain ⟨r, hr⟩ := generated.program.exists_error_of_short fuel hshort
        rw [hr]
        exact ⟨r, w, rfl⟩
    obtain ⟨r, w', hr⟩ := hoperate
    refine ⟨r, w', ?_⟩
    rw [Program.runWithin_succ, Program.outcome_runIn hrun rfl op.isTree_probe (le_refl 0), Run.outcome_bind,
      Operation.outcome_eval_probe_error rfl hr]

theorem exists_ok_of_ne (hn : op.name ≠ n) (hrun : Compile.run n globals op.probeRequest = .ok generated) (host : Host)
    (g f : Value) (w : World) : ∃ v w', (generated.program.run host [.null, g, f]).outcome w = (.ok v, w') := by
  obtain ⟨body, code, -, -, hprogram⟩ := Compile.run_eq_ok hrun
  have hname : op.name ≠ generated.program.name := by rwa [hprogram]
  obtain ⟨v, w', hv, hcallable⟩ := op.outcome_operate_probe host w
  rw [← Program.operate_inside_of_ne _ host 999 _ hname] at hv
  have heval : ∃ v', ((Direct.eval (generated.program.inside host 999)
      (Scope.ofNames globals op.probeRequest.arguments) op.probeTree).run
        (Env.start op.probeRequest.arguments .null g f [])).outcome w = (.ok (v', _), w') :=
    Operation.outcome_eval_probe_ok rfl hv hcallable
  obtain ⟨v', hv'⟩ := heval
  refine ⟨v', w', ?_⟩
  rw [Program.run_inside, Program.outcome_runIn hrun rfl op.isTree_probe (le_refl 0), Run.outcome_bind, hv']
  rfl

theorem exists_run_probe (op : Operation) (globals : List String) :
    ∃ generated, Compile.run "expression" globals op.probeRequest = .ok generated := by
  have hname : Compile.canDeclare "expression" [] = true := by decide +kernel
  refine (Compile.exists_run_iff op.isTree_probe).2 ⟨hname, ?_, ?_⟩
  · cases op <;> rfl
  · cases op <;> decide +kernel

end Running

end Probes

section Kinds

def NameKind.name : NameKind → String
  | unfit word => if word then "if" else "__debug__"
  | lost => "\u00aa"
  | hides op => op.name
  | harmless => "expression"

theorem nameKind_name (k : NameKind) : nameKind k.name = k := by
  cases k with
  | hides op => exact nameKind_operation op
  | unfit word => cases word <;> decide +kernel
  | lost | harmless => decide +kernel

/-- One name stands for all that are of its kind. -/
def Renaming.canonical : Renaming where
  name n := (nameKind n).name
  kind _ := nameKind_name _
  usual := congrArg NameKind.name (nameKind_name .harmless)

end Kinds

open NullSafe.Action

namespace Service

def withNamed (s : Service) (config : Config) (registry : Option Nat) (n : String) : Service :=
  ((addCompiler { config with functionName := n } registry).outcome s).2

/-- Whichever of two names the functions of a new compiler have, every session with it has the same answers and does the
same. -/
def SameMeaning (n n' : String) : Prop :=
  ∀ (s : Service) (config : Config) (registry : Option Nat) (host : Host) (held : List Compiled) (deeds : List Deed),
    let (answers, t) := session host deeds held (s.withNamed config registry n)
    let (answers', t') := session host deeds held (s.withNamed config registry n')
    answers = answers' ∧ t.world = t'.world ∧ t.registries = t'.registries ∧ t.log = t'.log

section Alike

variable {n n' : String}

theorem withNamed_disguised (h : nameKind n = nameKind n') (s : Service) (config : Config) (registry : Option Nat) :
    (s.withNamed config registry n).disguised ⟨{}, .canonical⟩ =
      (s.withNamed config registry n').disguised ⟨{}, .canonical⟩ := by
  have hcompiler : ∀ k : Nat, (⟨{ config with functionName := n }, k, []⟩ : Compiler).renamed .canonical =
      (⟨{ config with functionName := n' }, k, []⟩ : Compiler).renamed .canonical := by
    intro k
    simp [Compiler.renamed, Renaming.canonical, h]
  have hcompilers : ∀ k : Nat,
      (s.compilers.push ⟨{ config with functionName := n }, k, []⟩).map (·.renamed .canonical) =
        (s.compilers.push ⟨{ config with functionName := n' }, k, []⟩).map (·.renamed .canonical) := by
    intro k
    rw [Array.map_push, Array.map_push, hcompiler]
  cases registry with
  | some k => exact congrArg (fun cs => Service.mk _ _ _ cs) (hcompilers k)
  | none => exact congrArg (fun cs => Service.mk _ _ _ cs) (hcompilers s.registries.size)

theorem sameMeaning_of_nameKind (h : nameKind n = nameKind n') : SameMeaning n n' := by
  intro s config registry host held deeds
  have hsession := session_disguised ⟨{}, .canonical⟩ host deeds held (s.withNamed config registry n)
  rw [withNamed_disguised h, session_disguised] at hsession
  obtain ⟨hanswers, hservice⟩ := Prod.ext_iff.1 hsession
  have hlog := congrArg Service.log hservice
  refine ⟨hanswers.symm, (congrArg Service.world hservice).symm, (congrArg Service.registries hservice).symm, ?_⟩
  have hafter : ∀ l : Log, l.after {} = l := fun l => by simp [Log.after]
  change Log.after _ {} = Log.after _ {} at hlog
  rw [hafter, hafter] at hlog
  exact hlog.symm

end Alike

section Apart

def probing (op : Operation) : List Deed := [.ask 0 false (.str op.probe) .null .null [], .call 0 .null []]

variable {s : Service} {op : Operation}

theorem requestOf_probe (w : World) (op : Operation) : requestOf w false (.str op.probe) [] = .ok op.probeRequest := rfl

theorem session_probing_error {f : Failure} (hcached : (s.compilerAt 0).cached? op.probeRequest = none)
    (hp : s.prepare (s.compilerAt 0) op.probeRequest .null = .error f) :
    (session bareHost (probing op) [] s).1 = [.error f, .ok .done] := by
  have hask : ((Deed.ask 0 false (.str op.probe) .null .null []).perform bareHost []).outcome s =
      (.error f, ((s.enterRequest op.probeRequest).reportFailure f).leaveRequest) := by
    rw [Deed.perform, outcome_bind, outcome_ask, requestOf_probe]
    dsimp only
    rw [outcome_compile_failed hcached hp]
  rw [probing, session, hask]
  rfl

theorem session_probing_ok {p : Entries × Generated} (hcached : (s.compilerAt 0).cached? op.probeRequest = none)
    (hp : s.prepare (s.compilerAt 0) op.probeRequest .null = .ok p) :
    ∃ answer g f w, (session bareHost (probing op) [] s).1 = [.ok answer,
      (((p.2.program.run bareHost [.null, g, f]).outcome w).1.mapError Failure.raised).map .value] := by
  obtain ⟨x, s', hask, hx⟩ : ∃ x s', ((Deed.ask 0 false (.str op.probe) .null .null []).perform bareHost []).outcome s =
      (.ok (.compiled x.request x.source x.globals x.formatters, [x]), s') ∧ x.program = p.2.program := by
    rw [Deed.perform, outcome_bind, outcome_ask, requestOf_probe]
    dsimp only
    rw [outcome_compile_ok hcached hp]
    exact ⟨_, _, rfl, rfl⟩
  refine ⟨.compiled x.request x.source x.globals x.formatters, .dict x.globals, x.formatters, s'.world, ?_⟩
  have hcall : ((Deed.call 0 .null []).perform bareHost [x]).outcome s' =
      (((call bareHost x .null []).outcome s').1.map fun v => (.value v, [x]),
        ((call bareHost x .null []).outcome s').2) := by
    change (call bareHost x .null [] >>= fun v => pure (Answer.value v, [x])).outcome s' = _
    rw [outcome_bind]
    rcases (call bareHost x .null []).outcome s' with ⟨f | v, t⟩ <;> rfl
  rw [probing, session, hask]
  dsimp only
  rw [session, hcall, outcome_call, Compiled.call, hx]
  rcases (p.2.program.run bareHost [.null, .dict x.globals, x.formatters]).outcome s'.world with ⟨r | v, w⟩ <;> rfl

def named (n : String) : Service := ({} : Service).withNamed {} none n

theorem prepare_named (n : String) (r : Request) : (named n).prepare ((named n).compilerAt 0) r .null =
    match Compile.run n (entryNames standardEntries) r with
    | .error stop => .error (.stopped stop)
    | .ok generated => .ok (standardEntries, generated) := rfl

/-- What a session tells of a kind of names by an expression that uses an operation. -/
inductive Told (op : Operation) : NameKind → List (Except Failure Answer) → Prop where
  | unfit (word : Bool) (expression source : String) : Told op (.unfit word)
      [.error (.stopped (.rejected ⟨expression, source, "SyntaxError: " ++
        if word then "invalid syntax" else "cannot assign to __debug__"⟩)), .ok .done]
  | lost : Told op .lost [.error (.stopped .lostName), .ok .done]
  | hidden (answer : Answer) (r : Raised) : Told op (.hides op) [.ok answer, .error (.raised r)]
  | other {op' : Operation} (h : op ≠ op') (answer answer' : Answer) : Told op (.hides op') [.ok answer, .ok answer']
  | harmless (answer answer' : Answer) : Told op .harmless [.ok answer, .ok answer']

theorem told_named (n : String) (op : Operation) :
    Told op (nameKind n) (session bareHost (probing op) [] (named n)).1 := by
  obtain ⟨usual, husual⟩ := exists_run_probe op (entryNames standardEntries)
  have hrun := Compile.run_of_usual husual n
  have hprepare := prepare_named n op.probeRequest
  have hok (hfit : nameKind n ≠ .hides op) {generated : Generated}
      (hrun : Compile.run n (entryNames standardEntries) op.probeRequest = .ok generated) :
      ∃ answer answer', (session bareHost (probing op) [] (named n)).1 = [.ok answer, .ok answer'] := by
    rw [hrun] at hprepare
    obtain ⟨answer, g, f, w, hsession⟩ := session_probing_ok rfl hprepare
    have hne : op.name ≠ n := fun h => hfit (h ▸ nameKind_operation op)
    obtain ⟨v, w', hv⟩ := exists_ok_of_ne hne hrun bareHost g f w
    rw [hv] at hsession
    exact ⟨_, _, hsession⟩
  cases hkind : nameKind n with
  | unfit word =>
    rw [hkind] at hrun
    rw [hrun] at hprepare
    rw [session_probing_error rfl hprepare]
    exact .unfit word _ _
  | lost =>
    rw [hkind] at hrun
    rw [hrun] at hprepare
    rw [session_probing_error rfl hprepare]
    exact .lost
  | harmless =>
    rw [hkind] at hrun hok
    obtain ⟨answer, answer', hsession⟩ := hok nofun hrun
    rw [hsession]
    exact .harmless _ _
  | hides op' =>
    rw [hkind] at hrun hok
    by_cases hop : op = op'
    · subst hop
      rw [hrun] at hprepare
      obtain ⟨answer, g, f, w, hsession⟩ := session_probing_ok rfl hprepare
      obtain rfl := nameKind_eq_hides_iff.1 hkind
      obtain ⟨r, w', hr⟩ := exists_error_of_hiding hrun bareHost Program.maxDepth g f w
      rw [Program.run, hr] at hsession
      rw [hsession]
      exact .hidden _ _
    · obtain ⟨answer, answer', hsession⟩ := hok (fun h => hop (NameKind.hides.inj h).symm) hrun
      rw [hsession]
      exact .other hop _ _

/-- Kinds of names are told apart by expressions that use operations. -/
theorem eq_of_told {k k' : NameKind} (h : ∀ op, ∃ answers, Told op k answers ∧ Told op k' answers) : k = k' := by
  have hhides : ∀ {k k' : NameKind} {op : Operation} {answers : List (Except Failure Answer)}, k = .hides op →
      Told op k answers → Told op k' answers → k' = .hides op := by
    rintro _ k' op answers rfl hk hk'
    cases hk with
    | hidden answer r => cases hk'; rfl
    | other hne => exact absurd rfl hne
  by_cases hk : ∃ op, k = .hides op
  · obtain ⟨op, rfl⟩ := hk
    obtain ⟨answers, htold, htold'⟩ := h op
    exact (hhides rfl htold htold').symm
  by_cases hk' : ∃ op, k' = .hides op
  · obtain ⟨op, rfl⟩ := hk'
    obtain ⟨answers, htold, htold'⟩ := h op
    exact hhides rfl htold' htold
  obtain ⟨answers, htold, htold'⟩ := h .get
  cases htold with
  | unfit word =>
    generalize hanswers : [Except.error _, _] = answers at htold'
    cases htold' with
    | unfit word' =>
      obtain ⟨-, -, hdiagnostic⟩ := Rejection.mk.inj (Stop.rejected.inj (Failure.stopped.inj
        (Except.error.inj (List.cons.inj hanswers).1)))
      revert hdiagnostic
      clear hanswers
      cases word <;> cases word' <;> decide +kernel
    | _ => cases hanswers
  | lost => cases htold'; rfl
  | hidden | other => exact absurd ⟨_, rfl⟩ hk
  | harmless =>
    cases htold' with
    | harmless => rfl
    | other => exact absurd ⟨_, rfl⟩ hk'

end Apart

theorem nameKind_eq_of_sameMeaning {n n' : String} (h : SameMeaning n n') : nameKind n = nameKind n' := by
  refine eq_of_told fun op => ⟨_, told_named n op, ?_⟩
  have hanswers : (session bareHost (probing op) [] (named n)).1 = (session bareHost (probing op) [] (named n')).1 :=
    (h {} {} none bareHost [] (probing op)).1
  rw [hanswers]
  exact told_named n' op

/-- Names of functions can be exchanged exactly if they are of one kind: both are words that cannot be names of
functions, or spellings of the constant that cannot, or functions with them are not found again, or they hide the same
operation, or they hide none. -/
theorem sameMeaning_iff (n n' : String) : SameMeaning n n' ↔ nameKind n = nameKind n' :=
  ⟨nameKind_eq_of_sameMeaning, sameMeaning_of_nameKind⟩

/-- A name that settings accept and that hides an operation. -/
theorem not_sameMeaning_get : Config.ofSettings [("function_name", .str "_get_")] = .ok { functionName := "_get_" } ∧
    ¬ SameMeaning "_get_" "expression" := by
  refine ⟨by decide +kernel, fun h => ?_⟩
  have hkind := nameKind_eq_of_sameMeaning h
  rw [show nameKind "_get_" = .hides .get from nameKind_operation .get,
    show nameKind "expression" = .harmless from nameKind_name .harmless] at hkind
  cases hkind

end Service

end NullSafe
