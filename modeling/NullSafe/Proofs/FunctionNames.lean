import NullSafe.Proofs.Programs

/-! # Names of generated functions

The name of a function decides whether the function can be declared, whether it is found again, and which operation it
hides. Functions whose names are alike in this are compiled and run alike.
-/

namespace NullSafe

open Compile

/-- What a name does to a function that has it. -/
inductive NameKind where
  /-- A function cannot have the name, which is a word of the generated language or else that of its constant. -/
  | unfit (word : Bool)
  /-- The name is kept in another spelling, under which the function is not found. -/
  | lost
  /-- The function hides an operation from its own code. -/
  | hides (op : Operation)
  | harmless
  deriving DecidableEq, Repr

def nameKind (n : String) : NameKind :=
  if !canBeNamed n then .unfit (Name.keywords.contains n)
  else if !Text.isPlainName n.toList then .lost
  else (Operation.ofName? n).elim .harmless .hides

section Kinds

variable {n m : String} {op : Operation}

theorem Operation.ofName?_eq_some_iff : Operation.ofName? n = some op ↔ op.name = n := by
  constructor
  · intro h
    simpa using List.find?_some h
  · rintro rfl
    cases op <;> decide

theorem nameKind_operation (op : Operation) : nameKind op.name = .hides op := by
  have hfit : canBeNamed op.name = true ∧ Text.isPlainName op.name.toList = true := by
    cases op <;> decide
  rw [nameKind, hfit.1, hfit.2, Operation.ofName?_eq_some_iff.2 rfl]
  rfl

theorem nameKind_eq_hides_iff : nameKind n = .hides op ↔ n = op.name := by
  refine ⟨fun h => ?_, fun h => h ▸ nameKind_operation op⟩
  unfold nameKind at h
  split at h
  · cases h
  · split at h
    · cases h
    · cases hop : Operation.ofName? n with
      | none =>
        rw [hop] at h
        cases h
      | some op' =>
        rw [hop] at h
        cases h
        exact (Operation.ofName?_eq_some_iff.1 hop).symm

/-- Names of one kind are the same, or none of them is that of an operation. -/
theorem eq_or_ne_of_nameKind (h : nameKind m = nameKind n) : m = n ∨ ∀ op : Operation, op.name ≠ m ∧ op.name ≠ n := by
  by_cases hop : ∃ op, nameKind n = .hides op
  · obtain ⟨op, hop⟩ := hop
    exact .inl ((nameKind_eq_hides_iff.1 (h.trans hop)).trans (nameKind_eq_hides_iff.1 hop).symm)
  · refine .inr fun op => ⟨?_, ?_⟩
    · rintro rfl
      exact hop ⟨op, h ▸ nameKind_operation op⟩
    · rintro rfl
      exact hop ⟨op, nameKind_operation op⟩

theorem canBeNamed_iff : canBeNamed n = true ↔ ∀ word, nameKind n ≠ .unfit word := by
  unfold nameKind
  cases canBeNamed n with
  | false => simp
  | true =>
    cases Text.isPlainName n.toList <;> cases Operation.ofName? n <;> simp

theorem canBeNamed_of_nameKind (h : nameKind m = nameKind n) : canBeNamed m = canBeNamed n :=
  Bool.eq_iff_iff.2 (by rw [canBeNamed_iff, canBeNamed_iff, h])

theorem contains_keywords_iff : Name.keywords.contains n = true ↔ nameKind n = .unfit true := by
  unfold nameKind
  cases hword : Name.keywords.contains n with
  | true =>
    have hnot : canBeNamed n = false := by rw [canBeNamed, hword]; rfl
    rw [hnot]
    exact ⟨fun _ => rfl, fun _ => rfl⟩
  | false =>
    cases canBeNamed n <;> cases Text.isPlainName n.toList <;> cases Operation.ofName? n <;> simp

theorem complaint_of_nameKind (h : nameKind m = nameKind n) : complaint m = complaint n := by
  have hword : Name.keywords.contains m = Name.keywords.contains n :=
    Bool.eq_iff_iff.2 (by rw [contains_keywords_iff, contains_keywords_iff, h])
  funext body
  rw [complaint, complaint, hword]

theorem isPlainName_of_nameKind (h : nameKind m = nameKind n) (hn : canBeNamed n = true) :
    Text.isPlainName m.toList = Text.isPlainName n.toList := by
  have hlost : ∀ k : String, canBeNamed k = true →
      (Text.isPlainName k.toList = true ↔ nameKind k ≠ .lost) := by
    intro k hk
    unfold nameKind
    rw [hk]
    cases Text.isPlainName k.toList <;> cases Operation.ofName? k <;> simp
  rw [Bool.eq_iff_iff, hlost n hn, hlost m (canBeNamed_of_nameKind h ▸ hn), h]

end Kinds

section Inside

/-- What the code of a function calls: the function itself in place of the operation that it hides. -/
def Program.inside (p : Program) (host : Host) (fuel : Nat) : Surroundings :=
  ⟨host, fun op args => if op.name = p.name then p.runWithin host fuel args else host.operate op args⟩

variable (p : Program) (host : Host) (fuel : Nat) (args : List Value)

theorem Program.runWithin_succ : p.runWithin host (fuel + 1) args = p.runIn (p.inside host fuel) args := by
  unfold Program.runWithin
  exact rfl

theorem Program.run_inside : p.run host args = p.runIn (p.inside host 999) args := p.runWithin_succ host 999 args

theorem Program.operate_inside_of_ne {op : Operation} (h : op.name ≠ p.name) :
    (p.inside host fuel).operate op args = host.operate op args := if_neg h

theorem Program.operate_inside_of_eq {op : Operation} (h : op.name = p.name) :
    (p.inside host fuel).operate op args = p.runWithin host fuel args := if_pos h

theorem Program.outcome_runIn_of_frame?_eq_none {s : Surroundings} (h : p.frame? args = none) (w : World) :
    (p.runIn s args).outcome w = (.error .mistyped, w) := by
  rw [Program.runIn, h]
  rfl

/-- A function fails when it is given less than a function takes. -/
theorem Program.exists_error_of_short {args : List Value} (h : args.length < 3) :
    ∃ r, ∀ host, p.runWithin host fuel args = throw r := by
  cases fuel with
  | zero => exact ⟨.tooDeep, fun _ => rfl⟩
  | succ fuel =>
    have hframe : p.frame? args = none := by
      match args, h with
      | [], _ | [_], _ | [_, _], _ => rfl
    refine ⟨.mistyped, fun host => ?_⟩
    rw [p.runWithin_succ, Program.runIn, hframe]

end Inside

/-- What the name of a function does to a request that is compiled under the usual name. -/
theorem Compile.run_of_usual {globals : List String} {r : Request} {g : Generated}
    (h : Compile.run "expression" globals r = .ok g) (n : String) :
    Compile.run n globals r = match nameKind n with
      | .unfit word => .error (.rejected ⟨r.expression, g.source, "SyntaxError: " ++
          if word then "invalid syntax" else "cannot assign to __debug__"⟩)
      | .lost => .error .lostName
      | .hides _ | .harmless => .ok ⟨{ g.program with name := n }, g.source⟩ := by
  unfold Compile.run at h ⊢
  dsimp only at h ⊢
  split at h
  · cases h
  · cases h
  · split at h
    · cases h
    · split at h
      · cases h
      · split at h
        · cases h
        · rename_i hbuilt _
          cases h
          simp only [isBuildable, Bool.not_eq_true, Bool.not_eq_false', Bool.and_eq_true] at hbuilt
          simp only [isBuildable, complaint, hbuilt.1.2, hbuilt.2, Bool.and_true, Bool.not_true, Bool.or_false]
          unfold nameKind
          cases canBeNamed n <;> cases Text.isPlainName n.toList <;> cases Operation.ofName? n <;> rfl

section Renaming

/-- Other names for functions, each of the kind of the name that it stands for. -/
structure Renaming where
  name : String → String
  kind : ∀ n, nameKind (name n) = nameKind n
  usual : name "expression" = "expression"

def Renaming.refl : Renaming := ⟨id, fun _ => rfl, rfl⟩

variable (ρ : Renaming)

def Program.renamed (p : Program) : Program := { p with name := ρ.name p.name }

def Compiled.renamed (x : Compiled) : Compiled := { x with program := x.program.renamed ρ }

def Compiler.renamed (c : Compiler) : Compiler where
  config := { c.config with functionName := ρ.name c.config.functionName }
  registry := c.registry
  cache := c.cache.map fun e => (e.1, e.2.renamed ρ)

/-- A function runs in the same way under another name of the same kind. -/
theorem Program.run_renamed (p : Program) (host : Host) (args : List Value) :
    (p.renamed ρ).run host args = p.run host args := by
  rcases eq_or_ne_of_nameKind (ρ.kind p.name) with h | h
  · rw [Program.renamed, h]
  · have hrenamed : ∀ op : Operation, op.name ≠ (p.renamed ρ).name := fun op => (h op).1
    rw [Program.run_eq hrenamed, Program.run_eq fun op => (h op).2]
    rfl

theorem Compiled.call_renamed (x : Compiled) (host : Host) (this : Value) (args : List Value) :
    (x.renamed ρ).call host this args = x.call host this args :=
  Program.run_renamed ρ x.program host _

/-- A request is compiled to the same function, under the other name, or is stopped in the same way. -/
theorem Compile.run_renamed (n : String) (globals : List String) (r : Request) :
    Compile.run (ρ.name n) globals r = (Compile.run n globals r).map fun g => ⟨g.program.renamed ρ, g.source⟩ := by
  have hbuildable : ∀ parameters body, isBuildable (ρ.name n) parameters body =
      isBuildable n parameters body := by
    intro parameters body
    rw [isBuildable, isBuildable, canBeNamed_of_nameKind (ρ.kind n)]
  unfold Compile.run
  dsimp only
  split
  · rfl
  · rfl
  · split
    · rfl
    · rename_i body _
      rw [hbuildable, complaint_of_nameKind (ρ.kind n)]
      cases hbuilt : isBuildable n (r.scope globals).parameters body with
      | false => rfl
      | true =>
        have hnamed : canBeNamed n = true := by
          rw [isBuildable, Bool.and_eq_true, Bool.and_eq_true] at hbuilt
          exact hbuilt.1.1
        rw [isPlainName_of_nameKind (ρ.kind n) hnamed]
        cases Text.isPlainName n.toList <;> rfl

end Renaming

end NullSafe
