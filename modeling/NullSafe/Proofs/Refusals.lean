import NullSafe.Proofs.Building
import NullSafe.Proofs.Isolation

/-! # When code is refused

The tree of a text assigns only to names, members and indices. Of these only a bare name that generated code binds
itself is refused. An assignment is met wherever it stands in the tree, so the code of a text is refused exactly if the
text cannot be parsed or assigns to such a name somewhere.
-/

namespace NullSafe

open Surface List

variable {ι : Type} {scope : Scope}

section Parsed

namespace Surface.Expr

/-- If it is an assignment, a tree assigns to a name, a member or an index. -/
def hasTarget : Expr ι → Bool
  | .assign target _ => target.isTarget
  | _ => true

/-- Only names, members and indices are assigned to in a tree. -/
def AssignsToTargets (t : Expr ι) : Prop := ∀ u ∈ t.positions, u.hasTarget = true

end Surface.Expr

namespace Surface

/-- What a derivation of a category means assigns only to names, members and indices. -/
def Category.AssignsToTargets : (c : Category) → c.Meaning → Prop
  | assign, t | conditional, t | operation _, t | unary, t | primary, t => Expr.AssignsToTargets t
  | joins _, f | links, f => ∀ t : Expr Placeholder, t.AssignsToTargets → Expr.AssignsToTargets (f t)
  | items, ts => ∀ u ∈ Expr.innerAll ts, u.hasTarget = true
  | properties, es => ∀ u ∈ Expr.innerEntries es, u.hasTarget = true
  | property, e => Expr.AssignsToTargets (Prod.snd e)

variable {t u : Expr Placeholder}

theorem assignsToTargets_nameTree (text : List Char) : (Parser.nameTree text).AssignsToTargets := by
  unfold Parser.nameTree
  dsimp only
  repeat' split
  all_goals exact forall_mem_cons.2 ⟨rfl, nofun⟩

theorem assignsToTargets_apply {op : Operator} (ht : t.AssignsToTargets) (hu : u.AssignsToTargets) :
    (op.apply t u).AssignsToTargets := by
  cases op <;> exact forall_mem_cons.2 ⟨rfl, forall_mem_append.2 ⟨ht, hu⟩⟩

/-- What a derivation means assigns only to targets, since the derivation does. -/
theorem Derivation.assignsToTargets {c : Category} (d : Derivation c) (h : d.Valid) : c.AssignsToTargets d.meaning := by
  induction d with
  | unassigned _ ih | unconditional _ ih | operand _ ih | group _ ih => exact ih h
  | assign target value ihtarget ihvalue =>
    obtain ⟨htarget, hisTarget, hvalue⟩ := h
    refine forall_mem_cons.2 ⟨hisTarget, forall_mem_append.2 ⟨fun u hu => ?_, ihvalue hvalue⟩⟩
    exact ihtarget htarget u (.tail _ hu)
  | conditional test yes no ihtest ihyes ihno =>
    exact forall_mem_cons.2 ⟨rfl, forall_mem_append.2 ⟨ihtest h.1, forall_mem_append.2 ⟨ihyes h.2.1, ihno h.2.2⟩⟩⟩
  | operation first rest ihfirst ihrest | chain first rest ihfirst ihrest => exact ihrest h.2 _ (ihfirst h.1)
  | joined | linked => exact fun _ => id
  | join op _ right rest ihright ihrest => exact fun t ht => ihrest h.2 _ (assignsToTargets_apply ht (ihright h.1))
  | unary op value ih => exact forall_mem_cons.2 ⟨rfl, ih h⟩
  | member text rest ih => exact fun t ht => ih h _ (forall_mem_cons.2 ⟨rfl, ht⟩)
  | index key rest ihkey ihrest =>
    exact fun t ht => ihrest h.2 _ (forall_mem_cons.2 ⟨rfl, forall_mem_append.2 ⟨ht, ihkey h.1⟩⟩)
  | call arguments rest iharguments ihrest =>
    exact fun t ht => ihrest h.2 _ (forall_mem_cons.2 ⟨rfl, forall_mem_append.2 ⟨ht, iharguments h.1⟩⟩)
  | number | literal => exact forall_mem_cons.2 ⟨rfl, nofun⟩
  | name text _ => exact assignsToTargets_nameTree text
  | array _ ih | object _ ih => exact forall_mem_cons.2 ⟨rfl, ih h⟩
  | noItem | noProperty => exact nofun
  | lastItem _ ih | lastProperty _ ih => exact forall_mem_append.2 ⟨ih h, nofun⟩
  | item _ _ ih ihrest | property _ _ ih ihrest => exact forall_mem_append.2 ⟨ih h.1, ihrest h.2⟩
  | shorthand => exact forall_mem_cons.2 ⟨rfl, nofun⟩
  | named _ _ ih | quoted _ _ ih | numbered _ _ ih => exact ih h

theorem assignsToTargets_of_parse {cs : List Char} (h : parse cs = .ok t) : t.AssignsToTargets := by
  obtain ⟨_, -, -, d, hvalid, -, rfl⟩ := parse_eq_ok_iff.1 h
  exact d.assignsToTargets hvalid

end Surface

end Parsed

section Texts

/-- A tree assigns somewhere to a bare name that generated code binds itself and that is not an extra argument. -/
def AssignsToKeyword (scope : Scope) (t : Expr ι) (name : String) : Prop :=
  name ∈ Scope.keywords ∧ name ∉ scope.arguments.map Prod.fst ∧ ∃ value, .assign (.name name) value ∈ t.positions

theorem classify_eq_keyword_iff {name : String} :
    scope.classify name = .keyword ↔ name ∈ Scope.keywords ∧ name ∉ scope.arguments.map Prod.fst := by
  have hargument : (scope.parameter? name).isSome ↔ name ∈ scope.arguments.map Prod.fst := by
    rw [Scope.parameter?, lookup_isSome_iff, mem_map]
    exact exists_congr fun a => and_congr_right fun _ => beq_iff_eq.trans eq_comm
  unfold Scope.classify
  split_ifs <;> simp_all

theorem refusedIn_iff {t : Expr ι} {f : Fault} (h : t.AssignsToTargets) :
    RefusedIn scope t.positions f ↔ ∃ name, AssignsToKeyword scope t name ∧ f = { cause := .cannotAssign name } := by
  constructor
  · rintro ⟨target, value, hmem, hf⟩
    have htarget : target.isTarget = true := h _ hmem
    cases target with
    | name text =>
      obtain ⟨hclass, hf⟩ := Option.ite_none_right_eq_some.1 hf
      obtain ⟨hkeyword, hargument⟩ := classify_eq_keyword_iff.1 hclass
      exact ⟨text, ⟨hkeyword, hargument, value, hmem⟩, (Option.some.inj hf).symm⟩
    | member | index => cases hf
    | _ => cases htarget
  · rintro ⟨name, ⟨hkeyword, hargument, value, hmem⟩, rfl⟩
    exact ⟨.name name, value, hmem, if_pos (classify_eq_keyword_iff.2 ⟨hkeyword, hargument⟩)⟩

/-- Why the code of a text is refused, and what is generated otherwise. -/
structure RefusesExactly (scope : Scope) (cs : List Char) : Prop where
  /-- The code is refused exactly if the text cannot be parsed or assigns to a name that generated code binds. -/
  refused_iff : (∃ f, generate scope cs = .error f) ↔
    (∃ f, parse (replaceWords cs) = .error f) ∨
      ∃ t name, parse (replaceWords cs) = .ok t ∧ AssignsToKeyword scope t name
  /-- A text that cannot be parsed is refused for the reason the parser gives. -/
  unparsed : ∀ f, parse (replaceWords cs) = .error f → generate scope cs = .error f
  /-- A text that can be parsed is refused for such an assignment only, and the refusal names what is assigned to. -/
  fault : ∀ t f, parse (replaceWords cs) = .ok t → generate scope cs = .error f →
    ∃ name, AssignsToKeyword scope t name ∧ f = .fault { cause := .cannotAssign name }
  /-- The code of every position stands in the code of the text. -/
  emitted : ∀ t body, parse (replaceWords cs) = .ok t → generate scope cs = .ok body →
    AllEmittedIn scope [body.code] t.positions
  /-- Assignments to names of the context, arguments, globals, members and indices are all accepted. -/
  accepted : ∀ t, parse (replaceWords cs) = .ok t →
    (∀ name value, .assign (.name name) value ∈ t.positions → scope.classify name ≠ .keyword) →
    ∃ body, generate scope cs = .ok body

theorem generate_eq_error_iff {cs : List Char} {f : Failure} :
    generate scope cs = .error f ↔ parse (replaceWords cs) = .error f ∨
      ∃ t f', parse (replaceWords cs) = .ok t ∧ emit scope t = .error f' ∧ f = .fault f' := by
  rcases hparse : parse (replaceWords cs) with f | t
  · simp [generate_of_unparsed hparse]
  · rw [generate_of_parse hparse]
    rcases hemit : emit scope t with f | b <;> simp [hemit, eq_comm]

section Parsing

variable {cs : List Char} {t : Expr Placeholder} (h : parse (replaceWords cs) = .ok t)
include h

theorem assignsToKeyword_of_error {f : Failure} (hf : generate scope cs = .error f) :
    ∃ name, AssignsToKeyword scope t name ∧ f = .fault { cause := .cannotAssign name } := by
  rcases generate_eq_error_iff.1 hf with hparse | ⟨u, f', hparse, hemit, rfl⟩ <;> rw [h] at hparse <;> cases hparse
  have hrefused := emit_positions scope t
  rw [hemit] at hrefused
  obtain ⟨name, hname, rfl⟩ := (refusedIn_iff (assignsToTargets_of_parse h)).1 hrefused
  exact ⟨name, hname, rfl⟩

theorem allEmittedIn_of_ok {body : Body Placeholder} (hbody : generate scope cs = .ok body) :
    AllEmittedIn scope [body.code] t.positions := by
  obtain ⟨u, hparse, hemit⟩ := generate_eq_ok_iff.1 hbody
  rw [h] at hparse
  cases hparse
  have hemitted := emit_positions scope t
  rwa [hemit] at hemitted

theorem exists_error_of_assignsToKeyword {name : String} (hname : AssignsToKeyword scope t name) :
    ∃ f, generate scope cs = .error f := by
  rcases hbody : generate scope cs with f | body
  · exact ⟨f, rfl⟩
  · have hrefused : RefusedIn scope t.positions { cause := .cannotAssign name } :=
      (refusedIn_iff (assignsToTargets_of_parse h)).2 ⟨name, hname, rfl⟩
    exact absurd hrefused (not_refusedIn (allEmittedIn_of_ok h hbody))

end Parsing

theorem refusesExactly (scope : Scope) (cs : List Char) : RefusesExactly scope cs where
  refused_iff := by
    constructor
    · rintro ⟨f, hf⟩
      rcases hparse : parse (replaceWords cs) with g | t
      · exact .inl ⟨g, rfl⟩
      · obtain ⟨name, hname, -⟩ := assignsToKeyword_of_error hparse hf
        exact .inr ⟨t, name, rfl, hname⟩
    · rintro (⟨f, hf⟩ | ⟨t, name, hparse, hname⟩)
      · exact ⟨f, generate_eq_error_iff.2 (.inl hf)⟩
      · exact exists_error_of_assignsToKeyword hparse hname
  unparsed _ hf := generate_eq_error_iff.2 (.inl hf)
  fault _ _ hparse hf := assignsToKeyword_of_error hparse hf
  emitted _ _ hparse hbody := allEmittedIn_of_ok hparse hbody
  accepted t hparse h := by
    rcases hbody : generate scope cs with f | body
    · obtain ⟨name, ⟨hkeyword, hargument, value, hmem⟩, -⟩ := assignsToKeyword_of_error hparse hbody
      exact absurd (classify_eq_keyword_iff.2 ⟨hkeyword, hargument⟩) (h name value hmem)
    · exact ⟨body, rfl⟩

end Texts

end NullSafe
