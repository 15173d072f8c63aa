import NullSafe.Request
import NullSafe.Scope

/-! # Parameters are told apart

A generated function has one parameter for each extra argument. Where the names of the arguments are
accepted, different arguments have different parameters, also where some of them had to be renamed.
-/

namespace NullSafe

open List

/-- What the names of a request mean beside the given globals. -/
abbrev Request.scope (globals : List String) (r : Request) : Scope := Scope.ofNames globals r.arguments

namespace Name

theorem isDecimal_of_isDigit {c : Char} (h : c.isDigit = true) : Text.isDecimal c = true := by
  have hc := Char.isDigit_iff_toNat.1 h
  have hfind : (Text.decimalZeros.find? fun z => z ≤ c.toNat && c.toNat < z + 10).isSome = true := by
    rw [find?_isSome]
    refine ⟨0x30, by decide, ?_⟩
    have hlow : '0'.toNat = 0x30 := rfl
    have hhigh : '9'.toNat = 0x39 := rfl
    simp only [Bool.and_eq_true, decide_eq_true_eq]
    omega
  rw [Text.isDecimal, Text.decimalValue?, Option.isSome_map, hfind]

theorem toList_toString (i : Nat) : (toString i).toList = Nat.toDigits 10 i := by
  rw [Nat.toString_eq_ofList_toDigits, String.toList_ofList]

theorem toDigits_injective {i j : Nat} (h : Nat.toDigits 10 i = Nat.toDigits 10 j) : i = j := by
  rw [← Nat.ofDigitChars_ten_toDigits (n := i), h, Nat.ofDigitChars_ten_toDigits]

/-- The name that stands for an argument in generated code is reserved. -/
theorem isSynthetic_renamed (i : Nat) : isSynthetic ("_arg" ++ toString i ++ "_") = true := by
  have hl : ("_arg" ++ toString i ++ "_").toList =
      ['_', 'a', 'r', 'g'] ++ (Nat.toDigits 10 i ++ ['_']) := by
    rw [String.toList_append, String.toList_append, toList_toString]
    simp
  have hall : ∀ c ∈ Nat.toDigits 10 i, Text.isDecimal c = true := fun c hc =>
    isDecimal_of_isDigit (Nat.isDigit_of_mem_toDigits (by decide) (by decide) hc)
  have hbreak : dropFinalBreak (['_', 'a', 'r', 'g'] ++ (Nat.toDigits 10 i ++ ['_'])) =
      ['_', 'a', 'r', 'g'] ++ (Nat.toDigits 10 i ++ ['_']) := by
    have hlast : (['_', 'a', 'r', 'g'] ++ (Nat.toDigits 10 i ++ ['_'])).getLast? = some '_' := by
      rw [← append_assoc, getLast?_append]
      rfl
    rw [dropFinalBreak, hlast, if_neg (by decide)]
  have htake : (Nat.toDigits 10 i ++ ['_']).takeWhile Text.isDecimal = Nat.toDigits 10 i := by
    rw [takeWhile_append_of_pos hall]
    simp [show Text.isDecimal '_' = false by decide]
  have hdrop : (Nat.toDigits 10 i ++ ['_']).dropWhile Text.isDecimal = ['_'] := by
    rw [dropWhile_append_of_pos hall]
    simp [show Text.isDecimal '_' = false by decide]
  have hnumbered : isNumbered "_arg" "_" (['_', 'a', 'r', 'g'] ++ (Nat.toDigits 10 i ++ ['_'])) =
      true := by
    have hne : Nat.toDigits 10 i ≠ [] := Nat.toDigits_ne_nil
    simp [isNumbered, show "_arg".length = 4 by decide, htake, hdrop, hne]
  rw [isSynthetic, hl, hbreak, hnumbered, Bool.or_true]

end Name

namespace Request

theorem nodup_of_accepted {names : List String} (h : namesProblem? names = none) : names.Nodup := by
  unfold namesProblem? at h
  split at h
  · cases h
  · split at h
    · assumption
    · cases h

theorem not_synthetic_of_accepted {names : List String} (h : namesProblem? names = none) :
    ∀ n ∈ names, Name.isSynthetic n = false := by
  intro n hn
  unfold namesProblem? at h
  split at h
  · cases h
  · rename_i hall
    have hnone := findSome?_eq_none_iff.1 hall n hn
    unfold nameProblem? at hnone
    split at hnone
    · cases hnone
    · split at hnone
      · cases hnone
      · rename_i hres
        by_cases hv : n = Surface.valueName
        · subst hv; decide
        · simp only [hv, ne_eq, not_false_eq_true, decide_true, Bool.true_and,
            Bool.not_eq_true, Name.isReserved, Bool.or_eq_false_iff] at hres
          exact hres.2

end Request

namespace Scope

variable {name : String} {names : List String}

theorem parameter?_of_argument {scope : Scope} (h : scope.classify name = .argument) :
    ∃ p, scope.parameter? name = some p := by
  by_cases hp : (scope.parameter? name).isSome = true
  · exact Option.isSome_iff_exists.1 hp
  · rw [classify, if_neg hp] at h
    split at h
    · cases h
    · split at h <;> cases h

/-- The parameter that stands for an argument. -/
def parameterOf (scope : Scope) (name : String) : String := (scope.parameter? name).getD name

/-- Different arguments have different parameters. -/
def Distinct (scope : Scope) : Prop :=
  ∀ a b p, scope.parameter? a = some p → scope.parameter? b = some p → a = b

theorem declareAll_of_nodup {index : Nat} {arguments : List (String × String)}
    (h : (arguments.map Prod.fst ++ names).Nodup) :
    declareAll index arguments names = arguments ++ (names.zipIdx index).map fun n => (n.1, parameterFor n.2 n.1) := by
  induction names generalizing index arguments with
  | nil => simp [declareAll]
  | cons name rest ih =>
    have hnew : arguments.any (·.1 = name) = false := by
      rw [any_eq_false]
      intro a ha hname
      have hmem : a.1 ∈ arguments.map Prod.fst := mem_map_of_mem ha
      have hne := (nodup_append.1 h).2.2 a.1 hmem name mem_cons_self
      exact hne (by simpa using hname)
    rw [declareAll, declare, if_neg (by simp [hnew]), ih (by simpa using h)]
    simp [zipIdx_cons]

theorem arguments_ofNames {globals : List String} (h : names.Nodup) :
    (ofNames globals names).arguments = names.zipIdx.map fun n => (n.1, parameterFor n.2 n.1) := by
  rw [ofNames, declareAll_of_nodup (by simpa using h), nil_append]

theorem parameterFor_injective {i j : Nat} {a b : String} (ha : Name.isSynthetic a = false)
    (hb : Name.isSynthetic b = false) (hij : i = j → a = b)
    (h : parameterFor i a = parameterFor j b) : a = b := by
  unfold parameterFor at h
  split at h <;> split at h
  · exact h
  · rw [h, Name.isSynthetic_renamed] at ha; cases ha
  · rw [← h, Name.isSynthetic_renamed] at hb; cases hb
  · apply hij
    apply Name.toDigits_injective
    have hl := congrArg String.toList h
    simpa [String.toList_append, Name.toList_toString] using hl

theorem distinct_ofNames {globals : List String} (h : Request.namesProblem? names = none) :
    (ofNames globals names).Distinct := by
  have hnd := Request.nodup_of_accepted h
  have hsyn := Request.not_synthetic_of_accepted h
  have hmem : ∀ a p, (ofNames globals names).parameter? a = some p →
      ∃ i, (a, i) ∈ names.zipIdx ∧ p = parameterFor i a := by
    intro a p ha
    rw [parameter?, arguments_ofNames hnd] at ha
    obtain ⟨l₁, l₂, hl, -⟩ := lookup_eq_some_iff.1 ha
    have hin : (a, p) ∈ names.zipIdx.map fun n => (n.1, parameterFor n.2 n.1) := by
      rw [hl]; simp
    obtain ⟨⟨b, i⟩, hb, he⟩ := mem_map.1 hin
    obtain ⟨rfl, rfl⟩ := Prod.mk.inj he
    exact ⟨i, hb, rfl⟩
  intro a b p ha hb
  obtain ⟨i, hi, rfl⟩ := hmem a p ha
  obtain ⟨j, hj, hp⟩ := hmem b _ hb
  refine parameterFor_injective (hsyn a (fst_mem_of_mem_zipIdx hi)) (hsyn b (fst_mem_of_mem_zipIdx hj)) ?_ hp
  rintro rfl
  rw [mem_zipIdx_iff_getElem?] at hi hj
  exact Option.some.inj (hi.symm.trans hj)

theorem lookup_of_nodup {α : Type} {l : List (String × α)} (h : (l.map Prod.fst).Nodup)
    {a : String × α} (ha : a ∈ l) : l.lookup a.1 = some a.2 := by
  obtain ⟨before, after, rfl⟩ := append_of_mem ha
  rw [map_append, map_cons, nodup_append] at h
  refine lookup_eq_some_iff.2 ⟨before, after, rfl, fun b hb => ?_⟩
  exact bne_iff_ne.2 fun hab => h.2.2 b.1 (mem_map_of_mem hb) a.1 mem_cons_self hab.symm

variable (globals : List String) {names : List String} (h : names.Nodup)

include h

theorem fst_arguments_ofNames : (ofNames globals names).arguments.map Prod.fst = names := by
  rw [arguments_ofNames h, map_map]
  exact zipIdx_map_fst 0 names

theorem parameters_ofNames : (ofNames globals names).parameters = names.map (ofNames globals names).parameterOf := by
  have hkeys := fst_arguments_ofNames globals h
  conv => rhs; arg 2; rw [← hkeys]
  rw [parameters, map_map]
  refine map_congr_left fun a ha => ?_
  rw [Function.comp_apply, parameterOf, parameter?, lookup_of_nodup (hkeys.symm ▸ h) ha, Option.getD_some]

theorem isSome_parameter?_of_mem (hn : name ∈ names) : ((ofNames globals names).parameter? name).isSome = true := by
  have hkeys := fst_arguments_ofNames globals h
  rw [← hkeys] at hn
  obtain ⟨a, ha, rfl⟩ := mem_map.1 hn
  rw [parameter?, lookup_of_nodup (hkeys.symm ▸ h) ha]
  rfl

theorem parameter?_of_not_mem (hn : name ∉ names) : (ofNames globals names).parameter? name = none := by
  refine lookup_eq_none_iff.2 fun a ha => ?_
  have hmem : a.1 ∈ names := fst_arguments_ofNames globals h ▸ mem_map_of_mem ha
  exact bne_iff_ne.2 fun he => hn (he ▸ hmem)

omit h

/-- Arguments do not hide the names that generated code binds itself. -/
theorem classify_of_mem_keywords (h : Request.namesProblem? names = none) (hn : name ∈ keywords) :
    (ofNames globals names).classify name = .keyword := by
  have hproblem : Request.nameProblem? name ≠ none := by
    revert name
    decide
  have hmem : name ∉ names := by
    intro hmem
    unfold Request.namesProblem? at h
    split at h
    · cases h
    · rename_i hall
      exact hproblem (findSome?_eq_none_iff.1 hall name hmem)
  rw [classify, parameter?_of_not_mem globals (Request.nodup_of_accepted h) hmem, if_neg (by decide),
    if_pos (contains_iff_mem.2 hn)]

end Scope

end NullSafe
