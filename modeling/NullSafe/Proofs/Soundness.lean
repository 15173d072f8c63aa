import NullSafe.Proofs.Completeness

/-! # What is parsed is derived by the grammar

The tokens that a parsing function passes are those of a derivation that means its result. If it ends at
a numeral that cannot be converted, some derivation has the tokens up to there.
-/

namespace NullSafe.Surface

/-- The outcome of a parsing function on tokens is explained by a set of tokens with their values. -/
def Explains {α : Type} (x : Except Failure (α × List Token)) (ls : List Lexeme) (L : List Lexeme → α → Prop) : Prop :=
  match x with
  | .ok (v, rest) => ∃ ys, ls = ys ++ lexemes rest ∧ Fit ys ∧ L ys v
  | .error .oversizedNumber => ∃ ys v, L ys v ∧ ¬ Fit ys ∧ upToMisfit ys <+: ls
  | .error (.fault _) => True

namespace Explains

variable {α β : Type} {x : Except Failure (α × List Token)} {ls : List Lexeme}
  {L : List Lexeme → α → Prop} {N : List Lexeme → β → Prop}

theorem pure {v : α} {rest : List Token} (h : L [] v) : Explains (.ok (v, rest)) (lexemes rest) L :=
  ⟨[], rfl, fit_nil, h⟩

theorem refuse (cause : Cause) (position : Nat) : Explains (Parser.refuse cause position) ls L := trivial

theorem imp {L' : List Lexeme → α → Prop} (h : Explains x ls L) (hL : ∀ ys v, L ys v → L' ys v) : Explains x ls L' := by
  rcases x with (f | _) | ⟨v, rest⟩
  · trivial
  · obtain ⟨ys, v, hv, hf⟩ := h
    exact ⟨ys, v, hL ys v hv, hf⟩
  · obtain ⟨ys, hys, hf, hv⟩ := h
    exact ⟨ys, hys, hf, hL ys v hv⟩

theorem cons {l : Lexeme} (hl : l.fits = true) (h : Explains x ls fun ys v => L (l :: ys) v) :
    Explains x (l :: ls) L := by
  rcases x with (f | _) | ⟨v, rest⟩
  · trivial
  · obtain ⟨ys, v, hv, hf, hp⟩ := h
    refine ⟨l :: ys, v, hv, fun hc => hf (fit_cons.1 hc).2, ?_⟩
    rw [upToMisfit_cons_of_fits hl]
    exact List.cons_prefix_cons.2 ⟨rfl, hp⟩
  · obtain ⟨ys, rfl, hf, hv⟩ := h
    exact ⟨l :: ys, rfl, fit_cons.2 ⟨hl, hf⟩, hv⟩

/-- Where the first of two functions ends early, what the second reads can be anything. -/
theorem bind {k : α × List Token → Except Failure (β × List Token)} (hx : Explains x ls L)
    (hk : ∀ v rest, x = .ok (v, rest) → Explains (k (v, rest)) (lexemes rest) fun zs w => ∀ ys, L ys v → N (ys ++ zs) w)
    (hN : ∀ ys v, L ys v → ∃ zs w, N (ys ++ zs) w) : Explains (x >>= k) ls N := by
  rcases x with (f | _) | ⟨v, rest⟩
  · trivial
  · obtain ⟨ys, v, hv, hf, hp⟩ := hx
    obtain ⟨zs, w, hw⟩ := hN ys v hv
    refine ⟨ys ++ zs, w, hw, fun h => hf (fit_append.1 h).1, ?_⟩
    rwa [upToMisfit_append_of_not_fit hf]
  · obtain ⟨ys, rfl, hf, hv⟩ := hx
    have hkv := hk v rest rfl
    change Explains (k (v, rest)) _ _
    rcases hkr : k (v, rest) with (f | _) | ⟨w, rest'⟩ <;> rw [hkr] at hkv
    · trivial
    · obtain ⟨zs, w, hw, hz, hp⟩ := hkv
      refine ⟨ys ++ zs, w, hw ys hv, fun h => hz (fit_append.1 h).2, ?_⟩
      rw [upToMisfit_append_of_fit hf]
      exact (List.prefix_append_right_inj ys).2 hp
    · obtain ⟨zs, hzs, hz, hw⟩ := hkv
      refine ⟨ys ++ zs, ?_, fit_append.2 ⟨hf, hz⟩, hw ys hv⟩
      rw [hzs, List.append_assoc]

theorem misfit {l : Lexeme} (hl : ¬ l.fits = true) {ys : List Lexeme} {v : α} (h : L (l :: ys) v) :
    Explains (.error .oversizedNumber) (l :: ls) L := by
  refine ⟨l :: ys, v, h, fun hf => hl (fit_cons.1 hf).1, ?_⟩
  rw [upToMisfit, if_neg hl]
  exact ⟨ls, rfl⟩

theorem number {digits : List Char} {after : List Token} {f : String → α}
    (h : L [.number digits] (f (numeralText digits))) :
    Explains (do let text ← numberText digits; return (f text, after)) (.number digits :: lexemes after) L := by
  by_cases hfits : numeralFits digits = true
  · rw [numberText, if_pos hfits]
    exact .cons hfits (.pure h)
  · rw [numberText, if_neg hfits]
    exact .misfit hfits h

theorem map {k : α × List Token → Except Failure (β × List Token)} {f : α → β}
    (hx : Explains x ls fun ys v => N ys (f v)) (hk : ∀ v rest, k (v, rest) = .ok (f v, rest)) :
    Explains (x >>= k) ls N := by
  refine hx.bind (fun v rest _ => ?_) fun ys v hv => ⟨[], f v, by rwa [List.append_nil]⟩
  rw [hk]
  exact pure fun ys hv => by rwa [List.append_nil]

end Explains

open Surface.Parser

section Tokens

variable (stop : Nat) {t : Token}

theorem lexemes_cons {l : Lexeme} (ht : t.lexeme = l) (after : List Token) :
    lexemes (t :: after) = l :: lexemes after :=
  congrArg (· :: _) ht

theorem Explains.token {α : Type} {x : Except Failure (α × List Token)} {L : List Lexeme → α → Prop} {l : Lexeme}
    {after : List Token} (ht : t.lexeme = l) (hl : l.fits = true)
    (h : Explains x (lexemes after) fun ys v => L (l :: ys) v) : Explains x (lexemes (t :: after)) L := by
  rw [lexemes_cons ht]
  exact h.cons hl

theorem explains_passSymbol (s : Symbol) (ts : List Token) :
    Explains (passSymbol stop s ts) (lexemes ts) fun ys _ => ys = [.symbol s] := by
  unfold passSymbol expect
  cases ts with
  | nil => trivial
  | cons t after =>
    dsimp only
    split
    · rename_i ht
      exact .token ht rfl (.pure rfl)
    · trivial

theorem explains_passName (ts : List Token) :
    Explains (passName stop ts) (lexemes ts) fun ys name =>
      ∃ text, ys = [.name text] ∧ name = String.ofList text := by
  unfold passName expectName
  split
  · exact .cons rfl (.pure ⟨_, rfl, rfl⟩)
  · trivial

theorem joinOf_eq_some {n : Nat}
    {j : Expr Placeholder → Expr Placeholder → Expr Placeholder} (h : joinOf n t = some j) :
    ∃ op : Operator, op.level = n ∧ t.lexeme = .symbol op.symbol ∧ j = op.apply := by
  rcases t with ⟨l, pos⟩
  cases l with
  | symbol s =>
    rw [joinOf] at h
    dsimp only at h
    unfold joinAt at h
    split at h <;> cases h
    · exact ⟨.logical .either, rfl, rfl, rfl⟩
    · exact ⟨.logical .both, rfl, rfl, rfl⟩
    · exact ⟨.binary .equal, rfl, rfl, rfl⟩
    · exact ⟨.binary .differ, rfl, rfl, rfl⟩
    · exact ⟨.binary .strictEqual, rfl, rfl, rfl⟩
    · exact ⟨.binary .strictDiffer, rfl, rfl, rfl⟩
    · exact ⟨.binary .below, rfl, rfl, rfl⟩
    · exact ⟨.binary .above, rfl, rfl, rfl⟩
    · exact ⟨.binary .atMost, rfl, rfl, rfl⟩
    · exact ⟨.binary .atLeast, rfl, rfl, rfl⟩
    · exact ⟨.binary .add, rfl, rfl, rfl⟩
    · exact ⟨.binary .subtract, rfl, rfl, rfl⟩
    · exact ⟨.binary .multiply, rfl, rfl, rfl⟩
    · exact ⟨.binary .divide, rfl, rfl, rfl⟩
    · exact ⟨.binary .remainder, rfl, rfl, rfl⟩
  | _ => cases h

theorem unaryOf_eq_some {op : UnaryOp} (h : unaryOf t = some op) : t.lexeme = op.lexeme := by
  unfold unaryOf at h
  split at h
  · cases h; assumption
  · cases h; assumption
  · cases h; assumption
  · split at h
    · cases h
      subst_vars
      assumption
    · cases h
  · cases h

theorem ne_typeof {text : List Char} (ht : t.lexeme = .name text) (h : unaryOf t = none) : text ≠ "typeof".toList := by
  rintro rfl
  have hop : unaryOf t = some .typeof := unaryOf_lexeme ht
  rw [hop] at h
  cases h

theorem Parser.Parsed.length_lt {α : Type} {ts rest : List Token} {x : Except Failure (Parsed α ts)}
    {v : α} (h : Parsed.result x = .ok (v, rest)) : rest.length < ts.length := by
  rcases x with f | ⟨v', rest', hr⟩
  · cases h
  · cases h
    exact hr

theorem Parser.Continued.length_le {α : Type} {ts rest : List Token}
    {x : Except Failure (Continued α ts)} {v : α} (h : Continued.result x = .ok (v, rest)) :
    rest.length ≤ ts.length := by
  rcases x with f | ⟨v', rest', hr⟩
  · cases h
  · cases h
    exact hr

end Tokens

section Lists

variable {stop : Nat} {α : Type} {close : Symbol} {x : Except Failure (α × List Token)}
  {more : List Token → Except Failure (List α × List Token)} {ls : List Lexeme}
  {L : List Lexeme → α → Prop} {M : List Lexeme → List α → Prop}

theorem Explains.listRest (hx : Explains x ls L)
    (hmore : ∀ v rest, x = .ok (v, rest) → ∀ after, after.length < rest.length →
      Explains (more after) (lexemes after) M)
    (hnone : M [.symbol close] []) (hlast : ∀ ys v, L ys v → M (ys ++ [Lexeme.symbol close]) [v])
    (hcons : ∀ ys v zs vs, L ys v → M zs vs → M (ys ++ Lexeme.symbol .comma :: zs) (v :: vs)) :
    Explains (x >>= listRest stop close more) ls M := by
  refine hx.bind (fun v rest hrest => ?_) fun ys v hv => ⟨_, _, hlast ys v hv⟩
  rw [Parser.listRest]
  split
  · refine .map ((explains_passSymbol stop close rest).imp ?_) fun _ _ => rfl
    rintro _ _ rfl ys hv
    exact hlast ys v hv
  · refine (explains_passSymbol stop .comma rest).bind (fun _ after hafter => ?_) ?_
    · refine .map ((hmore v rest hrest after (Parsed.length_lt hafter)).imp ?_) fun _ _ => rfl
      rintro zs vs hvs _ rfl ys hv
      exact hcons ys v zs vs hv hvs
    · rintro _ _ rfl
      exact ⟨_, _, fun ys hv => hcons ys v _ _ hv hnone⟩

end Lists

section Sentences

variable {xs ys zs : List Lexeme} {u v w : Expr Placeholder}

/-- What the operators of a level with their operands make of the operand before them. -/
def DerivesJoins (level : Nat) (left : Expr Placeholder) (ys : List Lexeme) (v : Expr Placeholder) : Prop :=
  ∃ d : Derivation (.joins level), d.Valid ∧ d.yield = ys ∧ d.meaning left = v

def DerivesLinks (node : Expr Placeholder) (ys : List Lexeme) (v : Expr Placeholder) : Prop :=
  ∃ d : Derivation .links, d.Valid ∧ d.yield = ys ∧ d.meaning node = v

def DerivesList (c : Category) (close : Symbol) (ys : List Lexeme) (v : c.Meaning) : Prop :=
  ∃ d : Derivation c, d.Valid ∧ d.yield ++ [Lexeme.symbol close] = ys ∧ d.meaning = v

theorem derives_unassigned (h : Derives .conditional ys v) : Derives .assign ys v := by
  obtain ⟨d, hd, rfl, rfl⟩ := h
  exact ⟨.unassigned d, hd, rfl, rfl⟩

theorem derives_unconditional (h : Derives (.operation 6) ys v) : Derives .conditional ys v := by
  obtain ⟨d, hd, rfl, rfl⟩ := h
  exact ⟨.unconditional d, hd, rfl, rfl⟩

theorem derives_conditional (hu : Derives (.operation 6) xs u) (hv : Derives .assign ys v) (hw : Derives .assign zs w) :
    Derives .conditional (xs ++ Lexeme.symbol .question :: (ys ++ Lexeme.symbol .colon :: zs))
      (.conditional u v w) := by
  obtain ⟨d, hd, rfl, rfl⟩ := hu
  obtain ⟨e, he, rfl, rfl⟩ := hv
  obtain ⟨f, hf, rfl, rfl⟩ := hw
  exact ⟨.conditional d e f, ⟨hd, he, hf⟩, rfl, rfl⟩

def Derivation.raised {level : Nat} (d : Derivation (.operation level)) :
    (more : Nat) → Derivation (.operation (level + more))
  | 0 => d
  | more + 1 => .operation (d.raised more) .joined

def Derivation.single (d : Derivation .unary) : Derivation (.operation 6) := raised (.operand d) 6

def Derivation.alone (d : Derivation (.operation 6)) : Derivation .assign := .unassigned (.unconditional d)

theorem derives_unary (h : Derives .unary ys v) : Derives .assign ys v := by
  obtain ⟨d, hd, rfl, rfl⟩ := h
  refine ⟨.alone d.single, ?_, ?_, rfl⟩
  · simpa [Derivation.alone, Derivation.single, Derivation.raised, Derivation.Valid] using hd
  · simp [Derivation.alone, Derivation.single, Derivation.raised, Derivation.yield]

theorem derives_primary (h : Derives .primary ys v) : Derives .assign ys v := by
  obtain ⟨d, hd, rfl, rfl⟩ := h
  exact derives_unary ⟨.chain d .linked, ⟨hd, trivial⟩, by simp [Derivation.yield], rfl⟩

theorem derives_pattern : Derives .assign [.pattern] (.literal .pattern) :=
  derives_primary ⟨.literal .pattern, trivial, rfl, rfl⟩

variable {stop : Nat}

theorem explains_entryValue {key : Key Placeholder} {shorthand : Option (Expr Placeholder)}
    {ts : List Token} {L : List Lexeme → Key Placeholder × Expr Placeholder → Prop}
    (hassign : ∀ rest, rest.length < ts.length →
      Explains (Parsed.result (assign stop rest)) (lexemes rest)
        (Derives .assign : List Lexeme → Expr Placeholder → Prop))
    (hvalue : ∀ ys v, Derives .assign ys v → L (.symbol .colon :: ys) (key, v))
    (hshort : ∀ v, shorthand = some v → L [] (key, v)) :
    Explains (entryValue stop key shorthand ts) (lexemes ts) L := by
  rw [entryValue, property_result]
  split
  · refine .map (f := (key, ·)) ?_ fun _ _ => rfl
    refine (explains_passSymbol stop .colon ts).bind (fun _ rest hrest => ?_) ?_
    · refine .map ((hassign rest (Parsed.length_lt hrest)).imp ?_) fun _ _ => rfl
      rintro ys v hv _ rfl
      exact hvalue ys v hv
    · rintro _ _ rfl
      exact ⟨_, _, hvalue _ _ derives_pattern⟩
  · cases shorthand with
    | none => exact .refuse _ _
    | some v => exact .pure (hshort v rfl)

theorem entry_length_lt {t : Token} {after rest : List Token} {v : Key Placeholder × Expr Placeholder}
    (h : entry stop (t :: after) = .ok (v, rest)) : rest.length < (t :: after).length := by
  rw [entry] at h
  rcases hk : keyOf t with f | ⟨key, shorthand⟩ <;> rw [hk] at h
  · cases h
  · change entryValue stop key shorthand after = _ at h
    rw [entryValue] at h
    rcases hp : Continued.result (property stop shorthand after) with f | ⟨value, rest'⟩ <;> rw [hp] at h
    · cases h
    · cases h
      exact Nat.lt_succ_of_le (Continued.length_le hp)

end Sentences

variable (stop : Nat)

mutual

theorem explains_assign (ts : List Token) :
    Explains (Parsed.result (assign stop ts)) (lexemes ts)
      (Derives .assign : List Lexeme → Expr Placeholder → Prop) := by
  rw [assign_result]
  refine (explains_conditional ts).bind (fun v rest hrest => ?_) fun ys v hv =>
    ⟨[], v, by rw [List.append_nil]; exact derives_unassigned hv⟩
  have hlen := Parsed.length_lt hrest
  have hplain : ∀ ys, Derives .conditional ys v → Derives .assign (ys ++ []) v := fun ys hv => by
    rw [List.append_nil]; exact derives_unassigned hv
  cases rest with
  | nil => exact .pure hplain
  | cons t after =>
    dsimp only
    split
    · rename_i ht
      split
      · rename_i htarget
        refine .token ht rfl (.map ((explains_assign after).imp ?_) fun _ _ => rfl)
        rintro zs w ⟨e, he, rfl, rfl⟩ ys ⟨d, hd, rfl, rfl⟩
        exact ⟨.assign d e, ⟨hd, htarget, he⟩, rfl, rfl⟩
      · exact .refuse _ _
    · exact .pure hplain
termination_by (ts.length, 11)
decreasing_by
  · exact Prod.Lex.right _ (by decide)
  · exact Prod.Lex.left _ _ (Nat.lt_of_succ_lt hlen)

theorem explains_conditional (ts : List Token) :
    Explains (Parsed.result (conditional stop ts)) (lexemes ts)
      (Derives .conditional : List Lexeme → Expr Placeholder → Prop) := by
  rw [conditional_result]
  refine (explains_operation 6 ts).bind (fun v rest hrest => ?_) fun ys v hv =>
    ⟨[], v, by rw [List.append_nil]; exact derives_unconditional hv⟩
  have hlen := Parsed.length_lt hrest
  have hplain : ∀ ys, Derives (.operation 6) ys v → Derives .conditional (ys ++ []) v := fun ys hv => by
    rw [List.append_nil]; exact derives_unconditional hv
  cases rest with
  | nil => exact .pure hplain
  | cons t after =>
    dsimp only
    split
    · rename_i ht
      refine .token ht rfl ((explains_assign after).bind (fun yes rest₁ hrest₁ => ?_) fun ys v hv =>
        ⟨.symbol .colon :: _, _, fun xs hu => derives_conditional hu hv derives_pattern⟩)
      have hlen₁ := Parsed.length_lt hrest₁
      refine (explains_passSymbol stop .colon rest₁).bind (fun _ rest₂ hrest₂ => ?_) ?_
      · have hlen₂ := Parsed.length_lt hrest₂
        refine .map ((explains_assign rest₂).imp ?_) fun _ _ => rfl
        rintro zs w hw _ rfl ys hv xs hu
        exact derives_conditional hu hv hw
      · rintro _ _ rfl
        exact ⟨_, _, fun ys hv xs hu => derives_conditional hu hv derives_pattern⟩
    · exact .pure hplain
termination_by (ts.length, 10)
decreasing_by
  · exact Prod.Lex.right _ (by decide)
  · exact Prod.Lex.left _ _ (Nat.lt_of_succ_lt hlen)
  · exact Prod.Lex.left _ _ (by simp only [List.length_cons] at hlen; omega)

theorem explains_operation (level : Nat) (ts : List Token) :
    Explains (Parsed.result (operation stop level ts)) (lexemes ts)
      (Derives (.operation level) : List Lexeme → Expr Placeholder → Prop) := by
  match level with
  | 0 =>
    rw [operation_result_zero]
    refine (explains_unary ts).imp ?_
    rintro ys v ⟨d, hd, rfl, rfl⟩
    exact ⟨.operand d, hd, rfl, rfl⟩
  | level + 1 =>
    rw [operation_result_succ]
    refine (explains_operation level ts).bind (fun v rest hrest => ?_) ?_
    · have hlen := Parsed.length_lt hrest
      refine (explains_joined level v rest).imp ?_
      rintro zs w ⟨e, he, rfl, rfl⟩ ys ⟨d, hd, rfl, rfl⟩
      exact ⟨.operation d e, ⟨hd, he⟩, rfl, rfl⟩
    · rintro ys v ⟨d, hd, rfl, rfl⟩
      exact ⟨[], _, .operation d .joined, ⟨hd, trivial⟩, rfl, rfl⟩
termination_by (ts.length, level + 3)
decreasing_by
  · exact Prod.Lex.right _ (by simp)
  · exact Prod.Lex.right _ (by simp)
  · exact Prod.Lex.left _ _ hlen

theorem explains_joined (level : Nat) (left : Expr Placeholder) (ts : List Token) :
    Explains (Continued.result (joined stop level left ts)) (lexemes ts) (DerivesJoins level left) := by
  match ts with
  | [] =>
    rw [joined_result_nil]
    exact .pure ⟨.joined, trivial, rfl, rfl⟩
  | t :: after =>
    rw [joined_result_cons]
    cases hj : joinOf (level + 1) t with
    | none => exact .pure ⟨.joined, trivial, rfl, rfl⟩
    | some join =>
      obtain ⟨op, hop, ht, rfl⟩ := joinOf_eq_some hj
      refine .token ht rfl ((explains_operation level after).bind (fun v rest hrest => ?_) ?_)
      · have hlen := Parsed.length_lt hrest
        refine (explains_joined level (op.apply left v) rest).imp ?_
        rintro zs w ⟨e, he, rfl, rfl⟩ ys ⟨d, hd, rfl, rfl⟩
        exact ⟨.join op hop d e, ⟨hd, he⟩, rfl, rfl⟩
      · rintro ys v ⟨d, hd, rfl, rfl⟩
        exact ⟨[], _, .join op hop d .joined, ⟨hd, trivial⟩, rfl, rfl⟩
termination_by (ts.length, level + 3)
decreasing_by all_goals exact Prod.Lex.left _ _ (by simp only [List.length_cons]; omega)

theorem explains_unary (ts : List Token) :
    Explains (Parsed.result (unary stop ts)) (lexemes ts) (Derives .unary : List Lexeme → Expr Placeholder → Prop) := by
  match ts with
  | [] =>
    rw [unary_result_nil]
    exact .refuse _ _
  | t :: after =>
    rw [unary_result_cons]
    cases hu : unaryOf t with
    | some op =>
      refine .token (unaryOf_eq_some hu) (by cases op <;> rfl) (.map ((explains_unary after).imp ?_) fun _ _ => rfl)
      rintro ys v ⟨d, hd, rfl, rfl⟩
      exact ⟨.unary op d, hd, rfl, rfl⟩
    | none =>
      refine (explains_primary t after hu).bind (fun v rest hrest => ?_) ?_
      · have hlen := Parsed.length_lt hrest
        refine (explains_links v rest).imp ?_
        rintro zs w ⟨e, he, rfl, rfl⟩ ys ⟨d, hd, rfl, rfl⟩
        exact ⟨.chain d e, ⟨hd, he⟩, rfl, rfl⟩
      · rintro ys v ⟨d, hd, rfl, rfl⟩
        exact ⟨[], _, .chain d .linked, ⟨hd, trivial⟩, rfl, rfl⟩
termination_by (ts.length, 2)
decreasing_by
  · exact Prod.Lex.right _ (by decide)
  · exact Prod.Lex.left _ _ hlen
  · exact Prod.Lex.left _ _ (by simp)

theorem explains_primary (t : Token) (after : List Token) (h : unaryOf t = none) :
    Explains (Parsed.result (primary stop (t :: after))) (lexemes (t :: after))
      (Derives .primary : List Lexeme → Expr Placeholder → Prop) := by
  rw [primary_result_cons]
  split
  · rename_i digits ht
    rw [lexemes_cons ht]
    exact .number ⟨.number digits, trivial, rfl, rfl⟩
  · rename_i q ht
    exact .token ht rfl (.pure ⟨.literal (.string q), trivial, rfl, rfl⟩)
  · rename_i ht
    exact .token ht rfl (.pure ⟨.literal .pattern, trivial, rfl, rfl⟩)
  · rename_i text ht
    exact .token ht rfl (.pure ⟨.name text (ne_typeof ht h), trivial, rfl, rfl⟩)
  · rename_i ht
    refine .token ht rfl ((explains_assign after).bind (fun v rest hrest => ?_) ?_)
    · refine .map ((explains_passSymbol stop .closeParen rest).imp ?_) fun _ _ => rfl
      rintro _ _ rfl ys ⟨d, hd, rfl, rfl⟩
      exact ⟨.group d, hd, rfl, rfl⟩
    · rintro ys v ⟨d, hd, rfl, rfl⟩
      exact ⟨_, _, .group d, hd, rfl, rfl⟩
  · rename_i ht
    refine .token ht rfl (.map ((explains_items .closeBracket after).imp ?_) fun _ _ => rfl)
    rintro ys vs ⟨d, hd, rfl, rfl⟩
    exact ⟨.array d, hd, rfl, rfl⟩
  · rename_i ht
    refine .token ht rfl (.map ((explains_properties after).imp ?_) fun _ _ => rfl)
    rintro ys es ⟨d, hd, rfl, rfl⟩
    exact ⟨.object d, hd, rfl, rfl⟩
  · exact .refuse _ _
termination_by (after.length + 1, 1)
decreasing_by all_goals exact Prod.Lex.left _ _ (by simp)

theorem explains_links (node : Expr Placeholder) (ts : List Token) :
    Explains (Continued.result (links stop node ts)) (lexemes ts) (DerivesLinks node) := by
  match ts with
  | [] =>
    rw [links_result_nil]
    exact .pure ⟨.linked, trivial, rfl, rfl⟩
  | t :: after =>
    rw [links_result_cons]
    split
    · rename_i ht
      refine .token ht rfl ((explains_passName stop after).bind (fun name rest hrest => ?_) ?_)
      · have hlen := Parsed.length_lt hrest
        refine (explains_links (.member node name) rest).imp ?_
        rintro zs w ⟨e, he, rfl, rfl⟩ _ ⟨text, rfl, rfl⟩
        exact ⟨.member text e, he, rfl, rfl⟩
      · rintro _ _ ⟨text, rfl, rfl⟩
        exact ⟨[], _, .member text .linked, trivial, rfl, rfl⟩
    · rename_i ht
      refine .token ht rfl ((explains_assign after).bind (fun key rest hrest => ?_) ?_)
      · have hlen := Parsed.length_lt hrest
        refine (explains_passSymbol stop .closeBracket rest).bind (fun _ rest' hrest' => ?_) ?_
        · have hlen' := Parsed.length_lt hrest'
          refine (explains_links (.index node key) rest').imp ?_
          rintro zs w ⟨e, he, rfl, rfl⟩ _ rfl ys ⟨d, hd, rfl, rfl⟩
          exact ⟨.index d e, ⟨hd, he⟩, rfl, rfl⟩
        · rintro _ _ rfl
          refine ⟨[], .index node key, ?_⟩
          rintro ys ⟨d, hd, rfl, rfl⟩
          exact ⟨.index d .linked, ⟨hd, trivial⟩, rfl, rfl⟩
      · rintro ys v ⟨d, hd, rfl, rfl⟩
        exact ⟨[.symbol .closeBracket], _, .index d .linked, ⟨hd, trivial⟩, rfl, rfl⟩
    · rename_i ht
      refine .token ht rfl ((explains_items .closeParen after).bind (fun vs rest hrest => ?_) ?_)
      · have hlen := Parsed.length_lt hrest
        refine (explains_links (.call node vs) rest).imp ?_
        rintro zs w ⟨e, he, rfl, rfl⟩ _ ⟨d, hd, rfl, rfl⟩
        exact ⟨.call d e, ⟨hd, he⟩, by simp [Derivation.yield], rfl⟩
      · rintro _ vs ⟨d, hd, rfl, rfl⟩
        exact ⟨[], _, .call d .linked, ⟨hd, trivial⟩, by simp [Derivation.yield], rfl⟩
    · exact .pure ⟨.linked, trivial, rfl, rfl⟩
termination_by (ts.length, 0)
decreasing_by all_goals exact Prod.Lex.left _ _ (by simp only [List.length_cons]; omega)

theorem explains_items (close : Symbol) (ts : List Token) :
    Explains (Parsed.result (items stop close ts)) (lexemes ts)
      (DerivesList .items close : List Lexeme → List (Expr Placeholder) → Prop) := by
  match ts with
  | [] =>
    rw [items_result_nil]
    exact .refuse _ _
  | t :: after =>
    rw [items_result_cons]
    split
    · rename_i ht
      exact .token ht rfl (.pure ⟨.noItem, trivial, rfl, rfl⟩)
    · refine (explains_assign (t :: after)).listRest (fun v rest hrest rest' hlen' => ?_) ?_ ?_ ?_
      · have hlen := Parsed.length_lt hrest
        exact explains_items close rest'
      · exact ⟨.noItem, trivial, rfl, rfl⟩
      · rintro ys v ⟨d, hd, rfl, rfl⟩
        exact ⟨.lastItem d, hd, rfl, rfl⟩
      · rintro ys v zs vs ⟨d, hd, rfl, rfl⟩ ⟨e, he, rfl, rfl⟩
        exact ⟨.item d e, ⟨hd, he⟩, by simp [Derivation.yield], rfl⟩
termination_by (ts.length, 12)
decreasing_by
  · exact Prod.Lex.right _ (by decide)
  · exact Prod.Lex.left _ _ (Nat.lt_trans hlen' hlen)

theorem explains_properties (ts : List Token) :
    Explains (Parsed.result (properties stop ts)) (lexemes ts)
      (DerivesList .properties .closeBrace : List Lexeme → List (Key Placeholder × Expr Placeholder) → Prop) := by
  match ts with
  | [] =>
    rw [properties_result_nil]
    exact .refuse _ _
  | t :: after =>
    rw [properties_result_cons]
    split
    · rename_i ht
      exact .token ht rfl (.pure ⟨.noProperty, trivial, rfl, rfl⟩)
    · refine (explains_entry t after).listRest (fun v rest hrest rest' hlen' => ?_) ?_ ?_ ?_
      · have hlen := entry_length_lt hrest
        exact explains_properties rest'
      · exact ⟨.noProperty, trivial, rfl, rfl⟩
      · rintro ys v ⟨d, hd, rfl, rfl⟩
        exact ⟨.lastProperty d, hd, rfl, rfl⟩
      · rintro ys v zs vs ⟨d, hd, rfl, rfl⟩ ⟨e, he, rfl, rfl⟩
        exact ⟨.property d e, ⟨hd, he⟩, by simp [Derivation.yield], rfl⟩
termination_by (ts.length, 12)
decreasing_by
  · exact Prod.Lex.right _ (by decide)
  · exact Prod.Lex.left _ _ (Nat.lt_trans hlen' hlen)

theorem explains_entry (t : Token) (after : List Token) :
    Explains (entry stop (t :: after)) (lexemes (t :: after))
      (Derives .property : List Lexeme → Key Placeholder × Expr Placeholder → Prop) := by
  rcases t with ⟨l, position⟩
  have hassign : ∀ rest, rest.length < after.length →
      Explains (Parsed.result (assign stop rest)) (lexemes rest)
        (Derives .assign : List Lexeme → Expr Placeholder → Prop) :=
    fun rest hlen => explains_assign rest
  cases l with
  | name text =>
    refine .cons rfl (explains_entryValue hassign ?_ ?_)
    · rintro ys v ⟨d, hd, rfl, rfl⟩
      exact ⟨.named text d, hd, rfl, rfl⟩
    · rintro _ ⟨⟩
      exact ⟨.shorthand text, trivial, rfl, rfl⟩
  | string q =>
    refine .cons rfl (explains_entryValue hassign ?_ nofun)
    rintro ys v ⟨d, hd, rfl, rfl⟩
    exact ⟨.quoted q d, hd, rfl, rfl⟩
  | number digits =>
    by_cases hfits : numeralFits digits = true
    · simp only [entry, keyOf, numberText, if_pos hfits]
      refine .cons hfits (explains_entryValue hassign ?_ nofun)
      rintro ys v ⟨d, hd, rfl, rfl⟩
      exact ⟨.numbered digits d, hd, rfl, rfl⟩
    · obtain ⟨d, hd, -⟩ := derives_pattern
      simp only [entry, keyOf, numberText, if_neg hfits]
      exact .misfit hfits ⟨.numbered digits d, hd, rfl, rfl⟩
  | pattern => exact .refuse _ _
  | symbol s => exact .refuse _ _
termination_by (after.length + 1, 11)
decreasing_by
  · exact Prod.Lex.left _ _ (Nat.lt_succ_of_lt hlen)

end

end NullSafe.Surface
