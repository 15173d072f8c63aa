import NullSafe.Proofs.Confinement

/-! # Calls and hidden objects

Native functions, methods and callable objects work with what they are given. If the functions of the host do so too, a
call leaves hidden objects alone.
-/

namespace NullSafe

variable {hidden : Ref → Prop} {w : World}

namespace Native

section Numbers

theorem confines_parseIntValue (v radix : Value) : ConfinesValue hidden w (parseIntValue v radix) := by
  have hread : ∀ (w' : World) (text : String) (radix : Option Int),
      ConfinesValue hidden w' (Run.ofExcept (fun _ => readInt text.toList radix) >>=
        fun n => pure (numberValue n)) := by
    refine fun _ _ _ => .ofExcept_bind fun n _ _ => ?_
    cases n <;> exact .pure trivial
  refine .ofExcept_bind fun _ _ _ => .get_bind fun _ => ?_
  split
  · refine .bind (P := fun _ _ => True) (.map (P := fun _ _ => True) (.ofExcept fun _ _ _ => trivial) ?_) ?_
    · exact fun _ _ _ => trivial
    · exact fun _ w' _ _ => hread w' _ _
  · exact hread w _ _

theorem confines_parseFloatValue (v : Value) : ConfinesValue hidden w (parseFloatValue v) := by
  refine .ofExcept_bind fun _ _ _ => ?_
  split <;> exact .pure trivial

theorem confines_isNaNValue (v : Value) : ConfinesValue hidden w (isNaNValue v) := by
  unfold isNaNValue
  split
  · exact .pure trivial
  · split
    · exact .pure trivial
    · exact .throw _
    · exact .pure trivial

theorem confines_rounding (f : Float → Option Int) (v : Value) : ConfinesValue hidden w (rounding f v) := by
  unfold rounding
  split
  · exact .pure trivial
  · split
    · exact .pure trivial
    · exact .throw _
  · exact .throw _
  · exact .throw _

theorem confines_absolute (v : Value) : ConfinesValue hidden w (absolute v) := by
  unfold absolute
  split
  · exact .pure trivial
  · exact .pure trivial
  · exact .ofFloat _
  · exact .throw _

theorem confines_roundHalfUp (v : Value) : ConfinesValue hidden w (roundHalfUp v) := by
  unfold roundHalfUp
  split
  · split
    · split
      · exact .pure trivial
      · exact .throw _
    · exact .throw _
    · exact .throw _
  · exact .throw _

theorem confines_signOf (v : Value) : ConfinesValue hidden w (signOf v) := by
  unfold signOf
  split
  · split <;> exact .pure trivial
  · exact .throw _

theorem mem_of_best {rel : World.Relation} {first v : Value} {rest : List Value}
    (h : w.best rel first rest = .ok v) : v ∈ first :: rest := by
  induction rest generalizing first with
  | nil =>
    cases h
    exact .head _
  | cons x rest ih =>
    rw [World.best] at h
    rcases hx : w.relate rel x first with e | better <;> rw [hx] at h
    · cases h
    · rcases List.mem_cons.1 (ih h) with hv | hv
      · rw [hv]
        split
        · exact .tail _ (.head _)
        · exact .head _
      · exact .tail _ (.tail _ hv)

theorem confines_extreme (rel : World.Relation) (limit : Float) {vs : List Value}
    (h : ∀ v ∈ vs, w.Open hidden v) : ConfinesValue hidden w (extreme rel limit vs) := by
  cases vs with
  | nil => exact .pure trivial
  | cons v rest => exact .ofExcept fun _ x hx => h x (mem_of_best hx)

theorem confines_floatFunction (f : Float → Float) (v : Value) : ConfinesValue hidden w (floatFunction f v) := by
  refine .ofExcept_bind fun _ _ _ => ?_
  dsimp only
  split
  · exact .throw _
  · split
    · exact .throw _
    · exact .ofFloat _

theorem confines_power (a b : Value) : ConfinesValue hidden w (power a b) := by
  refine .ofExcept_bind fun _ _ _ => .ofExcept_bind fun _ _ _ => ?_
  dsimp only
  split
  · split
    · exact .throw _
    · split
      · exact .throw _
      · exact .pure trivial
  · exact .ofFloat _

theorem confines_naturalLog (v : Value) : Confines hidden w (naturalLog v) fun _ _ => True := by
  unfold naturalLog
  split
  · split
    · exact .throw _
    · split <;> exact .pure trivial
  · split
    · exact .pure trivial
    · exact .throw _
  · exact .pure trivial
  · exact .throw _

theorem confines_logarithm (v : Value) (base : Option Value) : ConfinesValue hidden w (logarithm v base) := by
  refine (confines_naturalLog v).bind fun _ _ _ _ => ?_
  split
  · exact .ofFloat _
  · refine (confines_naturalLog _).bind fun _ _ _ _ => ?_
    split
    · exact .throw _
    · exact .ofFloat _

end Numbers

section General

theorem confines_sumOf (v : Value) {start : Value} (hstart : w.Open hidden start) :
    ConfinesValue hidden w (sumOf v start) := by
  refine .ofExcept_bind fun items _ _ => ?_
  split
  · exact .throw _
  · exact .throw _
  · exact .foldlM hstart fun _ _ _ _ _ _ => .plus _ _

theorem confines_call (f : Native) {args : List Value} (h : ∀ v ∈ args, w.Open hidden v) :
    ConfinesValue hidden w (f.call args) := by
  unfold call
  split <;> try simp only [List.forall_mem_cons, List.not_mem_nil, false_imp_iff, implies_true, and_true] at h
  iterate 2 exact confines_parseIntValue _ _
  · exact confines_parseFloatValue _
  · exact confines_isNaNValue _
  · exact .newList nofun
  · exact .ofExcept_bind fun items hw hitems => .newList (open_items hw hitems)
  · exact confines_roundHalfUp _
  · exact confines_signOf _
  iterate 2 exact confines_extreme _ _ h
  · exact confines_absolute _
  iterate 3 exact confines_rounding _ _
  · exact confines_power _ _
  iterate 5 exact confines_floatFunction _ _
  iterate 2 exact confines_logarithm _ _
  · exact .pure trivial
  · exact .ofExcept_bind fun _ _ _ => .pure trivial
  · exact .pure trivial
  iterate 3 exact .ofExcept_bind fun _ _ _ => .pure trivial
  · exact .pure trivial
  iterate 2 exact .ofExcept_bind fun _ _ _ => .pure trivial
  · exact confines_sumOf _ trivial
  · exact confines_sumOf _ h.2
  · exact .pure trivial
  · exact .get_bind fun _ => .pure trivial
  · exact .throw _

end General

section Texts

theorem confines_newTexts (texts : List (List Char)) : ConfinesValue hidden w (newTexts texts) :=
  .newList (List.forall_mem_map.2 fun _ _ => trivial)

theorem confines_split (cs : List Char) (sep : Value) (limit : Option Value) :
    ConfinesValue hidden w (split cs sep limit) := by
  refine .ofExcept_bind fun _ _ _ => ?_
  split
  · exact confines_newTexts _
  · split
    · exact .throw _
    · exact confines_newTexts _
  · exact .throw _

theorem confines_replace (cs : List Char) (old new : Value) (limit : Option Value) :
    ConfinesValue hidden w (replace cs old new limit) :=
  .ofExcept_bind fun _ _ _ => .ofExcept_bind fun _ _ _ => .ofExcept_bind fun _ _ _ => .pure trivial

theorem confines_find (cs : List Char) (sub : Value) (bounds : List Value) :
    ConfinesValue hidden w (find cs sub bounds) := by
  refine .ofExcept_bind fun _ _ _ => .ofExcept_bind fun _ _ _ => ?_
  dsimp only
  split
  · exact .pure trivial
  · split <;> exact .pure trivial

theorem confines_countIn (cs : List Char) (sub : Value) (bounds : List Value) :
    ConfinesValue hidden w (countIn cs sub bounds) := by
  refine .ofExcept_bind fun _ _ _ => .ofExcept_bind fun _ _ _ => ?_
  dsimp only
  split
  · exact .pure trivial
  · split <;> exact .pure trivial

theorem confines_affixTest (atStart : Bool) (cs : List Char) (sub : Value) (bounds : List Value) :
    ConfinesValue hidden w (affixTest atStart cs sub bounds) :=
  .ofExcept_bind fun _ _ _ => .ofExcept_bind fun _ _ _ => .pure trivial

theorem confines_textMethod (s : String) (m : Method) (args : List Value) :
    ConfinesValue hidden w (textMethod s m args) := by
  unfold textMethod
  dsimp only
  split
  iterate 6 exact .pure trivial
  · exact .ofExcept_bind fun _ _ _ => .pure trivial
  iterate 3 exact confines_split _ _ _
  iterate 2 exact confines_replace _ _ _ _
  · exact .ofExcept_bind fun _ _ _ => .ofExcept_bind fun _ _ _ => .pure trivial
  · split
    · exact confines_find _ _ _
    · exact .throw _
  · split
    · exact confines_countIn _ _ _
    · exact .throw _
  · split
    · exact confines_affixTest _ _ _ _
    · exact .throw _
  · split
    · exact confines_affixTest _ _ _ _
    · exact .throw _
  · exact .throw _

end Texts

section Sequences

theorem confines_indexBound (length missing : Nat) (v : Option Value) :
    Confines hidden w (indexBound length missing v) fun _ _ => True := by
  cases v with
  | some v => exact .ofExcept_bind fun _ _ _ => .pure trivial
  | none => exact .pure trivial

theorem confines_indexIn (items : List Value) (v : Value) (bounds : List Value) :
    ConfinesValue hidden w (indexIn items v bounds) := by
  unfold indexIn
  refine (confines_indexBound _ _ _).bind fun _ _ _ _ => (confines_indexBound _ _ _).bind fun _ _ _ _ => ?_
  refine .ofExcept_bind fun _ _ _ => ?_
  split
  · exact .pure trivial
  · exact .throw _

theorem confines_pop (r : Ref) (i : Int) : ConfinesValue hidden w (pop r i) := by
  refine .get_bind fun hw => ?_
  dsimp only
  generalize (if i < 0 then i + ((w.list r).length : Int) else i) = j
  split
  · split
    · rename_i v hv
      have hitems : ∀ v ∈ (w.list r).eraseIdx j.toNat, w.Open hidden v :=
        fun v hv => hw.list r v (List.mem_of_mem_eraseIdx hv)
      refine (confines_setList hitems).bind fun _ w' hw' _ => .pure (hw'.open ?_)
      exact hw.list r v (List.mem_of_getElem? hv)
    · exact .throw _
  · exact .throw _

theorem confines_listMethod (r : Ref) (m : Method) {args : List Value} (h : ∀ v ∈ args, w.Open hidden v) :
    ConfinesValue hidden w (listMethod r m args) := by
  refine .get_bind fun hw => ?_
  dsimp only
  split
  · refine (confines_setList (List.forall_mem_append.2 ⟨hw.list r, h⟩)).bind fun _ _ _ _ => ?_
    exact .pure trivial
  · exact confines_pop _ _
  · exact .ofExcept_bind fun _ _ _ => confines_pop _ _
  · split
    · exact confines_indexIn _ _ _
    · exact .throw _
  · exact .ofExcept_bind fun _ _ _ => .pure trivial
  · refine (confines_setList fun v hv => hw.list r v (List.mem_reverse.1 hv)).bind fun _ _ _ _ => ?_
    exact .pure trivial
  · exact .throw _

theorem confines_tupleMethod (r : Ref) (m : Method) (args : List Value) :
    ConfinesValue hidden w (tupleMethod r m args) := by
  unfold tupleMethod
  split
  · exact .get_bind fun _ => .ofExcept_bind fun _ _ _ => .pure trivial
  · exact .throw _

end Sequences

section Patterns

open Pattern

def ConfinesCalls (hidden : Ref → Prop) (call : Value → List Value → Run Value) : Prop :=
  ∀ {w : World} {f : Value} {args : List Value}, w.Open hidden f → (∀ v ∈ args, w.Open hidden v) →
    ConfinesValue hidden w (call f args)

variable {call : Value → List Value → Run Value}

theorem confines_compiled (body : String) (flags : Flags) :
    Confines hidden w (compiled body flags) fun _ _ => True := by
  unfold compiled
  split
  · exact .pure trivial
  · exact .throw _

theorem confines_searchBound (v : Option Value) : Confines hidden w (searchBound v) fun _ _ => True := by
  cases v with
  | some v => exact .ofExcept_bind fun _ _ _ => .pure trivial
  | none => exact .pure trivial

theorem confines_searchBounds (bounds : List Value) : Confines hidden w (searchBounds bounds) fun _ _ => True := by
  unfold searchBounds
  exact (confines_searchBound _).bind fun _ _ _ _ => (confines_searchBound _).bind fun _ _ _ _ => .pure trivial

theorem confines_matchValue (p : Compiled) (text : List Char) (m : Option Match) :
    ConfinesValue hidden w (matchValue p text m) := by
  cases m with
  | some m => exact confines_newFound _
  | none => exact .pure trivial

theorem open_groupValue (text : List Char) (missing : Value) (h : w.Open hidden missing) (g : Option (Nat × Nat)) :
    w.Open hidden (groupValue text missing g) := by
  cases g with
  | some g => trivial
  | none => exact h

theorem confines_shownMatch (text : List Char) (m : Match) : ConfinesValue hidden w (shownMatch text m) := by
  unfold shownMatch
  split
  · exact .pure trivial
  · exact .pure (open_groupValue text (.str "") trivial _)
  · exact .newTuple (List.forall_mem_map.2 fun g _ => open_groupValue text (.str "") trivial g)

def Replacement.Open (w : World) (hidden : Ref → Prop) : Replacement → Prop
  | .function f => w.Open hidden f
  | _ => True

theorem confines_templateParts (p : Compiled) (cs : List Char) :
    Confines hidden w (templateParts p cs) fun _ _ => True := by
  unfold templateParts
  split
  · exact .pure trivial
  · exact .throw _
  · exact .throw _

theorem confines_replacementOf (p : Compiled) {repl : Value} (h : w.Open hidden repl) :
    Confines hidden w (replacementOf p repl) fun w' r => r.Open w' hidden := by
  unfold replacementOf
  split
  · refine (confines_templateParts _ _).bind fun parts _ _ _ => ?_
    exact .pure (show Replacement.Open _ hidden (.text parts) from trivial)
  · refine (confines_templateParts _ _).bind fun parts _ _ _ => ?_
    exact .pure (show Replacement.Open _ hidden (.bytes parts) from trivial)
  · refine .get_bind fun _ => ?_
    split
    · exact .pure h
    · exact .throw _

theorem confines_replacementValue (hcall : ConfinesCalls hidden call) (p : Compiled) (text : List Char) (m : Match)
    {r : Replacement} (hr : r.Open w hidden) : ConfinesValue hidden w (r.value call p text m) := by
  cases r with
  | text parts => exact .pure trivial
  | bytes parts =>
    change ConfinesValue hidden w (if !parts.isEmpty && parts.all Part.isGroup then
      pure (.str (String.ofList (expand parts text m))) else pure (.bytes []))
    split <;> exact .pure trivial
  | function f =>
    exact (confines_newFound _).bind fun v _ hw hv => hcall (hw.open hr) (List.forall_mem_singleton.2 hv)

theorem Replacement.Open.mono {w' : World} {r : Replacement} (hw : w.Spares hidden w') (h : r.Open w hidden) :
    r.Open w' hidden := by
  cases r with
  | function f => exact hw.open h
  | _ => trivial

theorem confines_substitute (hcall : ConfinesCalls hidden call) (p : Compiled) {repl : Value} (text limit : Value)
    (h : w.Open hidden repl) : ConfinesValue hidden w (substitute call p repl text limit) := by
  refine .ofExcept_bind fun _ _ _ => (confines_replacementOf p h).bind fun r w₁ _ hr => ?_
  split
  · dsimp only
    refine (Run.Within.mapM (Q := fun _ _ => True) (fun _ _ _ _ _ => trivial) fun m _ w₂ hw₂ => ?_).bind ?_
    · exact (confines_replacementValue hcall p _ m (hr.mono hw₂)).bind fun _ _ _ _ => .pure trivial
    · exact fun _ _ _ _ => .ofExcept_bind fun _ _ _ => .pure trivial
  · exact .throw _

theorem confines_mapM {α : Type} {f : α → Run Value} {as : List α} (h : ∀ a w', ConfinesValue hidden w' (f a)) :
    Confines hidden w (as.mapM f) fun w' vs => ∀ v ∈ vs, w'.Open hidden v :=
  .mapM (fun _ _ _ hw hv => hw.open hv) fun a _ w' _ => h a w'

theorem confines_searchMethod (p : Compiled) (m : Method) (text : List Char) (cursor : Cursor) :
    ConfinesValue hidden w (searchMethod p m text cursor) := by
  unfold searchMethod
  split
  · exact confines_matchValue _ _ _
  · split
    · exact .pure trivial
    · exact confines_matchValue _ _ _
  · split
    · exact .newList nofun
    · exact (confines_mapM fun m _ => confines_shownMatch _ m).bind fun _ _ _ h => .newList h
  · exact .throw _

theorem confines_searchValue (p : Pattern.Compiled) (m : Method) (bounds : Option Int × Option Int) (text : Value) :
    ConfinesValue hidden w (searchValue p m bounds text) := by
  unfold searchValue
  split
  · exact confines_searchMethod _ _ _ _
  · exact .throw _

theorem confines_patternMethod (hcall : ConfinesCalls hidden call) (body : String) (flags : Flags) (m : Method)
    {args : List Value} (h : ∀ v ∈ args, w.Open hidden v) :
    ConfinesValue hidden w (patternMethod call body flags m args) := by
  refine (confines_compiled _ _).bind fun p w' hw _ => ?_
  split
  · exact confines_substitute hcall p _ _ (hw.open (h _ (.head _)))
  · exact confines_substitute hcall p _ _ (hw.open (h _ (.head _)))
  · exact .throw _
  · rename_i text bounds _ _ _
    dsimp only
    split
    · exact .throw _
    · exact (confines_searchBounds bounds).bind fun _ _ _ _ => confines_searchValue p m _ text
  · exact .throw _

theorem confines_numberedSpan (f : Found) (i : Int) : Confines hidden w (numberedSpan f i) fun _ _ => True := by
  unfold numberedSpan
  split
  · exact .pure trivial
  · split
    · exact .throw _
    · split
      · exact .pure trivial
      · exact .throw _

theorem confines_groupSpan (f : Found) (v : Value) : Confines hidden w (groupSpan f v) fun _ _ => True := by
  unfold groupSpan
  split
  · exact confines_numberedSpan f _
  · exact confines_numberedSpan f _
  · split
    · exact confines_numberedSpan f _
    · exact .throw _
  · refine .get_bind fun _ => ?_
    split <;> exact .throw _

theorem confines_foundMethod (r : Ref) (m : Method) (args : List Value) :
    ConfinesValue hidden w (foundMethod r m args) := by
  have hgroup : ∀ (w' : World) (v : Value), ConfinesValue hidden w' (do
      return groupValue (w.found r).text .null (← groupSpan (w.found r) v)) := fun w' v =>
    (confines_groupSpan _ v).bind fun g _ _ _ => .pure (open_groupValue _ .null trivial g)
  refine .get_bind fun _ => ?_
  dsimp only
  split
  · exact hgroup _ _
  · exact hgroup _ _
  · exact (confines_mapM fun v w' => hgroup w' v).bind fun _ _ _ h => .newTuple h
  · exact .pure trivial
  · refine (confines_groupSpan _ _).bind fun g _ _ _ => ?_
    split <;> exact .pure trivial
  · exact .throw _

end Patterns

end Native

section Calls

open Native

variable {host : Host} {call : Value → List Value → Run Value}

/-- The code of a host works with what it is given. -/
structure Host.Confined (host : Host) : Prop where
  call : ∀ (hidden : Ref → Prop) (name : String) (args : List Value) (w : World), (∀ v ∈ args, w.Open hidden v) →
    ConfinesValue hidden w (host.call name args)
  invoke : ∀ (hidden : Ref → Prop) (cls : HostClass) (r : Ref) (args : List Value) (w : World),
    w.Open hidden (.object r) → (∀ v ∈ args, w.Open hidden v) → ConfinesValue hidden w (host.invoke cls r args)
  getter : ∀ (hidden : Ref → Prop) (cls : HostClass) (name : String) (r : Ref) (w : World),
    w.Open hidden (.object r) → ConfinesValue hidden w (host.getter cls name r)
  setter : ∀ (hidden : Ref → Prop) (cls : HostClass) (name : String) (r : Ref) (v : Value) (w : World),
    w.Open hidden (.object r) → w.Open hidden v → Confines hidden w (host.setter cls name r v) fun _ _ => True

/-- Operations leave hidden objects alone, whoever carries them out. -/
theorem confines_operate (hhost : host.Confined) (op : Operation) {args : List Value}
    (h : ∀ v ∈ args, w.Open hidden v) : ConfinesValue hidden w (host.operate op args) := by
  refine .get_bind fun _ => ?_
  rcases haccess : host.accessor? w op args with _ | access
  · exact confines_operation op h
  · unfold Host.accessor? at haccess
    split at haccess
    · obtain ⟨cls, -, rfl⟩ := Option.map_eq_some_iff.1 haccess
      obtain ⟨hr, -⟩ := List.forall_mem_cons.1 h
      exact .readComputed hr cls _ fun w' hw' => hhost.getter hidden cls _ _ w' (hw'.open hr)
    · obtain ⟨cls, -, rfl⟩ := Option.map_eq_some_iff.1 haccess
      simp only [List.forall_mem_cons] at h
      exact (hhost.setter hidden cls _ _ _ w h.1 h.2.2.1).bind fun _ w' hw' _ => .pure (hw'.open h.2.2.1)
    · cases haccess

theorem confines_callMethod (hcall : ConfinesCalls hidden call) {self : Value} (m : Method) {args : List Value}
    (h : ∀ v ∈ args, w.Open hidden v) : ConfinesValue hidden w (Run.callMethod call self m args) := by
  unfold Run.callMethod
  split
  · exact confines_textMethod _ _ _
  · exact confines_listMethod _ _ h
  · exact confines_tupleMethod _ _ _
  · split
    · exact .pure trivial
    · exact .throw _
  · split
    · exact .pure trivial
    · exact .throw _
  · exact confines_patternMethod hcall _ _ _ h
  · exact confines_foundMethod _ _ _
  · exact .throw _

theorem confines_callObject (hhost : host.Confined) (hcall : ConfinesCalls hidden call) {r : Ref}
    (hr : w.Open hidden (.object r)) {args : List Value} (h : ∀ v ∈ args, w.Open hidden v) :
    ConfinesValue hidden w (Run.callObject host call r args) := by
  refine .get_bind fun hw => ?_
  dsimp only
  split
  · split
    · exact hhost.invoke hidden _ r args w hr h
    · exact .throw _
  · have hf : w.Open hidden (((w.object r).attributes.lookup "fn").getD .null) := by
      rcases hlookup : (w.object r).attributes.lookup "fn" with _ | v
      · trivial
      · exact World.open_lookup (hw.object r) hlookup
    split
    · exact .throw _
    · obtain ⟨-, hrest⟩ := List.forall_mem_cons.1 h
      refine .get_bind fun _ => ?_
      split
      · exact hcall hf h
      · exact hcall hf hrest
  · exact .throw _

theorem confines_callWithin (hhost : host.Confined) (fuel : Nat) : ConfinesCalls hidden (Run.callWithin host fuel) := by
  induction fuel with
  | zero => exact fun _ _ => .throw _
  | succ fuel ih =>
    intro w f args hf h
    unfold Run.callWithin
    split
    · exact hhost.call hidden _ _ _ h
    · exact confines_call _ h
    · exact confines_callMethod ih _ h
    · exact confines_callObject hhost ih hf h
    · exact .throw _

/-- Calls leave hidden objects alone. -/
theorem confines_callValue (hhost : host.Confined) : ConfinesCalls hidden (Run.callValue host) :=
  fun hf h => .get_bind fun _ => confines_callWithin hhost _ hf h

end Calls

end NullSafe
