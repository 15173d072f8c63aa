import NullSafe.Proofs.ObjectLiterals
import NullSafe.Proofs.Readers

/-! # Reading object literals back

An object literal that is read with one of its own keys gives the value of the last property of that name, if the key
is a name or a string. Keys that are numbers are kept as texts, and no text is found under a number: what is read with
such a key is missing. Literals with escapes for surrogates are left out.
-/

namespace NullSafe

open Surface Literal List Direct

section Lookup

variable {w : World} {entries : Entries}

theorem World.lookup_numeral (h : ∀ e ∈ entries, ∃ s, e.1 = .str s) (text : String) :
    w.hashableType (numeralValue text) = true ∧ w.lookup entries (numeralValue text) = .ok none := by
  have hdiffers : ∀ {key : Value}, (∀ s, .str s ≠ key) → w.hashable key = true → w.lookup entries key = .ok none := by
    intro key hkey hhash
    refine World.lookup_of_missing hhash fun e he => ?_
    obtain ⟨s, hs⟩ := h e he
    rw [hs]
    refine ⟨hkey s, ?_⟩
    rw [World.equal, World.depth, World.equalWithin_of_str (hkey s).symm]
  unfold numeralValue
  dsimp only
  split
  · exact ⟨rfl, hdiffers (by rintro s ⟨⟩) rfl⟩
  · exact ⟨rfl, hdiffers (by rintro s ⟨⟩) rfl⟩

end Lookup

section Keys

variable {s : Surroundings} {scope : Scope}

/-- The value that a read passes for a key, where its codes are those of characters. -/
def Surface.WrittenKey.value : WrittenKey → Value
  | .name cs => .str (String.ofList cs)
  | .string _ codes => .str (String.ofList (codes.map Char.ofNat))
  | .number digits => numeralValue (numeralText digits)

theorem keyValue_key (k : WrittenKey) : keyValue s (k.key denotedLeaf) = pure (.str k.propertyName) := by
  cases k <;> rfl

theorem entryValues_entries {R : Property → Expr Leaf → Prop} {ps : List Property} {ts : List (Expr Leaf)}
    (h : List.Forall₂ R ps ts) : entryValues s scope (Property.entries denotedLeaf ps ts) =
      List.zip (ps.map fun p => .str p.key.propertyName) <$> values s scope ts := by
  induction h with
  | nil => simp [Property.entries, entryValues, values]
  | cons _ _ ih =>
    rw [Property.entries] at ih ⊢
    rw [zipWith_cons_cons, entryValues, values, keyValue_key, ih]
    simp

theorem length_of_values {ts : List (Expr Leaf)} {e e' : Env} {w w' : World} {vs : List Value}
    (h : ((values s scope ts).run e).outcome w = (.ok (vs, e'), w')) : vs.length = ts.length := by
  induction ts generalizing vs e w with
  | nil =>
    cases h
    rfl
  | cons t ts ih =>
    rw [values, outcome_bind] at h
    rcases hv : ((whole (reach s scope t)).run e).outcome w with ⟨r | ⟨v, e₁⟩, w₁⟩ <;> rw [hv] at h
    · cases h
    · dsimp only at h
      rw [outcome_bind] at h
      rcases hvs : ((values s scope ts).run e₁).outcome w₁ with ⟨r | ⟨vs', e₂⟩, w₂⟩ <;> rw [hvs] at h
      · cases h
      · cases h
        exact congrArg (· + 1) (ih hvs)

end Keys

section Reading

variable {host : Host} {scope : Scope} {e e' : Env} {w w' : World}

/-- A read of a new object finds what is under the name of the key, unless the key is a number. -/
theorem outcome_getProperty_key {r : Ref} (h : ∀ x ∈ w.dict r, ∃ s, x.1 = .str s) (k : WrittenKey) :
    (Run.getProperty (.dict r) k.value).outcome w =
      (.ok (if k.isNumber then .null else ((w.dict r).lookup (.str k.propertyName)).getD .null), w) := by
  rw [Run.getProperty_dict]
  cases k with
  | number digits =>
    obtain ⟨htype, hlookup⟩ := World.lookup_numeral h (numeralText digits)
    rw [WrittenKey.value, htype, hlookup]
    rfl
  | name cs =>
    rw [WrittenKey.value, World.lookup_str]
    rfl
  | string raw codes =>
    rw [WrittenKey.value, World.lookup_str]
    rfl

theorem outcome_eval_read {t : Expr Leaf} {r : Ref} {v : Value} {w'' : World} (k : WrittenKey)
    (ht : ((reach ⟨host, host.operate⟩ scope t).run e).outcome w = (.ok (some (.dict r), e'), w'))
    (hread : (Run.getProperty (.dict r) k.value).outcome w' = (.ok v, w'')) :
    ((eval ⟨host, host.operate⟩ scope (k.read denotedLeaf t)).run e).outcome w = (.ok (v, e'), w'') := by
  have htest : ((isThere scope t (.dict r)).run e').outcome w' = (.ok (true, e'), w') := by
    unfold isThere
    rw [show decide (Value.dict r ≠ .null) = true from rfl, Bool.or_true]
    rfl
  have hindex : ∀ key : Expr Leaf, ((whole (reach ⟨host, host.operate⟩ scope key)).run e').outcome w' =
      (.ok (k.value, e'), w') →
        ((eval ⟨host, host.operate⟩ scope (.index t key)).run e).outcome w = (.ok (v, e'), w'') := by
    intro key hkey
    have hget : (host.operate .get [.dict r, k.value]).outcome w' = (.ok v, w'') := by
      rw [Host.operate_of_head (by nofun)]
      exact hread
    rw [eval, reach, outcome_whole_onward ht htest, outcome_bind, hkey]
    dsimp only
    rw [outcome_lift, hget]
  cases k with
  | name cs =>
    have hget : (host.operate .get [.dict r, .str (String.ofList cs)]).outcome w' = (.ok v, w'') := by
      rw [Host.operate_of_head (by nofun)]
      exact hread
    rw [WrittenKey.read, eval, reach, outcome_whole_onward ht htest, outcome_lift, hget]
  | string raw codes =>
    refine hindex _ ?_
    rw [outcome_whole, reach]
    rfl
  | number digits =>
    refine hindex _ ?_
    rw [outcome_whole, reach]
    rfl

/-- The value of the last property with the name of the key, given the values of the properties. -/
def Surface.ObjectRead.lastValue? (l : ObjectRead) (vs : List Value) : Option Value :=
  ((l.properties.map (·.key.codes)).zip vs).reverse.lookup l.key.codes

variable {R : Property → Expr Leaf → Prop} {l : ObjectRead} {ts : List (Expr Leaf)} {vs : List Value}

theorem Surface.WrittenKey.propertyName_eq (k : WrittenKey) :
    k.propertyName = String.ofList (k.codes.map Char.ofNat) := by
  cases k <;> simp [propertyName, codes, Function.comp_def]

/-- Characters are told apart by their codes, so names are. -/
theorem Surface.Property.propertyName_eq_iff (p q : Property) :
    p.key.propertyName = q.key.propertyName ↔ p.key.codes = q.key.codes := by
  rw [WrittenKey.propertyName_eq, WrittenKey.propertyName_eq]
  refine ⟨fun h => ?_, fun h => by rw [h]⟩
  have hback : ∀ r : Property, (r.key.codes.map Char.ofNat).map Char.toNat = r.key.codes := by
    intro r
    rw [map_map]
    refine (map_congr_left fun n hn => ?_).trans (map_id _)
    have hvalid := r.isValidChar_codes n hn
    rw [Function.comp_apply, show Char.ofNat n = Char.ofNatAux n hvalid from dif_pos hvalid]
    rfl
  rw [← hback p, ← hback q, String.ofList_injective h]

theorem lookup_propertyName (p : Property) (xs : List (Property × Value)) :
    (xs.map (Prod.map (fun q => Value.str q.key.propertyName) id)).lookup (.str p.key.propertyName) =
      (xs.map (Prod.map (·.key.codes) id)).lookup p.key.codes := by
  induction xs with
  | nil => rfl
  | cons x xs ih =>
    have hkey : (Value.str p.key.propertyName == .str x.1.key.propertyName) = (p.key.codes == x.1.key.codes) := by
      rw [Bool.eq_iff_iff, beq_iff_eq, beq_iff_eq, Value.str.injEq, p.propertyName_eq_iff]
    rw [map_cons, map_cons, Prod.map, Prod.map, lookup_cons, lookup_cons, hkey, ih]

/-- The name of a key is found where its codes are. -/
theorem Surface.ObjectRead.lookup_names (l : ObjectRead) (vs : List Value) :
    ((l.properties.map fun p => Value.str p.key.propertyName).zip vs).reverse.lookup (.str l.key.propertyName) =
      l.lastValue? vs := by
  obtain ⟨p, -, hkey⟩ := mem_map.1 l.mem
  rw [lastValue?, ← hkey, zip_map_left, zip_map_left, ← map_reverse, ← map_reverse]
  exact lookup_propertyName p _

theorem Surface.ObjectRead.exists_lastValue (l : ObjectRead) (h : l.properties.length = vs.length) :
    ∃ v, l.lastValue? vs = some v := by
  let names := l.properties.map (·.key.codes)
  have hname : l.key.codes ∈ (names.zip vs).map Prod.fst := by
    rw [map_fst_zip (by rw [length_map, h])]
    obtain ⟨p, hp, hkey⟩ := mem_map.1 l.mem
    exact mem_map.2 ⟨p, hp, hkey ▸ rfl⟩
  obtain ⟨x, hx, hkey⟩ := mem_map.1 hname
  rcases hlast : l.lastValue? vs with _ | v
  · have hdiffers := lookup_eq_none_iff.1 hlast x (mem_reverse.2 hx)
    simp [hkey] at hdiffers
  · exact ⟨v, rfl⟩

theorem outcome_reach_object {entries : List (Key Leaf × Expr Leaf)} {kvs : Entries} {s : Surroundings}
    {v : Value} {w'' : World} (hkvs : ((entryValues s scope entries).run e).outcome w = (.ok (kvs, e'), w'))
    (hbuild : (buildDict kvs).outcome w' = (.ok v, w'')) :
    ((reach s scope (.object entries)).run e).outcome w = (.ok (some v, e'), w'') := by
  rw [reach, outcome_bind, hkvs]
  dsimp only
  rw [outcome_map, outcome_lift, hbuild]

/-- The values are evaluated in order, and then a new object is read. -/
theorem Surface.ObjectRead.outcome_eval_tree (h : List.Forall₂ R l.properties ts)
    (hvs : ((values ⟨host, host.operate⟩ scope ts).run e).outcome w = (.ok (vs, e'), w')) :
    ∃ v entries, l.lastValue? vs = some v ∧
      ((eval ⟨host, host.operate⟩ scope (l.tree ts)).run e).outcome w =
        (.ok (if l.key.isNumber then .null else v, e'), (w'.newDict entries).2) := by
  obtain ⟨v, hlast⟩ := l.exists_lastValue (h.length_eq.trans (length_of_values hvs).symm)
  let kvs := (l.properties.map fun p => Value.str p.key.propertyName).zip vs
  have hkvs : ∀ x ∈ kvs, (∃ s, x.1 = .str s) ∧ True := by
    intro x hx
    obtain ⟨p, -, hp⟩ := mem_map.1 (of_mem_zip hx).1
    exact ⟨⟨_, hp.symm⟩, trivial⟩
  obtain ⟨built, hbuild, hkeys, hlookup⟩ := exists_buildDict (P := fun _ => True) hkvs w'
  have hentries : ((entryValues ⟨host, host.operate⟩ scope
      (Property.entries denotedLeaf l.properties ts)).run e).outcome w = (.ok (kvs, e'), w') := by
    rw [entryValues_entries h, outcome_map, hvs]
  have hdict : (w'.newDict built).2.dict w'.dicts.size = built := by simp [World.newDict, World.dict]
  have hread := outcome_getProperty_key (w := (w'.newDict built).2) (r := w'.dicts.size)
    (fun x hx => (hkeys x (hdict ▸ hx)).1) l.key
  rw [hdict, hlookup, l.lookup_names vs, hlast] at hread
  exact ⟨v, built, hlast, outcome_eval_read l.key (outcome_reach_object hentries hbuild) hread⟩

theorem Surface.ObjectRead.outcome_eval_tree_of_error {f : Raised} (h : List.Forall₂ R l.properties ts)
    (hvs : ((values ⟨host, host.operate⟩ scope ts).run e).outcome w = (.error f, w')) :
    ((eval ⟨host, host.operate⟩ scope (l.tree ts)).run e).outcome w = (.error f, w') := by
  have hreach : ((reach ⟨host, host.operate⟩ scope (.object (Property.entries denotedLeaf l.properties ts))).run
      e).outcome w = (.error f, w') := by
    rw [reach, outcome_bind, entryValues_entries h, outcome_map, hvs]
  unfold ObjectRead.tree
  cases l.key <;> rw [WrittenKey.read, eval, outcome_whole, reach, onward, outcome_bind, hreach]

end Reading

section Compiling

namespace Surface

theorem Property.forall_entries_iff {R : Property → Expr Leaf → Prop} {P : Key Leaf × Expr Leaf → Prop}
    {Q : Expr Leaf → Prop} {ps : List Property} {ts : List (Expr Leaf)} (h : List.Forall₂ R ps ts)
    (hP : ∀ p : Property, ∀ t, P (p.key.key denotedLeaf, t) ↔ Q t) :
    (∀ x ∈ Property.entries denotedLeaf ps ts, P x) ↔ ∀ t ∈ ts, Q t := by
  induction h with
  | nil => exact iff_of_true nofun nofun
  | cons _ _ ih =>
    rw [Property.entries] at ih ⊢
    rw [zipWith_cons_cons, forall_mem_cons, forall_mem_cons, hP, ih]

theorem WrittenKey.isBuildable_key (k : WrittenKey) : (keyCode (k.key denotedLeaf)).isBuildable = true := by
  cases k <;> rfl

namespace ObjectRead

variable {R : Property → Expr Leaf → Prop} {l : ObjectRead} {ts : List (Expr Leaf)}

theorem canEmit_tree (h : List.Forall₂ R l.properties ts) (scope : Scope) :
    (l.tree ts).canEmit scope = true ↔ ∀ t ∈ ts, t.canEmit scope = true := by
  have hentries := Property.forall_entries_iff (P := fun x => x.2.canEmit scope = true)
    (Q := fun t => t.canEmit scope = true) h fun _ _ => Iff.rfl
  rw [← hentries, ← Expr.canEmitEntries_iff, tree]
  cases l.key <;> simp [WrittenKey.read, Expr.canEmit]

/-- The key of the read is a numeral of its own. Its digits have to be those of ASCII. -/
theorem isBuildable_tree (h : List.Forall₂ R l.properties ts) :
    (l.tree ts).isBuildable = true ↔
      (l.key.isNumber = true → l.key.propertyName.toList.all (·.toNat < 0x80) = true) ∧
        ∀ t ∈ ts, t.isBuildable = true := by
  have hentries := Property.forall_entries_iff (P := fun x => (keyCode x.1).isBuildable = true ∧ x.2.isBuildable = true)
    (Q := fun t => t.isBuildable = true) h fun p _ => and_iff_right p.key.isBuildable_key
  rw [← hentries, ← Expr.entriesBuildable_iff, tree]
  cases l.key with
  | name cs => simp [WrittenKey.read, Expr.isBuildable, WrittenKey.isNumber]
  | string raw codes => simp [WrittenKey.read, Expr.isBuildable, WrittenKey.isNumber, denotedLeaf, Leaf.isBuildable]
  | number digits =>
    simp [WrittenKey.read, Expr.isBuildable, WrittenKey.isNumber, WrittenKey.propertyName, and_comm]

end ObjectRead

end Surface

variable {functionName : String} {globals names : List String} {l : ObjectRead} {ts : List (Expr Leaf)}

/-- A read can be compiled exactly if the values can, and a number that it reads with is written in ASCII. -/
theorem Surface.ObjectRead.exists_run_iff (htree : (⟨String.ofList l.text, names, false⟩ : Request).IsTree (l.tree ts))
    (h : List.Forall₂ (fun p t => NullSafe.Reads p.value t) l.properties ts) :
    (∃ generated, Compile.run functionName globals ⟨String.ofList l.text, names, false⟩ = .ok generated) ↔
      (l.key.isNumber = true → l.key.propertyName.toList.all (·.toNat < 0x80) = true) ∧
        ∀ p ∈ l.properties, ∃ generated,
          Compile.run functionName globals ⟨String.ofList p.value, names, false⟩ = .ok generated := by
  have hpart : ∀ (p : Property) (t : Expr Leaf), NullSafe.Reads p.value t →
      ((∃ generated, Compile.run functionName globals ⟨String.ofList p.value, names, false⟩ = .ok generated) ↔
        Compile.canDeclare functionName (Scope.ofNames globals names).parameters = true ∧
          t.canEmit (Scope.ofNames globals names) = true ∧ t.isBuildable = true) :=
    fun _ _ ht => Compile.exists_run_iff (ht.isTree names false)
  obtain ⟨p, hp, -⟩ := mem_map.1 l.mem
  obtain ⟨t, ht⟩ : ∃ t, t ∈ ts := exists_mem_of_length_pos (h.length_eq ▸ length_pos_of_mem hp)
  rw [Compile.exists_run_iff htree, canEmit_tree h, isBuildable_tree h, forall_mem_congr_of_forall₂ h hpart]
  constructor
  · rintro ⟨hdeclare, hemit, hnumber, hbuild⟩
    exact ⟨hnumber, fun t ht => ⟨hdeclare, hemit t ht, hbuild t ht⟩⟩
  · rintro ⟨hnumber, hall⟩
    exact ⟨(hall t ht).1, fun t ht => (hall t ht).2.1, hnumber, fun t ht => (hall t ht).2.2⟩

/-- The values of an object literal are evaluated in order. A name or a string reads the last value of its name back; a
number reads nothing. -/
theorem objectLiteral_reads_back (hname : ∀ op : Operation, op.name ≠ functionName)
    (hrequest : Request.namesProblem? names = none)
    (h : List.Forall₂ (fun p t => Reads p.value t) l.properties ts) :
    ((∀ p ∈ l.properties, isSettled none (pieces p.value) = true) → l.Separate) ∧
      (l.Separate →
        ((⟨String.ofList l.text, names, false⟩ : Request).IsTree (l.tree ts) ↔ Undisturbed l.parts []) ∧
        (Undisturbed l.parts [] →
          ((∃ generated, Compile.run functionName globals ⟨String.ofList l.text, names, false⟩ = .ok generated) ↔
            (l.key.isNumber = true → l.key.propertyName.toList.all (·.toNat < 0x80) = true) ∧
              ∀ p ∈ l.properties, ∃ generated,
                Compile.run functionName globals ⟨String.ofList p.value, names, false⟩ = .ok generated) ∧
          ∀ generated, Compile.run functionName globals ⟨String.ofList l.text, names, false⟩ = .ok generated →
            ∀ (host : Host) (this g fm : Value) (extra : List Value) (w : World), extra.length ≤ names.length →
              match ((Direct.values ⟨host, host.operate⟩ (Scope.ofNames globals names) ts).run
                  (Env.start names this g fm extra)).outcome w with
              | (.ok (vs, _), w') => ∃ v entries, l.lastValue? vs = some v ∧
                  (generated.program.run host (this :: g :: fm :: extra)).outcome w =
                    (.ok (if l.key.isNumber then .null else v), (w'.newDict entries).2)
              | (.error f, w') => (generated.program.run host (this :: g :: fm :: extra)).outcome w =
                (.error f, w'))) := by
  refine ⟨l.separate_of_isSettled, fun hseparate => ?_⟩
  have htree := hseparate.isTree_iff h names false
  refine ⟨htree, fun hapart => ⟨ObjectRead.exists_run_iff (htree.2 hapart) h, ?_⟩⟩
  intro generated hrun host this g fm extra w hextra
  rw [Compile.outcome_run hrun hname hrequest (htree.2 hapart) hextra, Run.outcome_bind]
  split
  · rename_i vs e' w' hvs
    obtain ⟨v, entries, hlast, heval⟩ := ObjectRead.outcome_eval_tree h hvs
    refine ⟨v, entries, hlast, ?_⟩
    rw [heval]
    rfl
  · rename_i f w' hvs
    rw [ObjectRead.outcome_eval_tree_of_error h hvs]

end Compiling

section Samples

def nameProperty : Property where
  before := []
  key := .name ['a']
  gap := []
  value := "'b'".toList
  isWritten := ⟨by unfold IsName; decide, by decide, by decide⟩
  blank := nofun
  characters := by decide +kernel

def stringProperty : Property where
  before := []
  key := .string "'a'".toList [97]
  gap := [' ']
  value := "'a' ".toList
  isWritten := ⟨by decide +kernel, by decide +kernel⟩
  blank := by decide
  characters := by decide +kernel

def stringRead : ObjectRead := ⟨[nameProperty, stringProperty], .string "'a'".toList [97], .tail _ (.head _)⟩

theorem objectLiteral_reads_back_string :
    ∃ generated, Compile.run "expression" [] ⟨"(\x7ba:'b','a' :'a' \x7d)['a']", [], false⟩ = .ok generated ∧
      ∃ entries, (generated.program.run bareHost [.null, .null, .null]).outcome {} =
        (.ok (.str "a"), (({} : World).newDict entries).2) := by
  have htext : "(\x7ba:'b','a' :'a' \x7d)['a']" = String.ofList stringRead.text := by decide +kernel
  obtain ⟨hseparate, hruns⟩ := @objectLiteral_reads_back "expression" [] [] stringRead
    [textLeaf ['b'], textLeaf ['a']] operation_name_ne rfl (.cons reads_b (.cons reads_a .nil))
  have hapart : Undisturbed stringRead.parts [] := by
    unfold Undisturbed
    decide +kernel
  obtain ⟨hexists, hcalls⟩ := (hruns (hseparate (by decide +kernel))).2 hapart
  obtain ⟨generated, hrun⟩ := hexists.2 ⟨nofun, List.forall_mem_cons.2
    ⟨(Compile.exists_run_iff (reads_b.isTree [] false)).2 (by decide +kernel), List.forall_mem_singleton.2
      ((Compile.exists_run_iff (reads_a.isTree [] false)).2 (by decide +kernel))⟩⟩
  obtain ⟨v, entries, hlast, hcall⟩ := hcalls generated hrun bareHost .null .null .null [] {} (Nat.le_refl 0)
  cases hlast
  exact ⟨generated, htext ▸ hrun, entries, hcall⟩

/-- A property whose key is a number, and what reads it. -/
def numberRead : ObjectRead where
  properties := [⟨[], .number ['1'], [], "'b'".toList, ⟨by decide +kernel, by decide +kernel⟩, nofun,
    by decide +kernel⟩]
  key := .number ['1']
  mem := .head _

/-- The value of the only property is `'b'`, and it is not read back. -/
theorem objectLiteral_loses_number :
    ∃ e generated entries, ((Direct.values ⟨bareHost, bareHost.operate⟩ (Scope.ofNames [] []) [textLeaf ['b']]).run
        (Env.start [] .null .null .null [])).outcome {} = (.ok ([.str "b"], e), {}) ∧
      numberRead.lastValue? [.str "b"] = some (.str "b") ∧
      Compile.run "expression" [] ⟨"(\x7b1:'b'\x7d)[1]", [], false⟩ = .ok generated ∧
      (generated.program.run bareHost [.null, .null, .null]).outcome {} =
        (.ok .null, (({} : World).newDict entries).2) := by
  have htext : "(\x7b1:'b'\x7d)[1]" = String.ofList numberRead.text := by decide +kernel
  have hreads : List.Forall₂ (fun p t => Reads p.value t) numberRead.properties [textLeaf ['b']] := .cons reads_b .nil
  have hseparate : numberRead.Separate := by decide +kernel
  have htree : (⟨"(\x7b1:'b'\x7d)[1]", [], false⟩ : Request).IsTree (numberRead.tree [textLeaf ['b']]) := by
    rw [htext, hseparate.isTree_iff hreads]
    unfold Undisturbed
    decide +kernel
  obtain ⟨generated, hrun⟩ : ∃ generated, Compile.run "expression" [] ⟨"(\x7b1:'b'\x7d)[1]", [], false⟩ =
    .ok generated := (Compile.exists_run_iff htree).2 (by decide +kernel)
  have hvs : ((Direct.values ⟨bareHost, bareHost.operate⟩ (Scope.ofNames [] []) [textLeaf ['b']]).run
      (Env.start [] .null .null .null [])).outcome {} = (.ok ([.str "b"], _), {}) := rfl
  obtain ⟨v, entries, -, heval⟩ := ObjectRead.outcome_eval_tree hreads hvs
  have hextra : ([] : List Value).length ≤ ([] : List String).length := Nat.le_refl 0
  refine ⟨_, generated, entries, hvs, rfl, hrun, ?_⟩
  rw [Compile.outcome_run hrun operation_name_ne rfl htree hextra, Run.outcome_bind, heval]
  rfl

end Samples

end NullSafe
