import NullSafe.Proofs.Data

/-! # Reading properties of data

A read of data gives data, and what is not there is missing, with two exceptions: a sequence refuses a text of digits
that is no decimal numeral or too long for one, and a mapping refuses a tuple that holds something that can be no key.
-/

namespace NullSafe

open Text Number List Run

section Digits

variable {c : Char} {cs : List Char}

theorem isBlank_eq_false_of_isDigit (h : isDigit c = true) : isBlank c = false := by
  have hdecimals : ∀ r ∈ blankRanges, ∀ z ∈ decimalZeros, r.2 < z ∨ z + 10 ≤ r.1 := by decide
  have hothers : ∀ r ∈ blankRanges, ∀ d ∈ otherDigitRanges, r.2 < d.1 ∨ d.2 < r.1 := by decide
  rw [isBlank, Ranges.mem, any_eq_false]
  intro r hr hblank
  simp only [Bool.and_eq_true, decide_eq_true_eq] at hblank
  rw [isDigit, Bool.or_eq_true] at h
  rcases h with h | h
  · rw [isDecimal, decimalValue?, Option.isSome_map, find?_isSome] at h
    obtain ⟨z, hz, hc⟩ := h
    have := hdecimals r hr z hz
    simp only [Bool.and_eq_true, decide_eq_true_eq] at hc
    omega
  · rw [Ranges.mem, any_eq_true] at h
    obtain ⟨d, hd, hc⟩ := h
    have := hothers r hr d hd
    simp only [Bool.and_eq_true, decide_eq_true_eq] at hc
    omega

variable (h : ∀ c ∈ cs, isDigit c = true)

include h

theorem trimPadding_of_digits : trimPadding cs = cs := by
  have hdrop : ∀ {xs : List Char}, (∀ c ∈ xs, isDigit c = true) → xs.dropWhile isPadding = xs := by
    intro xs hxs
    cases xs with
    | nil => rfl
    | cons x xs =>
      refine dropWhile_cons_of_neg ?_
      simp [isPadding, isBlank_eq_false_of_isDigit (hxs x (.head _))]
  rw [trimPadding, trimOf, hdrop h, hdrop fun c hc => h c (mem_reverse.1 hc), reverse_reverse]

theorem readSign_of_digits : readSign cs = (false, cs) := by
  unfold readSign
  split
  · exact absurd (h '-' (.head _)) (by decide)
  · exact absurd (h '+' (.head _)) (by decide)
  · rfl

theorem dropUnderscores?_of_digits (before : Option Char) : dropUnderscores? before cs = some cs := by
  induction cs generalizing before with
  | nil => rfl
  | cons c cs ih =>
    obtain ⟨hc, hcs⟩ := forall_mem_cons.1 h
    rw [dropUnderscores?, ih hcs]
    · rfl
    · rintro rfl
      exact absurd hc (by decide)

/-- Whether a text of digits cannot be read as a number: one of them is no decimal digit, or there are too many. -/
def isUnreadable (cs : List Char) : Bool :=
  !cs.isEmpty && cs.all isDigit && (!cs.all isDecimal || maxDigits < cs.length)

theorem readInt?_of_digits (hne : cs ≠ []) :
    readInt? cs = if isUnreadable cs then none else some (Text.ofDecimal cs : Int) := by
  have hempty : cs.isEmpty = false := by simpa using hne
  have hall : cs.all isDigit = true := all_eq_true.2 h
  unfold readInt? isUnreadable
  rw [trimPadding_of_digits h, readSign_of_digits h]
  dsimp only
  rw [dropUnderscores?_of_digits h]
  simp [hempty, hall]

end Digits

theorem Value.index?_of_unreadable {s : String} (h : isUnreadable s.toList = true) :
    (Value.str s).index? = .error .invalidValue := by
  have hparts := h
  simp only [isUnreadable, Bool.and_eq_true, Bool.not_eq_true', isEmpty_eq_false_iff, all_eq_true] at hparts
  have hread := readInt?_of_digits hparts.1.2 hparts.1.1
  rw [h] at hread
  unfold Value.index?
  dsimp only
  rw [hread, if_neg]
  · rfl
  · simp [hparts.1.1, all_eq_true.2 hparts.1.2]

theorem Value.exists_index? {key : Value} (h : ∀ s, key = .str s → isUnreadable s.toList = false) :
    ∃ i, key.index? = .ok i := by
  cases key with
  | str s =>
    unfold Value.index?
    dsimp only
    split
    · exact ⟨none, rfl⟩
    · rename_i hdigits
      simp only [Bool.or_eq_true, List.isEmpty_iff, Bool.not_eq_true', not_or, Bool.not_eq_false, all_eq_true]
        at hdigits
      rw [readInt?_of_digits hdigits.2 hdigits.1, h s rfl]
      exact ⟨some _, rfl⟩
  | _ => exact ⟨_, rfl⟩

namespace Run

theorem outcome_ofExcept {α : Type} (f : World → Except Raised α) (w : World) : (ofExcept f).outcome w = (f w, w) := by
  unfold ofExcept
  rw [outcome_bind, outcome_get]
  dsimp only
  cases f w <;> rfl

variable {w : World} {obj key : Value}

/-- The attribute of a value with a key that is no position. -/
def named (obj : Value) : Value → Run Value
  | .str name => attributeOf obj name
  | _ => return .null

theorem attributeOf_some {name : String} {v : Value} (h : w.attribute? obj name = some v) :
    (attributeOf obj name).outcome w = (.ok v, w) := by
  unfold attributeOf
  rw [outcome_bind, outcome_get]
  dsimp only
  rw [h]
  rfl

theorem attributeOf_none {name : String} (h : w.attribute? obj name = none) :
    (attributeOf obj name).outcome w =
      (if name = "length" then return (w.sequence? obj).elim .null fun items => .int items.length
        else if name = "call" && w.isCallable obj then newObject ⟨.bound, [("fn", obj)]⟩
        else return .null : Run Value).outcome w := by
  unfold attributeOf
  rw [outcome_bind, outcome_get]
  dsimp only
  rw [h]

theorem getProperty_null (key : Value) (w : World) : (getProperty .null key).outcome w = (.ok .null, w) := rfl

theorem getProperty_dict (r : Ref) (key : Value) (w : World) :
    (getProperty (.dict r) key).outcome w =
      (if w.hashableType key then (w.lookup (w.dict r) key).map (·.getD .null) else .ok .null, w) := by
  unfold getProperty
  rw [outcome_bind, outcome_get]
  dsimp only
  split
  · rw [outcome_bind, outcome_ofExcept]
    cases w.lookup (w.dict r) key <;> rfl
  · rfl

/-- Everything but mappings is read by position first, as far as it has positions, and then by name. -/
theorem getProperty_positioned (hnull : obj ≠ .null) (hdict : ∀ r, obj ≠ .dict r) (key : Value) (w : World) :
    (getProperty obj key).outcome w =
      ((ofExcept fun _ => if (w.sequence? obj).isSome then key.index? else .ok none) >>= fun i =>
        match w.sequence? obj, i with
        | some items, some i => return item items i
        | _, _ => named obj key : Run Value).outcome w := by
  unfold getProperty named
  rw [outcome_bind, outcome_get]
  cases obj with
  | null => exact absurd rfl hnull
  | dict r => exact absurd rfl (hdict r)
  | _ => rfl

theorem getProperty_sequence {items : List Value} (h : w.sequence? obj = some items) (key : Value) :
    (getProperty obj key).outcome w = match key.index? with
      | .error e => (.error e, w)
      | .ok (some i) => (.ok (item items i), w)
      | .ok none => (named obj key).outcome w := by
  rw [getProperty_positioned (by rintro rfl; cases h) (by rintro r rfl; cases h), h, outcome_bind, outcome_ofExcept,
    Option.isSome_some, if_pos rfl]
  rcases key.index? with e | _ | i <;> rfl

theorem getProperty_other (h : w.sequence? obj = none) (hnull : obj ≠ .null) (hdict : ∀ r, obj ≠ .dict r)
    (key : Value) : (getProperty obj key).outcome w = (named obj key).outcome w := by
  rw [getProperty_positioned hnull hdict, h, outcome_bind, outcome_ofExcept]
  rfl

end Run

namespace World

variable {items : List Value}

/-- Whether a value refuses to be read with a key. -/
def refuses (w : World) : Value → Value → Bool
  | .dict _, .tuple r => !w.hashable (.tuple r)
  | obj, .str s => (w.sequence? obj).isSome && isUnreadable s.toList
  | _, _ => false

variable {w : World} {obj key v : Value}

theorem refuses_str (w : World) (obj : Value) (s : String) :
    w.refuses obj (.str s) = ((w.sequence? obj).isSome && isUnreadable s.toList) := by
  cases obj <;> rfl

theorem getProperty_of_refuses (h : w.refuses obj key = true) :
    ∃ r, (r = .mistyped ∨ r = .invalidValue) ∧ (getProperty obj key).outcome w = (.error r, w) := by
  cases key with
  | tuple t =>
    cases obj with
    | dict r =>
      have hlookup : w.lookup (w.dict r) (.tuple t) = .error .mistyped := by
        rw [lookup]
        exact if_pos h
      refine ⟨.mistyped, .inl rfl, ?_⟩
      rw [getProperty_dict, hlookup]
      rfl
    | _ => cases h
  | str s =>
    rw [refuses_str, Bool.and_eq_true, Option.isSome_iff_exists] at h
    obtain ⟨⟨items, hitems⟩, hs⟩ := h
    refine ⟨.invalidValue, .inr rfl, ?_⟩
    rw [getProperty_sequence hitems, Value.index?_of_unreadable hs]
  | _ => cases obj <;> cases h

theorem hashable_of_not_refuses {r : Ref} (hkey : w.IsData key) (htype : w.hashableType key = true)
    (h : w.refuses (.dict r) key = false) : w.hashable key = true := by
  cases key with
  | tuple t => simpa [refuses] using h
  | object o => exact htype
  | list | dict => cases htype
  | _ => rfl

theorem isData_item (h : ∀ x ∈ items, w.IsData x) (i : Int) : w.IsData (item items i) := by
  unfold item
  split
  · rcases hi : items[i.toNat]? with _ | x
    · exact .atom rfl
    · exact h x (mem_of_getElem? hi)
  · exact .atom rfl

theorem isData_sequence (hobj : w.IsData obj) (h : w.sequence? obj = some items) : ∀ x ∈ items, w.IsData x := by
  cases obj with
  | list r =>
    cases h
    obtain ⟨n, hn⟩ := hobj
    obtain ⟨m, -, hitems⟩ := list_of_nested hn
    exact fun x hx => ⟨m, hitems x hx⟩
  | tuple r =>
    cases h
    obtain ⟨n, hn⟩ := hobj
    obtain ⟨m, -, hitems⟩ := tuple_of_nested hn
    exact fun x hx => ⟨m, hitems x hx⟩
  | str s =>
    cases h
    intro x hx
    obtain ⟨c, -, rfl⟩ := mem_map.1 hx
    exact .atom rfl
  | bytes bs =>
    cases h
    intro x hx
    obtain ⟨b, -, rfl⟩ := mem_map.1 hx
    exact .atom rfl
  | _ => cases h

theorem isData_wholeAttribute {i : Int} {name : String} (h : wholeAttribute? i name = some v) : w.IsData v := by
  unfold wholeAttribute? at h
  split at h <;> cases h <;> exact .atom rfl

theorem isData_attribute (hobj : w.IsData obj) {name : String} (h : w.attribute? obj name = some v) : w.IsData v := by
  unfold attribute? at h
  split at h
  · obtain ⟨n, hn⟩ := hobj
    obtain ⟨m, -, -, hattributes⟩ := object_of_nested hn
    obtain ⟨l₁, l₂, hl, -⟩ := lookup_eq_some_iff.1 h
    exact ⟨m, hattributes (name, v) (by simp [hl])⟩
  · rename_i f
    obtain ⟨n, hn⟩ := hobj
    cases hn with
    | holds h => cases h
    | atom hf =>
      rw [List.isEmpty_iff.1 hf] at h
      cases h
  · split at h
    · cases h
      exact .atom rfl
    · split at h
      · exact isData_wholeAttribute h
      · exact isData_wholeAttribute h
      · cases h
        exact hobj
      · cases h
        exact hobj
      · cases h
        exact .atom rfl
      · cases h
        exact .atom rfl
      · cases h
        exact .atom rfl
      · cases h

/-- The result of an evaluation that only adds places: data, in the world after it. -/
def Gives (w : World) (x : Run Value) : Prop :=
  ∃ v w', x.outcome w = (.ok v, w') ∧ w.Extends w' ∧ w'.IsData v

theorem gives_pure (h : w.IsData v) : w.Gives (pure v) := ⟨v, w, rfl, .refl w, h⟩

theorem gives_newList (h : ∀ x ∈ items, w.IsData x) : w.Gives (Run.newList items) := by
  refine ⟨_, _, rfl, w.extends_newList items, ?_⟩
  have hcontents : (w.newList items).2.contents? (w.newList items).1 = some items := by simp [newList, contents?]
  exact .holds hcontents fun x hx => (h x hx).mono (w.extends_newList items)

theorem gives_newDict {entries : Entries} (h : ∀ x ∈ entries, w.IsData x.1 ∧ w.IsData x.2) :
    w.Gives (Run.newDict entries) := by
  refine ⟨_, _, rfl, w.extends_newDict entries, ?_⟩
  have hcontents : (w.newDict entries).2.contents? (w.newDict entries).1 =
      some (entries.map Prod.fst ++ entries.map Prod.snd) := by simp [newDict, contents?]
  refine .holds hcontents (forall_mem_append.2 ⟨?_, ?_⟩)
  · exact forall_mem_map.2 fun x hx => (h x hx).1.mono (w.extends_newDict entries)
  · exact forall_mem_map.2 fun x hx => (h x hx).2.mono (w.extends_newDict entries)

theorem gives_newObject {o : Object} (hkind : o.kind.computed = []) (h : ∀ a ∈ o.attributes, w.IsData a.2) :
    w.Gives (Run.newObject o) := by
  refine ⟨_, _, rfl, w.extends_newObject o, ?_⟩
  have hcontents : (w.newObject o).2.contents? (w.newObject o).1 = some (o.attributes.map Prod.snd) := by
    simp [newObject, contents?, hkind]
  exact .holds hcontents (forall_mem_map.2 fun a ha => (h a ha).mono (w.extends_newObject o))

theorem gives_attributeOf (hobj : w.IsData obj) (name : String) : w.Gives (attributeOf obj name) := by
  unfold Gives
  rcases hattribute : w.attribute? obj name with _ | v
  · rw [attributeOf_none hattribute]
    split
    · refine gives_pure ?_
      cases w.sequence? obj <;> exact .atom rfl
    · split
      · exact gives_newObject rfl (forall_mem_singleton.2 hobj)
      · exact gives_pure (.atom rfl)
  · rw [attributeOf_some hattribute]
    exact gives_pure (isData_attribute hobj hattribute)

theorem gives_named (hobj : w.IsData obj) (key : Value) : w.Gives (named obj key) := by
  cases key with
  | str name => exact gives_attributeOf hobj name
  | _ => exact gives_pure (.atom rfl)

theorem gives_getProperty (hobj : w.IsData obj) (hkey : w.IsData key) (h : w.refuses obj key = false) :
    w.Gives (getProperty obj key) := by
  unfold Gives
  by_cases hnull : obj = .null
  · subst hnull
    rw [getProperty_null]
    exact gives_pure (.atom rfl)
  by_cases hdict : ∃ r, obj = .dict r
  · obtain ⟨r, rfl⟩ := hdict
    rw [getProperty_dict]
    split
    · rename_i htype
      obtain ⟨o, ho⟩ := lookup_of_hashable (hashable_of_not_refuses hkey htype h) (w.dict r)
      rw [ho]
      rcases o with _ | v
      · exact gives_pure (.atom rfl)
      · obtain ⟨e, he, rfl⟩ := mem_of_lookup ho
        obtain ⟨n, hn⟩ := hobj
        obtain ⟨m, -, hentries⟩ := dict_of_nested hn
        exact gives_pure ⟨m, (hentries e he).2⟩
    · exact gives_pure (.atom rfl)
  · rcases hitems : w.sequence? obj with _ | items
    · rw [getProperty_other hitems hnull fun r hr => hdict ⟨r, hr⟩]
      exact gives_named hobj key
    · have hreadable : ∀ s, key = .str s → isUnreadable s.toList = false := by
        rintro s rfl
        rwa [refuses_str, hitems, Option.isSome_some, Bool.true_and] at h
      obtain ⟨i, hi⟩ := Value.exists_index? hreadable
      rw [getProperty_sequence hitems, hi]
      rcases i with _ | i
      · exact gives_named hobj key
      · exact gives_pure (isData_item (isData_sequence hobj hitems) i)

section Missing

/-- A value has nothing to read under a key. -/
inductive Lacks (w : World) : Value → Value → Prop where
  | null (key : Value) : Lacks w .null key
  | missing {r : Ref} {key : Value} (hkey : w.hashable key = true)
      (h : ∀ e ∈ w.dict r, e.1 ≠ key ∧ w.equal e.1 key = .ok false) : Lacks w (.dict r) key
  | unhashable {r : Ref} {key : Value} (h : w.hashableType key = false) : Lacks w (.dict r) key
  | outOfRange {obj key : Value} {items : List Value} {i : Int} (hobj : w.sequence? obj = some items)
      (hkey : key.index? = .ok (some i)) (hi : i < 0 ∨ items.length ≤ i) : Lacks w obj key
  /-- The key is neither a position nor a name. -/
  | unnamed {obj key : Value} (hobj : ∀ r, obj ≠ .dict r) (hindex : w.sequence? obj = none ∨ key.index? = .ok none)
      (hkey : ∀ s, key ≠ .str s) : Lacks w obj key
  | noAttribute {obj : Value} {name : String} (hobj : ∀ r, obj ≠ .dict r)
      (hindex : w.sequence? obj = none ∨ (Value.str name).index? = .ok none)
      (h : w.attribute? obj name = none) (hcomputed : ∀ r, obj = .object r → w.computing? r name = none)
      (hname : name ∉ ["length", "call"]) : Lacks w obj (.str name)

theorem item_of_outOfRange {items : List Value} {i : Int} (h : i < 0 ∨ items.length ≤ i) : item items i = .null := by
  unfold item
  split
  · rw [getElem?_eq_none (by omega)]
    rfl
  · rfl

theorem lookup_of_missing {entries : Entries} (hkey : w.hashable key = true)
    (h : ∀ e ∈ entries, e.1 ≠ key ∧ w.equal e.1 key = .ok false) : w.lookup entries key = .ok none := by
  have hnone : lookupBy (w.equalWithin w.depth) key entries = some none := by
    induction entries with
    | nil => rfl
    | cons e rest ih =>
      obtain ⟨⟨hne, he⟩, hrest⟩ := forall_mem_cons.1 h
      have hdiffer : w.equalWithin w.depth e.1 key = some false := by
        unfold World.equal at he
        split at he <;> cases he
        assumption
      rw [lookupBy, hdiffer, ← ih hrest]
      change (if e.1 = key || false then some (some e.2) else _) = _
      rw [Bool.or_false, decide_eq_false hne]
      rfl
  rw [lookup, hkey, hnone]
  rfl

theorem named_of_unnamed (hkey : ∀ s, key ≠ .str s) : (named obj key).outcome w = (.ok .null, w) := by
  cases key with
  | str s => exact absurd rfl (hkey s)
  | _ => rfl

theorem getProperty_named (hobj : ∀ r, obj ≠ .dict r) (hnull : obj ≠ .null)
    (hindex : w.sequence? obj = none ∨ key.index? = .ok none) :
    (getProperty obj key).outcome w = (named obj key).outcome w := by
  rcases hitems : w.sequence? obj with _ | items
  · exact getProperty_other hitems hnull hobj key
  · rw [getProperty_sequence hitems, hindex.resolve_left (by rw [hitems]; nofun)]

theorem getProperty_of_lacks (h : w.Lacks obj key) : (getProperty obj key).outcome w = (.ok .null, w) := by
  cases h with
  | null => rfl
  | missing hkey h =>
    rw [getProperty_dict, lookup_of_missing hkey h]
    split <;> rfl
  | unhashable h =>
    rw [getProperty_dict, h]
    rfl
  | outOfRange hobj hkey hi =>
    rw [getProperty_sequence hobj, hkey, ← item_of_outOfRange hi]
  | unnamed hobj hindex hkey =>
    by_cases hnull : obj = .null
    · rw [hnull]
      rfl
    · rw [getProperty_named hobj hnull hindex, named_of_unnamed hkey]
  | @noAttribute _ name hobj hindex h _ hname =>
    by_cases hnull : obj = .null
    · rw [hnull]
      rfl
    · simp only [mem_cons, not_mem_nil, or_false, not_or] at hname
      rw [getProperty_named hobj hnull hindex]
      change (attributeOf obj name).outcome w = _
      rw [attributeOf_none h, if_neg hname.1, if_neg (by simp [hname.2])]
      rfl

/-- Where no class computes what is read, the host takes no part in it. -/
theorem outcome_operate_get (host : Host)
    (h : ∀ r name, obj = .object r → key = .str name → w.computing? r name = none) :
    (host.operate .get [obj, key]).outcome w = (getProperty obj key).outcome w := by
  have hnone : host.accessor? w .get [obj, key] = none := by
    unfold Host.accessor?
    split
    · rename_i hargs
      cases hargs
      rw [h _ _ rfl rfl]
      rfl
    · rename_i hop _
      cases hop
    · rfl
  rw [Host.outcome_operate, hnone]
  rfl

theorem operate_get_of_refuses (host : Host) (h : w.refuses obj key = true) :
    ∃ r, (r = .mistyped ∨ r = .invalidValue) ∧ (host.operate .get [obj, key]).outcome w = (.error r, w) := by
  rw [outcome_operate_get host]
  · exact getProperty_of_refuses h
  · rintro r name rfl rfl
    cases h

theorem computing?_eq_none {r : Ref} {name : String} (h : name ∉ (w.object r).kind.computed) :
    w.computing? r name = none := by
  unfold computing?
  split
  · rename_i cls hcls
    rw [hcls] at h
    have hcomputed : name ∉ cls.computed := h
    exact if_neg (by simpa using hcomputed)
  · rfl

theorem computing?_of_isData {r : Ref} (h : w.IsData (.object r)) (name : String) : w.computing? r name = none := by
  obtain ⟨n, hn⟩ := h
  obtain ⟨m, -, hkind, -⟩ := object_of_nested hn
  exact computing?_eq_none (by rw [hkind]; exact not_mem_nil)

theorem operate_get_of_lacks (host : Host) (h : w.Lacks obj key) :
    (host.operate .get [obj, key]).outcome w = (.ok .null, w) := by
  rw [outcome_operate_get host, getProperty_of_lacks h]
  rintro r name rfl rfl
  cases h with
  | outOfRange hobj => cases hobj
  | unnamed _ _ hkey => exact absurd rfl (hkey name)
  | noAttribute _ _ _ hcomputed _ => exact hcomputed r rfl

end Missing

end World

end NullSafe
