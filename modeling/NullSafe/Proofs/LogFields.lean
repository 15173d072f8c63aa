import Mathlib.Data.List.Nodup
import NullSafe.Proofs.Reuse

/-! # The fields of log records

A field with the name of an attribute that every record has goes under a name of its own, so that it does not replace
the attribute. A record that is emitted has every field that it is given, unless a field with such a name and a field
with the name that it goes under have different values. There is no record if a field is called `self` or `message`.
-/

namespace NullSafe.Log

open Writing List

section Adding

variable {skip : String → Bool} {rename : String → String} {fields added : Fields}

/-- Adds a field under another name, unless it is skipped or the name is taken. -/
def addField (skip : String → Bool) (rename : String → String) (fields : Fields) (f : String × Value) : Fields :=
  if skip f.1 || fields.any (·.1 = rename f.1) then fields else fields ++ [(rename f.1, f.2)]

/-- The fields that are not skipped, under their other names. -/
def renamed (skip : String → Bool) (rename : String → String) (added : Fields) : Fields :=
  (added.filter fun f => !skip f.1).map fun f => (rename f.1, f.2)

theorem recordFields_eq (w : World) (x : Extras) : recordFields w x =
    x.fields.foldl (addField passedNames.contains fieldName) (mappingFields w (x.fields.lookup "extra")) := rfl

theorem fields_withContext (r : Record) (context : Fields) :
    (r.withContext context).fields = context.foldl (addField recordAttributes.contains id) r.fields := rfl

/-- Of fields that come to have one name the first is kept. -/
theorem lookup_foldl_addField (n : String) : (added.foldl (addField skip rename) fields).lookup n =
    (fields.lookup n).or ((renamed skip rename added).lookup n) := by
  induction added generalizing fields with
  | nil => simp [renamed]
  | cons f rest ih =>
    rw [foldl_cons, ih]
    cases hskip : skip f.1 with
    | true => simp [addField, renamed, hskip]
    | false =>
      have hrenamed : renamed skip rename (f :: rest) = (rename f.1, f.2) :: renamed skip rename rest := by
        simp [renamed, hskip]
      rw [hrenamed, lookup_cons]
      cases htaken : fields.any (·.1 = rename f.1) with
      | true =>
        have hadd : addField skip rename fields f = fields := by simp [addField, htaken]
        have hsome : (fields.lookup (rename f.1)).isSome := by
          obtain ⟨g, hg, hname⟩ := any_eq_true.1 htaken
          exact lookup_isSome_iff.2 ⟨g, hg, beq_iff_eq.2 (of_decide_eq_true hname).symm⟩
        rw [hadd]
        by_cases hn : n = rename f.1
        · obtain ⟨v, hv⟩ := Option.isSome_iff_exists.1 hsome
          rw [hn, hv, Option.some_or, Option.some_or]
        · rw [beq_eq_false_iff_ne.2 hn]
      | false =>
        have hadd : addField skip rename fields f = fields ++ [(rename f.1, f.2)] := by simp [addField, hskip, htaken]
        rw [hadd, lookup_append, Option.or_assoc, lookup_cons, lookup_nil]
        cases n == rename f.1 <;> rfl

end Adding

section Names

variable {n : String}

theorem fieldName_of_mem (h : n ∈ standardNames) : fieldName n = "field_" ++ n :=
  if_pos (contains_iff_mem.2 h)

theorem fieldName_of_notMem (h : n ∉ standardNames) : fieldName n = n :=
  if_neg fun hn => h (contains_iff_mem.1 hn)

theorem field_notMem (n : String) : "field_" ++ n ∉ "message" :: standardNames := by
  have hstart : ∀ m ∈ "message" :: standardNames, ¬ "field_".toList <+: m.toList := by decide
  exact fun h => hstart _ h ⟨n.toList, (String.toList_append ..).symm⟩

theorem message_notMem : "message" ∉ standardNames := by decide

theorem fieldName_field (n : String) : fieldName ("field_" ++ n) = "field_" ++ n :=
  fieldName_of_notMem fun h => field_notMem n (.tail _ h)

theorem recordAttributes_subset : recordAttributes ⊆ standardNames := subset_append_left ..

theorem fieldName_notMem (n : String) : fieldName n ∉ standardNames := by
  by_cases hn : n ∈ standardNames
  · rw [fieldName_of_mem hn]
    exact fun h => field_notMem n (.tail _ h)
  · rwa [fieldName_of_notMem hn]

theorem fieldName_eq_message_iff : fieldName n = "message" ↔ n = "message" := by
  constructor
  · intro h
    by_cases hn : n ∈ standardNames
    · rw [fieldName_of_mem hn] at h
      exact absurd (h ▸ .head _) (field_notMem n)
    · rwa [fieldName_of_notMem hn] at h
  · rintro rfl
    exact fieldName_of_notMem message_notMem

/-- Of the names that a record refuses only one is left when fields are named anew. -/
theorem clashes_fieldName_iff : clashes (fieldName n) = true ↔ n = "message" := by
  have hasctime : "asctime" ∈ standardNames := by decide
  have hne : fieldName n ≠ "asctime" := fun h => fieldName_notMem n (h ▸ hasctime)
  have hattribute : fieldName n ∉ recordAttributes := fun h => fieldName_notMem n (recordAttributes_subset h)
  rw [clashes]
  simp [hne, hattribute, fieldName_eq_message_iff]

/-- Two fields go under one name only if one has a standard name and the other has the name that this goes under. -/
theorem fieldName_eq_iff {m : String} : fieldName m = fieldName n ↔
    m = n ∨ (m ∈ standardNames ∧ n = "field_" ++ m) ∨ (n ∈ standardNames ∧ m = "field_" ++ n) := by
  constructor
  · intro h
    by_cases hm : m ∈ standardNames <;> by_cases hn : n ∈ standardNames
    · rw [fieldName_of_mem hm, fieldName_of_mem hn] at h
      exact .inl (String.append_right_inj _ |>.1 h)
    · rw [fieldName_of_mem hm, fieldName_of_notMem hn] at h
      exact .inr (.inl ⟨hm, h.symm⟩)
    · rw [fieldName_of_notMem hm, fieldName_of_mem hn] at h
      exact .inr (.inr ⟨hn, h⟩)
    · rw [fieldName_of_notMem hm, fieldName_of_notMem hn] at h
      exact .inl h
  · rintro (rfl | ⟨hm, rfl⟩ | ⟨hn, rfl⟩)
    · rfl
    · rw [fieldName_of_mem hm, fieldName_field]
    · rw [fieldName_of_mem hn, fieldName_field]

end Names

section Records

variable {w : World} {x : Extras} {n : String}

/-- The names of a call that are no fields: those that say how the record is made, and the parameters of the methods. -/
def reservedNames : List String := passedNames ++ ["msg", "level"]

/-- No field has a name that is none for fields, and no two have the same. -/
structure Extras.Proper (x : Extras) : Prop where
  distinct : (x.fields.map Prod.fst).Nodup
  unreserved : ∀ f ∈ x.fields, f.1 ∉ reservedNames

theorem Extras.Proper.lookup_eq_none (hx : x.Proper) (hn : n ∈ reservedNames) : x.fields.lookup n = none := by
  refine lookup_eq_none_iff.2 fun f hf => bne_iff_ne.2 ?_
  rintro rfl
  exact hx.unreserved f hf hn

theorem Extras.Proper.lookup_recordFields (hx : x.Proper) (w : World) (n : String) :
    (recordFields w x).lookup n = (x.fields.map fun f => (fieldName f.1, f.2)).lookup n := by
  have hkept : x.fields.filter (fun f => !passedNames.contains f.1) = x.fields := by
    refine filter_eq_self.2 fun f hf => ?_
    have hpassed : f.1 ∉ passedNames := fun h => hx.unreserved f hf (mem_append_left _ h)
    simp [hpassed]
  rw [recordFields_eq, hx.lookup_eq_none (by decide), lookup_foldl_addField, renamed, hkept]
  rfl

theorem Extras.Proper.any_clashes_iff (hx : x.Proper) :
    (recordFields w x).any (clashes ·.1) = true ↔ ∃ f ∈ x.fields, f.1 = "message" := by
  have hname : ∀ n, (∃ f ∈ recordFields w x, n == f.1) ↔ ∃ f ∈ x.fields, n = fieldName f.1 := by
    intro n
    rw [← lookup_isSome_iff, hx.lookup_recordFields, lookup_isSome_iff]
    simp only [mem_map, beq_iff_eq, exists_exists_and_eq_and]
  rw [any_eq_true]
  constructor
  · rintro ⟨f, hf, hclash⟩
    obtain ⟨g, hg, hfg⟩ := (hname f.1).1 ⟨f, hf, beq_self_eq_true _⟩
    rw [hfg, clashes_fieldName_iff] at hclash
    exact ⟨g, hg, hclash⟩
  · rintro ⟨g, hg, hmessage⟩
    obtain ⟨f, hf, hgf⟩ := (hname (fieldName g.1)).2 ⟨g, hg, rfl⟩
    refine ⟨f, hf, ?_⟩
    rw [← beq_iff_eq.1 hgf]
    exact clashes_fieldName_iff.2 hmessage

end Records

section Calls

variable {names : List String}

/-- A call of a logger: with the method of a level, or with the method that is given the level. -/
inductive Call where
  | method (name : String) (msg : Value)
  | log (level msg : Value)

namespace Call

def write (c : Call) (w : World) (logger : Value) (x : Extras) : Writing Unit :=
  match c with
  | method name msg => logWith w logger name msg x
  | log level msg => logWith w logger "log" level { x with fields := ("msg", msg) :: x.fields }

def level? (c : Call) (l : Log) : Option Level :=
  match c with
  | method name _ => (methods.lookup name).bind fun i => if l.isEnabled i then some (.number i) else none
  | log level _ => (l.enabledLevel level).toOption.join

def message : Call → Value
  | method _ msg | log _ msg => msg

/-- What the record of a call says about an error. The method for errors being handled says at least that there is
one. -/
def trouble (c : Call) (x : Extras) : Option Trouble :=
  match c with
  | method name _ => if name = "exception" then x.trouble.or (some .unknown) else x.trouble
  | log _ _ => x.trouble

end Call

variable {w : World} {l : Log} {x : Extras} {logger : Value} {name : String} {level : Level} {c : Call}

theorem Extras.hasOne_iff : x.hasOne names = true ↔ ∃ f ∈ x.fields, f.1 ∈ names := by
  simp only [hasOne, any_eq_true, contains_iff_mem]

theorem Extras.Proper.hasOne_cons (hx : x.Proper) (h : names ⊆ reservedNames) (n : String) :
    x.hasOne (n :: names) = x.hasOne [n] := by
  refine Bool.eq_iff_iff.2 ?_
  rw [hasOne_iff, hasOne_iff]
  refine exists_congr fun f => and_congr_right fun hf => ?_
  rw [mem_cons, mem_singleton]
  exact or_iff_left fun hmem => hx.unreserved f hf (h hmem)

theorem Extras.Proper.hasOne_eq_false (hx : x.Proper) (h : names ⊆ reservedNames) : x.hasOne names = false := by
  refine Bool.eq_false_iff.2 fun hone => ?_
  obtain ⟨f, hf, hmem⟩ := hasOne_iff.1 hone
  exact hx.unreserved f hf (h hmem)

def recordOf (w : World) (l : Log) (logger : String) (level : Level) (msg : Value) (x : Extras) : Record where
  logger := .str logger
  level := level
  levelName := .str level.name
  template := msg
  created := .float l.now
  millis := .int (thousandths l.now)
  fields := recordFields w x
  trouble := x.trouble

theorem outcome_logAt (hx : x.Proper) {v : Value} (hlevel : l.enabledLevel v = .ok (some level)) (msg : Value)
    (t : Option Trouble) : (logAt w name v msg { x with trouble := t }).outcome l =
      if (recordFields w x).any (clashes ·.1) then (.error .noKey, l)
      else (.ok (), l.emit w (recordOf w l name level msg { x with trouble := t })) := by
  have htrouble : troubleOf w { x with trouble := t } = t := by
    rw [troubleOf, hx.lookup_eq_none (by decide)]
    cases t <;> rfl
  rw [logAt, outcome_bind, outcome_get]
  dsimp only
  rw [hlevel]
  dsimp only
  rw [logEnabled, hx.lookup_eq_none (by decide), htrouble,
    show recordFields w { x with trouble := t } = recordFields w x from rfl]
  cases hclash : (recordFields w x).any (clashes ·.1) with
  | true =>
    simp only [hclash]
    rfl
  | false =>
    simp only [hclash]
    rfl

theorem Call.trouble_method (m : String) (msg : Value) (h : x.hasOne ["exc_info"] = false) :
    (if m = "exception" && x.trouble.isNone && !x.hasOne ["exc_info"] then { x with trouble := some .unknown } else x) =
      { x with trouble := (Call.method m msg).trouble x } := by
  rw [h, trouble]
  obtain ⟨fields, _ | t⟩ := x <;> by_cases hm : m = "exception" <;> simp [hm]

/-- How a call ends. -/
theorem Call.outcome_write (hx : x.Proper) (hlogger : loggerName w logger = .ok name)
    (hlevel : c.level? l = some level) : (c.write w logger x).outcome l =
      if x.hasOne ["self"] then (.error .mistyped, l)
      else if (recordFields w x).any (clashes ·.1) then (.error .noKey, l)
      else (.ok (), l.emit w (recordOf w l name level c.message { x with trouble := c.trouble x })) := by
  cases c with
  | method m msg =>
    obtain ⟨i, hm, hi⟩ := Option.bind_eq_some_iff.1 hlevel
    obtain ⟨henabled, hi⟩ := Option.ite_none_right_eq_some.1 hi
    cases hi
    have henabled : l.enabledLevel (.int i) = .ok (some (.number i)) := by rw [enabledLevel, if_pos henabled]
    rw [write, logWith, outcome_bind, outcome_lift, hlogger]
    dsimp only
    rw [hm]
    dsimp only
    rw [hx.hasOne_cons (by decide), trouble_method m msg (hx.hasOne_eq_false (by decide))]
    cases x.hasOne ["self"] with
    | true => rfl
    | false =>
      rw [if_neg Bool.false_ne_true, if_neg Bool.false_ne_true]
      exact outcome_logAt hx henabled msg _
  | log v msg =>
    have henabled : l.enabledLevel v = .ok (some level) := by
      rw [level?] at hlevel
      rcases hv : l.enabledLevel v with e | o <;> rw [hv] at hlevel
      · cases hlevel
      · exact congrArg Except.ok hlevel
    have hwithout : ({ x with fields := ("msg", msg) :: x.fields } : Extras).without "msg" =
        { x with trouble := x.trouble } := by
      have hkept : x.fields.filter (fun f => f.1 ≠ "msg") = x.fields := by
        refine filter_eq_self.2 fun f hf => decide_eq_true fun hmsg => ?_
        exact hx.unreserved f hf (hmsg ▸ by decide)
      rw [Extras.without, filter_cons_of_neg (by simp), hkept]
    have hself : ({ x with fields := ("msg", msg) :: x.fields } : Extras).hasOne ["self", "level"] =
        x.hasOne ["self"] := hx.hasOne_cons (by decide) "self"
    rw [write, logWith, outcome_bind, outcome_lift, hlogger]
    dsimp only
    rw [show methods.lookup "log" = none by decide]
    dsimp only
    rw [if_pos rfl, lookup_cons_self, hself, hwithout]
    cases x.hasOne ["self"] with
    | true => rfl
    | false =>
      rw [if_neg Bool.false_ne_true]
      exact outcome_logAt hx henabled msg _

end Calls

section Emitting

variable {w : World} {l : Log} {x : Extras} {logger : Value} {name : String} {level : Level} {c : Call}

/-- A record as it is emitted: one of the logger above all others takes the context as fields. -/
def emitted (l : Log) (r : Record) : Record :=
  if r.logger = .str baseName then r.withContext l.contextFields else r

theorem entries_emit (w : World) (l : Log) (r : Record) :
    (l.emit w r).entries = l.entries ++ [l.entryOf w (l.emitted r)] := by
  obtain ⟨_, _, h⟩ := exists_foldl_deliver w { l with entries := l.entries ++ [l.entryOf w (l.emitted r)] }
    (l.emitted r) l.handlers
  exact congrArg entries h

theorem lookup_emitted {r : Record} {n : String} (h : (r.fields.lookup n).isSome) :
    (l.emitted r).fields.lookup n = r.fields.lookup n := by
  unfold emitted
  split
  · rw [fields_withContext, lookup_foldl_addField, Option.or_of_isSome h]
  · rfl

theorem lookup_emitted_of_mem {r : Record} {n : String} (hn : n ∈ recordAttributes) (h : r.fields.lookup n = none) :
    (l.emitted r).fields.lookup n = none := by
  unfold emitted
  split
  · rw [fields_withContext, lookup_foldl_addField, h, Option.none_or]
    refine lookup_eq_none_iff.2 fun f hf => bne_iff_ne.2 ?_
    rintro rfl
    obtain ⟨g, hg, rfl⟩ := mem_map.1 hf
    have hkept : g.1 ∉ recordAttributes := by simpa using (mem_filter.1 hg).2
    exact hkept hn
  · exact h

/-- A call emits one record. The attributes that every record has are as the call says, and all fields are there. -/
structure EmitsAll (w : World) (l : Log) (r : Record) (fields : Fields) (ended : Except Raised Unit × Log) : Prop where
  returns : ended = (.ok (), l.emit w r)
  once : ended.2.entries = l.entries ++ [l.entryOf w (l.emitted r)]
  /-- No field replaces an attribute. -/
  attributes : ∀ n ∈ recordAttributes, (l.emitted r).fields.lookup n = none
  present : ∀ f ∈ fields, (l.emitted r).fields.lookup (fieldName f.1) = some f.2

/-- A field with a standard name, and a field with the name that it goes under, have the same value. -/
def Agree (fields : Fields) : Prop :=
  ∀ n ∈ standardNames, ∀ v v', (n, v) ∈ fields → ("field_" ++ n, v') ∈ fields → v = v'

namespace Extras.Proper

variable (hx : x.Proper)
include hx

theorem eq_of_fieldName_eq (h : Agree x.fields) {f g : String × Value} (hf : f ∈ x.fields) (hg : g ∈ x.fields)
    (hname : fieldName f.1 = fieldName g.1) : f.2 = g.2 := by
  rcases fieldName_eq_iff.1 hname with hsame | ⟨hstandard, hfield⟩ | ⟨hstandard, hfield⟩
  · rw [inj_on_of_nodup_map hx.distinct hf hg hsame]
  · exact h f.1 hstandard f.2 g.2 hf (hfield ▸ hg)
  · exact (h g.1 hstandard g.2 f.2 hg (hfield ▸ hf)).symm

/-- A record has a value under the name of each field: that of a field which goes under this name. -/
theorem exists_lookup_fieldName (w : World) {f : String × Value} (hf : f ∈ x.fields) :
    ∃ g ∈ x.fields, fieldName g.1 = fieldName f.1 ∧ (recordFields w x).lookup (fieldName f.1) = some g.2 := by
  have hsome : ((x.fields.map fun f => (fieldName f.1, f.2)).lookup (fieldName f.1)).isSome :=
    lookup_isSome_iff.2 ⟨_, mem_map_of_mem hf, beq_self_eq_true _⟩
  obtain ⟨v, hv⟩ := Option.isSome_iff_exists.1 hsome
  obtain ⟨before, after, hsplit, -⟩ := lookup_eq_some_iff.1 hv
  have hmem : (fieldName f.1, v) ∈ x.fields.map fun f => (fieldName f.1, f.2) := by simp [hsplit]
  obtain ⟨g, hg, hgv⟩ := mem_map.1 hmem
  obtain ⟨hname, rfl⟩ := Prod.mk.inj hgv
  exact ⟨g, hg, hname, by rw [hx.lookup_recordFields, hv]⟩

/-- All fields are on the record exactly if those that go under one name have the same value. -/
theorem lookup_fieldName_iff (w : World) :
    (∀ f ∈ x.fields, (recordFields w x).lookup (fieldName f.1) = some f.2) ↔ Agree x.fields := by
  constructor
  · intro h n hn v v' hv hv'
    have hvalue := h _ hv
    have hvalue' := h _ hv'
    rw [fieldName_field] at hvalue'
    rw [fieldName_of_mem hn, hvalue'] at hvalue
    exact (Option.some.inj hvalue).symm
  · intro h f hf
    obtain ⟨g, hg, hname, hlookup⟩ := hx.exists_lookup_fieldName w hf
    rw [hlookup, hx.eq_of_fieldName_eq h hg hf hname]

theorem lookup_attribute {n : String} (hn : n ∈ recordAttributes) : (recordFields w x).lookup n = none := by
  rw [hx.lookup_recordFields]
  refine lookup_eq_none_iff.2 fun f hf => bne_iff_ne.2 ?_
  rintro rfl
  obtain ⟨g, -, rfl⟩ := mem_map.1 hf
  exact fieldName_notMem g.1 (recordAttributes_subset hn)

end Extras.Proper

namespace Call

variable (hx : x.Proper) (hlogger : loggerName w logger = .ok name) (hlevel : c.level? l = some level)
include hx hlogger hlevel

theorem outcome_of_self (h : ∃ f ∈ x.fields, f.1 = "self") :
    (c.write w logger x).outcome l = (.error .mistyped, l) := by
  obtain ⟨f, hf, hname⟩ := h
  rw [outcome_write hx hlogger hlevel, if_pos (Extras.hasOne_iff.2 ⟨f, hf, mem_singleton.2 hname⟩)]

theorem outcome_of_ne_self (h : ∀ f ∈ x.fields, f.1 ≠ "self") : (c.write w logger x).outcome l =
    if (recordFields w x).any (clashes ·.1) then (.error .noKey, l)
    else (.ok (), l.emit w (recordOf w l name level c.message { x with trouble := c.trouble x })) := by
  rw [outcome_write hx hlogger hlevel, if_neg]
  intro hone
  obtain ⟨f, hf, hname⟩ := Extras.hasOne_iff.1 hone
  exact h f hf (mem_singleton.1 hname)

theorem outcome_of_message (hself : ∀ f ∈ x.fields, f.1 ≠ "self") (h : ∃ f ∈ x.fields, f.1 = "message") :
    (c.write w logger x).outcome l = (.error .noKey, l) := by
  rw [outcome_of_ne_self hx hlogger hlevel hself, if_pos (hx.any_clashes_iff.2 h)]

theorem outcome_of_names (h : ∀ f ∈ x.fields, f.1 ≠ "self" ∧ f.1 ≠ "message") : (c.write w logger x).outcome l =
    (.ok (), l.emit w (recordOf w l name level c.message { x with trouble := c.trouble x })) := by
  rw [outcome_of_ne_self hx hlogger hlevel fun f hf => (h f hf).1, if_neg]
  intro hany
  obtain ⟨f, hf, hname⟩ := hx.any_clashes_iff.1 hany
  exact (h f hf).2 hname

theorem names_of_returns {l' : Log} (h : (c.write w logger x).outcome l = (.ok (), l')) :
    ∀ f ∈ x.fields, f.1 ≠ "self" ∧ f.1 ≠ "message" := by
  have hself : ∀ f ∈ x.fields, f.1 ≠ "self" := by
    intro f hf hname
    rw [outcome_of_self hx hlogger hlevel ⟨f, hf, hname⟩] at h
    cases h
  refine fun f hf => ⟨hself f hf, fun hname => ?_⟩
  rw [outcome_of_message hx hlogger hlevel hself ⟨f, hf, hname⟩] at h
  cases h

end Call

/-- How a call with fields ends. -/
structure HandlesFields (w : World) (l : Log) (r : Record) (fields : Fields) (ended : Except Raised Unit × Log) :
    Prop where
  emitsAll_iff : EmitsAll w l r fields ended ↔ (∀ f ∈ fields, f.1 ≠ "self" ∧ f.1 ≠ "message") ∧ Agree fields
  self : (∃ f ∈ fields, f.1 = "self") → ended = (.error .mistyped, l)
  message : (∀ f ∈ fields, f.1 ≠ "self") → (∃ f ∈ fields, f.1 = "message") → ended = (.error .noKey, l)
  /-- Of two fields that go under one name the record has the first. -/
  first : (∀ f ∈ fields, f.1 ≠ "self" ∧ f.1 ≠ "message") → ended = (.ok (), l.emit w r) ∧
    ∀ n, r.fields.lookup n = (fields.map fun f => (fieldName f.1, f.2)).lookup n

/-- A call emits its record with all of its fields unless a name is refused or two fields go under one name. -/
theorem handlesFields_write (hx : x.Proper) (hlogger : loggerName w logger = .ok name)
    (hlevel : c.level? l = some level) :
    HandlesFields w l (recordOf w l name level c.message { x with trouble := c.trouble x }) x.fields
      ((c.write w logger x).outcome l) where
  emitsAll_iff := by
    have hlookup {f : String × Value} (hf : f ∈ x.fields) :
        (l.emitted (recordOf w l name level c.message { x with trouble := c.trouble x })).fields.lookup
          (fieldName f.1) = (recordFields w x).lookup (fieldName f.1) := by
      obtain ⟨g, -, -, hlookup⟩ := hx.exists_lookup_fieldName w hf
      exact lookup_emitted (Option.isSome_iff_exists.2 ⟨g.2, hlookup⟩)
    constructor
    · refine fun h => ⟨Call.names_of_returns hx hlogger hlevel h.returns, (hx.lookup_fieldName_iff w).1 fun f hf => ?_⟩
      rw [← hlookup hf, h.present f hf]
    · rintro ⟨hnames, hagree⟩
      have hreturns := Call.outcome_of_names hx hlogger hlevel hnames
      refine ⟨hreturns, ?_, fun n hn => lookup_emitted_of_mem hn (hx.lookup_attribute hn), fun f hf => ?_⟩
      · rw [hreturns]
        exact entries_emit ..
      · rw [hlookup hf]
        exact (hx.lookup_fieldName_iff w).2 hagree f hf
  self := Call.outcome_of_self hx hlogger hlevel
  message := Call.outcome_of_message hx hlogger hlevel
  first h := ⟨Call.outcome_of_names hx hlogger hlevel h, hx.lookup_recordFields w⟩

/-- A log that emits records from the lowest of the usual levels up. -/
def verbose : Log := { level := .number 10 }

def greeting : Call := .method "info" (.str "hi")

theorem level_greeting : greeting.level? verbose = some (.number 20) := by decide

def argsAndEvent : Extras := { fields := [("args", .int 1), ("event", .str "greeted")] }

theorem proper_argsAndEvent : argsAndEvent.Proper := ⟨by decide, by decide⟩

theorem handlesFields_argsAndEvent :
    argsAndEvent.Proper ∧ loggerName {} .null = .ok baseName ∧ greeting.level? verbose = some (.number 20) ∧
      HandlesFields {} verbose (recordOf {} verbose baseName (.number 20) (.str "hi") argsAndEvent) argsAndEvent.fields
        ((greeting.write {} .null argsAndEvent).outcome verbose) :=
  ⟨proper_argsAndEvent, rfl, level_greeting, handlesFields_write proper_argsAndEvent rfl level_greeting⟩

def messageField : Extras := { fields := [("message", .int 1)] }

theorem proper_messageField : messageField.Proper := ⟨by decide, by decide⟩

/-- A field `message` is refused, and so no record is emitted that has it. -/
theorem not_emitsAll_messageField :
    messageField.Proper ∧ loggerName {} .null = .ok baseName ∧ greeting.level? verbose = some (.number 20) ∧
      ¬ ∃ r, EmitsAll {} verbose r messageField.fields ((greeting.write {} .null messageField).outcome verbose) := by
  refine ⟨proper_messageField, rfl, level_greeting, ?_⟩
  rintro ⟨r, h⟩
  have hended : (greeting.write {} .null messageField).outcome verbose = (.error .noKey, verbose) :=
    Call.outcome_of_message proper_messageField rfl level_greeting (by decide) (by decide)
  rw [hended] at h
  cases h.returns

end Emitting

end NullSafe.Log
