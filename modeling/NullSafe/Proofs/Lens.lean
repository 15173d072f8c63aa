import NullSafe.Proofs.Outcomes
import NullSafe.Proofs.Paths
import NullSafe.Proofs.Reading

/-! # Getting and setting what a path leads to

Along distinct mappings and objects, the function that assigns to a path and the one that reads it make a lens: what was
assigned is read, and nothing else changes. A path that breaks off is not assigned to, and nothing changes. This is for
attributes that objects hold: not for those that their class computes, nor for special ones, which come with the class.
-/

namespace NullSafe

open Surface List Direct Operation

section Reading

/-- The names of the attributes that values have from their class. -/
def isSpecial (name : String) : Bool :=
  let marked (cs : List Char) : Bool := cs.take 2 = ['_', '_']
  marked name.toList && marked name.toList.reverse

/-- What is read from a value by a name is what it holds: its class has no say in it. -/
def World.IsPlain (w : World) : Value → String → Prop
  | .null, _ | .dict _, _ => True
  | .object r, n => (w.object r).kind ≠ .window ∧ n ∉ (w.object r).kind.computed ∧ isSpecial n = false
  | _, _ => False

/-- Reading names one after the other, from a value on, ends with a value. -/
inductive Leads : World → Value → List String → Value → World → Prop where
  | nil {w v} : Leads w v [] v w
  | cons {w w₁ w' obj next v n ns} (hplain : w.IsPlain obj n)
      (hread : (Run.getProperty obj (.str n)).outcome w = (.ok next, w₁)) (h : Leads w₁ next ns v w') :
      Leads w obj (n :: ns) v w'

variable {w w₁ w' : World} {obj v : Value} {ns ms : List String}

theorem World.IsPlain.operate {n : String} (h : w.IsPlain obj n) (host : Host) :
    (host.operate .get [obj, .str n]).outcome w = (Run.getProperty obj (.str n)).outcome w := by
  refine World.outcome_operate_get host ?_
  rintro r name rfl ⟨⟩
  exact World.computing?_eq_none h.2.1

theorem Leads.append (h : Leads w obj ns v w₁) {v' : Value} (h' : Leads w₁ v ms v' w') :
    Leads w obj (ns ++ ms) v' w' := by
  induction h with
  | nil => exact h'
  | cons hplain hread _ ih => exact .cons hplain hread (ih h')

theorem Leads.null (w : World) (ns : List String) : Leads w .null ns .null w := by
  induction ns with
  | nil => exact .nil
  | cons n ns ih => exact .cons trivial (Run.getProperty_null _ w) ih

theorem Run.world_getProperty {n : String} (h : (Run.getProperty obj (.str n)).outcome w = (.ok v, w')) :
    w' = w ∨ n = "call" ∧ ∃ o, w' = { w with objects := w.objects.push o } := by
  have hattribute : ∀ {v : Value}, (Run.attributeOf obj n).outcome w = (.ok v, w') →
      w' = w ∨ n = "call" ∧ ∃ o, w' = { w with objects := w.objects.push o } := by
    intro v h
    rcases ha : w.attribute? obj n with _ | x
    · rw [Run.attributeOf_none ha] at h
      split at h
      · cases h
        exact .inl rfl
      · split at h
        · rename_i hcall
          cases h
          simp only [Bool.and_eq_true, decide_eq_true_eq] at hcall
          exact .inr ⟨hcall.1, _, rfl⟩
        · cases h
          exact .inl rfl
    · rw [Run.attributeOf_some ha] at h
      cases h
      exact .inl rfl
  by_cases hnull : obj = .null
  · subst hnull
    rw [Run.getProperty_null] at h
    cases h
    exact .inl rfl
  by_cases hdict : ∃ r, obj = .dict r
  · obtain ⟨r, rfl⟩ := hdict
    rw [Run.getProperty_dict] at h
    exact .inl (Prod.mk.inj h).2.symm
  · rcases hseq : w.sequence? obj with _ | items
    · rw [Run.getProperty_other hseq hnull (not_exists.1 hdict)] at h
      exact hattribute h
    · rw [Run.getProperty_sequence hseq] at h
      split at h
      · cases h
      · cases h
        exact .inl rfl
      · exact hattribute h

/-- Reading names adds at most ways to call what is read. -/
theorem Leads.world (h : Leads w obj ns v w') :
    ∃ shims, w' = { w with objects := w.objects ++ shims } ∧ ("call" ∉ ns → shims = #[]) := by
  induction h with
  | nil => exact ⟨#[], by simp, fun _ => rfl⟩
  | @cons w w₁ w' obj next v n ns _ hread _ ih =>
    obtain ⟨shims, rfl, hcall⟩ := ih
    rcases Run.world_getProperty hread with rfl | ⟨rfl, o, rfl⟩
    · exact ⟨shims, rfl, fun h => hcall fun hmem => h (.tail _ hmem)⟩
    · exact ⟨#[o] ++ shims, by simp, fun h => absurd (.head _) h⟩

end Reading

section Evaluating

variable {host : Host} {scope : Scope} {e : Env} {w w₁ w' : World} {t : Expr Leaf} {o : Option Value} {v : Value}
  {n : String} {ns : List String}

theorem outcome_reach_member (ht : isPresent scope t = false)
    (hreach : ((reach ⟨host, host.operate⟩ scope t).run e).outcome w = (.ok (o, e), w₁))
    (hread : (host.operate .get [o.getD .null, .str n]).outcome w₁ = (.ok v, w')) :
    ∃ o', ((reach ⟨host, host.operate⟩ scope (.member t n)).run e).outcome w = (.ok (o', e), w') ∧
      o'.getD .null = v := by
  rw [reach]
  rcases o with _ | x
  · cases hread
    exact ⟨none, outcome_onward_none hreach, rfl⟩
  · have hthere := outcome_isThere ht x e w₁
    by_cases hx : x = .null
    · subst hx
      cases hread
      exact ⟨none, outcome_onward_stop hreach hthere, rfl⟩
    · rw [decide_eq_true hx] at hthere
      refine ⟨some v, ?_, rfl⟩
      rw [Option.getD_some] at hread
      rw [outcome_onward_next hreach hthere, outcome_map, outcome_lift, hread]

theorem outcome_reach_members (ht : isPresent scope t = false)
    (hreach : ((reach ⟨host, host.operate⟩ scope t).run e).outcome w = (.ok (o, e), w₁))
    (hleads : Leads w₁ (o.getD .null) ns v w') :
    ∃ o', ((reach ⟨host, host.operate⟩ scope (ns.foldl .member t)).run e).outcome w =
      (.ok (o', e), w') ∧ o'.getD .null = v := by
  induction ns generalizing t o w₁ with
  | nil =>
    cases hleads
    exact ⟨o, hreach, rfl⟩
  | cons n ns ih =>
    cases hleads with
    | cons hplain hread hleads =>
      obtain ⟨o', hreach', rfl⟩ := outcome_reach_member ht hreach ((hplain.operate host).trans hread)
      exact ih rfl hreach' hleads

theorem isPresent_name (hn : scope.classify n = .context) : isPresent scope (.name n : Expr Leaf) = false := by
  rw [isPresent, hn]
  rfl

/-- A path of the binding context is read name by name. -/
theorem outcome_reach_path (host : Host) (hn : scope.classify n = .context) (h : Leads w e.this (n :: ns) v w') :
    ∃ o, ((reach ⟨host, host.operate⟩ scope (pathTree n ns)).run e).outcome w = (.ok (o, e), w') ∧
      o.getD .null = v := by
  cases h with
  | @cons _ w₁ _ _ next _ _ _ hplain hread hleads =>
    have hreach : ((reach ⟨host, host.operate⟩ scope (.name n)).run e).outcome w =
        (.ok (some next, e), w₁) := by
      rw [reach, outcome_map, readName, Direct.outcome_bind, Direct.outcome_get]
      dsimp only
      rw [hn]
      dsimp only
      rw [outcome_lift, hplain.operate host, hread]
    exact outcome_reach_members (isPresent_name hn) hreach hleads

theorem isPresent_path (hn : scope.classify n = .context) (ns : List String) :
    isPresent scope (pathTree n ns : Expr Leaf) = false := by
  rcases eq_nil_or_concat' ns with rfl | ⟨ns, m, rfl⟩
  · exact isPresent_name hn
  · rw [pathTree_concat]
    rfl

section Assigning

variable {value : Expr Leaf} {x : Value}
  (hvalue : ∀ w, ((whole (reach ⟨host, host.operate⟩ scope value)).run e).outcome w = (.ok (x, e), w))

include hvalue

theorem outcome_assign_name (hn : scope.classify n = .context) :
    ((eval ⟨host, host.operate⟩ scope (.assign (.name n) value)).run e).outcome w =
      ((liftM (host.operate .set [e.this, .str n, x]) : Direct Value).run e).outcome w := by
  rw [eval, outcome_whole, reach, outcome_map, writeName, hn]
  dsimp only
  rw [Direct.outcome_bind, Direct.outcome_get]
  dsimp only
  rw [Direct.outcome_bind, hvalue]
  dsimp only
  rcases ((liftM (host.operate .set [e.this, .str n, x]) : Direct Value).run e).outcome w with
    ⟨r | ⟨v, e'⟩, w'⟩ <;> rfl

theorem outcome_assign_member (ht : isPresent scope t = false)
    (hreach : ((reach ⟨host, host.operate⟩ scope t).run e).outcome w = (.ok (o, e), w₁)) :
    ((eval ⟨host, host.operate⟩ scope (.assign (.member t n) value)).run e).outcome w =
      if o.getD .null = .null then (.ok (.null, e), w₁)
      else ((liftM (host.operate .set [o.getD .null, .str n, x]) : Direct Value).run e).outcome w₁ := by
  rw [eval, outcome_whole, reach, outcome_map, outcome_whole]
  rcases o with _ | obj
  · rw [outcome_onward_none hreach]
    rfl
  · have hthere := outcome_isThere ht obj e w₁
    by_cases hobj : obj = .null
    · subst hobj
      rw [outcome_onward_stop hreach hthere]
      rfl
    · rw [decide_eq_true hobj] at hthere
      rw [outcome_onward_next hreach hthere, outcome_map, Direct.outcome_bind, hvalue, Option.getD_some, if_neg hobj]
      dsimp only
      rcases ((liftM (host.operate .set [obj, .str n, x]) : Direct Value).run e).outcome w₁ with
        ⟨r | ⟨v, e'⟩, w'⟩ <;> rfl

/-- Assigning to a path of the binding context writes to what the path leads to without its last name. -/
theorem outcome_assign_path {obj : Value} {init : List String} {last : String} (hn : scope.classify n = .context)
    (hnames : n :: ns = init ++ [last]) (hleads : Leads w e.this init obj w') :
    ((eval ⟨host, host.operate⟩ scope (.assign (pathTree n ns) value)).run e >>= fun _ =>
      pure Value.null : Run Value).outcome w =
      (host.operate .set [obj, .str last, x] >>= fun _ => pure Value.null).outcome w' := by
  have hset : ∀ (y : Value) (w : World),
      ((liftM (host.operate .set [y, .str last, x]) : Direct Value).run e >>= fun _ =>
        pure Value.null : Run Value).outcome w =
        (host.operate .set [y, .str last, x] >>= fun _ => pure Value.null).outcome w := by
    intro y w
    rw [run_liftM, bind_assoc]
    rfl
  cases init with
  | nil =>
    cases hleads
    cases hnames
    exact (Run.outcome_bind_congr (outcome_assign_name hvalue hn) _).trans (hset e.this w)
  | cons m ms =>
    cases hnames
    obtain ⟨o, hreach, rfl⟩ := outcome_reach_path host hn hleads
    have hassign := outcome_assign_member (n := last) hvalue (isPresent_path hn ms) hreach
    rw [← pathTree_concat] at hassign
    split at hassign
    · rename_i hobj
      rw [hobj, Host.operate_of_head (by nofun)]
      exact Run.outcome_bind_congr hassign _
    · exact (Run.outcome_bind_congr hassign _).trans (hset _ w')

end Assigning

end Evaluating

section Holders

namespace World

variable {entries : Entries} {r : Ref}

/-- A mapping, or an object that holds what is set under a name. -/
def IsHolder (w : World) : Value → String → Prop
  | .dict r, _ => r < w.dicts.size
  | .object r, n => r < w.objects.size ∧ (w.object r).kind ≠ .bound ∧ w.IsPlain (.object r) n
  | _, _ => False

def held? (w : World) : Value → String → Option Value
  | .dict r, n => (w.dict r).lookup (.str n)
  | .object r, n => (w.object r).attributes.lookup n
  | _, _ => none

/-- Names lead from each of several mappings and objects to the next. The last name need not be there. -/
inductive Path (w : World) : Value → List String → List Value → Prop where
  | last {obj n} (hobj : w.IsHolder obj n) : Path w obj [n] [obj]
  | step {obj next n ns objs} (hobj : w.IsHolder obj n) (hnext : w.held? obj n = some next) (h : Path w next ns objs) :
      Path w obj (n :: ns) (obj :: objs)

/-- All is as it was, except for what one mapping or object holds under one name. -/
structure OnlyAssigns (w w' : World) (obj : Value) (name : String) : Prop where
  lists : w'.lists = w.lists
  tuples : w'.tuples = w.tuples
  founds : w'.founds = w.founds
  functions : w'.attributes = w.attributes
  marks : w'.marks = w.marks
  journal : w'.journal = w.journal
  places : w'.dicts.size = w.dicts.size ∧ w'.objects.size = w.objects.size
  entries : ∀ r, (w'.dict r).filter (fun e => ¬ (obj = .dict r ∧ e.1 = .str name)) =
    (w.dict r).filter (fun e => ¬ (obj = .dict r ∧ e.1 = .str name))
  kinds : ∀ r, (w'.object r).kind = (w.object r).kind
  attributes : ∀ r, (w'.object r).attributes.filter (fun a => ¬ (obj = .object r ∧ a.1 = name)) =
    (w.object r).attributes.filter (fun a => ¬ (obj = .object r ∧ a.1 = name))

variable {w w' : World} {obj v : Value} {n : String}

theorem IsHolder.isPlain (h : w.IsHolder obj n) : w.IsPlain obj n := by
  cases obj with
  | dict r => trivial
  | object r => exact h.2.2
  | _ => exact h.elim

theorem getProperty_of_entry (hobj : w.IsHolder obj n) (h : w.held? obj n = some v) :
    (Run.getProperty obj (.str n)).outcome w = (.ok v, w) := by
  cases obj with
  | dict r =>
    rw [Run.getProperty_dict, show w.hashableType (.str n) = true from rfl, lookup_str,
      show (w.dict r).lookup (.str n) = some v from h]
    rfl
  | object r =>
    rw [Run.getProperty_other (show w.sequence? (.object r) = none from rfl) nofun nofun]
    exact Run.attributeOf_some h
  | _ => exact hobj.elim

theorem filter_insertBy {fuel : Nat} {entries' : Entries}
    (h : insertBy (w.equalWithin (fuel + 1)) (.str n) v entries = some entries') :
    entries'.filter (fun e => e.1 ≠ .str n) = entries.filter (fun e => e.1 ≠ .str n) := by
  induction entries generalizing entries' with
  | nil =>
    cases h
    simp
  | cons e rest ih =>
    rw [insertBy, equalWithin_str] at h
    change (if (e.1 = .str n || decide (e.1 = .str n)) then some ((e.1, v) :: rest)
      else (insertBy (w.equalWithin (fuel + 1)) (.str n) v rest).bind fun r => some (e :: r)) = some entries' at h
    split at h
    · rename_i he
      cases h
      simp only [Bool.or_self, decide_eq_true_eq] at he
      simp [he]
    · obtain ⟨rest', hrest, hentries⟩ := Option.bind_eq_some_iff.1 h
      cases hentries
      rw [filter_cons, filter_cons, ih hrest]

theorem filter_insert {entries' : Entries} (h : w.insert entries (.str n) v = .ok entries') :
    entries'.filter (fun e => e.1 ≠ .str n) = entries.filter (fun e => e.1 ≠ .str n) := by
  unfold insert at h
  split at h
  · cases h
  · split at h
    · rename_i hinsert
      cases h
      exact filter_insertBy hinsert
    · cases h

theorem lookup_putAttribute (attributes : List (String × Value)) (n : String) (v : Value) :
    (putAttribute attributes n v).lookup n = some v := by
  unfold putAttribute
  split
  · rename_i h
    induction attributes with
    | nil => cases h
    | cons a rest ih =>
      obtain ⟨m, old⟩ := a
      by_cases hm : m = n
      · simp [hm]
      · have hrest : rest.any (·.1 = n) = true := by simpa [hm] using h
        simpa [lookup_cons, hm, beq_false_of_ne (Ne.symm hm)] using ih hrest
  · rename_i h
    have hnone : attributes.lookup n = none := by
      refine lookup_eq_none_iff.2 fun a ha => bne_iff_ne.2 ?_
      rintro rfl
      exact h (any_eq_true.2 ⟨a, ha, by simp⟩)
    rw [lookup_append, hnone]
    simp

theorem filter_putAttribute (attributes : List (String × Value)) (n : String) (v : Value) :
    (putAttribute attributes n v).filter (fun a => a.1 ≠ n) = attributes.filter (fun a => a.1 ≠ n) := by
  unfold putAttribute
  split
  · rename_i h
    clear h
    induction attributes with
    | nil => rfl
    | cons a rest ih =>
      obtain ⟨m, old⟩ := a
      by_cases hm : m = n
      · simpa [hm] using ih
      · simpa [hm] using ih
  · simp

theorem dict_setDict (hr : r < w.dicts.size) (entries : Entries) (s : Ref) :
    (w.setDict r entries).dict s = if s = r then entries else w.dict s := by
  unfold dict setDict
  rw [Array.getElem?_setIfInBounds]
  by_cases hs : s = r
  · subst hs
    simp [hr]
  · simp [hs, Ne.symm hs]

theorem object_setObject (hr : r < w.objects.size) (o : Object) (s : Ref) :
    (w.setObject r o).object s = if s = r then o else w.object s := by
  unfold object setObject
  rw [Array.getElem?_setIfInBounds]
  by_cases hs : s = r
  · subst hs
    simp [hr]
  · simp [hs, Ne.symm hs]

theorem onlyAssigns_setDict (hr : r < w.dicts.size)
    (h : entries.filter (fun e => e.1 ≠ .str n) = (w.dict r).filter (fun e => e.1 ≠ .str n)) :
    w.OnlyAssigns (w.setDict r entries) (.dict r) n := by
  refine ⟨rfl, rfl, rfl, rfl, rfl, rfl, ⟨Array.size_setIfInBounds, rfl⟩, fun s => ?_, fun _ => rfl, fun _ => rfl⟩
  rw [dict_setDict hr]
  by_cases hs : s = r
  · subst hs
    simpa using h
  · rw [if_neg hs]

theorem onlyAssigns_setObject (hr : r < w.objects.size) {o : Object} (hkind : o.kind = (w.object r).kind)
    (h : o.attributes.filter (fun a => a.1 ≠ n) = (w.object r).attributes.filter (fun a => a.1 ≠ n)) :
    w.OnlyAssigns (w.setObject r o) (.object r) n := by
  refine ⟨rfl, rfl, rfl, rfl, rfl, rfl, ⟨rfl, Array.size_setIfInBounds⟩, fun _ => rfl, fun s => ?_, fun s => ?_⟩
  · rw [object_setObject hr]
    split
    · rename_i hs
      rw [hs, hkind]
    · rfl
  · rw [object_setObject hr]
    by_cases hs : s = r
    · subst hs
      simpa using h
    · rw [if_neg hs]

theorem setProperty_of_holder (hobj : w.IsHolder obj n) (v : Value) :
    ∃ w', (Run.setProperty obj (.str n) v).outcome w = (.ok v, w') ∧ w'.held? obj n = some v ∧
      w.OnlyAssigns w' obj n := by
  cases obj with
  | dict r =>
    obtain ⟨entries, hinsert⟩ := insert_of_hashable (w.hashable_str n) (w.dict r) v
    refine ⟨w.setDict r entries, ?_, ?_, onlyAssigns_setDict hobj (filter_insert hinsert)⟩
    · change ((Run.ofExcept fun w => w.insert (w.dict r) (.str n) v) >>= fun entries => do
        modify (·.setDict r entries)
        return v : Run Value).outcome w = _
      rw [Run.outcome_bind, Run.outcome_ofExcept, hinsert]
      rfl
    · rw [held?, dict_setDict hobj, if_pos rfl, lookup_insert hinsert, if_pos rfl]
  | object r =>
    obtain ⟨hr, hbound, -, -, hspecial⟩ := hobj
    let o : Object := { w.object r with attributes := putAttribute (w.object r).attributes n v }
    refine ⟨w.setObject r o, ?_, ?_, onlyAssigns_setObject hr rfl (filter_putAttribute ..)⟩
    · have hclass : n ≠ Run.classMark := by
        rintro rfl
        cases hspecial
      have htakes : Run.takesAttribute n (w.object r).kind = true := by
        have hdict : n ≠ "__dict__" := by
          rintro rfl
          cases hspecial
        revert hbound
        cases (w.object r).kind <;> simp [Run.takesAttribute, hdict]
      change (Run.setAttribute (.object r) n v >>= fun _ => pure v : Run Value).outcome w = _
      rw [Run.outcome_bind, Run.setAttribute, if_neg hclass]
      dsimp only
      rw [Run.outcome_bind, Run.outcome_get]
      dsimp only
      rw [if_pos htakes]
      rfl
    · rw [held?, object_setObject hr, if_pos rfl]
      exact lookup_putAttribute ..
  | _ => exact hobj.elim

/-- A holder is written to without the host. -/
theorem operate_of_holder (host : Host) (hobj : w.IsHolder obj n) (v : Value) :
    (host.operate .set [obj, .str n, v]).outcome w = (Run.setProperty obj (.str n) v).outcome w := by
  cases obj with
  | dict r => rw [Host.operate_of_head (by nofun)]; rfl
  | object r =>
    have hnone : host.accessor? w .set [.object r, .str n, v] = none :=
      congrArg (Option.map _) (computing?_eq_none hobj.2.2.2.1)
    rw [Host.outcome_operate, hnone]
    rfl
  | _ => exact hobj.elim

theorem OnlyAssigns.isHolder (h : w.OnlyAssigns w' obj n) {o : Value} {m : String} (ho : w.IsHolder o m) :
    w'.IsHolder o m := by
  cases o with
  | dict r =>
    change r < w'.dicts.size
    rw [h.places.1]
    exact ho
  | object r =>
    change r < w'.objects.size ∧ (w'.object r).kind ≠ .bound ∧
      (w'.object r).kind ≠ .window ∧ m ∉ (w'.object r).kind.computed ∧ isSpecial m = false
    rw [h.places.2, h.kinds]
    exact ho
  | _ => exact ho.elim

theorem OnlyAssigns.held? (h : w.OnlyAssigns w' obj n) {o : Value} (ho : obj ≠ o) (m : String) :
    w'.held? o m = w.held? o m := by
  cases o with
  | dict r =>
    have hentries := h.entries r
    simp only [ho, false_and, not_false_eq_true, decide_true, filter_true] at hentries
    rw [World.held?, World.held?, hentries]
  | object r =>
    have hattributes := h.attributes r
    simp only [ho, false_and, not_false_eq_true, decide_true, filter_true] at hattributes
    rw [World.held?, World.held?, hattributes]
  | _ => rfl

/-- A path leads to the last of its mappings and objects, and from there to what is assigned. -/
theorem Path.leads {names : List String} {objs : List Value} (h : w.Path obj names objs) (hnodup : objs.Nodup) :
    ∃ init last o, names = init ++ [last] ∧ objs.getLast? = some o ∧ w.IsHolder o last ∧ Leads w obj init o w ∧
      ∀ {w' : World} {v : Value}, w.OnlyAssigns w' o last → w'.held? o last = some v → Leads w' obj names v w' := by
  induction h with
  | @last obj n hobj =>
    refine ⟨[], n, obj, rfl, rfl, hobj, .nil, fun hw hentry => ?_⟩
    exact .cons (hw.isHolder hobj).isPlain (getProperty_of_entry (hw.isHolder hobj) hentry) .nil
  | @step obj next n ns objs hobj hnext _ ih =>
    obtain ⟨hfresh, hnodup⟩ := nodup_cons.1 hnodup
    obtain ⟨init, last, o, rfl, ho, hholder, hleads, hafter⟩ := ih hnodup
    have hne : o ≠ obj := fun he => hfresh (he ▸ mem_of_getLast? ho)
    refine ⟨n :: init, last, o, rfl, ?_, hholder, .cons hobj.isPlain (getProperty_of_entry hobj hnext) hleads, ?_⟩
    · rw [getLast?_cons, ho]
      rfl
    · intro w' v hw hentry
      refine .cons (hw.isHolder hobj).isPlain (getProperty_of_entry (hw.isHolder hobj) ?_) (hafter hw hentry)
      rw [hw.held? hne, hnext]

end World

end Holders

section Lenses

/-- Two functions read and assign what a path leads to. -/
structure Lens (getter setter : Program) (host : Host) (names : List String) : Prop where
  /-- Along distinct mappings and objects, the value is assigned and can be read. Nothing else changes. -/
  assigns : ∀ {w : World} {this : Value} {objs : List Value} (g fm v : Value), w.Path this names objs → objs.Nodup →
    ∃ w' obj name, objs.getLast? = some obj ∧ names.getLast? = some name ∧
      (setter.run host [this, g, fm, v]).outcome w = (.ok .null, w') ∧
      (getter.run host [this, g, fm]).outcome w' = (.ok v, w') ∧ w.OnlyAssigns w' obj name
  /-- Where some of the names before the last lead to a missing value, nothing changes. -/
  stops : ∀ {w w' : World} {this : Value} {init rest : List String} (g fm v : Value), names = init ++ rest → rest ≠ [] →
    Leads w this init .null w' → (setter.run host [this, g, fm, v]).outcome w = (.ok .null, w') ∧
      ∃ shims, w' = { w with objects := w.objects ++ shims } ∧ ("call" ∉ init → shims = #[])

variable {functionName : String} {globals : List String} {n : String} {ns : List String}

theorem outcome_getter (hname : ∀ op : Operation, op.name ≠ functionName) (hpath : IsPath globals n ns)
    {getter : Generated} (hrun : Compile.run functionName globals (pathRequest n ns) = .ok getter)
    (htree : (pathRequest n ns).IsTree (pathTree n ns)) (host : Host) {w w' : World} {this v : Value} (g fm : Value)
    (hleads : Leads w this (n :: ns) v w') : (getter.program.run host [this, g, fm]).outcome w = (.ok v, w') := by
  have hextra : ([] : List Value).length ≤ (pathRequest n ns).arguments.length := Nat.le_refl 0
  have hclassify := hpath.classify nodup_nil not_mem_nil
  obtain ⟨o, hreach, rfl⟩ := outcome_reach_path (e := Env.start [] this g fm []) host hclassify hleads
  have heval : ((eval ⟨host, host.operate⟩ (Scope.ofNames globals []) (pathTree n ns)).run
      (Env.start [] this g fm [])).outcome w = (.ok (o.getD .null, Env.start [] this g fm []), w') := by
    rw [eval, outcome_whole, hreach]
  rw [Compile.outcome_run hrun hname rfl htree hextra]
  exact Run.outcome_bind_congr (y := pure (o.getD .null, Env.start [] this g fm [])) heval _

theorem outcome_setter (hname : ∀ op : Operation, op.name ≠ functionName) (hpath : IsPath globals n ns)
    {setter : Generated} (hrun : Compile.run functionName globals (pathRequest n ns).setterRequest = .ok setter)
    (htree : (pathRequest n ns).setterRequest.IsTree (.assign (pathTree n ns) (.name valueName))) (host : Host)
    {w w' : World} {this obj : Value} {init : List String} {last : String} (g fm v : Value)
    (hnames : n :: ns = init ++ [last]) (hleads : Leads w this init obj w') :
    (setter.program.run host [this, g, fm, v]).outcome w =
      (host.operate .set [obj, .str last, v] >>= fun _ => pure Value.null).outcome w' := by
  have hextra : [v].length ≤ (pathRequest n ns).setterRequest.arguments.length := Nat.le_refl 1
  have hclassify : (Scope.ofNames globals [valueName]).classify n = .context :=
    hpath.classify (by simp) (by simpa using hpath.property)
  have hargument : (Scope.ofNames globals [valueName]).classify valueName = .argument := by
    rw [Scope.classify, Scope.isSome_parameter?_of_mem globals (by simp) (.head _)]
    rfl
  have hvalue : ∀ w, ((whole (reach ⟨host, host.operate⟩ (Scope.ofNames globals [valueName])
      (.name valueName))).run (Env.start [valueName] this g fm [v])).outcome w =
        (.ok (v, Env.start [valueName] this g fm [v]), w) := by
    intro w
    rw [outcome_whole, reach, outcome_map, readName, Direct.outcome_bind, Direct.outcome_get]
    dsimp only
    rw [hargument]
    rfl
  have hrequest : Request.namesProblem? [valueName] = none := by decide
  rw [Compile.outcome_run hrun hname hrequest htree hextra]
  exact outcome_assign_path hvalue hclassify hnames hleads

/-- A mapping that leads to an empty object. -/
def nestedWorld : World := { dicts := #[[(.str "a", .object 0)]], objects := #[⟨.plain, []⟩] }

theorem path_nested : nestedWorld.Path (.dict 0) ["a", "b"] [.dict 0, .object 0] :=
  .step (show 0 < 1 by decide) rfl (.last ⟨by decide, by decide, by decide, by decide, by decide⟩)

theorem isPath_nested : IsPath ["Math"] "a" ["b"] where
  name := by unfold IsName; decide
  names := by unfold IsName; decide
  free := by decide
  local_ := by decide
  property := by decide

end Lenses

end NullSafe
