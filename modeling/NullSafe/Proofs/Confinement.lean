import NullSafe.Proofs.Additions

/-! # Hidden objects

An object that no value of a world leads to is hidden. What only goes from value to value leaves hidden objects as they
are and makes no value that leads to one.
-/

namespace NullSafe

open List

variable {α β : Type} {hidden : Ref → Prop} {w w' w'' : World}

section Worlds

/-- A value leads to none of the hidden objects, and to none beyond the given number. -/
def Value.Open (size : Nat) (hidden : Ref → Prop) : Value → Prop
  | .object r => r < size ∧ ¬ hidden r
  | .method self _ => self.Open size hidden
  | _ => True

theorem Value.Open.imp {m n : Nat} {hidden' : Ref → Prop} (himp : ∀ r, r < m ∧ ¬ hidden r → r < n ∧ ¬ hidden' r) :
    ∀ {v : Value}, v.Open m hidden → v.Open n hidden'
  | .object _, h => himp _ h
  | .method self _, h => Open.imp himp (v := self) h
  | .null, _ | .bool _, _ | .int _, _ | .float _, _ | .nan _, _ | .str _, _ | .bytes _, _ | .list _, _ | .tuple _, _
  | .dict _, _ | .function _, _ | .pattern _ _, _ | .found _, _ => trivial

theorem Value.Open.mono {m n : Nat} (hmn : m ≤ n) {v : Value} (h : v.Open m hidden) : v.Open n hidden :=
  h.imp fun _ h => ⟨Nat.lt_of_lt_of_le h.1 hmn, h.2⟩

namespace World

abbrev Open (w : World) (hidden : Ref → Prop) (v : Value) : Prop := v.Open w.objects.size hidden

/-- The hidden objects are there, and no value in the world leads to one. -/
structure Hides (w : World) (hidden : Ref → Prop) : Prop where
  there : ∀ r, hidden r → r < w.objects.size
  lists : ∀ items ∈ w.lists, ∀ v ∈ items, w.Open hidden v
  tuples : ∀ items ∈ w.tuples, ∀ v ∈ items, w.Open hidden v
  dicts : ∀ entries ∈ w.dicts, ∀ e ∈ entries, w.Open hidden e.1 ∧ w.Open hidden e.2
  objects : ∀ o ∈ w.objects, ∀ a ∈ o.attributes, w.Open hidden a.2
  functions : ∀ f ∈ w.attributes, ∀ a ∈ f.2, w.Open hidden a.2

/-- The hidden objects of a world are as they were. -/
structure Spares (w : World) (hidden : Ref → Prop) (w' : World) : Prop where
  size : w.objects.size ≤ w'.objects.size
  object : ∀ r, hidden r → w'.object r = w.object r

theorem Spares.trans (h : w.Spares hidden w') (h' : w'.Spares hidden w'') : w.Spares hidden w'' :=
  ⟨Nat.le_trans h.size h'.size, fun r hr => (h'.object r hr).trans (h.object r hr)⟩

instance : Goes (·.Spares hidden ·) := ⟨fun _ => ⟨Nat.le_refl _, fun _ _ => rfl⟩, Spares.trans⟩

theorem Spares.open {v : Value} (h : w.Spares hidden w') (hv : w.Open hidden v) : w'.Open hidden v := hv.mono h.size

variable (h : w.Hides hidden)

include h

theorem Hides.list (r : Ref) : ∀ v ∈ w.list r, w.Open hidden v := by
  unfold World.list
  rcases hr : w.lists[r]? with _ | items
  · exact nofun
  · exact h.lists items (Array.mem_of_getElem? hr)

theorem Hides.tuple (r : Ref) : ∀ v ∈ w.tuple r, w.Open hidden v := by
  unfold World.tuple
  rcases hr : w.tuples[r]? with _ | items
  · exact nofun
  · exact h.tuples items (Array.mem_of_getElem? hr)

theorem Hides.dict (r : Ref) : ∀ e ∈ w.dict r, w.Open hidden e.1 ∧ w.Open hidden e.2 := by
  unfold World.dict
  rcases hr : w.dicts[r]? with _ | entries
  · exact nofun
  · exact h.dicts entries (Array.mem_of_getElem? hr)

theorem Hides.object (r : Ref) : ∀ a ∈ (w.object r).attributes, w.Open hidden a.2 := by
  unfold World.object
  rcases hr : w.objects[r]? with _ | o
  · exact nofun
  · exact h.objects o (Array.mem_of_getElem? hr)

omit h

theorem Hides.functionAttributes (h : w.Hides hidden) (f : Function) :
    ∀ a ∈ w.functionAttributes f, w.Open hidden a.2 := by
  unfold World.functionAttributes
  rcases hf : w.attributes.lookup f with _ | attributes
  · exact nofun
  · exact h.functions _ (mem_of_lookup_eq_some hf)

theorem open_lookup {attributes : List (String × Value)} {n : String} {v : Value}
    (h : ∀ a ∈ attributes, w.Open hidden a.2) (hn : attributes.lookup n = some v) : w.Open hidden v :=
  h _ (mem_of_lookup_eq_some hn)

end World

end Worlds

/-- A computation leaves hidden objects alone, and its result satisfies `P`. -/
abbrev Confines (hidden : Ref → Prop) (w : World) (x : Run α) (P : World → α → Prop) : Prop :=
  Run.Within (·.Hides hidden) (·.Spares hidden ·) w x P

abbrev ConfinesValue (hidden : Ref → Prop) (w : World) (x : Run Value) : Prop :=
  Confines hidden w x fun w' v => w'.Open hidden v

section Places

variable {items : List Value} {entries : Entries} {o : Object} {r : Ref} {v key : Value} {n : String}

theorem World.Hides.update (hw : w.Hides hidden) (hsize : w.objects.size ≤ w'.objects.size)
    (hlists : ∀ items ∈ w'.lists, items ∈ w.lists ∨ ∀ v ∈ items, w'.Open hidden v)
    (htuples : ∀ items ∈ w'.tuples, items ∈ w.tuples ∨ ∀ v ∈ items, w'.Open hidden v)
    (hdicts : ∀ entries ∈ w'.dicts, entries ∈ w.dicts ∨ ∀ e ∈ entries, w'.Open hidden e.1 ∧ w'.Open hidden e.2)
    (hobjects : ∀ o ∈ w'.objects, o ∈ w.objects ∨ ∀ a ∈ o.attributes, w'.Open hidden a.2)
    (hfunctions : ∀ f ∈ w'.attributes, f ∈ w.attributes ∨ ∀ a ∈ f.2, w'.Open hidden a.2) : w'.Hides hidden where
  there r hr := Nat.lt_of_lt_of_le (hw.there r hr) hsize
  lists items h := (hlists items h).elim (fun h v hv => (hw.lists items h v hv).mono hsize) id
  tuples items h := (htuples items h).elim (fun h v hv => (hw.tuples items h v hv).mono hsize) id
  dicts entries h := (hdicts entries h).elim
    (fun h e he => (hw.dicts entries h e he).imp (·.mono hsize) (·.mono hsize)) id
  objects o h := (hobjects o h).elim (fun h a ha => (hw.objects o h a ha).mono hsize) id
  functions f h := (hfunctions f h).elim (fun h a ha => (hw.functions f h a ha).mono hsize) id

theorem forall_mem_push {xs : Array α} {x : α} {Q : α → Prop} (hx : Q x) : ∀ y ∈ xs.push x, y ∈ xs ∨ Q y := by
  intro y hy
  rcases Array.mem_push.1 hy with hy | rfl
  · exact .inl hy
  · exact .inr hx

theorem forall_mem_setIfInBounds {xs : Array α} {i : Nat} {x : α} {Q : α → Prop} (hx : Q x) :
    ∀ y ∈ xs.setIfInBounds i x, y ∈ xs ∨ Q y := by
  intro y hy
  rcases Array.mem_or_eq_of_mem_setIfInBounds hy with hy | rfl
  · exact .inl hy
  · exact .inr hx

theorem confines_newFound (f : Found) : ConfinesValue hidden w (Run.newFound f) :=
  .make fun hw => ⟨⟨hw.there, hw.lists, hw.tuples, hw.dicts, hw.objects, hw.functions⟩,
    ⟨Nat.le_refl _, fun _ _ => rfl⟩, trivial⟩

theorem World.Hides.newObject (hw : w.Hides hidden) (h : ∀ a ∈ o.attributes, w.Open hidden a.2) :
    (w.newObject o).2.Hides hidden ∧ w.Spares hidden (w.newObject o).2 ∧
      (w.newObject o).2.Open hidden (w.newObject o).1 := by
  have hsize : w.objects.size ≤ (w.objects.push o).size := by simp
  refine ⟨hw.update hsize (fun _ => .inl) (fun _ => .inl) (fun _ => .inl)
    (forall_mem_push fun a ha => (h a ha).mono hsize) (fun _ => .inl), ⟨hsize, fun r hr => ?_⟩, ?_⟩
  · change (w.objects.push o)[r]?.getD default = _
    rw [Array.getElem?_push_lt (hw.there r hr), World.object, Array.getElem?_eq_getElem (hw.there r hr)]
  · exact ⟨by simp [World.newObject], fun hr => Nat.lt_irrefl _ (hw.there _ hr)⟩

theorem open_attribute (hw : w.Hides hidden) (hobj : w.Open hidden obj) (h : w.attribute? obj n = some v) :
    w.Open hidden v := by
  have hwhole : ∀ i, World.wholeAttribute? i n = some v → w.Open hidden v := by
    intro i h
    unfold World.wholeAttribute? at h
    split at h <;> cases h <;> trivial
  unfold World.attribute? at h
  split at h
  · exact World.open_lookup (hw.object _) h
  · exact World.open_lookup (hw.functionAttributes _) h
  · split at h
    · cases h
      exact hobj
    · split at h <;> first | exact hwhole _ h | (cases h <;> trivial)

instance realm_hides : World.Realm (·.Hides hidden) (·.Spares hidden ·) fun w v => w.Open hidden v where
  mono hw hv := hw.open hv
  plain h := by rename_i v; cases v <;> trivial
  list hw := hw.list
  tuple hw := hw.tuple
  dict hw := hw.dict
  reads := open_attribute
  newList hw h := ⟨hw.update (Nat.le_refl _) (forall_mem_push h) (fun _ => .inl) (fun _ => .inl) (fun _ => .inl)
    (fun _ => .inl), ⟨Nat.le_refl _, fun _ _ => rfl⟩, trivial⟩
  newTuple hw h := ⟨hw.update (Nat.le_refl _) (fun _ => .inl) (forall_mem_push h) (fun _ => .inl) (fun _ => .inl)
    (fun _ => .inl), ⟨Nat.le_refl _, fun _ _ => rfl⟩, trivial⟩
  newDict hw h := ⟨hw.update (Nat.le_refl _) (fun _ => .inl) (fun _ => .inl) (forall_mem_push h) (fun _ => .inl)
    (fun _ => .inl), ⟨Nat.le_refl _, fun _ _ => rfl⟩, trivial⟩
  newObject hw _ h := hw.newObject h
  mark hw := ⟨⟨hw.there, hw.lists, hw.tuples, hw.dicts, hw.objects, hw.functions⟩, Nat.le_refl _, fun _ _ => rfl⟩

theorem confines_setList (h : ∀ v ∈ items, w.Open hidden v) :
    Confines hidden w (modify (·.setList r items)) fun _ _ => True :=
  .update fun hw => ⟨hw.update (Nat.le_refl _) (forall_mem_setIfInBounds h) (fun _ => .inl) (fun _ => .inl)
    (fun _ => .inl) (fun _ => .inl), ⟨Nat.le_refl _, fun _ _ => rfl⟩⟩

theorem confines_setDict (h : ∀ e ∈ entries, w.Open hidden e.1 ∧ w.Open hidden e.2) :
    Confines hidden w (modify (·.setDict r entries)) fun _ _ => True :=
  .update fun hw => ⟨hw.update (Nat.le_refl _) (fun _ => .inl) (fun _ => .inl) (forall_mem_setIfInBounds h)
    (fun _ => .inl) (fun _ => .inl), ⟨Nat.le_refl _, fun _ _ => rfl⟩⟩

theorem confines_setObject (hr : ¬ hidden r) (h : ∀ a ∈ o.attributes, w.Open hidden a.2) :
    Confines hidden w (modify (·.setObject r o)) fun _ _ => True := by
  have hsize : w.objects.size ≤ (w.setObject r o).objects.size := Array.size_setIfInBounds ▸ Nat.le_refl _
  refine .update fun hw => ⟨hw.update hsize (fun _ => .inl) (fun _ => .inl) (fun _ => .inl)
    (forall_mem_setIfInBounds fun a ha => (h a ha).mono hsize) (fun _ => .inl), ⟨hsize, fun s hs => ?_⟩⟩
  have hne : r ≠ s := fun heq => hr (heq ▸ hs)
  unfold World.object World.setObject
  rw [Array.getElem?_setIfInBounds_ne hne]

theorem open_putAttribute {attributes : List (String × Value)} (h : ∀ a ∈ attributes, w.Open hidden a.2)
    (hv : w.Open hidden v) : ∀ a ∈ putAttribute attributes n v, w.Open hidden a.2 := by
  unfold putAttribute
  split
  · intro a ha
    obtain ⟨⟨m, old⟩, hmem, rfl⟩ := mem_map.1 ha
    dsimp only
    split
    · exact hv
    · exact h _ hmem
  · exact forall_mem_append.2 ⟨h, forall_mem_singleton.2 hv⟩

theorem confines_setFunctionAttribute (f : Function) (hv : w.Open hidden v) :
    Confines hidden w (Run.setFunctionAttribute f n v) fun _ _ => True := by
  refine .update fun hw => ⟨hw.update (Nat.le_refl _) (fun _ => .inl) (fun _ => .inl) (fun _ => .inl) (fun _ => .inl)
    fun g hg => ?_, ⟨Nat.le_refl _, fun _ _ => rfl⟩⟩
  rcases mem_cons.1 hg with rfl | hg
  · exact .inr (open_putAttribute (hw.functionAttributes f) hv)
  · exact .inl ((mem_filter.1 hg).1)

end Places

section Properties

variable {obj key v : Value} {n : String} {items : List Value}

theorem open_items (hw : w.Hides hidden) (h : w.items obj = .ok items) : ∀ v ∈ items, w.Open hidden v := by
  unfold World.items at h
  split at h
  · cases h
    exact forall_mem_map.2 fun e he => (hw.dict _ e he).1
  · rcases hseq : w.sequence? obj with _ | items' <;> rw [hseq] at h <;> cases h
    exact Run.Within.sequence (I := (World.Hides · hidden)) (World.Spares · hidden ·) hw hseq

theorem open_writeItem {memory : Nat} {out : List Value} {i : Int} (h : Run.writeItem memory items i v = .ok out)
    (hv : w.Open hidden v) (hitems : ∀ v ∈ items, w.Open hidden v) : ∀ v ∈ out, w.Open hidden v := by
  unfold Run.writeItem at h
  dsimp only at h
  generalize (if i < 0 then i + (items.length : Int) else i) = j at h
  split at h
  · split at h
    · cases h
    · cases h
      intro x hx
      rcases mem_or_eq_of_mem_set hx with hx | rfl
      · exact hitems x hx
      · exact hv
  · split at h
    · cases h
    · split at h
      · cases h
      · cases h
        refine forall_mem_append.2 ⟨forall_mem_append.2 ⟨hitems, fun x hx => ?_⟩, forall_mem_singleton.2 hv⟩
        rw [eq_of_mem_replicate hx]
        trivial

theorem confines_setAttribute (hobj : w.Open hidden obj) (hv : w.Open hidden v) :
    Confines hidden w (Run.setAttribute obj n v) fun _ _ => True := by
  unfold Run.setAttribute
  split
  · exact .throw _
  split
  · rename_i r
    refine .get_bind fun hw => ?_
    have hset := confines_setObject (o := { w.object r with attributes := putAttribute (w.object r).attributes n v })
      hobj.2 (open_putAttribute (hw.object r) hv)
    dsimp only
    split
    · exact hset
    · exact .throw _
  · split
    · exact confines_setFunctionAttribute _ hv
    · split
      · exact .throw _
      · exact .throw _
  · exact confines_setFunctionAttribute _ hv
  · exact .throw _

theorem confines_setProperty (hobj : w.Open hidden obj) (hkey : w.Open hidden key) (hv : w.Open hidden v) :
    ConfinesValue hidden w (Run.setProperty obj key v) := by
  unfold Run.setProperty
  split
  · exact .pure hv
  · split
    · refine .ofExcept_bind fun entries hw hentries => ?_
      refine (confines_setDict (World.forall_insert hentries hkey hv (hw.dict _))).bind fun _ w' hw' _ => ?_
      exact .pure (hw'.open hv)
    · refine .ofExcept_bind fun i _ _ => ?_
      split
      · refine .ofExcept_bind fun items hw hitems => ?_
        refine (confines_setList (open_writeItem hitems hv (hw.list _))).bind fun _ w' hw' _ => ?_
        exact .pure (hw'.open hv)
      · split
        · exact (confines_setAttribute hobj hv).bind fun _ w' hw' _ => .pure (hw'.open hv)
        · exact .throw _
    · split
      · exact (confines_setAttribute hobj hv).bind fun _ w' hw' _ => .pure (hw'.open hv)
      · exact .throw _

end Properties

theorem confines_operation (op : Operation) {args : List Value} (h : ∀ v ∈ args, w.Open hidden v) :
    ConfinesValue hidden w (op.run args) := by
  refine .operation h fun _ hargs => ?_
  subst hargs
  simp only [forall_mem_cons, not_mem_nil, false_imp_iff, implies_true, and_true] at h
  exact confines_setProperty h.1 h.2.1 h.2.2

end NullSafe
