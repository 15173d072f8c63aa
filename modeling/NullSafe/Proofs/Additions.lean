import NullSafe.Proofs.Mappings
import NullSafe.Proofs.Simulation

/-! # Computations that make new values

Reading, comparing and computing go from value to value, make new values at new places, and change none that is there.
So they keep to a frame: a property of worlds, a relation of worlds and a property of values that go on while values
are made hold of where such a computation ends, whether it returns or raises.
-/

namespace NullSafe

open List

variable {α β : Type} {I : World → Prop} {R : World → World → Prop} {G : World → Value → Prop} {w : World}

/-- Whether a value leads to an object. -/
def Value.leads : Value → Bool
  | .object _ | .method _ _ => true
  | _ => false

/-- A relation of worlds that goes on from step to step. -/
class World.Goes (R : World → World → Prop) : Prop where
  refl : ∀ w, R w w
  trans : ∀ {w w' w''}, R w w' → R w' w'' → R w w''

/-- A property of worlds and a relation of worlds that go on while values are made of good values. In worlds with the
property, good values lead to good values. -/
class World.Realm (I : World → Prop) (R : World → World → Prop) (G : outParam (World → Value → Prop)) : Prop where
  mono : ∀ {w w' v}, R w w' → G w v → G w' v
  plain : ∀ {w v}, v.leads = false → G w v
  list : ∀ {w}, I w → ∀ r, ∀ v ∈ w.list r, G w v
  tuple : ∀ {w}, I w → ∀ r, ∀ v ∈ w.tuple r, G w v
  dict : ∀ {w}, I w → ∀ r, ∀ e ∈ w.dict r, G w e.1 ∧ G w e.2
  reads : ∀ {w obj n v}, I w → G w obj → w.attribute? obj n = some v → G w v
  newList : ∀ {w items}, I w → (∀ v ∈ items, G w v) →
    I (w.newList items).2 ∧ R w (w.newList items).2 ∧ G (w.newList items).2 (w.newList items).1
  newTuple : ∀ {w items}, I w → (∀ v ∈ items, G w v) →
    I (w.newTuple items).2 ∧ R w (w.newTuple items).2 ∧ G (w.newTuple items).2 (w.newTuple items).1
  newDict : ∀ {w entries}, I w → (∀ e ∈ entries, G w e.1 ∧ G w e.2) →
    I (w.newDict entries).2 ∧ R w (w.newDict entries).2 ∧ G (w.newDict entries).2 (w.newDict entries).1
  newObject : ∀ {w o}, I w → o.kind.computed = [] → (∀ a ∈ o.attributes, G w a.2) →
    I (w.newObject o).2 ∧ R w (w.newObject o).2 ∧ G (w.newObject o).2 (w.newObject o).1
  mark : ∀ {w}, I w → I { w with marks := w.marks + 1 } ∧ R w { w with marks := w.marks + 1 }

/-- A computation keeps a property of worlds and respects a relation of worlds, and its result satisfies `P`. -/
def Run.Within (I : World → Prop) (R : World → World → Prop) (w : World) (x : Run α) (P : World → α → Prop) : Prop :=
  I w → I (x.outcome w).2 ∧ R w (x.outcome w).2 ∧ ∀ a, (x.outcome w).1 = .ok a → P (x.outcome w).2 a

open World

namespace Run.Within

section Sequences

variable {P : World → α → Prop} {Q : World → β → Prop}

theorem imp {P' : World → α → Prop} {x : Run α} (hx : Within I R w x P) (h : ∀ w' a, P w' a → P' w' a) :
    Within I R w x P' :=
  fun hw => (hx hw).imp_right fun hx => ⟨hx.1, fun a ha => h _ a (hx.2 a ha)⟩

theorem get_bind {k : World → Run β} (hk : I w → Within I R w (k w) Q) : Within I R w (MonadState.get >>= k) Q :=
  fun hw => hk hw hw

theorem update {f : World → World} (h : I w → I (f w) ∧ R w (f w)) :
    Within I R w (modify f : Run PUnit) fun _ _ => True :=
  fun hw => ⟨(h hw).1, (h hw).2, fun _ _ => trivial⟩

theorem make {f : World → α × World} (h : I w → I (f w).2 ∧ R w (f w).2 ∧ P (f w).2 (f w).1) :
    Within I R w (modifyGet f : Run α) P :=
  fun hw => ⟨(h hw).1, (h hw).2.1, by rintro _ ⟨⟩; exact (h hw).2.2⟩

variable [Goes R]

theorem pure {a : α} (h : P w a) : Within I R w (Pure.pure a) P :=
  fun hw => ⟨hw, Goes.refl w, by rintro _ ⟨⟩; exact h⟩

theorem throw (r : Raised) : Within I R w (MonadExcept.throw r : Run α) P :=
  fun hw => ⟨hw, Goes.refl w, nofun⟩

theorem bind {x : Run α} {k : α → Run β} (hx : Within I R w x P)
    (hk : ∀ a w', R w w' → P w' a → Within I R w' (k a) Q) : Within I R w (x >>= k) Q := by
  intro hw
  have hx := hx hw
  rw [outcome_bind]
  rcases hrun : x.outcome w with ⟨r | a, w'⟩ <;> rw [hrun] at hx <;> obtain ⟨hI, hR, hresult⟩ := hx
  · exact ⟨hI, hR, nofun⟩
  · obtain ⟨hI', hR', hresult'⟩ := hk a w' hR (hresult a rfl) hI
    exact ⟨hI', Goes.trans hR hR', hresult'⟩

theorem tryCatch {x : Run α} {k : Raised → Run α} (hx : Within I R w x P)
    (hk : ∀ e w', R w w' → Within I R w' (k e) P) : Within I R w (MonadExcept.tryCatch x k) P := by
  intro hw
  have hx := hx hw
  rw [outcome_tryCatch]
  rcases hrun : x.outcome w with ⟨e | a, w'⟩ <;> rw [hrun] at hx <;> obtain ⟨hI, hR, hresult⟩ := hx
  · obtain ⟨hI', hR', hresult'⟩ := hk e w' hR hI
    exact ⟨hI', Goes.trans hR hR', hresult'⟩
  · exact ⟨hI, hR, hresult⟩

theorem map {x : Run α} {f : α → β} (hx : Within I R w x P) (h : ∀ w' a, P w' a → Q w' (f a)) :
    Within I R w (f <$> x) Q := by
  rw [map_eq_pure_bind]
  exact hx.bind fun a w' _ ha => .pure (h w' a ha)

theorem ofExcept {f : World → Except Raised α} (h : I w → ∀ a, f w = .ok a → P w a) :
    Within I R w (Run.ofExcept f) P := by
  refine get_bind fun hw => ?_
  split
  · rename_i a ha
    exact .pure (h hw a ha)
  · exact .throw _

theorem ofExcept_bind {f : World → Except Raised α} {k : α → Run β}
    (hk : ∀ a, I w → f w = .ok a → Within I R w (k a) Q) : Within I R w (Run.ofExcept f >>= k) Q := by
  refine (ofExcept (P := fun w' a => w' = w ∧ I w ∧ f w = .ok a) fun hw a ha => ⟨rfl, hw, ha⟩).bind ?_
  rintro a _ - ⟨rfl, hw, ha⟩
  exact hk a hw ha

theorem mapM {f : α → Run β} {as : List α} (hP : ∀ w' w'' b, R w' w'' → Q w' b → Q w'' b)
    (h : ∀ a ∈ as, ∀ w', R w w' → Within I R w' (f a) Q) : Within I R w (as.mapM f) fun w' bs => ∀ b ∈ bs, Q w' b := by
  induction as generalizing w with
  | nil => exact .pure nofun
  | cons a as ih =>
    obtain ⟨ha, has⟩ := forall_mem_cons.1 h
    rw [mapM_cons]
    refine (ha w (Goes.refl w)).bind fun b w' hw hb => ?_
    refine (ih fun a' ha' w'' hw' => has a' ha' w'' (Goes.trans hw hw')).bind fun bs w'' hw' hbs => ?_
    exact .pure (forall_mem_cons.2 ⟨hP w' w'' b hw' hb, hbs⟩)

theorem foldlM {f : β → α → Run β} {as : List α} {b : β} (hb : Q w b)
    (h : ∀ a ∈ as, ∀ w' b, R w w' → Q w' b → Within I R w' (f b a) Q) : Within I R w (as.foldlM f b) Q := by
  induction as generalizing w b with
  | nil => exact .pure hb
  | cons a as ih =>
    obtain ⟨ha, has⟩ := forall_mem_cons.1 h
    rw [foldlM_cons]
    refine (ha w b (Goes.refl w) hb).bind fun b' w' hw hb' => ?_
    exact ih hb' fun a' ha' w'' b'' hw' hb'' => has a' ha' w'' b'' (Goes.trans hw hw') hb''

end Sequences

variable [Goes R] [Realm I R G] {a b v obj key : Value} {n : String} {items : List Value} {entries : Entries} {r : Ref}

section Places

theorem plain (h : v.leads = false) : Within I R w (Pure.pure v) G := .pure (Realm.plain I R h)

omit [Goes R]

theorem newList (h : ∀ v ∈ items, G w v) : Within I R w (Run.newList items) G :=
  .make fun hw => Realm.newList hw h

theorem newTuple (h : ∀ v ∈ items, G w v) : Within I R w (Run.newTuple items) G :=
  .make fun hw => Realm.newTuple hw h

theorem newDict (h : ∀ e ∈ entries, G w e.1 ∧ G w e.2) : Within I R w (Run.newDict entries) G :=
  .make fun hw => Realm.newDict hw h

theorem newObject {o : Object} (ho : o.kind.computed = []) (h : ∀ a ∈ o.attributes, G w a.2) :
    Within I R w (Run.newObject o) G :=
  .make fun hw => Realm.newObject hw ho h

end Places

section Arithmetic

theorem ofFloat (x : Float) : Within I R w (Run.ofFloat x) G := by
  unfold Run.ofFloat
  split
  · exact fun hw => ⟨(Realm.mark (R := R) hw).1, (Realm.mark hw).2, by rintro _ ⟨⟩; exact Realm.plain I R rfl⟩
  · exact .plain rfl

theorem ofNumber (n : Number) : Within I R w (Run.ofNumber n) G := by
  cases n with
  | nan => exact .ofFloat _
  | _ => exact .plain rfl

theorem ofArithmetic (r : Except Number.Fault Number) : Within I R w (Run.ofArithmetic r) G := by
  unfold Run.ofArithmetic
  split
  · exact .ofNumber _
  · exact .throw _
  · exact .throw _

theorem plus (a b : Value) : Within I R w (Run.plus a b) G := by
  refine .get_bind fun hw => ?_
  split
  · exact .ofArithmetic _
  · split
    · exact .newList (forall_mem_append.2 ⟨Realm.list (R := R) hw _, Realm.list (R := R) hw _⟩)
    · exact .newTuple (forall_mem_append.2 ⟨Realm.tuple (R := R) hw _, Realm.tuple (R := R) hw _⟩)
    · exact .plain rfl
    · exact .throw _

theorem add (a b : Value) : Within I R w (Run.add a b) G := by
  unfold Run.add
  split
  · exact .ofExcept_bind fun _ _ _ => .ofExcept_bind fun _ _ _ => .plain rfl
  · exact .ofExcept_bind fun _ _ _ => .ofExcept_bind fun _ _ _ => .plain rfl
  · exact .plain rfl
  · exact .plain rfl
  · exact .plus _ _

theorem toNumber (hv : G w v) : Within I R w (Run.toNumber v) G := by
  unfold Run.toNumber
  split
  · exact .plain rfl
  · exact .plain rfl
  · dsimp only
    split
    · exact .plain rfl
    · split
      · exact .ofFloat _
      · exact .plain rfl
  · exact .pure hv

theorem operands (ha : G w a) (hb : G w b) : Within I R w (Run.operands a b) fun w' p => G w' p.1 ∧ G w' p.2 := by
  refine (toNumber ha).bind fun a' w₁ hw₁ ha' => ?_
  refine (toNumber (Realm.mono I hw₁ hb)).bind fun b' w₂ hw₂ hb' => ?_
  exact .pure ⟨Realm.mono I hw₂ ha', hb'⟩

theorem numeric (op : Number → Number → Except Number.Fault Number) (a b : Value) :
    Within I R w (Run.numeric op a b) G := by
  unfold Run.numeric
  split
  · exact .ofArithmetic _
  · exact .throw _

theorem mem_of_repeatItems {memory : Nat} {items out : List α} {times : Int} {tooMany : Raised}
    (h : Run.repeatItems memory items times tooMany = .ok out) : ∀ v ∈ out, v ∈ items := by
  unfold Run.repeatItems at h
  dsimp only at h
  split at h
  · cases h
  · split at h
    · cases h
    · split at h
      · cases h
      · cases h
        intro v hv
        obtain ⟨l, hl, hv⟩ := mem_flatten.1 hv
        rwa [eq_of_mem_replicate hl] at hv

theorem repeatValue (v : Value) (times : Int) : Within I R w (Run.repeatValue v times) G := by
  unfold Run.repeatValue
  split
  · exact .ofExcept_bind fun _ hw h => .newList fun v hv => Realm.list (R := R) hw _ v (mem_of_repeatItems h v hv)
  · exact .ofExcept_bind fun _ hw h => .newTuple fun v hv => Realm.tuple (R := R) hw _ v (mem_of_repeatItems h v hv)
  · exact .ofExcept_bind fun _ _ _ => .plain rfl
  · exact .throw _

theorem multiply (ha : G w a) (hb : G w b) : Within I R w (Run.multiply a b) G := by
  refine (operands ha hb).bind fun (a, b) w' _ _ => ?_
  dsimp only
  split
  · exact .ofArithmetic _
  · exact .repeatValue _ _
  · exact .repeatValue _ _
  · exact .throw _

theorem remainder (ha : G w a) (hb : G w b) : Within I R w (Run.remainder a b) G := by
  refine (operands ha hb).bind fun (a, b) w' _ _ => ?_
  dsimp only
  split
  · exact .ofExcept_bind fun _ _ _ => .plain rfl
  · exact .numeric _ _ _

theorem negate (hv : G w v) : Within I R w (Run.negate v) G := by
  refine (toNumber hv).bind fun _ _ _ _ => ?_
  split
  · exact .ofNumber _
  · exact .throw _

theorem unaryPlus (hv : G w v) : Within I R w (Run.unaryPlus v) G := by
  refine (toNumber hv).bind fun x _ _ hx => ?_
  split
  · exact .pure hx
  · exact .pure hx
  · exact .pure hx
  · exact .throw _

theorem related (rel : World.Relation) (a b : Value) : Within I R w (Run.related rel a b) G := by
  unfold Run.related
  split
  · exact .plain rfl
  · exact .plain rfl
  · refine .get_bind fun _ => ?_
    split
    · exact .plain rfl
    · exact .plain rfl
    · exact .throw _

theorem makePattern (body flags : Value) : Within I R w (Run.makePattern body flags) G := by
  refine .ofExcept_bind fun _ _ _ => ?_
  dsimp only
  split
  · split
    · exact .plain rfl
    · exact .throw _
    · exact .throw _
    · exact .throw _
  · split
    · exact .plain rfl
    · exact .throw _
  · exact .throw _

end Arithmetic

section Properties

theorem sequence (R : World → World → Prop) [Realm I R G] (hw : I w) (h : w.sequence? obj = some items) :
    ∀ v ∈ items, G w v := by
  cases obj with
  | list r => cases h; exact Realm.list (R := R) hw r
  | tuple r => cases h; exact Realm.tuple (R := R) hw r
  | str s =>
    cases h
    exact forall_mem_map.2 fun _ _ => Realm.plain I R rfl
  | bytes bs =>
    cases h
    exact forall_mem_map.2 fun _ _ => Realm.plain I R rfl
  | _ => cases h

theorem attributeOf (hobj : G w obj) : Within I R w (Run.attributeOf obj n) G := by
  refine .get_bind fun hw => ?_
  split
  · rename_i ha
    exact .pure (Realm.reads (R := R) hw hobj ha)
  · split
    · rcases w.sequence? obj with _ | items
      · exact .plain rfl
      · exact .plain rfl
    · split
      · exact .newObject rfl (forall_mem_singleton.2 hobj)
      · exact .plain rfl

theorem item (h : ∀ v ∈ items, G w v) (i : Int) : Within I R w (Pure.pure (Run.item items i)) G := by
  unfold Run.item
  split
  · rcases hi : items[i.toNat]? with _ | v
    · exact .plain rfl
    · exact .pure (h v (mem_of_getElem? hi))
  · exact .plain rfl

theorem entry {o : Option Value} (h : w.lookup entries key = .ok o) (hentries : ∀ e ∈ entries, G w e.1 ∧ G w e.2) :
    Within I R w (Pure.pure (o.getD .null)) G := by
  rcases o with _ | v
  · exact .plain rfl
  · obtain ⟨e, he, rfl⟩ := World.mem_of_lookup h
    exact .pure (hentries e he).2

theorem getProperty (hobj : G w obj) : Within I R w (Run.getProperty obj key) G := by
  refine .get_bind fun hw => ?_
  split
  · exact .plain rfl
  · split
    · exact .ofExcept_bind fun found _ hfound => .entry hfound (Realm.dict (R := R) hw _)
    · exact .plain rfl
  · refine .ofExcept_bind fun _ _ _ => ?_
    split
    · rename_i hseq _
      exact .item (sequence R hw hseq) _
    · split
      · exact .attributeOf hobj
      · exact .plain rfl

theorem globalValue (globals : Value) (name : String) : Within I R w (NullSafe.globalValue globals name) G := by
  unfold NullSafe.globalValue
  split
  · refine .ofExcept_bind fun o hw ho => ?_
    rcases o with _ | v
    · exact .throw _
    · exact .entry ho (Realm.dict (R := R) hw _)
  · exact .throw _

theorem buildDict (h : ∀ e ∈ entries, G w e.1 ∧ G w e.2) : Within I R w (NullSafe.buildDict entries) G := by
  refine .bind (P := fun w' built => ∀ e ∈ built, G w' e.1 ∧ G w' e.2)
    (.foldlM nofun fun e he w' _ hw hbuilt => ?_) fun _ _ _ h => .newDict h
  exact .ofExcept fun _ out hout =>
    World.forall_insert hout (Realm.mono I hw (h e he).1) (Realm.mono I hw (h e he).2) hbuilt

/-- Only the operation that sets a property writes, and only with three arguments. -/
theorem operation {op : Operation} {args : List Value} (h : ∀ v ∈ args, G w v)
    (hset : ∀ {obj key v}, op = .set → args = [obj, key, v] → Within I R w (Run.setProperty obj key v) G) :
    Within I R w (op.run args) G := by
  unfold Operation.run
  split <;> try simp only [forall_mem_cons, not_mem_nil, false_imp_iff, implies_true, and_true] at h
  · exact .getProperty h.1
  · exact hset rfl rfl
  · exact .add _ _
  · exact (operands h.1 h.2).bind fun _ _ _ _ => .numeric _ _ _
  · exact .multiply h.1 h.2
  · exact (operands h.1 h.2).bind fun _ _ _ _ => .numeric _ _ _
  · exact .remainder h.1 h.2
  · exact .negate h
  · exact .unaryPlus h
  · exact .related _ _ _
  · exact .related _ _ _
  · exact .related _ _ _
  · exact .related _ _ _
  · exact .get_bind fun _ => .plain rfl
  · exact .get_bind fun _ => .plain rfl
  · exact .makePattern _ _
  · exact .makePattern _ _
  · exact .throw _

theorem readComputed {getter : Run Value} (hr : G w (.object r)) (cls : HostClass) (name : String)
    (h : ∀ w', R w w' → Within I R w' getter G) : Within I R w (Run.readComputed cls name r getter) G := by
  have hread : ∀ w', R w w' → Within I R w' getter.orMissing fun w'' o => G w'' (o.getD .null) := by
    intro w' hw'
    refine .tryCatch ((h w' hw').map fun _ _ hv => hv) fun e w'' _ => ?_
    split
    · exact .pure (Realm.plain I R rfl)
    · exact .throw _
  unfold Run.readComputed
  split
  · refine (hread w (Goes.refl w)).bind fun o w' hw' _ => ?_
    split
    · exact .newObject rfl (forall_mem_singleton.2 (Realm.mono I hw' hr))
    · exact (hread w' hw').bind fun _ _ _ ho => .pure ho
  · exact (hread w (Goes.refl w)).bind fun _ _ _ ho => .pure ho

end Properties

end Run.Within

/-- A relation of worlds that goes on while any values are made. -/
class World.AllowsNew (R : World → World → Prop) : Prop extends Goes R where
  newList : ∀ items (w : World), R w (w.newList items).2
  newTuple : ∀ items (w : World), R w (w.newTuple items).2
  newDict : ∀ entries (w : World), R w (w.newDict entries).2
  newObject : ∀ o (w : World), o.kind.computed = [] → R w (w.newObject o).2
  mark : ∀ w : World, R w { w with marks := w.marks + 1 }

instance [AllowsNew R] : Realm (fun _ => True) R (fun _ _ => True) where
  mono _ _ := trivial
  plain _ := trivial
  list _ _ _ _ := trivial
  tuple _ _ _ _ := trivial
  dict _ _ _ _ := ⟨trivial, trivial⟩
  reads _ _ _ := trivial
  newList _ _ := ⟨trivial, AllowsNew.newList _ _, trivial⟩
  newTuple _ _ := ⟨trivial, AllowsNew.newTuple _ _, trivial⟩
  newDict _ _ := ⟨trivial, AllowsNew.newDict _ _, trivial⟩
  newObject _ ho _ := ⟨trivial, AllowsNew.newObject _ _ ho, trivial⟩
  mark _ := ⟨trivial, AllowsNew.mark _⟩

/-- However a computation ends, the world is then in a relation to the one in which it started. -/
def Run.Respects (R : World → World → Prop) (x : Run α) : Prop := ∀ w, R w (x.outcome w).2

/-- Two computations do the same in worlds of a kind, and respect a relation of worlds. -/
def Run.Agree (I : World → Prop) (R : World → World → Prop) (x y : Run α) : Prop :=
  (∀ w, I w → x.outcome w = y.outcome w) ∧ x.Respects R

/-- Reading an attribute that a class of a host computes respects a relation of worlds. -/
def Host.ReadsWithin (R : World → World → Prop) (host : Host) : Prop :=
  ∀ {w : World} {r : Ref} {name : String} {cls : HostClass}, w.computing? r name = some cls →
    R w ((host.operate .get [.object r, .str name]).outcome w).2

/-- Of a host, only the code with which attributes are read matters to operations other than writing. -/
theorem Host.operate_congr {host host' : Host} (h : host.getter = host'.getter) (op : Operation) {args : List Value}
    (hargs : args.length ≤ 2) : host.operate op args = host'.operate op args := by
  refine Run.ext_outcome fun w => ?_
  have haccessor : host.accessor? w op args = host'.accessor? w op args := by
    unfold accessor?
    split
    · rw [h]
    · simp at hargs
    · rfl
  rw [outcome_operate, outcome_operate, haccessor]

namespace Run.Respects

theorem of_within {x : Run α} {P : World → α → Prop} (h : ∀ w, Within (fun _ => True) R w x P) : Respects R x :=
  fun w => (h w trivial).2.1

theorem within {x : Run α} (h : Respects R x) (w : World) : Within (fun _ => True) R w x fun _ _ => True :=
  fun _ => ⟨trivial, h w, fun _ _ => trivial⟩

variable [AllowsNew R]

theorem pure (a : α) : Respects R (Pure.pure a) := Goes.refl

theorem throw (r : Raised) : Respects R (MonadExcept.throw r : Run α) := Goes.refl

theorem bind {x : Run α} {k : α → Run β} (hx : Respects R x) (hk : ∀ a, Respects R (k a)) : Respects R (x >>= k) :=
  .of_within fun w => (hx.within w).bind fun a w' _ _ => (hk a).within w'

theorem ofExcept (f : World → Except Raised α) : Respects R (Run.ofExcept f) :=
  .of_within fun _ => .ofExcept fun _ _ _ => trivial

theorem globalValue (globals : Value) (name : String) : Respects R (NullSafe.globalValue globals name) :=
  .of_within fun _ => .globalValue globals name

theorem buildDict (entries : Entries) : Respects R (NullSafe.buildDict entries) :=
  .of_within fun _ => .buildDict fun _ _ => ⟨trivial, trivial⟩

theorem operate {host : Host} (hhost : host.ReadsWithin R) {op : Operation} {args : List Value}
    (hop : op ≠ .set ∨ args.length ≠ 3) : Respects R (host.operate op args) := by
  intro w
  rcases haccess : host.accessor? w op args with _ | access
  · rw [Host.outcome_operate, haccess]
    exact of_within (fun _ => .operation (fun _ _ => trivial) fun hset hargs => by simp [hset, hargs] at hop) w
  · unfold Host.accessor? at haccess
    split at haccess
    · obtain ⟨cls, hcls, -⟩ := Option.map_eq_some_iff.1 haccess
      exact hhost hcls
    · simp at hop
    · cases haccess

end Run.Respects

theorem Host.readsWithin_of_getter [AllowsNew R] {host : Host}
    (h : ∀ cls name r, (host.getter cls name r).Respects R) : host.ReadsWithin R := by
  intro w r name cls hcls
  have haccess : host.accessor? w .get [.object r, .str name] = some _ := congrArg (Option.map _) hcls
  rw [outcome_operate, haccess]
  exact Run.Respects.of_within (fun _ => .readComputed trivial cls name fun w' _ => (h cls name r).within w') w

/-- A property of worlds that is kept along a relation. -/
class World.Lasts (I : World → Prop) (R : World → World → Prop) : Prop where
  keep : ∀ {w w'}, I w → R w w' → I w'

instance : Lasts (fun _ => True) R := ⟨fun _ _ => trivial⟩

theorem Run.Agree.bind [AllowsNew R] [Lasts I R] {x y : Run α} {k l : α → Run β} (hx : Agree I R x y)
    (hk : ∀ a, Agree I R (k a) (l a)) : Agree I R (x >>= k) (y >>= l) := by
  refine ⟨fun w hw => ?_, hx.2.bind fun a => (hk a).2⟩
  have hw' := Lasts.keep hw (hx.2 w)
  rw [outcome_bind, outcome_bind, ← hx.1 w hw]
  rcases hout : x.outcome w with ⟨r | a, w'⟩
  · rfl
  · rw [hout] at hw'
    exact (hk a).1 w' hw'

end NullSafe
