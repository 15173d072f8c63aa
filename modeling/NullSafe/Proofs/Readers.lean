import NullSafe.Proofs.Direct
import NullSafe.Proofs.Reading

/-! # Expressions that only read

An expression without calls, assignments, patterns, arithmetic and order only reads, compares and builds. On data it
gives data, unless it comes to a read that is refused.
-/

namespace NullSafe

open Surface Direct

section Forms

def Leaf.isText : Leaf → Bool
  | .literal (.pattern _ _) => false
  | _ => true

def Surface.Key.isText : Key Leaf → Bool
  | .literal x => x.isText
  | _ => true

def Surface.BinaryOp.isEquality : BinaryOp → Bool
  | .equal | .differ | .strictEqual | .strictDiffer => true
  | _ => false

/-- Whether a unary operator neither computes nor can fail. -/
def Surface.UnaryOp.isTest : UnaryOp → Bool
  | .not | .typeof => true
  | _ => false

mutual

/-- Whether an expression only reads, compares and builds. -/
def Surface.Expr.onlyReads : Expr Leaf → Bool
  | .number _ | .constant _ | .this | .name _ => true
  | .literal x => x.isText
  | .array items => allOnlyRead items
  | .object entries => entriesOnlyRead entries
  | .member target _ => target.onlyReads
  | .index target key => target.onlyReads && key.onlyReads
  | .unary op operand => op.isTest && operand.onlyReads
  | .binary op left right => op.isEquality && (left.onlyReads && right.onlyReads)
  | .logical _ left right => left.onlyReads && right.onlyReads
  | .conditional test yes no => test.onlyReads && (yes.onlyReads && no.onlyReads)
  | .call _ _ | .assign _ _ => false

def allOnlyRead : List (Expr Leaf) → Bool
  | [] => true
  | t :: rest => t.onlyReads && allOnlyRead rest

def entriesOnlyRead : List (Key Leaf × Expr Leaf) → Bool
  | [] => true
  | (k, t) :: rest => k.isText && (t.onlyReads && entriesOnlyRead rest)

end

end Forms

abbrev Reader := Value → Value → Run Value

def Surroundings.reading (host : Host) (read : Reader) : Surroundings where
  host := host
  operate op args :=
    match op, args with
    | .get, [obj, key] => read obj key
    | op, args => host.operate op args

/-- How properties are read among the values of a host. -/
def Host.read (host : Host) : Reader := fun obj key => host.operate .get [obj, key]

theorem Surroundings.operate_reading (host : Host) : (reading host host.read).operate = host.operate := by
  funext op args
  unfold reading
  dsimp only
  split <;> rfl

section Settling

variable {η α β : Type}

/-- Ways to read that give the same data, except where a read is refused. -/
def ReadAlike (refuses : World → Value → Value → Bool) (read : η → Reader) : Prop :=
  ∀ {w : World} {obj key : Value}, w.IsData obj → w.IsData key → refuses w obj key = false →
    ∃ v w', w.Extends w' ∧ w'.IsData v ∧ ∀ i, (read i obj key).outcome w = (.ok v, w')

/-- An evaluation with each of several ways to read ends in the same way, with a result that satisfies `P`, or it
comes, whatever the way, to a read that is refused. -/
def Settles (refuses : World → Value → Value → Bool) (read : η → Reader) (e : Env) (w : World) (x : η → Direct α)
    (P : World → α → Prop) : Prop :=
  (∃ a w', w.Extends w' ∧ P w' a ∧ ∀ i, ((x i).run e).outcome w = (.ok (a, e), w')) ∨
    ∃ obj key w', refuses w' obj key = true ∧
      ∀ i, ∃ k : Value → Run (α × Env), ((x i).run e).outcome w = (read i obj key >>= k).outcome w'

variable {refuses : World → Value → Value → Bool} {read : η → Reader} {e : Env} {w : World}
  {P : World → α → Prop} {Q : World → β → Prop}

namespace Settles

variable {x : η → Direct α}

theorem pure {a : α} (h : P w a) : Settles refuses read e w (fun _ => Pure.pure a) P :=
  .inl ⟨a, w, .refl w, h, fun _ => rfl⟩

theorem bind {k : η → α → Direct β} (hx : Settles refuses read e w x P)
    (hk : ∀ a w', w.Extends w' → P w' a → Settles refuses read e w' (fun i => k i a) Q) :
    Settles refuses read e w (fun i => x i >>= k i) Q := by
  rcases hx with ⟨a, w', hw, ha, hx⟩ | ⟨obj, key, w', hrefused, hx⟩
  · have hrun : ∀ i, ((x i >>= k i).run e).outcome w = ((k i a).run e).outcome w' := by
      intro i
      rw [StateT.run_bind, Run.outcome_bind, hx i]
    rcases hk a w' hw ha with ⟨b, w'', hw', hb, hk⟩ | ⟨obj, key, w'', hrefused, hk⟩
    · exact .inl ⟨b, w'', hw.trans hw', hb, fun i => (hrun i).trans (hk i)⟩
    · exact .inr ⟨obj, key, w'', hrefused, fun i => (hk i).imp fun _ h => (hrun i).trans h⟩
  · refine .inr ⟨obj, key, w', hrefused, fun i => ?_⟩
    obtain ⟨l, hl⟩ := hx i
    refine ⟨fun v => l v >>= fun p => (k i p.1).run p.2, ?_⟩
    have hgoes := Run.outcome_bind (read i obj key >>= l) (fun p => (k i p.1).run p.2) w'
    rw [bind_assoc] at hgoes
    rw [hgoes, ← hl, StateT.run_bind, Run.outcome_bind]

theorem imp {P' : World → α → Prop} (hx : Settles refuses read e w x P)
    (h : ∀ w' a, P w' a → P' w' a) : Settles refuses read e w x P' := by
  rcases hx with ⟨a, w', hw, ha, hx⟩ | hx
  · exact .inl ⟨a, w', hw, h w' a ha, hx⟩
  · exact .inr hx

theorem map {f : α → β} (hx : Settles refuses read e w x P) (hf : ∀ w' a, P w' a → Q w' (f a)) :
    Settles refuses read e w (fun i => f <$> x i) Q := by
  simp only [map_eq_pure_bind]
  exact hx.bind fun a w' _ ha => .pure (hf w' a ha)

theorem run {x : Run α} {a : α} {w' : World} (hx : x.outcome w = (.ok a, w')) (hw : w.Extends w') (ha : P w' a) :
    Settles refuses read e w (fun _ => liftM x) P := by
  refine .inl ⟨a, w', hw, ha, fun _ => ?_⟩
  rw [run_liftM, Run.outcome_bind, hx]
  rfl

theorem lift {x : Run Value} (h : w.Gives x) : Settles refuses read e w (fun _ => liftM x) fun w' v => w'.IsData v := by
  obtain ⟨v, w', hx, hw, hv⟩ := h
  exact .run hx hw hv

theorem get : Settles refuses read e w (fun _ => MonadState.get) fun w' a => w' = w ∧ a = e :=
  .inl ⟨e, w, .refl w, ⟨rfl, rfl⟩, fun _ => rfl⟩

theorem getWorld : Settles refuses read e w (fun _ => getThe World) fun w' a => w' = w ∧ a = w :=
  .inl ⟨w, w, .refl w, ⟨rfl, rfl⟩, fun _ => rfl⟩

theorem reads (hread : ReadAlike refuses read) {obj key : Value} (hobj : w.IsData obj) (hkey : w.IsData key) :
    Settles refuses read e w (fun i => liftM (read i obj key)) fun w' v => w'.IsData v := by
  cases hrefused : refuses w obj key with
  | false =>
    obtain ⟨v, w', hw, hv, hread⟩ := hread hobj hkey hrefused
    refine .inl ⟨v, w', hw, hv, fun i => ?_⟩
    rw [run_liftM, Run.outcome_bind, hread i]
    rfl
  | true => exact .inr ⟨obj, key, w, hrefused, fun i => ⟨fun v => Pure.pure (v, e), rfl⟩⟩

end Settles

end Settling

section Holding

/-- What the variables of an expression hold is data, and every global is there. -/
structure Env.Holds (scope : Scope) (w : World) (e : Env) : Prop where
  this : w.IsData e.this
  globals : ∃ g, e.globals = .dict g ∧ w.IsData (.dict g) ∧
    ∀ n ∈ scope.globals, ∃ v, (w.dict g).lookup (.str n) = some v
  formatters : w.IsData e.formatters
  arguments : ∀ a ∈ e.arguments, w.IsData a.2

variable {scope : Scope} {w w' : World} {e : Env}

theorem World.Extends.dict {g : Ref} (h : w.Extends w') (hg : w.IsData (.dict g)) : w'.dict g = w.dict g := by
  obtain ⟨n, hn⟩ := hg
  cases hn with
  | atom h => cases h
  | holds hcontents =>
    obtain ⟨entries, hr, -⟩ := Option.map_eq_some_iff.1 hcontents
    rw [World.dict, World.dict, hr, h.dicts hr]

theorem Env.Holds.mono (he : e.Holds scope w) (h : w.Extends w') : e.Holds scope w' := by
  obtain ⟨g, hg, hdata, hnames⟩ := he.globals
  refine ⟨he.this.mono h, ⟨g, hg, hdata.mono h, ?_⟩, he.formatters.mono h, fun a ha => (he.arguments a ha).mono h⟩
  rwa [h.dict hdata]

theorem gives_globalValue {g : Ref} {n : String} {v : Value} (hg : w.IsData (.dict g))
    (hn : (w.dict g).lookup (.str n) = some v) : w.Gives (globalValue (.dict g) n) := by
  have hlookup : w.lookup (w.dict g) (.str n) = .ok (some v) := by rw [World.lookup_str, hn]
  obtain ⟨x, hx, rfl⟩ := World.mem_of_lookup hlookup
  obtain ⟨m, hm⟩ := hg
  obtain ⟨k, -, hentries⟩ := World.dict_of_nested hm
  refine ⟨x.2, w, ?_, .refl w, k, (hentries x hx).2⟩
  unfold globalValue
  dsimp only
  rw [Run.outcome_bind, Run.outcome_ofExcept, hlookup]
  rfl

/-- A mapping with texts for keys is built. It holds the last value that each of them is given. -/
theorem exists_buildDict {P : Value → Prop} {entries : Entries}
    (h : ∀ x ∈ entries, (∃ s, x.1 = .str s) ∧ P x.2) (w : World) :
    ∃ built, (buildDict entries).outcome w = (.ok (.dict w.dicts.size), (w.newDict built).2) ∧
      (∀ x ∈ built, (∃ s, x.1 = .str s) ∧ P x.2) ∧ ∀ s, built.lookup (.str s) = entries.reverse.lookup (.str s) := by
  have hbuilt : ∀ acc : Entries, (∀ x ∈ acc, (∃ s, x.1 = .str s) ∧ P x.2) →
      ∃ built, (entries.foldlM (fun acc kv => Run.ofExcept fun w => w.insert acc kv.1 kv.2) acc : Run _).outcome w =
          (.ok built, w) ∧ (∀ x ∈ built, (∃ s, x.1 = .str s) ∧ P x.2) ∧
        ∀ s, built.lookup (.str s) = (entries.reverse.lookup (.str s)).or (acc.lookup (.str s)) := by
    induction entries with
    | nil => exact fun acc hacc => ⟨acc, rfl, hacc, fun _ => rfl⟩
    | cons x rest ih =>
      intro acc hacc
      obtain ⟨⟨⟨s, hs⟩, hx⟩, hrest⟩ := List.forall_mem_cons.1 h
      have hkey : w.hashable x.1 = true := hs ▸ w.hashable_str s
      obtain ⟨acc', hinsert⟩ := World.insert_of_hashable hkey acc x.2
      have hacc' : ∀ x ∈ acc', (∃ s, x.1 = .str s) ∧ P x.2 :=
        World.forall_insert (P := fun k => ∃ s, k = .str s) hinsert ⟨s, hs⟩ hx hacc
      obtain ⟨built, hrun, hbuilt, hlookup⟩ := ih hrest acc' hacc'
      refine ⟨built, ?_, hbuilt, fun name => ?_⟩
      · rw [List.foldlM_cons, Run.outcome_bind, Run.outcome_ofExcept, hinsert]
        exact hrun
      · rw [hlookup, World.lookup_insert hinsert, World.lookup_reverse_cons]
  obtain ⟨built, hrun, hkeys, hlookup⟩ := hbuilt [] nofun
  refine ⟨built, ?_, hkeys, fun s => (hlookup s).trans (Option.or_none ..)⟩
  unfold buildDict
  rw [Run.outcome_bind, hrun]
  rfl

theorem gives_buildDict {entries : Entries}
    (h : ∀ x ∈ entries, (∃ s, x.1 = .str s) ∧ w.IsData x.2) : w.Gives (buildDict entries) := by
  obtain ⟨built, hrun, hbuilt, -⟩ := exists_buildDict h w
  have hdata : ∀ x ∈ built, w.IsData x.1 ∧ w.IsData x.2 := by
    intro x hx
    obtain ⟨⟨s, hs⟩, hv⟩ := hbuilt x hx
    exact ⟨hs ▸ .atom rfl, hv⟩
  obtain ⟨v, w', hnew, hw, hv⟩ := World.gives_newDict hdata
  exact ⟨v, w', hrun.trans hnew, hw, hv⟩

theorem Scope.mem_globals_of_classify {name : String} (h : scope.classify name = .global) : name ∈ scope.globals := by
  unfold Scope.classify at h
  split at h
  · cases h
  · split at h
    · cases h
    · split at h
      · rename_i hmem
        exact List.contains_iff_mem.1 hmem
      · cases h

end Holding

section Trees

variable {η : Type} {refuses : World → Value → Value → Bool} {read : η → Reader} {scope : Scope} {e : Env} {w : World}

def Reached (w : World) (o : Option Value) : Prop := ∀ v ∈ o, w.IsData v

theorem Settles.whole {x : η → Direct (Option Value)} (hx : Settles refuses read e w x Reached) :
    Settles refuses read e w (fun i => Direct.whole (x i)) fun w' v => w'.IsData v := by
  refine hx.bind fun o w' _ ho => .pure ?_
  rcases o with _ | v
  · exact .atom rfl
  · exact ho v rfl

theorem Settles.some {x : η → Direct Value} (hx : Settles refuses read e w x fun w' v => w'.IsData v) :
    Settles refuses read e w (fun i => Option.some <$> x i) Reached :=
  hx.map fun w' v hv x hx => by cases hx; exact hv

theorem Settles.onward {x : η → Direct (Option Value)} {present : Bool} {next : η → Value → Direct Value}
    (hx : Settles refuses read e w x Reached)
    (hnext : ∀ v w', w.Extends w' → w'.IsData v →
      Settles refuses read e w' (fun i => next i v) fun w'' v => w''.IsData v) :
    Settles refuses read e w
      (fun i => Direct.onward (x i) (fun v => return present || v ≠ .null) (next i)) Reached := by
  refine hx.bind fun o w' hw ho => ?_
  rcases o with _ | v
  · exact .pure nofun
  · simp only [pure_bind]
    split
    · exact (hnext v w' hw (ho v rfl)).some
    · exact .pure nofun

theorem settles_readName (hread : ReadAlike refuses read) (host : Host) (he : e.Holds scope w) (name : String) :
    Settles refuses read e w (fun i => readName (.reading host (read i)) scope name) fun w' v => w'.IsData v := by
  refine Settles.get.bind fun e' w' _ he' => ?_
  obtain ⟨rfl, rfl⟩ := he'
  split
  · refine .pure ?_
    unfold Env.argument
    rcases hlookup : e'.arguments.lookup name with _ | v
    · exact .atom rfl
    · obtain ⟨l₁, l₂, hl, -⟩ := List.lookup_eq_some_iff.1 hlookup
      exact he.arguments (name, v) (by simp [hl])
  · rename_i hclass
    obtain ⟨g, hg, hdata, hnames⟩ := he.globals
    obtain ⟨v, hv⟩ := hnames name (Scope.mem_globals_of_classify hclass)
    rw [hg]
    exact .lift (gives_globalValue hdata hv)
  · refine .pure ?_
    split
    · obtain ⟨g, hg, hdata, -⟩ := he.globals
      rw [hg]
      exact hdata
    · exact he.formatters
  · exact .reads hread he.this (.atom rfl)

theorem isData_numeralValue (text : String) : w.IsData (numeralValue text) := by
  unfold numeralValue
  dsimp only
  split <;> exact .atom rfl

theorem settles_leaf {x : Leaf} (hx : x.isText = true) (host : Host) :
    Settles refuses read e w (fun i => (x.eval (.reading host (read i)) : Direct Value))
      fun w' v => w'.IsData v ∧ ∃ s, v = .str s := by
  rcases x with (_ | _) | _
  · exact .pure ⟨.atom rfl, _, rfl⟩
  · cases hx
  · exact .pure ⟨.atom rfl, _, rfl⟩

theorem settles_keyValue {k : Key Leaf} (hk : k.isText = true) (host : Host) :
    Settles refuses read e w (fun i => keyValue (.reading host (read i)) k)
      fun w' v => w'.IsData v ∧ ∃ s, v = .str s := by
  cases k with
  | literal x => exact settles_leaf hk host
  | _ => exact .pure ⟨.atom rfl, _, rfl⟩

theorem settles_unaryValue {op : UnaryOp} (hop : op.isTest = true) (host : Host) (v : Value) :
    Settles refuses read e w (fun i => unaryValue (.reading host (read i)) op v) fun w' v => w'.IsData v := by
  cases op with
  | not => exact Settles.getWorld.bind fun _ _ _ _ => .pure (.atom rfl)
  | typeof => exact .lift ⟨_, w, rfl, .refl w, .atom rfl⟩
  | _ => cases hop

theorem settles_binaryValue {op : BinaryOp} (hop : op.isEquality = true) (host : Host) {a b : Value}
    (ha : w.IsData a) (hb : w.IsData b) :
    Settles refuses read e w (fun i => binaryValue (.reading host (read i)) op a b) fun w' v => w'.IsData v := by
  obtain ⟨r, hr⟩ := ha.equal hb
  have hequal : (Run.ofExcept (·.equal a b)).outcome w = (.ok r, w) := by rw [Run.outcome_ofExcept, hr]
  have hcompared : Settles refuses read e w (fun _ => (Run.ofExcept (·.equal a b) : Direct Bool)) fun _ _ => True :=
    .run hequal (.refl w) trivial
  cases op with
  | equal | differ | strictEqual | strictDiffer => exact hcompared.bind fun _ _ _ _ => .pure (.atom rfl)
  | _ => cases hop

def AllData (w : World) (vs : List Value) : Prop := ∀ v ∈ vs, w.IsData v

/-- The entries of an object have texts for keys and data for values. -/
def EntriesData (w : World) (kvs : List (Value × Value)) : Prop := ∀ x ∈ kvs, (∃ s, x.1 = .str s) ∧ w.IsData x.2

mutual

/-- What an expression that only reads reaches on data is data. -/
theorem settles_reach (hread : ReadAlike refuses read) (host : Host) : ∀ (t : Expr Leaf) {w : World},
    t.onlyReads = true → e.Holds scope w →
    Settles refuses read e w (fun i => reach (.reading host (read i)) scope t) Reached
  | .number text, w, ht, he => by
    simp only [reach]
    exact .pure (by rintro v ⟨⟩; exact isData_numeralValue text)
  | .literal x, w, ht, he => by
    simp only [reach]
    exact ((settles_leaf ht host).imp fun _ _ h => h.1).some
  | .constant c, w, ht, he => by
    simp only [reach]
    exact .pure (by rintro v ⟨⟩; cases c <;> exact .atom rfl)
  | .this, w, ht, he => by
    simp only [reach]
    refine Settles.get.bind fun e' w' _ he' => ?_
    obtain ⟨rfl, rfl⟩ := he'
    exact .pure (by rintro v ⟨⟩; exact he.this)
  | .name n, w, ht, he => by
    simp only [reach]
    exact (settles_readName hread host he n).some
  | .array items, w, ht, he => by
    simp only [reach]
    exact (settles_values hread host items ht he).bind fun vs w' _ hvs => (Settles.lift (World.gives_newList hvs)).some
  | .object entries, w, ht, he => by
    simp only [reach]
    exact (settles_entryValues hread host entries ht he).bind fun kvs w' _ hkvs =>
      (Settles.lift (gives_buildDict hkvs)).some
  | .member target name, w, ht, he => by
    simp only [reach]
    exact (settles_reach hread host target ht he).onward fun v w' _ hv => .reads hread hv (.atom rfl)
  | .index target key, w, ht, he => by
    rw [Expr.onlyReads, Bool.and_eq_true] at ht
    simp only [reach]
    refine (settles_reach hread host target ht.1 he).onward fun v w₁ hw hv => ?_
    refine (settles_reach hread host key ht.2 (he.mono hw)).whole.bind fun k w₂ hw' hk => ?_
    exact .reads hread (hv.mono hw') hk
  | .unary op operand, w, ht, he => by
    rw [Expr.onlyReads, Bool.and_eq_true] at ht
    simp only [reach]
    exact (settles_reach hread host operand ht.2 he).whole.bind fun v _ _ _ => (settles_unaryValue ht.1 host v).some
  | .binary op left right, w, ht, he => by
    rw [Expr.onlyReads, Bool.and_eq_true, Bool.and_eq_true] at ht
    simp only [reach]
    refine (settles_reach hread host left ht.2.1 he).whole.bind fun a w₁ hw ha => ?_
    refine (settles_reach hread host right ht.2.2 (he.mono hw)).whole.bind fun b w₂ hw' hb => ?_
    exact (settles_binaryValue ht.1 host (ha.mono hw') hb).some
  | .logical op left right, w, ht, he => by
    rw [Expr.onlyReads, Bool.and_eq_true] at ht
    simp only [reach]
    refine (settles_reach hread host left ht.1 he).whole.bind fun v w₁ hw hv => ?_
    refine Settles.getWorld.bind fun now w₂ _ hw' => ?_
    obtain ⟨rfl, rfl⟩ := hw'
    have hleft : Reached now (some v) := by rintro x ⟨⟩; exact hv
    have hright := (settles_reach hread host right ht.2 (he.mono hw)).whole.some
    cases op with
    | both =>
      dsimp only
      split
      · exact hright
      · exact .pure hleft
    | either =>
      dsimp only
      split
      · exact .pure hleft
      · exact hright
  | .conditional test yes no, w, ht, he => by
    rw [Expr.onlyReads, Bool.and_eq_true, Bool.and_eq_true] at ht
    simp only [reach]
    refine (settles_reach hread host test ht.1 he).whole.bind fun v w₁ hw hv => ?_
    refine Settles.getWorld.bind fun _ w₂ _ hw' => ?_
    obtain ⟨rfl, rfl⟩ := hw'
    split
    · exact (settles_reach hread host yes ht.2.1 (he.mono hw)).whole.some
    · exact (settles_reach hread host no ht.2.2 (he.mono hw)).whole.some
  | .call _ _, w, ht, he => nomatch ht
  | .assign _ _, w, ht, he => nomatch ht

theorem settles_values (hread : ReadAlike refuses read) (host : Host) : ∀ (ts : List (Expr Leaf)) {w : World},
    allOnlyRead ts = true → e.Holds scope w →
    Settles refuses read e w (fun i => values (.reading host (read i)) scope ts) AllData
  | [], w, ht, he => by
    simp only [values]
    exact .pure nofun
  | t :: rest, w, ht, he => by
    rw [allOnlyRead, Bool.and_eq_true] at ht
    simp only [values]
    refine (settles_reach hread host t ht.1 he).whole.bind fun v w₁ hw hv => ?_
    refine (settles_values hread host rest ht.2 (he.mono hw)).bind fun vs w₂ hw' hvs => ?_
    exact .pure (List.forall_mem_cons.2 ⟨hv.mono hw', hvs⟩)

theorem settles_entryValues (hread : ReadAlike refuses read) (host : Host) :
    ∀ (ts : List (Key Leaf × Expr Leaf)) {w : World}, entriesOnlyRead ts = true → e.Holds scope w →
    Settles refuses read e w (fun i => entryValues (.reading host (read i)) scope ts) EntriesData
  | [], w, ht, he => by
    simp only [entryValues]
    exact .pure nofun
  | (k, t) :: rest, w, ht, he => by
    rw [entriesOnlyRead, Bool.and_eq_true, Bool.and_eq_true] at ht
    simp only [entryValues]
    refine (settles_keyValue ht.1 host).bind fun k w₁ hw hk => ?_
    refine (settles_reach hread host t ht.2.1 (he.mono hw)).whole.bind fun v w₂ hw' hv => ?_
    refine (settles_entryValues hread host rest ht.2.2 ((he.mono hw).mono hw')).bind fun kvs w₃ hw'' hkvs => ?_
    exact .pure (List.forall_mem_cons.2 ⟨⟨hk.2, hv.mono hw''⟩, hkvs⟩)

end

end Trees

end NullSafe
