import NullSafe.Proofs.Brackets
import NullSafe.Proofs.Programs
import NullSafe.Proofs.Readers

/-! # Calls of expressions that only read

A compiled expression that only reads, called on data, returns data, unless it comes to a read that is refused. If such
reads found nothing it would always return.
-/

namespace NullSafe

open Surface

section Calls

/-- A way to read that differs from the usual one only where a read is refused. -/
def Reader.Follows (host : Host) (read : Reader) : Prop :=
  ∀ {w : World} {obj key : Value}, w.refuses obj key = false →
    (read obj key).outcome w = (host.read obj key).outcome w

/-- Reading that finds nothing where a read is refused. -/
def Reader.lenient (host : Host) : Reader := fun obj key => do
  if (← get).refuses obj key then return .null else host.read obj key

theorem Reader.follows_read (host : Host) : Reader.Follows host host.read := fun _ => rfl

theorem Reader.lenient_outcome (host : Host) (obj key : Value) (w : World) : (lenient host obj key).outcome w =
    if w.refuses obj key then (.ok .null, w) else (host.read obj key).outcome w := by
  unfold lenient
  rw [Run.outcome_bind, Run.outcome_get]
  dsimp only
  split <;> rfl

/-- A call comes to a read that is refused, whatever is done about such reads. -/
def Program.MeetsRefusal (p : Program) (host : Host) (args : List Value) (w : World) : Prop :=
  ∃ obj key w', w'.refuses obj key = true ∧ ∀ read : Reader, read.Follows host → ∃ k : Value → Run Value,
    (p.runIn (.reading host read) args).outcome w = (read obj key >>= k).outcome w'

/-- How a call of an expression that only reads ends on data. -/
structure Program.ReadsSafely (p : Program) (host : Host) (args : List Value) (w : World) : Prop where
  /-- It returns data and leaves everything in its place, unless it comes to a read that is refused. -/
  returns : ¬ p.MeetsRefusal host args w →
    ∃ v w', (p.run host args).outcome w = (.ok v, w') ∧ w.Extends w' ∧ w'.IsData v
  raises : p.MeetsRefusal host args w →
    ∃ r w', (r = .mistyped ∨ r = .invalidValue) ∧ (p.run host args).outcome w = (.error r, w')
  /-- If refused reads found nothing, it would always return. -/
  lenient : ∃ v w', (p.runIn (.reading host (.lenient host)) args).outcome w = (.ok v, w') ∧ w.Extends w' ∧ w'.IsData v
  missing : ∀ {w' : World} {obj key : Value}, w'.Lacks obj key → (host.read obj key).outcome w' = (.ok .null, w')

theorem Host.gives_read (host : Host) {w : World} {obj key : Value} (hobj : w.IsData obj) (hkey : w.IsData key)
    (h : w.refuses obj key = false) : w.Gives (host.read obj key) := by
  unfold World.Gives read
  rw [World.outcome_operate_get host fun r name hr _ => World.computing?_of_isData (hr ▸ hobj) name]
  exact World.gives_getProperty hobj hkey h

theorem readAlike_follows (host : Host) :
    ReadAlike World.refuses fun read : { read : Reader // read.Follows host } => read.1 := by
  intro w obj key hobj hkey h
  obtain ⟨v, w', hread, hw, hv⟩ := host.gives_read hobj hkey h
  exact ⟨v, w', hw, hv, fun read => (read.2 h).trans hread⟩

theorem readAlike_lenient (host : Host) : ReadAlike (fun _ _ _ => false) fun _ : Unit => Reader.lenient host := by
  intro w obj key hobj hkey _
  cases h : w.refuses obj key with
  | true =>
    refine ⟨.null, w, .refl w, .atom rfl, fun _ => ?_⟩
    rw [Reader.lenient_outcome, h]
    rfl
  | false =>
    obtain ⟨v, w', hread, hw, hv⟩ := host.gives_read hobj hkey h
    refine ⟨v, w', hw, hv, fun _ => ?_⟩
    rw [Reader.lenient_outcome, h]
    exact hread

variable {functionName : String} {names : List String} {r : Request} {generated : Generated} {t : Expr Leaf}

theorem Surroundings.reading_read (host : Host) : reading host host.read = ⟨host, host.operate⟩ := by
  rw [← operate_reading host]
  rfl

/-- What an evaluation settles to is what the call of its function ends with. -/
theorem Settles.outcome {η : Type} {refuses : World → Value → Value → Bool} {read : η → Reader} {e : Env} {w : World}
    {x : η → Direct Value} (hx : Settles refuses read e w x fun w' v => w'.IsData v) :
    (∃ v w', w.Extends w' ∧ w'.IsData v ∧
      ∀ i, ((x i).run e >>= fun p => Pure.pure p.1 : Run Value).outcome w = (.ok v, w')) ∨
    ∃ obj key w', refuses w' obj key = true ∧ ∀ i, ∃ k : Value → Run Value,
      ((x i).run e >>= fun p => Pure.pure p.1 : Run Value).outcome w = (read i obj key >>= k).outcome w' := by
  rcases hx with ⟨v, w', hw, hv, hx⟩ | ⟨obj, key, w', hrefused, hx⟩
  · refine .inl ⟨v, w', hw, hv, fun i => ?_⟩
    rw [Run.outcome_bind, hx i]
    rfl
  · refine .inr ⟨obj, key, w', hrefused, fun i => ?_⟩
    obtain ⟨k, hk⟩ := hx i
    refine ⟨fun v => k v >>= fun p => Pure.pure p.1, ?_⟩
    rw [← bind_assoc, Run.outcome_bind, hk, Run.outcome_bind (read i obj key >>= k)]

variable {host : Host} {w : World} {this formatters : Value} {g : Ref} {extra : List Value}

theorem holds_start (hthis : w.IsData this) (hg : w.IsData (.dict g)) (hformatters : w.IsData formatters)
    (hextra : ∀ v ∈ extra, w.IsData v) (hnames : ∀ n ∈ names, ∃ v, (w.dict g).lookup (.str n) = some v) :
    (Env.start r.arguments this (.dict g) formatters extra).Holds (Scope.ofNames names r.arguments) w := by
  refine ⟨hthis, ⟨g, rfl, hg, hnames⟩, hformatters, fun a ha => ?_⟩
  rcases List.mem_append.1 (List.of_mem_zip ha).2 with ha | ha
  · exact hextra a.2 ha
  · rw [(List.mem_replicate.1 ha).2]
    exact .atom rfl

/-- An expression that only reads returns on data, unless it comes to a read that is refused. -/
theorem readsSafely_of_onlyReads (hname : ∀ op : Operation, op.name ≠ functionName)
    (hrequest : Request.namesProblem? r.arguments = none) (hgetter : r.setter = false)
    (hrun : Compile.run functionName names r = .ok generated) (htree : r.IsTree t) (ht : t.onlyReads = true)
    (hnames : ∀ n ∈ names, ∃ v, (w.dict g).lookup (.str n) = some v)
    (hdata : ∀ v ∈ this :: .dict g :: formatters :: extra, w.IsData v) (hextra : extra.length ≤ r.arguments.length) :
    generated.program.ReadsSafely host (this :: .dict g :: formatters :: extra) w := by
  have hprogram := Compile.operation_name_ne hrun hname
  simp only [List.forall_mem_cons] at hdata
  obtain ⟨hthis, hg, hformatters, hvalues⟩ := hdata
  have hholds := holds_start (r := r) hthis hg hformatters hvalues hnames
  have heval : ∀ read, (generated.program.runIn (.reading host read) (this :: .dict g :: formatters :: extra)).outcome w
      = _ := fun read => Program.outcome_runIn hrun hrequest htree hextra (.reading host read) w
  simp only [hgetter] at heval
  have hlenient := (settles_reach (readAlike_lenient host) host t ht hholds).whole.outcome
  have hfollowed := (settles_reach (readAlike_follows host) host t ht hholds).whole.outcome
  refine ⟨fun hmeets => ?_, ?_, ?_, World.operate_get_of_lacks host⟩
  · rcases hfollowed with ⟨v, w', hw, hv, hend⟩ | ⟨obj, key, w', hrefused, hend⟩
    · refine ⟨v, w', ?_, hw, hv⟩
      rw [Program.run_eq hprogram, ← Surroundings.reading_read, heval]
      exact hend ⟨host.read, Reader.follows_read host⟩
    · refine absurd ⟨obj, key, w', hrefused, fun read hread => ?_⟩ hmeets
      rw [heval]
      exact hend ⟨read, hread⟩
  · rintro ⟨obj, key, w', hrefused, hend⟩
    obtain ⟨k, hk⟩ := hend host.read (Reader.follows_read host)
    obtain ⟨e, he, hraise⟩ := World.operate_get_of_refuses host hrefused
    refine ⟨e, w', he, ?_⟩
    rw [Program.run_eq hprogram, ← Surroundings.reading_read, hk, Run.outcome_bind, Host.read, hraise]
  · rcases hlenient with ⟨v, w', hw, hv, hend⟩ | ⟨_, _, _, hrefused, -⟩
    · refine ⟨v, w', ?_, hw, hv⟩
      rw [heval]
      exact hend ()
    · cases hrefused

end Calls

section Superscript

def itemRequest : Request := ⟨"a[b]", ["a", "b"], false⟩

def itemGenerated : Generated :=
  ⟨⟨"expression", ["a", "b"],
    ⟨0, .unlessNull none (.parameter "a") (.operate .get [.parameter "a", .parameter "b"])⟩, false⟩,
    "return (None if a is None else _get_(a, b))"⟩

theorem parse_item : parse "a[b]".toList = .ok (.index (.name "a") (.name "b")) := by
  have htokens : tokenize "a[b]".toList =
      .ok [⟨.name ['a'], 0⟩, ⟨.symbol .openBracket, 1⟩, ⟨.name ['b'], 2⟩, ⟨.symbol .closeBracket, 3⟩] := by
    decide +kernel
  have hfit : Fit [.name ['a'], .symbol .openBracket, .name ['b'], .symbol .closeBracket] := by unfold Fit; decide
  obtain ⟨key, hvalid, hyield, hmeaning⟩ : Derives .assign [.name ['b']] (.name "b") :=
    derives_unary ⟨.chain (.name ['b'] (by decide)) .linked, by simp [Derivation.Valid], by simp, rfl⟩
  refine parse_eq_ok_iff.2 ⟨_, lexes_of_tokensFrom htokens, hfit, derives_unary
    ⟨.chain (.name ['a'] (by decide)) (.index key .linked), by simpa [Derivation.Valid] using hvalid,
      by simp [lexemes, hyield], ?_⟩⟩
  change Expr.index (.name "a") key.meaning = _
  rw [hmeaning]

theorem analyse_item : Compile.analyse (Scope.ofNames [] ["a", "b"]) (Literal.isolate "a[b]".toList) =
    .ok ⟨0, .unlessNull none (.parameter "a") (.operate .get [.parameter "a", .parameter "b"])⟩ := by
  have hemit : emit (Scope.ofNames [] ["a", "b"]) (.index (.name "a") (.name "b") : Expr Placeholder) =
      .ok ⟨0, .unlessNull none (.parameter "a") (.operate .get [.parameter "a", .parameter "b"])⟩ := by
    rfl
  rw [show Literal.isolate "a[b]".toList = "a[b]".toList by decide +kernel]
  refine Compile.analyse_of_emit (show desugar _ = .ok "a[b]".toList by decide) ?_ hemit
  rw [show replaceWords "a[b]".toList = "a[b]".toList by decide, parse_item]

theorem run_item : Compile.run "expression" [] itemRequest = .ok itemGenerated := by
  have hplain : Text.isPlainName "expression".toList = true := by decide
  have hbody : Compile.isBuildable "expression" ["a", "b"] itemGenerated.program.body = true ∧
      Compile.bodyText false itemGenerated.program.body = itemGenerated.source := by
    decide
  have hfill : (⟨0, .unlessNull none (.parameter "a") (.operate .get [.parameter "a", .parameter "b"])⟩ :
      Body Placeholder).fill [] = .ok itemGenerated.program.body := rfl
  unfold Compile.run itemRequest
  dsimp only
  rw [analyse_item, show Literal.literals "a[b]".toList = [] by decide +kernel,
    show (Scope.ofNames [] ["a", "b"]).parameters = ["a", "b"] by decide]
  dsimp only
  rw [hfill]
  simp only [hbody, hplain]
  rfl

theorem isTree_item : itemRequest.IsTree (.index (.name "a") (.name "b")) := by
  refine ⟨"a[b]".toList, .index (.name "a") (.name "b"), by decide +kernel, ?_, ?_⟩
  · rw [show replaceWords "a[b]".toList = "a[b]".toList by decide]
    exact parse_item
  · rw [show Literal.literals itemRequest.expression.toList = [] by decide +kernel]
    rfl

def emptyPlaces : World := { lists := #[[]], dicts := #[[]] }

/-- The item of an empty list under a text that is a superscript digit. -/
def superscriptItem : List Value := [.null, .dict 0, .dict 0, .list 0, .str "²"]

theorem isData_superscriptItem : ∀ v ∈ superscriptItem, emptyPlaces.IsData v := by
  have hlist : emptyPlaces.IsData (.list 0) := .holds (show emptyPlaces.contents? (.list 0) = some [] from rfl)
    (by simp)
  have hdict : emptyPlaces.IsData (.dict 0) := .holds (show emptyPlaces.contents? (.dict 0) = some [] from rfl)
    (by simp)
  simp only [superscriptItem, List.forall_mem_cons]
  exact ⟨.atom rfl, hdict, hdict, hlist, .atom rfl, by simp⟩

def superscriptFrame : Frame :=
  { this := .null, globals := .dict 0, formatters := .dict 0, parameters := [("a", .list 0), ("b", .str "²")] }

/-- The read of an item raises, although the values are data and the expression only reads. -/
theorem raises_superscriptItem :
    Compile.run "expression" [] itemRequest = .ok itemGenerated ∧
      (Expr.index (.name "a") (.name "b") : Expr Leaf).onlyReads = true ∧
      (∀ v ∈ superscriptItem, emptyPlaces.IsData v) ∧
      (itemGenerated.program.run bareHost superscriptItem).outcome emptyPlaces =
        (.error .invalidValue, emptyPlaces) := by
  have hread : (Run.getProperty (.list 0) (.str "²")).outcome emptyPlaces = (.error .invalidValue, emptyPlaces) := by
    rw [Run.getProperty_sequence (show emptyPlaces.sequence? (.list 0) = some [] from rfl),
      Value.index?_of_unreadable (by decide +kernel)]
  refine ⟨run_item, rfl, isData_superscriptItem, ?_⟩
  rw [Program.run_eq operation_name_ne]
  change ((Run.getProperty (.list 0) (.str "²") >>= fun v => pure (v, superscriptFrame)) >>= fun p =>
    pure p.1 : Run Value).outcome emptyPlaces = _
  rw [Run.outcome_bind, Run.outcome_bind, hread]

theorem readsSafely_superscriptItem :
    (∀ v ∈ superscriptItem, emptyPlaces.IsData v) ∧
      itemGenerated.program.ReadsSafely bareHost superscriptItem emptyPlaces :=
  ⟨isData_superscriptItem, readsSafely_of_onlyReads operation_name_ne (by decide) rfl run_item isTree_item rfl (by simp)
    isData_superscriptItem (by decide)⟩

end Superscript

end NullSafe
