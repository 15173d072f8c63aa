import Mathlib.Logic.Basic
import NullSafe.Compile
import NullSafe.Proofs.Filling
import NullSafe.Proofs.Positions

/-! # Trees for which code can be built

Code is generated for a tree unless it assigns to what cannot be assigned to. The code can be built unless it has a
pattern that is left open, or a numeral with digits that are not those of ASCII. Both depend on the tree alone, not on
the temporaries that are in use already.
-/

namespace NullSafe

open Surface

variable {ι α β : Type} {b b' : Bool}

section Yields

variable {σ ε : Type} {P : α → Prop} {Q : β → Prop}

/-- What a computation yields, if it succeeds. -/
def Yields (P : α → Prop) (x : StateT σ (Except ε) α) : Prop := ∀ s r, x.run s = .ok r → P r.1

namespace Yields

theorem pure {a : α} (h : P a) : Yields P (Pure.pure a : StateT σ (Except ε) α) := by
  rintro s _ ⟨⟩
  exact h

theorem bind {x : StateT σ (Except ε) α} {k : α → StateT σ (Except ε) β} (hx : Yields P x)
    (hk : ∀ a, P a → Yields Q (k a)) : Yields Q (x >>= k) := by
  intro s r h
  rw [StateT.run_bind] at h
  rcases hrun : x.run s with fault | ⟨a, s'⟩ <;> rw [hrun] at h
  · cases h
  · exact hk a (hx s _ hrun) s' r h

theorem of_forall (h : ∀ a, P a) (x : StateT σ (Except ε) α) : Yields P x := fun _ r _ => h r.1

end Yields

end Yields

section Generated

namespace Surface.Expr

def canAssign (scope : Scope) : Expr ι → Bool
  | .name n => scope.classify n != .keyword
  | .member _ _ | .index _ _ => true
  | _ => false

mutual

def canEmit (scope : Scope) : Expr ι → Bool
  | .number _ | .literal _ | .constant _ | .this | .name _ => true
  | .array items => canEmitAll scope items
  | .object entries => canEmitEntries scope entries
  | .member target _ => canEmit scope target
  | .index target key => canEmit scope target && canEmit scope key
  | .call callee arguments => canEmit scope callee && canEmitAll scope arguments
  | .unary _ operand => canEmit scope operand
  | .binary _ left right | .logical _ left right => canEmit scope left && canEmit scope right
  | .conditional test yes no => canEmit scope test && (canEmit scope yes && canEmit scope no)
  | .assign target value => target.canAssign scope && (canEmit scope target && canEmit scope value)

def canEmitAll (scope : Scope) : List (Expr ι) → Bool
  | [] => true
  | t :: rest => canEmit scope t && canEmitAll scope rest

def canEmitEntries (scope : Scope) : List (Key ι × Expr ι) → Bool
  | [] => true
  | (_, t) :: rest => canEmit scope t && canEmitEntries scope rest

end

theorem canEmitAll_iff {scope : Scope} {ts : List (Expr ι)} :
    canEmitAll scope ts = true ↔ ∀ t ∈ ts, t.canEmit scope = true := by
  induction ts with
  | nil => simp [canEmitAll]
  | cons t rest ih => rw [canEmitAll, Bool.and_eq_true, ih, List.forall_mem_cons]

theorem canEmitEntries_iff {scope : Scope} {entries : List (Key ι × Expr ι)} :
    canEmitEntries scope entries = true ↔ ∀ x ∈ entries, x.2.canEmit scope = true := by
  induction entries with
  | nil => simp [canEmitEntries]
  | cons x rest ih => rw [canEmitEntries, Bool.and_eq_true, ih, List.forall_mem_cons]

end Surface.Expr

/-- If it is an assignment, a tree assigns to what can be assigned to. -/
def Surface.Expr.isAccepted (scope : Scope) : Expr ι → Bool
  | .assign target _ => target.canAssign scope
  | _ => true

section Accepted

open Surface.Expr

variable (scope : Scope)

mutual

theorem canEmit_eq : ∀ t : Expr ι, t.canEmit scope = t.positions.all (isAccepted scope)
  | .number _ | .literal _ | .constant _ | .this | .name _ => rfl
  | .array items => by simp [canEmit, positions, Expr.inner, isAccepted, canEmitAll_eq items]
  | .object entries => by simp [canEmit, positions, Expr.inner, isAccepted, canEmitEntries_eq entries]
  | .member target _ | .unary _ target => by simp [canEmit, positions, Expr.inner, isAccepted, canEmit_eq target]
  | .index left right | .binary _ left right | .logical _ left right => by
    simp [canEmit, positions, Expr.inner, isAccepted, canEmit_eq left, canEmit_eq right, Bool.and_assoc]
  | .call callee arguments => by
    simp [canEmit, positions, Expr.inner, isAccepted, canEmit_eq callee, canEmitAll_eq arguments, Bool.and_assoc]
  | .conditional test yes no => by
    simp [canEmit, positions, Expr.inner, isAccepted, canEmit_eq test, canEmit_eq yes, canEmit_eq no, Bool.and_assoc]
  | .assign target value => by
    have htarget : (target.canAssign scope && target.isAccepted scope) = target.canAssign scope := by
      cases target <;> simp [canAssign, isAccepted]
    have hself : isAccepted scope (.assign target value) = target.canAssign scope := rfl
    simp [canEmit, positions, Expr.inner, hself, canEmit_eq target, canEmit_eq value, ← Bool.and_assoc, htarget]

theorem canEmitAll_eq : ∀ ts : List (Expr ι), canEmitAll scope ts = (innerAll ts).all (isAccepted scope)
  | [] => rfl
  | t :: rest => by simp [canEmitAll, positions, innerAll, canEmit_eq t, canEmitAll_eq rest, Bool.and_assoc]

theorem canEmitEntries_eq :
    ∀ es : List (Key ι × Expr ι), canEmitEntries scope es = (innerEntries es).all (isAccepted scope)
  | [] => rfl
  | (_, t) :: rest => by
    simp [canEmitEntries, positions, innerEntries, canEmit_eq t, canEmitEntries_eq rest, Bool.and_assoc]

end

end Accepted

mutual

theorem yields_fill (scope : Scope) : ∀ t₀ : Expr Placeholder,
    Yields (fun t => t.canAssign scope = t₀.canAssign scope ∧ t.canEmit scope = t₀.canEmit scope) t₀.fill
  | .number _ => .pure ⟨rfl, rfl⟩
  | .literal p => (Yields.of_forall (fun _ => trivial) p.fill).bind fun _ _ => .pure ⟨rfl, rfl⟩
  | .constant _ => .pure ⟨rfl, rfl⟩
  | .this => .pure ⟨rfl, rfl⟩
  | .name _ => .pure ⟨rfl, rfl⟩
  | .array items => (yields_fillAll scope items).bind fun _ h => .pure ⟨rfl, h⟩
  | .object entries => (yields_fillEntries scope entries).bind fun _ h => .pure ⟨rfl, h⟩
  | .member target _ => (yields_fill scope target).bind fun _ h => .pure ⟨rfl, h.2⟩
  | .index target key =>
    (yields_fill scope target).bind fun _ h => (yields_fill scope key).bind fun _ hk =>
      .pure ⟨rfl, congrArg₂ (· && ·) h.2 hk.2⟩
  | .call callee arguments =>
    (yields_fill scope callee).bind fun _ h => (yields_fillAll scope arguments).bind fun _ hs =>
      .pure ⟨rfl, congrArg₂ (· && ·) h.2 hs⟩
  | .unary _ operand => (yields_fill scope operand).bind fun _ h => .pure ⟨rfl, h.2⟩
  | .binary _ left right | .logical _ left right =>
    (yields_fill scope left).bind fun _ h => (yields_fill scope right).bind fun _ h' =>
      .pure ⟨rfl, congrArg₂ (· && ·) h.2 h'.2⟩
  | .conditional test yes no =>
    (yields_fill scope test).bind fun _ h => (yields_fill scope yes).bind fun _ h' => (yields_fill scope no).bind
      fun _ h'' => .pure ⟨rfl, congrArg₂ (· && ·) h.2 (congrArg₂ (· && ·) h'.2 h''.2)⟩
  | .assign target value =>
    (yields_fill scope target).bind fun _ h => (yields_fill scope value).bind fun _ h' =>
      .pure ⟨rfl, congrArg₂ (· && ·) h.1 (congrArg₂ (· && ·) h.2 h'.2)⟩

theorem yields_fillAll (scope : Scope) : ∀ ts₀ : List (Expr Placeholder),
    Yields (fun ts => Expr.canEmitAll scope ts = Expr.canEmitAll scope ts₀) (Expr.fillAll ts₀)
  | [] => .pure rfl
  | t₀ :: rest =>
    (yields_fill scope t₀).bind fun _ h => (yields_fillAll scope rest).bind fun _ hs =>
      .pure (congrArg₂ (· && ·) h.2 hs)

theorem yields_fillEntries (scope : Scope) : ∀ es₀ : List (Key Placeholder × Expr Placeholder),
    Yields (fun es => Expr.canEmitEntries scope es = Expr.canEmitEntries scope es₀) (Expr.fillEntries es₀)
  | [] => .pure rfl
  | (k, t₀) :: rest =>
    (Yields.of_forall (fun _ => trivial) k.fill).bind fun _ _ => (yields_fill scope t₀).bind fun _ h =>
      (yields_fillEntries scope rest).bind fun _ hs => .pure (congrArg₂ (· && ·) h.2 hs)

end

theorem canEmit_filled {t₀ : Expr Placeholder} {t : Expr Leaf} {queue : List (List Char)} (h : t₀.filled queue = .ok t)
    (scope : Scope) : t.canEmit scope = t₀.canEmit scope := by
  rw [Expr.filled] at h
  rcases hrun : t₀.fill.run queue with fault | ⟨t', rest⟩ <;> rw [hrun] at h <;> cases h
  exact (yields_fill scope t₀ queue _ hrun).2

end Generated

section Built

variable {code : Code Leaf}

def BuildsBehind (guards : List (Guard Leaf)) (code : Code Leaf) : Prop :=
  (∀ g ∈ guards, g.tested.isBuildable = true) ∧ code.isBuildable = true

def Chain.Builds (c : Chain Leaf) : Prop := BuildsBehind c.guards c.head

theorem isBuildable_guarded {guards : List (Guard Leaf)} :
    (guarded guards code).isBuildable = true ↔ BuildsBehind guards code := by
  unfold BuildsBehind
  induction guards with
  | nil => simp [guarded]
  | cons g guards ih =>
    change (g.wrap (guarded guards code)).isBuildable = true ↔ _
    rw [List.forall_mem_cons, and_assoc, ← ih]
    unfold Guard.wrap
    split <;> rw [Code.isBuildable, Bool.and_eq_true]

theorem Chain.isBuildable_close {c : Chain Leaf} : c.close.isBuildable = true ↔ c.Builds := isBuildable_guarded

namespace Surface.Expr

mutual

def isBuildable : Expr Leaf → Bool
  | .number text => text.toList.all (·.toNat < 0x80)
  | .literal x => x.isBuildable
  | .constant _ | .this | .name _ => true
  | .array items => areBuildable items
  | .object entries => entriesBuildable entries
  | .member target _ => isBuildable target
  | .index target key => isBuildable target && isBuildable key
  | .call callee arguments => isBuildable callee && areBuildable arguments
  | .unary _ operand => isBuildable operand
  | .binary _ left right | .logical _ left right => isBuildable left && isBuildable right
  | .conditional test yes no => isBuildable test && (isBuildable yes && isBuildable no)
  | .assign target value => isBuildable target && isBuildable value

def areBuildable : List (Expr Leaf) → Bool
  | [] => true
  | t :: rest => isBuildable t && areBuildable rest

def entriesBuildable : List (Key Leaf × Expr Leaf) → Bool
  | [] => true
  | (k, t) :: rest => (keyCode k).isBuildable && (isBuildable t && entriesBuildable rest)

end

theorem areBuildable_iff {ts : List (Expr Leaf)} : areBuildable ts = true ↔ ∀ t ∈ ts, t.isBuildable = true := by
  induction ts with
  | nil => simp [areBuildable]
  | cons t rest ih => rw [areBuildable, Bool.and_eq_true, ih, List.forall_mem_cons]

theorem entriesBuildable_iff {entries : List (Key Leaf × Expr Leaf)} :
    entriesBuildable entries = true ↔ ∀ x ∈ entries, (keyCode x.1).isBuildable = true ∧ x.2.isBuildable = true := by
  induction entries with
  | nil => simp [entriesBuildable]
  | cons x rest ih =>
    rw [entriesBuildable, Bool.and_eq_true, Bool.and_eq_true, ih, List.forall_mem_cons, and_assoc]

end Surface.Expr

section Guards

variable {c : Chain Leaf} {test : Test} {n m : Nat} {x : List (Guard Leaf) × Code Leaf}

theorem buildsBehind_guard (h : (c.guard test).run n = .ok (x, m)) : BuildsBehind x.1 x.2 ↔ c.Builds := by
  have hguards : ∀ kept, (∀ g ∈ c.guards ++ [⟨test, kept, c.head⟩], g.tested.isBuildable = true) ↔ c.Builds := by
    intro kept
    rw [List.forall_mem_append, List.forall_mem_singleton]
    rfl
  unfold Chain.guard at h
  split at h <;> cases h
  · exact ⟨fun h => (hguards none).1 h.1, fun h => ⟨(hguards none).2 h, h.2⟩⟩
  · exact ⟨fun h => (hguards _).1 h.1, fun h => ⟨(hguards _).2 h, rfl⟩⟩

theorem buildsBehind_demand (h : c.demand.run n = .ok (x, m)) : BuildsBehind x.1 x.2 ↔ c.Builds := by
  unfold Chain.demand at h
  split at h
  · cases h
    exact Iff.rfl
  · exact buildsBehind_guard h

end Guards

theorem isBuildable_unaryCode (op : UnaryOp) (x : Code Leaf) : (unaryCode op x).isBuildable = x.isBuildable := by
  cases op <;> simp [unaryCode, Code.isBuildable, Code.areBuildable]

theorem isBuildable_binaryCode (op : BinaryOp) (x y : Code Leaf) :
    (binaryCode op x y).isBuildable = (x.isBuildable && y.isBuildable) := by
  cases op <;> simp [binaryCode, Code.isBuildable, Code.areBuildable]

theorem builds_name (scope : Scope) (n : String) : (scope.chain n).Builds := by
  unfold Scope.chain
  split
  · exact ⟨nofun, rfl⟩
  · exact ⟨nofun, rfl⟩
  · refine ⟨nofun, ?_⟩
    unfold keywordCode
    split <;> rfl
  · exact ⟨nofun, rfl⟩

theorem builds_plain : (Chain.plain code).Builds ↔ code.isBuildable = true := by
  simp [Chain.plain, Chain.Builds, BuildsBehind]

theorem builds_known : (Chain.known code).Builds ↔ code.isBuildable = true := by
  simp [Chain.known, Chain.Builds, BuildsBehind]

theorem buildsBehind_congr {guards : List (Guard Leaf)} {value : Code Leaf}
    (h : code.isBuildable = (value.isBuildable && b)) :
    BuildsBehind guards code ↔ BuildsBehind guards value ∧ b = true := by
  unfold BuildsBehind
  rw [h, Bool.and_eq_true, and_assoc]

theorem isBuildable_write (scope : Scope) (n : String) (code : Code Leaf) :
    (scope.write n code).isBuildable = code.isBuildable := by
  unfold Scope.write
  split <;> simp [Code.isBuildable, Code.areBuildable]

variable {scope : Scope}

mutual

/-- The code of a tree can be built exactly if nothing in the tree forbids it. -/
theorem builds_of_emits : ∀ {t : Expr Leaf} {n m : Nat} {c : Chain Leaf}, Emits scope t n m c →
    (c.Builds ↔ t.isBuildable = true)
  | _, _, _, _, .number _ | _, _, _, _, .literal _ => builds_known
  | _, _, _, _, .constant _ => iff_of_true (builds_plain.2 rfl) rfl
  | _, _, _, _, .this => iff_of_true ⟨nofun, rfl⟩ rfl
  | _, _, _, _, .name n => iff_of_true (builds_name scope n) rfl
  | _, _, _, _, .array h => builds_known.trans (builds_of_emitsAll h)
  | _, _, _, _, .object h => builds_known.trans (builds_of_emitsEntries h)
  | _, _, _, _, .member ht hd => by
    rw [Chain.Builds, @buildsBehind_congr true, buildsBehind_demand hd, builds_of_emits ht, Expr.isBuildable]
    · simp
    · simp [Code.isBuildable, Code.areBuildable]
  | _, _, _, _, .index ht hd hk => by
    rw [Chain.Builds, buildsBehind_congr, buildsBehind_demand hd, builds_of_emits ht, Chain.isBuildable_close,
      builds_of_emits hk, Expr.isBuildable, Bool.and_eq_true]
    simp [Code.isBuildable, Code.areBuildable]
  | _, _, _, _, .call hc hd hs => by
    rw [Chain.Builds, buildsBehind_congr rfl, buildsBehind_guard hd, builds_of_emits hc, builds_of_emitsAll hs,
      Expr.isBuildable, Bool.and_eq_true]
  | _, _, _, _, .unary op hx => by
    rw [builds_plain, isBuildable_unaryCode, Chain.isBuildable_close, builds_of_emits hx, Expr.isBuildable]
  | _, _, _, _, .binary op hl hr => by
    rw [builds_plain, isBuildable_binaryCode, Bool.and_eq_true, Chain.isBuildable_close, Chain.isBuildable_close,
      builds_of_emits hl, builds_of_emits hr, Expr.isBuildable, Bool.and_eq_true]
  | _, _, _, _, .logical op hl hr => by
    rw [builds_plain, Code.isBuildable, Bool.and_eq_true, Chain.isBuildable_close, Chain.isBuildable_close,
      builds_of_emits hl, builds_of_emits hr, Expr.isBuildable, Bool.and_eq_true]
  | _, _, _, _, .conditional ht hy hn => by
    rw [builds_plain, Code.isBuildable, Expr.isBuildable]
    simp only [Bool.and_eq_true, Chain.isBuildable_close, builds_of_emits ht, builds_of_emits hy, builds_of_emits hn,
      and_assoc]
  | _, _, _, _, .assignName _ hv => by
    rw [builds_plain, isBuildable_write, Chain.isBuildable_close, builds_of_emits hv, Expr.isBuildable,
      Expr.isBuildable, Bool.true_and]
  | _, _, _, _, .assignMember ht hd hv => by
    rw [builds_plain, isBuildable_guarded, buildsBehind_congr, buildsBehind_demand hd, builds_of_emits ht,
      Chain.isBuildable_close, builds_of_emits hv, Expr.isBuildable, Expr.isBuildable, Bool.and_eq_true]
    simp [Code.isBuildable, Code.areBuildable]
  | _, _, _, _, @Emits.assignIndex _ _ _ _ _ _ _ _ _ _ _ ck cv _ _ ht hd hk hv => by
    rw [builds_plain, isBuildable_guarded, @buildsBehind_congr (ck.close.isBuildable && cv.close.isBuildable),
      buildsBehind_demand hd, builds_of_emits ht, Bool.and_eq_true, Chain.isBuildable_close, Chain.isBuildable_close,
      builds_of_emits hk, builds_of_emits hv, Expr.isBuildable, Expr.isBuildable, Bool.and_eq_true, Bool.and_eq_true,
      and_assoc]
    simp [Code.isBuildable, Code.areBuildable]

theorem builds_of_emitsAll : ∀ {ts : List (Expr Leaf)} {n m : Nat} {cs : List (Code Leaf)}, EmitsAll scope ts n m cs →
    (Code.areBuildable cs = true ↔ Expr.areBuildable ts = true)
  | _, _, _, _, .nil => Iff.rfl
  | _, _, _, _, .cons h hs => by
    rw [Code.areBuildable, Expr.areBuildable, Bool.and_eq_true, Bool.and_eq_true, Chain.isBuildable_close,
      builds_of_emits h, builds_of_emitsAll hs]

theorem builds_of_emitsEntries : ∀ {es : List (Key Leaf × Expr Leaf)} {n m : Nat} {cs : List (Code Leaf × Code Leaf)},
    EmitsEntries scope es n m cs → (Code.entriesBuildable cs = true ↔ Expr.entriesBuildable es = true)
  | _, _, _, _, .nil => Iff.rfl
  | _, _, _, _, .cons _ h hs => by
    rw [Code.entriesBuildable, Expr.entriesBuildable]
    simp only [Bool.and_eq_true, Chain.isBuildable_close, builds_of_emits h, builds_of_emitsEntries hs, and_assoc]

end

end Built

section Bodies

variable {scope : Scope}

theorem canAssign_iff {t : Expr ι} : t.canAssign scope = true ↔ t.refusal? scope = none := by
  cases t <;> simp [Expr.canAssign, Expr.refusal?]

theorem exists_emit_iff {t : Expr ι} : (∃ body, emit scope t = .ok body) ↔ t.canEmit scope = true := by
  have hpositions := emit_positions scope t
  rw [canEmit_eq, List.all_eq_true]
  rcases hemit : emit scope t with f | body <;> rw [hemit] at hpositions
  · obtain ⟨target, value, hmem, hf⟩ := hpositions
    refine iff_of_false nofun fun h => ?_
    rw [canAssign_iff.1 (h _ hmem)] at hf
    cases hf
  · refine iff_of_true ⟨body, rfl⟩ fun u hu => ?_
    cases u with
    | assign target value =>
      obtain ⟨n, r, hrun, -⟩ := hpositions _ hu
      exact canAssign_iff.2 (refusal_none_of_run hrun)
    | _ => rfl

theorem isBuildable_emit {t : Expr Leaf} {body : Body Leaf} (h : emit scope t = .ok body) :
    body.code.isBuildable = true ↔ t.isBuildable = true := by
  obtain ⟨c, hc, hcode⟩ := emit_eq_ok_iff.1 h
  rw [hcode, Chain.isBuildable_close]
  exact builds_of_emits hc

end Bodies

end NullSafe
