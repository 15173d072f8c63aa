import NullSafe.Proofs.Layouts
import NullSafe.Proofs.Programs
import NullSafe.Proofs.Stages

/-! # Parts and the queue of literals

The literals of a pipeline are those of its parts, one part after the other, and the parts take them from one queue. A
part with two slashes next to each other takes more than its own, if there are any behind its own.
-/

namespace NullSafe

open Surface Literal Text List

section Takes

variable {α β : Type} {n m : Nat}

/-- A computation that takes a number of literals and leaves those behind them. -/
def Filling.Takes (n : Nat) (x : Filling α) : Prop :=
  ∀ queue rest, queue.length = n → x.run (queue ++ rest) = (fun p => (p.1, rest)) <$> x.run queue

namespace Filling.Takes

variable {x : Filling α}

theorem pure (a : α) : Takes 0 (Pure.pure a) := by
  intro queue rest h
  rw [length_eq_zero_iff.1 h]
  rfl

theorem bind {k : α → Filling β} (hx : Takes n x) (hk : ∀ a, Takes m (k a)) : Takes (n + m) (x >>= k) := by
  intro queue rest h
  obtain ⟨own, behind, rfl, hown, hbehind⟩ : ∃ own behind, queue = own ++ behind ∧ own.length = n ∧
      behind.length = m := ⟨queue.take n, queue.drop n, by simp, by simp; omega, by simp; omega⟩
  rw [append_assoc, StateT.run_bind, StateT.run_bind, hx own _ hown, hx own _ hown]
  rcases x.run own with fault | ⟨a, _⟩
  · rfl
  · exact hk a behind rest hbehind

theorem fill (p : Placeholder) : Takes 1 p.fill := by
  intro queue rest h
  obtain ⟨raw, rfl⟩ := length_eq_one_iff.1 h
  simp [Placeholder.fill]

theorem key (k : Key Placeholder) : Takes (Atom.leaves k.atoms).length k.fill := by
  cases k with
  | name text => exact pure _
  | literal p => exact (fill p).bind fun _ => pure _
  | number text => exact pure _

theorem cast (hx : Takes n x) (h : n = m) : Takes m x := h ▸ hx

end Filling.Takes

namespace Surface.Expr

open Filling

mutual

/-- Filling a tree takes a literal for each of its leaves. -/
theorem takes_fill : ∀ t : Expr Placeholder, Takes t.leaves.length t.fill
  | .number _ => .pure _
  | .literal p => (Takes.fill p).bind fun _ => .pure _
  | .constant _ => .pure _
  | .this => .pure _
  | .name _ => .pure _
  | .array items => (takes_fillAll items).bind fun _ => .pure _
  | .object entries => (takes_fillEntries entries).bind fun _ => .pure _
  | .member target _ => ((takes_fill target).bind fun _ => .pure _).cast (by simp [leaves, atoms])
  | .index target key =>
    ((takes_fill target).bind fun _ => (takes_fill key).bind fun _ => .pure _).cast (by simp [leaves, atoms])
  | .call callee arguments =>
    ((takes_fill callee).bind fun _ => (takes_fillAll arguments).bind fun _ => .pure _).cast (by simp [leaves, atoms])
  | .unary _ operand => (takes_fill operand).bind fun _ => .pure _
  | .binary _ left right =>
    ((takes_fill left).bind fun _ => (takes_fill right).bind fun _ => .pure _).cast (by simp [leaves, atoms])
  | .logical _ left right =>
    ((takes_fill left).bind fun _ => (takes_fill right).bind fun _ => .pure _).cast (by simp [leaves, atoms])
  | .conditional test yes no =>
    ((takes_fill test).bind fun _ => (takes_fill yes).bind fun _ => (takes_fill no).bind fun _ => .pure _).cast
      (by simp [leaves, atoms])
  | .assign target value =>
    ((takes_fill target).bind fun _ => (takes_fill value).bind fun _ => .pure _).cast (by simp [leaves, atoms])

theorem takes_fillAll : ∀ ts : List (Expr Placeholder), Takes (Atom.leaves (atomsAll ts)).length (fillAll ts)
  | [] => .pure _
  | t :: rest =>
    ((takes_fill t).bind fun _ => (takes_fillAll rest).bind fun _ => .pure _).cast (by simp [leaves, atomsAll])

theorem takes_fillEntries : ∀ es : List (Key Placeholder × Expr Placeholder),
    Takes (Atom.leaves (atomsEntries es)).length (fillEntries es)
  | [] => .pure _
  | (k, t) :: rest =>
    ((Takes.key k).bind fun _ => (takes_fill t).bind fun _ => (takes_fillEntries rest).bind fun _ => .pure _).cast
      (by simp [leaves, atomsEntries])

end

end Surface.Expr

end Takes

section Own

variable {t₀ : Expr Placeholder} {t : Expr Leaf} {own behind rest : List (List Char)}

def Leaf.isLiteral : Leaf → Bool
  | .literal _ => true
  | .unfilled _ => false

theorem countP_isLiteral (h : t₀.fill.run own = .ok (t, rest)) (hown : own.length ≤ t₀.leaves.length) :
    t.leaves.countP Leaf.isLiteral = own.length ∧ rest = [] := by
  have hleaves := Expr.leaves_fill_of_le hown
  rw [h] at hleaves
  rcases hls : own.mapM ofRaw with fault | ls <;> rw [hls] at hleaves
  · cases hleaves
  · obtain ⟨hleaves, rfl⟩ := Prod.mk.inj (Except.ok.inj hleaves)
    refine ⟨?_, rfl⟩
    have hliteral : ls.countP (Leaf.isLiteral ∘ Leaf.literal) = ls.length := countP_eq_length.2 fun _ _ => rfl
    have hunfilled : ∀ ps : List Placeholder, ps.countP (Leaf.isLiteral ∘ Leaf.unfilled) = 0 := fun ps =>
      countP_eq_zero.2 fun _ _ => Bool.false_ne_true
    dsimp only at hleaves
    rw [hleaves, countP_append, countP_map, countP_map, hliteral, hunfilled, Nat.add_zero]
    exact (mapM_eq_ok_iff.1 hls).length_eq

/-- A tree takes just its own literals from a queue exactly if it has as many leaves, or nothing is behind them. -/
theorem fill_append_iff (h : t₀.filled own = .ok t) (hown : own.length ≤ t₀.leaves.length) :
    t₀.fill.run (own ++ behind) = .ok (t, rest) ↔ (t₀.leaves.length = own.length ∨ behind = []) ∧ rest = behind := by
  obtain ⟨r, hrun⟩ : ∃ r, t₀.fill.run own = .ok (t, r) := by
    rw [Expr.filled] at h
    rcases hrun : t₀.fill.run own with fault | ⟨t', r⟩ <;> rw [hrun] at h <;> cases h
    exact ⟨r, rfl⟩
  obtain ⟨hcount, rfl⟩ := countP_isLiteral hrun hown
  have hexact : t₀.leaves.length = own.length → t₀.fill.run (own ++ behind) = .ok (t, behind) := fun hlength => by
    rw [t₀.takes_fill own behind hlength.symm, hrun]
    rfl
  constructor
  · intro hall
    -- a leaf for which its own literals are too few would take one that is behind them
    have hor : t₀.leaves.length = own.length ∨ behind = [] := by
      by_contra hnot
      obtain ⟨hlength, hbehind⟩ := not_or.1 hnot
      have hpos := length_pos_iff.2 hbehind
      rcases Nat.le_total (own ++ behind).length t₀.leaves.length with hle | hge
      · have hmore := (countP_isLiteral hall hle).1
        rw [hcount, length_append] at hmore
        omega
      · have htaken : ((own ++ behind).take t₀.leaves.length).length = t₀.leaves.length := length_take_of_le hge
        rw [← take_append_drop t₀.leaves.length (own ++ behind), t₀.takes_fill _ _ htaken] at hall
        rcases hrun' : t₀.fill.run ((own ++ behind).take t₀.leaves.length) with fault | ⟨t', r⟩ <;>
          rw [hrun'] at hall <;> cases hall
        have hmore := (countP_isLiteral hrun' htaken.le).1
        rw [hcount] at hmore
        omega
    refine ⟨hor, ?_⟩
    rcases hor with hlength | rfl
    · rw [hexact hlength] at hall
      exact (Prod.mk.inj (Except.ok.inj hall)).2.symm
    · rw [append_nil, hrun] at hall
      exact (Prod.mk.inj (Except.ok.inj hall)).2.symm
  · rintro ⟨hlength | rfl, rfl⟩
    · exact hexact hlength
    · rw [append_nil]
      exact hrun

end Own

section Gives

variable {α β γ : Type} {ps qs queue : List (List Char)}

/-- Texts in front of queued literals, none of which takes a literal that is not its own: it has no two slashes next to
each other outside its literals, or nothing is behind its literals. -/
def Undisturbed (parts queue : List (List Char)) : Prop :=
  (parts.Pairwise fun a b => Apart (pieces a) ∨ literals b = []) ∧ ∀ a ∈ parts, Apart (pieces a) ∨ queue = []

theorem undisturbed_nil : Undisturbed [] queue := ⟨.nil, nofun⟩

theorem undisturbed_append :
    Undisturbed (ps ++ qs) queue ↔ Undisturbed ps (qs.flatMap literals ++ queue) ∧ Undisturbed qs queue := by
  unfold Undisturbed
  rw [pairwise_append, forall_mem_append]
  have hbehind : ∀ a, (Apart (pieces a) ∨ qs.flatMap literals ++ queue = []) ↔
      (∀ b ∈ qs, Apart (pieces a) ∨ literals b = []) ∧ (Apart (pieces a) ∨ queue = []) := by
    intro a
    rw [append_eq_nil_iff, flatMap_eq_nil_iff]
    by_cases ha : Apart (pieces a) <;> simp [ha]
  simp only [hbehind]
  constructor
  · rintro ⟨⟨hps, hqs, hcross⟩, hps', hqs'⟩
    exact ⟨⟨hps, fun a ha => ⟨hcross a ha, hps' a ha⟩⟩, hqs, hqs'⟩
  · rintro ⟨⟨hps, hcross⟩, hqs, hqs'⟩
    exact ⟨⟨hps, hqs, fun a ha => (hcross a ha).1⟩, fun a ha => (hcross a ha).2, hqs'⟩

/-- A computation gives `a` from the literals of texts that are in front of a queue, and leaves the queue, exactly if
the texts are undisturbed. -/
def Filling.Gives (x : Filling α) (parts : List (List Char)) (a : α) : Prop :=
  ∀ queue rest, x.run (parts.flatMap literals ++ queue) = .ok (a, rest) ↔ Undisturbed parts queue ∧ rest = queue

namespace Filling.Gives

theorem pure (a : α) : Gives (Pure.pure a) [] a := by
  intro queue rest
  change Except.ok (a, queue) = .ok (a, rest) ↔ _
  rw [Except.ok.injEq, Prod.mk.injEq]
  exact ⟨fun h => ⟨undisturbed_nil, h.2.symm⟩, fun h => ⟨rfl, h.2.symm⟩⟩

theorem seq {x : Filling α} {y : Filling β} {f : α → β → γ} {a : α} {b : β} (hx : Gives x ps a) (hy : Gives y qs b)
    (hf : ∀ a' b', f a' b' = f a b → a' = a ∧ b' = b) :
    Gives (do let a ← x; let b ← y; return f a b) (ps ++ qs) (f a b) := by
  intro queue rest
  have hsteps : (do let a ← x; let b ← y; return f a b : Filling γ).run ((ps ++ qs).flatMap literals ++ queue) =
      .ok (f a b, rest) ↔ ∃ mid, x.run (ps.flatMap literals ++ (qs.flatMap literals ++ queue)) = .ok (a, mid) ∧
        y.run mid = .ok (b, rest) := by
    rw [flatMap_append, append_assoc, StateT.run_bind]
    rcases hxr : x.run (ps.flatMap literals ++ (qs.flatMap literals ++ queue)) with fault | ⟨a', mid⟩
    · exact iff_of_false nofun nofun
    · change (y.run mid >>= fun p => Except.ok (f a' p.1, p.2)) = .ok (f a b, rest) ↔ _
      rcases hyr : y.run mid with fault | ⟨b', rest'⟩
      · refine iff_of_false nofun ?_
        rintro ⟨mid', ⟨⟩, h⟩
        rw [hyr] at h
        cases h
      · change Except.ok (f a' b', rest') = .ok (f a b, rest) ↔ _
        rw [Except.ok.injEq, Prod.mk.injEq]
        constructor
        · rintro ⟨hab, rfl⟩
          obtain ⟨rfl, rfl⟩ := hf a' b' hab
          exact ⟨mid, rfl, hyr⟩
        · rintro ⟨mid', ⟨⟩, h⟩
          rw [hyr] at h
          cases h
          exact ⟨rfl, rfl⟩
  rw [hsteps, undisturbed_append]
  constructor
  · rintro ⟨mid, hmid, hrest⟩
    obtain ⟨hps, rfl⟩ := (hx _ _).1 hmid
    obtain ⟨hqs, rfl⟩ := (hy _ _).1 hrest
    exact ⟨⟨hps, hqs⟩, rfl⟩
  · rintro ⟨⟨hps, hqs⟩, rfl⟩
    exact ⟨_, (hx _ _).2 ⟨hps, rfl⟩, (hy _ _).2 ⟨hqs, rfl⟩⟩

theorem nil : Gives (Expr.fillAll []) [] [] := pure []

theorem cons {t₀ : Expr Placeholder} {t : Expr Leaf} {ts₀ : List (Expr Placeholder)} {ts : List (Expr Leaf)}
    (ht : Gives t₀.fill ps t) (hts : Gives (Expr.fillAll ts₀) qs ts) :
    Gives (Expr.fillAll (t₀ :: ts₀)) (ps ++ qs) (t :: ts) :=
  ht.seq hts fun _ _ h => List.cons.inj h

end Filling.Gives

/-- The tree of a text whose literals are set aside. -/
def IsSkeleton (cs : List Char) (t₀ : Expr Placeholder) : Prop := parse (replaceWords (isolate cs)) = .ok t₀

def Reads (cs : List Char) (t : Expr Leaf) : Prop := ∃ t₀, IsSkeleton cs t₀ ∧ t₀.filled (literals cs) = .ok t

theorem leaves_length_eq_iff {cs : List Char} {t₀ : Expr Placeholder} (h : IsSkeleton cs t₀) :
    (literals cs).length ≤ t₀.leaves.length ∧ (t₀.leaves.length = (literals cs).length ↔ Apart (pieces cs)) := by
  have hleaves : t₀.leaves.length = (placeholders (isolate cs)).length := by
    rw [← placeholders_replaceWords, ← (covers_of_parse h).1, length_map]
  have hliterals : (literals cs).length = (delimiters (pieces cs)).length := (length_delimiters none cs).symm
  refine ⟨hleaves ▸ length_literals_le cs, ?_⟩
  rw [hleaves, hliterals]
  refine ⟨fun hlength => ?_, fun hapart => ?_⟩
  · by_contra hapart
    have hlt : (delimiters (pieces cs)).length < (marksFrom false (pieces cs)).length := length_delimiters_lt hapart
    rw [placeholders_isolate] at hlength
    exact absurd hlength hlt.ne'
  · rw [(placeholders_isolate_iff cs).2 hapart]

/-- A part gives its own tree from its own literals. -/
theorem Filling.gives_fill {cs : List Char} {t₀ : Expr Placeholder} {t : Expr Leaf}
    (h : IsSkeleton cs t₀) (hfilled : t₀.filled (literals cs) = .ok t) : Gives t₀.fill [cs] t := by
  intro queue rest
  obtain ⟨hle, heq⟩ := leaves_length_eq_iff h
  rw [flatMap_singleton, fill_append_iff hfilled hle, heq]
  simp [Undisturbed]

end Gives

section Denotes

variable {ι : Type}

/-- The parts of a layout stand for those of a pipeline, each text for a tree. -/
structure Surface.Layout.Denotes (R : List Char → Expr ι → Prop) (l : Layout) (p : Piped ι) : Prop where
  target : Option.Rel (fun cs t => R cs t ∧ t.isTarget = true) l.target p.target
  value : R l.value p.value
  stages : List.Forall₂ (fun (s : Segment) (stage : Stage ι) =>
    stage.name = String.ofList s.name ∧ List.Forall₂ R s.parts stage.arguments) l.segments p.stages

variable {l : Layout} {t₀ : Expr Placeholder} {t : Expr Leaf} {ps : List (List Char)}

open Filling

theorem Stage.gives_call {s₀ : Stage Placeholder} {s : Stage Leaf} {qs : List (List Char)} (hname : s₀.name = s.name)
    (ht : Gives t₀.fill ps t) (hs : Gives (Expr.fillAll s₀.arguments) qs s.arguments) :
    Gives (Stage.call t₀ s₀).fill (ps ++ qs) (Stage.call t s) := by
  have hcallee : Gives (Expr.member (Expr.member (.name "_formatters_") s₀.name) "call" : Expr Placeholder).fill []
      (.member (.member (.name "_formatters_") s.name) "call") := hname ▸ Gives.pure _
  have hthis : Gives (Expr.this : Expr Placeholder).fill [] .this := Gives.pure _
  have harguments : Gives (Expr.fillAll (.this :: t₀ :: s₀.arguments)) (ps ++ qs) (.this :: t :: s.arguments) :=
    hthis.cons (ht.cons hs)
  exact hcallee.seq harguments fun _ _ h => by simpa using h

theorem exists_arguments {parts : List (List Char)} {ts : List (Expr Leaf)} (h : List.Forall₂ Reads parts ts) :
    ∃ ts₀, List.Forall₂ IsSkeleton parts ts₀ ∧ ∀ {us₀ us qs}, Gives (Expr.fillAll us₀) qs us →
      Gives (Expr.fillAll (ts₀ ++ us₀)) (parts ++ qs) (ts ++ us) := by
  induction h with
  | nil => exact ⟨[], .nil, fun hus => hus⟩
  | cons h _ ih =>
    obtain ⟨t₀, ht₀, hfilled⟩ := h
    obtain ⟨ts₀, hts₀, hgives⟩ := ih
    exact ⟨t₀ :: ts₀, .cons ht₀ hts₀, fun hus => (gives_fill ht₀ hfilled).cons (hgives hus)⟩

/-- The formatters of a layout take the literals in the order in which they are written. -/
theorem exists_stages {segments : List Segment} {stages : List (Stage Leaf)}
    (h : List.Forall₂ (fun (s : Segment) (stage : Stage Leaf) =>
      stage.name = String.ofList s.name ∧ List.Forall₂ Reads s.parts stage.arguments) segments stages) :
    ∃ stages₀ : List (Stage Placeholder), List.Forall₂ (fun (s : Segment) (stage : Stage Placeholder) =>
        stage.name = String.ofList s.name ∧ List.Forall₂ IsSkeleton s.parts stage.arguments) segments stages₀ ∧
      ∀ {t₀ t ps}, Gives t₀.fill ps t →
        Gives (Stage.nest t₀ stages₀).fill (ps ++ segments.flatMap Segment.parts) (Stage.nest t stages) := by
  induction h with
  | nil => exact ⟨[], .nil, fun ht => by rwa [flatMap_nil, append_nil]⟩
  | @cons s stage segments stages h _ ih =>
    obtain ⟨hname, harguments⟩ := h
    obtain ⟨ts₀, hts₀, hgives⟩ := exists_arguments harguments
    obtain ⟨stages₀, hstages₀, hnest⟩ := ih
    have hown := hgives Gives.nil
    rw [append_nil, append_nil, append_nil] at hown
    refine ⟨⟨stage.name, ts₀⟩ :: stages₀, .cons ⟨hname, hts₀⟩ hstages₀, fun ht => ?_⟩
    rw [flatMap_cons, ← append_assoc]
    exact hnest (Stage.gives_call rfl ht hown)

theorem isTarget_of_filled {queue : List (List Char)} (h : t₀.filled queue = .ok t) : t.isTarget = t₀.isTarget := by
  have hroot : Expr.isTarget <$> t₀.fill = (fun _ => t₀.isTarget) <$> t₀.fill := by
    cases t₀ <;> simp [Expr.fill, Expr.isTarget]
  rw [Expr.filled] at h
  rcases hrun : t₀.fill.run queue with fault | ⟨t', rest⟩ <;> rw [hrun] at h <;> cases h
  have hsame := congrArg (StateT.run · queue) hroot
  simp only [StateT.run_map, hrun] at hsame
  exact (Prod.mk.inj (Except.ok.inj hsame)).1

/-- A pipeline takes the literals of its parts in the order in which they are written. -/
theorem exists_skeleton {p : Piped Leaf} (h : l.Denotes Reads p) :
    ∃ p₀ : Piped Placeholder, l.Denotes IsSkeleton p₀ ∧ Gives p₀.tree.fill l.parts p.tree := by
  rcases l with ⟨target, value, segments⟩
  rcases p with ⟨target', v, stages⟩
  obtain ⟨htarget, ⟨v₀, hv₀, hv⟩, hstages⟩ := h
  have hvalue := gives_fill hv₀ hv
  cases htarget with
  | none =>
    obtain ⟨stages₀, hstages₀, hnest⟩ := exists_stages hstages
    exact ⟨⟨none, v₀, stages₀⟩, ⟨.none, hv₀, hstages₀⟩, hnest hvalue⟩
  | @some target t h =>
    obtain ⟨⟨t₀, ht₀, ht⟩, hisTarget⟩ := h
    have htarget₀ : t₀.isTarget = true := isTarget_of_filled ht ▸ hisTarget
    have hassign : ∀ {u₀ u qs}, Gives u₀.fill qs u → Gives (Expr.assign t₀ u₀).fill ([target] ++ qs) (.assign t u) :=
      fun hu => (gives_fill ht₀ ht).seq hu fun _ _ h => by simpa using h
    cases hstages with
    | nil =>
      refine ⟨⟨some t₀, v₀, []⟩, ⟨.some ⟨ht₀, htarget₀⟩, hv₀, .nil⟩, ?_⟩
      exact hassign hvalue
    | @cons s stage segments stages h hstages =>
      obtain ⟨hname, harguments⟩ := h
      obtain ⟨ts₀, hts₀, hgives⟩ := exists_arguments harguments
      obtain ⟨stages₀, hstages₀, hnest⟩ := exists_stages hstages
      refine ⟨⟨some t₀, v₀, ⟨stage.name, ts₀⟩ :: stages₀⟩,
        ⟨.some ⟨ht₀, htarget₀⟩, hv₀, .cons ⟨hname, hts₀⟩ hstages₀⟩, ?_⟩
      -- the first formatter gets one more argument, which has no literal
      have hyes : Gives (Expr.constant .yes : Expr Placeholder).fill [] (.constant .yes) := Gives.pure _
      have hfirst := hgives (hyes.cons Gives.nil)
      rw [append_nil, append_nil] at hfirst
      have hcall : Gives (Stage.call v₀ ⟨stage.name, ts₀ ++ [Expr.constant .yes]⟩).fill ([value] ++ s.parts)
          (Stage.call v ⟨stage.name, stage.arguments ++ [Expr.constant .yes]⟩) := Stage.gives_call rfl hvalue hfirst
      have htree := hassign (hnest hcall)
      rwa [append_assoc] at htree

end Denotes

section Trees

variable {l : Layout} {p : Piped Leaf} {p₀ : Piped Placeholder}

/-- A layout whose parts are expressions on their own. If nothing is assigned to, the value has no assignment sign
outside brackets. -/
structure Surface.Layout.Reads (l : Layout) (p : Piped Leaf) : Prop extends l.Denotes NullSafe.Reads p where
  unassigned : l.target = none → straddles (· != .symbol .assign) (replaceWords (isolate l.value)) = false

theorem Surface.Layout.Denotes.parses (h : l.Denotes IsSkeleton p₀)
    (hvalue : l.target = none → straddles (· != .symbol .assign) (replaceWords (isolate l.value)) = false) :
    (l.map isolate).Parses := by
  rcases l with ⟨target, value, segments⟩
  rcases p₀ with ⟨target', v₀, stages₀⟩
  obtain ⟨htarget, hskeleton, hstages⟩ := h
  have htarget' : ∀ cs ∈ target, ∃ x, parse (replaceWords (isolate cs)) = .ok x ∧ x.isTarget = true := by
    cases htarget with
    | none => exact nofun
    | some h =>
      rintro cs ⟨⟩
      exact ⟨_, h⟩
  refine ⟨fun cs hcs => ?_, fun cs hcs => ?_, fun hnone => hvalue (Option.map_eq_none_iff.1 hnone)⟩
  · rcases mem_append.1 hcs with hfirst | hrest
    · obtain ⟨text, htext, rfl⟩ := Option.map_eq_some_iff.1 (Option.mem_toList.1 hfirst)
      obtain ⟨x, hx, -⟩ := htarget' text htext
      exact ⟨x, hx⟩
    rcases mem_cons.1 hrest with rfl | hmem
    · exact ⟨_, hskeleton⟩
    · obtain ⟨_, hsegment, hpart⟩ := mem_flatMap.1 hmem
      obtain ⟨s, hs, rfl⟩ := mem_map.1 hsegment
      rw [Segment.parts_map] at hpart
      obtain ⟨text, htext, rfl⟩ := mem_map.1 hpart
      obtain ⟨stage, -, -, harguments⟩ := exists_of_forall₂ hstages s hs
      exact (exists_of_forall₂ harguments text htext).imp fun _ => And.right
  · obtain ⟨text, htext, rfl⟩ := Option.map_eq_some_iff.1 hcs
    exact htarget' text htext

def Surface.Formatter.IsStage (f : Formatter) (s : Stage Placeholder) : Prop :=
  s.name = String.ofList f.name ∧ IsName f.name ∧ ParseAll f.arguments s.arguments

theorem applied_nest {fs : List Formatter} {stages : List (Stage Placeholder)}
    (h : List.Forall₂ Formatter.IsStage fs stages) (v : Expr Placeholder) : Applied v fs (Stage.nest v stages) := by
  induction h generalizing v with
  | nil => exact .nil v
  | @cons f s fs stages h _ ih =>
    obtain ⟨hname, hisName, harguments⟩ := h
    have hcall : Stage.call v s = Formatter.tree f.name v s.arguments := by
      rw [Stage.call, hname]
      rfl
    exact .cons hisName harguments (hcall ▸ ih (Stage.call v s))

theorem parse_true : parse "true".toList = .ok (.constant .yes) :=
  parse_of_isName (by unfold IsName; decide) (by decide)

theorem forall₂_calls {q : Pipeline} (htarget : q.target.isSome = p₀.target.isSome)
    (h : List.Forall₂ Formatter.IsStage q.formatters p₀.stages) : List.Forall₂ Formatter.IsStage q.calls p₀.calls := by
  rcases q with ⟨_ | target, value, formatters⟩ <;> rcases p₀ with ⟨_ | target', v₀, stages₀⟩
  · exact h
  · cases htarget
  · cases htarget
  · cases h with
    | nil => exact .nil
    | cons h hs =>
      obtain ⟨hname, hisName, harguments⟩ := h
      exact .cons ⟨hname, hisName, rel_append harguments (.cons parse_true .nil)⟩ hs

theorem Surface.Layout.Denotes.means (h : l.Denotes IsSkeleton p₀) :
    ((l.map isolate).pipeline.map replaceWords).Means p₀.tree := by
  have hstages : List.Forall₂ Formatter.IsStage ((l.map isolate).pipeline.map replaceWords).formatters p₀.stages := by
    change List.Forall₂ _ (((l.segments.map (Segment.map isolate)).map Segment.formatter).map _) _
    rw [forall₂_map_left_iff, forall₂_map_left_iff, forall₂_map_left_iff]
    refine h.stages.imp fun s stage hs => ⟨hs.1, s.isName, ?_⟩
    change List.Forall₂ _ (((s.map isolate).parts.map trim).map replaceWords) _
    rw [Segment.parts_map, forall₂_map_left_iff, forall₂_map_left_iff, forall₂_map_left_iff]
    exact hs.2.imp fun _ _ => parse_trim
  have htarget := h.target
  have hcalls : List.Forall₂ Formatter.IsStage ((l.map isolate).pipeline.map replaceWords).calls p₀.calls := by
    refine forall₂_calls ?_ hstages
    change (((l.target.map isolate).map trim).map replaceWords).isSome = _
    rw [Option.isSome_map, Option.isSome_map, Option.isSome_map]
    generalize l.target = target, p₀.target = target' at htarget ⊢
    cases htarget <;> rfl
  refine ⟨p₀.value, Stage.nest p₀.value p₀.calls, parse_trim h.value, applied_nest hcalls _, ?_⟩
  rw [show ((l.map isolate).pipeline.map replaceWords).target =
    ((l.target.map isolate).map trim).map replaceWords from rfl]
  unfold Piped.tree
  generalize l.target = target, p₀.target = target' at htarget ⊢
  cases htarget with
  | none => rfl
  | some h => exact ⟨_, parse_trim h.1, h.2, rfl⟩

/-- The pipes of a layout are removed, and what is left is the tree of its pipeline. -/
theorem Surface.Layout.Denotes.parse_desugar (h : l.Denotes IsSkeleton p₀)
    (hvalue : l.target = none → straddles (· != .symbol .assign) (replaceWords (isolate l.value)) = false)
    (hseparate : l.Separate) (hne : l.segments ≠ []) :
    ∃ text, desugar (isolate l.text) = .ok text ∧ parse (replaceWords text) = .ok p₀.tree := by
  have hparses := h.parses hvalue
  have hmeans := h.means
  have hnames : ∀ f ∈ (l.map isolate).pipeline.formatters, f.IsNamed := by
    intro f hf
    obtain ⟨s, -, rfl⟩ := mem_map.1 hf
    exact s.isNamed_formatter
  refine ⟨(l.map isolate).pipeline.text, ?_, ?_⟩
  · rw [hseparate.isolate_text]
    exact desugar_text hparses (by simpa [map] using hne)
  · rw [Pipeline.replaceWords_text hnames, Pipeline.parse_text_iff hmeans.straddles_eq_false ?_ ?_]
    · exact hmeans
    · intro f hf
      obtain ⟨g, hg, rfl⟩ := mem_map.1 hf
      exact hnames g hg
    · simpa [map, pipeline, Pipeline.map] using hne

/-- The tree of the text of a layout is that of its parts exactly if no part takes a literal of another. -/
theorem Surface.Layout.Reads.isTree_iff {r : Request} (htext : r.expression.toList = l.text) (h : l.Reads p)
    (hseparate : l.Separate) (hne : l.segments ≠ []) : r.IsTree p.tree ↔ Undisturbed l.parts [] := by
  obtain ⟨p₀, hp₀, hgives⟩ := exists_skeleton h.toDenotes
  obtain ⟨text, hdesugar, hparse⟩ := hp₀.parse_desugar h.unassigned hseparate hne
  have hfilled : p₀.tree.filled (literals l.text) = .ok p.tree ↔ Undisturbed l.parts [] := by
    have hrun := hgives []
    rw [append_nil, ← hseparate.literals_text] at hrun
    rw [Expr.filled]
    constructor
    · intro h
      rcases hfill : p₀.tree.fill.run (literals l.text) with fault | ⟨t, rest⟩ <;> rw [hfill] at h <;> cases h
      exact ((hrun rest).1 hfill).1
    · intro h
      rw [(hrun []).2 ⟨h, rfl⟩]
      rfl
  unfold Request.IsTree
  rw [htext, ← hfilled]
  constructor
  · rintro ⟨text', t₀, htext', ht₀, ht⟩
    rw [hdesugar] at htext'
    cases htext'
    rw [hparse] at ht₀
    cases ht₀
    exact ht
  · exact fun ht => ⟨text, p₀.tree, hdesugar, hparse, ht⟩

end Trees

end NullSafe
