import NullSafe.Proofs.Restoring

/-! # Runs of a table

A table is called in any order, with texts that have nothing to do with each other. The calls it does not refuse are
those that set literals aside and restore them in turn. A restored text has literals in place of its first
placeholders, and nothing else in it has changed.
-/

namespace NullSafe.Literal

open List

section Rendering

variable {ε : Type}

theorem bind_eq_ok_iff {α β : Type} {x : Except ε α} {f : α → Except ε β} {b : β} :
    x >>= f = .ok b ↔ ∃ a, x = .ok a ∧ f a = .ok b := by
  cases x <;> simp [bind, Except.bind]

theorem bind_eq_error_iff {α β : Type} {x : Except ε α} {f : α → Except ε β} {e : ε} :
    x >>= f = .error e ↔ x = .error e ∨ ∃ a, x = .ok a ∧ f a = .error e := by
  cases x <;> simp [bind, Except.bind]

end Rendering

section Substitution

/-- No placeholder starts inside a text. -/
def Clear (cs : List Char) : Prop := cs.IsChain fun a b => ¬(a = b ∧ isDelimiter a = true)

/-- A text with its first placeholders replaced. -/
inductive Substitutes : List Char → List (List Char) → List Char → Prop where
  | done (tail : List Char) : Substitutes tail [] tail
  | next {gap tail shown out rest c} (hc : isDelimiter c = true) (hgap : Clear (gap ++ [c]))
      (h : Substitutes tail rest out) : Substitutes (gap ++ c :: c :: tail) (shown :: rest) (gap ++ (shown ++ out))

variable {ε : Type} {render : List Char → Except ε (List Char)} {queue shown : List (List Char)} {text out : List Char}

theorem Substitutes.cons {c d : Char} (hc : ¬(c = d ∧ isDelimiter c = true)) (h : Substitutes (d :: text) shown out) :
    Substitutes (c :: d :: text) shown (c :: out) := by
  generalize hcs : d :: text = cs at h
  cases h with
  | done => exact .done _
  | @next gap tail shown out rest e he hgap h =>
    have hhead : (gap ++ [e]).head? = some d := by
      have hhead : (gap ++ [e]).head? = (gap ++ e :: e :: tail).head? := by cases gap <;> rfl
      rw [hhead, ← hcs, head?_cons]
    have hgap' : Clear (c :: (gap ++ [e])) := by
      refine isChain_cons.2 ⟨fun x hx => ?_, hgap⟩
      rw [hhead] at hx
      exact Option.some.inj hx ▸ hc
    exact (Substitutes.next he hgap' h : Substitutes (c :: gap ++ e :: e :: tail) _ (c :: gap ++ _))

/-- A text is restored from as many literals as there are placeholders, unless one of them cannot be shown. -/
theorem substitutes_of_fill (h : fill render queue text = .ok out) :
    ∃ shown, (queue.take (found text).length).mapM render = .ok shown ∧ Substitutes text shown out := by
  fun_induction fill render queue text generalizing out with
  | case1 text =>
    cases h
    exact ⟨[], by rw [take_nil]; rfl, .done _⟩
  | case2 raw queue c d rest hc ih =>
    obtain ⟨rfl, hdelim⟩ : c = d ∧ isDelimiter c = true := by simpa using hc
    obtain ⟨first, hfirst, h⟩ := bind_eq_ok_iff.1 h
    obtain ⟨after, hafter, h⟩ := bind_eq_ok_iff.1 h
    cases h
    obtain ⟨shown, hshown, hrest⟩ := ih hafter
    have hnext : Substitutes ([] ++ c :: c :: rest) (first :: shown) ([] ++ (first ++ after)) :=
      .next hdelim (isChain_singleton _) hrest
    refine ⟨first :: shown, ?_, hnext⟩
    rw [found, if_pos hc, length_cons, take_succ_cons, mapM_cons, hfirst, hshown]
    rfl
  | case3 raw queue c d rest hc ih =>
    obtain ⟨after, hafter, h⟩ := bind_eq_ok_iff.1 h
    cases h
    obtain ⟨shown, hshown, hrest⟩ := ih hafter
    refine ⟨shown, ?_, hrest.cons (by simpa using hc)⟩
    rwa [found, if_neg hc]
  | case4 raw queue text htext =>
    cases h
    refine ⟨[], ?_, .done _⟩
    rw [found, length_nil, take_zero]
    · rfl
    · exact htext

theorem mapM_of_fill {e : ε} (h : fill render queue text = .error e) :
    (queue.take (found text).length).mapM render = .error e := by
  fun_induction fill render queue text with
  | case1 => cases h
  | case2 raw queue c d rest hc ih =>
    rw [found, if_pos hc, length_cons, take_succ_cons, mapM_cons]
    refine bind_eq_error_iff.2 ?_
    rcases bind_eq_error_iff.1 h with hraw | ⟨shown, hshown, h⟩
    · exact .inl hraw
    · rcases bind_eq_error_iff.1 h with hrest | ⟨after, -, h⟩
      · exact .inr ⟨shown, hshown, bind_eq_error_iff.2 (.inl (ih hrest))⟩
      · cases h
  | case3 raw queue c d rest hc ih =>
    rw [found, if_neg hc]
    rcases bind_eq_error_iff.1 h with hrest | ⟨after, -, h⟩
    · exact ih hrest
    · cases h
  | case4 => cases h

theorem fill_eq_error_iff {e : ε} :
    fill render queue text = .error e ↔ (queue.take (found text).length).mapM render = .error e := by
  refine ⟨mapM_of_fill, fun h => ?_⟩
  rcases hfill : fill render queue text with e' | out
  · rw [mapM_of_fill hfill] at h
    cases h
    rfl
  · obtain ⟨shown, hshown, -⟩ := substitutes_of_fill hfill
    rw [hshown] at h
    cases h

end Substitution

theorem length_spansFrom (pos : Nat) (ps : List Piece) :
    (spansFrom pos ps).length = (ps.filterMap Piece.literal?).length := by
  induction ps generalizing pos with
  | nil => rfl
  | cons p ps ih => cases p <;> simp [spansFrom, filterMap_cons, Piece.literal?, ih]

namespace Table

variable {ε : Type}

inductive Call (ε : Type) where
  | isolate (cs : List Char)
  | restore (render : List Char → Except ε (List Char)) (cs : List Char)

inductive Answer (ε : Type) where
  | text (cs : List Char)
  | refused (fault : StateFault)
  | failed (e : ε)

def Answer.isRefused : Answer ε → Bool
  | refused _ => true
  | _ => false

namespace Call

def isIsolate : Call ε → Bool
  | isolate _ => true
  | restore .. => false

/-- What is queued once a call is taken. -/
def queue : Call ε → Option (List (List Char))
  | isolate cs => some (literals cs)
  | restore .. => none

/-- The calls that set literals aside and restore them in turn, by what the next one has to do. -/
def inTurn (isolates : Bool) : List (Call ε) → List (Call ε)
  | [] => []
  | call :: calls =>
    if call.isIsolate = isolates then call :: inTurn (!isolates) calls else inTurn isolates calls

end Call

def step (t : Table) : Call ε → Answer ε × Table
  | .isolate cs =>
    match t.isolate cs with
    | .error fault => (.refused fault, t)
    | .ok (out, t') => (.text out, t')
  | .restore render cs =>
    match t.restore render cs with
    | .error fault => (.refused fault, t)
    | .ok (.error e, t') => (.failed e, t')
    | .ok (.ok out, t') => (.text out, t')

def after (t : Table) (calls : List (Call ε)) : Table := calls.foldl (fun t call => (t.step call).2) t

def taken (t : Table) : List (Call ε) → List (Call ε)
  | [] => []
  | call :: calls =>
    if (t.step call).1.isRefused then taken (t.step call).2 calls else call :: taken (t.step call).2 calls

/-- What is promised of setting the literals of a text aside. -/
structure Isolates (t : Table) (cs : List Char) (answer : Answer ε) (t' : Table) : Prop where
  refused : answer.isRefused = true ↔ t.pending ≠ none
  unchanged : answer.isRefused = true → t' = t
  taken : answer.isRefused = false → answer = .text (Literal.isolate cs) ∧ t'.pending = some (literals cs) ∧
    t'.size = (spans (String.ofList cs)).length

/-- What is promised of restoring a text. -/
structure Restores (t : Table) (render : List Char → Except ε (List Char)) (cs : List Char) (answer : Answer ε)
    (t' : Table) : Prop where
  refused : answer.isRefused = true ↔ t.pending = none
  unchanged : answer.isRefused = true → t' = t
  emptied : answer.isRefused = false → t'.pending = none ∧ t'.size = 0
  returned : ∀ out, answer = .text out → ∃ queue shown, t.pending = some queue ∧
    shown.length = min (found cs).length t.size ∧
    (queue.take (found cs).length).mapM render = .ok shown ∧ Substitutes cs shown out
  failed : ∀ e, answer = .failed e ↔
    ∃ queue, t.pending = some queue ∧ (queue.take (found cs).length).mapM render = .error e

def Obeys (t : Table) : Call ε → Answer ε × Table → Prop
  | .isolate cs, (answer, t') => t.Isolates cs answer t'
  | .restore render cs, (answer, t') => t.Restores render cs answer t'

theorem Call.isNone_queue (call : Call ε) : call.queue.isNone = !call.isIsolate := by cases call <;> rfl

variable (t : Table)

include t

/-- A call is taken if it is its turn, and else it is refused and the table stays. -/
theorem step_cases (call : Call ε) :
    (call.isIsolate = t.pending.isNone ∧ (t.step call).1.isRefused = false ∧ (t.step call).2.pending = call.queue) ∨
      call.isIsolate ≠ t.pending.isNone ∧ (t.step call).1.isRefused = true ∧ (t.step call).2 = t := by
  rcases call with cs | ⟨render, cs⟩ <;> rcases hpending : t.pending with _ | queue
  · exact .inl (by simp [step, Table.isolate, hpending, Call.isIsolate, Call.queue, Answer.isRefused])
  · exact .inr (by simp [step, Table.isolate, hpending, Call.isIsolate, Answer.isRefused])
  · exact .inr (by simp [step, Table.restore, hpending, Call.isIsolate, Answer.isRefused])
  · refine .inl ?_
    rcases hfill : fill render queue cs with e | out <;>
      simp [step, Table.restore, hpending, Call.isIsolate, Call.queue, hfill, Answer.isRefused]

theorem taken_eq_inTurn (calls : List (Call ε)) : t.taken calls = Call.inTurn t.pending.isNone calls := by
  induction calls generalizing t with
  | nil => rfl
  | cons call calls ih =>
    rw [taken, Call.inTurn, ih]
    rcases step_cases t call with ⟨hturn, htaken, hqueue⟩ | ⟨hturn, hrefused, hsame⟩
    · rw [if_neg (by simp [htaken]), if_pos hturn, hqueue, Call.isNone_queue, hturn]
    · rw [if_pos hrefused, if_neg hturn, hsame]

/-- What is queued after a run is what the last call that was taken has queued. -/
theorem pending_after (calls : List (Call ε)) :
    (t.after calls).pending = (Call.inTurn t.pending.isNone calls).getLast?.elim t.pending Call.queue := by
  induction calls generalizing t with
  | nil => rfl
  | cons call calls ih =>
    change ((t.step call).2.after calls).pending = _
    rw [ih, Call.inTurn]
    rcases step_cases t call with ⟨hturn, -, hqueue⟩ | ⟨hturn, -, hsame⟩
    · rw [if_pos hturn, hqueue, Call.isNone_queue, hturn, getLast?_cons]
      cases (Call.inTurn (!t.pending.isNone) calls).getLast? <;> rfl
    · rw [if_neg hturn, hsame]

theorem isolates_step (cs : List Char) :
    t.Isolates cs (t.step (.isolate cs : Call ε)).1 (t.step (.isolate cs : Call ε)).2 := by
  have hsize : (spans (String.ofList cs)).length = (literals cs).length := by
    rw [spans, length_spansFrom, String.toList_ofList, literals]
  rcases hpending : t.pending with _ | queue
  · constructor <;> simp [step, Table.isolate, hpending, Answer.isRefused, size, hsize]
  · constructor <;> simp [step, Table.isolate, hpending, Answer.isRefused]

theorem restores_step (render : List Char → Except ε (List Char)) (cs : List Char) :
    t.Restores render cs (t.step (.restore render cs)).1 (t.step (.restore render cs)).2 := by
  rcases hpending : t.pending with _ | queue
  · constructor <;> simp [step, Table.restore, hpending, Answer.isRefused]
  · have hfailed (e : ε) : (∃ queue, t.pending = some queue ∧ (queue.take (found cs).length).mapM render = .error e) ↔
        fill render queue cs = .error e := by
      simp [hpending, fill_eq_error_iff]
    rcases hfill : fill render queue cs with e | out
    · have hstep : t.step (.restore render cs) = (.failed e, {}) := by simp [step, Table.restore, hpending, hfill]
      rw [hstep]
      refine ⟨by simp [Answer.isRefused, hpending], nofun, fun _ => ⟨rfl, rfl⟩, nofun, fun e' => ?_⟩
      simp [hfailed, hfill]
    · have hstep : t.step (.restore render cs) = (.text out, {}) := by simp [step, Table.restore, hpending, hfill]
      rw [hstep]
      refine ⟨by simp [Answer.isRefused, hpending], nofun, fun _ => ⟨rfl, rfl⟩, ?_, fun e => by simp [hfailed, hfill]⟩
      rintro _ ⟨⟩
      obtain ⟨shown, hshown, hout⟩ := substitutes_of_fill hfill
      refine ⟨queue, shown, hpending, ?_, hshown, hout⟩
      rw [(Surface.mapM_eq_ok_iff.1 hshown).length_eq, length_take, size, hpending, Option.getD_some]

omit t

/-- A table that is called in any order takes the calls that set literals aside and restore them in turn. What is queued
is what the last of them has queued, and the next call keeps what is promised of it. -/
theorem run_inTurn (calls : List (Call ε)) (call : Call ε) :
    taken {} calls = Call.inTurn true calls ∧
      (after {} calls).pending = (Call.inTurn true calls).getLast?.bind Call.queue ∧
      (after {} calls).Obeys call ((after {} calls).step call) := by
  refine ⟨taken_eq_inTurn {} calls, ?_, ?_⟩
  · have hpending := pending_after {} calls
    rw [show ({} : Table).pending.isNone = true from rfl] at hpending
    rw [hpending]
    cases (Call.inTurn true calls).getLast? <;> rfl
  · rcases call with cs | ⟨render, cs⟩
    · exact isolates_step _ cs
    · exact restores_step _ render cs

end Table

end NullSafe.Literal
