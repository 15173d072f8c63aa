import NullSafe.Proofs.Getters
import NullSafe.Proofs.GlobalAssignments

/-! # Expressions without effects

Whether it returns or raises, a call of an expression without assignments and calls does nothing to the world but what
is done by the code that the host has for reading attributes, and it runs no other code of the host. Where no class
computes attributes it leaves everything as it was: new values are made at new places.
-/

namespace NullSafe

open Surface

namespace World

/-- Everything in a world is as it was before, also what was found and what the host wrote down. -/
structure Keeps (w w' : World) : Prop extends World.Extends w w' where
  founds : ∀ {r : Ref} {f}, w.founds[r]? = some f → w'.founds[r]? = some f
  journal : w'.journal = w.journal

instance allowsNew_keeps : AllowsNew Keeps where
  refl w := ⟨.refl w, id, rfl⟩
  trans h h' := ⟨h.toExtends.trans h'.toExtends, h'.founds ∘ h.founds, h'.journal.trans h.journal⟩
  newList items w := ⟨w.extends_newList items, id, rfl⟩
  newTuple items w := ⟨allowsNew_extends.newTuple items w, id, rfl⟩
  newDict entries w := ⟨w.extends_newDict entries, id, rfl⟩
  newObject o w _ := ⟨w.extends_newObject o, id, rfl⟩
  mark w := ⟨allowsNew_extends.mark w, id, rfl⟩

/-- The attributes of all objects are held by the objects themselves. -/
def ComputesNothing (w : World) : Prop := ∀ o ∈ w.objects, o.kind.computed = []

/-- A world where nothing is computed stays one, and everything in it is as it was before. -/
def KeepsPlain (w w' : World) : Prop := w.ComputesNothing → w'.ComputesNothing ∧ w.Keeps w'

instance allowsNew_keepsPlain : AllowsNew KeepsPlain where
  refl w h := ⟨h, allowsNew_keeps.refl w⟩
  trans h h' hw := ⟨(h' (h hw).1).1, allowsNew_keeps.trans (h hw).2 (h' (h hw).1).2⟩
  newList items w h := ⟨h, allowsNew_keeps.newList items w⟩
  newTuple items w h := ⟨h, allowsNew_keeps.newTuple items w⟩
  newDict entries w h := ⟨h, allowsNew_keeps.newDict entries w⟩
  newObject o w ho h := by
    refine ⟨fun o' ho' => ?_, allowsNew_keeps.newObject o w ho⟩
    rcases Array.mem_push.1 ho' with hold | rfl
    · exact h o' hold
    · exact ho
  mark w h := ⟨h, allowsNew_keeps.mark w⟩

instance : Lasts ComputesNothing KeepsPlain := ⟨fun hw h => (h hw).1⟩

theorem ComputesNothing.computing? {w : World} (h : w.ComputesNothing) (r : Ref) (name : String) :
    w.computing? r name = none := by
  refine computing?_eq_none ?_
  rw [World.object]
  rcases hr : w.objects[r]? with _ | o
  · exact List.not_mem_nil
  · rw [Option.getD_some, h o (Array.mem_of_getElem? hr)]
    exact List.not_mem_nil

end World

namespace Host

theorem readsWithin_keepsPlain (host : Host) : host.ReadsWithin World.KeepsPlain := by
  intro w r name cls hcls hw
  rw [hw.computing?] at hcls
  cases hcls

theorem outcome_operate_of_computesNothing (host : Host) (op : Operation) (args : List Value) {w : World}
    (hw : w.ComputesNothing) : (host.operate op args).outcome w = (op.run args).outcome w := by
  have hnone : host.accessor? w op args = none := by
    unfold accessor?
    split
    · rw [hw.computing?]; rfl
    · rw [hw.computing?]; rfl
    · rfl
  rw [outcome_operate, hnone, Option.getD_none]

end Host

/-- What calls of a function do, if they only read. -/
structure Program.OnlyReads (p : Program) : Prop where
  /-- However a call ends, the world is changed by new values and by what the host does to compute attributes. -/
  world : ∀ (R : World → World → Prop) [World.AllowsNew R] (host : Host), host.ReadsWithin R → ∀ args w,
    R w ((p.run host args).outcome w).2
  /-- Of all that the host supplies, only the code that computes attributes makes a difference. -/
  host : ∀ host host' : Host, host.getter = host'.getter → p.run host = p.run host'
  /-- Where nothing is computed, everything is left as it was, and the host makes no difference. -/
  plain : ∀ w : World, w.ComputesNothing → ∀ (host host' : Host) args,
    w.Keeps ((p.run host args).outcome w).2 ∧ (p.run host args).outcome w = (p.run host' args).outcome w

section Calls

variable {functionName : String} {globals : List String} {r : Request} {generated : Generated} {t : Expr Leaf}

/-- In calm surroundings a call of an expression without calls and assignments makes new values only. -/
theorem Program.agree_runIn {I : World → Prop} {R : World → World → Prop} [World.AllowsNew R] [World.Lasts I R]
    (hrequest : Request.namesProblem? r.arguments = none) (hrun : Compile.run functionName globals r = .ok generated)
    (htree : r.IsTree t) (ht : t.onlyComputes = true) {s s' : Surroundings} (hs : s.Calm I R s') (args : List Value) :
    Run.Agree I R (generated.program.runIn s args) (generated.program.runIn s' args) := by
  rcases Compile.frame?_cases hrequest hrun args with hframe | ⟨this, g, fm, extra, rfl, hextra⟩
  · rw [Program.runIn, Program.runIn, hframe]
    exact ⟨fun _ _ => rfl, .throw _⟩
  · have heval : Direct.Agree I R (Direct.eval s (r.scope globals) t) (Direct.eval s' _ t) := Direct.agree_eval hs ht
    have hdirect (s : Surroundings) : generated.program.runIn s (this :: g :: fm :: extra) = _ :=
      Run.ext_outcome (Program.outcome_runIn hrun hrequest htree hextra s)
    rw [hdirect s, hdirect s']
    exact (heval _).bind fun _ => ⟨fun _ _ => rfl, .pure _⟩

/-- A host that stores an attribute in the object when it computes it. -/
def cachingHost : Host where
  call _ _ := throw .noAttribute
  getter _ name r := do
    let o := (← get).object r
    modify (·.setObject r { o with attributes := putAttribute o.attributes name (.int 1) })
    return .int 1

end Calls

end NullSafe
