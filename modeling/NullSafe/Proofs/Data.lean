import Mathlib.Data.List.Perm.Subperm
import Mathlib.Data.Nat.Find
import NullSafe.Proofs.Mappings
import NullSafe.Proofs.Simulation

/-! # Data

Data is nested without going round in circles, and nothing in it raises when it is read. A world that holds data
has a place for each level, so data is compared within as many levels as there are places. Evaluation that only adds
places keeps data as it is.
-/

namespace NullSafe

open List

namespace World

/-- The values at a place. An object whose class computes attributes holds none. -/
def contents? (w : World) : Value → Option (List Value)
  | .list r => w.lists[r]?
  | .tuple r => w.tuples[r]?
  | .dict r => w.dicts[r]?.map fun entries => entries.map Prod.fst ++ entries.map Prod.snd
  | .object r => w.objects[r]?.bind fun o => if o.kind.computed = [] then some (o.attributes.map Prod.snd) else none
  | _ => none

/-- Whether a value is at no place and has no attributes that were given to it. -/
def isAtom (w : World) : Value → Bool
  | .list _ | .tuple _ | .dict _ | .object _ => false
  | .function f => (w.functionAttributes f).isEmpty
  | _ => true

/-- A value is data with at most the given number of levels. -/
inductive Nested (w : World) : Nat → Value → Prop where
  | atom {n v} (h : w.isAtom v = true) : Nested w n v
  | holds {n v vs} (h : w.contents? v = some vs) (hvs : ∀ x ∈ vs, Nested w n x) : Nested w (n + 1) v

def IsData (w : World) (v : Value) : Prop := ∃ n, w.Nested n v

variable {w w' w'' : World} {n m : Nat} {v : Value} {vs : List Value}

theorem Nested.mono (h : w.Nested n v) (hnm : n ≤ m) : w.Nested m v := by
  induction h generalizing m with
  | atom h => exact .atom h
  | holds h _ ih =>
    obtain ⟨m, rfl⟩ : ∃ k, m = k + 1 := ⟨m - 1, by omega⟩
    exact .holds h fun x hx => ih x hx (by omega)

theorem IsData.atom (h : w.isAtom v = true) : w.IsData v := ⟨0, .atom h⟩

theorem IsData.holds (h : w.contents? v = some vs) (hvs : ∀ x ∈ vs, w.IsData x) : w.IsData v := by
  obtain ⟨n, hn⟩ : ∃ n, ∀ x ∈ vs, w.Nested n x := by
    clear h
    induction vs with
    | nil => exact ⟨0, nofun⟩
    | cons x vs ih =>
      obtain ⟨⟨n, hx⟩, hvs⟩ := forall_mem_cons.1 hvs
      obtain ⟨m, hm⟩ := ih hvs
      exact ⟨max n m, forall_mem_cons.2
        ⟨hx.mono (Nat.le_max_left ..), fun y hy => (hm y hy).mono (Nat.le_max_right ..)⟩⟩
  exact ⟨n + 1, .holds h hn⟩

section Growing

/-- Everything at the places of a world is at the same places in another. -/
structure Extends (w w' : World) : Prop where
  lists : ∀ {r : Ref} {items}, w.lists[r]? = some items → w'.lists[r]? = some items
  tuples : ∀ {r : Ref} {items}, w.tuples[r]? = some items → w'.tuples[r]? = some items
  dicts : ∀ {r : Ref} {entries}, w.dicts[r]? = some entries → w'.dicts[r]? = some entries
  objects : ∀ {r : Ref} {o}, w.objects[r]? = some o → w'.objects[r]? = some o
  attributes : w'.attributes = w.attributes

theorem Extends.refl (w : World) : w.Extends w := ⟨id, id, id, id, rfl⟩

theorem Extends.trans (h : w.Extends w') (h' : w'.Extends w'') : w.Extends w'' :=
  ⟨h'.lists ∘ h.lists, h'.tuples ∘ h.tuples, h'.dicts ∘ h.dicts, h'.objects ∘ h.objects,
    h'.attributes.trans h.attributes⟩

theorem getElem?_push_of_some {α : Type} {xs : Array α} {r : Nat} {a x : α} (h : xs[r]? = some a) :
    (xs.push x)[r]? = some a := by
  obtain ⟨hr, -⟩ := Array.getElem?_eq_some_iff.1 h
  rw [Array.getElem?_push_lt hr, ← h]
  exact (Array.getElem?_eq_getElem hr).symm

theorem extends_newList (w : World) (items : List Value) : w.Extends (w.newList items).2 :=
  ⟨getElem?_push_of_some, id, id, id, rfl⟩

theorem extends_newDict (w : World) (entries : Entries) : w.Extends (w.newDict entries).2 :=
  ⟨id, id, getElem?_push_of_some, id, rfl⟩

theorem extends_newObject (w : World) (o : Object) : w.Extends (w.newObject o).2 :=
  ⟨id, id, id, getElem?_push_of_some, rfl⟩

theorem Extends.contents? (h : w.Extends w') (hv : w.contents? v = some vs) : w'.contents? v = some vs := by
  cases v with
  | list r => exact h.lists hv
  | tuple r => exact h.tuples hv
  | dict r =>
    obtain ⟨entries, hr, rfl⟩ := Option.map_eq_some_iff.1 hv
    exact Option.map_eq_some_iff.2 ⟨entries, h.dicts hr, rfl⟩
  | object r =>
    obtain ⟨o, hr, ho⟩ := Option.bind_eq_some_iff.1 hv
    exact Option.bind_eq_some_iff.2 ⟨o, h.objects hr, ho⟩
  | _ => cases hv

theorem Extends.isAtom (h : w.Extends w') (v : Value) : w'.isAtom v = w.isAtom v := by
  cases v with
  | function f => rw [World.isAtom, World.isAtom, functionAttributes, functionAttributes, h.attributes]
  | _ => rfl

theorem IsData.mono (hv : w.IsData v) (h : w.Extends w') : w'.IsData v := by
  obtain ⟨n, hv⟩ := hv
  refine ⟨n, ?_⟩
  induction hv with
  | atom hatom => exact .atom (h.isAtom _ ▸ hatom)
  | holds hvs _ ih => exact .holds (h.contents? hvs) ih

end Growing

section Levels

def places (w : World) : List Value :=
  (List.range w.lists.size).map .list ++ (List.range w.tuples.size).map .tuple ++
    (List.range w.dicts.size).map .dict ++ (List.range w.objects.size).map .object

theorem length_places (w : World) : w.places.length = w.size := by
  simp only [places, size, length_append, length_map, length_range]

theorem mem_places (h : w.contents? v = some vs) : v ∈ w.places := by
  have hmem : ∀ {α : Type} {xs : Array α} {r : Nat} {a : α}, xs[r]? = some a → r ∈ List.range xs.size :=
    fun h => mem_range.2 (Array.getElem?_eq_some_iff.1 h).1
  unfold places
  cases v with
  | list r => simpa using hmem h
  | tuple r => simpa using hmem h
  | dict r =>
    obtain ⟨entries, hr, -⟩ := Option.map_eq_some_iff.1 h
    simpa using hmem hr
  | object r =>
    obtain ⟨o, hr, -⟩ := Option.bind_eq_some_iff.1 h
    simpa using hmem hr
  | _ => cases h

/-- Data of no fewer levels passes through as many places, one inside the other. -/
theorem exists_places (h : w.Nested n v) (hleast : ∀ m < n, ¬ w.Nested m v) :
    ∃ ps : List Value, ps.length = n ∧ ps.Nodup ∧ ∀ p ∈ ps, p ∈ w.places ∧ w.Nested n p := by
  induction n generalizing v with
  | zero => exact ⟨[], rfl, .nil, nofun⟩
  | succ n ih =>
    cases h with
    | atom hatom => exact absurd (.atom hatom) (hleast n (by omega))
    | @holds _ _ vs hvs hitems =>
      -- the places inside the one of the value, from an item with one level less
      obtain ⟨ps, hlength, hnodup, hps⟩ : ∃ ps : List Value, ps.length = n ∧ ps.Nodup ∧
          ∀ p ∈ ps, p ∈ w.places ∧ w.Nested n p := by
        cases n with
        | zero => exact ⟨[], rfl, .nil, nofun⟩
        | succ n =>
          obtain ⟨x, hx, hnot⟩ : ∃ x ∈ vs, ¬ w.Nested n x := by
            by_contra hnone
            refine hleast (n + 1) (by omega) (.holds hvs fun x hx => ?_)
            exact by_contra fun hnot => hnone ⟨x, hx, hnot⟩
          exact ih (hitems x hx) fun m hm hx => hnot (hx.mono (by omega))
      refine ⟨v :: ps, by rw [length_cons, hlength], nodup_cons.2 ⟨?_, hnodup⟩, ?_⟩
      · exact fun hv => hleast n (by omega) (hps v hv).2
      · exact forall_mem_cons.2 ⟨⟨mem_places hvs, .holds hvs hitems⟩,
          fun p hp => ⟨(hps p hp).1, (hps p hp).2.mono (by omega)⟩⟩

/-- Data has no more levels than there are places. -/
theorem IsData.nested (h : w.IsData v) : w.Nested w.size v := by
  classical
  have hleast := Nat.find_spec h
  obtain ⟨ps, hlength, hnodup, hps⟩ := exists_places hleast fun m hm => Nat.find_min h hm
  have hsub : ps.Subperm w.places := hnodup.subperm fun p hp => (hps p hp).1
  refine hleast.mono ?_
  rw [← hlength, ← w.length_places]
  exact hsub.length_le

end Levels

section Comparing

variable {r : Ref}

theorem list_of_nested (h : w.Nested n (.list r)) : ∃ m, n = m + 1 ∧ ∀ x ∈ w.list r, w.Nested m x := by
  cases h with
  | atom h => cases h
  | holds h hvs =>
    refine ⟨_, rfl, ?_⟩
    rw [list, show w.lists[r]? = _ from h]
    exact hvs

theorem tuple_of_nested (h : w.Nested n (.tuple r)) : ∃ m, n = m + 1 ∧ ∀ x ∈ w.tuple r, w.Nested m x := by
  cases h with
  | atom h => cases h
  | holds h hvs =>
    refine ⟨_, rfl, ?_⟩
    rw [tuple, show w.tuples[r]? = _ from h]
    exact hvs

theorem dict_of_nested (h : w.Nested n (.dict r)) :
    ∃ m, n = m + 1 ∧ ∀ e ∈ w.dict r, w.Nested m e.1 ∧ w.Nested m e.2 := by
  cases h with
  | atom h => cases h
  | holds h hvs =>
    obtain ⟨entries, hr, rfl⟩ := Option.map_eq_some_iff.1 h
    refine ⟨_, rfl, fun e he => ?_⟩
    rw [dict, hr] at he
    exact ⟨hvs _ (mem_append_left _ (mem_map_of_mem he)), hvs _ (mem_append_right _ (mem_map_of_mem he))⟩

theorem object_of_nested (h : w.Nested n (.object r)) :
    ∃ m, n = m + 1 ∧ (w.object r).kind.computed = [] ∧ ∀ a ∈ (w.object r).attributes, w.Nested m a.2 := by
  cases h with
  | atom h => cases h
  | holds h hvs =>
    obtain ⟨o, hr, ho⟩ := Option.bind_eq_some_iff.1 h
    have hobject : w.object r = o := by rw [object, hr]; rfl
    split at ho
    · rename_i hkind
      cases ho
      rw [hobject]
      exact ⟨_, rfl, hkind, fun a ha => hvs _ (mem_map_of_mem ha)⟩
    · cases ho

theorem equalWithin_isSome_of_nested {fuel : Nat} {a b : Value} (ha : w.Nested n a) (hb : w.Nested n b)
    (hn : n < fuel) : (w.equalWithin fuel a b).isSome := by
  induction fuel generalizing n a b with
  | zero => omega
  | succ fuel ih =>
    unfold equalWithin
    split
    · rfl
    · split
      · rename_i r s _
        obtain ⟨m, rfl, has⟩ := list_of_nested ha
        obtain ⟨_, hm, hbs⟩ := list_of_nested hb
        cases hm
        split
        · rfl
        · split
          · rfl
          · exact allEqual_isSome fun x hx y hy => ih (has x hx) (hbs y hy) (by omega)
      · rename_i r s _
        obtain ⟨m, rfl, has⟩ := tuple_of_nested ha
        obtain ⟨_, hm, hbs⟩ := tuple_of_nested hb
        cases hm
        split
        · rfl
        · exact allEqual_isSome fun x hx y hy => ih (has x hx) (hbs y hy) (by omega)
      · rename_i r s _
        obtain ⟨m, rfl, has⟩ := dict_of_nested ha
        obtain ⟨_, hm, hbs⟩ := dict_of_nested hb
        cases hm
        split
        · rfl
        · exact entriesEqual_isSome fun x hx y hy =>
            ⟨ih (hbs y hy).1 (has x hx).1 (by omega), ih (has x hx).2 (hbs y hy).2 (by omega)⟩
      · rename_i r s _
        obtain ⟨m, rfl, -, has⟩ := object_of_nested ha
        obtain ⟨_, hm, -, hbs⟩ := object_of_nested hb
        cases hm
        split
        · rfl
        · split
          · refine entriesEqual_isSome fun x hx y hy => ?_
            obtain ⟨a, hxa, rfl⟩ := mem_map.1 hx
            obtain ⟨b, hyb, rfl⟩ := mem_map.1 hy
            exact ⟨ih (n := m) (.atom rfl) (.atom rfl) (by omega), ih (has a hxa) (hbs b hyb) (by omega)⟩
          · rfl
      · rfl

theorem size_lt_depth (w : World) : w.size < w.depth := by
  have hsquare : w.size + 1 ≤ (w.size + 1) * (w.size + 1) := Nat.le_mul_self _
  unfold depth
  omega

theorem IsData.equal {a b : Value} (ha : w.IsData a) (hb : w.IsData b) : ∃ r, w.equal a b = .ok r := by
  obtain ⟨r, hr⟩ := Option.isSome_iff_exists.1 (equalWithin_isSome_of_nested ha.nested hb.nested w.size_lt_depth)
  exact ⟨r, by rw [World.equal, hr]⟩

end Comparing

end World

end NullSafe
