import NullSafe.Proofs.Equality

/-! # The order of data

Two values without floating-point numbers are compared once: they have no order, or one of three ways to compare. That
decides all four relations between them, and between them the other way round. So the relations are consistent with
one another, and the operations for them, which take values without an order to be in none, always return.
-/

namespace NullSafe

namespace World

variable {w : World} {a b : Value} {n fuel : Nat}

section Comparing

theorem compareCodes_swap (as bs : List Nat) : compareCodes bs as = (compareCodes as bs).swap := by
  induction as generalizing bs with
  | nil => cases bs <;> rfl
  | cons a as ih =>
    cases bs with
    | nil => rfl
    | cons b bs =>
      rcases Nat.lt_trichotomy a b with hab | rfl | hab
      · simp [compareCodes, hab, Nat.not_lt_of_gt hab]
      · simp [compareCodes, ih bs]
      · simp [compareCodes, hab, Nat.not_lt_of_gt hab]

theorem Exact.sameItem (ha : w.Exact a) (hb : w.Exact b) : ∃ r, w.sameItem a b = .ok r ∧ w.sameItem b a = .ok r := by
  obtain ⟨r, hr⟩ := w.equates_exact.total ha hb
  have hr' := (w.equates_exact.comm hb ha).trans hr
  by_cases hab : a = b
  · exact ⟨true, by simp [World.sameItem, hab], by simp [World.sameItem, hab]⟩
  · exact ⟨r, by simp [World.sameItem, hab, World.equal, hr], by simp [World.sameItem, Ne.symm hab, World.equal, hr']⟩

/-- The first difference of two sequences is found from either side. -/
theorem firstDifference_swap {as bs : List Value} (has : ∀ a ∈ as, w.Exact a) (hbs : ∀ b ∈ bs, w.Exact b) :
    (∃ o, w.firstDifference as bs = .ok (.inl o) ∧ w.firstDifference bs as = .ok (.inl o.swap)) ∨
      ∃ a ∈ as, ∃ b ∈ bs, w.firstDifference as bs = .ok (.inr (a, b)) ∧
        w.firstDifference bs as = .ok (.inr (b, a)) := by
  induction as generalizing bs with
  | nil => cases bs <;> exact .inl ⟨_, rfl, rfl⟩
  | cons a as ih =>
    cases bs with
    | nil => exact .inl ⟨_, rfl, rfl⟩
    | cons b bs =>
      simp only [List.forall_mem_cons] at has hbs
      obtain ⟨r, hab, hba⟩ := has.1.sameItem hbs.1
      have hfirst : w.firstDifference (a :: as) (b :: bs) =
          if r = true then w.firstDifference as bs else .ok (.inr (a, b)) := by
        rw [firstDifference, hab]
        rfl
      have hsecond : w.firstDifference (b :: bs) (a :: as) =
          if r = true then w.firstDifference bs as else .ok (.inr (b, a)) := by
        rw [firstDifference, hba]
        rfl
      rw [hfirst, hsecond]
      split
      · rcases ih has.2 hbs.2 with ⟨o, ho⟩ | ⟨x, hx, y, hy, hxy⟩
        · exact .inl ⟨o, ho⟩
        · exact .inr ⟨x, .tail _ hx, y, .tail _ hy, hxy⟩
      · exact .inr ⟨a, .head _, b, .head _, rfl, rfl⟩

/-- Two values compare in the given way, or have no order, and that decides all relations between them. -/
def Compares (w : World) (fuel : Nat) (a b : Value) (o : Option Ordering) : Prop :=
  ∀ rel, w.relateWithin rel fuel a b = o.elim (.error .mistyped) fun o => .ok (rel.holds o)

/-- Two values compare, and the other way round they compare in the opposite way. -/
def ComparesBothWays (w : World) (fuel : Nat) (a b : Value) : Prop :=
  ∃ o : Option Ordering, w.Compares fuel a b o ∧ w.Compares fuel b a (o.map Ordering.swap)

theorem comparesBothWays_numbers {i j : Int} (ha : a.number? = some (.int i)) (hb : b.number? = some (.int j)) :
    w.ComparesBothWays (fuel + 1) a b := by
  refine ⟨some (compare i j), fun rel => ?_, fun rel => ?_⟩
  · unfold relateWithin
    rw [ha, hb]
    rfl
  · unfold relateWithin
    rw [ha, hb, Option.map_some, Int.compare_swap]
    rfl

theorem comparesBothWays_items {v v' : Value} {as bs : List Value} (has : ∀ a ∈ as, w.Exact a)
    (hbs : ∀ b ∈ bs, w.Exact b)
    (hv : ∀ rel, w.relateWithin rel (fuel + 1) v v' = w.relateItems rel (w.relateWithin rel fuel) as bs)
    (hv' : ∀ rel, w.relateWithin rel (fuel + 1) v' v = w.relateItems rel (w.relateWithin rel fuel) bs as)
    (h : ∀ a ∈ as, ∀ b ∈ bs, w.ComparesBothWays fuel a b) : w.ComparesBothWays (fuel + 1) v v' := by
  rcases firstDifference_swap has hbs with ⟨o, ho, ho'⟩ | ⟨a, ha, b, hb, hab, hba⟩
  · refine ⟨some o, fun rel => ?_, fun rel => ?_⟩
    · rw [hv, relateItems, ho]
      rfl
    · rw [hv', relateItems, ho']
      rfl
  · obtain ⟨o, ho, ho'⟩ := h a ha b hb
    refine ⟨o, fun rel => ?_, fun rel => ?_⟩
    · rw [hv, relateItems, hab]
      exact ho rel
    · rw [hv', relateItems, hba]
      exact ho' rel

theorem ExactWithin.comparesBothWays (ha : w.ExactWithin n a) (hb : w.ExactWithin n b) (hn : n < fuel) :
    w.ComparesBothWays fuel a b := by
  induction fuel generalizing n a b with
  | zero => omega
  | succ fuel ih =>
    cases ha.1 <;> cases hb.1
    case str.str s t =>
      refine ⟨some (compareCodes (s.toList.map Char.toNat) (t.toList.map Char.toNat)), fun rel => ?_, fun rel => ?_⟩
      · simp [relateWithin, Value.number?]
      · simp [relateWithin, Value.number?, compareCodes_swap (s.toList.map Char.toNat)]
    case list.list =>
      have hpos := ha.list.1
      exact comparesBothWays_items (fun x hx => (ha.list.2 x hx).1) (fun x hx => (hb.list.2 x hx).1)
        (fun rel => by simp [relateWithin, Value.number?]) (fun rel => by simp [relateWithin, Value.number?])
        fun x hx y hy => ih (ha.list.2 x hx) (hb.list.2 y hy) (by omega)
    case tuple.tuple =>
      have hpos := ha.tuple.1
      exact comparesBothWays_items (fun x hx => (ha.tuple.2 x hx).1) (fun x hx => (hb.tuple.2 x hx).1)
        (fun rel => by simp [relateWithin, Value.number?]) (fun rel => by simp [relateWithin, Value.number?])
        fun x hx y hy => ih (ha.tuple.2 x hx) (hb.tuple.2 y hy) (by omega)
    case bool.bool | bool.int | int.bool | int.int => exact comparesBothWays_numbers rfl rfl
    all_goals
      exact ⟨none, fun rel => by simp [relateWithin, Value.number?], fun rel => by simp [relateWithin, Value.number?]⟩

end Comparing

section Relations

def Relation.operation : Relation → Operation
  | below => .below
  | above => .above
  | atMost => .atMost
  | atLeast => .atLeast

theorem Relation.run_operation (rel : Relation) (a b : Value) : rel.operation.run [a, b] = Run.related rel a b := by
  cases rel <;> rfl

theorem outcome_related (rel : Relation) (ha : a ≠ .null) (hb : b ≠ .null) {o : Option Ordering}
    (ho : w.Compares w.depth a b o) : (Run.related rel a b).outcome w = (.ok (.bool (o.any rel.holds)), w) := by
  have hrelate : w.relate rel a b = o.elim (.error .mistyped) fun o => .ok (rel.holds o) := ho rel
  unfold Run.related
  split
  · exact absurd rfl ha
  · exact absurd rfl hb
  · rw [Run.outcome_bind, Run.outcome_get]
    simp only [hrelate]
    cases o <;> rfl

/-- One comparison says what all four operations return, in both directions. -/
theorem Exact.outcome_operations (ha : w.Exact a) (hb : w.Exact b) :
    ∃ o : Option Ordering, (a = .null ∨ b = .null → o = none) ∧
      (∀ rel : Relation, (rel.operation.run [a, b]).outcome w = (.ok (.bool (o.any rel.holds)), w)) ∧
      ∀ rel : Relation,
        (rel.operation.run [b, a]).outcome w = (.ok (.bool ((o.map Ordering.swap).any rel.holds)), w) := by
  simp only [Relation.run_operation]
  by_cases hnull : a = .null ∨ b = .null
  · have hleft : ∀ (v : Value) (rel : Relation), (Run.related rel .null v).outcome w = (.ok (.bool false), w) :=
      fun _ _ => rfl
    have hright : ∀ (v : Value) (rel : Relation), (Run.related rel v .null).outcome w = (.ok (.bool false), w) :=
      fun v _ => by cases v <;> rfl
    refine ⟨none, fun _ => rfl, ?_⟩
    rcases hnull with rfl | rfl
    · exact ⟨hleft b, hright b⟩
    · exact ⟨hright a, hleft a⟩
  · obtain ⟨hna, hnb⟩ := not_or.1 hnull
    obtain ⟨o, ho, ho'⟩ := ExactWithin.comparesBothWays ⟨ha, ha.isData.nested⟩ ⟨hb, hb.isData.nested⟩ w.size_lt_depth
    exact ⟨o, fun h => absurd h hnull, fun rel => outcome_related rel hna hnb ho,
      fun rel => outcome_related rel hnb hna ho'⟩

/-- The four operations that compare two values return and are consistent with one another. -/
structure OrdersConsistently (w : World) (a b : Value) : Prop where
  returns : ∀ rel : Relation, ∃ r, (rel.operation.run [a, b]).outcome w = (.ok (.bool r), w)
  below_above : (Operation.below.run [a, b]).outcome w = (Operation.above.run [b, a]).outcome w
  atMost_atLeast : (Operation.atMost.run [a, b]).outcome w = (Operation.atLeast.run [b, a]).outcome w
  not_below_and_atLeast : ¬ ((Operation.below.run [a, b]).outcome w = (.ok (.bool true), w) ∧
    (Operation.atLeast.run [a, b]).outcome w = (.ok (.bool true), w))
  atMost_of_below : (Operation.below.run [a, b]).outcome w = (.ok (.bool true), w) →
    (Operation.atMost.run [a, b]).outcome w = (.ok (.bool true), w)
  missing : a = .null ∨ b = .null → ∀ rel : Relation, (rel.operation.run [a, b]).outcome w = (.ok (.bool false), w)

theorem ordersConsistently_of_exact (ha : w.Exact a) (hb : w.Exact b) : w.OrdersConsistently a b := by
  obtain ⟨o, hmissing, hab, hba⟩ := ha.outcome_operations hb
  have hbelow : (Operation.below.run [a, b]).outcome w = _ := hab .below
  have hatMost : (Operation.atMost.run [a, b]).outcome w = _ := hab .atMost
  have hatLeast : (Operation.atLeast.run [a, b]).outcome w = _ := hab .atLeast
  refine ⟨fun rel => ⟨_, hab rel⟩, hbelow.trans ?_, hatMost.trans ?_, ?_, ?_, ?_⟩
  · rw [show (Operation.above.run [b, a]).outcome w = _ from hba .above]
    rcases o with _ | _ | _ | _ <;> rfl
  · rw [show (Operation.atLeast.run [b, a]).outcome w = _ from hba .atLeast]
    rcases o with _ | _ | _ | _ <;> rfl
  · rw [hbelow, hatLeast]
    rcases o with _ | _ | _ | _ <;> simp [Relation.holds]
  · rw [hbelow, hatMost]
    rcases o with _ | _ | _ | _ <;> simp [Relation.holds]
  · intro hnull rel
    rw [hab rel, hmissing hnull]
    rfl

/-- Two lists that differ behind equal tuples and mappings, whose entries stand in a different order. -/
def nestedLists : World where
  lists := #[[.int 1, .tuple 0, .dict 0], [.bool true, .tuple 1, .dict 1, .null]]
  tuples := #[[.str "a", .null], [.str "a", .null]]
  dicts := #[[(.str "k", .int 2), (.str "l", .int 0)], [(.str "l", .bool false), (.str "k", .int 2)]]

theorem exact_nestedLists : nestedLists.Exact (.list 0) ∧ nestedLists.Exact (.list 1) := by
  have htuples : nestedLists.Exact (.tuple 0) ∧ nestedLists.Exact (.tuple 1) :=
    ⟨.tuple rfl (by simp [nestedLists, Exact.str, Exact.null]),
      .tuple rfl (by simp [nestedLists, Exact.str, Exact.null])⟩
  have hdicts : nestedLists.Exact (.dict 0) ∧ nestedLists.Exact (.dict 1) := by
    refine ⟨.dict rfl ?_ ?_ ?_, .dict rfl ?_ ?_ ?_⟩ <;> simp [nestedLists, Exact.str, Exact.int, Exact.bool] <;> rfl
  constructor
  · refine .list (show nestedLists.lists[0]? = some [.int 1, .tuple 0, .dict 0] from rfl) ?_
    simp only [List.forall_mem_cons]
    exact ⟨.int 1, htuples.1, hdicts.1, nofun⟩
  · refine .list (show nestedLists.lists[1]? = some [.bool true, .tuple 1, .dict 1, .null] from rfl) ?_
    simp only [List.forall_mem_cons]
    exact ⟨.bool true, htuples.2, hdicts.2, .null, nofun⟩

theorem ordersConsistently_nestedLists :
    nestedLists.Exact (.list 0) ∧ nestedLists.Exact (.list 1) ∧
      (Operation.below.run [.list 0, .list 1]).outcome nestedLists = (.ok (.bool true), nestedLists) ∧
      nestedLists.OrdersConsistently (.list 0) (.list 1) :=
  ⟨exact_nestedLists.1, exact_nestedLists.2, rfl,
    ordersConsistently_of_exact exact_nestedLists.1 exact_nestedLists.2⟩

end Relations

end World

end NullSafe
