import NullSafe.Proofs.Reading

/-! # Items of lists

A write at a position of a list replaces one item, or it appends the item behind as many missing ones as it takes. What
is read afterwards is what was written, and everything else is as it was, unless the position is negative. Such a
position is counted from the end by writes, but nothing is read there.
-/

namespace NullSafe

namespace Run

variable {items items' : List Value} {i : Int} {v : Value}

def writePosition (n : Nat) (i : Int) : Int := if i < 0 then i + n else i

theorem item_of_neg (h : i < 0) (items : List Value) : item items i = .null := if_neg (Int.not_le.2 h)

theorem item_natCast (items : List Value) (k : Nat) : item items k = items[k]?.getD .null := by
  rw [item, if_pos (Int.natCast_nonneg k), Int.toNat_natCast]

theorem item_set {k : Nat} (hk : k < items.length) (v : Value) (j : Int) :
    item (items.set k v) j = if j = k then v else item items j := by
  rcases Int.lt_or_le j 0 with hj | hj
  · rw [item_of_neg hj, item_of_neg hj, if_neg (by omega)]
  · obtain ⟨m, rfl⟩ := Int.eq_ofNat_of_zero_le hj
    rw [item_natCast, item_natCast, List.getElem?_set]
    by_cases hm : k = m
    · simp [← hm, hk]
    · rw [if_neg hm, if_neg (by omega)]

/-- The places that a list grows by read as they did before. -/
theorem item_grown (items : List Value) (gap : Nat) (v : Value) (j : Int) :
    item (items ++ List.replicate gap Value.null ++ [v]) j = if j = items.length + gap then v else item items j := by
  rcases Int.lt_or_le j 0 with hj | hj
  · rw [item_of_neg hj, item_of_neg hj, if_neg (by omega)]
  · obtain ⟨m, rfl⟩ := Int.eq_ofNat_of_zero_le hj
    rw [item_natCast, item_natCast]
    rcases Nat.lt_trichotomy m (items.length + gap) with hm | rfl | hm
    · rw [List.getElem?_append_left (by simpa using hm), if_neg (by omega), List.getElem?_append,
        List.getElem?_replicate]
      split
      · rfl
      · rw [if_pos (by omega), List.getElem?_eq_none (by omega)]
        rfl
    · simp
    · rw [List.getElem?_eq_none (by simp; omega), List.getElem?_eq_none (by omega), if_neg (by omega)]

variable {memory : Nat} (h : writeItem memory items i v = .ok items')

include h

theorem writeItem_eq_ok :
    (∃ k < items.length, writePosition items.length i = k ∧ items' = items.set k v) ∨
      ∃ gap : Nat, writePosition items.length i = items.length + gap ∧
        items' = items ++ List.replicate gap Value.null ++ [v] := by
  by_cases hi : i < items.length
  · have hset : writeItem memory items i v = if writePosition items.length i < 0 then .error .outOfRange
        else .ok (items.set (writePosition items.length i).toNat v) := if_pos hi
    rw [hset] at h
    split at h
    · cases h
    · rename_i hpos
      cases h
      refine .inl ⟨_, ?_, (Int.toNat_of_nonneg (Int.not_lt.1 hpos)).symm, rfl⟩
      unfold writePosition at hpos ⊢
      omega
  · have hgrow : writeItem memory items i v = if (i - items.length).toNat ≥ 2 ^ 63 then .error .overflow
        else if (i - items.length).toNat ≥ memory then .error .outOfMemory
        else .ok (items ++ List.replicate (i - items.length).toNat Value.null ++ [v]) := if_neg hi
    rw [hgrow] at h
    split at h
    · cases h
    · split at h
      · cases h
      · cases h
        refine .inr ⟨_, ?_, rfl⟩
        unfold writePosition
        omega

theorem item_writeItem (j : Int) : item items' j = if j = writePosition items.length i then v else item items j := by
  obtain ⟨k, hk, hpos, rfl⟩ | ⟨gap, hpos, rfl⟩ := writeItem_eq_ok h
  · rw [hpos, item_set hk]
  · rw [hpos, item_grown]

theorem writePosition_nonneg : 0 ≤ writePosition items.length i := by
  obtain ⟨k, -, hpos, -⟩ | ⟨gap, hpos, -⟩ := writeItem_eq_ok h <;> omega

omit h

variable {w w' : World} {r : Ref} {key x : Value}

theorem setProperty_list (hkey : key.index? = .ok (some i)) (w : World) :
    (setProperty (.list r) key v).outcome w = match writeItem w.memory (w.list r) i v with
      | .ok items => (.ok v, w.setList r items)
      | .error e => (.error e, w) := by
  unfold setProperty
  change ((ofExcept fun _ => key.index?) >>= _ : Run Value).outcome w = _
  rw [outcome_bind, outcome_ofExcept, hkey]
  dsimp only
  rw [outcome_bind, outcome_ofExcept]
  rcases writeItem w.memory (w.list r) i v with e | items <;> rfl

theorem setProperty_list_eq_ok (hkey : key.index? = .ok (some i))
    (h : (setProperty (.list r) key v).outcome w = (.ok x, w')) :
    ∃ items, writeItem w.memory (w.list r) i v = .ok items ∧ w' = w.setList r items := by
  rw [setProperty_list hkey] at h
  rcases hitems : writeItem w.memory (w.list r) i v with e | items <;> rw [hitems] at h <;> cases h
  exact ⟨items, rfl, rfl⟩

end Run

namespace World

variable {w w' : World} {r : Ref} {key v x : Value} {i : Int}

theorem list_setList_self (hr : r < w.lists.size) (items : List Value) : (w.setList r items).list r = items := by
  simp [list, setList, hr]

/-- Reads of a list after a write: at one position the value that was written, and at every other what was there
before. -/
structure ReadsAsWritten (w w' : World) (obj : Value) (i : Int) (v : Value) : Prop where
  written : ∀ key : Value, key.index? = .ok (some i) → (Run.getProperty obj key).outcome w' = (.ok v, w')
  kept : ∀ (key : Value) (j : Int), key.index? = .ok (some j) → j ≠ i →
    (Run.getProperty obj key).outcome w' = (((Run.getProperty obj key).outcome w).1, w')

theorem getProperty_list (w : World) (r : Ref) {key : Value} {j : Int} (hkey : key.index? = .ok (some j)) :
    (Run.getProperty (.list r) key).outcome w = (.ok (Run.item (w.list r) j), w) := by
  have hitems : w.sequence? (.list r) = some (w.list r) := rfl
  rw [Run.getProperty_sequence hitems, hkey]

theorem readsAsWritten_iff : w.ReadsAsWritten w' (.list r) i v ↔
    ∀ j, Run.item (w'.list r) j = if j = i then v else Run.item (w.list r) j := by
  constructor
  · rintro ⟨hwritten, hkept⟩ j
    split
    · rename_i hj
      have hread := hwritten (.int j) (by rw [← hj]; rfl)
      rw [getProperty_list w' r rfl] at hread
      exact Except.ok.inj (congrArg Prod.fst hread)
    · rename_i hj
      have hread := hkept (.int j) j rfl hj
      rw [getProperty_list w' r rfl, getProperty_list w r rfl] at hread
      exact Except.ok.inj (congrArg Prod.fst hread)
  · intro h
    refine ⟨fun key hkey => ?_, fun key j hkey hj => ?_⟩
    · rw [getProperty_list w' r hkey, h i, if_pos rfl]
    · rw [getProperty_list w' r hkey, getProperty_list w r hkey, h j, if_neg hj]

/-- After a write that returns, a list reads as written exactly if the position is not negative, or what was written is
missing and so was the item that it replaced. -/
theorem readsAsWritten_setProperty_iff (hr : r < w.lists.size) (hkey : key.index? = .ok (some i))
    (h : (Run.setProperty (.list r) key v).outcome w = (.ok x, w')) :
    w.ReadsAsWritten w' (.list r) i v ↔ 0 ≤ i ∨ v = .null ∧ Run.item (w.list r) (i + (w.list r).length) = .null := by
  obtain ⟨items, hitems, rfl⟩ := Run.setProperty_list_eq_ok hkey h
  have hread := Run.item_writeItem hitems
  have hpos := Run.writePosition_nonneg hitems
  rw [readsAsWritten_iff, list_setList_self hr]
  rcases Int.lt_or_le i 0 with hi | hi
  · have hwrite : Run.writePosition (w.list r).length i = i + (w.list r).length := if_pos hi
    rw [hwrite] at hread hpos
    have hne : i + (w.list r).length ≠ i := by omega
    rw [or_iff_right (Int.not_le.2 hi)]
    constructor
    · intro hall
      -- nothing is read at a negative position, and the item that was replaced is at another one
      have hmissing : v = .null := by
        have hat := hall i
        rw [if_pos rfl, Run.item_of_neg hi] at hat
        exact hat.symm
      have hreplaced := hall (i + (w.list r).length)
      rw [hread, if_pos rfl, if_neg hne, hmissing] at hreplaced
      exact ⟨hmissing, hreplaced.symm⟩
    · rintro ⟨rfl, hnull⟩ j
      rw [hread]
      by_cases hj : j = i
      · rw [if_pos hj, hj, if_neg hne.symm, Run.item_of_neg hi]
      · rw [if_neg hj]
        split
        · rename_i hat
          rw [hat, hnull]
        · rfl
  · have hwrite : Run.writePosition (w.list r).length i = i := if_neg (Int.not_lt.2 hi)
    rw [hwrite] at hread
    exact iff_of_true hread (.inl hi)

def oneItem : World := { lists := #[[.int 1]] }

/-- A text of digits is a position behind the end, where the list grows. -/
theorem readsAsWritten_grown : ∃ w',
    (Run.setProperty (.list 0) (.str "3") (.int 5)).outcome oneItem = (.ok (.int 5), w') ∧
    w'.list 0 = [.int 1, .null, .null, .int 5] ∧ oneItem.ReadsAsWritten w' (.list 0) 3 (.int 5) := by
  have hkey : (Value.str "3").index? = .ok (some 3) := by decide +kernel
  have hwrite : (Run.setProperty (.list 0) (.str "3") (.int 5)).outcome oneItem =
      (.ok (.int 5), oneItem.setList 0 [.int 1, .null, .null, .int 5]) := by
    rw [Run.setProperty_list hkey]
    rfl
  exact ⟨_, hwrite, rfl, (readsAsWritten_setProperty_iff (by decide) hkey hwrite).2 (.inl (by decide))⟩

/-- The last item is written to at position `-1`, but it is not read there. -/
theorem not_readsAsWritten_negative : ∃ w', (Run.setProperty (.list 0) (.int (-1)) (.int 5)).outcome oneItem =
    (.ok (.int 5), w') ∧ (Run.getProperty (.list 0) (.int (-1))).outcome w' = (.ok .null, w') ∧
      ¬ oneItem.ReadsAsWritten w' (.list 0) (-1) (.int 5) := by
  refine ⟨_, rfl, rfl, fun h => ?_⟩
  have hread := congrArg Prod.fst (h.written (.int (-1)) rfl)
  exact absurd hread (by decide)

end World

end NullSafe
