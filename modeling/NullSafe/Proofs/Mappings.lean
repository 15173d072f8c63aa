import NullSafe.Value.Convert

/-! # Reading and updating mappings

A key that can be one is compared with any other value in finitely many levels, so mappings can be read and
updated with it. Texts equal nothing but themselves, so the entries of names are those of a plain list.
-/

namespace NullSafe

abbrev Entries := List (Value × Value)

namespace World

variable {w : World}

section Comparing

theorem allEqual_isSome {eq : Value → Value → Option Bool} {as bs : List Value}
    (h : ∀ a ∈ as, ∀ b ∈ bs, (eq a b).isSome) : (allEqual eq as bs).isSome := by
  induction as generalizing bs with
  | nil => cases bs <;> rfl
  | cons a as ih =>
    cases bs with
    | nil => rfl
    | cons b bs =>
      obtain ⟨r, hr⟩ := Option.isSome_iff_exists.1 (h a (.head _) b (.head _))
      have hrest := ih fun a' ha b' hb => h a' (.tail _ ha) b' (.tail _ hb)
      rw [allEqual, hr]
      change (if a = b || r then allEqual eq as bs else some false).isSome
      split
      · exact hrest
      · rfl

/-- A value that can be a key is compared with any other without going round in circles. -/
theorem equalWithin_isSome {n fuel : Nat} {a b : Value} (h : w.hashableWithin n b = true) (hn : n ≤ fuel) :
    (w.equalWithin fuel a b).isSome := by
  induction n generalizing fuel a b with
  | zero => cases h
  | succ n ih =>
    obtain ⟨fuel, rfl⟩ : ∃ m, fuel = m + 1 := ⟨fuel - 1, by omega⟩
    unfold equalWithin
    split
    · rfl
    · split
      · cases h
      · rename_i r s _
        split
        · rfl
        · refine allEqual_isSome fun a _ b hb => ih ?_ (by omega)
          exact List.all_eq_true.1 h b hb
      · cases h
      · rename_i r s _
        split
        · rfl
        · rw [hashableWithin, Bool.not_eq_true'] at h
          rw [h, Bool.and_false]
          rfl
      · rfl

theorem tuples_le_depth (w : World) : w.tuples.size + 2 ≤ w.depth := by
  have hsize : w.tuples.size ≤ w.size := by unfold size; omega
  have hsquare : w.size + 1 ≤ (w.size + 1) * (w.size + 1) := Nat.le_mul_self _
  unfold depth
  omega

theorem equal_isSome_of_hashable {b : Value} (h : w.hashable b = true) (a : Value) :
    (w.equalWithin w.depth a b).isSome :=
  equalWithin_isSome h w.tuples_le_depth

end Comparing

section Keys

variable {entries : Entries} {key v : Value} {eq : Value → Value → Option Bool}

theorem lookupBy_isSome (h : ∀ e ∈ entries, (eq e.1 key).isSome) : (lookupBy eq key entries).isSome := by
  induction entries with
  | nil => rfl
  | cons e rest ih =>
    obtain ⟨r, hr⟩ := Option.isSome_iff_exists.1 (h e (.head _))
    rw [lookupBy, hr]
    change (if e.1 = key || r then some (some e.2) else lookupBy eq key rest).isSome
    split
    · rfl
    · exact ih fun e' he => h e' (.tail _ he)

theorem mem_of_lookupBy (h : lookupBy eq key entries = some (some v)) : ∃ e ∈ entries, e.2 = v := by
  induction entries with
  | nil => cases h
  | cons e rest ih =>
    rw [lookupBy] at h
    rcases hr : eq e.1 key with _ | r <;> rw [hr] at h
    · cases h
    change (if e.1 = key || r then some (some e.2) else lookupBy eq key rest) = _ at h
    split at h
    · cases h
      exact ⟨e, .head _, rfl⟩
    · obtain ⟨e', he', rfl⟩ := ih h
      exact ⟨e', .tail _ he', rfl⟩

theorem lookup_of_hashable (h : w.hashable key = true) (entries : Entries) : ∃ r, w.lookup entries key = .ok r := by
  obtain ⟨r, hr⟩ := Option.isSome_iff_exists.1 (lookupBy_isSome
    fun (e : Value × Value) (_ : e ∈ entries) => equal_isSome_of_hashable h e.1)
  exact ⟨r, by simp [lookup, h, hr]⟩

theorem mem_of_lookup (h : w.lookup entries key = .ok (some v)) : ∃ e ∈ entries, e.2 = v := by
  rw [lookup] at h
  split at h
  · cases h
  · split at h <;> cases h
    exact mem_of_lookupBy ‹_›

theorem insert_of_hashable (h : w.hashable key = true) (entries : Entries) (v : Value) :
    ∃ entries', w.insert entries key v = .ok entries' := by
  have hsome : (insertBy (w.equalWithin w.depth) key v entries).isSome := by
    induction entries with
    | nil => rfl
    | cons e rest ih =>
      obtain ⟨r, hr⟩ := Option.isSome_iff_exists.1 (equal_isSome_of_hashable h e.1)
      obtain ⟨rest', hrest⟩ := Option.isSome_iff_exists.1 ih
      rw [insertBy, hr, hrest]
      change (if e.1 = key || r then some ((e.1, v) :: rest) else some ((e.1, e.2) :: rest')).isSome
      split <;> rfl
  obtain ⟨entries', hr⟩ := Option.isSome_iff_exists.1 hsome
  exact ⟨entries', by simp [insert, h, hr]⟩

/-- What holds of the entries, the new key and the new value holds of the entries afterwards. -/
theorem forall_insert {P Q : Value → Prop} {v : Value} {entries entries' : Entries}
    (h : w.insert entries key v = .ok entries') (hkey : P key) (hv : Q v)
    (hentries : ∀ e ∈ entries, P e.1 ∧ Q e.2) : ∀ e ∈ entries', P e.1 ∧ Q e.2 := by
  have hinsert : insertBy (w.equalWithin w.depth) key v entries = some entries' := by
    unfold insert at h
    split at h
    · cases h
    · split at h <;> cases h
      assumption
  clear h
  generalize w.equalWithin w.depth = eq at hinsert
  induction entries generalizing entries' with
  | nil =>
    cases hinsert
    exact List.forall_mem_singleton.2 ⟨hkey, hv⟩
  | cons x rest ih =>
    obtain ⟨hx, hrest⟩ := List.forall_mem_cons.1 hentries
    rw [insertBy] at hinsert
    rcases heq : eq x.1 key with _ | b <;> rw [heq] at hinsert
    · cases hinsert
    change (if x.1 = key || b then some ((x.1, v) :: rest)
      else insertBy eq key v rest >>= fun rest' => some ((x.1, x.2) :: rest')) = some entries' at hinsert
    split at hinsert
    · cases hinsert
      exact List.forall_mem_cons.2 ⟨⟨hx.1, hv⟩, hrest⟩
    · obtain ⟨rest', hrest', hinsert⟩ := Option.bind_eq_some_iff.1 hinsert
      cases hinsert
      exact List.forall_mem_cons.2 ⟨hx, ih hrest hrest'⟩

theorem updated_of_hashable {r : Ref} (h : ∀ e ∈ w.dict r, w.hashable e.1 = true)
    (entries : Entries) : ∃ entries', w.updated entries (.dict r) = .ok entries' := by
  rw [updated]
  generalize w.dict r = given at h
  induction given generalizing entries with
  | nil => exact ⟨entries, rfl⟩
  | cons e rest ih =>
    obtain ⟨entries', he⟩ := insert_of_hashable (h e (.head _)) entries e.2
    obtain ⟨entries'', hrest⟩ := ih entries' fun e' he' => h e' (.tail _ he')
    refine ⟨entries'', ?_⟩
    rw [List.foldlM_cons]
    change (w.insert entries e.1 e.2 >>= _) = _
    rw [he]
    exact hrest

theorem entriesEqual_isSome {entries other : Entries}
    (h : ∀ e ∈ entries, ∀ o ∈ other, (eq o.1 e.1).isSome ∧ (eq e.2 o.2).isSome) :
    (entriesEqual eq entries other).isSome := by
  have hfound : (allFound eq other entries).isSome := by
    induction entries with
    | nil => rfl
    | cons e rest ih =>
      have ih := ih fun e' he => h e' (.tail _ he)
      obtain ⟨r, hr⟩ := Option.isSome_iff_exists.1 (lookupBy_isSome fun o ho => (h e (.head _) o ho).1)
      rw [allFound, hr]
      cases r with
      | none => rfl
      | some v =>
        obtain ⟨o, ho, rfl⟩ := mem_of_lookupBy hr
        obtain ⟨b, hb⟩ := Option.isSome_iff_exists.1 (h e (.head _) o ho).2
        change (do if e.2 = o.2 || (← eq e.2 o.2) then allFound eq other rest else return false : Option Bool).isSome
        rw [hb]
        change (if e.2 = o.2 || b then allFound eq other rest else some false).isSome
        split
        · exact ih
        · rfl
  unfold entriesEqual
  split
  · exact hfound
  · rfl

end Keys

section Names

variable {entries entries' : Entries}

theorem equalWithin_str (fuel : Nat) (k : Value) (s : String) :
    w.equalWithin (fuel + 1) k (.str s) = some (decide (k = .str s)) := by
  cases k <;> rfl

theorem equalWithin_of_str {fuel : Nat} {k : Value} {s : String} (h : k ≠ .str s) :
    w.equalWithin (fuel + 1) (.str s) k = some false := by
  cases k with
  | str t => exact congrArg some (decide_eq_false fun e => h e.symm)
  | _ => rfl

theorem hashable_str (w : World) (s : String) : w.hashable (.str s) = true := rfl

theorem lookup_entry (key : Value) (e : Value × Value) (rest : Entries) :
    (e :: rest).lookup key = if e.1 = key then some e.2 else rest.lookup key := by
  rw [List.lookup_cons]
  by_cases he : e.1 = key
  · rw [he, beq_self_eq_true, if_pos rfl]
  · rw [beq_false_of_ne (Ne.symm he), if_neg he]

theorem lookupBy_str (fuel : Nat) (entries : Entries) (s : String) :
    lookupBy (w.equalWithin (fuel + 1)) (.str s) entries = some (entries.lookup (.str s)) := by
  induction entries with
  | nil => rfl
  | cons e rest ih =>
    rw [lookupBy, equalWithin_str, lookup_entry]
    change (if e.1 = .str s || decide (e.1 = .str s) then some (some e.2) else _) = _
    by_cases he : e.1 = .str s
    · simp [he]
    · simp [he, ih]

theorem lookup_str (w : World) (entries : Entries) (s : String) :
    w.lookup entries (.str s) = .ok (entries.lookup (.str s)) := by
  rw [lookup, hashable_str, depth, lookupBy_str]
  rfl

theorem lookup_insertBy {fuel : Nat} {key v : Value}
    (h : insertBy (w.equalWithin (fuel + 1)) key v entries = some entries') (s : String) :
    entries'.lookup (.str s) = if key = .str s then some v else entries.lookup (.str s) := by
  induction entries generalizing entries' with
  | nil =>
    cases h
    exact lookup_entry ..
  | cons e rest ih =>
    -- The key of an entry that is replaced is the given key, or equal to it without being a text.
    have hsame : ∀ r, w.equalWithin (fuel + 1) e.1 key = some r → (e.1 = key || r) = true →
        (e.1 = .str s ↔ key = .str s) := by
      intro r hr hor
      by_cases hkey : key = .str s
      · subst hkey
        rw [equalWithin_str] at hr
        cases hr
        simpa using hor
      · refine ⟨fun he => ?_, fun h => absurd h hkey⟩
        rw [he, equalWithin_of_str hkey] at hr
        cases hr
        rw [he, Bool.or_false, decide_eq_true_eq] at hor
        exact hor.symm
    rw [insertBy] at h
    cases hr : w.equalWithin (fuel + 1) e.1 key with
    | none =>
      rw [hr] at h
      cases h
    | some r =>
      rw [hr] at h
      replace h : (if (e.1 = key || r) = true then some ((e.1, v) :: rest)
        else do return e :: (← insertBy (w.equalWithin (fuel + 1)) key v rest)) = some entries' := h
      split at h
      · rename_i hor
        cases h
        rw [lookup_entry, lookup_entry]
        by_cases hkey : key = .str s
        · rw [if_pos ((hsame r hr hor).2 hkey), if_pos hkey]
        · have he : e.1 ≠ .str s := fun he => hkey ((hsame r hr hor).1 he)
          rw [if_neg he, if_neg hkey, if_neg he]
      · rename_i hor
        obtain ⟨rest', hrest, hentries⟩ := Option.bind_eq_some_iff.1 h
        cases hentries
        have hne : ¬ (e.1 = .str s ∧ key = .str s) := fun ⟨he, hkey⟩ => hor (by simp [he, hkey])
        rw [lookup_entry, lookup_entry, ih hrest]
        by_cases he : e.1 = .str s
        · rw [if_pos he, if_pos he, if_neg fun hkey => hne ⟨he, hkey⟩]
        · rw [if_neg he, if_neg he]

theorem lookup_insert {key v : Value} (h : w.insert entries key v = .ok entries') (s : String) :
    entries'.lookup (.str s) = if key = .str s then some v else entries.lookup (.str s) := by
  unfold insert at h
  split at h
  · cases h
  · split at h
    · rename_i hinsert
      cases h
      exact lookup_insertBy hinsert s
    · cases h

theorem lookup_reverse_cons (key : Value) (e : Value × Value) (rest entries : Entries) :
    ((e :: rest).reverse.lookup key).or (entries.lookup key) =
      (rest.reverse.lookup key).or (if e.1 = key then some e.2 else entries.lookup key) := by
  rw [List.reverse_cons, List.lookup_append, lookup_entry, Option.or_assoc]
  by_cases hkey : e.1 = key
  · rw [if_pos hkey, if_pos hkey, Option.some_or]
  · rw [if_neg hkey, if_neg hkey, List.lookup_nil, Option.none_or]

/-- The value of a name after a mapping is put over entries: the last one that the mapping gives it, if it gives
it any. -/
theorem lookup_updated {r : Ref} (h : w.updated entries (.dict r) = .ok entries') (s : String) :
    entries'.lookup (.str s) = ((w.dict r).reverse.lookup (.str s)).or (entries.lookup (.str s)) := by
  rw [updated] at h
  generalize w.dict r = given at h ⊢
  induction given generalizing entries with
  | nil =>
    cases h
    rfl
  | cons e rest ih =>
    rw [List.foldlM_cons] at h
    change (w.insert entries e.1 e.2 >>= _) = _ at h
    cases he : w.insert entries e.1 e.2 with
    | error f =>
      rw [he] at h
      cases h
    | ok entries₁ =>
      rw [he] at h
      rw [ih h, lookup_insert he, lookup_reverse_cons]

end Names

end World

end NullSafe
