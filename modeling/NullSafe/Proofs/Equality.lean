import Mathlib.Data.List.Forall2
import Mathlib.Data.List.Nodup
import Mathlib.Data.List.Pairwise
import NullSafe.Proofs.Data

/-! # Equality of data without floating-point numbers

Nothing, truth values, whole numbers, texts, and the lists, tuples and mappings that are made of them, are compared
without an error. Equality is an equivalence relation on them. Of mappings this is so because their keys differ from one
another: two mappings of one length, one of which has every entry of the other, have the same entries.
-/

namespace NullSafe.World

open List Option

variable {w : World} {S : Value → Prop} {eq : Value → Value → Option Bool}

section Sequences

/-- A comparison always succeeds on some values and is an equivalence relation on them. -/
structure Equates (S : Value → Prop) (eq : Value → Value → Option Bool) : Prop where
  total : ∀ {a b}, S a → S b → ∃ r, eq a b = some r
  refl : ∀ {a}, S a → eq a a = some true
  symm : ∀ {a b}, S a → S b → eq a b = some true → eq b a = some true
  trans : ∀ {a b c}, S a → S b → S c → eq a b = some true → eq b c = some true → eq a c = some true

variable {a b : Value} {as bs : List Value} (h : Equates S eq)

include h

theorem Equates.comm (ha : S a) (hb : S b) : eq a b = eq b a := by
  obtain ⟨r, hr⟩ := h.total ha hb
  obtain ⟨r', hr'⟩ := h.total hb ha
  have hab := h.symm ha hb
  have hba := h.symm hb ha
  cases r <;> cases r' <;> simp_all

/-- That a value equals itself need not be tested apart. -/
theorem Equates.same_iff (ha : S a) {r : Bool} (hr : eq a b = some r) : (a = b || r) = true ↔ eq a b = some true := by
  rw [hr, Bool.or_eq_true, decide_eq_true_eq, Option.some.injEq, or_iff_right_iff_imp]
  rintro rfl
  exact Option.some.inj (hr.symm.trans (h.refl ha))

variable (has : ∀ a ∈ as, S a)

include has

theorem Equates.allEqual_iff (hbs : ∀ b ∈ bs, S b) :
    allEqual eq as bs = some true ↔ List.Forall₂ (fun a b => eq a b = some true) as bs := by
  induction as generalizing bs with
  | nil => cases bs <;> simp [allEqual]
  | cons a as ih =>
    cases bs with
    | nil => simp [allEqual]
    | cons b bs =>
      simp only [forall_mem_cons] at has hbs
      obtain ⟨r, hr⟩ := h.total has.1 hbs.1
      have hsame := h.same_iff has.1 hr
      simp only [allEqual, hr, bind_eq_bind, bind_some, forall₂_cons, ← ih has.2 hbs.2]
      split <;> simp_all

theorem Equates.forall₂_symm (hbs : ∀ b ∈ bs, S b) (hab : List.Forall₂ (fun a b => eq a b = some true) as bs) :
    List.Forall₂ (fun a b => eq a b = some true) bs as := by
  induction hab with
  | nil => exact .nil
  | cons hx _ ih =>
    simp only [forall_mem_cons] at has hbs
    exact .cons (h.symm has.1 hbs.1 hx) (ih has.2 hbs.2)

theorem Equates.forall₂_trans {cs : List Value} (hbs : ∀ b ∈ bs, S b)
    (hcs : ∀ c ∈ cs, S c) (hab : List.Forall₂ (fun a b => eq a b = some true) as bs)
    (hbc : List.Forall₂ (fun a b => eq a b = some true) bs cs) :
    List.Forall₂ (fun a b => eq a b = some true) as cs := by
  induction hab generalizing cs with
  | nil =>
    cases hbc
    exact .nil
  | cons hx _ ih =>
    cases hbc with
    | cons hy hbc =>
      simp only [forall_mem_cons] at has hbs hcs
      exact .cons (h.trans has.1 hbs.1 hcs.1 hx hy) (ih has.2 hbs.2 hcs.2 hbc)

end Sequences

section Entries

/-- Two entries with equal keys and equal values. -/
def Matches (eq : Value → Value → Option Bool) (x y : Value × Value) : Prop :=
  eq x.1 y.1 = some true ∧ eq x.2 y.2 = some true

def KeysDiffer (eq : Value → Value → Option Bool) (entries : List (Value × Value)) : Prop :=
  entries.Pairwise fun x y => eq x.1 y.1 = some false

def EntriesIn (S : Value → Prop) (entries : List (Value × Value)) : Prop := ∀ e ∈ entries, S e.1 ∧ S e.2

variable {entries others : Entries} {key v : Value} (h : Equates S eq) (hentries : EntriesIn S entries)

include h hentries

theorem Equates.lookupBy_iff (hdiffer : KeysDiffer eq entries)
    (hkey : S key) : lookupBy eq key entries = some (some v) ↔ ∃ e ∈ entries, eq key e.1 = some true ∧ e.2 = v := by
  induction entries with
  | nil => simp [lookupBy]
  | cons x rest ih =>
    obtain ⟨hx, hrest⟩ := forall_mem_cons.1 hentries
    obtain ⟨hothers, hdiffer⟩ := pairwise_cons.1 hdiffer
    obtain ⟨r, hr⟩ := h.total hx.1 hkey
    have hsame := h.same_iff hx.1 hr
    rw [h.comm hx.1 hkey] at hsame
    have hlookup : lookupBy eq key (x :: rest) =
        if (x.1 = key || r) = true then some (some x.2) else lookupBy eq key rest := by
      simp [lookupBy, hr]
    rw [hlookup, exists_mem_cons_iff]
    split
    · rename_i hfound
      have hfound := hsame.1 hfound
      -- a second entry with the key would have the key of the first
      have hno : ¬ ∃ e ∈ rest, eq key e.1 = some true ∧ e.2 = v := by
        rintro ⟨e, he, hkeye, -⟩
        have hxe := h.trans hx.1 hkey (hrest e he).1 (h.symm hkey hx.1 hfound) hkeye
        rw [hothers e he] at hxe
        cases hxe
      simp [hfound, hno]
    · rename_i hfound
      rw [hsame] at hfound
      rw [ih hrest hdiffer]
      simp [hfound]

theorem Equates.allFound_iff (hothers : EntriesIn S others) (hdiffer : KeysDiffer eq others) :
    allFound eq others entries = some true ↔ ∀ x ∈ entries, ∃ y ∈ others, Matches eq x y := by
  induction entries with
  | nil => simp [allFound]
  | cons x rest ih =>
    obtain ⟨hx, hrest⟩ := forall_mem_cons.1 hentries
    have hlookup := fun v => h.lookupBy_iff (v := v) hothers hdiffer hx.1
    have hsome : (lookupBy eq x.1 others).isSome :=
      lookupBy_isSome fun e he => isSome_iff_exists.2 (h.total (hothers e he).1 hx.1)
    obtain ⟨found, hfound⟩ := isSome_iff_exists.1 hsome
    rw [forall_mem_cons, ← ih hrest]
    simp only [allFound, hfound, bind_eq_bind, bind_some]
    rw [hfound] at hlookup
    cases found with
    | none =>
      have hno : ¬ ∃ y ∈ others, Matches eq x y := by
        rintro ⟨y, hy, hkey, -⟩
        cases (hlookup y.2).2 ⟨y, hy, hkey, rfl⟩
      simp [hno]
    | some v =>
      obtain ⟨y, hy, hkey, rfl⟩ := (hlookup v).1 rfl
      obtain ⟨r, hr⟩ := h.total hx.2 (hothers y hy).2
      have hsame := h.same_iff hx.2 hr
      have hmatches : (∃ y ∈ others, Matches eq x y) ↔ (x.2 = y.2 || r) = true := by
        rw [hsame]
        constructor
        · rintro ⟨z, hz, hkeyz, hvalue⟩
          have hvalues := (hlookup z.2).2 ⟨z, hz, hkeyz, rfl⟩
          simp only [Option.some.injEq] at hvalues
          rwa [hvalues]
        · exact fun hvalue => ⟨y, hy, hkey, hvalue⟩
      rw [hmatches]
      simp only [hr, bind_some]
      split <;> simp_all

theorem Equates.entriesEqual_iff (hothers : EntriesIn S others)
    (hdiffer : KeysDiffer eq others) : entriesEqual eq entries others = some true ↔
      entries.length = others.length ∧ ∀ x ∈ entries, ∃ y ∈ others, Matches eq x y := by
  unfold entriesEqual
  split
  · rename_i hlength
    rw [h.allFound_iff hentries hothers hdiffer, and_iff_right hlength]
  · rename_i hlength
    simp [hlength]

theorem Equates.nodup_of_keysDiffer (hdiffer : KeysDiffer eq entries) : entries.Nodup := by
  refine hdiffer.imp_of_mem fun {x y} hx _ hxy => ?_
  rintro rfl
  rw [h.refl (hentries x hx).1] at hxy
  cases hxy

theorem Equates.eq_of_keysDiffer
    (hdiffer : KeysDiffer eq entries) {x y : Value × Value} (hx : x ∈ entries) (hy : y ∈ entries)
    (hxy : eq x.1 y.1 = some true) : x = y := by
  let differ (x y : Value × Value) : Prop := x ∈ entries ∧ y ∈ entries ∧ eq x.1 y.1 = some false
  have hsymm : Std.Symm differ := ⟨fun x y hxy =>
    ⟨hxy.2.1, hxy.1, (h.comm (hentries y hxy.2.1).1 (hentries x hxy.1).1).trans hxy.2.2⟩⟩
  have hall : entries.Pairwise differ := hdiffer.imp_of_mem fun hx hy hxy => ⟨hx, hy, hxy⟩
  by_contra hne
  have hfalse := (hall.forall hx hy hne).2.2
  rw [hxy] at hfalse
  cases hfalse

/-- Entries that all have a match among as many others leave none of the others without one. -/
theorem Equates.exists_matches (hothers : EntriesIn S others)
    (hdiffer : KeysDiffer eq entries) (hlength : entries.length = others.length)
    (hfound : ∀ x ∈ entries, ∃ y ∈ others, Matches eq x y) {y : Value × Value} (hy : y ∈ others) :
    ∃ x ∈ entries, Matches eq x y := by
  have hchoice : ∀ x, ∃ y, x ∈ entries → y ∈ others ∧ Matches eq x y := fun x => by
    by_cases hx : x ∈ entries
    · obtain ⟨y, hy⟩ := hfound x hx
      exact ⟨y, fun _ => hy⟩
    · exact ⟨x, fun h => absurd h hx⟩
  choose f hf using hchoice
  -- different entries have different matches, so the matches are all of the others
  have hinjective : ∀ x ∈ entries, ∀ x' ∈ entries, f x = f x' → x = x' := by
    intro x hx x' hx' hff
    refine h.eq_of_keysDiffer hentries hdiffer hx hx' ?_
    have hkey := (hf x hx).2.1
    have hkey' := (hf x' hx').2.1
    have hS := hothers _ (hf x hx).1
    rw [← hff] at hkey'
    exact h.trans (hentries x hx).1 hS.1 (hentries x' hx').1 hkey (h.symm (hentries x' hx').1 hS.1 hkey')
  have hnodup : (entries.map f).Nodup := List.Nodup.map_on hinjective (h.nodup_of_keysDiffer hentries hdiffer)
  have hsubset : entries.map f ⊆ others := by
    intro z hz
    obtain ⟨x, hx, rfl⟩ := mem_map.1 hz
    exact (hf x hx).1
  have hperm := (hnodup.subperm hsubset).perm_of_length_le (by simp [hlength])
  obtain ⟨x, hx, rfl⟩ := mem_map.1 (hperm.mem_iff.2 hy)
  exact ⟨x, hx, (hf x hx).2⟩

end Entries

section Levels

variable {eq' : Value → Value → Option Bool} {fuel fuel' : Nat} {a b : Value} {as bs : List Value}
  {entries others : Entries} {r : Bool}

theorem bind_mono {α β : Type} {x y : Option α} {f g : α → Option β} {b : β} (hb : x.bind f = some b)
    (hxy : ∀ {a}, x = some a → y = some a) (hfg : ∀ {a}, f a = some b → g a = some b) : y.bind g = some b := by
  obtain ⟨a, ha, hfa⟩ := bind_eq_some_iff.1 hb
  exact bind_eq_some_iff.2 ⟨a, hxy ha, hfg hfa⟩

variable (h : ∀ {a b r}, eq a b = some r → eq' a b = some r)

include h

theorem allEqual_mono (hr : allEqual eq as bs = some r) : allEqual eq' as bs = some r := by
  induction as generalizing bs with
  | nil => cases bs <;> exact hr
  | cons a as ih =>
    cases bs with
    | nil => exact hr
    | cons b bs =>
      refine bind_mono hr h fun {found} hfound => ?_
      split at hfound <;> simp_all

theorem lookupBy_mono {key : Value} {o : Option Value}
    (ho : lookupBy eq key entries = some o) : lookupBy eq' key entries = some o := by
  induction entries with
  | nil => exact ho
  | cons x rest ih =>
    refine bind_mono ho h fun {found} hfound => ?_
    split at hfound <;> simp_all

theorem allFound_mono (hr : allFound eq others entries = some r) : allFound eq' others entries = some r := by
  induction entries with
  | nil => exact hr
  | cons x rest ih =>
    refine bind_mono hr (lookupBy_mono h) fun {found} hfound => ?_
    cases found with
    | none => exact hfound
    | some v =>
      refine bind_mono hfound h fun {same} hsame => ?_
      split at hsame <;> simp_all

theorem entriesEqual_mono
    (hr : entriesEqual eq entries others = some r) : entriesEqual eq' entries others = some r := by
  unfold entriesEqual at hr ⊢
  split at hr
  · rw [if_pos ‹_›]
    exact allFound_mono h hr
  · rwa [if_neg ‹_›]

omit h

/-- What is found within some levels is found within more. -/
theorem equalWithin_mono (hfuel : fuel ≤ fuel') (hr : w.equalWithin fuel a b = some r) :
    w.equalWithin fuel' a b = some r := by
  induction fuel generalizing fuel' a b r with
  | zero => cases hr
  | succ fuel ih =>
    obtain ⟨fuel', rfl⟩ : ∃ n, fuel' = n + 1 := ⟨fuel' - 1, by omega⟩
    have hmono : ∀ {a b r}, w.equalWithin fuel a b = some r → w.equalWithin fuel' a b = some r := ih (by omega)
    revert hr
    unfold equalWithin
    split
    · exact id
    · split
      · split
        · exact id
        · split
          · exact id
          · exact allEqual_mono hmono
      · split
        · exact id
        · exact allEqual_mono hmono
      · split
        · exact id
        · exact entriesEqual_mono hmono
      · split
        · exact id
        · split
          · exact entriesEqual_mono hmono
          · exact id
      · exact id

end Levels

section Exact

/-- A value without floating-point numbers: nothing, a truth value, a whole number, a text, or a list, tuple or mapping
of such values that does not go round in circles. The keys of a mapping differ from one another. -/
inductive Exact (w : World) : Value → Prop where
  | null : Exact w .null
  | bool (b : Bool) : Exact w (.bool b)
  | int (i : Int) : Exact w (.int i)
  | str (s : String) : Exact w (.str s)
  | list {r items} (h : w.lists[r]? = some items) (hitems : ∀ v ∈ items, Exact w v) : Exact w (.list r)
  | tuple {r items} (h : w.tuples[r]? = some items) (hitems : ∀ v ∈ items, Exact w v) : Exact w (.tuple r)
  | dict {r entries} (h : w.dicts[r]? = some entries) (hkeys : ∀ e ∈ entries, Exact w e.1)
      (hvalues : ∀ e ∈ entries, Exact w e.2) (hdiffer : entries.Pairwise fun x y => w.equal x.1 y.1 = .ok false) :
      Exact w (.dict r)

variable {a b : Value} {n fuel : Nat} {r : Ref}

theorem Exact.isData (h : w.Exact a) : w.IsData a := by
  induction h with
  | null | bool | int | str => exact .atom rfl
  | list h _ ih => exact .holds h ih
  | tuple h _ ih => exact .holds h ih
  | @dict r entries h _ _ _ ihkeys ihvalues =>
    have hcontents : w.contents? (.dict r) = some (entries.map Prod.fst ++ entries.map Prod.snd) :=
      map_eq_some_iff.2 ⟨entries, h, rfl⟩
    refine .holds hcontents fun x hx => ?_
    rcases mem_append.1 hx with hx | hx <;> obtain ⟨e, he, rfl⟩ := mem_map.1 hx
    · exact ihkeys e he
    · exact ihvalues e he

/-- A value without floating-point numbers, of at most the given number of levels. -/
def ExactWithin (w : World) (n : Nat) (v : Value) : Prop := w.Exact v ∧ w.Nested n v

theorem ExactWithin.list (h : w.ExactWithin n (.list r)) : 0 < n ∧ ∀ x ∈ w.list r, w.ExactWithin (n - 1) x := by
  obtain ⟨m, rfl, hnested⟩ := list_of_nested h.2
  cases h.1 with
  | list hr hitems =>
    refine ⟨by omega, fun x hx => ⟨hitems x ?_, hnested x hx⟩⟩
    rwa [World.list, hr] at hx

theorem ExactWithin.tuple (h : w.ExactWithin n (.tuple r)) : 0 < n ∧ ∀ x ∈ w.tuple r, w.ExactWithin (n - 1) x := by
  obtain ⟨m, rfl, hnested⟩ := tuple_of_nested h.2
  cases h.1 with
  | tuple hr hitems =>
    refine ⟨by omega, fun x hx => ⟨hitems x ?_, hnested x hx⟩⟩
    rwa [World.tuple, hr] at hx

theorem ExactWithin.dict (h : w.ExactWithin n (.dict r)) : 0 < n ∧ EntriesIn (w.ExactWithin (n - 1)) (w.dict r) := by
  obtain ⟨m, rfl, hnested⟩ := dict_of_nested h.2
  cases h.1 with
  | dict hr hkeys hvalues =>
    refine ⟨by omega, fun x hx => ?_⟩
    have hx' := hx
    rw [World.dict, hr] at hx'
    exact ⟨⟨hkeys x hx', (hnested x hx).1⟩, ⟨hvalues x hx', (hnested x hx).2⟩⟩

theorem equal_eq_ok_iff {found : Bool} : w.equal a b = .ok found ↔ w.equalWithin w.depth a b = some found := by
  unfold World.equal
  split <;> simp_all

theorem Exact.keysDiffer (h : w.Exact (.dict r)) (heq : Equates (w.ExactWithin n) (w.equalWithin fuel))
    (hentries : EntriesIn (w.ExactWithin n) (w.dict r)) : KeysDiffer (w.equalWithin fuel) (w.dict r) := by
  cases h with
  | @dict _ entries hr hkeys hvalues hdiffer =>
    have hdict : w.dict r = entries := by simp [World.dict, hr]
    rw [hdict] at hentries ⊢
    refine hdiffer.imp_of_mem fun {x y} hx hy hxy => ?_
    obtain ⟨found, hfound⟩ := heq.total (hentries x hx).1 (hentries y hy).1
    have hdepth := equal_eq_ok_iff.1 hxy
    -- more levels than either way needs give both answers
    have hmax := equalWithin_mono (Nat.le_max_left fuel w.depth) hfound
    rw [equalWithin_mono (Nat.le_max_right fuel w.depth) hdepth] at hmax
    rw [hfound, hmax]

theorem Exact.number? (h : w.Exact a) {m : Number} (hm : a.number? = some m) : ∃ i, m = .int i := by
  cases h <;> cases hm <;> exact ⟨_, rfl⟩

/-- How two values are equal when `eq` says which of the values in them are. -/
inductive Agree (w : World) (eq : Value → Value → Option Bool) : Value → Value → Prop where
  | null : Agree w eq .null .null
  | number {a b i} (ha : a.number? = some (.int i)) (hb : b.number? = some (.int i)) : Agree w eq a b
  | str (s : String) : Agree w eq (.str s) (.str s)
  | list {r s} (h : List.Forall₂ (fun a b => eq a b = some true) (w.list r) (w.list s)) : Agree w eq (.list r) (.list s)
  | tuple {r s} (h : List.Forall₂ (fun a b => eq a b = some true) (w.tuple r) (w.tuple s)) :
      Agree w eq (.tuple r) (.tuple s)
  | dict {r s} (hlength : (w.dict r).length = (w.dict s).length) (h : ∀ x ∈ w.dict r, ∃ y ∈ w.dict s, Matches eq x y) :
      Agree w eq (.dict r) (.dict s)

/-- The values in those of at most the given number of levels are compared by an equivalence relation. -/
def EquatesBelow (w : World) (n : Nat) (eq : Value → Value → Option Bool) : Prop :=
  0 < n → Equates (w.ExactWithin (n - 1)) eq

theorem EquatesBelow.agree_refl (h : w.EquatesBelow n eq) (ha : w.ExactWithin n a) : Agree w eq a a := by
  cases ha.1 with
  | null => exact .null
  | bool b => exact .number rfl rfl
  | int i => exact .number rfl rfl
  | str s => exact .str s
  | list => exact .list (forall₂_same.2 fun x hx => (h ha.list.1).refl (ha.list.2 x hx))
  | tuple => exact .tuple (forall₂_same.2 fun x hx => (h ha.tuple.1).refl (ha.tuple.2 x hx))
  | dict =>
    obtain ⟨hn, hentries⟩ := ha.dict
    exact .dict rfl fun x hx => ⟨x, hx, (h hn).refl (hentries x hx).1, (h hn).refl (hentries x hx).2⟩

theorem EquatesBelow.equalWithin_iff (h : w.EquatesBelow n (w.equalWithin fuel)) (ha : w.ExactWithin n a)
    (hb : w.ExactWithin n b) : w.equalWithin (fuel + 1) a b = some true ↔ Agree w (w.equalWithin fuel) a b := by
  constructor
  · unfold equalWithin
    split
    · rename_i m m' hm hm'
      obtain ⟨i, rfl⟩ := ha.1.number? hm
      obtain ⟨j, rfl⟩ := hb.1.number? hm'
      intro hr
      obtain rfl : i = j := by simpa [Number.equal, Number.compare?] using hr
      exact .number hm hm'
    · split
      · split
        · rename_i hrs
          exact fun _ => hrs ▸ h.agree_refl ha
        · split
          · rintro ⟨⟩
          · rw [(h ha.list.1).allEqual_iff ha.list.2 hb.list.2]
            exact .list
      · split
        · rename_i hrs
          exact fun _ => hrs ▸ h.agree_refl ha
        · rw [(h ha.tuple.1).allEqual_iff ha.tuple.2 hb.tuple.2]
          exact .tuple
      · split
        · rename_i hrs
          exact fun _ => hrs ▸ h.agree_refl ha
        · have heq := h ha.dict.1
          rw [heq.entriesEqual_iff ha.dict.2 hb.dict.2 (hb.1.keysDiffer heq hb.dict.2)]
          exact fun hfound => .dict hfound.1 hfound.2
      · cases ha.1
      · intro hr
        obtain rfl : a = b := by simpa using hr
        exact h.agree_refl ha
  · intro hagree
    cases hagree with
    | null => rfl
    | number hi hi' => simp [equalWithin, hi, hi', Number.equal, Number.compare?]
    | str s => simp [equalWithin, Value.number?]
    | list hitems =>
      have hequal := (h ha.list.1).allEqual_iff ha.list.2 hb.list.2
      simp [equalWithin, Value.number?, hitems.length_eq, hequal.2 hitems]
    | tuple hitems =>
      have hequal := (h ha.tuple.1).allEqual_iff ha.tuple.2 hb.tuple.2
      simp [equalWithin, Value.number?, hequal.2 hitems]
    | dict hlength hfound =>
      have heq := h ha.dict.1
      have hequal := heq.entriesEqual_iff ha.dict.2 hb.dict.2 (hb.1.keysDiffer heq hb.dict.2)
      simp [equalWithin, Value.number?, hequal.2 ⟨hlength, hfound⟩]

theorem EquatesBelow.agree_symm (h : w.EquatesBelow n (w.equalWithin fuel)) (ha : w.ExactWithin n a)
    (hb : w.ExactWithin n b) (hab : Agree w (w.equalWithin fuel) a b) : Agree w (w.equalWithin fuel) b a := by
  cases hab with
  | null => exact .null
  | number hi hi' => exact .number hi' hi
  | str s => exact .str s
  | list hitems => exact .list ((h ha.list.1).forall₂_symm ha.list.2 hb.list.2 hitems)
  | tuple hitems => exact .tuple ((h ha.tuple.1).forall₂_symm ha.tuple.2 hb.tuple.2 hitems)
  | dict hlength hfound =>
    have heq := h ha.dict.1
    have hxs := ha.dict.2
    have hys := hb.dict.2
    refine .dict hlength.symm fun y hy => ?_
    obtain ⟨x, hx, hkey, hvalue⟩ := heq.exists_matches hxs hys (ha.1.keysDiffer heq hxs) hlength hfound hy
    exact ⟨x, hx, heq.symm (hxs x hx).1 (hys y hy).1 hkey, heq.symm (hxs x hx).2 (hys y hy).2 hvalue⟩

theorem EquatesBelow.agree_trans {c : Value} (h : w.EquatesBelow n eq) (ha : w.ExactWithin n a)
    (hb : w.ExactWithin n b) (hc : w.ExactWithin n c) (hab : Agree w eq a b) (hbc : Agree w eq b c) :
    Agree w eq a c := by
  cases hab with
  | null => exact hbc
  | number hi hi' =>
    cases hbc with
    | number hj hj' =>
      rw [hi'] at hj
      cases hj
      exact .number hi hj'
    | _ => cases hi'
  | str s => exact hbc
  | list hitems =>
    cases hbc with
    | number hj _ => cases hj
    | list hitems' => exact .list ((h ha.list.1).forall₂_trans ha.list.2 hb.list.2 hc.list.2 hitems hitems')
  | tuple hitems =>
    cases hbc with
    | number hj _ => cases hj
    | tuple hitems' => exact .tuple ((h ha.tuple.1).forall₂_trans ha.tuple.2 hb.tuple.2 hc.tuple.2 hitems hitems')
  | dict hlength hfound =>
    cases hbc with
    | number hj _ => cases hj
    | dict hlength' hfound' =>
      obtain ⟨hn, hxs⟩ := ha.dict
      refine .dict (hlength.trans hlength') fun x hx => ?_
      obtain ⟨y, hy, hxy⟩ := hfound x hx
      obtain ⟨z, hz, hyz⟩ := hfound' y hy
      have hys := hb.dict.2 y hy
      have hzs := hc.dict.2 z hz
      have hkeys := (h hn).trans (hxs x hx).1 hys.1 hzs.1 hxy.1 hyz.1
      exact ⟨z, hz, hkeys, (h hn).trans (hxs x hx).2 hys.2 hzs.2 hxy.2 hyz.2⟩

theorem equates_exactWithin (hn : n < fuel) : Equates (w.ExactWithin n) (w.equalWithin fuel) := by
  induction fuel generalizing n with
  | zero => omega
  | succ fuel ih =>
    have hbelow : w.EquatesBelow n (w.equalWithin fuel) := fun _ => ih (by omega)
    refine ⟨fun ha hb => ?_, fun ha => ?_, fun ha hb => ?_, fun ha hb hc => ?_⟩
    · exact isSome_iff_exists.1 (equalWithin_isSome_of_nested ha.2 hb.2 hn)
    · rw [hbelow.equalWithin_iff ha ha]
      exact hbelow.agree_refl ha
    · rw [hbelow.equalWithin_iff ha hb, hbelow.equalWithin_iff hb ha]
      exact hbelow.agree_symm ha hb
    · rw [hbelow.equalWithin_iff ha hb, hbelow.equalWithin_iff hb hc, hbelow.equalWithin_iff ha hc]
      exact hbelow.agree_trans ha hb hc

/-- Equality is an equivalence relation on the values without floating-point numbers. -/
theorem equates_exact (w : World) : Equates w.Exact (w.equalWithin w.depth) := by
  have hwithin : ∀ {v}, w.Exact v → w.ExactWithin w.size v := fun h => ⟨h, h.isData.nested⟩
  have heq := equates_exactWithin (w := w) w.size_lt_depth
  exact ⟨fun ha hb => heq.total (hwithin ha) (hwithin hb), fun ha => heq.refl (hwithin ha),
    fun ha hb => heq.symm (hwithin ha) (hwithin hb),
    fun ha hb hc => heq.trans (hwithin ha) (hwithin hb) (hwithin hc)⟩

end Exact

end NullSafe.World
