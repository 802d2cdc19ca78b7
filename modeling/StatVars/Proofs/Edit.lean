import StatVars.Proofs.Effect

/-!
# Where a change is

`Json.Edited S v p w` says that `w` is `v` after a change at the path `p`. Away from `p` both are
the same, and a member that is new or gone is one that the schema `S` of `v` lets come or go. Main
statement: `Command.Does.edited`, the path that a command reports is one that its change is at.
-/

namespace StatVars

namespace Schema

/-- Whether a schema, if it is one of an object, accepts new fields. -/
def TakesFields (S : Option Schema) : Prop :=
  ∀ ps rules, S = some (object ps rules) → rules.extensible = true

/-- Whether a schema, if it is one of an array, accepts one item more. -/
def TakesItem (S : Option Schema) (length : Nat) : Prop :=
  ∀ e rules, S = some (array e rules) →
    rules.extensible = true ∧ ∀ max, rules.maxLen = some max → length < max

/-- Whether a schema, if it is one of an object, lets a field go. -/
def LosesField (S : Option Schema) (k : String) : Prop :=
  ∀ ps rules, S = some (object ps rules) → rules.extensible = true ∧ k ∉ rules.required

/-- Whether a schema, if it is one of an array, lets an item go. -/
def LosesItem (S : Option Schema) : Prop :=
  ∀ e rules, S = some (array e rules) → rules.extensible = true

theorem takesFields_of_checkField {S : Option Schema} {parent : Path} {k : String}
    {fields : List (String × Json)} (h : checkField S parent k fields = .ok ())
    (hk : Table.get? fields k = none) : TakesFields S := by
  rintro ps rules rfl
  simp only [checkField, Table.contains, hk] at h
  cases hopen : rules.extensible with
  | true => rfl
  | false => simp [hopen] at h

theorem takesItem_of_checkItem {S : Option Schema} {parent : Path} {place length : Nat}
    (h : checkItem S parent place length = .ok ()) : TakesItem S length := by
  rintro e rules rfl
  cases hopen : rules.extensible with
  | false => simp [checkItem, hopen] at h
  | true =>
    refine ⟨rfl, fun max hmax => Nat.lt_of_not_le fun hle => ?_⟩
    simp [checkItem, hopen, hmax, hle] at h

end Schema

open Schema

/-- The value `w` is `v` with a change at the path. -/
inductive Json.Edited : Option Schema → Json → Path → Json → Prop
  | here {S v w} : Edited S v [] w
  | field {S fields s p c d} (hc : Table.get? fields s.asKey = some c)
      (h : Edited (S.bind (·.child? s)) c p d) :
      Edited S (.obj fields) (s :: p) (.obj (Table.insert fields s.asKey d))
  | item {S items s place p c d} (hs : s.asIndex? = some place) (hc : items[place]? = some c)
      (h : Edited (S.bind (·.child? s)) c p d) :
      Edited S (.arr items) (s :: p) (.arr (items.set place d))
  | newField {S fields s p d} (hs : Table.get? fields s.asKey = none) (hS : TakesFields S) :
      Edited S (.obj fields) (s :: p) (.obj (Table.insert fields s.asKey d))
  | newItem {S items s place p d} (hs : s.asIndex? = some place) (hplace : place ≤ items.length)
      (hS : TakesItem S items.length) :
      Edited S (.arr items) (s :: p) (.arr (items.insertIdx place d))
  | noField {S fields s c} (hs : Table.get? fields s.asKey = some c)
      (hS : LosesField S s.asKey) :
      Edited S (.obj fields) [s] (.obj (Table.erase fields s.asKey))
  | noItem {S items s place} (hs : s.asIndex? = some place) (hplace : place < items.length)
      (hS : LosesItem S) :
      Edited S (.arr items) [s] (.arr (items.eraseIdx place))

namespace Json

/-- A change of a part is a change of the whole. -/
theorem Edited.of_replace {S : Option Schema} {v c w v' : Json} {p q : Path}
    (hget : v.get? p = some c) (hreplace : v.replace? p w = some v')
    (h : Edited (S.bind (·.at? p)) c q w) : Edited S v (p ++ q) v' := by
  induction p generalizing S v v' with
  | nil =>
    cases hget
    cases hreplace
    cases S <;> exact h
  | cons s p ih =>
    obtain ⟨d, hd, hget⟩ := Option.bind_eq_some_iff.1 hget
    have hS : S.bind (·.at? (s :: p)) = (S.bind (·.child? s)).bind (·.at? p) := by
      cases S <;> rfl
    rw [hS] at h
    obtain ⟨fields, d', e, rfl, hc, he, rfl⟩ | ⟨items, place, d', e, rfl, hs, hc, he, rfl⟩ :=
      modifyChild?_eq_some hreplace
    · obtain rfl : d' = d := Option.some.inj (hc.symm.trans hd)
      exact .field hc (ih hget he h)
    · obtain rfl : d' = d := by
        simp only [child?, hs, Option.bind_some] at hd
        exact Option.some.inj (hc.symm.trans hd)
      exact .item hs hc (ih hget he h)

theorem Edited.of_overwrite {S : Option Schema} {v c w v' : Json} {p : Path}
    (hget : v.get? p = some c) (hreplace : v.replace? p w = some v') : Edited S v p v' := by
  rw [← List.append_nil p]
  exact .of_replace hget hreplace .here

/-- What is put into a container where nothing was is a new member of it. -/
theorem edited_putChild {S : Option Schema} {schema : Schema} {data c : Json} {parent q : Path}
    {s : Step} (hcheck : schema.checkInsert data parent s = .ok ())
    (hget : data.get? parent = some c) (hS : S = schema.at? parent) (hmissing : c.child? s = none)
    (w : Json) : Edited S c (s :: q) (c.putChild s w).1 := by
  have hadmits := admits_of_checkInsert hcheck hget
  subst hS
  rw [checkInsert, hget] at hcheck
  cases c with
  | obj fields => exact .newField hmissing (takesFields_of_checkField hcheck hmissing)
  | arr items =>
    cases hs : s.asIndex? with
    | none => simp [admits, hs] at hadmits
    | some place =>
      simp only [hs] at hcheck
      simp only [child?, hs, Option.bind_some, List.getElem?_eq_none_iff] at hmissing
      obtain rfl : place = items.length := Nat.le_antisymm (le_of_checkItem hcheck) hmissing
      simp only [putChild, setChild?, hs, Option.bind_eq_bind, Option.bind_some, if_pos]
      rw [← List.insertIdx_length_self]
      exact .newItem hs (Nat.le_refl _) (takesItem_of_checkItem hcheck)
  | _ => cases hcheck

/-- Writing at a path that leads nowhere is a change at that path. -/
theorem edited_create {schema : Schema} {data : Json} {p : Path}
    (hcheck : schema.checkSet data p = .ok ()) (hp : data.get? p = none) (w : Json) :
    Edited (some schema) data p (data.create p w).1 := by
  obtain ⟨c, hc, hmissing⟩ := get?_take_resolvedSteps data p
  cases hrest : p.drop (data.resolvedSteps p) with
  | nil =>
    rw [List.take_of_length_le (List.drop_eq_nil_iff.1 hrest), hp] at hc
    cases hc
  | cons s q =>
    simp only [checkSet, hrest] at hcheck
    cases hinsert : schema.checkInsert data (p.take (data.resolvedSteps p)) s with
    | error e => simp [hinsert, bind, Except.bind] at hcheck
    | ok =>
      have hput : ∃ d, (c.create (s :: q) w).1 = (c.putChild s d).1 := by
        cases q with
        | nil => exact ⟨w, rfl⟩
        | cons next q => exact ⟨_, rfl⟩
      obtain ⟨d, hd⟩ := hput
      have hedit := (create_append hc s q w).1
      rw [hd] at hedit
      rw [← List.take_append_drop (data.resolvedSteps p) p, hrest]
      exact .of_replace hc hedit (edited_putChild hinsert hc rfl (hmissing s q hrest) d)

theorem remove?_eq_some {v v' removed : Json} {p : Path} (h : v.remove? p = some (removed, v')) :
    ∃ parent last c rest, p.splitLast? = some (parent, last) ∧ v.get? parent = some c ∧
      c.removeChild? last = some (removed, rest) ∧ v.replace? parent rest = some v' := by
  obtain ⟨⟨parent, last⟩, hsplit, h⟩ := Option.bind_eq_some_iff.1 h
  obtain ⟨c, hc, h⟩ := Option.bind_eq_some_iff.1 h
  obtain ⟨⟨removed', rest⟩, hremove, h⟩ := Option.bind_eq_some_iff.1 h
  obtain ⟨v'', hreplace, h⟩ := Option.bind_eq_some_iff.1 h
  cases h
  exact ⟨parent, last, c, rest, hsplit, hc, hremove, hreplace⟩

/-- What a schema allows to be removed is a member that it lets go. -/
theorem edited_remove {schema : Schema} {data data' removed : Json} {p : Path}
    (hcheck : schema.checkDelete data p = .ok ()) (h : data.remove? p = some (removed, data')) :
    Edited (some schema) data p data' := by
  obtain ⟨parent, last, c, rest, hsplit, hc, hremove, hreplace⟩ := remove?_eq_some h
  obtain rfl := Path.splitLast?_eq_some hsplit
  refine .of_replace hc hreplace ?_
  simp only [checkDelete, hsplit, hc] at hcheck
  split at hcheck
  · cases c with
    | obj fields =>
      obtain ⟨d, hd, hrest⟩ := Option.map_eq_some_iff.1 hremove
      cases hrest
      refine .noField hd fun ps rules hS => ?_
      simp only [Option.bind_some] at hS
      simp only [hS, ite_eq_right_iff, reduceCtorEq, imp_false, Bool.or_eq_true, not_or,
        Bool.not_eq_true, List.contains_eq_mem, decide_eq_false_iff_not,
        Bool.not_eq_false'] at hcheck
      exact hcheck.symm
    | arr items =>
      obtain ⟨place, hs, hremove⟩ := Option.bind_eq_some_iff.1 hremove
      obtain ⟨d, hd, hrest⟩ := Option.bind_eq_some_iff.1 hremove
      cases hrest
      refine .noItem hs (List.getElem?_eq_some_iff.1 hd).1 fun e rules hS => ?_
      simp only [Option.bind_some] at hS
      simpa [hS] using hcheck
    | _ => cases hremove
  · cases hcheck

end Json

/-- **A reported path covers the change.** -/
theorem Command.Does.edited {c : Config} {vars : Variables} {p : Path} {kind : Command.Kind}
    {args : List Command.Argument} {change : Change} {data : Json}
    (h : Does c vars p kind args change data) :
    Json.Edited (some vars.schema) vars.data change.path data := by
  cases h with
  | lay hp => exact hp ▸ .here
  | create _ _ _ hget hcheck => exact Json.edited_create hcheck hget _
  | null _ _ hget _ _ hdata | write _ _ _ hget _ hdata | writeValue _ _ _ hget _ _ hdata
  | shift _ _ hget _ _ hdata | shiftValue _ _ hget _ _ hdata | merge _ hget _ _ hdata =>
    exact .of_overwrite hget hdata
  | remove _ hcheck hdata => exact Json.edited_remove hcheck hdata
  | @putItem _ _ items place _ item _ _ hget hcheck _ hdata =>
    refine .of_replace hget hdata ?_
    simp only [checkInsert, hget, Step.asIndex?] at hcheck
    exact .newItem rfl (le_of_checkItem hcheck) (takesItem_of_checkItem hcheck)
  | @putField _ _ _ k _ new fields _ _ _ _ hget hcheck _ hdata =>
    refine .of_replace hget hdata ?_
    simp only [checkInsert, hget] at hcheck
    cases hk : Table.get? fields k with
    | none => exact .newField hk (takesFields_of_checkField hcheck hk)
    | some d => exact .field hk .here

end StatVars
