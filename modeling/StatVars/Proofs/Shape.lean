import StatVars.Schema.Infer

/-!
# Schemas that fit a value

A schema fits a value that has its shape: an object has the properties in their order, an array has
the element if there is a first item, and a scalar has the kind. Main statement:
`Schema.infer_fits`, the schema that is read off a value fits it once its annotations are removed.
-/

namespace StatVars

namespace Schema

mutual

/-- A schema has the shape of a value. -/
inductive Fits : Schema → Json → Prop
  | object {ps rules fields} (h : FitsFields ps fields) : Fits (.object ps rules) (.obj fields)
  | array {e rules items} (h : FitsFirst e items) : Fits (.array e rules) (.arr items)
  | scalar {v} (hv : v.isScalar) : Fits (.scalar (.ofValue v)) v

/-- Properties have the names and the shapes of fields, one after the other. -/
inductive FitsFields : List (String × Schema) → List (String × Json) → Prop
  | nil : FitsFields [] []
  | cons {k S v ps fields} (h : Fits S v) (hrest : FitsFields ps fields) :
      FitsFields ((k, S) :: ps) ((k, v) :: fields)

/-- The schema of the items of an array has the shape of the first one. -/
inductive FitsFirst : Option Schema → List Json → Prop
  | nil : FitsFirst none []
  | cons {S v items} (h : Fits S v) : FitsFirst (some S) (v :: items)

end

mutual

/-- **The schema of a value fits it.** -/
theorem infer_fits (e : Bool) (old : Option Schema) (inherited : Bool) (v : Json) :
    (infer e old inherited v).Fits v.stripMeta := by
  cases v with
  | obj fields => exact .object (inferFields_fits e _ _ fields)
  | arr items => exact .array (inferFirst_fits e _ _ items)
  | _ => exact .scalar rfl

theorem inferFields_fits (e : Bool) (old : List (String × Schema)) (inherited : Bool)
    (fields : List (String × Json)) :
    FitsFields (inferFields e old inherited fields) (Json.stripFields fields) := by
  match fields with
  | [] => exact .nil
  | (k, v) :: fields =>
    simp only [inferFields, Json.stripFields]
    split
    · exact inferFields_fits e old inherited fields
    · exact .cons (infer_fits e _ inherited v) (inferFields_fits e old inherited fields)

theorem inferFirst_fits (e : Bool) (old : Option Schema) (inherited : Bool) (items : List Json) :
    FitsFirst (inferFirst e old inherited items) (Json.stripItems items) := by
  match items with
  | [] => exact .nil
  | v :: items =>
    simp only [inferFirst, Json.stripItems]
    split
    · exact inferFirst_fits e old inherited items
    · exact .cons (infer_fits e old inherited v)

end

/-- A name is one of a property just if it is one of a field. -/
theorem FitsFields.get? {ps : List (String × Schema)} {fields : List (String × Json)}
    (h : FitsFields ps fields) (k : String) :
    (Table.get? ps k = none ∧ Table.get? fields k = none) ∨
      ∃ S v, Table.get? ps k = some S ∧ Table.get? fields k = some v ∧ S.Fits v := by
  induction fields generalizing ps with
  | nil =>
    cases h
    exact .inl ⟨rfl, rfl⟩
  | cons f fields ih =>
    cases h with
    | @cons k' S v ps _ hv hrest =>
      simp only [Table.get?_cons]
      split
      · exact .inr ⟨S, v, rfl, rfl, hv⟩
      · exact ih hrest

theorem FitsFields.property {ps : List (String × Schema)} {fields : List (String × Json)}
    {k : String} {v : Json} (h : FitsFields ps fields) (hv : Table.get? fields k = some v) :
    ∃ S, Table.get? ps k = some S ∧ S.Fits v := by
  rcases h.get? k with ⟨-, hnone⟩ | ⟨S, v', hS, hv', hfits⟩
  · rw [hnone] at hv
    cases hv
  · obtain rfl := Option.some.inj (hv'.symm.trans hv)
    exact ⟨S, hS, hfits⟩

theorem FitsFields.no_property {ps : List (String × Schema)} {fields : List (String × Json)}
    {k : String} (h : FitsFields ps fields) (hv : Table.get? fields k = none) :
    Table.get? ps k = none := by
  rcases h.get? k with ⟨hS, -⟩ | ⟨S, v, -, hv', -⟩
  · exact hS
  · rw [hv] at hv'
    cases hv'

theorem FitsFields.insert {ps : List (String × Schema)} {fields : List (String × Json)}
    (h : FitsFields ps fields) {S : Schema} {v : Json} (hv : S.Fits v) (k : String) :
    FitsFields (Table.insert ps k S) (Table.insert fields k v) := by
  induction fields generalizing ps with
  | nil =>
    cases h
    exact .cons hv .nil
  | cons f fields ih =>
    cases h with
    | cons hw hrest =>
      simp only [Table.insert]
      split
      · exact .cons hv hrest
      · exact .cons hw (ih hrest)

theorem FitsFields.erase {ps : List (String × Schema)} {fields : List (String × Json)}
    (h : FitsFields ps fields) (k : String) :
    FitsFields (Table.erase ps k) (Table.erase fields k) := by
  induction fields generalizing ps with
  | nil =>
    cases h
    exact .nil
  | cons f fields ih =>
    cases h with
    | @cons k' S v ps _ hv hrest =>
      simp only [Table.erase, Table.keep, List.filter_cons]
      split
      · exact .cons hv (ih hrest)
      · exact ih hrest

end Schema

end StatVars
