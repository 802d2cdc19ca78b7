import StatVars.Proofs.ClosedLeaves
import StatVars.Proofs.Regular

/-!
# Inferring a schema again

The rules of a container come from its schema before, from the defaults or from the container around
it, and a described value closes its own. All that decides is in the schema that is inferred: it is
taken over from there when the schema is inferred again, whatever the defaults and the container
around it say by then. So a value without annotations that has not changed keeps its schema. Main
statement: `Schema.infer_infer`.
-/

namespace StatVars.Schema

variable {e e' inherited inherited' : Bool} {old : Option Schema} {v : Json} {items : List Json}
  {fields : List (String × Json)} {ps props : List (String × Schema)}

theorem addMember_of_mem {l : List String} {k : String} (h : k ∈ l) : addMember l k = l :=
  if_pos (List.contains_iff_mem.2 h)

/-- An object takes its rules over unless it is a described value that they do not close. -/
theorem objectRules_eq_self {rules : ObjectRules} (h : (Json.obj fields).Avoids metaKey)
    (hclosed : (Json.obj fields).isDescribed →
      (Schema.object ps rules).ClosedOver (.obj fields)) :
    objectRules e (some (.object ps rules)) inherited fields = rules := by
  simp only [objectRules, objectSettings?_of_avoids h]
  split
  · next hleaf =>
    cases hclosed hleaf with
    | record hextensible hvalue hdescription =>
      rw [addMember_of_mem hvalue, addMember_of_mem hdescription, ← hextensible]
  · rfl

theorem arrayRules_eq_self {element : Option Schema} {rules : ArrayRules}
    (h : (Json.arr items).Avoids metaKey)
    (hclosed : (Json.arr items).isDescribed →
      (Schema.array element rules).ClosedOver (.arr items)) :
    arrayRules e (some (.array element rules)) inherited items = rules := by
  simp only [arrayRules, arraySettings?_of_avoids h]
  split
  · next hleaf =>
    cases hclosed hleaf with
    | pair hextensible => rw [← hextensible]
  · rfl

/-- The properties depend on what is inferred for each field. -/
theorem inferFields_congr
    (h : ∀ f ∈ fields, infer e' (Table.get? props f.1) inherited' f.2 =
      infer e (Table.get? ps f.1) inherited f.2) :
    inferFields e' props inherited' fields = inferFields e ps inherited fields := by
  induction fields with
  | nil => rfl
  | cons f fields ih =>
    obtain ⟨k, v⟩ := f
    obtain ⟨hfirst, hrest⟩ := List.forall_mem_cons.1 h
    rw [inferFields, inferFields, ih hrest, hfirst]

/-- **A value without annotations keeps the schema that has been inferred for it.** Nothing of the
schema before that one counts any more, nor do the default and the container around the value. -/
theorem infer_infer (e e' : Bool) (old : Option Schema) (inherited inherited' : Bool)
    (hv : v.Avoids metaKey) (hkeys : v.Regular fun _ => True) :
    infer e' (some (infer e old inherited v)) inherited' v = infer e old inherited v := by
  induction hv generalizing old inherited inherited' with
  | @scalar v hv =>
    cases v with
    | arr | obj => cases hv
    | _ => rfl
  | @arr items h ih =>
    have hitems : (Json.arr items).Avoids metaKey := .arr h
    have hclosed := infer_closedOver e inherited old (v := .arr items)
    rw [infer] at hclosed ⊢
    rw [infer, arrayRules_eq_self hitems hclosed]
    refine congrArg (array · _) ?_
    have hbare := fun item hitem => (h item hitem).not_isArrayMeta
    rw [inferFirst_of_bare hbare, inferFirst_of_bare hbare]
    cases items with
    | nil => rfl
    | cons v items => exact congrArg some (ih v (.head _) _ _ _ (hkeys.items v (.head _)))
  | @obj fields hk h ih =>
    have hfields : (Json.obj fields).Avoids metaKey := .obj hk h
    have hclosed := infer_closedOver e inherited old (v := .obj fields)
    rw [infer] at hclosed ⊢
    rw [infer, objectRules_eq_self hfields hclosed]
    refine congrArg (object · _) (inferFields_congr fun f hf => ?_)
    -- The old property of a field is what was inferred for it, for no other field has its name.
    rw [properties, get?_inferFields hfields, Table.get?_of_mem hkeys.fields.1 hf, Option.map_some]
    exact ih f hf _ _ _ (hkeys.fields.2 f hf)

/-- The limit of the bag is in the schema before, and the pair passes on what the object around it
does. Both stay when neither of the two is there any more. -/
theorem infer_infer_described :
    let v : Json :=
      .obj [("hp", .arr [.ofNat 10, .str "health"]), ("bag", .arr [.obj [("x", .null)]])]
    let bag : Schema := .array (some (.object [("x", .scalar .null)] { required := ["x"] }))
      { maxLen := some 3, template := some (.obj []) }
    let old : Schema := .object [("bag", bag), ("hp", .scalar .number)]
      { extensible := true, recursive := true }
    let S : Schema := .object
      [("hp", .array (some (.scalar .number)) { recursive := true }), ("bag", bag)]
      { extensible := true, recursive := true }
    infer true (some old) false v = S ∧ infer false (some S) false v = S := by
  intro v bag old S
  have hkeys : v.Regular fun _ => True := Json.regular_of_mergeRepeated rfl
  exact ⟨rfl, infer_infer true false (some old) false false (Json.stripMeta_avoids v) hkeys⟩

end StatVars.Schema
