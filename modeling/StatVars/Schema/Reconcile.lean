import StatVars.Path.Access
import StatVars.Schema.Infer

/-!
# The schema after an edit

After an edit only the part of the schema that it can have changed is inferred anew: the field that
the edit is in, up to the first array on the way to it.
-/

namespace StatVars.Schema

/-- The path up to the first array that it leads into. -/
def beforeArray (data : Json) : Path → Path
  | [] => []
  | s :: p =>
    match data with
    | .arr _ => []
    | _ =>
      match data.child? s with
      | some c => s :: beforeArray c p
      | none => s :: p

/-- The longest part of the path that ends with a field of an object in the schema: the path to the
object and the step to the field. -/
def anchor? (schema : Schema) : Path → Option (Path × Step)
  | [] => none
  | s :: p =>
    match (schema.child? s).bind fun c => anchor? c p with
    | some (q, last) => some (s :: q, last)
    | none =>
      match schema with
      | object _ _ => some ([], s)
      | _ => none

/-- The schema of an object with its property `k` set, or removed if there is nothing to set. -/
def setProperty (k : String) (property : Option Schema) : Schema → Option Schema
  | object ps rules =>
    match property with
    | some c => some (object (Table.insert ps k c) rules)
    | none => some (object (Table.erase ps k) rules)
  | _ => none

/-- The schema and the data after an edit at `changed`. Annotations in what is inferred anew take
effect and are removed from the data. -/
def reconcile (extensibleByDefault : Bool) (schema : Schema) (data : Json) (changed : Path) :
    Schema × Json :=
  match anchor? schema (beforeArray data changed) with
  | none => (infer extensibleByDefault (some schema) false data, data.stripMeta)
  | some (parent, last) =>
    let inherited := (schema.at? parent).any passesOn
    let target := parent ++ [last]
    let property := (data.get? target).map
      (infer extensibleByDefault (schema.at? target) inherited)
    ((schema.modify? (setProperty last.asKey property) parent).getD schema,
      (data.modify? (fun v => some v.stripMeta) target).getD data)

end StatVars.Schema
