import StatVars.Json.Basic

/-!
# Templates

New values are completed from a template. What the value has wins over what the template has.
-/

namespace StatVars.Json

mutual

/-- The value laid over another one: the fields of objects are merged, and anything else replaces
what is below it. -/
def layOver (below : Json) : Json → Json
  | .obj fields =>
    match below with
    | .obj base => .obj (layFieldsOver base fields)
    | _ => .obj fields
  | v => v

/-- The fields laid one after the other over those of another object. -/
def layFieldsOver (base : List (String × Json)) : List (String × Json) → List (String × Json)
  | [] => base
  | (k, v) :: fields =>
    let w := match Table.get? base k with
      | some below => layOver below v
      | none => v
    layFieldsOver (Table.insert base k w) fields

end

/-- The value completed from a template. An object takes the missing fields of an object, an array
takes the items of an array behind its own, and a scalar is put before the items of an array. -/
def complete (v template : Json) : Json :=
  match v, template with
  | .obj fields, .obj base => .obj (layFieldsOver base fields)
  | .arr items, .arr more => .arr (items ++ more)
  | .obj fields, .arr _ => .obj fields
  | v, .arr more => .arr (v :: more)
  | v, _ => v

/-- The item that a new one at this place is completed from: the one before it, or the first one. -/
def neighbour? (siblings : List Json) (place : Nat) : Option Json :=
  if 0 < place then siblings[place - 1]? else siblings.head?

/-- A new item of an array, completed from the declared template or, if there is none, from its
neighbour if both are objects. -/
def completeItem (v : Json) (declared : Option Json) (siblings : List Json) (place : Nat) : Json :=
  match declared with
  | some template => complete v template
  | none =>
    match v, neighbour? siblings place with
    | .obj fields, some (.obj base) => .obj (layFieldsOver base fields)
    | v, _ => v

end StatVars.Json
