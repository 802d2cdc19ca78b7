import StatVars.Json.Basic
import StatVars.Text.Blank

/-!
# Described values

A described value pairs a scalar with a text that explains it. It is written as a pair
`[value, "text"]` or as a record of the fields `value` and `description`. A pair of two strings is a
plain list.
-/

namespace StatVars.Json

/-- The scalar of a described value. -/
def described? : Json → Option Json
  | .arr [v, .str _] =>
    match v with
    | .str _ => none
    | v => if v.isScalar then some v else none
  | .obj fields =>
    if fields.length == 2 then
      match Table.get? fields "value", Table.get? fields "description" with
      | some v, some (.str _) => if v.isScalar then some v else none
      | _, _ => none
    else none
  | _ => none

def isDescribed (v : Json) : Bool :=
  v.described?.isSome

/-- A described value with another one in the place of its scalar. -/
def setDescribed (v w : Json) : Json :=
  match v with
  | .arr items => .arr (items.set 0 w)
  | .obj fields => .obj (Table.insert fields "value" w)
  | v => v

/-- The number that the value is or that its text writes, if it is finite. -/
def asNumber? : Json → Option Finite
  | .num n => n.toBinary64.toFinite?
  | .str s => (Binary64.parse? (Text.trim s.toList)).bind Binary64.toFinite?
  | _ => none

end StatVars.Json
