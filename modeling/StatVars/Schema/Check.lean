import StatVars.Path.Access
import StatVars.Path.Format
import StatVars.Schema.Basic

/-!
# What a schema forbids

Edits of the structure of a document are checked against its schema before they are made.
-/

namespace StatVars

/-- Why an edit is refused. -/
inductive Violation
  | notFound (path : String)
  | primitiveParent (path : String)
  | indexOutOfBounds (path : String) (index length : Nat)
  | notAnIndex (key : String)
  | closedObject (path key : String)
  | closedArray (path : String)
  | maxLength (path : String) (max : Nat)
  | required (path key : String)
  | root
  | typeMismatch (path detail : String)
deriving DecidableEq

namespace Violation

def quote (s : String) : String :=
  Text.quoted s.toList

def message : Violation → String
  | notFound path => "path " ++ quote path ++ " does not exist"
  | primitiveParent path => quote path ++ " is a primitive value and has no children"
  | indexOutOfBounds path index length =>
    s!"index {index} is out of bounds for " ++ quote path ++ s!" of length {length}"
  | notAnIndex key => quote key ++ " is not an array index"
  | closedObject path key => "object " ++ quote path ++ " does not accept new field " ++ quote key
  | closedArray path => "array " ++ quote path ++ " does not accept inserts or deletes"
  | maxLength path max => "array " ++ quote path ++ s!" is limited to {max} elements"
  | required path key => "field " ++ quote key ++ " of " ++ quote path ++ " is required"
  | root => "cannot delete the root"
  | typeMismatch path detail => quote path ++ ": " ++ detail

end Violation

namespace Schema

/-- Checks that an item may be put at a place of an array with so many items. -/
def checkItem (schema : Option Schema) (parent : Path) (place length : Nat) :
    Except Violation Unit :=
  let inBounds : Except Violation Unit :=
    if length < place then .error (.indexOutOfBounds parent.text place length) else .ok ()
  match schema with
  | some (array _ rules) =>
    if rules.extensible then
      match rules.maxLen with
      | some max => if max ≤ length then .error (.maxLength parent.text max) else inBounds
      | none => inBounds
    else .error (.closedArray parent.text)
  | _ => inBounds

/-- Checks that there may be a field of this name among the fields of an object. -/
def checkField (schema : Option Schema) (parent : Path) (k : String)
    (fields : List (String × Json)) : Except Violation Unit :=
  if Table.contains fields k then .ok ()
  else
    match schema with
    | some (object _ rules) =>
      if rules.extensible then .ok () else .error (.closedObject parent.text k)
    | _ => .ok ()

/-- Checks that a member may be put into the container at `parent`. -/
def checkInsert (schema : Schema) (data : Json) (parent : Path) (s : Step) :
    Except Violation Unit :=
  match data.get? parent with
  | none => .error (.notFound parent.text)
  | some (.obj fields) => checkField (schema.at? parent) parent s.asKey fields
  | some (.arr items) =>
    match s.asIndex? with
    | none => .error (.notAnIndex s.asKey)
    | some place => checkItem (schema.at? parent) parent place items.length
  | some _ => .error (.primitiveParent parent.text)

/-- Checks the steps behind the first missing one, which `before` leads to: the arrays that are made
for them are empty. -/
def checkMissing (before : Path) : Path → Except Violation Unit
  | [] => .ok ()
  | s :: p =>
    match s with
    | .index place =>
      if place = 0 then checkMissing (before ++ [s]) p
      else .error (.indexOutOfBounds before.text place 0)
    | .key _ => checkMissing (before ++ [s]) p

/-- Checks that there may be a value at the path. What is there may always be replaced. -/
def checkSet (schema : Schema) (data : Json) (p : Path) : Except Violation Unit :=
  let resolved := p.take (data.resolvedSteps p)
  match p.drop (data.resolvedSteps p) with
  | [] => .ok ()
  | s :: deeper => do
    checkInsert schema data resolved s
    checkMissing (resolved ++ [s]) deeper

/-- Checks that what is at the path may be removed. -/
def checkDelete (schema : Schema) (data : Json) (p : Path) : Except Violation Unit :=
  match p.splitLast? with
  | none => .error .root
  | some (parent, last) =>
    if data.resolves p then
      match data.get? parent, schema.at? parent with
      | some (.obj _), some (object _ rules) =>
        if rules.required.contains last.asKey || !rules.extensible then
          .error (.required parent.text last.asKey)
        else .ok ()
      | some (.arr _), some (array _ rules) =>
        if rules.extensible then .ok () else .error (.closedArray parent.text)
      | _, _ => .ok ()
    else .error (.notFound p.text)

end Schema

end StatVars
