import StatVars.Json.Record
import StatVars.Schema.Infer

/-!
# Schemas in JSON

A schema is written as a record with the field `type`, which says what other fields there are.
Fields that hold nothing are left out. A schema that is read may be an array of its type and its
fields in order.
-/

namespace StatVars

namespace ScalarKind

def name : ScalarKind → String
  | string => "string"
  | number => "number"
  | boolean => "boolean"
  | null => "null"
  | any => "any"

def ofName? (s : String) : Option ScalarKind :=
  [string, number, boolean, null, any].find? fun k => k.name = s

end ScalarKind

namespace Schema

/-- What a schema is one of. -/
inductive Shape
  | object
  | array
  | scalar
deriving DecidableEq

namespace Shape

def name : Shape → String
  | object => "object"
  | array => "array"
  | scalar => "primitive"

def all : List Shape :=
  [object, array, scalar]

def fieldNames : Shape → List String
  | object => ["properties", "extensible", "recursive_extensible", "required", "template"]
  | array => ["element", "extensible", "recursive_extensible", "max_len", "template"]
  | scalar => ["kind"]

/-- The shape that a value names. Inside another schema it may be named by its number. -/
def ofJson? (nested : Bool) : Json → Option Shape
  | .str s => all.find? fun shape => shape.name = s
  | .num (.int n _) => if nested && 0 ≤ n then all[n.toNat]? else none
  | _ => none

end Shape

mutual

def toJson : Schema → Json
  | object ps rules =>
    .obj <|
      [("type", .str Shape.object.name), ("properties", .obj (propertiesToJson ps)),
        ("extensible", .bool rules.extensible),
        ("recursive_extensible", .bool rules.recursive)] ++
      (if rules.required.isEmpty then []
        else [("required", Json.arr (rules.required.map .str))]) ++
      (rules.template.map fun v => ("template", v)).toList
  | array e rules =>
    .obj <|
      ("type", .str Shape.array.name) :: elementToJson e ++
      [("extensible", .bool rules.extensible),
        ("recursive_extensible", .bool rules.recursive)] ++
      (rules.maxLen.map fun n => ("max_len", Json.ofNat n)).toList ++
      (rules.template.map fun v => ("template", v)).toList
  | scalar kind => .obj [("type", .str Shape.scalar.name), ("kind", .str kind.name)]

def propertiesToJson : List (String × Schema) → List (String × Json)
  | [] => []
  | (k, p) :: ps => (k, toJson p) :: propertiesToJson ps

def elementToJson : Option Schema → List (String × Json)
  | some e => [("element", toJson e)]
  | none => []

end

def requiredFlag? (fields : List (String × Json)) (name : String) : Option Bool :=
  (Table.get? fields name).bind Json.asBool?

/-- A field that is a truth value or missing. -/
def optionalFlag? (fields : List (String × Json)) (name : String) : Option Bool :=
  match Table.get? fields name with
  | none => some false
  | some v => v.asBool?

/-- The required fields of an object, each of them once. -/
def requiredNames? (fields : List (String × Json)) : Option (List String) :=
  match Table.get? fields "required" with
  | none => some []
  | some v => do
    let names ← (← v.asArr?).mapM Json.asStr?
    return names.foldl addMember []

/-- The template in a field that may be missing or `null`. -/
def templateField (fields : List (String × Json)) : Option Json :=
  (Json.orNull? (Table.get? fields "template")).map Json.mergeRepeated

/-- The greatest number of items, in a field that may be missing or `null`. -/
def maxLenField? (fields : List (String × Json)) : Option (Option Nat) :=
  match Json.orNull? (Table.get? fields "max_len") with
  | none => some none
  | some v => v.asNat?.map some

/-- The kind of a scalar: its name, or an object that holds nothing under its name. -/
def kindField? (fields : List (String × Json)) : Option ScalarKind := do
  match ← Table.get? fields "kind" with
  | .obj [(name, .obj [])] => ScalarKind.ofName? name
  | v => ScalarKind.ofName? (← Json.choiceName? v)

/-- The shape and the fields of a schema, none of which is there twice. -/
def parts? (nested : Bool) : Json → Option (Shape × List (String × Json))
  | .obj fields => do
    let shape ← Shape.ofJson? nested (← Table.get? fields "type")
    let known := fields.filter fun f => f.1 = "type" || f.1 ∈ shape.fieldNames
    if Json.namesDiffer known then some (shape, known) else none
  | .arr (name :: items) => do
    let shape ← Shape.ofJson? nested name
    if items.length ≤ shape.fieldNames.length then some (shape, shape.fieldNames.zip items)
    else none
  | _ => none

/-- The schema that a value with its repeated fields stands for. `fuel` exceeds how deep the value
nests. -/
def ofParts? : (fuel : Nat) → (nested : Bool) → Json → Option Schema
  | 0, _, _ => none
  | fuel + 1, nested, v => do
    let (shape, fields) ← parts? nested v
    match shape with
    | .object =>
      let properties ← (← (← Table.get? fields "properties").asObj?).mapM fun (k, p) =>
        (ofParts? fuel true p).map fun schema => (k, schema)
      let rules : ObjectRules :=
        { extensible := ← requiredFlag? fields "extensible"
          recursive := ← optionalFlag? fields "recursive_extensible"
          required := ← requiredNames? fields
          template := templateField fields }
      return object (Table.ofEntries properties) rules
    | .array =>
      let element ← match Json.orNull? (Table.get? fields "element") with
        | none => some none
        | some e => (ofParts? fuel true e).map some
      let rules : ArrayRules :=
        { extensible := ← requiredFlag? fields "extensible"
          recursive := ← optionalFlag? fields "recursive_extensible"
          maxLen := ← maxLenField? fields
          template := templateField fields }
      return array element rules
    | .scalar => return scalar (← kindField? fields)

def ofJson? (v : Json) : Option Schema :=
  ofParts? (v.depth + 1) false v

def read? (text : List Char) : Option Schema := do
  ofJson? (← Json.readRaw? text)

end Schema

end StatVars
