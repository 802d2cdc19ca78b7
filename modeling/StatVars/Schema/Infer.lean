import StatVars.Described
import StatVars.Schema.Basic

/-!
# The schema of a document

The schema is read off the document. An annotation is the field `$meta` of an object, or an item of
an array that has the fields `$arrayMeta` and `$meta`; it sets rules of its container and is no part
of the data. Rules that are not set are taken over from the schema before, if its shape agrees.
-/

namespace StatVars

/-- The field that annotates an object. -/
def metaKey : String :=
  "$meta"

/-- The field that marks an item as the annotation of its array. -/
def arrayMetaKey : String :=
  "$arrayMeta"

namespace Json

/-- Whether an item is the annotation of its array. -/
def isArrayMeta : Json → Bool
  | .obj fields => Table.contains fields arrayMetaKey && Table.contains fields metaKey
  | _ => false

mutual

/-- The value without its annotations. -/
def stripMeta : Json → Json
  | .arr items => .arr (stripItems items)
  | .obj fields => .obj (stripFields fields)
  | v => v

def stripItems : List Json → List Json
  | [] => []
  | v :: vs => if isArrayMeta v then stripItems vs else stripMeta v :: stripItems vs

def stripFields : List (String × Json) → List (String × Json)
  | [] => []
  | (k, v) :: fs => if k = metaKey then stripFields fs else (k, stripMeta v) :: stripFields fs

end

end Json

namespace Schema

/-- The list with `k` behind it unless it is a member. -/
def addMember (l : List String) (k : String) : List String :=
  if l.contains k then l else l ++ [k]

def flag? (settings : List (String × Json)) (name : String) : Option Bool :=
  (Table.get? settings name).bind Json.asBool?

/-- Whether a container is extensible and whether those inside it are, after its annotation. Setting
the second sets the first. -/
def annotatedFlags (settings : List (String × Json)) (extensible recursive : Bool) :
    Bool × Bool :=
  let extensible := (flag? settings "extensible").getD extensible
  match flag? settings "recursiveExtensible" with
  | some flag => (extensible || flag, flag)
  | none => (extensible, recursive)

/-- The required fields in an annotation. -/
def annotatedRequired (settings : List (String × Json)) : List String :=
  (((Table.get? settings "required").bind Json.asArr?).getD []).filterMap Json.asStr?

/-- The rules of an object after its annotation. -/
def annotateObject (settings : List (String × Json)) (rules : ObjectRules) : ObjectRules :=
  let (extensible, recursive) := annotatedFlags settings rules.extensible rules.recursive
  { extensible, recursive
    required := (annotatedRequired settings).foldl addMember rules.required
    template := (Table.get? settings "template").or rules.template }

/-- The rules of an array after its annotation. -/
def annotateArray (settings : List (String × Json)) (rules : ArrayRules) : ArrayRules :=
  let (extensible, recursive) := annotatedFlags settings rules.extensible rules.recursive
  { extensible, recursive
    maxLen := ((Table.get? settings "maxLength").bind Json.asNat?).or rules.maxLen
    template := (Table.get? settings "template").or rules.template }

/-- The annotation among the fields of an object. -/
def objectSettings? (fields : List (String × Json)) : Option (List (String × Json)) :=
  (Table.get? fields metaKey).bind Json.asObj?

/-- The annotation among the items of an array. -/
def arraySettings? (items : List Json) : Option (List (String × Json)) := do
  let item ← items.find? Json.isArrayMeta
  objectSettings? (← item.asObj?)

/-- The rules of an object: those of the schema before or the defaults, then its annotation. A
described value is closed and keeps both of its fields. -/
def objectRules (extensibleByDefault : Bool) (old : Option Schema) (inherited : Bool)
    (fields : List (String × Json)) : ObjectRules :=
  let start : ObjectRules := match old with
    | some (object _ rules) => rules
    | _ => { extensible := extensibleByDefault || inherited, recursive := inherited }
  let annotated := match objectSettings? fields with
    | some settings => annotateObject settings start
    | none => start
  if (Json.obj fields).isDescribed then
    { annotated with
      extensible := false
      required := addMember (addMember annotated.required "value") "description" }
  else annotated

/-- The rules of an array: those of the schema before or the defaults, then its annotation. A
described value is closed. -/
def arrayRules (extensibleByDefault : Bool) (old : Option Schema) (inherited : Bool)
    (items : List Json) : ArrayRules :=
  let start : ArrayRules := match old with
    | some (array _ rules) => rules
    | _ => { extensible := extensibleByDefault || inherited, recursive := inherited }
  let annotated := match arraySettings? items with
    | some settings => annotateArray settings start
    | none => start
  if (Json.arr items).isDescribed then { annotated with extensible := false } else annotated

def properties : Option Schema → List (String × Schema)
  | some (object ps _) => ps
  | _ => []

def element? : Option Schema → Option Schema
  | some (array e _) => e
  | _ => none

mutual

/-- The schema of a value, where `old` is the schema before and `inherited` says whether the
container around it passes on that it is extensible. -/
def infer (extensibleByDefault : Bool) (old : Option Schema) (inherited : Bool) : Json → Schema
  | .obj fields =>
    let rules := objectRules extensibleByDefault old inherited fields
    object (inferFields extensibleByDefault (properties old)
      (rules.extensible && rules.recursive) fields) rules
  | .arr items =>
    let rules := arrayRules extensibleByDefault old inherited items
    array (inferFirst extensibleByDefault (element? old)
      (rules.extensible && rules.recursive) items) rules
  | v => scalar (.ofValue v)

def inferFields (extensibleByDefault : Bool) (old : List (String × Schema)) (inherited : Bool) :
    List (String × Json) → List (String × Schema)
  | [] => []
  | (k, v) :: fs =>
    if k = metaKey then inferFields extensibleByDefault old inherited fs
    else
      (k, infer extensibleByDefault (Table.get? old k) inherited v) ::
        inferFields extensibleByDefault old inherited fs

/-- The schema of the first item that is no annotation. -/
def inferFirst (extensibleByDefault : Bool) (old : Option Schema) (inherited : Bool) :
    List Json → Option Schema
  | [] => none
  | v :: vs =>
    if v.isArrayMeta then inferFirst extensibleByDefault old inherited vs
    else some (infer extensibleByDefault old inherited v)

end

end Schema

end StatVars
