import StatVars.Json.Basic
import StatVars.Path.Basic

/-!
# Schemas

A schema gives the shape of a document and the rules of its containers: whether they accept new
members, which fields have to stay, how many items there may be, and the template of new members.
All items of an array share one schema.
-/

namespace StatVars

inductive ScalarKind
  | string
  | number
  | boolean
  | null
  | any
deriving DecidableEq

structure ObjectRules where
  /-- Whether there may be new fields. -/
  extensible : Bool := false
  /-- Whether containers inside are extensible too. -/
  recursive : Bool := false
  /-- The fields that have to stay. -/
  required : List String := []
  template : Option Json := none
deriving DecidableEq

structure ArrayRules where
  extensible : Bool := false
  recursive : Bool := false
  maxLen : Option Nat := none
  template : Option Json := none
deriving DecidableEq

/-- The shape of a value and the rules of its containers. -/
inductive Schema
  | object (properties : List (String × Schema)) (rules : ObjectRules)
  | array (element : Option Schema) (rules : ArrayRules)
  | scalar (kind : ScalarKind)

namespace ScalarKind

def ofValue : Json → ScalarKind
  | .str _ => string
  | .num _ => number
  | .bool _ => boolean
  | .null => null
  | .arr _ => any
  | .obj _ => any

end ScalarKind

namespace Schema

/-- The schema of an empty document that accepts new fields. -/
def initial : Schema :=
  .object [] { extensible := true }

def child? (schema : Schema) (s : Step) : Option Schema :=
  match schema with
  | object properties _ => Table.get? properties s.asKey
  | array element _ => s.asIndex?.bind fun _ => element
  | scalar _ => none

/-- The schema with that of what the step leads to replaced by what `f` makes of it. -/
def modifyChild? (f : Schema → Option Schema) (schema : Schema) (s : Step) : Option Schema :=
  match schema with
  | object properties rules => (Table.modify? f properties s.asKey).map (object · rules)
  | array element rules => do
    let _ ← s.asIndex?
    return array (some (← f (← element))) rules
  | scalar _ => none

def at? (schema : Schema) : Path → Option Schema
  | [] => some schema
  | s :: p => (schema.child? s).bind fun c => at? c p

/-- The schema with that of what the path leads to replaced by what `f` makes of it. -/
def modify? (f : Schema → Option Schema) (schema : Schema) : Path → Option Schema
  | [] => f schema
  | s :: p => modifyChild? (fun c => modify? f c p) schema s

def template? : Schema → Option Json
  | object _ rules => rules.template
  | array _ rules => rules.template
  | scalar _ => none

/-- Whether containers inside are extensible unless they say otherwise. -/
def passesOn : Schema → Bool
  | object _ rules => rules.extensible && rules.recursive
  | array _ rules => rules.extensible && rules.recursive
  | scalar _ => false

/-- Whether two templates are equal as values. -/
def sameTemplate : Option Json → Option Json → Bool
  | some v, some w => v.same w
  | none, none => true
  | _, _ => false

/-- Whether two lists without repetitions have the same members. -/
def sameMembers (l m : List String) : Bool :=
  l.length == m.length && l.all (m.contains ·)

mutual

/-- Whether two schemas agree. The order of properties and of required fields does not count. -/
def same : Schema → Schema → Bool
  | object ps r, object qs t =>
    ps.length == qs.length && sameProperties ps qs && r.extensible == t.extensible &&
      r.recursive == t.recursive && sameMembers r.required t.required &&
      sameTemplate r.template t.template
  | array e r, array f t =>
    sameElement e f && r.extensible == t.extensible && r.recursive == t.recursive &&
      r.maxLen == t.maxLen && sameTemplate r.template t.template
  | scalar k, scalar l => k == l
  | _, _ => false

/-- Whether every property of the first list has an agreeing one in the second. -/
def sameProperties : List (String × Schema) → List (String × Schema) → Bool
  | [], _ => true
  | (k, p) :: ps, qs => (Table.get? qs k).any (same p) && sameProperties ps qs

def sameElement : Option Schema → Option Schema → Bool
  | some e, some f => same e f
  | none, none => true
  | _, _ => false

end

end Schema

end StatVars
