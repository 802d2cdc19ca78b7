import StatVars.Bundle
import StatVars.Command.Basic
import StatVars.Fallible
import StatVars.Schema.Check

/-!
# Changes

A command makes a change at a path of a document or is refused. The document is written in place:
what has been written before a refusal is not taken back. This module holds the parts that all
commands share.
-/

namespace StatVars

inductive ErrorKind
  | parse
  | valueSyntax
  | path
  | schemaViolation
  | persistence
deriving DecidableEq

namespace ErrorKind

def name : ErrorKind → String
  | parse => "ParseError"
  | valueSyntax => "ValueSyntaxError"
  | path => "PathError"
  | schemaViolation => "SchemaViolation"
  | persistence => "PersistenceError"

end ErrorKind

inductive CommandError
  | path (error : PathError)
  | value (error : Literal.SyntaxError)
  | schema (violation : Violation)
deriving DecidableEq

namespace CommandError

def kind : CommandError → ErrorKind
  | path _ => .path
  | value _ => .valueSyntax
  | schema _ => .schemaViolation

def message : CommandError → String
  | path error => error.message
  | value error => error.message
  | schema violation => violation.message

end CommandError

/-- What a command did: where, and what was there before and is there now. -/
structure Change where
  path : Path
  previous : Option Json
  new : Option Json

namespace Change

/-- The refusal because there is nothing at the path. -/
def notFound (p : Path) : CommandError :=
  .schema (.notFound p.text)

/-- The refusal of what does not fit the value at the path. -/
def mismatch (p : Path) (detail : String) : CommandError :=
  .schema (.typeMismatch p.text detail)

/-- Lets a violation of the schema stand for a refusal. -/
def guarded (check : Except Violation Unit) : Except CommandError Unit :=
  check.mapError .schema

/-- What there is, or a refusal because there is nothing at the path. -/
def present {α : Type} (p : Path) : Option α → Except CommandError α
  | some a => .ok a
  | none => .error (notFound p)

/-- A value as the name of a field. -/
def keyText : Json → String
  | .str s => s
  | v => v.toText

def typeName : Json → String
  | .null => "null"
  | .bool _ => "a boolean"
  | .num _ => "a number"
  | .str _ => "a string"
  | .arr _ => "an array"
  | .obj _ => "an object"

end Change

namespace Json

/-- An empty container, an array if the next step is a place. -/
def emptyFor (next : Step) : Json :=
  if next.isIndex then .arr [] else .obj []

/-- The value with `w` as what the step leads to, be it new or not. -/
def setChild? (v : Json) (s : Step) (w : Json) : Option Json :=
  match v with
  | .obj fields => some (.obj (Table.insert fields s.asKey w))
  | .arr items => do
    let place ← s.asIndex?
    if place = items.length then some (.arr (items ++ [w]))
    else if place < items.length then some (.arr (items.set place w))
    else none
  | _ => none

/-- The value with `w` as what the step leads to, and whether the step could be taken. -/
def putChild (v : Json) (s : Step) (w : Json) : Json × Bool :=
  match v.setChild? s w with
  | some v => (v, true)
  | none => (v, false)

/-- Writes `w` at the path step by step. Containers on the way that are missing are made, and those
that have been made stay if a step cannot be taken. The Boolean says whether all steps could be. -/
def create (v : Json) (p : Path) (w : Json) : Json × Bool :=
  match p with
  | [] => (v, false)
  | [s] => v.putChild s w
  | s :: next :: p =>
    let (c, done) := create ((v.child? s).getD (emptyFor next)) (next :: p) w
    let (v, taken) := v.putChild s c
    (v, done && taken)

def removeChild? (v : Json) (s : Step) : Option (Json × Json) :=
  match v with
  | .obj fields => (Table.get? fields s.asKey).map fun c => (c, .obj (Table.erase fields s.asKey))
  | .arr items => do
    let place ← s.asIndex?
    let c ← items[place]?
    return (c, .arr (items.eraseIdx place))
  | _ => none

/-- What the path leads to, and the value without it. -/
def remove? (v : Json) (p : Path) : Option (Json × Json) := do
  let (parent, last) ← p.splitLast?
  let container ← v.get? parent
  let (removed, rest) ← container.removeChild? last
  return (removed, ← v.replace? parent rest)

end Json

namespace Change

/-- A change in progress, which may be refused. -/
abbrev Attempt (α : Type) := Fallible CommandError Variables α

def overwrite (p : Path) (v : Json) : Attempt Unit := do
  let vars ← get
  let data ← present p (vars.data.replace? p v)
  set { vars with data }

def create (p : Path) (v : Json) : Attempt Unit := do
  let vars ← get
  let (data, done) := vars.data.create p v
  set { vars with data }
  unless done do throw (notFound p)

def remove (p : Path) : Attempt Json := do
  let vars ← get
  let (removed, data) ← present p (vars.data.remove? p)
  set { vars with data }
  return removed

end Change

end StatVars
