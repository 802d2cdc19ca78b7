import StatVars.Command.Basic
import StatVars.Json.Record

/-!
# Commands in JSON

A command is written as a record of its kind, its path, its arguments as texts, and its reason if it
has one. What is read back has texts for arguments.
-/

namespace StatVars.Command

def fieldNames : List String :=
  ["kind", "path", "args", "reason"]

def toJson (c : Command) : Json :=
  .obj <|
    [("kind", .str c.kind.name), ("path", .str c.path),
      ("args", .arr (c.args.map fun a => .str a.toSource))] ++
    (c.reason.map fun r => ("reason", Json.str r)).toList

def reason? (v : Option Json) : Option (Option String) :=
  match Json.orNull? v with
  | none => some none
  | some v => v.asStr?.map some

def ofFields? (fields : List (String × Json)) : Option Command := do
  let kind ← Kind.ofName? (← Json.choiceName? (← Table.get? fields "kind"))
  let path ← (← Table.get? fields "path").asStr?
  let args ← (← (← Table.get? fields "args").asArr?).mapM Json.asStr?
  return ⟨kind, path, args.map .source, ← reason? (Table.get? fields "reason")⟩

def read? (text : List Char) : Option Command := do
  ofFields? (← Json.readRecord? fieldNames text)

end StatVars.Command
