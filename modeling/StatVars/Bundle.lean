import StatVars.Path.Parser
import StatVars.Schema.Codec
import StatVars.Schema.Reconcile

/-!
# Bundles

A bundle is a document together with its schema and a count of the changes made to it.
-/

namespace StatVars

/-- A document and its schema. -/
structure Variables where
  data : Json := .obj []
  schema : Schema := .initial

/-- Variables and the number of batches of commands that were run on them. -/
structure Bundle extends Variables where
  revision : Nat := 0

namespace Bundle

/-- The bundle of an annotated document. -/
def ofDocument (extensibleByDefault : Bool) (document : Json) : Bundle where
  data := document.stripMeta
  schema := Schema.infer extensibleByDefault none false document

/-- What the path in a text leads to. -/
def get? (b : Bundle) (path : String) : Except PathError (Option Json) :=
  (Path.parse path).map b.data.get?

def fieldNames : List String :=
  ["stat_data", "schema", "revision"]

def toJson (b : Bundle) : Json :=
  .obj [("stat_data", b.data), ("schema", b.schema.toJson), ("revision", .ofNat b.revision)]

def read? (text : List Char) : Option Bundle := do
  let fields ← Json.readRecord? fieldNames text
  return {
    data := (← Table.get? fields "stat_data").mergeRepeated
    schema := ← Schema.ofJson? (← Table.get? fields "schema")
    revision := ← (← Table.get? fields "revision").asNat? }

end Bundle

end StatVars
