import StatVars.Json.Record
import StatVars.Literal.Basic
import StatVars.Statement.Scan

/-!
# Configuration

The choices that the user of the library has. Each has a default.
-/

namespace StatVars

/-- The choices that the user has. -/
structure Config where
  /-- The name of the blocks that hold variable updates. -/
  wrapperTag : String := "UpdateVariable"
  /-- The name of the blocks in them that hold no statements. -/
  analysisTag : String := "Analysis"
  /-- Whether a statement has to end with a semicolon. -/
  requireSemicolon : Bool := true
  /-- Whether an argument that is nothing else is a string. -/
  bareStrings : Bool := false
  /-- Whether containers without annotation accept new members. -/
  extensibleByDefault : Bool := true
  /-- The greatest number of containers around a value in an argument. -/
  maxLiteralDepth : Nat := 64
  /-- The greatest number of steps to an ancestor that has variables. -/
  maxAncestorWalk : Nat := 100000
  /-- The significant digits that are kept of a calculated number. -/
  precision : Nat := 12
deriving DecidableEq

namespace Config

def fieldNames : List String :=
  ["wrapper_tag", "analysis_tag", "require_semicolon", "bare_string_fallback",
    "default_extensible", "max_literal_depth", "max_ancestor_walk", "number_precision"]

def extraction (c : Config) : Extraction.Options :=
  ⟨c.wrapperTag, c.analysisTag, c.requireSemicolon⟩

def literals (c : Config) : Literal.Options :=
  ⟨c.maxLiteralDepth, c.bareStrings⟩

def toJson (c : Config) : Json :=
  .obj [("wrapper_tag", .str c.wrapperTag), ("analysis_tag", .str c.analysisTag),
    ("require_semicolon", .bool c.requireSemicolon),
    ("bare_string_fallback", .bool c.bareStrings),
    ("default_extensible", .bool c.extensibleByDefault),
    ("max_literal_depth", .ofNat c.maxLiteralDepth),
    ("max_ancestor_walk", .ofNat c.maxAncestorWalk), ("number_precision", .ofNat c.precision)]

/-- A field as `read` takes it, or `preset` if it is missing. -/
def field? {α : Type} (read : Json → Option α) (fields : List (String × Json)) (name : String)
    (preset : α) : Option α :=
  match Table.get? fields name with
  | some v => read v
  | none => some preset

def read? (text : List Char) : Option Config := do
  let fields ← Json.readRecord? fieldNames text
  let preset : Config := {}
  return {
    wrapperTag := ← field? Json.asStr? fields "wrapper_tag" preset.wrapperTag
    analysisTag := ← field? Json.asStr? fields "analysis_tag" preset.analysisTag
    requireSemicolon := ← field? Json.asBool? fields "require_semicolon" preset.requireSemicolon
    bareStrings := ← field? Json.asBool? fields "bare_string_fallback" preset.bareStrings
    extensibleByDefault :=
      ← field? Json.asBool? fields "default_extensible" preset.extensibleByDefault
    maxLiteralDepth := ← field? Json.asNat? fields "max_literal_depth" preset.maxLiteralDepth
    maxAncestorWalk := ← field? Json.asNat? fields "max_ancestor_walk" preset.maxAncestorWalk
    precision := ← field? Json.asNat? fields "number_precision" preset.precision }

end Config

end StatVars
