import StatVars.Command.Normalize
import StatVars.Config

/-!
# The commands of a text

All commands of a generated text make up one batch. What had to be passed over is reported in the
order of the text, wherever the reason was found.
-/

namespace StatVars

structure Batch where
  commands : List Command
  diagnostics : List Diagnostic

namespace Batch

/-- The commands of a text. Of two diagnostics that start at the same place, one about a verb or a
number of arguments comes first. -/
def ofText (c : Config) (text : String) : Batch :=
  let found := Extraction.ofText c.extraction text
  let (commands, dropped) := Command.ofStatements found.statements
  ⟨commands, (dropped ++ found.diagnostics).mergeSort fun d e => d.span.start ≤ e.span.start⟩

end Batch

end StatVars
