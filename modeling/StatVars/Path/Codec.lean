import StatVars.Json.Reader
import StatVars.Json.Writer
import StatVars.Path.Parser

/-!
# Paths in JSON

A path is written as the string of its canonical text. The string that is read may be any text of
the path.
-/

namespace StatVars.Path

def toJson (p : Path) : Json :=
  .str p.text

def read? (text : List Char) : Option Path := do
  (parse (← (← Json.read? text).asStr?)).toOption

end StatVars.Path
