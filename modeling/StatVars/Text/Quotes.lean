/-!
# Quotes

Strings in statements and in their arguments stand between two quotes of one kind.
-/

namespace StatVars.Text

def isQuote (c : Char) : Bool :=
  c == '"' || c == '\'' || c == '\x60'

end StatVars.Text
