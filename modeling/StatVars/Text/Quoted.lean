import StatVars.Text.Printable
import StatVars.Text.Combining

/-!
# Quoted text for messages

A message shows a text or a character between quotes in a form that names every character: what
would not show, or would join its neighbour, is written by its code point.
-/

namespace StatVars.Text

/-- A character by the hexadecimal form of its code point, between braces. -/
def codePointEscape (c : Char) : List Char :=
  "\\u\x7b".toList ++ Nat.toDigits 16 c.toNat ++ "\x7d".toList

/-- How `c` is written between two `quote`s. -/
def quotedChar (quote c : Char) : List Char :=
  if c == quote || c == '\\' then ['\\', c]
  else if c == '\n' then "\\n".toList
  else if c == '\r' then "\\r".toList
  else if c == '\t' then "\\t".toList
  else if c.toNat == 0 then "\\0".toList
  else if isPrintable c && !isCombining c then [c]
  else codePointEscape c

def quoted (s : List Char) : String :=
  .ofList ('"' :: s.flatMap (quotedChar '"') ++ ['"'])

def quotedSingle (c : Char) : String :=
  .ofList ('\'' :: quotedChar '\'' c ++ ['\''])

end StatVars.Text
