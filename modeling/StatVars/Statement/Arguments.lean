import StatVars.Text.Blank
import StatVars.Text.Quotes

/-!
# Argument lists

The arguments of a statement stand between commas. A comma inside a string or a bracket belongs to
the argument. A list of blanks has no arguments, but an argument between commas may be empty.
-/

namespace StatVars.Statement

/-- How far a character leads into brackets of any kind, or out of them. -/
def nesting (c : Char) : Int :=
  if c == '(' || c == '\x7b' || c == '[' then 1
  else if c == ')' || c == '\x7d' || c == ']' then -1
  else 0

/-- Puts a character at the front of the first part. -/
def putFirst (c : Char) : List (List Char) → List (List Char)
  | [] => [[c]]
  | part :: parts => (c :: part) :: parts

/-- The parts between the commas of a list, where `quote` is the quote that encloses its start and
`depth` the number of brackets that do. -/
def splitCommas (quote : Option Char) (depth : Int) : List Char → List (List Char)
  | [] => [[]]
  | [c] => if quote.isNone && c == ',' && depth == 0 then [[], []] else [[c]]
  | c :: d :: s =>
    match quote with
    | some q =>
      if c == '\\' then putFirst c (putFirst d (splitCommas quote depth s))
      else putFirst c (splitCommas (if c == q then none else quote) depth (d :: s))
    | none =>
      if Text.isQuote c then putFirst c (splitCommas (some c) depth (d :: s))
      else if c == ',' && depth == 0 then [] :: splitCommas none depth (d :: s)
      else putFirst c (splitCommas none (depth + nesting c) (d :: s))

def splitArguments (s : List Char) : List String :=
  if s.all Text.isBlank then []
  else (splitCommas none 0 s).map fun part => .ofList (Text.trim part)

end StatVars.Statement
