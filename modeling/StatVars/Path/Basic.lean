import StatVars.Number.Decimal
import StatVars.Text.Blank
import StatVars.Text.Quoted
import StatVars.Text.Utf8

/-!
# Paths

A path leads from the root of a document to one of its values. Each step is the name of a field or
the place of an item. What the container is decides how a step is taken: the place `0` is the field
`"0"` of an object, and the name `"0"` is the first item of an array.
-/

namespace StatVars

/-- A step into a container. -/
inductive Step
  | key (name : String)
  | index (place : Nat)
deriving DecidableEq

/-- The steps from the root of a document to a value. -/
abbrev Path := List Step

/-- Why a text is no path. Positions count bytes from its first character that is no blank. -/
inductive PathError
  | unbalancedBracket (position : Nat)
  | unterminatedQuote (position : Nat)
  | unexpectedChar (position : Nat) (found : Char)
  | emptySegment (position : Nat)
  | emptyBracket (position : Nat)
  | invalidIndex (text : String)
  | tooLong
  | tooDeep
deriving DecidableEq

namespace PathError

def message : PathError → String
  | unbalancedBracket position => s!"unbalanced bracket at byte {position}"
  | unterminatedQuote position => s!"unterminated quote at byte {position}"
  | unexpectedChar position found =>
    "unexpected character " ++ Text.quotedSingle found ++ s!" at byte {position}"
  | emptySegment position => s!"empty segment at byte {position}"
  | emptyBracket position => s!"empty bracket at byte {position}"
  | invalidIndex text => "invalid index " ++ Text.quoted text.toList
  | tooLong => "path too long"
  | tooDeep => "path too deep"

end PathError

namespace Path

def isInteger (s : List Char) : Bool :=
  !s.isEmpty && s.all Char.isDigit

def isIndex (s : List Char) : Bool :=
  isInteger s && (s.head? != some '0' || s.length == 1)

/-- Places have at most 64 bits. -/
def placeBound : Nat := 18446744073709551616

def place? (s : List Char) : Option Nat :=
  if isIndex s && Decimal.digitsValue s < placeBound then some (Decimal.digitsValue s) else none

/-- The characters that cannot stand in a name unless it is quoted, blanks apart. -/
def isMark (c : Char) : Bool :=
  c == '.' || c == '[' || c == ']' || c == '"' || c == '\'' || c == '\\'

/-- Whether the name can be written without brackets and quotes. -/
def isBareKey (s : List Char) : Bool :=
  !s.isEmpty && !isInteger s && s.all fun c => !Text.isBlank c && !isMark c

/-- The greatest number of steps of a path. -/
def maxSteps : Nat := 256

/-- The greatest number of bytes in the text of a path. -/
def maxBytes : Nat := 1024

/-- Whether a path may have so many steps. -/
def checkSteps (count : Nat) : Except PathError Unit :=
  if maxSteps < count then .error .tooDeep else .ok ()

end Path

namespace Step

def asKey : Step → String
  | key name => name
  | index place => toString place

def asIndex? : Step → Option Nat
  | key name => Path.place? name.toList
  | index place => some place

def isIndex : Step → Bool
  | key _ => false
  | index _ => true

end Step

end StatVars
