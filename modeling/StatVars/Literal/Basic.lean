import StatVars.Json.Writer
import StatVars.Text.Quoted

/-!
# Literals

A literal is what an argument of a statement stands for: a value, or `undefined`, which is kept
apart from `null` and removes what it is stored to.
-/

namespace StatVars

/-- What an argument stands for. -/
inductive Literal
  | undefined
  | value (v : Json)
deriving DecidableEq

namespace Literal

def toValue? : Literal → Option Json
  | undefined => none
  | value v => some v

def toSource : Literal → String
  | undefined => "undefined"
  | value v => v.toText

structure Options where
  maxDepth : Nat := 64
  bareStrings : Bool := false
deriving DecidableEq

/-- Why a text between brackets or braces is no value. Positions count bytes from its start. -/
inductive StructureError
  | unexpectedEnd (position : Nat)
  | unterminatedObject (position : Nat)
  | unterminatedString (position : Nat)
  | missingKey (position : Nat)
  | missingColon (position : Nat)
  | missingSeparator (closing : Char) (position : Nat)
  | unexpectedToken (token : String)
  | truncatedEscape (position : Nat)
  | invalidEscape (position : Nat)
  | trailingInput (position : Nat)
deriving DecidableEq

namespace StructureError

def message : StructureError → String
  | unexpectedEnd position => s!"unexpected end of input at byte {position}"
  | unterminatedObject position => s!"unterminated object at byte {position}"
  | unterminatedString position => s!"unterminated string at byte {position}"
  | missingKey position => s!"expected object key at byte {position}"
  | missingColon position => s!"expected ':' at byte {position}"
  | missingSeparator closing position => s!"expected ',' or '{closing}' at byte {position}"
  | unexpectedToken token => "unexpected token " ++ Text.quoted token.toList
  | truncatedEscape position => s!"truncated unicode escape at byte {position}"
  | invalidEscape position => s!"invalid unicode escape at byte {position}"
  | trailingInput position => s!"trailing input at byte {position}"

end StructureError

/-- Why a text is no literal. -/
inductive SyntaxError
  | empty
  | noMatch (source : String)
  | invalidStructure (error : StructureError)
  | tooDeep (limit : Nat)
  | divisionByZero
  | nonFinite
deriving DecidableEq

namespace SyntaxError

def message : SyntaxError → String
  | empty => "missing value"
  | noMatch source => "no value rule matches " ++ Text.quoted source.toList
  | invalidStructure error => "invalid structured literal: " ++ error.message
  | tooDeep limit => s!"literal nested deeper than {limit}"
  | divisionByZero => "division by zero"
  | nonFinite => "number is not finite"

end SyntaxError

/-- The literal of a calculated number. -/
def numberValue (x : Binary64) : Except SyntaxError Json :=
  match Number.ofBinary64? x with
  | some n => .ok (.num n)
  | none => .error .nonFinite

end Literal

end StatVars
