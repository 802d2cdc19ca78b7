import StatVars.Text.Quoted
import StatVars.Text.Utf8

/-!
# Statements in a text

A generated text carries statements `_.verb(arguments);//reason` between its prose. A statement
keeps the part of the text that it was taken from; one that had to be passed over leaves a
diagnostic.
-/

namespace StatVars

/-- A part of a text, from byte `start` up to byte `stop`. -/
structure Span where
  start : Nat
  stop : Nat
deriving DecidableEq

/-- A statement as it stands in a text: the verb, the arguments without the blanks around them, and
the reason that follows it. -/
structure Statement where
  verb : String
  args : List String
  reason : Option String
  span : Span
deriving DecidableEq

/-- Why a statement was passed over. -/
inductive Flaw
  | unbalanced
  | unclosedString
  | unclosed
  | missingSemicolon
  | unknownVerb (verb : String)
  | wrongCount (verb : String) (expected : String) (found : Nat)
deriving DecidableEq

namespace Flaw

def message : Flaw → String
  | unbalanced => "unbalanced brackets in statement arguments"
  | unclosedString => "string literal not closed before end of line"
  | unclosed => "statement not closed before end of text"
  | missingSemicolon => "missing ';' after statement"
  | unknownVerb verb => "unknown verb " ++ Text.quoted verb.toList
  | wrongCount verb expected found => s!"{verb} takes {expected} arguments, got {found}"

end Flaw

/-- A statement that was passed over. -/
structure Diagnostic where
  span : Span
  flaw : Flaw
deriving DecidableEq

namespace Diagnostic

def message (d : Diagnostic) : String :=
  d.flaw.message

end Diagnostic

end StatVars
