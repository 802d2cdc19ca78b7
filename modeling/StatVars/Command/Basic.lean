import StatVars.Literal.Parser
import StatVars.Path.Parser

/-!
# Commands

A command changes a document at a path. Its path and its arguments may still be text, which is read
when the command runs, so that a malformed one fails this command alone.
-/

namespace StatVars

namespace Command

/-- What a command does. -/
inductive Kind
  | set
  | add
  | delete
  | insert
deriving DecidableEq

namespace Kind

def ofVerb? (verb : String) : Option Kind :=
  if verb = "set" then some set
  else if verb = "add" then some add
  else if verb = "delete" || verb = "remove" || verb = "unset" then some delete
  else if verb = "insert" || verb = "assign" then some insert
  else none

def name : Kind → String
  | set => "set"
  | add => "add"
  | delete => "delete"
  | insert => "insert"

def ofName? (s : String) : Option Kind :=
  [set, add, delete, insert].find? fun k => k.name = s

/-- The least number of arguments, the path included. -/
def minArgs : Kind → Nat
  | set => 2
  | add => 1
  | delete => 1
  | insert => 2

def maxArgs? : Kind → Option Nat
  | set => none
  | add => some 2
  | delete => some 2
  | insert => some 3

def accepts (k : Kind) (count : Nat) : Bool :=
  k.minArgs ≤ count && k.maxArgs?.all (count ≤ ·)

def expectedArgs (k : Kind) : String :=
  match k.maxArgs? with
  | some max => if max = k.minArgs then toString max else s!"{k.minArgs} to {max}"
  | none => s!"at least {k.minArgs}"

end Kind

/-- An argument: a text to be read, or what it stands for. -/
inductive Argument
  | source (text : String)
  | literal (value : Literal)
deriving DecidableEq

namespace Argument

def toSource : Argument → String
  | source text => text
  | literal value => value.toSource

def resolve (options : Literal.Options) : Argument → Except Literal.SyntaxError Literal
  | source text => Literal.parse options text
  | literal value => .ok value

end Argument

end Command

/-- A change of a document. The path is not among the arguments. -/
structure Command where
  kind : Command.Kind
  path : String
  args : List Command.Argument
  reason : Option String
deriving DecidableEq

end StatVars
