import StatVars.Fallible

/-!
# Conversations

A conversation is a tree of nodes, for an answer may be generated more than once and each version
may be continued. Variables are kept apart by scope. A bundle that is bound to a node of a scope is
a snapshot: the variables as of that node.

The tree and the snapshots belong to a host, who may be unable to answer.
-/

namespace StatVars

/-- What variables are kept for, such as a character or a session. -/
structure Scope where
  name : String
deriving DecidableEq

/-- A node of a conversation. -/
structure Node where
  name : String
deriving DecidableEq

inductive HostError
  | unknownNode (node : Node)
  | walkTooLong (start : Node) (limit : Nat)
  | noActiveNode (scope : Scope)
  | unavailable (detail : String)
deriving DecidableEq

namespace HostError

def message : HostError → String
  | unknownNode node => s!"node {node.name} not found"
  | walkTooLong start limit => s!"ancestor walk from {start.name} exceeded {limit} steps"
  | noActiveNode scope => s!"scope {scope.name} has no active node"
  | unavailable detail => detail

def report (e : HostError) : String :=
  "persistence error: " ++ e.message

end HostError

/-- A call on a host with states in `σ`, or on what is built on one. -/
abbrev Call (σ α : Type) := Fallible HostError σ α

end StatVars
