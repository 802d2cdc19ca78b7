import StatVars.Conversation.Host

/-!
# The variables as of a node

The variables as of a node are those of the nearest snapshot on the way from the node to its root.
The number of steps to a parent has a limit, for the tree of a host may have a cycle.
-/

namespace StatVars.Host

variable {σ : Type} [Host σ]

/-- Looks at `visits` nodes at most, from `node` towards the root, on a walk that began at `start`.
-/
def climb (scope : Scope) (start : Node) (limit : Nat) : Nat → Node → Call σ (Option Bundle)
  | 0, _ => throw (.walkTooLong start limit)
  | visits + 1, node => do
    match ← boundAt? scope node with
    | some bundle => return some bundle
    | none =>
      match ← parent? scope node with
      | some parent => climb scope start limit visits parent
      | none => return none

/-- The snapshot at the node or else at its nearest ancestor that has one, at most `limit` steps
away. -/
def nearest? (scope : Scope) (node : Node) (limit : Nat) : Call σ (Option Bundle) :=
  climb scope node limit (limit + 1) node

end StatVars.Host
