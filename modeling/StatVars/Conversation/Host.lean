import StatVars.Bundle
import StatVars.Conversation.Basic

/-!
# Hosts

A host owns the conversation and the snapshots. It is asked one call at a time.
-/

namespace StatVars

/-- What is asked of a host with states in `σ`. -/
class Host (σ : Type) where
  /-- The parent of a node, if it is not a root. -/
  parent? (scope : Scope) (node : Node) : Call σ (Option Node)
  /-- The node that is shown to the user. -/
  activeNode? (scope : Scope) : Call σ (Option Node)
  /-- The snapshot at exactly this node. -/
  boundAt? (scope : Scope) (node : Node) : Call σ (Option Bundle)
  /-- Binds a snapshot to the node in place of the one that is there. -/
  bindAt (scope : Scope) (node : Node) (bundle : Bundle) : Call σ Unit
  /-- Removes the snapshot at the node, if there is one. -/
  unbindAt (scope : Scope) (node : Node) : Call σ Unit
  /-- Removes all snapshots of the scope and counts them. -/
  unbindAll (scope : Scope) : Call σ Nat

namespace Host

variable {σ : Type} [Host σ]

/-- Makes `bundle` the snapshot at the node, or leaves it without one. -/
def rebind (scope : Scope) (node : Node) : Option Bundle → Call σ Unit
  | some bundle => bindAt scope node bundle
  | none => unbindAt scope node

end Host

end StatVars
