import StatVars.Change.Run
import StatVars.Command.Batch
import StatVars.Conversation.Nearest

/-!
# Sessions

A session reads and writes variables through a host. For each scope it remembers a view, the
variables as of the node that was active when it last looked, so that reading them again asks
nothing of the host.

A generated text is run against the variables of the parent of its node, so that a text that is
generated again takes the place of the one before. Every write looks at the active node afterwards.
If that fails, what was bound before is bound again, and the view is forgotten.
-/

namespace StatVars

/-- Variables, and the node that they were found at, if any was active. -/
structure View where
  node : Option Node
  bundle : Bundle

abbrev Views := Table Scope View

/-- A host and what the session remembers of it. -/
structure Session (σ : Type) where
  host : σ
  views : Views := []

/-- What became of a generated text: the variables after it, the results of its commands, the
statements that were passed over, and whether a snapshot was bound. -/
structure Response where
  bundle : Bundle
  results : List Command.Result
  diagnostics : List Diagnostic
  committed : Bool

namespace Session

variable {σ : Type}

/-- An action of a session. -/
abbrev Action (σ α : Type) := Call (Session σ) α

/-- Calls the host. -/
def ask {α : Type} (call : Call σ α) : Action σ α := fun s =>
  let (result, host) := call s.host
  (result, { s with host })

def remember (scope : Scope) (view : View) : Action σ Unit :=
  modify fun s => { s with views := Table.insert s.views scope view }

def forget (scope : Scope) : Action σ Unit :=
  modify fun s => { s with views := Table.erase s.views scope }

variable [Host σ] (c : Config)

/-- The variables as of a node. Where nothing is bound there are none. -/
def bundleAt (scope : Scope) (node : Node) : Action σ Bundle := do
  return (← ask (Host.nearest? scope node c.maxAncestorWalk)).getD {}

def bundleAt? (scope : Scope) : Option Node → Action σ Bundle
  | some node => bundleAt c scope node
  | none => pure {}

def activate (scope : Scope) : Action σ Bundle := do
  let node ← ask (Host.activeNode? scope)
  let bundle ← bundleAt? c scope node
  remember scope ⟨node, bundle⟩
  return bundle

/-- Binds again what was bound at a node, and forgets the view. If even this fails, nothing more is
done about it. -/
def revert (scope : Scope) (node : Node) (previous : Option Bundle) : Action σ Unit := do
  tryCatch (ask (Host.rebind scope node previous)) fun _ => pure ()
  forget scope

/-- Binds a bundle to a node, or leaves it without one, and looks at the active node. -/
def commit (scope : Scope) (node : Node) (bundle : Option Bundle) : Action σ Unit := do
  let previous ← ask (Host.boundAt? scope node)
  ask (Host.rebind scope node bundle)
  tryCatch (discard (activate c scope)) fun e => do
    revert scope node previous
    throw e

/-- Binds the variables of a document to a node. -/
def start (scope : Scope) (node : Node) (document : Json) : Action σ Bundle := do
  let bundle := Bundle.ofDocument c.extensibleByDefault document
  commit c scope node (some bundle)
  return bundle

/-- Runs the commands of a text that was generated at a node. A text without commands leaves the
node without a snapshot; one all of whose commands are refused does not. -/
def respond (scope : Scope) (node : Node) (text : String) : Action σ Response := do
  let base ← bundleAt? c scope (← ask (Host.parent? scope node))
  let batch := Batch.ofText c text
  if batch.commands.isEmpty then
    commit c scope node none
    return ⟨base, [], batch.diagnostics, false⟩
  else
    let (bundle, results) := base.apply c batch.commands
    commit c scope node (some bundle)
    return ⟨bundle, results, batch.diagnostics, true⟩

/-- The variables as of the active node, as far as they are remembered. -/
def current (scope : Scope) : Action σ Bundle := do
  match Table.get? (← get).views scope with
  | some view => return view.bundle
  | none => activate c scope

/-- Writes a value at the active node. If the write is refused, nothing is bound. -/
def set (scope : Scope) (path : String) (value : Literal) : Action σ Command.Result := do
  match ← ask (Host.activeNode? scope) with
  | none => throw (.noActiveNode scope)
  | some node =>
    let base ← bundleAt c scope node
    let (bundle, result) := base.applyOne c ⟨.set, path, [.literal value], none⟩
    if result.applied then
      commit c scope node (some bundle)
    return result

def deleteScope (scope : Scope) : Action σ Nat := do
  let removed ← ask (Host.unbindAll scope)
  forget scope
  return removed

end Session

end StatVars
