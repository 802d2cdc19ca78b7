import StatVars.Conversation.Host

/-!
# Conversations in memory

A host that keeps everything in tables. Only a node that it does not know can make one of its calls
fail.
-/

namespace StatVars

structure Memory where
  /-- The nodes that are known, each with its parent unless it is a root. -/
  parents : Table (Scope × Node) (Option Node) := []
  /-- The node that is shown to the user. -/
  active : Table Scope Node := []
  /-- The snapshots. -/
  snapshots : Table (Scope × Node) Bundle := []

namespace Memory

/-- Adds a node below `parent`, or as a root, and makes it active. -/
def push (m : Memory) (scope : Scope) (node : Node) (parent : Option Node) : Memory where
  parents := Table.insert m.parents (scope, node) parent
  active := Table.insert m.active scope node
  snapshots := m.snapshots

def setActive (m : Memory) (scope : Scope) (node : Node) : Except HostError Memory :=
  if Table.contains m.parents (scope, node) then
    .ok { m with active := Table.insert m.active scope node }
  else .error (.unknownNode node)

def parent? (m : Memory) (scope : Scope) (node : Node) : Except HostError (Option Node) :=
  match Table.get? m.parents (scope, node) with
  | some parent => .ok parent
  | none => .error (.unknownNode node)

def activeNode? (m : Memory) (scope : Scope) : Option Node :=
  Table.get? m.active scope

def boundAt? (m : Memory) (scope : Scope) (node : Node) : Option Bundle :=
  Table.get? m.snapshots (scope, node)

def bindAt (m : Memory) (scope : Scope) (node : Node) (bundle : Bundle) : Memory :=
  { m with snapshots := Table.insert m.snapshots (scope, node) bundle }

def unbindAt (m : Memory) (scope : Scope) (node : Node) : Memory :=
  { m with snapshots := Table.erase m.snapshots (scope, node) }

def unbindAll (m : Memory) (scope : Scope) : Memory :=
  { m with snapshots := Table.keep (fun key => key.1 ≠ scope) m.snapshots }

instance : Host Memory where
  parent? scope node := fun m => (m.parent? scope node, m)
  activeNode? scope := fun m => (.ok (m.activeNode? scope), m)
  boundAt? scope node := fun m => (.ok (m.boundAt? scope node), m)
  bindAt scope node bundle := fun m => (.ok (), m.bindAt scope node bundle)
  unbindAt scope node := fun m => (.ok (), m.unbindAt scope node)
  unbindAll scope := fun m =>
    let rest := m.unbindAll scope
    (.ok (m.snapshots.length - rest.snapshots.length), rest)

end Memory

end StatVars
