import StatVars.Conversation.Host

/-!
# Outages

A host some of whose calls fail on order, to see what becomes of a session then. A call that fails
does nothing else.
-/

namespace StatVars

namespace Host

inductive Operation
  | parent
  | active
  | bound
  | bind
  | unbind
  | remove
deriving DecidableEq

namespace Operation

def name : Operation → String
  | parent => "parent"
  | active => "active"
  | bound => "bound"
  | bind => "bind"
  | unbind => "unbind"
  | remove => "remove"

def ofName? (s : String) : Option Operation :=
  [parent, active, bound, bind, unbind, remove].find? fun o => o.name = s

end Operation

end Host

/-- An order that an operation fail once, after it has succeeded `after` times. -/
structure Outage where
  operation : Host.Operation
  after : Nat

namespace Outage

/-- Whether the next call of the operation fails. -/
def isDue (o : Outage) (operation : Host.Operation) : Bool :=
  o.operation = operation && o.after = 0

/-- What remains of the order after a call of the operation. -/
def next (o : Outage) (operation : Host.Operation) : Option Outage :=
  if o.operation = operation then
    if o.after = 0 then none else some { o with after := o.after - 1 }
  else some o

end Outage

/-- A host with outages that are yet to come. -/
structure Unreliable (σ : Type) where
  host : σ
  outages : List Outage := []

namespace Unreliable

variable {σ : Type}

/-- Adds an order. -/
def order (u : Unreliable σ) (o : Outage) : Unreliable σ :=
  { u with outages := u.outages ++ [o] }

/-- A call that fails if it is due. Every order for the operation counts it. -/
def attempt {α : Type} (operation : Host.Operation) (call : Call σ α) : Call (Unreliable σ) α :=
  fun u =>
    let outages := u.outages.filterMap (·.next operation)
    if u.outages.any (·.isDue operation) then
      (.error (.unavailable (operation.name ++ " unavailable")), { u with outages })
    else
      let (result, host) := call u.host
      (result, { host, outages })

instance [Host σ] : Host (Unreliable σ) where
  parent? scope node := attempt .parent (Host.parent? scope node)
  activeNode? scope := attempt .active (Host.activeNode? scope)
  boundAt? scope node := attempt .bound (Host.boundAt? scope node)
  bindAt scope node bundle := attempt .bind (Host.bindAt scope node bundle)
  unbindAt scope node := attempt .unbind (Host.unbindAt scope node)
  unbindAll scope := attempt .remove (Host.unbindAll scope)

end Unreliable

end StatVars
