import StatVars.Json.Basic
import StatVars.Path.Basic

/-!
# Values at paths

What a path leads to in a value, and the value with what is there replaced.
-/

namespace StatVars.Json

/-- What the step leads to. -/
def child? (v : Json) (s : Step) : Option Json :=
  match v with
  | .arr items => s.asIndex?.bind (items[·]?)
  | .obj fields => Table.get? fields s.asKey
  | _ => none

/-- The value with what the step leads to replaced by what `f` makes of it. -/
def modifyChild? (f : Json → Option Json) (v : Json) (s : Step) : Option Json :=
  match v with
  | .arr items => do
    let i ← s.asIndex?
    let item ← items[i]?
    return .arr (items.set i (← f item))
  | .obj fields => (Table.modify? f fields s.asKey).map .obj
  | _ => none

def get? (v : Json) : Path → Option Json
  | [] => some v
  | s :: p => (v.child? s).bind fun c => get? c p

/-- Whether the path leads to anything. -/
def resolves (v : Json) (p : Path) : Bool :=
  (v.get? p).isSome

/-- The value with what the path leads to replaced by what `f` makes of it. -/
def modify? (f : Json → Option Json) (v : Json) : Path → Option Json
  | [] => f v
  | s :: p => modifyChild? (fun c => modify? f c p) v s

def replace? (v : Json) (p : Path) (w : Json) : Option Json :=
  v.modify? (fun _ => some w) p

/-- How many steps of the path can be taken. -/
def resolvedSteps (v : Json) : Path → Nat
  | [] => 0
  | s :: p =>
    match v.child? s with
    | some c => resolvedSteps c p + 1
    | none => 0

@[simp] theorem get?_nil (v : Json) : v.get? [] = some v := rfl

theorem get?_append (v : Json) (p q : Path) :
    v.get? (p ++ q) = (v.get? p).bind (·.get? q) := by
  induction p generalizing v with
  | nil => rfl
  | cons s p ih => simp [get?, ih, Option.bind_assoc]

end StatVars.Json
