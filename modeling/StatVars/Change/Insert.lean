import StatVars.Change.Write
import StatVars.Template

/-!
# Inserting

`insert` puts a new member into a container. It is completed from the template of the container, and
an item without a template from its neighbour.
-/

namespace StatVars.Change

def declaredTemplate (vars : Variables) (p : Path) : Option Json :=
  (vars.schema.at? p).bind Schema.template?

/-- A new field, completed from the template. -/
def completeField (template : Option Json) (v : Json) : Json :=
  match template with
  | some template => v.complete template
  | none => v

def insertItem (p : Path) (items : List Json) (place : Nat) (v : Json) : Attempt Change := do
  let vars ← get
  guarded (vars.schema.checkInsert vars.data p (.index place))
  let item := v.completeItem (declaredTemplate vars p) items place
  overwrite p (.arr (items.insertIdx place item))
  return ⟨p.child (.index place), none, some item⟩

def insertField (p : Path) (fields : List (String × Json)) (k : String) (v : Json) :
    Attempt Change := do
  let vars ← get
  guarded (vars.schema.checkInsert vars.data p (.key k))
  let old := Table.get? fields k
  let new := if old.isSome then v else completeField (declaredTemplate vars p) v
  overwrite p (.obj (Table.insert fields k new))
  return ⟨p.child (.key k), old, some new⟩

/-- Lays fields over those of an object, completing the new ones. -/
def mergeFields (template : Option Json) (fields more : List (String × Json)) :
    List (String × Json) :=
  more.foldl
    (fun t f =>
      Table.insert t f.1 (if Table.contains t f.1 then f.2 else completeField template f.2))
    fields

def merge (p : Path) (fields : List (String × Json)) (v : Json) : Attempt Change :=
  match v with
  | .obj more => do
    let vars ← get
    (Table.keys more).forM fun k => liftM (guarded (vars.schema.checkInsert vars.data p (.key k)))
    let new := .obj (mergeFields (declaredTemplate vars p) fields more)
    overwrite p new
    return ⟨p, some (.obj fields), some new⟩
  | _ => throw (mismatch p "only an object can be merged into an object")

/-- The place that a value names. -/
def placeOf? : Json → Option Nat
  | .num n => (Json.num n).asNat?
  | .str s => (Step.key s).asIndex?
  | _ => none

def placeOf (v : Json) : Except CommandError Nat :=
  match placeOf? v with
  | some place => .ok place
  | none => .error (.schema (.notAnIndex (keyText v)))

/-- The command `insert`. With one argument it appends to an array or lays an object over an object;
with two the first one is the place or the name of the second. -/
def insert (c : Config) (p : Path) (args : List Command.Argument) : Attempt Change := do
  let value (arg : Command.Argument) : Except CommandError Json :=
    resolveValue c p arg "undefined cannot be stored here"
  match ← present p ((← get).data.get? p) with
  | .arr items =>
    match args with
    | [v] => insertItem p items items.length (← value v)
    | [k, v] =>
      let k ← value k
      let v ← value v
      insertItem p items (← placeOf k) v
    | _ => throw (mismatch p "insert takes a value, or a key and a value")
  | .obj fields =>
    match args with
    | [v] => merge p fields (← value v)
    | [k, v] =>
      let k ← value k
      let v ← value v
      insertField p fields (keyText k) v
    | _ => throw (mismatch p "insert takes a value, or a key and a value")
  | _ => throw (.schema (.primitiveParent p.text))

end StatVars.Change
