import StatVars.Change.Basic
import StatVars.Config
import StatVars.Described

/-!
# Writing and removing

`set` writes a value at a path, creating what is missing, and `delete` removes what is at a path. A
value that is written over a described one replaces its scalar and leaves the description, unless it
brings a description of its own.
-/

namespace StatVars.Change

/-- A text that writes a number becomes the number if it replaces one. -/
def coerceLike (old new : Json) : Json :=
  match old, new with
  | .num _, .str s =>
    match (Json.str s).asNumber?.bind fun x => Number.ofBinary64? (.finite x) with
    | some n => .num n
    | none => .str s
  | _, v => v

/-- Whether a value brings a description. -/
def carriesDescription : Json → Bool
  | .obj fields => Table.contains fields "description"
  | v => v.isDescribed

/-- The value for which an object with nothing but the field `value` stands. -/
def unwrapValue : Json → Json
  | .obj [(k, v)] => if k = "value" then v else .obj [(k, v)]
  | v => v

def deleteAt (p : Path) : Attempt Change := do
  let vars ← get
  guarded (vars.schema.checkDelete vars.data p)
  let removed ← remove p
  return ⟨p, some removed, none⟩

def setRoot (p : Path) (l : Literal) : Attempt Change :=
  match l with
  | .value (.obj fields) => do
    let vars ← get
    (Table.keys fields).forM fun k => liftM (guarded (vars.schema.checkSet vars.data [.key k]))
    match vars.data with
    | .obj root =>
      let data := .obj (Table.insertAll root fields)
      set { vars with data }
      return ⟨p, some vars.data, some data⟩
    | _ => throw (mismatch p "the root is not an object")
  | _ => throw (mismatch p "the root can only be set to an object")

def createAt (p : Path) (l : Literal) : Attempt Change :=
  match l with
  | .undefined => throw (notFound p)
  | .value v => do
    let vars ← get
    guarded (vars.schema.checkSet vars.data p)
    create p v
    return ⟨p, none, some v⟩

/-- Takes the value at the path away: an item of an array becomes `null`, anything else is removed.
-/
def unsetAt (p : Path) (current : Json) : Attempt Change := do
  let vars ← get
  match p.splitLast?.bind fun (parent, _) => vars.data.get? parent with
  | some (.arr _) =>
    overwrite p .null
    return ⟨p, some current, some .null⟩
  | _ => deleteAt p

/-- The scalar of a described value if `v` is to replace it alone. -/
def describedSlot? (current v : Json) : Option Json :=
  if carriesDescription v then none else current.described?

def replaceAt (p : Path) (current v : Json) : Attempt Change :=
  match describedSlot? current v with
  | some old => do
    let new := coerceLike old (unwrapValue v)
    overwrite p (current.setDescribed new)
    return ⟨p, some old, some new⟩
  | none => do
    let new := coerceLike current v
    overwrite p new
    return ⟨p, some current, some new⟩

def resolve (c : Config) (a : Command.Argument) : Except CommandError Literal :=
  (a.resolve c.literals).mapError .value

/-- Reads an argument that has to be a value. -/
def resolveValue (c : Config) (p : Path) (a : Command.Argument) (refusal : String) :
    Except CommandError Json := do
  match ← resolve c a with
  | .value v => return v
  | .undefined => .error (mismatch p refusal)

/-- The command `set`. The last argument is the value, and those before it do not matter. -/
def set (c : Config) (p : Path) (args : List Command.Argument) : Attempt Change :=
  match args.getLast? with
  | none => throw (mismatch p "set needs a value")
  | some arg => do
    let l ← resolve c arg
    if p.isEmpty then setRoot p l
    else
      match (← get).data.get? p, l with
      | none, l => createAt p l
      | some current, .undefined => unsetAt p current
      | some current, .value v => replaceAt p current v

/-- The step to what is to be deleted from a container: a place of an array or the first item equal
to the target, or a field of an object. -/
def targetStep (vars : Variables) (p : Path) (target : Json) : Except CommandError Step :=
  match vars.data.get? p with
  | some (.arr items) =>
    let place := match target with
      | .num _ => target.asNat?.bind fun n => if n < items.length then some n else none
      | v => items.findIdx? fun item => item.same v
    match place with
    | some n => .ok (.index n)
    | none => .error (.schema (.notFound (p.text ++ " contains no " ++ target.toText)))
  | some (.obj _) => .ok (.key (keyText target))
  | some _ => .error (.schema (.primitiveParent p.text))
  | none => .error (notFound p)

/-- The command `delete`. With an argument it removes a member of what is at the path. -/
def delete (c : Config) (p : Path) (args : List Command.Argument) : Attempt Change :=
  match args.head? with
  | none => deleteAt p
  | some arg => do
    let target ← resolveValue c p arg "undefined names nothing to delete"
    deleteAt (p.child (← targetStep (← get) p target))

end StatVars.Change
