import StatVars.Path.Basic

/-!
# The text of a path

Every path has one canonical text: places stand in brackets, names follow a point if they can stand
bare, and all other names are quoted in brackets.
-/

namespace StatVars.Path

def escape (c : Char) : List Char :=
  if c == '"' || c == '\\' then ['\\', c] else [c]

/-- The text of one step; the first step of a path has no point before it. -/
def formatStep (isFirst : Bool) : Step → List Char
  | .index place => '[' :: Nat.toDigits 10 place ++ [']']
  | .key name =>
    if isBareKey name.toList then (if isFirst then [] else ['.']) ++ name.toList
    else '[' :: '"' :: name.toList.flatMap escape ++ ['"', ']']

/-- The text of the steps behind the first one. -/
def formatRest (p : Path) : List Char :=
  p.flatMap (formatStep false)

def format : Path → List Char
  | [] => []
  | s :: p => formatStep true s ++ formatRest p

/-- The canonical text of a path. -/
def text (p : Path) : String :=
  .ofList p.format

/-- The path to the container and the last step, unless the path is the root. -/
def splitLast? (p : Path) : Option (Path × Step) :=
  p.getLast?.map fun s => (p.dropLast, s)

def child (p : Path) (s : Step) : Path :=
  p ++ [s]

end StatVars.Path
