import StatVars.Json.Basic

/-!
# JSON texts

A value is written either without any blanks or over several lines with an indent of two spaces.
Characters outside of ASCII are written as they are.
-/

namespace StatVars.Json

def escape (c : Char) : List Char :=
  if c == '"' then ['\\', '"']
  else if c == '\\' then ['\\', '\\']
  else if c == '\n' then ['\\', 'n']
  else if c == '\r' then ['\\', 'r']
  else if c == '\t' then ['\\', 't']
  else if c.toNat == 0x08 then ['\\', 'b']
  else if c.toNat == 0x0C then ['\\', 'f']
  else if c.toNat < 0x20 then
    '\\' :: 'u' :: '0' :: '0' :: [Nat.digitChar (c.toNat / 16), Nat.digitChar (c.toNat % 16)]
  else [c]

/-- A text as a string between double quotes. -/
def writeString (s : List Char) : List Char :=
  '"' :: s.flatMap escape ++ ['"']

def writeScalar : Json → List Char
  | .null => "null".toList
  | .bool b => if b then "true".toList else "false".toList
  | .num n => n.toText.toList
  | .str s => writeString s.toList
  | .arr _ => []
  | .obj _ => []

mutual

def write : Json → List Char
  | .arr items => '[' :: writeItems items ++ [']']
  | .obj fields => '\x7b' :: writeFields fields ++ ['\x7d']
  | v => writeScalar v

def writeItems : List Json → List Char
  | [] => []
  | [v] => write v
  | v :: vs => write v ++ ',' :: writeItems vs

def writeFields : List (String × Json) → List Char
  | [] => []
  | [(k, v)] => writeString k.toList ++ ':' :: write v
  | (k, v) :: fs => writeString k.toList ++ ':' :: write v ++ ',' :: writeFields fs

end

def toText (v : Json) : String :=
  .ofList v.write

/-- The start of a line that is indented `depth` times. -/
def newLine (depth : Nat) : List Char :=
  '\n' :: List.replicate (2 * depth) ' '

mutual

/-- The value over several lines, the lines inside it being indented one time more than `depth`.
Empty containers stay on one line. -/
def writeLines (depth : Nat) : Json → List Char
  | .arr [] => ['[', ']']
  | .obj [] => ['\x7b', '\x7d']
  | .arr items => '[' :: itemLines (depth + 1) items ++ newLine depth ++ [']']
  | .obj fields => '\x7b' :: fieldLines (depth + 1) fields ++ newLine depth ++ ['\x7d']
  | v => writeScalar v

def itemLines (depth : Nat) : List Json → List Char
  | [] => []
  | [v] => newLine depth ++ writeLines depth v
  | v :: vs => newLine depth ++ writeLines depth v ++ ',' :: itemLines depth vs

def fieldLines (depth : Nat) : List (String × Json) → List Char
  | [] => []
  | [(k, v)] => newLine depth ++ writeString k.toList ++ ':' :: ' ' :: writeLines depth v
  | (k, v) :: fs =>
    newLine depth ++ writeString k.toList ++ ':' :: ' ' :: writeLines depth v ++
      ',' :: fieldLines depth fs

end

def toLines (v : Json) : String :=
  .ofList (v.writeLines 0)

end StatVars.Json
