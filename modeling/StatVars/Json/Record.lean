import StatVars.Json.Reader

/-!
# Records in JSON texts

A record is a value with a fixed list of named fields. It is written as an object, whose other
fields are passed over, or as an array of its first fields in order. What is passed over only has to
keep to the grammar: how large its numbers are, what its escapes stand for and how deep it nests do
not matter.
-/

namespace StatVars.Json

def skimString : List Char → Option (List Char × List Char)
  | [] => none
  | '"' :: s => some ([], s)
  | '\\' :: 'u' :: a :: b :: c :: d :: s => if (hex4? a b c d).isSome then skimString s else none
  | '\\' :: c :: s => if (letterEscape? c).isSome then skimString s else none
  | c :: s => if c.toNat < 0x20 || c == '\\' then none else skimString s

def skimNumber (s : List Char) : Option (Json × List Char) := do
  let s := match s with
    | '-' :: s => s
    | s => s
  let (_, s) ← takeWhole? s
  let (_, s) ← takeFraction? s
  let (_, s) ← takeExponent? s
  return (.null, s)

/-- Passes over a value, leaving nothing of it. `fuel` bounds how deep it nests. -/
def skimValue (fuel : Nat) (s : List Char) : Option (Json × List Char) :=
  match skipSpace s with
  | [] => none
  | '"' :: s => (skimString s).map fun (_, s) => (.null, s)
  | '[' :: s =>
    match fuel with
    | 0 => none
    | fuel + 1 =>
      match skipSpace s with
      | ']' :: s => some (.null, s)
      | s => (readItems (skimValue fuel) s.length s).map fun (_, s) => (.null, s)
  | '\x7b' :: s =>
    match fuel with
    | 0 => none
    | fuel + 1 =>
      match skipSpace s with
      | '\x7d' :: s => some (.null, s)
      | s =>
        (readFields skimString (fun _ => skimValue fuel) s.length s).map fun (_, s) => (.null, s)
  | 'n' :: s => (dropPrefix? "ull".toList s).map fun s => (.null, s)
  | 't' :: s => (dropPrefix? "rue".toList s).map fun s => (.null, s)
  | 'f' :: s => (dropPrefix? "alse".toList s).map fun s => (.null, s)
  | s => skimNumber s

/-- Reads the value of a field of a record, or passes over it if the record has no such field. -/
def readMember (names : List String) (length : Nat) (name : String) : PartReader Json :=
  if name ∈ names then readValue Decimal.estimate (maxDepth - 1) else skimValue length

/-- Whether no name stands for two fields. -/
def namesDiffer (fields : List (String × Json)) : Bool :=
  (Table.keys fields).Nodup

/-- Reads the fields of a record with these names. Each name stands for one field at most. -/
def readRecord? (names : List String) (text : List Char) : Option (List (String × Json)) := do
  let (fields, rest) ← match skipSpace text with
    | '\x7b' :: s =>
      match skipSpace s with
      | '\x7d' :: s => some ([], s)
      | s => readFields readString (readMember names s.length) s.length s
    | '[' :: s =>
      match skipSpace s with
      | ']' :: s => some ([], s)
      | s => do
        let (items, s) ← readItems (readValue Decimal.estimate (maxDepth - 1)) s.length s
        if items.length ≤ names.length then some (names.zip items, s) else none
    | _ => none
  let known := fields.filter fun f => f.1 ∈ names
  if (skipSpace rest).isEmpty && namesDiffer known then some known else none

/-- The names of a choice without contents: a string, or an object that holds nothing under it. -/
def choiceName? : Json → Option String
  | .str s => some s
  | .obj [(s, .null)] => some s
  | _ => none

/-- The value, or nothing if there is none or it is `null`. -/
def orNull? (v : Option Json) : Option Json :=
  match v with
  | some .null => none
  | v => v

end StatVars.Json
