import StatVars.Literal.Basic
import StatVars.Json.Reader
import StatVars.Text.Blank
import StatVars.Text.Quotes
import StatVars.Text.Utf8

/-!
# Objects and arrays in relaxed notation

Beside the standard notation objects and arrays may have single or back quotes around strings, keys
without quotes and a comma behind the last part. Positions of errors count bytes from the start of
the text, whose length in bytes is passed along as `total`.
-/

namespace StatVars.Literal.Relaxed

def skipBlank (s : List Char) : List Char :=
  s.dropWhile Text.isBlank

/-! ## Strings -/

/-- The character of a code point; a half of a pair is replaced by the replacement character. -/
def codePoint (n : Nat) : Char :=
  if n.isValidChar then Char.ofNat n else '\ufffd'

/-- The character that four characters name by its code point. A plus sign may stand for the first
digit. -/
def namedChar? (a b c d : Char) : Option Char :=
  if a == '+' then (Json.hex4? '0' b c d).map codePoint else (Json.hex4? a b c d).map codePoint

/-- What a character behind a backslash stands for. -/
def escaped (c : Char) : Char :=
  if c == 'n' then '\n'
  else if c == 't' then '\t'
  else if c == 'r' then '\r'
  else if c == 'b' then '\x08'
  else if c == 'f' then '\x0c'
  else c

def putFirst (c : Char) (r : Except StructureError (List Char × List Char)) :
    Except StructureError (List Char × List Char) :=
  r.map fun (t, rest) => (c :: t, rest)

/-- Reads a string behind its opening quote. -/
def takeString (total : Nat) (quote : Char) :
    List Char → Except StructureError (List Char × List Char)
  | [] => .error (.unterminatedString total)
  | ['\\'] => .error (.unterminatedString total)
  | '\\' :: 'u' :: s =>
    if Text.byteLength (Text.takeBytes 4 s) ≠ 4 then
      .error (.truncatedEscape (Text.position total s))
    else
      match s with
      | a :: b :: c :: d :: rest =>
        match namedChar? a b c d with
        | some e => putFirst e (takeString total quote rest)
        | none => .error (.invalidEscape (Text.position total s))
      | _ => .error (.invalidEscape (Text.position total s))
  | '\\' :: c :: s => putFirst (escaped c) (takeString total quote s)
  | c :: s => if c = quote then .ok ([], s) else putFirst c (takeString total quote s)

/-! ## Keys and scalars -/

def inKey (c : Char) : Bool :=
  c != ':' && c != ',' && c != '\x7d' && !Text.isBlank c

def inScalar (c : Char) : Bool :=
  c != ',' && c != ']' && c != '\x7d' && !Text.isBlank c

/-- Lets an error of a structure stand for the whole literal. -/
def structural {α : Type} (r : Except StructureError α) : Except SyntaxError α :=
  r.mapError .invalidStructure

/-- Reads a key and the colon behind it. -/
def takeKey (total : Nat) (s : List Char) : Except StructureError (String × List Char) := do
  let (key, rest) ← match s with
    | [] => .error (.unterminatedObject total)
    | c :: t =>
      if Text.isQuote c then takeString total c t
      else
        let key := s.takeWhile inKey
        if key.isEmpty then .error (.missingKey (Text.position total s))
        else .ok (key, s.dropWhile inKey)
  match skipBlank rest with
  | ':' :: rest => return (.ofList key, rest)
  | rest => .error (.missingColon (Text.position total rest))

/-- The value of a scalar without quotes. -/
def scalar (token : List Char) : Except SyntaxError Json :=
  if token = "true".toList then .ok (.bool true)
  else if token = "false".toList then .ok (.bool false)
  else if token = "null".toList || token = "undefined".toList then .ok .null
  else
    match Decimal.ofNumeral? token with
    | some d => numberValue d.toBinary64
    | none => .error (.invalidStructure (.unexpectedToken (.ofList token)))

/-! ## Values -/

/-- A reader of one value at the start of a text. -/
abbrev ValueReader := List Char → Except SyntaxError (Json × List Char)

/-- Reads the items of an array up to its closing bracket. `fuel` exceeds the length of the text. -/
def takeItems (total : Nat) (value : ValueReader) :
    (fuel : Nat) → List Char → Except SyntaxError (List Json × List Char)
  | 0, s => .error (.invalidStructure (.unexpectedEnd (Text.position total s)))
  | fuel + 1, s =>
    match skipBlank s with
    | ']' :: rest => .ok ([], rest)
    | s => do
      let (v, rest) ← value s
      match skipBlank rest with
      | ',' :: rest =>
        let (vs, rest) ← takeItems total value fuel rest
        return (v :: vs, rest)
      | ']' :: rest => return ([v], rest)
      | rest => .error (.invalidStructure (.missingSeparator ']' (Text.position total rest)))

/-- Reads the fields of an object up to its closing brace. `fuel` exceeds the length of the text. -/
def takeFields (total : Nat) (value : ValueReader) :
    (fuel : Nat) → List Char → Except SyntaxError (List (String × Json) × List Char)
  | 0, s => .error (.invalidStructure (.unexpectedEnd (Text.position total s)))
  | fuel + 1, s =>
    match skipBlank s with
    | '\x7d' :: rest => .ok ([], rest)
    | s => do
      let (k, rest) ← structural (takeKey total s)
      let (v, rest) ← value rest
      match skipBlank rest with
      | ',' :: rest =>
        let (fs, rest) ← takeFields total value fuel rest
        return ((k, v) :: fs, rest)
      | '\x7d' :: rest => return ([(k, v)], rest)
      | rest => .error (.invalidStructure (.missingSeparator '\x7d' (Text.position total rest)))

/-- Reads a value. There is room for `room` containers around what it holds; `limit` is the number
of containers that there was room for at the start. -/
def takeValue (total limit : Nat) (room : Nat) (s : List Char) :
    Except SyntaxError (Json × List Char) :=
  match skipBlank s with
  | [] => .error (.invalidStructure (.unexpectedEnd total))
  | '\x7b' :: s =>
    match room with
    | 0 => .error (.tooDeep limit)
    | room + 1 =>
      (takeFields total (takeValue total limit room) (s.length + 1) s).map fun (fs, rest) =>
        (.obj (Table.ofEntries fs), rest)
  | '[' :: s =>
    match room with
    | 0 => .error (.tooDeep limit)
    | room + 1 =>
      (takeItems total (takeValue total limit room) (s.length + 1) s).map fun (vs, rest) =>
        (.arr vs, rest)
  | c :: s =>
    if Text.isQuote c then
      (structural (takeString total c s)).map fun (t, rest) => (.str (.ofList t), rest)
    else
      (scalar ((c :: s).takeWhile inScalar)).map fun v => (v, (c :: s).dropWhile inScalar)

def parse (limit : Nat) (s : List Char) : Except SyntaxError Json := do
  let total := Text.byteLength s
  let (v, rest) ← takeValue total limit limit s
  match skipBlank rest with
  | [] => return v
  | rest => .error (.invalidStructure (.trailingInput (Text.position total rest)))

def string? (quote : Char) (s : List Char) : Option String :=
  match takeString (Text.byteLength s) quote (s.drop 1) with
  | .ok (t, []) => some (.ofList t)
  | _ => none

end StatVars.Literal.Relaxed
