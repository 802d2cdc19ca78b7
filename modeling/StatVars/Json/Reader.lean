import StatVars.Json.Basic
import StatVars.Number.Estimate

/-!
# Reading JSON texts

The reader takes exactly the texts of the standard grammar whose numbers do not overflow, whose
strings have no lone surrogates and whose containers are nested less than 128 deep. Numbers other
than integers are taken by any `FloatReader`; the reader of documents calculates them in double
precision. `readRaw?` keeps repeated fields as they stand, `read?` merges them.
-/

namespace StatVars.Json

/-- The blanks that may stand between the parts of a text. -/
def isSpace (c : Char) : Bool :=
  c == ' ' || c == '\t' || c == '\n' || c == '\r'

def skipSpace (s : List Char) : List Char :=
  s.dropWhile isSpace

/-- What follows `word` at the start of the text. -/
def dropPrefix? : (word s : List Char) → Option (List Char)
  | [], s => some s
  | _ :: _, [] => none
  | a :: word, b :: s => if a = b then dropPrefix? word s else none

/-! ## Strings -/

/-- The value of a hexadecimal digit. -/
def hexDigit? (c : Char) : Option Nat :=
  if c.isDigit then some (c.toNat - '0'.toNat)
  else if 'a' ≤ c && c ≤ 'f' then some (c.toNat - 'a'.toNat + 10)
  else if 'A' ≤ c && c ≤ 'F' then some (c.toNat - 'A'.toNat + 10)
  else none

def hex4? (a b c d : Char) : Option Nat := do
  return (((← hexDigit? a) * 16 + (← hexDigit? b)) * 16 + (← hexDigit? c)) * 16 + (← hexDigit? d)

/-- Whether a code unit is the first half of a pair. -/
def isHighHalf (n : Nat) : Bool :=
  0xD800 ≤ n && n ≤ 0xDBFF

/-- Whether a code unit is the second half of a pair. -/
def isLowHalf (n : Nat) : Bool :=
  0xDC00 ≤ n && n ≤ 0xDFFF

/-- The character that a pair of halves stands for. -/
def joinHalves (high low : Nat) : Char :=
  Char.ofNat (0x10000 + (high - 0xD800) * 0x400 + (low - 0xDC00))

def letterEscape? (c : Char) : Option Char :=
  if c == '"' || c == '\\' || c == '/' then some c
  else if c == 'n' then some '\n'
  else if c == 't' then some '\t'
  else if c == 'r' then some '\r'
  else if c == 'b' then some '\x08'
  else if c == 'f' then some '\x0c'
  else none

/-- Puts a character before what was read behind it. -/
def putFirst (c : Char) (r : Option (List Char × List Char)) : Option (List Char × List Char) :=
  r.map fun (t, rest) => (c :: t, rest)

/-- Reads a string behind its opening quote. -/
def readString : List Char → Option (List Char × List Char)
  | [] => none
  | '"' :: s => some ([], s)
  | '\\' :: 'u' :: a :: b :: c :: d :: s =>
    match hex4? a b c d with
    | none => none
    | some n =>
      if isLowHalf n then none
      else if isHighHalf n then
        match s with
        | '\\' :: 'u' :: a :: b :: c :: d :: s =>
          match hex4? a b c d with
          | none => none
          | some m => if isLowHalf m then putFirst (joinHalves n m) (readString s) else none
        | _ => none
      else putFirst (Char.ofNat n) (readString s)
  | '\\' :: c :: s =>
    match letterEscape? c with
    | some e => putFirst e (readString s)
    | none => none
  | c :: s => if c.toNat < 0x20 || c == '\\' then none else putFirst c (readString s)

/-! ## Numbers -/

def takeWhole? : List Char → Option (List Char × List Char)
  | '0' :: s => if s.head?.any Char.isDigit then none else some (['0'], s)
  | s =>
    let digits := s.takeWhile Char.isDigit
    if digits.isEmpty then none else some (digits, s.dropWhile Char.isDigit)

/-- What is taken in double precision for a sign, the digits before and behind a point and an
exponent. -/
abbrev FloatReader := (negative : Bool) → (whole fraction : List Char) → (exponent : Int) → Binary64

/-- The number of this sign, these digits and this exponent in a text. Without a fraction and an
exponent it is an integer if it fits one and is not the negative zero. -/
def numberOf? (float : FloatReader) (negative : Bool) (whole : List Char)
    (fraction : Option (List Char)) (exponent : Option Int) : Option Number :=
  let value : Int := Decimal.digitsValue whole
  let signed := if negative then -value else value
  match fraction, exponent, Number.ofInt? signed with
  | none, none, some n =>
    if negative && signed == 0 then some (.float (.zero true)) else some n
  | _, _, _ => (float negative whole (fraction.getD []) (exponent.getD 0)).toFinite?.map .float

/-- The digits behind a point at the start of the text, if there is a point. -/
def takeFraction? : List Char → Option (Option (List Char) × List Char)
  | '.' :: s =>
    let digits := s.takeWhile Char.isDigit
    if digits.isEmpty then none else some (some digits, s.dropWhile Char.isDigit)
  | s => some (none, s)

/-- The exponent at the start of the text, if there is one. -/
def takeExponent? : List Char → Option (Option Int × List Char)
  | c :: s =>
    if c == 'e' || c == 'E' then
      let (negative, t) := Decimal.takeSign s
      let digits := t.takeWhile Char.isDigit
      let value : Int := Decimal.digitsValue digits
      if digits.isEmpty then none
      else some (some (if negative then -value else value), t.dropWhile Char.isDigit)
    else some (none, c :: s)
  | [] => some (none, [])

def readNumber (float : FloatReader) (s : List Char) : Option (Number × List Char) := do
  let (negative, s) := match s with
    | '-' :: s => (true, s)
    | s => (false, s)
  let (whole, s) ← takeWhole? s
  let (fraction, s) ← takeFraction? s
  let (exponent, s) ← takeExponent? s
  return (← numberOf? float negative whole fraction exponent, s)

/-! ## Values -/

/-- A reader of one part at the start of a text. -/
abbrev PartReader (α : Type) := List Char → Option (α × List Char)

/-- Reads the name of a field and the colon behind it; `text` reads a string behind its opening
quote. -/
def readKey (text : PartReader (List Char)) (s : List Char) : Option (String × List Char) :=
  match skipSpace s with
  | '"' :: s => do
    let (key, s) ← text s
    match skipSpace s with
    | ':' :: s => some (.ofList key, s)
    | _ => none
  | _ => none

/-- Reads the items of an array that has any, up to its closing bracket. `fuel` bounds their
number. -/
def readItems (value : PartReader Json) : (fuel : Nat) → PartReader (List Json)
  | 0, _ => none
  | fuel + 1, s => do
    let (v, s) ← value s
    match skipSpace s with
    | ',' :: s =>
      let (vs, s) ← readItems value fuel s
      return (v :: vs, s)
    | ']' :: s => return ([v], s)
    | _ => none

/-- Reads the fields of an object that has any, up to its closing brace; `value` reads the value of
a field of this name. `fuel` bounds their number. -/
def readFields (text : PartReader (List Char)) (value : String → PartReader Json) :
    (fuel : Nat) → PartReader (List (String × Json))
  | 0, _ => none
  | fuel + 1, s => do
    let (k, s) ← readKey text s
    let (v, s) ← value k s
    match skipSpace s with
    | ',' :: s =>
      let (fs, s) ← readFields text value fuel s
      return ((k, v) :: fs, s)
    | '\x7d' :: s => return ([(k, v)], s)
    | _ => none

/-- Reads a value with containers nested at most `depth` deep. -/
def readValue (float : FloatReader) (depth : Nat) (s : List Char) : Option (Json × List Char) :=
  match skipSpace s with
  | [] => none
  | '"' :: s => (readString s).map fun (t, s) => (.str (.ofList t), s)
  | '[' :: s =>
    match depth with
    | 0 => none
    | depth + 1 =>
      match skipSpace s with
      | ']' :: s => some (.arr [], s)
      | s => (readItems (readValue float depth) s.length s).map fun (vs, s) => (.arr vs, s)
  | '\x7b' :: s =>
    match depth with
    | 0 => none
    | depth + 1 =>
      match skipSpace s with
      | '\x7d' :: s => some (.obj [], s)
      | s =>
        (readFields readString (fun _ => readValue float depth) s.length s).map fun (fs, s) =>
          (.obj fs, s)
  | 'n' :: s => (dropPrefix? "ull".toList s).map fun s => (.null, s)
  | 't' :: s => (dropPrefix? "rue".toList s).map fun s => (.bool true, s)
  | 'f' :: s => (dropPrefix? "alse".toList s).map fun s => (.bool false, s)
  | s => (readNumber float s).map fun (n, s) => (.num n, s)

/-- The depth to which containers may be nested in a text. -/
def maxDepth : Nat := 127

/-- Reads a text that is one value. -/
def readWith? (float : FloatReader) (text : List Char) : Option Json := do
  let (v, rest) ← readValue float maxDepth text
  if (skipSpace rest).isEmpty then some v else none

def readRaw? (text : List Char) : Option Json :=
  readWith? Decimal.estimate text

def read? (text : List Char) : Option Json :=
  (readRaw? text).map mergeRepeated

end StatVars.Json
