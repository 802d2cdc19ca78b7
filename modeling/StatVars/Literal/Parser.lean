import StatVars.Literal.Relaxed

/-!
# Reading literals

The rules are tried in this order: the four words, a number, an object or array, a quoted string,
one operation on two numbers, and, if the options allow it, the text itself. Objects and arrays are
read in the standard notation if they can be, and in the relaxed notation otherwise.
-/

namespace StatVars.Literal

/-- Reads an object or an array. -/
def parseStructure (limit : Nat) (s : List Char) : Except SyntaxError Json :=
  match Json.read? s with
  | some v => if limit < v.depth then .error (.tooDeep limit) else .ok v
  | none => Relaxed.parse limit s

def quotedString? (s : List Char) : Option String :=
  match s with
  | [] => none
  | c :: _ =>
    if c == '"' then
      match Json.read? s with
      | some (.str t) => some t
      | _ => Relaxed.string? c s
    else if Text.isQuote c then Relaxed.string? c s
    else none

/-- The result of an operation, if the character names one. -/
def operate? (op : Char) (x y : Binary64) : Option (Except SyntaxError Binary64) :=
  if op == '+' then some (.ok (x.add y))
  else if op == '-' then some (.ok (x.sub y))
  else if op == '*' then some (.ok (x.mul y))
  else if op == '/' then some (if y.isZero then .error .divisionByZero else .ok (x.div y))
  else none

/-- The result of a text that is an operation on two numbers. -/
def arithmetic? (s : List Char) : Option (Except SyntaxError Binary64) := do
  let (left, rest) ← Decimal.takeNumeral? s
  match Relaxed.skipBlank rest with
  | [] => none
  | op :: rest =>
    let right ← Decimal.ofNumeral? (Relaxed.skipBlank rest)
    operate? op left.toBinary64 right.toBinary64

/-- Whether the character is dropped from the ends of a text that stands for itself. -/
def isBareMark (c : Char) : Bool :=
  Text.isQuote c || c == '\\'

/-- Reads a literal that is not blank and has no blanks at its ends. -/
def parseTrimmed (options : Options) (s : List Char) : Except SyntaxError Literal :=
  if s = "true".toList then .ok (.value (.bool true))
  else if s = "false".toList then .ok (.value (.bool false))
  else if s = "null".toList then .ok (.value .null)
  else if s = "undefined".toList then .ok .undefined
  else
    match Decimal.ofNumeral? s with
    | some d => (numberValue d.toBinary64).map .value
    | none =>
      if s.head? == some '\x7b' || s.head? == some '[' then
        (parseStructure options.maxDepth s).map .value
      else
        match quotedString? s with
        | some t => .ok (.value (.str t))
        | none =>
          match arithmetic? s with
          | some result => (result.bind numberValue).map .value
          | none =>
            if options.bareStrings then
              .ok (.value (.str (.ofList (Text.trimWhile isBareMark s))))
            else .error (.noMatch (.ofList s))

def parse (options : Options) (source : String) : Except SyntaxError Literal :=
  let s := Text.trim source.toList
  if s.isEmpty then .error .empty else parseTrimmed options s

end StatVars.Literal
