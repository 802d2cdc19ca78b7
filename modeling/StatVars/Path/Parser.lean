import StatVars.Path.Format

/-!
# Reading paths

A path is a first segment or bracket and then any number of brackets and of segments behind points.
Segments and brackets hold a place, a name, or a quoted name. Blanks around them do not count.
-/

namespace StatVars.Path

def isQuote (c : Char) : Bool :=
  c == '"' || c == '\''

/-- Reads a quoted name behind its opening quote. A backslash makes a quote or a backslash stand for
itself and is kept before anything else. -/
def takeQuoted? (quote : Char) : List Char → Option (List Char × List Char)
  | [] => none
  | ['\\'] => none
  | '\\' :: c :: s =>
    (takeQuoted? quote s).map fun (k, rest) =>
      (if c == '\\' || isQuote c then c :: k else '\\' :: c :: k, rest)
  | c :: s =>
    if c = quote then some ([], s)
    else (takeQuoted? quote s).map fun (k, rest) => (c :: k, rest)

/-- Reads the quoted name that starts at `s` with the character `quote`. -/
def quotedKey (total : Nat) (s : List Char) (quote : Char) :
    Except PathError (String × List Char) :=
  match takeQuoted? quote (s.drop 1) with
  | some (k, rest) => .ok (.ofList k, rest)
  | none => .error (.unterminatedQuote (Text.position total s))

/-- The step that an unquoted segment is. -/
def bareStep (s : List Char) : Step :=
  match place? s with
  | some place => .index place
  | none => .key (.ofList s)

def inSegment (c : Char) : Bool :=
  c != '.' && c != '[' && c != ']' && !isQuote c

/-- Reads a segment. -/
def segment (total : Nat) (s : List Char) : Except PathError (Step × List Char) :=
  match s with
  | [] => .error (.emptySegment (Text.position total s))
  | c :: _ =>
    if isQuote c then (quotedKey total s c).map fun (k, rest) => (.key k, rest)
    else if c == '.' || c == '[' then .error (.emptySegment (Text.position total s))
    else
      let content := Text.trim (s.takeWhile inSegment)
      let rest := s.dropWhile inSegment
      let step :=
        if content.isEmpty then .error (.emptySegment (Text.position total s))
        else .ok (bareStep content, rest)
      match rest with
      | [] => step
      | d :: _ =>
        if d == ']' then .error (.unbalancedBracket (Text.position total rest))
        else if isQuote d then .error (.unexpectedChar (Text.position total rest) d)
        else step

/-- The step that the unquoted content of a bracket is. -/
def bracketStep (content : List Char) : Except PathError Step :=
  if isIndex content then
    match place? content with
    | some place => .ok (.index place)
    | none => .error (.invalidIndex (.ofList content))
  else .ok (.key (.ofList content))

def inBracket (c : Char) : Bool :=
  c != '[' && c != ']' && !isQuote c

/-- Reads the rest of a bracket behind the quoted name in it; `start` is where the bracket opens. -/
def closeBracket (total start : Nat) (k : String) (s : List Char) :
    Except PathError (Step × List Char) :=
  match s.dropWhile Text.isBlank with
  | [] => .error (.unbalancedBracket start)
  | c :: rest =>
    if c == ']' then .ok (.key k, rest)
    else .error (.unexpectedChar (Text.position total (c :: rest)) c)

/-- Reads a bracket without quotes behind its opening; `start` is where it opens. -/
def plainBracket (total start : Nat) (s : List Char) : Except PathError (Step × List Char) :=
  match s.dropWhile inBracket with
  | [] => .error (.unbalancedBracket start)
  | c :: rest =>
    if c == ']' then
      let content := Text.trim (s.takeWhile inBracket)
      if content.isEmpty then .error (.emptyBracket start)
      else (bracketStep content).map fun step => (step, rest)
    else if c == '[' then .error (.unbalancedBracket (Text.position total (c :: rest)))
    else .error (.unexpectedChar (Text.position total (c :: rest)) c)

/-- Reads the bracket that opens at `s`. -/
def bracket (total : Nat) (s : List Char) : Except PathError (Step × List Char) :=
  let start := Text.position total s
  let inner := (s.drop 1).dropWhile Text.isBlank
  match inner with
  | [] => .error (.unbalancedBracket start)
  | c :: _ =>
    if isQuote c then do
      let (k, rest) ← quotedKey total inner c
      closeBracket total start k rest
    else plainBracket total start inner

/-- Reads the step behind the first one that starts at `c :: s`. -/
def nextStep (total : Nat) (c : Char) (s : List Char) : Except PathError (Step × List Char) :=
  if c == '.' then segment total s
  else if c == '[' then bracket total (c :: s)
  else if c == ']' then .error (.unbalancedBracket (Text.position total (c :: s)))
  else .error (.unexpectedChar (Text.position total (c :: s)) c)

/-- Reads the steps behind the first one. There is room for `room` of them. -/
def moreSteps (total : Nat) : (room : Nat) → List Char → Except PathError Path
  | _, [] => .ok []
  | room, c :: s =>
    match nextStep total c s with
    | .error e => .error e
    | .ok (step, rest) =>
      match room with
      | 0 => .error .tooDeep
      | room + 1 => (moreSteps total room rest).map (step :: ·)

/-- Reads a path that has no blanks at its ends. -/
def parseTrimmed (s : List Char) : Except PathError Path :=
  let total := Text.byteLength s
  match s with
  | [] => .ok []
  | c :: _ => do
    let (step, rest) ← if c == '[' then bracket total s else segment total s
    return step :: (← moreSteps total (maxSteps - 1) rest)

def parseChars (s : List Char) : Except PathError Path :=
  if maxBytes < Text.byteLength s then .error .tooLong else parseTrimmed (Text.trim s)

def parse (s : String) : Except PathError Path :=
  parseChars s.toList

/-- The canonical text of the path that `s` spells. -/
def canonicalize (s : String) : Except PathError String :=
  (parse s).map text

end StatVars.Path
