import StatVars.Statement.Arguments
import StatVars.Statement.Tag

/-!
# Finding statements

One pass over the text keeps the statements that have been opened and not closed, the counts of open
brackets and the quote around the current character. Prose between statements does not count.
Statements nest: one that closes inside the arguments of another is part of them, unless the outer
one turns out to be flawed, and then it is a statement of its own.
-/

namespace StatVars

/-- Counts of open brackets of each kind. -/
structure Depth where
  paren : Int := 0
  brace : Int := 0
  bracket : Int := 0
deriving DecidableEq

namespace Depth

/-- Whether one of the counts is below that of `base`. -/
def isBelow (d base : Depth) : Bool :=
  d.paren < base.paren || d.brace < base.brace || d.bracket < base.bracket

/-- The counts behind a character. -/
def past (d : Depth) (c : Char) : Depth :=
  if c == '(' then { d with paren := d.paren + 1 }
  else if c == '\x7b' then { d with brace := d.brace + 1 }
  else if c == '[' then { d with bracket := d.bracket + 1 }
  else if c == ')' then { d with paren := d.paren - 1 }
  else if c == '\x7d' then { d with brace := d.brace - 1 }
  else if c == ']' then { d with bracket := d.bracket - 1 }
  else d

end Depth

/-- What was found in a text: statements and diagnostics. -/
structure Extraction where
  statements : List Statement := []
  diagnostics : List Diagnostic := []
deriving DecidableEq

namespace Extraction

structure Options where
  wrapperTag : String := "UpdateVariable"
  analysisTag : String := "Analysis"
  requireSemicolon : Bool := true
deriving DecidableEq

/-- An opened statement: its verb, where it and its arguments start, the text from its arguments on,
and the counts before it. -/
structure Opened where
  verb : List Char
  start : Nat
  argsStart : Nat
  args : List Char
  base : Depth

/-- A closed statement: its verb, its start, the text of its arguments, the place of the character
that closed it, and the text behind that character. -/
structure Closed where
  verb : List Char
  start : Nat
  args : List Char
  close : Nat
  rest : List Char

/-- Where a pass over a text stands. -/
structure Scan where
  position : Nat := 0
  /-- Characters before this position are passed over. -/
  resume : Nat := 0
  /-- The character before. -/
  before : Option Char := none
  /-- The quote of the string that encloses the next character. -/
  quote : Option Char := none
  /-- The parts that are still to be left out. -/
  skips : List Span
  /-- The opened statements, the innermost first. -/
  stack : List Opened := []
  /-- The statements that closed inside opened ones, the last first. -/
  pending : List Closed := []
  depth : Depth := {}
  /-- What has been found, in the order of finding. -/
  found : Extraction := {}

namespace Scan

def reject (st : Scan) (span : Span) (flaw : Flaw) : Scan :=
  { st with found := { st.found with
      diagnostics := st.found.diagnostics ++ [⟨span, flaw⟩] } }

def record (st : Scan) (s : Statement) : Scan :=
  { st with found := { st.found with statements := st.found.statements ++ [s] } }

def isGap (c : Char) : Bool :=
  c == ' ' || c == '\t'

/-- The reason at the start of a text, if there is a `//` behind spaces and tabs, and the number of
bytes up to the end of its line. -/
def takeReason (s : List Char) : Option String × Nat :=
  match s.dropWhile isGap with
  | '/' :: '/' :: t =>
    let line := t.takeWhile (· != '\n')
    let reason := Text.trim line
    (if reason.isEmpty then none else some (.ofList reason),
      (s.takeWhile isGap).length + 2 + Text.byteLength line)
  | _ => (none, 0)

/-- Records a closed statement together with the reason behind it, unless its semicolon is missing.
The result has the position behind the statement. -/
def finish (options : Options) (st : Scan) (c : Closed) : Scan × Nat :=
  let complete (stop : Nat) (rest : List Char) : Scan × Nat :=
    let (reason, length) := takeReason rest
    (st.record ⟨.ofList c.verb, Statement.splitArguments c.args, reason, ⟨c.start, stop + length⟩⟩,
      stop + length)
  match c.rest with
  | ';' :: rest => complete (c.close + 2) rest
  | rest =>
    if options.requireSemicolon then
      (st.reject ⟨c.start, c.close + 1⟩ .missingSemicolon, c.close + 1)
    else complete (c.close + 1) rest

/-- Finishes the statements that closed inside opened ones. -/
def flush (options : Options) (st : Scan) : Scan :=
  st.pending.reverse.foldl (fun st c => (finish options st c).1) { st with pending := [] }

/-- Passes over all opened statements, up to byte `stop`. -/
def abandon (options : Options) (st : Scan) (stop : Nat) (flaw : Flaw) : Scan :=
  let st' := st.stack.reverse.foldl (fun st o => st.reject ⟨o.start, stop⟩ flaw) st
  flush options { st' with stack := [], depth := {} }

/-- The statement that a character behind `rest` has closed. -/
def Opened.closedAt (o : Opened) (position : Nat) (rest : List Char) : Closed :=
  ⟨o.verb, o.start, Text.takeBytes (position - o.argsStart) o.args, position, rest⟩

/-- Closes the opened statements that a closing bracket ends, where `stack` holds those still to be
looked at. One whose counts are those before it is complete; one whose counts have fallen below them
is flawed. -/
def settle (options : Options) (rest : List Char) : List Opened → Scan → Scan
  | [], st => { st with stack := [] }
  | top :: stack, st =>
    if st.depth = top.base then
      let closed := Opened.closedAt top st.position rest
      let pending := st.pending.dropWhile fun c => top.start < c.start
      match stack with
      | [] =>
        let st' := flush options { st with stack := [], pending := pending }
        let (st', stop) := finish options { st' with depth := {} } closed
        { st' with resume := stop }
      | _ => { st with stack := stack, pending := closed :: pending }
    else if st.depth.isBelow top.base then
      let st' := st.reject ⟨top.start, st.position + 1⟩ .unbalanced
      match stack with
      | [] => flush options { st' with stack := [], depth := {} }
      | _ => settle options rest stack st'
    else { st with stack := top :: stack }

def inVerb (c : Char) : Bool :=
  c.isAlphanum || c == '_'

/-- The verb and the text from the arguments on, if a statement starts with an underscore between
`before` and `rest`. -/
def opening? (before : Option Char) (rest : List Char) : Option (List Char × List Char) :=
  if before.any inVerb then none
  else
    match rest with
    | '.' :: c :: s =>
      if c.isAlpha then
        match s.dropWhile inVerb with
        | '(' :: args => some (c :: s.takeWhile inVerb, args)
        | _ => none
      else none
    | _ => none

def enter (st : Scan) (verb args : List Char) : Scan :=
  let argsStart := st.position + verb.length + 3
  { st with
    resume := argsStart
    stack := ⟨verb, st.position, argsStart, args, st.depth⟩ :: st.stack
    depth := { st.depth with paren := st.depth.paren + 1 } }

/-- Looks at a character inside a string. -/
def visitQuoted (options : Options) (st : Scan) (quote c : Char) : Scan :=
  if c == '\\' then { st with resume := st.position + 2 }
  else if c == '\n' then
    abandon options { st with quote := none } st.position .unclosedString
  else if c == quote then { st with quote := none }
  else st

/-- Looks at a character inside the arguments of a statement. -/
def visitArgument (options : Options) (st : Scan) (c : Char) (rest : List Char) : Scan :=
  if Text.isQuote c then { st with quote := some c }
  else
    let st' := { st with depth := st.depth.past c }
    if c == ')' || c == '\x7d' || c == ']' then settle options rest st.stack st' else st'

/-- Looks at a character outside of strings and of the parts to leave out. -/
def visitPlain (options : Options) (st : Scan) (c : Char) (rest : List Char) : Scan :=
  match if c == '_' then opening? st.before rest else none with
  | some (verb, args) => st.enter verb args
  | none => if st.stack.isEmpty then st else visitArgument options st c rest

def visit (options : Options) (st : Scan) (c : Char) (rest : List Char) : Scan :=
  match st.quote with
  | some quote => visitQuoted options st quote c
  | none =>
    if st.stack.isEmpty then
      let skips := st.skips.dropWhile fun r => r.stop ≤ st.position
      let st := { st with skips := skips }
      match skips with
      | [] => visitPlain options st c rest
      | r :: skips =>
        if r.start ≤ st.position then { st with resume := r.stop, skips := skips }
        else visitPlain options st c rest
    else visitPlain options st c rest

def step (options : Options) (st : Scan) (c : Char) (rest : List Char) : Scan :=
  let st' := if st.position < st.resume then st else visit options st c rest
  { st' with position := st.position + c.utf8Size, before := some c }

def run (options : Options) : List Char → Scan → Scan
  | [], st => st
  | c :: rest, st => run options rest (step options st c rest)

end Scan

/-- The statements and the diagnostics by where they start. -/
def sorted (e : Extraction) : Extraction where
  statements := e.statements.mergeSort fun s t => s.span.start ≤ t.span.start
  diagnostics := e.diagnostics.mergeSort fun s t => s.span.start ≤ t.span.start

def ofChars (options : Options) (text : List Char) : Extraction :=
  let skips := Tag.nestedBlocks options.wrapperTag.toList options.analysisTag.toList text
  let st := Scan.run options text { skips := skips }
  (Scan.abandon options st (Text.byteLength text) .unclosed).found.sorted

def ofText (options : Options) (text : String) : Extraction :=
  ofChars options text.toList

end Extraction

end StatVars
