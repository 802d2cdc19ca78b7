import StatVars.Statement.Basic
import StatVars.Text.Blank
import StatVars.Text.CaseFold
import StatVars.Text.WordChar

/-!
# Blocks between tags

A block starts with an opening tag and ends with the next closing tag of the same name. Names are
compared without case, and an opening tag may have attributes. Inside the blocks of one name those
of another one are left out of the search for statements.
-/

namespace StatVars.Tag

/-- The ways to pass over blanks at the start of the text, the longest first. -/
def blankSplits (s : List Char) : List (List Char × List Char) :=
  (List.range ((s.takeWhile Text.isBlank).length + 1)).reverse.map fun n => (s.take n, s.drop n)

/-- The text behind the first `>`. -/
def dropToClose? (s : List Char) : Option (List Char) :=
  match s.dropWhile (· != '>') with
  | [] => none
  | _ :: rest => some rest

/-- The text behind the opening tag `name` whose `<` stands before `s`. A word ends with the name.
-/
def openTag? (name s : List Char) : Option (List Char) :=
  (blankSplits s).findSome? fun (blanks, t) => do
    let rest ← Text.dropWord? name t
    let before := ('<' :: blanks ++ t.take name.length).getLast?
    if Text.isWordBoundary before rest.head? then dropToClose? rest else none

/-- The text behind the closing tag `name` whose `<` stands before `s`. -/
def closeTag? (name s : List Char) : Option (List Char) :=
  match s.dropWhile Text.isBlank with
  | '/' :: s =>
    (blankSplits s).findSome? fun (_, t) => do
      let rest ← Text.dropWord? name t
      match rest.dropWhile Text.isBlank with
      | '>' :: rest => some rest
      | _ => none
  | _ => none

/-- The first place where `tag?` finds a tag behind a `<`: the text from the `<` on and the text
behind the tag. -/
def find? (tag? : List Char → Option (List Char)) : List Char → Option (List Char × List Char)
  | [] => none
  | c :: s =>
    match if c == '<' then tag? s else none with
    | some rest => some (c :: s, rest)
    | none => find? tag? s

/-- The insides of the blocks `name` in `s`, which ends at byte `stop` of the whole text. A block
that is not closed reaches to the end if it may be open, and is none otherwise. `fuel` bounds the
number of blocks. -/
def blocksFrom (name : List Char) (stop : Nat) (mayBeOpen : Bool) :
    (fuel : Nat) → List Char → List Span
  | 0, _ => []
  | fuel + 1, s =>
    match find? (openTag? name) s with
    | none => []
    | some (_, inside) =>
      let start := Text.position stop inside
      match find? (closeTag? name) inside with
      | some (closing, rest) =>
        ⟨start, Text.position stop closing⟩ :: blocksFrom name stop mayBeOpen fuel rest
      | none => if mayBeOpen then [⟨start, stop⟩] else []

/-- The insides of the blocks `name` within a part of the text. -/
def blocks (name text : List Char) (within : Span) (mayBeOpen : Bool) : List Span :=
  let s := Text.sliceBytes within.start within.stop text
  blocksFrom name within.stop mayBeOpen (s.length + 1) s

/-- The insides of the blocks `inner` within the blocks `outer`, which may reach to the end of the
text. -/
def nestedBlocks (outer inner text : List Char) : List Span :=
  (blocks outer text ⟨0, Text.byteLength text⟩ true).flatMap fun within =>
    blocks inner text within false

end StatVars.Tag
