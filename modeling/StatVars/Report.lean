import StatVars.Command.Codec
import StatVars.Conversation.Memory
import StatVars.Conversation.Session

/-!
# Reports

A report says what one generated text does to a document: the variables after it, the changes line
by line, the result of each command, and the statements that were passed over.
-/

namespace StatVars

/-- What a generated text does to a document. -/
structure Report where
  data : Json
  delta : Table String String
  results : List Command.Result
  diagnostics : List Diagnostic

def Command.Result.pathJson (r : Command.Result) : Json :=
  match r.path with
  | some p => .str p.text
  | none => .null

def Command.Result.toJson (r : Command.Result) : Json :=
  let (kind, message) : Json × Json :=
    match r.error? with
    | some e => (.str e.kind.name, .str e.message)
    | none => (.null, .null)
  .obj [("command", r.command.toJson), ("path", r.pathJson), ("applied", .bool r.applied),
    ("error_kind", kind), ("error", message), ("previous_value", r.previous?.getD .null),
    ("new_value", r.new?.getD .null)]

def Diagnostic.toJson (d : Diagnostic) : Json :=
  .obj [("kind", .str ErrorKind.parse.name),
    ("span", .obj [("start", .ofNat d.span.start), ("end", .ofNat d.span.stop)]),
    ("message", .str d.message)]

namespace Report

/-- The report on what a session has made of a text. -/
def ofResponse (r : Response) : Report where
  data := r.bundle.data
  delta := Command.Result.delta r.results
  results := r.results
  diagnostics := r.diagnostics

/-- A conversation of two nodes: the document, and the text that was generated after it. -/
def session (c : Config) (document : Json) (text : String) : Session.Action Memory Response := do
  let scope : Scope := ⟨"report"⟩
  let root : Node := ⟨"initial"⟩
  let reply : Node := ⟨"response"⟩
  let push (node : Node) (parent : Option Node) : Session.Action Memory Unit :=
    modify fun s => { s with host := s.host.push scope node parent }
  push root none
  discard (Session.start c scope root document)
  push reply (some root)
  Session.respond c scope reply text

/-- The report on a document and a text. -/
def ofText (c : Config) (document : Json) (text : String) : Except HostError Report :=
  (session c document text ⟨{}, []⟩).1.map ofResponse

def toJson (r : Report) : Json :=
  .obj [("stat_data", r.data), ("delta", .obj (r.delta.map fun (k, line) => (k, .str line))),
    ("results", .arr (r.results.map Command.Result.toJson)),
    ("diagnostics", .arr (r.diagnostics.map Diagnostic.toJson))]

def toText (r : Report) : String :=
  r.toJson.toLines

end Report

end StatVars
