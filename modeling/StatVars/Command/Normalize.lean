import StatVars.Command.Basic
import StatVars.Statement.Scan

/-!
# Commands of statements

A statement becomes a command if its verb names one and the number of its arguments fits. The first
argument is the path, with or without quotes.
-/

namespace StatVars.Command

/-- The text of the path in a first argument: what is between its quotes, or all of it. -/
def pathText (arg : String) : String :=
  match Literal.parse {} arg with
  | .ok (.value (.str s)) => s
  | _ => .ofList (Text.trim arg.toList)

/-- The command that a statement stands for. -/
def ofStatement (s : Statement) : Except Diagnostic Command :=
  match Kind.ofVerb? s.verb with
  | none => .error ⟨s.span, .unknownVerb s.verb⟩
  | some kind =>
    if kind.accepts s.args.length then
      .ok ⟨kind, pathText (s.args.headD ""), s.args.tail.map .source, s.reason⟩
    else .error ⟨s.span, .wrongCount kind.name kind.expectedArgs s.args.length⟩

/-- The commands of the statements in order, and the diagnostics of those that have none. -/
def ofStatements : List Statement → List Command × List Diagnostic
  | [] => ([], [])
  | s :: ss =>
    let (commands, dropped) := ofStatements ss
    match ofStatement s with
    | .ok command => (command :: commands, dropped)
    | .error diagnostic => (commands, diagnostic :: dropped)

end StatVars.Command
