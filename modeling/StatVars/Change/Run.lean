import StatVars.Change.Add

/-!
# Running commands

Commands are run one after the other on one document. When one is refused the next one runs all the
same, on what the refused one has left. After a change the schema is brought up to date,
and annotations in what was written take effect.
-/

namespace StatVars

namespace Command

/-- What became of a command. -/
inductive Outcome
  | applied (previous new : Option Json)
  | refused (error : CommandError)

/-- A command, the path that the change landed on or was meant for, and what became of it. -/
structure Result where
  command : Command
  path : Option Path
  outcome : Outcome

namespace Result

def applied (r : Result) : Bool :=
  match r.outcome with
  | .applied _ _ => true
  | .refused _ => false

def error? (r : Result) : Option CommandError :=
  match r.outcome with
  | .applied _ _ => none
  | .refused error => some error

def previous? (r : Result) : Option Json :=
  match r.outcome with
  | .applied previous _ => previous
  | .refused _ => none

def new? (r : Result) : Option Json :=
  match r.outcome with
  | .applied _ new => new
  | .refused _ => none

end Result

def attempt (c : Config) (command : Command) (p : Path) : Change.Attempt Change :=
  match command.kind with
  | .set => Change.set c p command.args
  | .add => Change.add c p command.args
  | .delete => Change.delete c p command.args
  | .insert => Change.insert c p command.args

end Command

namespace Variables

/-- The variables whose schema is brought up to date after a change at a path of the document. -/
def reconcile (c : Config) (vars : Variables) (changed : Path) : Variables :=
  let (schema, data) := Schema.reconcile c.extensibleByDefault vars.schema vars.data changed
  { schema, data }

def run (c : Config) (vars : Variables) (command : Command) : Variables × Command.Result :=
  match Path.parse command.path with
  | .error e => (vars, ⟨command, none, .refused (.path e)⟩)
  | .ok p =>
    match command.attempt c p vars with
    | (.error e, vars) => (vars, ⟨command, some p, .refused e⟩)
    | (.ok change, vars) =>
      (vars.reconcile c change.path,
        ⟨command, some change.path,
          .applied change.previous (change.new.map Json.stripMeta)⟩)

def runAll (c : Config) (vars : Variables) : List Command → Variables × List Command.Result
  | [] => (vars, [])
  | command :: commands =>
    let (vars, result) := vars.run c command
    let (vars, results) := runAll c vars commands
    (vars, result :: results)

end Variables

namespace Bundle

/-- Counts have 64 bits and start anew at zero. -/
def countBound : Nat := 18446744073709551616

/-- The bundle after one batch more, which has left these variables. -/
def next (b : Bundle) (after : Variables) : Bundle :=
  { after with revision := (b.revision + 1) % countBound }

/-- Runs commands as a batch. -/
def apply (c : Config) (b : Bundle) (commands : List Command) : Bundle × List Command.Result :=
  let (after, results) := b.runAll c commands
  (b.next after, results)

/-- Runs one command as a batch. -/
def applyOne (c : Config) (b : Bundle) (command : Command) : Bundle × Command.Result :=
  let (after, result) := b.run c command
  (b.next after, result)

end Bundle

namespace Command.Result

def display : Option Json → String
  | some v => v.toText
  | none => "undefined"

/-- The change that a result reports, as it is shown to readers, with its reason in brackets. -/
def line (r : Result) : String :=
  let change := display r.previous? ++ "->" ++ display r.new?
  match r.command.reason with
  | some reason => change ++ " (" ++ reason ++ ")"
  | none => change

/-- The changes away from the root by the texts of their paths. The last change of a path counts. -/
def delta (results : List Result) : Table String String :=
  results.foldl
    (fun t r =>
      match r.applied, r.path with
      | true, some (s :: p) => Table.insert t (Path.text (s :: p)) r.line
      | _, _ => t)
    []

end Command.Result

end StatVars
