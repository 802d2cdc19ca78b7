import StatVars.Report

/-!
# Command line

The first argument is a generated text, the second one, if there is any, the file of a
configuration. The document is read from standard input and the report is written to standard
output.
-/

namespace StatVars

def readConfig : Option String → IO (Except String Config)
  | none => return .ok {}
  | some file => do
    match ← (IO.FS.readFile file).toBaseIO with
    | .error _ => return .error s!"config error: {file} cannot be read"
    | .ok text =>
      match Config.read? text.toList with
      | some c => return .ok c
      | none => return .error "config error: no configuration"

def report (c : Config) (document text : String) : Except String String :=
  match Json.read? (Text.trim document.toList) with
  | none => .error "invalid JSON"
  | some v => ((Report.ofText c v text).map Report.toText).mapError HostError.report

def run : List String → IO (Except String String)
  | [] => return .error "First argument must be the response text."
  | text :: files => do
    match ← readConfig files.head? with
    | .error message => return .error message
    | .ok c => return report c (← (← IO.getStdin).readToEnd) text

end StatVars

def main (args : List String) : IO UInt32 := do
  match ← StatVars.run args with
  | .ok text =>
    IO.println text
    return 0
  | .error message =>
    IO.eprintln message
    return 1
