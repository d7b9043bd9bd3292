import Formula.Command

/-!
# The program

Reads what the command needs, and does what it asks for.
-/

open Formula Formula.Command

/-- What is found at a path of the file system. -/
def findFile (path : String) : IO Found := do
  try
    return .text (← IO.FS.readFile path)
  catch
    | .noFileOrDirectory _ _ _ => return .missing
    | _ => return .unreadable

/-- The wording of a failure. -/
def failureText : Failure → String
  | .usage .unknownArgument => "error: unexpected argument"
  | .usage .invalidValue => "error: invalid or missing value"
  | .usage .conflict => "error: an argument cannot be used multiple times"
  | .usage .unknownCommand => "error: unrecognized subcommand"
  | .usage .help => "Usage: [OPTIONS] [FORMULA OR FILE] | check FILES..."
  | .usage .version => "formula 1"
  | .report message => message
  | .unreadable => "cannot read or write a file"
  | .fault _ f => f.message
  | .exhausted => "the evaluation nests too deep"

/-- Does what a result asks for; the exit code tells whether it went well. -/
def carryOut (r : Result) : IO UInt32 := do
  IO.print r.stdout
  match r.file with
  | some (path, text) => IO.FS.writeFile path text
  | none => pure ()
  match r.failure with
  | none => return 0
  | some (.usage .help) | some (.usage .version) => return 0
  | some (.usage _) => return 2
  | some _ => return 1

def main (args : List String) : IO UInt32 := do
  match Invocation.ofArguments args with
  | .error e =>
    let result := Result.failed (.usage e)
    IO.eprintln (failureText (.usage e))
    carryOut result
  | .ok inv =>
    let found ← inv.paths.mapM fun path => return (path, ← findFile path)
    let find := fun path => ((found.find? (·.1 == path)).map (·.2)).getD .missing
    let stdin ← IO.getStdin
    if inv.readsInput && (← stdin.isTty) then
      IO.eprintln "Expression is required"
      return 1
    let input ← if inv.readsInput then stdin.readToEnd else pure ""
    let result := perform find inv input
    match result.failure with
    | some f => IO.eprintln (failureText f)
    | none => pure ()
    carryOut result
