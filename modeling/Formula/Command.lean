import Formula.Command.Arguments
import Formula.Evaluation
import Formula.Expr.Render
import Formula.Expr.Symbols
import Formula.Json.Printer
import Formula.Json.Reader
import Formula.Language.Document
import Formula.Value.Json

/-!
# The command

What the command does, as a function of its arguments, the texts of files and its standard input.
The result says what to print, what to write into a file, and what went wrong.
-/

namespace Formula.Command

/-- What is found at a path. -/
inductive Found where
  | missing
  | unreadable
  | text (s : String)

/-- Why the command fails. -/
inductive Failure where
  | usage (e : UsageError)
  /-- the command's own message -/
  | report (message : String)
  /-- what was found is no text or no JSON document of the right form -/
  | unreadable
  | fault (source : String) (f : Fault)
  | exhausted

/-- What the command produces. -/
structure Result where
  stdout : String
  /-- a path and the text for the file there -/
  file : Option (String × String)
  failure : Option Failure

namespace Result

def failed (f : Failure) : Result := ⟨"", none, some f⟩

end Result

/-- What is printed: a value, the text of a formula, or names. -/
inductive Output where
  | value (v : Value)
  | source (s : String)
  | names (ns : List String)

/-- How far calls and entered programs may nest. -/
def fuel : Nat := 1000000000

/-- The command has no functions of its own. -/
def noHosts : Hosts := fun _ _ => ⟨[], .value .undefined⟩

section

variable (find : String → Found) (inv : Invocation)

/-- The text of a file. -/
def readFile (path : String) : Except Failure String :=
  match find path with
  | .text s => .ok s
  | .missing => .error (.report ("File not found: " ++ path))
  | .unreadable => .error .unreadable

/-- The JSON document in a file. -/
def readDocument (path : String) : Except Failure Json := do
  match Json.read? (← readFile find path) with
  | some j => .ok j
  | none => .error .unreadable

/-- The language that the configuration file and the arguments give; what is disabled is so at
last. -/
def language : Except Failure (Language Value) := do
  let options : Options ←
    match inv.config with
    | none => .ok {}
    | some path =>
      match Options.read? (← readDocument find path) with
      | some o => .ok o
      | none => .error .unreadable
  let options := inv.enable.foldl Options.enable options
  let options := inv.disable.foldl Options.disable options
  let options := if inv.has .noMemberAccess then { options with memberAccess := false } else options
  .ok (Language.ofOptions 0 options)

/-- The name and the value of a variable: JSON if the text is a document, else the text itself. -/
def binding? (text : String) : Option (String × Value) :=
  match text.toList.dropWhile (· != '=') with
  | [] => none
  | _ :: value =>
    let name := String.ofList (Text.trim (text.toList.takeWhile (· != '=')))
    let raw := String.ofList value
    match Json.read? raw with
    | some j => some (name, .ofJson j)
    | none => some (name, .string raw)

/-- Sets variables one after the other. -/
def setVariables (b : Bindings) : List String → Except Failure Bindings
  | [] => .ok b
  | text :: rest =>
    match binding? text with
    | some (name, v) => setVariables (Record.insert b name v) rest
    | none => .error (.report ("Invalid variable \"" ++ text ++ "\", expected NAME=JSON"))

/-- The variables of the bindings file and of the arguments. -/
def bindings : Except Failure Bindings := do
  let b ←
    match inv.bindings with
    | none => .ok []
    | some path => do
      match ← readDocument find path with
      | .object members => .ok (Record.ofPairs (Value.membersOfJson members))
      | _ => .error (.report ("Bindings must be a JSON object: " ++ path))
  setVariables b inv.assignments

/-- The result of an evaluation in a scope. -/
def evaluated {α : Type} (source : String) (scope : Bindings) (x : Eval α) : Except Failure α :=
  match (x (World.start scope Language.standardSize)).1 with
  | .ok a => .ok a
  | .error (.error e) => .error (.fault source (.eval e))
  | .error .exhausted => .error .exhausted

/-- What is to be printed for a formula. -/
def outputOf (source : String) : Except Failure Output := do
  let lang ← language find inv
  let e ←
    match parseExpr lang source with
    | .ok e => .ok e
    | .error e => .error (.fault source (.parse e))
  if inv.has .ast then .ok (.source e.listing)
  else if inv.has .toSource then .ok (.source (e.render .formula))
  else if inv.has .toScript then .ok (.source (e.render .javaScript))
  else if inv.has .variableNames then .ok (.names (e.variableNames lang (inv.has .withMembers)))
  else if inv.has .symbols then .ok (.names (e.symbols (inv.has .withMembers)))
  else do
    let scope ← bindings find inv
    if inv.has .simplify then
      let e ← evaluated source scope (e.simplify noHosts fuel lang)
      .ok (.source (e.render .formula))
    else
      let v ← evaluated source scope do (← e.evaluate noHosts fuel lang).settle noHosts fuel lang
      .ok (.value v)

/-- The text of a document. -/
def documentText (j : Json) : String := if inv.has .pretty then j.pretty else j.compact

/-- The text of an output. -/
def outputText (o : Output) : String :=
  match o, inv.outputFormat with
  | .source s, _ => s
  | .value v, .text => v.text
  | .names ns, .text => String.intercalate "\n" ns
  | .value v, _ => documentText inv v.toJson
  | .names ns, _ => documentText inv (.array (ns.map .string))

/-- Prints an output, or puts it into a file. -/
def print (o : Output) : Result :=
  match inv.outputFormat, inv.output with
  | .none, _ => ⟨"", none, none⟩
  | _, some path => ⟨"", some (path, outputText inv o ++ "\n"), none⟩
  | _, none => ⟨outputText inv o ++ "\n", none, none⟩

/-- Evaluates the formula of the arguments, of a file or of the standard input. -/
def evaluate (input : String) : Result :=
  let result : Except Failure Output := do
    let source ←
      match inv.formula with
      | none => .ok input
      | some text => if inv.has .fromFile then readFile find text else .ok text
    outputOf find inv source
  match result with
  | .ok o => print inv o
  | .error f => .failed f

/-- Checks files in order; `printed` is what has been printed so far. -/
def checkFiles (lang : Language Value) : (printed : String) → List String → Result
  | printed, [] => ⟨printed, none, if printed.isEmpty then none else some (.report "")⟩
  | printed, path :: rest =>
    match readFile find path with
    | .error f => ⟨printed, none, some f⟩
    | .ok source =>
      match parseExpr lang source with
      | .ok _ => checkFiles lang printed rest
      | .error e =>
        let entry := "Checking: " ++ path ++ "\n  Error: " ++ e.message ++ "\n\n"
        checkFiles lang (printed ++ entry) rest

/-- What the arguments ask for. -/
def perform (input : String) : Result :=
  match inv.check with
  | none => evaluate find inv input
  | some files =>
    match language find inv with
    | .error f => .failed f
    | .ok lang => checkFiles find lang "" files

end

/-- The paths that may be read. -/
def Invocation.paths (inv : Invocation) : List String :=
  inv.config.toList ++ inv.bindings.toList ++ inv.check.getD []
    ++ (if inv.has .fromFile then inv.formula.toList else [])

/-- Whether the formula comes from the standard input. -/
def Invocation.readsInput (inv : Invocation) : Bool := inv.formula.isNone && inv.check.isNone

end Formula.Command
