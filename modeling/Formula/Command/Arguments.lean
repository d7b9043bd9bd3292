/-!
# Command-line arguments

Switches and settings come in any order, before or after the formula. A setting's value is the
next argument or follows an equals sign; a one-letter setting also takes the rest of its argument.
Two dashes end the switches. The word `check` makes the rest a list of files to check. The first
fault counts; a value that is its own argument is looked at only when the next thing that is
understood comes.
-/

namespace Formula.Command

/-- What is on or off. -/
inductive Switch where
  | fromFile
  | noMemberAccess
  | pretty
  | ast
  | toSource
  | toScript
  | simplify
  | variableNames
  | symbols
  | withMembers
deriving DecidableEq, Repr

/-- What takes a value. -/
inductive Setting where
  | variable
  | bindings
  | config
  | enable
  | disable
  | format
  | output
deriving DecidableEq, Repr

/-- How results are printed. -/
inductive Format where
  | json
  | text
  | none
deriving DecidableEq, Repr

def Format.ofName? : String → Option Format
  | "json" => some .json
  | "text" => some .text
  | "none" => some .none
  | _ => Option.none

/-- What the arguments ask for. -/
structure Invocation where
  switches : List Switch := []
  assignments : List String := []
  bindings : Option String := none
  config : Option String := none
  enable : List String := []
  disable : List String := []
  format : Option Format := none
  output : Option String := none
  formula : Option String := none
  /-- the files to check, instead of a formula to evaluate -/
  check : Option (List String) := none
deriving DecidableEq, Repr

namespace Invocation

def has (inv : Invocation) (s : Switch) : Bool := inv.switches.contains s

def outputFormat (inv : Invocation) : Format := inv.format.getD .json

end Invocation

/-- Why arguments are not carried out. -/
inductive UsageError where
  | unknownArgument
  | invalidValue
  | conflict
  | unknownCommand
  | help
  | version
deriving DecidableEq, Repr

/-- What a flag stands for. -/
inductive Flag where
  | switch (s : Switch)
  | setting (s : Setting)
  | help
  | version
deriving DecidableEq, Repr

/-- The flags of more than one letter. -/
def longFlag? : String → Option Flag
  | "from-file" => some (.switch .fromFile)
  | "no-member-access" => some (.switch .noMemberAccess)
  | "pretty" => some (.switch .pretty)
  | "ast" => some (.switch .ast)
  | "to-string" => some (.switch .toSource)
  | "to-js" => some (.switch .toScript)
  | "simplify" => some (.switch .simplify)
  | "variables" => some (.switch .variableNames)
  | "symbols" => some (.switch .symbols)
  | "with-members" => some (.switch .withMembers)
  | "var" => some (.setting .variable)
  | "bindings" => some (.setting .bindings)
  | "config" => some (.setting .config)
  | "enable" => some (.setting .enable)
  | "disable" => some (.setting .disable)
  | "output-format" => some (.setting .format)
  | "output" => some (.setting .output)
  | "help" => some .help
  | "version" => some .version
  | _ => none

/-- The flags of one letter. -/
def shortFlag? : Char → Option Flag
  | 'f' => some (.switch .fromFile)
  | 'b' => some (.setting .bindings)
  | 'c' => some (.setting .config)
  | 'F' => some (.setting .format)
  | 'o' => some (.setting .output)
  | 'h' => some .help
  | 'V' => some .version
  | _ => none

/-! ### Settings -/

/-- A path that is set once and is not empty. -/
def setPath (current : Option String) (path : String) : Except UsageError (Option String) :=
  if current.isSome then .error .conflict
  else if path.isEmpty then .error .invalidValue
  else .ok (some path)

/-- A format that is set once and has a known name. -/
def setFormat (current : Option Format) (name : String) : Except UsageError (Option Format) :=
  if current.isSome then .error .conflict
  else
    match Format.ofName? name with
    | some f => .ok (some f)
    | none => .error .invalidValue

/-- Gives a setting its value. -/
def Invocation.set (inv : Invocation) (s : Setting) (value : String) :
    Except UsageError Invocation :=
  match s with
  | .variable => .ok { inv with assignments := inv.assignments ++ [value] }
  | .enable => .ok { inv with enable := inv.enable ++ [value] }
  | .disable => .ok { inv with disable := inv.disable ++ [value] }
  | .bindings => do return { inv with bindings := ← setPath inv.bindings value }
  | .config => do return { inv with config := ← setPath inv.config value }
  | .output => do return { inv with output := ← setPath inv.output value }
  | .format => do return { inv with format := ← setFormat inv.format value }

/-- Turns a switch on. -/
def Invocation.turnOn (inv : Invocation) (s : Switch) : Except UsageError Invocation :=
  if inv.has s then .error .conflict else .ok { inv with switches := inv.switches ++ [s] }

/-! ### Reading -/

/-- A setting that was named, and its value if that has come. -/
structure Pending where
  setting : Setting
  value : Option String

/-- What has been read so far. -/
structure Reading where
  invocation : Invocation
  pending : Option Pending

/-- Gives the pending setting its value; a setting without one is a fault. -/
def Reading.resolve (r : Reading) : Except UsageError Invocation :=
  match r.pending with
  | none => .ok r.invocation
  | some ⟨s, some v⟩ => r.invocation.set s v
  | some ⟨_, none⟩ => .error .invalidValue

/-- Takes a flag, with the value that is attached to it. -/
def Reading.take (r : Reading) (f : Flag) (attached : Option String) :
    Except UsageError Reading := do
  match f, attached with
  | .setting s, some v => return ⟨← (← r.resolve).set s v, none⟩
  | .setting s, none => return ⟨← r.resolve, some ⟨s, none⟩⟩
  | _, some _ => .error .unknownArgument
  | .switch s, none => return ⟨← (← r.resolve).turnOn s, none⟩
  | .help, none => do
    let _ ← r.resolve
    .error .help
  | .version, none => do
    let _ ← r.resolve
    .error .version

/-- Takes a long flag, after its dashes. -/
def Reading.takeLong (r : Reading) (text : List Char) : Except UsageError Reading :=
  let name := text.takeWhile (· != '=')
  let attached := match text.dropWhile (· != '=') with
    | [] => none
    | _ :: value => some (String.ofList value)
  match longFlag? (String.ofList name) with
  | some f => r.take f attached
  | none => .error .unknownArgument

/-- Takes one-letter flags, after their dash. The rest of the text after a setting's letter is its
value. -/
def Reading.takeShort (r : Reading) : List Char → Except UsageError Reading
  | [] => .ok r
  | c :: rest =>
    match shortFlag? c with
    | none => .error .unknownArgument
    | some (.setting s) =>
      match rest with
      | [] => r.take (.setting s) none
      | '=' :: value => r.take (.setting s) (some (String.ofList value))
      | value => r.take (.setting s) (some (String.ofList value))
    | some f => do (← r.take f none).takeShort rest

/-- Takes a formula; there is at most one. -/
def Reading.takeFormula (r : Reading) (text : String) : Except UsageError Reading :=
  if r.invocation.formula.isSome then .error .unknownArgument
  else do
    let inv ← r.resolve
    return ⟨{ inv with formula := some text }, none⟩

/-- The files to check; only the flags for help are known among them. -/
def readFiles :
    (files : List String) → (ended : Bool) → List String → Except UsageError (List String)
  | files, _, [] =>
    if files.any String.isEmpty then .error .invalidValue else .ok files.reverse
  | files, true, arg :: rest => readFiles (arg :: files) true rest
  | files, false, arg :: rest =>
    match arg.toList with
    | ['-', '-'] => readFiles files true rest
    | '-' :: c :: _ =>
      if arg = "--help" || c == 'h' then
        if files.any String.isEmpty then .error .invalidValue else .error .help
      else .error .unknownArgument
    | _ => readFiles (arg :: files) false rest

/-- What may be asked of the help command: nothing, or help about a command. -/
def readHelp : List String → UsageError
  | [] | ["check"] | ["help"] => .help
  | _ => .unknownCommand

/-- Reads arguments. -/
def readArguments : Reading → (ended : Bool) → List String → Except UsageError Invocation
  | r, _, [] => r.resolve
  | r, true, arg :: rest => do readArguments (← r.takeFormula arg) true rest
  | r, false, arg :: rest =>
    match arg.toList with
    | ['-', '-'] => readArguments r true rest
    | '-' :: '-' :: text => do readArguments (← r.takeLong text) false rest
    | '-' :: c :: text => do readArguments (← r.takeShort (c :: text)) false rest
    | _ =>
      match r.pending with
      | some ⟨s, none⟩ => readArguments ⟨r.invocation, some ⟨s, some arg⟩⟩ false rest
      | _ =>
        if arg = "check" then do
          let inv ← r.resolve
          return { inv with check := some (← readFiles [] false rest) }
        else if arg = "help" then .error (readHelp rest)
        else do readArguments (← r.takeFormula arg) false rest

/-- What the arguments of a command ask for. -/
def Invocation.ofArguments (args : List String) : Except UsageError Invocation :=
  readArguments ⟨{}, none⟩ false args

end Formula.Command
