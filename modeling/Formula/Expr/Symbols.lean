import Formula.Expr

/-!
# The names of an expression

The names a program reads, assigns, defines or takes as parameters, in the order of their first
appearance and each once. With members, a variable and the members read from it are one dotted
name. Such a name is complete at the next instruction that does not continue it; a nested program
does not complete it, so the names inside come first.
-/

namespace Formula

namespace Symbols

/-- The names so far, in order. -/
abbrev Names := List String

/-- Adds a name unless it is there. -/
def add (names : Names) (name : String) : Names :=
  if names.contains name then names else names ++ [name]

/-- Adds the name under construction, if there is one. -/
def complete (pending : Option String) (names : Names) : Names :=
  match pending with
  | some name => add names name
  | none => names

mutual

/-- Collects the names of an instruction; the state is the name under construction and the names
so far. -/
def ofInstruction (members : Bool) :
    Instruction Value → Option String × Names → Option String × Names
  | .variable name, (pending, names) | .target name, (pending, names) =>
    if !members && !names.contains name then (pending, names ++ [name])
    else (some name, complete pending names)
  | .member name, (pending, names) =>
    match members, pending with
    | true, some path => (some (path ++ "." ++ name), names)
    | _, _ => (none, complete pending names)
  | .group body, (pending, names) =>
    let (last, names) := ofInstructions members body (none, names)
    (pending, complete last names)
  | _, (pending, names) => (none, complete pending names)

def ofInstructions (members : Bool) :
    List (Instruction Value) → Option String × Names → Option String × Names
  | [], state => state
  | i :: rest, state => ofInstructions members rest (ofInstruction members i state)

end

/-- The names of a program. -/
def ofProgram (members : Bool) (p : Program Value) : Names :=
  let (last, names) := ofInstructions members p (none, [])
  complete last names

end Symbols

namespace Expr

/-- Every name of an expression; with members, as dotted names. -/
def symbols (e : Expr) (members : Bool) : List String := Symbols.ofProgram members e.compile

/-- The names that stand for no function and no operator of the language. -/
def variableNames (lang : Language Value) (e : Expr) (members : Bool) : List String :=
  (e.symbols members).filter fun name => (lang.function? name).isNone && (lang.unaryOp? name).isNone

end Expr

end Formula
