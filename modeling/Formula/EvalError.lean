/-!
# What can go wrong in an evaluation

Each cause with the data its message needs; the wording is in one place.
-/

namespace Formula

inductive EvalError where
  | undefinedVariable (name : String)
  | notAFunction (text : String)
  | memberAccess
  /-- a name that no formula may read or write -/
  | reservedName (name : String)
  | unknownType (text : String)
  | invalidArgument (message : String)
  /-- the path to assign and the name on it that holds no object -/
  | invalidMember (path name : String)
  | unknownOperator (op : String)
  /-- more than one value was left -/
  | parity
  | stackUnderflow
  | callDepth (limit : Nat)
  | custom (message : String)
deriving DecidableEq, Repr

namespace EvalError

def message : EvalError → String
  | .undefinedVariable name => "undefined variable: " ++ name
  | .notAFunction text => text ++ " is not a function"
  | .memberAccess => "member access is not permitted"
  | .reservedName _ => "prototype access detected"
  | .unknownType text => "unknown type: " ++ text
  | .invalidArgument message => message
  | .invalidMember path name =>
    "cannot assign to \"" ++ path ++ "\": \"" ++ name ++ "\" is not an object"
  | .unknownOperator op => "unknown operator: " ++ op
  | .parity => "invalid Expression (parity)"
  | .stackUnderflow => "invalid Expression"
  | .callDepth limit => "maximum call depth of " ++ toString limit ++ " exceeded"
  | .custom message => message

/-- The name an error is about, if it is about one. -/
def name? : EvalError → Option String
  | .undefinedVariable name => some name
  | .reservedName name => some name
  | .invalidMember path _ => some path
  | .unknownOperator op => some op
  | _ => none

/-- Advice for some of the causes. -/
def help? : EvalError → Option String
  | .undefinedVariable name => some ("'" ++ name ++ "' is not defined. Did you forget to bind it?")
  | .memberAccess => some "Member access is disabled in the parser options."
  | .unknownType _ =>
    some "Supported conversion types are \"boolean\", \"int\", \"integer\" and \"number\"."
  | .callDepth _ => some "A function defined in the expression calls itself without terminating."
  | .parity | .stackUnderflow =>
    some "The compiled expression is malformed. Please report this if it persists."
  | _ => none

end EvalError

end Formula
