import Formula.Value
import Formula.EvalError

/-!
# Assigning variables and members

A path names a variable and members below it. Assigning to it creates the objects that are missing
on the way and takes an undefined value for an empty object; it fails, and changes nothing, at any
other value that is not an object and at reserved names.
-/

namespace Formula

/-- The names that no formula may read or write. -/
def reservedNames : List String := ["__proto__", "prototype", "constructor"]

def isReserved (name : String) : Bool := reservedNames.contains name

namespace Bindings

/-- The segments of a dotted path; there is always at least one. -/
def segments : List Char → List Char → List String
  | acc, [] => [String.ofList acc.reverse]
  | acc, c :: rest =>
    if c = '.' then String.ofList acc.reverse :: segments [] rest else segments (c :: acc) rest

/-- The fields of a value that members can be assigned to: an object, or an undefined value as an
empty one. -/
def fields? : Value → Option (List (String × Value))
  | .undefined => some []
  | .object fields => some fields
  | _ => none

/-- Puts a value at a path below `target`, the value of `name`; `whole` is the path for the
message. -/
def assignInto (whole : String) (v : Value) :
    (name : String) → Value → List String → Except EvalError Value
  | name, target, [] =>
    match fields? target with
    | some fields => .ok (.object fields)
    | none => .error (.invalidMember whole name)
  | name, target, next :: path =>
    match fields? target with
    | none => .error (.invalidMember whole name)
    | some fields =>
      match path with
      | [] => .ok (.object (Record.insert fields next v))
      | _ :: _ => do
        let child ← assignInto whole v next ((Record.get? fields next).getD (.object [])) path
        .ok (.object (Record.insert fields next child))

/-- Assigns a value to a variable or to a member below one. -/
def assignSegments (b : Bindings) (whole : String) (path : List String) (v : Value) :
    Except EvalError Bindings :=
  match path.find? isReserved with
  | some name => .error (.reservedName name)
  | none =>
    match path with
    | [] => .ok b
    | [name] => .ok (Record.insert b name v)
    | name :: rest => do
      let root ← assignInto whole v name ((Record.get? b name).getD (.object [])) rest
      .ok (Record.insert b name root)

/-- Assigns a value at a dotted path. -/
def assignPath (b : Bindings) (path : String) (v : Value) : Except EvalError Bindings :=
  assignSegments b path (segments [] path.toList) v

end Bindings

end Formula
