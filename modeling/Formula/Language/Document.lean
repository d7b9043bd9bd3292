import Formula.Language
import Formula.Json

/-!
# Options as a document

Options are written as a JSON object with the members `operators`, `allowMemberAccess` and
`maxCallDepth`, or as an array of their values in that order. What is missing has its default;
members of other names mean nothing. A value of the wrong type is refused, and so is a member that
occurs twice.
-/

namespace Formula.Options

/-- A truth value. -/
def readBool? : Json → Option Bool
  | .bool b => some b
  | _ => none

/-- The categories with their switches. -/
def readOperators? : Json → Option (Record Bool)
  | .object members => do
    let switches ← members.mapM fun (name, j) => (readBool? j).map fun b => (name, b)
    return Record.ofPairs switches
  | _ => none

/-- A call depth fits in 32 bits. -/
def readDepth? : Json → Option Nat
  | .integer i => if 0 ≤ i ∧ i < Nat.pow 2 32 then some i.toNat else none
  | _ => none

/-- The names of the members that mean something. -/
def memberNames : List String := ["operators", "allowMemberAccess", "maxCallDepth"]

/-- Sets the option at a place of the array form. -/
def set? (o : Options) (place : Nat) (j : Json) : Option Options :=
  match place with
  | 0 => (readOperators? j).map fun operators => { o with operators }
  | 1 => (readBool? j).map fun memberAccess => { o with memberAccess }
  | 2 => (readDepth? j).map fun maxCallDepth => { o with maxCallDepth }
  | _ => none

/-- Sets the options of the members of an object, each name once. -/
def setMembers? : (seen : List String) → Options → List (String × Json) → Option Options
  | _, o, [] => some o
  | seen, o, (name, j) :: rest =>
    match memberNames.idxOf? name with
    | none => setMembers? seen o rest
    | some place =>
      if seen.contains name then none
      else
        match set? o place j with
        | some o => setMembers? (name :: seen) o rest
        | none => none

/-- Sets the options of the items of an array. -/
def setItems? : (place : Nat) → Options → List Json → Option Options
  | _, o, [] => some o
  | place, o, j :: rest =>
    match set? o place j with
    | some o => setItems? (place + 1) o rest
    | none => none

/-- Reads options. -/
def read? : Json → Option Options
  | .object members => setMembers? [] {} members
  | .array items => setItems? 0 {} items
  | _ => none

/-- Options as a document. -/
def toJson (o : Options) : Json :=
  .object
    [("operators", .object (o.operators.map fun (name, b) => (name, .bool b))),
     ("allowMemberAccess", .bool o.memberAccess), ("maxCallDepth", .integer o.maxCallDepth)]

end Formula.Options
