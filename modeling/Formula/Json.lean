import Formula.Record

/-!
# JSON documents

Whole numbers and other numbers are kept apart, as their texts are. The members of an object stand
in the order of the document, a name may occur twice.
-/

namespace Formula

inductive Json where
  | null
  | bool (b : Bool)
  | integer (i : Int)
  | number (x : Float)
  | string (s : String)
  | array (items : List Json)
  | object (members : List (String × Json))

namespace Json

instance : Inhabited Json := ⟨.null⟩

/-- The member of an object; of two with one name the later counts. -/
def member? (j : Json) (name : String) : Option Json :=
  match j with
  | .object members => (members.filter (·.1 == name)).getLast?.map Prod.snd
  | _ => none

/-- The members of an object as a record. -/
def record? : Json → Option (Record Json)
  | .object members => some (Record.ofPairs members)
  | _ => none

/-- A whole or other number as a double. -/
def number? : Json → Option Float
  | .integer i => some (Float.ofInt i)
  | .number x => some x
  | _ => none

def string? : Json → Option String
  | .string s => some s
  | _ => none

def array? : Json → Option (List Json)
  | .array items => some items
  | _ => none

end Json

end Formula
