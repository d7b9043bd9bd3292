import Formula.Value.Text

/-!
# Values and JSON

Values without a JSON form (undefined, functions, deferred values, NaN and the infinities) become
null. A whole number below `2 ^ 53` is written as an integer, any other as a floating-point
number. A value can also be written straight into any format that has the parts of JSON.
-/

namespace Formula.Value

/-- Numbers below this magnitude are exact when they are whole. -/
def safeInteger : Float := 9007199254740992.0

/-- Whether a number is written as an integer. -/
def writtenWhole (x : Float) : Bool := Number.isInteger x && x.abs < safeInteger

mutual

/-- The JSON document of a value. -/
def toJson : Value → Json
  | .undefined | .null | .function _ | .deferred _ => .null
  | .bool b => .bool b
  | .number x =>
    if writtenWhole x then .integer (Number.toInt x) else if x.isFinite then .number x else .null
  | .string s => .string s
  | .array items => .array (itemsToJson items)
  | .object fields => .object (fieldsToJson fields)

def itemsToJson : List Value → List Json
  | [] => []
  | v :: rest => toJson v :: itemsToJson rest

def fieldsToJson : List (String × Value) → List (String × Json)
  | [] => []
  | (k, v) :: rest => (k, toJson v) :: fieldsToJson rest

end

mutual

/-- The value of a JSON document. -/
def ofJson : Json → Value
  | .null => .null
  | .bool b => .bool b
  | .integer i => .number (Float.ofInt i)
  | .number x => .number x
  | .string s => .string s
  | .array items => .array (itemsOfJson items)
  | .object members => .object (Record.ofPairs (membersOfJson members))

def itemsOfJson : List Json → List Value
  | [] => []
  | j :: rest => ofJson j :: itemsOfJson rest

def membersOfJson : List (String × Json) → List (String × Value)
  | [] => []
  | (k, j) :: rest => (k, ofJson j) :: membersOfJson rest

end

/-! ### Other formats -/

/-- How a format writes each kind of datum. -/
structure Format (α : Type) where
  unit : α
  bool : Bool → α
  integer : Int → α
  number : Float → α
  string : String → α
  sequence : List α → α
  mapping : List (String × α) → α

/-- JSON documents as a format. -/
def Format.json : Format Json where
  unit := .null
  bool := .bool
  integer := .integer
  number := .number
  string := .string
  sequence := .array
  mapping := .object

/-- Compact JSON text as a format. -/
def Format.jsonText : Format String where
  unit := "null"
  bool b := if b then "true" else "false"
  integer i := toString i
  number x := Number.jsonText x
  string s := Json.quote s
  sequence items := "[" ++ String.intercalate "," items ++ "]"
  mapping members :=
    "\x7b" ++ String.intercalate "," (members.map fun (k, t) => Json.quote k ++ ":" ++ t) ++ "\x7d"

mutual

/-- Writes a value in a format. -/
def write {α : Type} (f : Format α) : Value → α
  | .undefined | .null | .function _ | .deferred _ => f.unit
  | .bool b => f.bool b
  | .number x =>
    if writtenWhole x then f.integer (Number.toInt x) else if x.isFinite then f.number x else f.unit
  | .string s => f.string s
  | .array items => f.sequence (writeItems f items)
  | .object fields => f.mapping (writeFields f fields)

def writeItems {α : Type} (f : Format α) : List Value → List α
  | [] => []
  | v :: rest => write f v :: writeItems f rest

def writeFields {α : Type} (f : Format α) : List (String × Value) → List (String × α)
  | [] => []
  | (k, v) :: rest => (k, write f v) :: writeFields f rest

end

end Formula.Value
