import Formula.Value
import Formula.Json.Printer
import Formula.Number.Numeral
import Formula.Text.Units

/-!
# Values as text and as numbers

The text of a value is what it becomes where a string is wanted; its literal is how it is written
in a formula. An array converts to a number through its text.
-/

namespace Formula.Value

mutual

/-- The text of a value. Inside an array, undefined and null are empty. -/
def text : Value → String
  | .undefined => "undefined"
  | .null => "null"
  | .bool b => if b then "true" else "false"
  | .number x => Number.text x
  | .string s => s
  | .array items => String.intercalate "," (itemTexts items)
  | .object _ => "[object Object]"
  | .function f => "function " ++ f.name ++ "() \x7b [native code] \x7d"
  | .deferred _ => "[object Promise]"

def itemTexts : List Value → List String
  | [] => []
  | .undefined :: rest => "" :: itemTexts rest
  | .null :: rest => "" :: itemTexts rest
  | item :: rest => text item :: itemTexts rest

end

/-- A string literal: as in JSON, and the two line separators are escaped as well. -/
def quote (s : String) : String :=
  String.ofList ((Json.quote s).toList.flatMap fun c =>
    if c.toNat = 0x2028 then "\\u2028".toList
    else if c.toNat = 0x2029 then "\\u2029".toList
    else [c])

mutual

/-- The literal of a value. -/
def literal : Value → String
  | .string s => quote s
  | .array items => "[" ++ String.intercalate ", " (itemLiterals items) ++ "]"
  | .object [] => "\x7b\x7d"
  | .object (f :: fs) =>
    "\x7b " ++ String.intercalate ", " (fieldLiterals (f :: fs)) ++ " \x7d"
  | v => text v

def itemLiterals : List Value → List String
  | [] => []
  | item :: rest => literal item :: itemLiterals rest

def fieldLiterals : List (String × Value) → List String
  | [] => []
  | (k, v) :: rest => (quote k ++ ": " ++ literal v) :: fieldLiterals rest

end

/-- The number a value converts to. -/
def toNumber : Value → Float
  | .undefined => Number.nan
  | .null => 0.0
  | .bool b => if b then 1.0 else 0.0
  | .number x => x
  | .string s => Number.parse s
  | .array [] => 0.0
  | .array [item] => Number.parse item.text
  | .array _ | .object _ | .function _ | .deferred _ => Number.nan

/-- Compound values become their text; scalars stay. -/
def primitive : Value → Value
  | .array items => .string (text (.array items))
  | .object fields => .string (text (.object fields))
  | .function f => .string (text (.function f))
  | .deferred id => .string (text (.deferred id))
  | v => v

/-- The member of a value: a field of an object, or the length of an array or a string. -/
def member (base : Value) (name : String) : Value :=
  match base with
  | .object fields => (Record.get? fields name).getD .undefined
  | .array items => if name = "length" then .number (Float.ofNat items.length) else .undefined
  | .string s =>
    if name = "length" then .number (Float.ofNat (Text.length16 s.toList)) else .undefined
  | _ => .undefined

end Formula.Value
