import Formula.Json
import Formula.Number.Text

/-!
# Writing JSON

In the compact form nothing stands between the tokens. In the wide form every item is on its own
line, indented by two; empty arrays and objects stay closed.
-/

namespace Formula.Json

/-! ### Strings -/

/-- The two hexadecimal digits of a number below 256. -/
def hex2 (n : Nat) : List Char := [Nat.digitChar (n / 16), Nat.digitChar (n % 16)]

/-- A character inside a string: quotes, backslashes and control characters are escaped, nothing
else. -/
def escaped (c : Char) : List Char :=
  if c = '"' then ['\\', '"']
  else if c = '\\' then ['\\', '\\']
  else if c = '\x08' then ['\\', 'b']
  else if c = '\x0c' then ['\\', 'f']
  else if c = '\n' then ['\\', 'n']
  else if c = '\r' then ['\\', 'r']
  else if c = '\t' then ['\\', 't']
  else if c.toNat < 0x20 then '\\' :: 'u' :: '0' :: '0' :: hex2 c.toNat
  else [c]

/-- A string between quotes. -/
def quote (s : String) : String := String.ofList ('"' :: (s.toList.flatMap escaped ++ ['"']))

/-! ### Compact form -/

mutual

/-- The compact text of a document. -/
def compact : Json → String
  | .null => "null"
  | .bool b => if b then "true" else "false"
  | .integer i => toString i
  | .number x => Number.jsonText x
  | .string s => quote s
  | .array items => "[" ++ String.intercalate "," (compactItems items) ++ "]"
  | .object members => "\x7b" ++ String.intercalate "," (compactMembers members) ++ "\x7d"

def compactItems : List Json → List String
  | [] => []
  | item :: rest => compact item :: compactItems rest

def compactMembers : List (String × Json) → List String
  | [] => []
  | (name, item) :: rest => (quote name ++ ":" ++ compact item) :: compactMembers rest

end

/-! ### Wide form -/

/-- A line break and the indentation of a depth. -/
def newline (depth : Nat) : String := "\n" ++ String.ofList (List.replicate (2 * depth) ' ')

/-- Items one to a line between an opening and a closing mark. -/
def lines (opening closing : String) (depth : Nat) (items : List String) : String :=
  if items.isEmpty then opening ++ closing
  else
    opening ++ newline (depth + 1) ++ String.intercalate ("," ++ newline (depth + 1)) items
      ++ newline depth
      ++ closing

mutual

/-- The wide text of a document that starts at an indentation depth. -/
def wide (depth : Nat) : Json → String
  | .array items => lines "[" "]" depth (wideItems (depth + 1) items)
  | .object members => lines "\x7b" "\x7d" depth (wideMembers (depth + 1) members)
  | .null => "null"
  | .bool b => if b then "true" else "false"
  | .integer i => toString i
  | .number x => Number.jsonText x
  | .string s => quote s

def wideItems (depth : Nat) : List Json → List String
  | [] => []
  | item :: rest => wide depth item :: wideItems depth rest

def wideMembers (depth : Nat) : List (String × Json) → List String
  | [] => []
  | (name, item) :: rest => (quote name ++ ": " ++ wide depth item) :: wideMembers depth rest

end

/-- The wide text of a document. -/
def pretty (j : Json) : String := wide 0 j

end Formula.Json
