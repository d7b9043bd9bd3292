/-!
# Measures of a text and occurrences in it

Lengths and places in text count 16-bit units: a character beyond the basic plane counts twice.
-/

namespace Formula.Text

/-- How many 16-bit units a character takes. -/
def units16 (c : Char) : Nat := if c.toNat < 0x10000 then 1 else 2

/-- The length of a text in 16-bit units. -/
def length16 (cs : List Char) : Nat := cs.foldl (fun n c => n + units16 c) 0

/-- What stands before the first occurrence of a pattern, in reverse and in front of `before`. -/
def searchFrom (pattern : List Char) : List Char → List Char → Option (List Char)
  | before, [] => if pattern.isEmpty then some before else none
  | before, c :: rest =>
    if pattern.isPrefixOf (c :: rest) then some before else searchFrom pattern (c :: before) rest

/-- What stands before the first occurrence of a pattern, if there is one. -/
def beforeFirst? (pattern text : List Char) : Option (List Char) :=
  (searchFrom pattern [] text).map List.reverse

/-- Whether a pattern occurs in a text. -/
def occurs (pattern text : List Char) : Bool := (beforeFirst? pattern text).isSome

/-- An ASCII letter as a small letter; other characters stay. -/
def lowerAscii (cs : List Char) : List Char := cs.map Char.toLower

end Formula.Text
