import Formula.Number.Decimal
import Formula.Text.Blank

/-!
# Reading numbers

A numeral is a decimal literal: digits with an optional point, then an optional power of ten. Text
converts to a number as follows: blanks at the ends are ignored, nothing at all is zero, `0x`,
`0o` and `0b` start digits of another radix, and otherwise a sign may stand before `Infinity` or a
numeral. Any other text is NaN.
-/

namespace Formula

/-- Whether a character is one of the ten ASCII digits. -/
def isDecimalDigit (c : Char) : Bool := '0' ≤ c && c ≤ '9'

/-- The value of a digit in a radix up to sixteen, letters in either case. -/
def digitValue? (radix : Nat) (c : Char) : Option Nat :=
  let v :=
    if '0' ≤ c ∧ c ≤ '9' then some (c.toNat - 48)
    else if 'a' ≤ c ∧ c ≤ 'f' then some (c.toNat - 87)
    else if 'A' ≤ c ∧ c ≤ 'F' then some (c.toNat - 55)
    else none
  v.filter (· < radix)

/-- The value of a string of decimal digits. -/
def digitsValue (cs : List Char) : Nat := cs.foldl (fun n c => 10 * n + (c.toNat - 48)) 0

/-- A decimal literal, split into its parts. -/
structure Numeral where
  whole : List Char
  fraction : List Char
  exponent : Int
deriving DecidableEq, Repr

namespace Numeral

/-- The number a numeral denotes. -/
def value (n : Numeral) : Decimal :=
  ⟨digitsValue (n.whole ++ n.fraction), n.exponent - n.fraction.length⟩

def isExponentMark (c : Char) : Bool := c == 'e' || c == 'E'

/-- The power of ten after its mark: an optional sign and at least one digit. -/
def readExponent? (cs : List Char) : Option Int :=
  let (negative, ds) :=
    match cs with
    | '-' :: rest => (true, rest)
    | '+' :: rest => (false, rest)
    | rest => (false, rest)
  if ds.isEmpty || !ds.all isDecimalDigit then none
  else some (if negative then -(digitsValue ds : Int) else digitsValue ds)

/-- Reads a whole text as a numeral. -/
def read? (cs : List Char) : Option Numeral :=
  let mantissa := cs.takeWhile (!isExponentMark ·)
  let whole := mantissa.takeWhile (· != '.')
  let fraction := (mantissa.dropWhile (· != '.')).drop 1
  if (whole.isEmpty && fraction.isEmpty) || !whole.all isDecimalDigit
      || !fraction.all isDecimalDigit then none
  else
    match cs.dropWhile (!isExponentMark ·) with
    | [] => some ⟨whole, fraction, 0⟩
    | _ :: power => (readExponent? power).map fun e => ⟨whole, fraction, e⟩

end Numeral

namespace Number

/-- The digits of a radix, one after the other, each step rounded to a double. -/
def ofRadix (radix : Nat) (values : List Nat) : Float :=
  values.foldl (fun acc d => acc * Float.ofNat radix + Float.ofNat d) 0.0

/-- All characters as digits of a radix; none if one is not a digit. -/
def radixDigits? (radix : Nat) (cs : List Char) : Option (List Nat) := cs.mapM (digitValue? radix)

/-- The radix that the start of a text announces, with the rest of the text. -/
def radixPrefix? : List Char → Option (Nat × List Char)
  | '0' :: 'x' :: rest => some (16, rest)
  | '0' :: 'X' :: rest => some (16, rest)
  | '0' :: 'o' :: rest => some (8, rest)
  | '0' :: 'O' :: rest => some (8, rest)
  | '0' :: 'b' :: rest => some (2, rest)
  | '0' :: 'B' :: rest => some (2, rest)
  | _ => none

/-- A sign and what follows it. -/
def splitSign : List Char → Bool × List Char
  | '-' :: rest => (true, rest)
  | '+' :: rest => (false, rest)
  | rest => (false, rest)

/-- The number of an unsigned text: `Infinity` or a numeral. -/
def unsigned? (cs : List Char) : Option Float :=
  if cs = "Infinity".toList then some infinity else (Numeral.read? cs).map fun n => n.value.toFloat

/-- Converts text to a number; NaN if it is none. -/
def parseChars (text : List Char) : Float :=
  match Text.trim text with
  | [] => 0.0
  | cs =>
    match radixPrefix? cs with
    | some (radix, ds) =>
      if ds.isEmpty then nan
      else
        match radixDigits? radix ds with
        | some values => ofRadix radix values
        | none => nan
    | none =>
      match unsigned? (splitSign cs).2 with
      | some x => if (splitSign cs).1 then -x else x
      | none => nan

/-- Converts a string to a number; NaN if it is none. -/
def parse (s : String) : Float := parseChars s.toList

end Number

end Formula
