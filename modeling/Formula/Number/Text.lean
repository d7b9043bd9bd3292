import Formula.Number.Shortest

/-!
# The text of a number

The language writes a number with the fewest digits that identify it. It has no negative zero:
zero is written `0` whatever its sign. JSON keeps the sign of zero and has no text for NaN and the
infinities.
-/

namespace Formula.Number

/-- The fewest digits that identify the magnitude of a finite number, zero included. -/
def decimal (tie : Tie) (e : Exact) : Decimal := if e.mantissa = 0 then ⟨0, 0⟩ else e.shortest tie

/-- The text of a number in the language. -/
def text (x : Float) : String :=
  match decode? x with
  | none => if x.isNaN then "NaN" else if x > 0.0 then "Infinity" else "-Infinity"
  | some e =>
    if e.mantissa = 0 then "0"
    else String.ofList ((if e.negative then ['-'] else []) ++ (e.shortest .up).text)

/-- The text of a finite number in JSON. -/
def jsonText (x : Float) : String :=
  match decode? x with
  | none => "null"
  | some e => String.ofList ((if e.negative then ['-'] else []) ++ (decimal .toEven e).jsonText)

end Formula.Number
