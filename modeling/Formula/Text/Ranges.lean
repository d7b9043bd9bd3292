/-!
# Classes of characters

A class of characters is a list of ranges of code points, in ascending order.
-/

namespace Formula.Text

/-- First and last code points of the ranges of a class, in ascending order. -/
abbrev Ranges := List (Nat × Nat)

/-- Whether a code point lies in one of the ranges. -/
def Ranges.has : Ranges → Nat → Bool
  | [], _ => false
  | (first, last) :: rest, n => if n < first then false else n ≤ last || Ranges.has rest n

end Formula.Text
