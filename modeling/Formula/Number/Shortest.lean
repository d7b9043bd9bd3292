import Formula.Number.Decimal

/-!
# The fewest digits that identify a double

The reals that round to a double form an interval: from half way to the neighbour below to half
way to the neighbour above, ends included exactly when the mantissa is even. The search takes
grids of one, two, ... digits; the first grid with a point in the interval wins, of two such
points the nearer one, and an exact tie is decided by the caller's rule. Everything is compared in
whole numbers.
-/

namespace Formula

/-- What becomes of a value half way between two candidates. -/
inductive Tie where
  | up
  | toEven
deriving DecidableEq, Repr

namespace Exact

/-- Compares `c * 10 ^ i` with `n * 2 ^ j`. -/
def compareScaled (c : Nat) (i : Int) (n : Nat) (j : Int) : Ordering :=
  compare (c * Nat.pow 10 i.toNat * Nat.pow 2 (-j).toNat)
    (n * Nat.pow 2 j.toNat * Nat.pow 10 (-i).toNat)

/-- Whether the gap to the neighbour below is half the gap to the neighbour above. -/
def narrowBelow (x : Exact) : Bool := x.mantissa == Nat.pow 2 52 && x.exponent > -1074

/-- Whether a decimal rounds to the magnitude of `x`, to nearest with ties to even. -/
def readsBack (x : Exact) (d : Decimal) : Bool :=
  let low := if x.narrowBelow then 4 * x.mantissa - 1 else 4 * x.mantissa - 2
  let high := 4 * x.mantissa + 2
  let ends := x.mantissa % 2 == 0
  let above := compareScaled d.coefficient d.exponent low (x.exponent - 2)
  let below := compareScaled d.coefficient d.exponent high (x.exponent - 2)
  (above == .gt || (ends && above == .eq)) && (below == .lt || (ends && below == .eq))

/-- Raises `k` until the magnitude of `x` is below `10 ^ k`, at most `fuel` times. -/
def raiseScale (x : Exact) : (fuel : Nat) → Int → Int
  | 0, k => k
  | fuel + 1, k =>
    if compareScaled 1 k x.mantissa x.exponent == .gt then k else raiseScale x fuel (k + 1)

/-- The least `k` with the magnitude below `10 ^ k`; the first guess, from the binary logarithm,
is not above it. -/
def scale (x : Exact) : Int :=
  x.raiseScale 4 ((((x.mantissa.log2 : Int) + x.exponent) * 30103) / 100000)

/-- The whole part of the magnitude divided by `10 ^ i`. -/
def steps (x : Exact) (i : Int) : Nat :=
  (x.mantissa * Nat.pow 2 x.exponent.toNat * Nat.pow 10 (-i).toNat)
    / (Nat.pow 10 i.toNat * Nat.pow 2 (-x.exponent).toNat)

/-- The point of the grid `10 ^ i` that identifies `x`, if one does. -/
def onGrid (tie : Tie) (x : Exact) (i : Int) : Option Decimal :=
  let low : Decimal := ⟨x.steps i, i⟩
  let high : Decimal := ⟨x.steps i + 1, i⟩
  match x.readsBack low, x.readsBack high with
  | false, false => none
  | true, false => some low
  | false, true => some high
  | true, true =>
    match compareScaled (low.coefficient + high.coefficient) i x.mantissa (x.exponent + 1) with
    | .gt => some low
    | .lt => some high
    | .eq => if tie = .toEven ∧ low.coefficient % 2 = 0 then some low else some high

/-- Moves trailing zeros of the coefficient into the exponent, at most `fuel` of them. -/
def strip : (fuel : Nat) → Decimal → Decimal
  | 0, d => d
  | fuel + 1, d =>
    if d.coefficient % 10 = 0 ∧ d.coefficient ≠ 0 then
      strip fuel ⟨d.coefficient / 10, d.exponent + 1⟩
    else d

/-- The whole magnitude, all its digits written out. -/
def allDigits (x : Exact) : Decimal :=
  if 0 ≤ x.exponent then ⟨x.mantissa * Nat.pow 2 x.exponent.toNat, 0⟩
  else ⟨x.mantissa * Nat.pow 5 (-x.exponent).toNat, x.exponent⟩

/-- The shortest decimal that identifies the magnitude of a number other than zero. -/
def shortest (tie : Tie) (x : Exact) : Decimal :=
  let k := x.scale
  match (List.range 17).findSome? fun n => x.onGrid tie (k - ((n : Nat) + 1 : Nat)) with
  | some d => strip 400 d
  | none => strip 400 x.allDigits

end Exact

end Formula
