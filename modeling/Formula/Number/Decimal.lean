import Formula.Number.Exact

/-!
# Decimals

A decimal is a natural number times a power of ten. This module reads its digits, lays it out as
text in the two notations the language uses, and rounds it to a double.
-/

namespace Formula

/-- The number `coefficient * 10 ^ exponent`. -/
structure Decimal where
  coefficient : Nat
  exponent : Int
deriving DecidableEq, Repr

namespace Decimal

/-- The nearest double. A decimal far outside the range of doubles is settled before any power is
taken. -/
def toFloat (d : Decimal) : Float :=
  if d.coefficient = 0 then 0.0
  else if 400 < d.exponent then Number.infinity
  else if d.exponent + d.coefficient.log2 / 3 + 1 < -400 then 0.0
  else Float.ofScientific d.coefficient (d.exponent < 0) d.exponent.natAbs

/-- The digits of the coefficient. -/
def digits (d : Decimal) : List Char := Nat.toDigits 10 d.coefficient

def zeros (n : Int) : List Char := List.replicate n.toNat '0'

/-- The digits with a point after the first `n` of them, zeros filling up on either side. -/
def positional (ds : List Char) (n : Int) : List Char :=
  if (ds.length : Int) ≤ n then ds ++ zeros (n - ds.length)
  else if 0 < n then ds.take n.toNat ++ '.' :: ds.drop n.toNat
  else '0' :: '.' :: (zeros (-n) ++ ds)

/-- One digit, a point and the others, then the power of ten with its sign. -/
def scientific (ds : List Char) (e : Int) : List Char :=
  (match ds with
    | d :: r :: rest => d :: '.' :: r :: rest
    | short => short)
    ++ 'e' :: (if e < 0 then '-' else '+') :: Nat.toDigits 10 e.natAbs

/-- How many digits stand before the point. -/
def pointAfter (d : Decimal) : Int := d.digits.length + d.exponent

/-- The text of a decimal in the language: positional from `1e-6` to below `1e21`. -/
def text (d : Decimal) : List Char :=
  if -6 < d.pointAfter ∧ d.pointAfter ≤ 21 then positional d.digits d.pointAfter
  else scientific d.digits (d.pointAfter - 1)

/-- The text of a decimal in JSON: positional from `1e-5` to below `1e16` and then always with a
fraction. -/
def jsonText (d : Decimal) : List Char :=
  if -5 < d.pointAfter ∧ d.pointAfter ≤ 16 then
    if (d.digits.length : Int) ≤ d.pointAfter then positional d.digits d.pointAfter ++ ['.', '0']
    else positional d.digits d.pointAfter
  else scientific d.digits (d.pointAfter - 1)

end Decimal

end Formula
