/-!
# Doubles as exact numbers

A finite double is a signed natural number times a power of two. Rounding to whole numbers,
remainders and conversions to integers are computed on that exact form, so none of them depends on
the accuracy of a floating-point operation.
-/

namespace Formula

/-- The number `± mantissa * 2 ^ exponent`. -/
structure Exact where
  negative : Bool
  mantissa : Nat
  exponent : Int
deriving DecidableEq, Repr

namespace Number

/-- Whether the sign bit is set; this tells `-0` from `0`. -/
def signBit (x : Float) : Bool := x.toBits >>> 63 == 1

/-- The exact form of a double, none for NaN and the infinities. -/
def decode? (x : Float) : Option Exact :=
  let bits := x.toBits
  let biased := ((bits >>> 52) &&& 0x7FF).toNat
  let fraction := (bits &&& 0xFFFFFFFFFFFFF).toNat
  if biased = 0x7FF then none
  else if biased = 0 then some ⟨signBit x, fraction, -1074⟩
  else some ⟨signBit x, Nat.pow 2 52 + fraction, (biased : Int) - 1075⟩

def infinity : Float := 1.0 / 0.0

def nan : Float := 0.0 / 0.0

def isZero (x : Float) : Bool := x == 0.0

/-- The magnitude of `x` with the sign of `s`. -/
def withSign (negative : Bool) (x : Float) : Float := if negative then -x.abs else x.abs

end Number

namespace Exact

/-- The magnitude without its fraction. -/
def whole (e : Exact) : Nat :=
  if 0 ≤ e.exponent then e.mantissa * Nat.pow 2 e.exponent.toNat
  else e.mantissa / Nat.pow 2 (-e.exponent).toNat

/-- Whether there is no fraction. -/
def isWhole (e : Exact) : Bool := 0 ≤ e.exponent || e.mantissa % Nat.pow 2 (-e.exponent).toNat == 0

/-- The integer part, toward zero. -/
def truncated (e : Exact) : Int := if e.negative then -(e.whole : Int) else e.whole

/-- The greatest integer that is not above the number. -/
def floored (e : Exact) : Int :=
  if e.negative then (if e.isWhole then -(e.whole : Int) else -(e.whole : Int) - 1) else e.whole

end Exact

namespace Number

/-- Whether the number is finite and has no fraction. -/
def isInteger (x : Float) : Bool :=
  match decode? x with
  | some e => e.isWhole
  | none => false

/-- An integer as a double that has the sign of `x` also when it is zero. -/
def ofIntLike (x : Float) (i : Int) : Float := withSign (signBit x) (Float.ofInt i)

/-- The integer part, toward zero, as a double. -/
def trunc (x : Float) : Float :=
  match decode? x with
  | some e => if 0 ≤ e.exponent then x else ofIntLike x e.truncated
  | none => x

/-- The greatest whole number not above `x`. -/
def floor (x : Float) : Float :=
  match decode? x with
  | some e => if 0 ≤ e.exponent then x else ofIntLike x e.floored
  | none => x

/-- The least whole number not below `x`. -/
def ceil (x : Float) : Float := -floor (-x)

/-- To the nearest whole number, halves toward positive infinity, keeping the sign of zero. -/
def round (x : Float) : Float :=
  let below := floor x
  let rounded := if x - below ≥ 0.5 then below + 1.0 else below
  if rounded == 0.0 then withSign (signBit x) rounded else rounded

/-- The least and the greatest 64-bit integer. -/
def int64Range : Int × Int := (-9223372036854775808, 9223372036854775807)

/-- The integer part as a 64-bit integer: NaN is zero, and what does not fit becomes the nearest
that does. -/
def toInt (x : Float) : Int :=
  match decode? x with
  | some e => max int64Range.1 (min int64Range.2 e.truncated)
  | none => if x == infinity then int64Range.2 else if x == -infinity then int64Range.1 else 0

/-- The integer part modulo 2 ^ 32, as a signed 32-bit integer; zero for NaN and the infinities.
-/
def toInt32 (x : Float) : Int :=
  match decode? x with
  | some e => Int.bmod e.truncated (Nat.pow 2 32)
  | none => 0

/-- The remainder of the truncated quotient; it has the sign of the dividend. -/
def remainder (x y : Float) : Float :=
  match decode? x, decode? y with
  | some a, some b =>
    if b.mantissa = 0 then nan
    else
      let e := min a.exponent b.exponent
      let r := (a.mantissa * Nat.pow 2 (a.exponent - e).toNat)
        % (b.mantissa * Nat.pow 2 (b.exponent - e).toNat)
      withSign a.negative ((Float.ofNat r).scaleB e)
  | some _, none => if y.isNaN then nan else x
  | none, _ => nan

/-- Which of two numbers is greater; none if one is NaN. -/
def compare? (x y : Float) : Option Ordering :=
  if x < y then some .lt else if x > y then some .gt else if x == y then some .eq else none

/-- One of `1`, `-1`, or the number itself when it is zero or NaN. -/
def sign (x : Float) : Float :=
  if x.isNaN || x == 0.0 then x else withSign (signBit x) 1.0

end Number

end Formula
