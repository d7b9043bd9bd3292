import Formula.Number.Numeral
import Formula.Number.Text

/-!
# Elementary functions

The functions of one and two numbers that the standard tables offer beyond those of the platform.
Rounding to decimal places moves the exponent of the number's text, so that `1.005` rounds to
`1.01` and not to the nearest double's neighbour.
-/

namespace Formula.Number

/-! ### Logarithms and exponentials near zero -/

/-- The high and the low part of the natural logarithm of two. -/
def ln2High : Float := Float.ofBits 0x3fe62e42fee00000

def ln2Low : Float := Float.ofBits 0x3dea39ef35793c76

/-- The polynomial in `z` behind `log1p`, with coefficients near `2 / (2 k + 1)`. -/
def log1pSeries (z : Float) : Float :=
  let c1 := Float.ofBits 0x3FE5555555555593
  let c2 := Float.ofBits 0x3FD999999997FA04
  let c3 := Float.ofBits 0x3FD2492494229359
  let c4 := Float.ofBits 0x3FCC71C51D8E78AF
  let c5 := Float.ofBits 0x3FC7466496CB03DE
  let c6 := Float.ofBits 0x3FC39A09D078C69F
  let c7 := Float.ofBits 0x3FC2F112DF3E5244
  let r1 := z * c1
  let z2 := z * z
  let r2 := c2 + z * c3
  let z4 := z2 * z2
  let r3 := c4 + z * c5
  let z6 := z4 * z2
  let r4 := c6 + z * c7
  r1 + z2 * r2 + z4 * r3 + z6 * r4

/-- The upper 32 bits of a double. -/
def highWord (x : Float) : Nat := (x.toBits >>> 32).toNat

/-- A double with its upper 32 bits replaced. -/
def withHighWord (x : Float) (h : Nat) : Float :=
  Float.ofBits ((UInt64.ofNat h <<< 32) ||| (x.toBits &&& 0xFFFFFFFF))

/-- The last step of `log1p`, for `1 + f` scaled by `2 ^ k` with correction `c`. -/
def log1pReduced (f : Float) (k : Int) (hu : Nat) (c : Float) : Float :=
  let hfsq := 0.5 * f * f
  let kf := Float.ofInt k
  if hu = 0 then
    if f == 0.0 then
      if k = 0 then 0.0 else kf * ln2High + (c + kf * ln2Low)
    else
      let r := hfsq * (1.0 - 0.66666666666666666 * f)
      if k = 0 then f - r else kf * ln2High - ((r - (kf * ln2Low + c)) - f)
  else
    let s := f / (2.0 + f)
    let r := log1pSeries (s * s)
    if k = 0 then f - (hfsq - s * (hfsq + r))
    else kf * ln2High - ((hfsq - (s * (hfsq + r) + (kf * ln2Low + c))) - f)

/-- `ln (1 + x)`, accurate also for small `x`. -/
def log1p (x : Float) : Float :=
  if x.isNaN then x
  else if x < -1.0 then nan
  else if x == -1.0 then -infinity
  else if x == infinity then x
  else if x.abs < 1.8626451492309570e-9 then
    if x.abs < 5.5511151231257827e-17 then x else x - x * x * 0.5
  else if highWord x < 0x3FDA827A || (0x80000000 ≤ highWord x && highWord x ≤ 0xbfd2bec3) then
    log1pReduced x 0 1 0.0
  else
    let big := x.abs ≥ 9007199254740992.0
    let u := if big then x else 1.0 + x
    let hu := highWord u
    let k : Int := (hu / Nat.pow 2 20 : Nat) - 1023
    let c := if big then 0.0 else (if 0 < k then 1.0 - (u - x) else x - (u - 1.0)) / u
    let fraction := hu % Nat.pow 2 20
    if fraction < 0x6a09e then
      log1pReduced (withHighWord u (fraction ||| 0x3ff00000) - 1.0) k fraction c
    else
      log1pReduced (withHighWord u (fraction ||| 0x3fe00000) - 1.0) (k + 1)
        ((0x00100000 - fraction) / 4) c

/-- The rational part behind `expm1`. -/
def expm1Series (hxs : Float) : Float :=
  let q1 := Float.ofBits 0xBFA11111111110F4
  let q2 := Float.ofBits 0x3F5A01A019FE5585
  let q3 := Float.ofBits 0xBF14CE199EAADBB7
  let q4 := Float.ofBits 0x3ED0CFCA86E65239
  let q5 := Float.ofBits 0xBE8AFDB76E09C32D
  let r1 := 1.0 + hxs * q1
  let h2 := hxs * hxs
  let r2 := q2 + hxs * q3
  let h4 := h2 * h2
  let r3 := q4 + hxs * q5
  r1 + h2 * r2 + h4 * r3

/-- `exp x - 1` for a reduced argument `x` with correction `c`, then scaled by `2 ^ k`. -/
def expm1Reduced (x : Float) (k : Int) (c : Float) : Float :=
  let hfx := 0.5 * x
  let hxs := x * hfx
  let r1 := expm1Series hxs
  let t := 3.0 - r1 * hfx
  let e := hxs * ((r1 - t) / (6.0 - x * t))
  if k = 0 then x - (x * e - hxs)
  else
    let e := (x * (e - c) - c) - hxs
    if k = -1 then 0.5 * (x - e) - 0.5
    else if k = 1 then (if x < -0.25 then -2.0 * (e - (x + 0.5)) else 1.0 + 2.0 * (x - e))
    else if k ≤ -2 || k > 56 then (1.0 - (e - x)).scaleB k - 1.0
    else if k < 20 then ((1.0 - Float.scaleB 1.0 (-k)) - (e - x)).scaleB k
    else ((x - (e + Float.scaleB 1.0 (-k))) + 1.0).scaleB k

/-- `exp x - 1`, accurate also for small `x`. -/
def expm1 (x : Float) : Float :=
  if x.isNaN then x
  else if x == infinity then x
  else if x == -infinity then -1.0
  else if x > 709.782712893383973096 then infinity
  else if x < -56.0 * 0.693147180559945309 then -1.0
  else if x.abs < 5.5511151231257827e-17 then x
  else
    let hx := highWord x % Nat.pow 2 31
    if hx > 0x3fd62e42 then
      let (hi, lo, k) : Float × Float × Int :=
        if hx < 0x3FF0A2B2 then
          if x > 0.0 then (x - ln2High, ln2Low, 1) else (x + ln2High, -ln2Low, -1)
        else
          let k := Number.toInt (1.44269504088896338700 * x + (if x < 0.0 then -0.5 else 0.5))
          (x - Float.ofInt k * ln2High, Float.ofInt k * ln2Low, k)
      let r := hi - lo
      expm1Reduced r k ((hi - r) - lo)
    else expm1Reduced x 0 0.0

/-! ### Hyperbolic inverses -/

/-- The whole part of a square root, by Newton's steps from above. -/
def rootSteps (n : Nat) : (fuel : Nat) → Nat → Nat
  | 0, r => r
  | fuel + 1, r =>
    let next := (r + n / r) / 2
    if next < r then rootSteps n fuel next else r

/-- The whole part of the square root of a natural number. -/
def rootFloor (n : Nat) : Nat :=
  if n = 0 then 0 else rootSteps n (n.log2 + 2) (Nat.pow 2 (n.log2 / 2 + 1))

/-- The square root of `n * 2 ^ (2 * e)` for a number with many bits, rounded to the nearest
double. -/
def roundedRoot (n : Nat) (e : Int) : Float :=
  let r := rootFloor n
  let exact := if r * r = n then 2 * r else 2 * r + 1
  let drop := exact.log2 - 60
  let kept := exact / Nat.pow 2 drop
  let kept := if exact % Nat.pow 2 drop = 0 then kept else kept ||| 1
  (Float.ofNat kept).scaleB (e - 1 + drop)

/-- The length of the hypotenuse, computed exactly and rounded once. -/
def hypotenuse (x y : Float) : Float :=
  match decode? x, decode? y with
  | some a, some b =>
    if a.mantissa = 0 then y.abs
    else if b.mantissa = 0 then x.abs
    else
      let e := min a.exponent b.exponent
      let p := a.mantissa * Nat.pow 2 (a.exponent - e).toNat
      let q := b.mantissa * Nat.pow 2 (b.exponent - e).toNat
      roundedRoot ((p * p + q * q) * Nat.pow 2 128) (e - 64)
  | _, _ => if x.abs == infinity || y.abs == infinity then infinity else nan

def asinh (x : Float) : Float :=
  let ax := x.abs
  let ix := 1.0 / ax
  withSign (signBit x) (log1p (ax + ax / (hypotenuse 1.0 ix + ix)))

def acosh (x : Float) : Float :=
  if x < 1.0 then nan else Float.log (x + (x - 1.0).sqrt * (x + 1.0).sqrt)

def atanh (x : Float) : Float := 0.5 * log1p (2.0 * x / (1.0 - x))

/-! ### Powers and the gamma function -/

/-- A power; it is NaN where the exponent is, and where one is raised to an infinite power. -/
def power (base exponent : Float) : Float :=
  if exponent.isNaN || (base.abs == 1.0 && exponent.isInf) then nan else Float.pow base exponent

def pi : Float := 3.14159265358979323846

def euler : Float := 2.71828182845904523536

/-- The coefficients of the approximation of the gamma function between one half and 85, the
constant first. -/
def gammaSeries : List Float :=
  [0.99999999999999709182, 57.156235665862923517, -59.597960355475491248, 14.136097974741747174,
   -0.49191381609762019978, 0.33994649984811888699e-4, 0.46523628927048575665e-4,
   -0.98374475304879564677e-4, 0.15808870322491248884e-3, -0.21026444172410488319e-3,
   0.21743961811521264320e-3, -0.16431810653676389022e-3, 0.84418223983852743293e-4,
   -0.26190838401581408670e-4, 0.36899182659531622704e-5]

/-- The product of `r` and of the whole numbers from `v` down to two. -/
def fallingProduct : (fuel : Nat) → (r v : Float) → Float
  | 0, r, _ => r
  | fuel + 1, r, v => if v > 1.0 then fallingProduct fuel (r * v) (v - 1.0) else r

/-- The gamma function of a number that is not whole and at least one half. -/
def gammaUpper (n : Float) : Float :=
  if n ≥ 171.35 then infinity
  else if n > 85.0 then
    let n2 := n * n
    let n3 := n2 * n
    let n4 := n3 * n
    let n5 := n4 * n
    (2.0 * pi / n).sqrt * Float.pow (n / euler) n
      * (1.0 + 1.0 / (12.0 * n) + 1.0 / (288.0 * n2) - 139.0 / (51840.0 * n3)
        - 571.0 / (2488320.0 * n4) + 163879.0 / (209018880.0 * n5)
        + 5246819.0 / (75246796800.0 * n5 * n))
  else
    let n := n - 1.0
    let x := match gammaSeries with
      | [] => 0.0
      | first :: rest => rest.zipIdx.foldl (fun x (p, i) => x + p / (n + Float.ofNat (i + 1))) first
    let t := n + 4.7421875 + 0.5
    (2.0 * pi).sqrt * Float.pow t (n + 0.5) * Float.exp (-t) * x

/-- The gamma function of a whole number, multiplied out. -/
def gammaWhole (n : Float) : Float :=
  if n ≤ 0.0 then infinity
  else if n > 171.0 then infinity
  else
    let r := fallingProduct 200 (n - 1.0) (n - 2.0)
    if r == 0.0 then 1.0 else r

/-- The gamma function of a number that is at least one half, or whole, or NaN. -/
def gammaRight (n : Float) : Float := if isInteger n then gammaWhole n else gammaUpper n

/-- The gamma function; below one half the reflection formula is used. -/
def gamma (n : Float) : Float :=
  if !isInteger n && n < 0.5 then pi / (Float.sin (pi * n) * gammaRight (1.0 - n)) else gammaRight n

/-- The length of a vector; infinite as soon as one part is. -/
def hypot (values : List Float) : Float :=
  if values.any Float.isInf then infinity else values.foldl hypotenuse 0.0

/-! ### Decimal places -/

/-- The text of a number read again with `places` added to its power of ten. -/
def shiftDecimal (x places : Float) : Float :=
  let cs := (text x).toList
  let mantissa := cs.takeWhile (· != 'e')
  let power :=
    match cs.dropWhile (· != 'e') with
    | [] => places
    | _ :: e => parseChars e + places
  parseChars (mantissa ++ 'e' :: (text power).toList)

/-- Rounds to a number of decimal places; a negative number of places rounds to tens, hundreds and
so on. -/
def roundTo (x places : Float) : Float :=
  if x.isNaN || !isInteger places then nan
  else shiftDecimal (round (shiftDecimal x places)) (-places)

end Formula.Number
