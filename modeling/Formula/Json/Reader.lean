import Formula.Json
import Formula.Number.Numeral

/-!
# Reading JSON

The grammar is the strict one: no trailing comma, no leading zero, no control character inside a
string, no half of a surrogate pair alone, nothing after the document. A number that is too large
for a double is refused, and so are arrays and objects nested 128 deep. A whole number without
point and power stays whole when it fits in 64 bits; minus zero does not, since only a double can
tell it from zero.
-/

namespace Formula.Json

def isBlank (c : Char) : Bool := c == ' ' || c == '\n' || c == '\t' || c == '\r'

def skipBlanks (cs : List Char) : List Char := cs.dropWhile isBlank

/-! ### Strings -/

/-- The value of four hexadecimal digits. -/
def hex4? (a b c d : Char) : Option Nat :=
  match digitValue? 16 a, digitValue? 16 b, digitValue? 16 c, digitValue? 16 d with
  | some a, some b, some c, some d => some (((a * 16 + b) * 16 + c) * 16 + d)
  | _, _, _, _ => none

/-- The character of a one-letter escape. -/
def shortEscape? : Char → Option Char
  | '"' => some '"'
  | '\\' => some '\\'
  | '/' => some '/'
  | 'b' => some '\x08'
  | 'f' => some '\x0c'
  | 'n' => some '\n'
  | 'r' => some '\r'
  | 't' => some '\t'
  | _ => none

def isHighSurrogate (n : Nat) : Bool := 0xD800 ≤ n && n < 0xDC00

def isLowSurrogate (n : Nat) : Bool := 0xDC00 ≤ n && n < 0xE000

/-- The rest of a string after its opening quote; `acc` holds the characters so far in reverse. -/
def readString? : List Char → (acc : List Char) → Option (String × List Char)
  | '"' :: rest, acc => some (String.ofList acc.reverse, rest)
  | '\\' :: 'u' :: a :: b :: c :: d :: '\\' :: 'u' :: e :: f :: g :: h :: rest, acc =>
    match hex4? a b c d, hex4? e f g h with
    | some hi, some lo =>
      if isHighSurrogate hi then
        if isLowSurrogate lo then
          readString? rest (Char.ofNat (0x10000 + (hi - 0xD800) * 0x400 + (lo - 0xDC00)) :: acc)
        else none
      else if isLowSurrogate hi then none
      else readString? ('\\' :: 'u' :: e :: f :: g :: h :: rest) (Char.ofNat hi :: acc)
    | some hi, none =>
      if isHighSurrogate hi || isLowSurrogate hi then none
      else readString? ('\\' :: 'u' :: e :: f :: g :: h :: rest) (Char.ofNat hi :: acc)
    | none, _ => none
  | '\\' :: 'u' :: a :: b :: c :: d :: rest, acc =>
    match hex4? a b c d with
    | some n =>
      if isHighSurrogate n || isLowSurrogate n then none else readString? rest (Char.ofNat n :: acc)
    | none => none
  | '\\' :: c :: rest, acc =>
    match shortEscape? c with
    | some ch => readString? rest (ch :: acc)
    | none => none
  | c :: rest, acc => if c.toNat < 0x20 then none else readString? rest (c :: acc)
  | [], _ => none
termination_by cs => cs.length

/-! ### Numbers -/

/-- The number of its parts: sign, whole digits, and what makes it no integer. -/
def numberOf? (negative : Bool) (whole fraction : List Char) (power : Option Int) : Option Json :=
  let magnitude := digitsValue whole
  let isInteger := fraction.isEmpty && power.isNone
  if isInteger && !negative && magnitude < Nat.pow 2 64 then some (.integer magnitude)
  else if isInteger && negative && 0 < magnitude && magnitude ≤ Nat.pow 2 63 then
    some (.integer (-(magnitude : Int)))
  else
    let x := Decimal.toFloat (Numeral.value ⟨whole, fraction, power.getD 0⟩)
    if x == Number.infinity then none else some (.number (if negative then -x else x))

/-- The power of ten after a number's digits, if there is one; the outer option is none on a mark
without digits. -/
def readPower? : List Char → Option (Option Int × List Char)
  | c :: rest =>
    if Numeral.isExponentMark c then
      let negative := match rest with
        | '-' :: _ => true
        | _ => false
      let ds := match rest with
        | '-' :: ds => ds
        | '+' :: ds => ds
        | ds => ds
      let digits := ds.takeWhile isDecimalDigit
      if digits.isEmpty then none
      else
        let e : Int := digitsValue digits
        some (some (if negative then -e else e), ds.dropWhile isDecimalDigit)
    else some (none, c :: rest)
  | [] => some (none, [])

/-- A number without its sign. -/
def readUnsigned? (negative : Bool) (cs : List Char) : Option (Json × List Char) :=
  let whole := cs.takeWhile isDecimalDigit
  let rest := cs.dropWhile isDecimalDigit
  if whole.isEmpty || (whole.head? == some '0' && whole.length != 1) then none
  else
    match rest with
    | '.' :: more =>
      let fraction := more.takeWhile isDecimalDigit
      if fraction.isEmpty then none
      else
        match readPower? (more.dropWhile isDecimalDigit) with
        | some (power, rest) => (numberOf? negative whole fraction power).map (·, rest)
        | none => none
    | _ =>
      match readPower? rest with
      | some (power, rest) => (numberOf? negative whole [] power).map (·, rest)
      | none => none

/-! ### Documents -/

/-- Reads a fixed word. -/
def readWord? (word : List Char) (j : Json) (cs : List Char) : Option (Json × List Char) :=
  if word.isPrefixOf cs then some (j, cs.drop word.length) else none

mutual

/-- A value, blanks before it skipped; `depth` is how many more arrays and objects may open. -/
def readValue? : (fuel depth : Nat) → List Char → Option (Json × List Char)
  | 0, _, _ => none
  | fuel + 1, depth, cs =>
    match skipBlanks cs with
    | '"' :: rest => (readString? rest []).map fun (s, rest) => (.string s, rest)
    | 'n' :: rest => readWord? "ull".toList .null rest
    | 't' :: rest => readWord? "rue".toList (.bool true) rest
    | 'f' :: rest => readWord? "alse".toList (.bool false) rest
    | '-' :: rest => readUnsigned? true rest
    | '[' :: rest =>
      if depth ≤ 1 then none
      else
        match skipBlanks rest with
        | ']' :: rest => some (.array [], rest)
        | rest =>
          (readItems? fuel (depth - 1) rest []).map fun (items, rest) => (.array items, rest)
    | '\x7b' :: rest =>
      if depth ≤ 1 then none
      else
        match skipBlanks rest with
        | '\x7d' :: rest => some (.object [], rest)
        | rest => (readMembers? fuel (depth - 1) rest []).map fun (ms, rest) => (.object ms, rest)
    | rest => readUnsigned? false rest

/-- The items of an array up to its end, at least one; `acc` holds those so far in reverse. -/
def readItems? : (fuel depth : Nat) → List Char → List Json → Option (List Json × List Char)
  | 0, _, _, _ => none
  | fuel + 1, depth, cs, acc =>
    match readValue? fuel depth cs with
    | none => none
    | some (item, rest) =>
      match skipBlanks rest with
      | ',' :: rest => readItems? fuel depth rest (item :: acc)
      | ']' :: rest => some ((item :: acc).reverse, rest)
      | _ => none

/-- The members of an object up to its end, at least one; `acc` holds those so far in reverse. -/
def readMembers? :
    (fuel depth : Nat) → List Char → List (String × Json) →
      Option (List (String × Json) × List Char)
  | 0, _, _, _ => none
  | fuel + 1, depth, cs, acc =>
    match skipBlanks cs with
    | '"' :: rest =>
      match readString? rest [] with
      | none => none
      | some (name, rest) =>
        match skipBlanks rest with
        | ':' :: rest =>
          match readValue? fuel depth rest with
          | none => none
          | some (item, rest) =>
            match skipBlanks rest with
            | ',' :: rest => readMembers? fuel depth rest ((name, item) :: acc)
            | '\x7d' :: rest => some (((name, item) :: acc).reverse, rest)
            | _ => none
        | _ => none
    | _ => none

end

/-- Reads a document. -/
def read? (s : String) : Option Json :=
  let cs := s.toList
  match readValue? (2 * cs.length + 2) 128 cs with
  | some (j, rest) => if (skipBlanks rest).isEmpty then some j else none
  | none => none

end Formula.Json
