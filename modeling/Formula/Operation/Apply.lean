import Formula.Operation
import Formula.Value.Text
import Formula.EvalError
import Formula.Number.Elementary

/-!
# What the built-in operations do

Each operation is a function of its arguments; a missing argument counts as undefined, and further
arguments are ignored. Most operations on numbers answer undefined as soon as an argument is
undefined.
-/

namespace Formula.Operation

/-- The argument at a place, undefined if it is missing. -/
def arg (args : List Value) (i : Nat) : Value := (args[i]?).getD .undefined

/-- A function of one number. -/
def onNumber (f : Float → Float) (args : List Value) : Value :=
  match arg args 0 with
  | .undefined => .undefined
  | a => .number (f a.toNumber)

/-- A function of two numbers. -/
def onNumbers (f : Float → Float → Float) (args : List Value) : Value :=
  match arg args 0, arg args 1 with
  | .undefined, _ => .undefined
  | _, .undefined => .undefined
  | a, b => .number (f a.toNumber b.toNumber)

/-- Two strings are compared by their characters, anything else as numbers; none if one is no
number. -/
def compare? (a b : Value) : Option Ordering :=
  match a.primitive, b.primitive with
  | .string s, .string t => some (compare s t)
  | a, b => Number.compare? a.toNumber b.toNumber

/-- Whether the comparison of the first two arguments is one of the given orders. -/
def ordered (orders : List Ordering) (args : List Value) : Value :=
  match compare? (arg args 0) (arg args 1) with
  | some o => .bool (orders.contains o)
  | none => .bool false

/-- Two strings are joined unless both are numbers; anything else is added. -/
def addition (args : List Value) : Value :=
  match arg args 0, arg args 1 with
  | .undefined, _ => .undefined
  | _, .undefined => .undefined
  | .string s, .string t =>
    if (Number.parse s).isNaN || (Number.parse t).isNaN then .string (s ++ t)
    else .number (Number.parse s + Number.parse t)
  | a, b => .number (a.toNumber + b.toNumber)

/-- Two arrays or two strings one after the other. -/
def concatenation (args : List Value) : Value :=
  match arg args 0, arg args 1 with
  | .array as, .array bs => .array (as ++ bs)
  | .string s, .string t => .string (s ++ t)
  | _, _ => .undefined

/-- The item, character or field at an index; the index is taken as a signed 32-bit integer. -/
def itemAt (args : List Value) : Value :=
  let i := Number.toInt32 (arg args 1).toNumber
  match arg args 0 with
  | .array items => if i < 0 then .undefined else (items[i.toNat]?).getD .undefined
  | .string s =>
    if i < 0 then .undefined
    else
      match s.toList[i.toNat]? with
      | some c => .string (String.ofList [c])
      | none => .undefined
  | .object fields => (Record.get? fields (toString i)).getD .undefined
  | _ => .undefined

/-- Whether an array has an equal item, or a string has the text of the value inside. -/
def contains (whole part : Value) : Bool :=
  match whole with
  | .array items => items.any (·.equal part)
  | .string s => Text.occurs part.text.toList s.toList
  | _ => false

/-- The second argument where the first is undefined, null, positive infinity or no number. -/
def coalescence (args : List Value) : Value :=
  match arg args 0 with
  | .undefined | .null => arg args 1
  | .number x =>
    if x == Number.infinity || x.isNaN then arg args 1 else .number x
  | a => if a.toNumber.isNaN then arg args 1 else a

/-- Whether a text is a word when ASCII letters of either case count the same. -/
def isWord (s word : String) : Bool := Text.lowerAscii s.toList == word.toList

/-- Converts the first argument to the type that the second one names. -/
def conversion (args : List Value) : Except EvalError Value :=
  match arg args 0, arg args 1 with
  | .undefined, _ => .ok .undefined
  | _, .undefined => .ok .undefined
  | a, .string type =>
    if isWord type "boolean" then .ok (.bool a.truthy)
    else if isWord type "int" || isWord type "integer" then .ok (.number (Number.round a.toNumber))
    else if isWord type "number" then .ok (.number a.toNumber)
    else .error (.unknownType type)
  | _, type => .error (.unknownType type.text)

/-- The number of items of an array, or of 16-bit units of the text of anything else. -/
def lengthOf (args : List Value) : Value :=
  match arg args 0 with
  | .undefined => .undefined
  | .array items => .number (Float.ofNat items.length)
  | a => .number (Float.ofNat (Text.length16 a.text.toList))

/-- The first index of a value in an array, or of a text in a string in 16-bit units; -1 if there
is none. -/
def firstIndex (args : List Value) : Except EvalError Value :=
  match arg args 1 with
  | .undefined => .ok .undefined
  | .array items =>
    match items.findIdx? (·.equal (arg args 0)) with
    | some i => .ok (.number (Float.ofNat i))
    | none => .ok (.number (-1.0))
  | .string s =>
    match Text.beforeFirst? (arg args 0).text.toList s.toList with
    | some before => .ok (.number (Float.ofNat (Text.length16 before)))
    | none => .ok (.number (-1.0))
  | _ => .error (.invalidArgument "Second argument to indexOf is not a string or array")

/-- The texts of the items with a separator between them; undefined and null are empty. -/
def joined (args : List Value) : Except EvalError Value :=
  match arg args 0, arg args 1 with
  | .undefined, _ => .ok .undefined
  | _, .undefined => .ok .undefined
  | separator, .array items =>
    .ok (.string (String.intercalate separator.text (Value.itemTexts items)))
  | _, _ => .error (.invalidArgument "Second argument to join is not an array")

/-- The arguments, or the items of a single array. -/
def spread : List Value → List Value
  | [.array items] => items
  | args => args

/-- The extreme of the arguments; `better new old` says whether a number replaces the one so far.
-/
def extreme (start : Float) (better : Float → Float → Bool) (args : List Value) : Value :=
  let values := spread args
  if values.any Value.isUndefined then .undefined
  else
    let numbers := values.map Value.toNumber
    if numbers.any Float.isNaN then .number Number.nan
    else .number (numbers.foldl (fun best x => if better x best then x else best) start)

/-- The length of the vector of the arguments. -/
def vectorLength (args : List Value) : Value :=
  if args.any Value.isUndefined then .undefined
  else .number (Number.hypot (args.map Value.toNumber))

/-- Rounds to the decimal places of the second argument, to whole numbers without one. -/
def rounding (args : List Value) : Value :=
  match arg args 0, arg args 1 with
  | .undefined, _ => .undefined
  | a, .undefined => .number (Number.round a.toNumber)
  | a, places =>
    if places.toNumber == 0.0 then .number (Number.round a.toNumber)
    else .number (Number.roundTo a.toNumber places.toNumber)

/-- The sum of the items of an array. -/
def total (args : List Value) : Except EvalError Value :=
  match arg args 0 with
  | .undefined => .ok .undefined
  | .array items =>
    if items.any Value.isUndefined then .ok .undefined
    else .ok (.number (items.foldl (fun n v => n + v.toNumber) 0.0))
  | _ => .error (.invalidArgument "Sum argument is not an array")

/-- The result of an operation. -/
def apply (op : Operation) (args : List Value) : Except EvalError Value :=
  match op with
  | negate => .ok (onNumber (fun x => -x) args)
  | identity => .ok (onNumber (fun x => x) args)
  | factorial => .ok (onNumber (fun x => Number.gamma (x + 1.0)) args)
  | negation => .ok (.bool (!(arg args 0).truthy))
  | length => .ok (lengthOf args)
  | abs => .ok (onNumber Float.abs args)
  | acos => .ok (onNumber Float.acos args)
  | acosh => .ok (onNumber Number.acosh args)
  | asin => .ok (onNumber Float.asin args)
  | asinh => .ok (onNumber Number.asinh args)
  | atan => .ok (onNumber Float.atan args)
  | atanh => .ok (onNumber Number.atanh args)
  | cbrt => .ok (onNumber Float.cbrt args)
  | ceil => .ok (onNumber Number.ceil args)
  | cos => .ok (onNumber Float.cos args)
  | cosh => .ok (onNumber Float.cosh args)
  | exp => .ok (onNumber Float.exp args)
  | expm1 => .ok (onNumber Number.expm1 args)
  | floor => .ok (onNumber Number.floor args)
  | log10 => .ok (onNumber Float.log10 args)
  | ln => .ok (onNumber Float.log args)
  | log1p => .ok (onNumber Number.log1p args)
  | log2 => .ok (onNumber Float.log2 args)
  | round => .ok (onNumber Number.round args)
  | sign => .ok (onNumber Number.sign args)
  | sin => .ok (onNumber Float.sin args)
  | sinh => .ok (onNumber Float.sinh args)
  | sqrt => .ok (onNumber Float.sqrt args)
  | tan => .ok (onNumber Float.tan args)
  | tanh => .ok (onNumber Float.tanh args)
  | trunc => .ok (onNumber Number.trunc args)
  | add => .ok (addition args)
  | subtract => .ok (onNumbers (· - ·) args)
  | multiply => .ok (onNumbers (· * ·) args)
  | divide => .ok (onNumbers (· / ·) args)
  | remainder => .ok (onNumbers Number.remainder args)
  | power => .ok (onNumbers Number.power args)
  | concatenate => .ok (concatenation args)
  | equal => .ok (.bool ((arg args 0).equal (arg args 1)))
  | unequal => .ok (.bool (!(arg args 0).equal (arg args 1)))
  | greater => .ok (ordered [.gt] args)
  | less => .ok (ordered [.lt] args)
  | atLeast => .ok (ordered [.gt, .eq] args)
  | atMost => .ok (ordered [.lt, .eq] args)
  | index => .ok (itemAt args)
  | conjunction => .ok (.bool ((arg args 0).truthy && (arg args 1).truthy))
  | disjunction => .ok (.bool ((arg args 0).truthy || (arg args 1).truthy))
  | membership => .ok (.bool (contains (arg args 1) (arg args 0)))
  | coalesce => .ok (coalescence args)
  | convert => conversion args
  | choose => .ok (if (arg args 0).truthy then arg args 1 else arg args 2)
  | atan2 => .ok (onNumbers Float.atan2 args)
  | gamma => .ok (onNumber Number.gamma args)
  | hypot => .ok (vectorLength args)
  | indexOf => firstIndex args
  | join => joined args
  | maximum => .ok (extreme (-Number.infinity) (fun x best => x > best) args)
  | minimum => .ok (extreme Number.infinity (fun x best => x < best) args)
  | roundTo => .ok (rounding args)
  | sum => total args

end Formula.Operation
