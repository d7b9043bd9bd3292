import Formula.Record

/-!
# Built-in operations

The operations of the standard tables, by what they do, and the names they go by. One operation
may have several names. Most are functions of their arguments alone; the traversals call a
function on the items of an array, and a random number depends on the state of the run.
-/

namespace Formula

inductive Operation where
  | negate | identity | factorial | negation | length
  | abs | acos | acosh | asin | asinh | atan | atanh | cbrt | ceil | cos | cosh | exp | expm1
  | floor | log10 | ln | log1p | log2 | round | sign | sin | sinh | sqrt | tan | tanh | trunc
  | add | subtract | multiply | divide | remainder | power | concatenate | equal | unequal
  | greater | less | atLeast | atMost | index | conjunction | disjunction | membership | coalesce
  | convert
  | choose | atan2 | gamma | hypot | indexOf | join | maximum | minimum | roundTo | sum
deriving DecidableEq, Repr

/-- The ways to call a function on the items of an array. -/
inductive Traversal where
  | map
  | filter
  | fold
deriving DecidableEq, Repr

/-- What a function of a table does; a host has its actions under keys of its own. -/
inductive Action where
  | operation (op : Operation)
  | traversal (t : Traversal)
  | random
  | host (key : String)
deriving DecidableEq, Repr

/-! ### Standard tables -/

namespace Operation

/-- The prefix and postfix operators. -/
def unaryTable : List (String × Operation) :=
  [("-", negate), ("+", identity), ("!", factorial), ("not", negation), ("length", length),
   ("abs", abs), ("acos", acos), ("acosh", acosh), ("asin", asin), ("asinh", asinh),
   ("atan", atan), ("atanh", atanh), ("cbrt", cbrt), ("ceil", ceil), ("cos", cos),
   ("cosh", cosh), ("exp", exp), ("expm1", expm1), ("floor", floor), ("lg", log10), ("ln", ln),
   ("log", ln), ("log1p", log1p), ("log2", log2), ("log10", log10), ("round", round),
   ("sign", sign), ("sin", sin), ("sinh", sinh), ("sqrt", sqrt), ("tan", tan), ("tanh", tanh),
   ("trunc", trunc)]

/-- The operators with two operands. -/
def binaryTable : List (String × Operation) :=
  [("+", add), ("-", subtract), ("*", multiply), ("/", divide), ("%", remainder), ("^", power),
   ("||", concatenate), ("==", equal), ("!=", unequal), (">", greater), ("<", less),
   (">=", atLeast), ("<=", atMost), ("[", index), ("and", conjunction), ("or", disjunction),
   ("in", membership), ("??", coalesce), ("as", convert)]

/-- The operators with three operands. -/
def ternaryTable : List (String × Operation) := [("?", choose)]

/-- The functions called by name. -/
def functionTable : List (String × Action) :=
  [("atan2", .operation atan2), ("fac", .operation factorial), ("filter", .traversal .filter),
   ("fold", .traversal .fold), ("gamma", .operation gamma), ("hypot", .operation hypot),
   ("indexOf", .operation indexOf), ("if", .operation choose), ("join", .operation join),
   ("map", .traversal .map), ("max", .operation maximum), ("min", .operation minimum),
   ("pow", .operation power), ("pyt", .operation hypot), ("random", .random),
   ("roundTo", .operation roundTo), ("sum", .operation sum)]

end Operation

end Formula
