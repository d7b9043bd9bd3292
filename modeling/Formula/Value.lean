import Formula.Instruction
import Formula.Language
import Formula.Number.Exact

/-!
# Values

The data of formulas. A function is a native one, one that a formula defines, or a formula
prepared with parameters; the last two carry their program, the variables they captured and their
language. A deferred value is not known yet: it stands for an entry in the table of the run that
made it.
-/

namespace Formula

/-- A program with parameters, the variables captured when it was made and the language it runs
in. -/
structure Closure (α : Type) where
  id : Nat
  name : String
  params : List String
  body : List (Instruction α)
  captured : List (String × α)
  language : Language α

/-- A callable function. -/
inductive Function (α : Type) where
  | native (f : Native)
  /-- defined inside a formula: it knows its own name and counts toward the call depth -/
  | defined (c : Closure α)
  /-- made of a whole formula: parameters without an argument stay unbound -/
  | prepared (c : Closure α)

namespace Function

variable {α : Type}

def id : Function α → Nat
  | .native f => f.id
  | .defined c | .prepared c => c.id

def name : Function α → String
  | .native f => f.name
  | .defined c => c.name
  | .prepared _ => "anonymous"

/-- Two functions are equal when they are the same function, not when they do the same. -/
def same (f g : Function α) : Bool :=
  match f, g with
  | .native a, .native b => a.id == b.id
  | .defined a, .defined b => a.id == b.id
  | .prepared a, .prepared b => a.id == b.id
  | _, _ => false

end Function

inductive Value where
  | undefined
  | null
  | bool (b : Bool)
  | number (x : Float)
  | string (s : String)
  | array (items : List Value)
  /-- the fields stand in ascending order of their names -/
  | object (fields : List (String × Value))
  | function (f : Function Value)
  | deferred (id : Nat)

/-- The variables a formula is evaluated against. -/
abbrev Bindings := Record Value

namespace Value

instance : Inhabited Value := ⟨.undefined⟩

mutual

/-- Equality without conversion: arrays and objects by content, functions by identity. A deferred
value equals nothing, and so does NaN. -/
def equal : Value → Value → Bool
  | .undefined, .undefined => true
  | .null, .null => true
  | .bool a, .bool b => a == b
  | .number a, .number b => a == b
  | .string a, .string b => a == b
  | .array as, .array bs => equalItems as bs
  | .object as, .object bs => equalFields as bs
  | .function f, .function g => f.same g
  | _, _ => false

def equalItems : List Value → List Value → Bool
  | [], [] => true
  | a :: as, b :: bs => equal a b && equalItems as bs
  | _, _ => false

def equalFields : List (String × Value) → List (String × Value) → Bool
  | [], [] => true
  | (k, a) :: as, (l, b) :: bs => k == l && equal a b && equalFields as bs
  | _, _ => false

end

def isUndefined : Value → Bool
  | .undefined => true
  | _ => false

def isFunction : Value → Bool
  | .function _ => true
  | _ => false

def isDeferred : Value → Bool
  | .deferred _ => true
  | _ => false

/-- The name of the kind of a value. -/
def typeName : Value → String
  | .undefined => "undefined"
  | .null => "null"
  | .bool _ => "boolean"
  | .number _ => "number"
  | .string _ => "string"
  | .array _ => "array"
  | .object _ => "object"
  | .function _ => "function"
  | .deferred _ => "deferred"

/-- What counts as true in a condition. -/
def truthy : Value → Bool
  | .undefined | .null => false
  | .bool b => b
  | .number x => !(x == 0.0) && !x.isNaN
  | .string s => !s.isEmpty
  | .array _ | .object _ | .function _ | .deferred _ => true

/-- Zero without its sign; other values stay. -/
def normalise : Value → Value
  | .number x => if x == 0.0 then .number 0.0 else .number x
  | v => v

end Value

end Formula
