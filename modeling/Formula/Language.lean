import Formula.Operation

/-!
# Languages

A language says which operators a formula may use, what their names and the names of functions and
constants stand for, whether members may be read, and how deep calls of defined functions may
nest. Operators are switched on and off by category.
-/

namespace Formula

/-- A function that is not defined by a formula. Its identity tells it from functions that do the
same. -/
structure Native where
  id : Nat
  name : String
  action : Action
deriving DecidableEq, Repr

/-- The category under which an operator is switched on and off; a name is its own category. -/
def category (op : String) : String :=
  match op with
  | "+" => "add"
  | "-" => "subtract"
  | "*" => "multiply"
  | "/" => "divide"
  | "%" => "remainder"
  | "^" => "power"
  | "!" => "factorial"
  | "<" | ">" | "<=" | ">=" | "==" | "!=" => "comparison"
  | "||" => "concatenate"
  | "and" | "or" | "not" => "logical"
  | "?" | ":" => "conditional"
  | "=" => "assignment"
  | "[" | "]" => "array"
  | "()=" => "fndef"
  | "??" => "coalesce"
  | "as" => "conversion"
  | other => other

/-- Which categories are on, whether members may be read, and how deep calls may nest. -/
structure Options where
  operators : Record Bool := [("conversion", false)]
  memberAccess : Bool := true
  maxCallDepth : Nat := 1024
deriving DecidableEq, Repr

namespace Options

/-- A category that is not mentioned is on. -/
def isEnabled (o : Options) (cat : String) : Bool := (o.operators.get? cat).getD true

def enable (o : Options) (cat : String) : Options :=
  { o with operators := o.operators.insert cat true }

def disable (o : Options) (cat : String) : Options :=
  { o with operators := o.operators.insert cat false }

end Options

/-- What an unbound variable stands for: another variable or a value. -/
inductive Resolution (α : Type) where
  | alias (name : String)
  | value (v : α)

/-- A language whose constants are of type `α`. -/
structure Language (α : Type) where
  options : Options
  unary : List (String × Native)
  binary : List (String × Native)
  ternary : List (String × Native)
  functions : List (String × Native)
  constants : List (String × α)
  resolver : List (String × Resolution α)

namespace Language

variable {α : Type}

def isOperatorEnabled (l : Language α) (op : String) : Bool := l.options.isEnabled (category op)

def unaryOp? (l : Language α) (name : String) : Option Native := Record.get? l.unary name

def binaryOp? (l : Language α) (name : String) : Option Native := Record.get? l.binary name

def ternaryOp? (l : Language α) (name : String) : Option Native := Record.get? l.ternary name

def function? (l : Language α) (name : String) : Option Native := Record.get? l.functions name

def constant? (l : Language α) (name : String) : Option α := Record.get? l.constants name

/-- What an unbound name stands for. -/
def resolve? (l : Language α) (name : String) : Option (Resolution α) := Record.get? l.resolver name

/-- The native functions of a table, with identities from `id` on. -/
def natives (id : Nat) (table : List (String × Action)) : Record Native :=
  Record.ofPairs (table.zipIdx.map fun ((name, action), i) => (name, ⟨id + i, name, action⟩))

def operations (table : List (String × Operation)) : List (String × Action) :=
  table.map fun (name, op) => (name, .operation op)

/-- How many identities the standard tables take. -/
def standardSize : Nat :=
  Operation.unaryTable.length + Operation.binaryTable.length + Operation.ternaryTable.length
    + Operation.functionTable.length

/-- The language with the standard tables; its functions have identities from `id` on. -/
def standard (id : Nat) (options : Options) (constants : Record α) : Language α :=
  let binaryId := id + Operation.unaryTable.length
  let ternaryId := binaryId + Operation.binaryTable.length
  let functionId := ternaryId + Operation.ternaryTable.length
  { options
    unary := natives id (operations Operation.unaryTable)
    binary := natives binaryId (operations Operation.binaryTable)
    ternary := natives ternaryId (operations Operation.ternaryTable)
    functions := natives functionId Operation.functionTable
    constants
    resolver := [] }

/-- The tables a function can be added to. -/
inductive Table where
  | unary
  | binary
  | ternary
  | functions
deriving DecidableEq, Repr

/-- Puts the host's action under `key` into a table; an entry of that name is replaced. -/
def add (l : Language α) (table : Table) (name : String) (id : Nat) (key : String) : Language α :=
  let f : Native := ⟨id, name, .host key⟩
  match table with
  | .unary => { l with unary := Record.insert l.unary name f }
  | .binary => { l with binary := Record.insert l.binary name f }
  | .ternary => { l with ternary := Record.insert l.ternary name f }
  | .functions => { l with functions := Record.insert l.functions name f }

/-- Adds or replaces a constant. -/
def addConstant (l : Language α) (name : String) (v : α) : Language α :=
  { l with constants := Record.insert l.constants name v }

end Language

end Formula
