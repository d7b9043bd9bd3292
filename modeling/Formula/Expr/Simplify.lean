import Formula.Expr
import Formula.Machine

/-!
# Simplifying expressions

Operators whose operands are all known are replaced by their results, from left to right and the
operands before the operator. Known are literals and the variables in scope that hold plain
values. Calls, assignments, definitions, connectives, conditionals, case blocks and objects stay;
their parts are simplified in place.
-/

namespace Formula

/-- A simplified expression: a value, or what is left of the expression. -/
inductive Folded where
  | known (v : Value)
  | code (e : Expr)

namespace Folded

/-- A known value is written as a literal. -/
def expr : Folded → Expr
  | known v => .literal v
  | code e => e

/-- The value if it is known. -/
def value? : Folded → Option Value
  | known v => some v
  | code _ => none

end Folded

namespace Expr

/-- The value a variable is known to have. Functions, operators and reserved names are not
variables; a value that is a function or not known yet is not used. -/
def knownVariable? (lang : Language Value) (scope : Bindings) (name : String) : Option Value :=
  if isReserved name || (lang.function? name).isSome
      || ((lang.unaryOp? name).isSome && lang.isOperatorEnabled name) then none
  else
    match Record.get? scope name with
    | some (.function _) | some (.deferred _) => none
    | found => found

section

variable (call : Function Value → List Value → Eval Value) (lang : Language Value)

/-- Applies an operator to known operands; `restored` stands if the result is no plain value. -/
def foldOperator (op : String) (entry : Option Native) (args : List Value) (restored : Expr) :
    Eval Folded := do
  match ← call (← Eval.ofExcept (Machine.operator op entry)) args with
  | .function _ | .deferred _ => return .code restored
  | v => return .known v

mutual

/-- Simplifies an expression with the variables in scope. -/
def fold : Expr → Eval Folded
  | .literal (.function f) => return .code (.literal (.function f))
  | .literal v => return .known v
  | .undefined => return .code .undefined
  | .variable name => do
    match knownVariable? lang (← Eval.scope) name with
    | some v => return .known v
    | none => return .code (.variable name)
  | .unary op e => do
    match ← fold e with
    | .known v => foldOperator call op (lang.unaryOp? op) [v] (.unary op (.literal v))
    | .code e => return .code (.unary op e)
  | .binary op l r => do
    let l ← fold l
    let r ← fold r
    match l, r with
    | .known a, .known b =>
      foldOperator call op (lang.binaryOp? op) [a, b] (.binary op (.literal a) (.literal b))
    | l, r => return .code (.binary op l.expr r.expr)
  | .connective c l r => do
    let l ← fold l
    let r ← fold r
    return .code (.connective c l.expr r.expr)
  | .conditional t y n => do
    let t ← fold t
    let y ← fold y
    let n ← fold n
    return .code (.conditional t.expr y.expr n.expr)
  | .assign root members v => do
    let v ← fold v
    return .code (.assign root members v.expr)
  | .define name params body => do
    let body ← fold body
    return .code (.define name params body.expr)
  | .call f args => do
    let f ← fold f
    let args ← foldItems args
    return .code (.call f.expr (args.map Folded.expr))
  | .member e name => do
    match ← fold e with
    | .known v =>
      if lang.options.memberAccess && !isReserved name then return .known (v.member name)
      else return .code (.member (.literal v) name)
    | .code e => return .code (.member e name)
  | .array items => do
    let items ← foldItems items
    match items.mapM Folded.value? with
    | some values => return .known (.array values)
    | none => return .code (.array (items.map Folded.expr))
  | .object fields => do
    return .code (.object (← foldFields fields))
  | .case tested branches other => do
    let tested ← foldOption tested
    let branches ← foldBranches branches
    let other ← foldOption other
    return .code (.case tested branches other)
  | .sequence a b => do
    let a ← fold a
    let b ← fold b
    return .code (.sequence a.expr b.expr)
  | .closed a => do
    let a ← fold a
    return .code (.closed a.expr)

def foldItems : List Expr → Eval (List Folded)
  | [] => return []
  | e :: rest => do
    let e ← fold e
    return e :: (← foldItems rest)

def foldFields : List (String × Expr) → Eval (List (String × Expr))
  | [] => return []
  | (key, e) :: rest => do
    let e ← fold e
    return (key, e.expr) :: (← foldFields rest)

def foldBranches : List (Expr × Expr) → Eval (List (Expr × Expr))
  | [] => return []
  | (c, v) :: rest => do
    let c ← fold c
    let v ← fold v
    return (c.expr, v.expr) :: (← foldBranches rest)

def foldOption : Option Expr → Eval (Option Expr)
  | none => return none
  | some e => do
    let e ← fold e
    return some e.expr

end

end

end Expr

end Formula
