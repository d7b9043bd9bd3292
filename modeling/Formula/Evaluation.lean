import Formula.Expr.Parser
import Formula.Expr.Simplify
import Formula.Machine.Await
import Formula.Standard
import Formula.Text.Blank

/-!
# Working with formulas

What can be done with an expression in a language: evaluate it against the variables in scope,
settle what is not known yet, simplify it, and make a function of it. A formula may run for ever,
so each takes a bound on how far calls and entered programs nest.
-/

namespace Formula

/-- Why a source text has no value: it is no formula, or its evaluation fails. -/
inductive Fault where
  | parse (e : ParseError)
  | eval (e : EvalError)

namespace Fault

def message : Fault → String
  | parse e => e.message
  | eval e => e.message

def help? : Fault → Option String
  | parse e => e.help?
  | eval e => e.help?

/-- The bytes of the source a fault is about: the range of a token, or the first byte for an
evaluation. -/
def span (source : String) : Fault → Span
  | parse e => e.range.span source.toList
  | eval _ => ⟨0, 1⟩

end Fault

section

variable (hosts : Hosts) (fuel : Nat)

namespace Expr

/-- Evaluates an expression until it has a value or waits for one. -/
def evaluate (lang : Language Value) (e : Expr) : Eval Progress :=
  (Machine.engine hosts fuel).enter lang 0 e.compile

/-- Simplifies an expression with what is known of the variables in scope. -/
def simplify (lang : Language Value) (e : Expr) : Eval Expr := do
  return (← fold ((Machine.engine hosts fuel).call 0) lang e).expr

/-- A function that evaluates the simplified expression with its parameters set to the arguments,
in a copy of the variables in scope. -/
def toFunction (lang : Language Value) (e : Expr) (params : List String) :
    Eval (Function Value) := do
  let e ← e.simplify hosts fuel lang
  let params := params.map fun p => String.ofList (Text.trim p.toList)
  return .prepared ⟨← Eval.freshId, "anonymous", params, e.compile, ← Eval.scope, lang⟩

end Expr

/-- Waits for the value of an evaluation. -/
def Progress.settle (lang : Language Value) (p : Progress) : Eval Value :=
  match p with
  | .done v => Machine.settle hosts fuel fuel v
  | .waiting frames on => Machine.drive hosts fuel fuel ⟨lang, frames, on⟩

/-- Calls a function from outside; the result may be deferred. -/
def Function.apply (f : Function Value) (args : List Value) : Eval Value :=
  (Machine.engine hosts fuel).call 0 f args

/-- Waits for a value that may be deferred. -/
def Value.settle (v : Value) : Eval Value := Machine.settle hosts fuel fuel v

end

end Formula
