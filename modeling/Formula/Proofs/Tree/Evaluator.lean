import Formula.Evaluation
import Formula.Proofs.Tree.Reading

/-!
# Evaluating syntax trees

A recursive evaluator over the syntax of expressions, without programs or a stack. A deferred
value ends the evaluation, as the value cannot be used before it is known; what remains to be done
then is not kept. Only where a sequence of statements stands among the operands of an operator, a
call, an array or a case block does it matter in which order operands are evaluated: as they are
written, or the sequences after all others.
-/

namespace Formula

namespace Tree

/-- Why an evaluation gives no value. -/
inductive Halt where
  | stop (s : Stop EvalError)
  /-- a deferred value is wanted -/
  | waiting (on : Nat)

/-- An evaluation of a syntax tree. -/
abbrev TreeEval := ExceptT Halt (StateM World)

/-- When sequences among operands are evaluated. -/
inductive Order where
  | asWritten
  | sequencesLast
deriving DecidableEq, Repr

/-- As written, but where a sequence stands among the operands of a part. -/
def Order.natural (first : Option Expr) (last : Expr) : Order :=
  if Expr.orderedOption first && last.ordered then .asWritten else .sequencesLast

/-- An operand: its value, or a sequence whose turn has not come. -/
inductive Late where
  | known (v : Value)
  | later (first : Option Expr) (last : Expr)

/-- How parts that are evaluated on their own, and calls, are evaluated one level further in. -/
structure Engine where
  part : Order → Language Value → (depth : Nat) → Option Expr → Expr → TreeEval Value
  call : (depth : Nat) → Function Value → List Value → Eval Value

namespace TreeEval

variable {α : Type}

def lift (x : Eval α) : TreeEval α := fun w =>
  match x w with
  | (.ok a, w) => (.ok a, w)
  | (.error s, w) => (.error (.stop s), w)

def fail (e : EvalError) : TreeEval α := throw (.stop (.error e))

/-- A value that is known. -/
def check (v : Value) : TreeEval Value :=
  match v with
  | .deferred id => throw (.waiting id)
  | v => pure v

end TreeEval

open TreeEval

section

variable (inner : Engine) (order : Order) (lang : Language Value) (depth : Nat)

/-! ### Operands -/

/-- An operand whose turn comes later if it is a sequence; `value` evaluates it. -/
def late (e : Expr) (value : TreeEval Value) : TreeEval Late :=
  match e with
  | .sequence a b => return .later (some a) b
  | .closed a => return .later none a
  | _ => return .known (← value)

/-- An operand in its turn. -/
def operand (e : Expr) (value : TreeEval Value) : TreeEval Late :=
  match order with
  | .asWritten => return .known (← value)
  | .sequencesLast => late e value

/-- The value of an operand. -/
def force : Late → TreeEval Value
  | .known v => pure v
  | .later first last => inner.part order lang depth first last

def forceAll : List Late → TreeEval (List Value)
  | [] => return []
  | o :: rest => do
    let v ← force inner order lang depth o
    return v :: (← forceAll rest)

/-- Calls the function of an operator. -/
def apply (op : String) (entry : Option Native) (args : List Value) : TreeEval Value := do
  let f ← lift (Eval.ofExcept (Machine.operator op entry))
  check (← lift (inner.call depth f args))

/-- The value of a lazily evaluated expression. -/
def lazily (e : Expr) : TreeEval Value := inner.part order lang depth none e

/-- Assigns what `value` evaluates to; a member is refused before that. -/
def assignTo (path : String) (value : TreeEval Value) : TreeEval Value :=
  if path.toList.contains '.' && !lang.options.memberAccess then fail .memberAccess
  else do
    let v ← value
    lift (Eval.assign path v)
    return v

/-- The value that a case block chooses. -/
def choose (chosen : Option Expr) : TreeEval Value :=
  match chosen with
  | some e => lazily inner order lang depth e
  | none => return .undefined

/-! ### Expressions -/

mutual

/-- The value of an expression. -/
def eval : Expr → TreeEval Value
  | .literal v => check v
  | .undefined => return .undefined
  | .variable name => do
    check (← lift (Eval.ofExcept (Machine.lookup lang (← lift Eval.scope) name)))
  | .unary op e => do
    let v ← eval e
    apply inner depth op (lang.unaryOp? op) [v]
  | .binary op l r => do
    let l ← operand order l (eval l)
    let r ← operand order r (eval r)
    let a ← force inner order lang depth l
    let b ← force inner order lang depth r
    apply inner depth op (lang.binaryOp? op) [a, b]
  | .connective c l r => do
    let a ← eval l
    if a.truthy != (c.symbol == "and") then return .bool a.truthy
    else return .bool (← lazily inner order lang depth r).truthy
  | .conditional t y n => do
    let test ← eval t
    lazily inner order lang depth (if test.truthy then y else n)
  | .assign root members v =>
    assignTo lang (Expr.path root members) (lazily inner order lang depth v)
  | .define name params body => lift (Machine.define lang name params body.compile)
  | .call f args => do
    let f ← operand order f (eval f)
    let args ← evalItems args
    let callee ← force inner order lang depth f
    let args ← forceAll inner order lang depth args
    match callee with
    | .function f => check (← lift (inner.call depth f args))
    | other => fail (.notAFunction other.text)
  | .member e name => do
    let v ← eval e
    if !lang.options.memberAccess then fail .memberAccess
    else if isReserved name then fail (.reservedName name)
    else check (v.member name)
  | .array items => do
    let items ← evalItems items
    return .array (← forceAll inner order lang depth items)
  | .object fields => evalFields [] fields
  | .case none branches other => do
    let chosen ← evalConditions none branches
    choose inner order lang depth (chosen.or other)
  | .case (some t) branches other => do
    let t ← operand order t (eval t)
    let chosen ← evalMatches t none branches
    choose inner order lang depth (chosen.or other)
  | .sequence a b => inner.part order lang depth (some a) b
  | .closed a => inner.part order lang depth none a

/-- The operands of a call or an array. -/
def evalItems : List Expr → TreeEval (List Late)
  | [] => return []
  | e :: rest => do
    let o ← operand order e (eval e)
    return o :: (← evalItems rest)

/-- The object of some fields and those so far. -/
def evalFields : (acc : List (String × Value)) → List (String × Expr) → TreeEval Value
  | acc, [] => return .object acc
  | acc, (key, e) :: rest => do
    let v ← eval e
    if isReserved key then fail (.reservedName key)
    else evalFields (Record.insert acc key v) rest

/-- The value of the first branch whose condition holds; every condition is evaluated. -/
def evalConditions : (chosen : Option Expr) → List (Expr × Expr) → TreeEval (Option Expr)
  | chosen, [] => return chosen
  | chosen, (c, v) :: rest => do
    let c ← eval c
    evalConditions (chosen.or (if c.truthy then some v else none)) rest

/-- The value of the first branch whose condition equals the tested value. -/
def evalMatches : Late → (chosen : Option Expr) → List (Expr × Expr) → TreeEval (Option Expr)
  | _, chosen, [] => return chosen
  | t, chosen, (c, v) :: rest => do
    let c ← operand order c (eval c)
    let tested ← force inner order lang depth t
    let c ← force inner order lang depth c
    evalMatches (.known tested) (chosen.or (if tested.equal c then some v else none)) rest

end

/-- The value of a part, after a statement whose value is dropped; a zero loses its sign. -/
def evalPart (first : Option Expr) (last : Expr) : TreeEval Value := do
  match first with
  | some a =>
    let _ ← eval inner order lang depth a
    return (← eval inner order lang depth last).normalise
  | none => return (← eval inner order lang depth last).normalise

end

/-! ### Calls -/

/-- An engine of the machine that only calls. -/
def Engine.calls (inner : Engine) : Formula.Engine := ⟨fun _ _ _ => Eval.exhausted, inner.call⟩

section

variable (bodyOrder : Option Expr → Expr → Order) (inner : Engine)

/-- Evaluates the body of a function in a scope of its own; a body that waits gives a deferred
value, of whose continuation nothing is kept. -/
def evalBody (depth : Nat) (c : Closure Value) (scope : Bindings) : Eval Value :=
  Eval.inScope scope fun w =>
    match Program.part? c.body with
    | none => Eval.exhausted w
    | some (first, last) =>
      match inner.part (bodyOrder first last) c.language depth first last w with
      | (.ok v, w) => (.ok v, w)
      | (.error (.stop s), w) => (.error s, w)
      | (.error (.waiting _), w) =>
        (do return .deferred (← Eval.defer (.settled (.ok .undefined))) : Eval Value) w

/-- Calls a function at a depth. -/
def call (depth : Nat) (hosts : Hosts) (f : Function Value) (args : List Value) : Eval Value :=
  match f with
  | .native g => Machine.callNative inner.calls depth hosts g args
  | .defined c =>
    if depth < c.language.options.maxCallDepth then
      evalBody bodyOrder inner (depth + 1) c (Machine.definedScope (.defined c) c args)
    else Eval.fail (.callDepth c.language.options.maxCallDepth)
  | .prepared c => evalBody bodyOrder inner depth c (Record.update c.captured (c.params.zip args))

end

/-- The engine that nests parts and calls up to a number of levels. -/
def engine (bodyOrder : Option Expr → Expr → Order) (hosts : Hosts) : (fuel : Nat) → Engine
  | 0 => ⟨fun _ _ _ _ _ => lift Eval.exhausted, fun _ _ _ => Eval.exhausted⟩
  | fuel + 1 =>
    { part := fun order lang depth first last =>
        evalPart (engine bodyOrder hosts fuel) order lang depth first last
      call := fun depth f args => call bodyOrder (engine bodyOrder hosts fuel) depth hosts f args }

end Tree

end Formula
