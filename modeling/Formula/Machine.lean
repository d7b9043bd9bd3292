import Formula.Machine.World
import Formula.Operation.Apply

/-!
# The machine

A program runs on a stack of operands. Before an instruction runs, the operands it always needs
are brought to values from the first to the last; a program on the stack is entered only where its
value is needed. When an instruction leaves a deferred value on top, or entering a program does
not end, the run is suspended: what remains to be done is kept as frames, innermost first, with
the deferred value they wait for.
-/

namespace Formula

/-- How far a run has come: a value, or frames that wait for a deferred value. -/
inductive Progress where
  | done (v : Value)
  | waiting (frames : List Frame) (on : Nat)

/-- How the machine enters programs and calls functions one level further in; depths count the
calls of functions that formulas define. -/
structure Engine where
  enter : (lang : Language Value) → (depth : Nat) → Program Value → Eval Progress
  call : (depth : Nat) → Function Value → List Value → Eval Value

namespace Machine

/-- The depths of the operands that an instruction always needs, in the order they are brought to
values. -/
def needed : Instruction Value → List Nat
  | .unary _ | .member _ | .endStatement | .property _ => [0]
  | .binary op => if op = "=" then [] else if op = "and" ∨ op = "or" then [1] else [1, 0]
  | .ternary op => if op = "?" then [2] else [2, 1, 0]
  | .call argc => (List.range (argc + 1)).reverse
  | .array count => (List.range count).reverse
  | .whenCond _ => [1]
  | .whenMatch k => [2 * k + 2, 1]
  | _ => []

/-- The values of the top `n` operands, the topmost last, and the rest of the stack. -/
def popValues : (n : Nat) → List Operand → List Value → Except EvalError (List Value × List Operand)
  | 0, stack, acc => .ok (acc, stack)
  | n + 1, .value v :: stack, acc => popValues n stack (v :: acc)
  | _ + 1, _, _ => .error .stackUnderflow

/-- The value on top and the rest of the stack. -/
def popValue : List Operand → Except EvalError (Value × List Operand)
  | .value v :: stack => .ok (v, stack)
  | _ => .error .stackUnderflow

/-- The operand on top and the rest of the stack. -/
def popOperand : List Operand → Except EvalError (Operand × List Operand)
  | o :: stack => .ok (o, stack)
  | [] => .error .stackUnderflow

/-- The value of the first of `n` branches whose flag holds; each branch is a flag with its value
above. -/
def popBranches :
    (n : Nat) → List Operand → Option Operand → Except EvalError (Option Operand × List Operand)
  | 0, stack, chosen => .ok (chosen, stack)
  | n + 1, o :: .value flag :: stack, chosen =>
    popBranches n stack (if flag.truthy then some o else chosen)
  | _ + 1, _, _ => .error .stackUnderflow

/-- Reads a variable: a function of the language, an enabled operator, a binding, or what the
resolver says. -/
def lookup (lang : Language Value) (scope : Bindings) (name : String) : Except EvalError Value :=
  if isReserved name then .error (.reservedName name)
  else
    match lang.function? name with
    | some f => .ok (.function (.native f))
    | none =>
      match if lang.isOperatorEnabled name then lang.unaryOp? name else none with
      | some f => .ok (.function (.native f))
      | none =>
        match Record.get? scope name with
        | some v => .ok v
        | none =>
          match lang.resolve? name with
          | some (.alias other) =>
            match Record.get? scope other with
            | some v => .ok v
            | none => .error (.undefinedVariable name)
          | some (.value v) => .ok v
          | none => .error (.undefinedVariable name)

/-- What is done with a value before it is pushed. -/
inductive Use where
  | keep
  /-- only its truth counts -/
  | truth
  | assign (path : String)

namespace Use

def apply : Use → Value → Eval Value
  | keep, v => pure v
  | truth, v => pure (.bool v.truthy)
  | assign path, v => do
    Eval.assign path v
    return v

/-- What remains to be done if the value is not known yet. -/
def frames : Use → List Frame
  | keep => []
  | truth => [.truth]
  | assign path => [.assign path]

end Use

/-! ### Plans

What an instruction does with a stack whose needed operands are values is settled before anything
is entered or called.
-/

/-- What an instruction asks for; all but a new stack push a value onto the stack. -/
inductive Plan where
  | next (stack : List Operand)
  /-- the value of an operand, used in some way -/
  | resolve (o : Operand) (use : Use) (stack : List Operand)
  | call (f : Function Value) (args : List Value) (stack : List Operand)
  | define (name : String) (params : List String) (body : Program Value) (stack : List Operand)

/-- The entry of a table, for an operator that the program names. -/
def operator (op : String) (entry : Option Native) : Except EvalError (Function Value) :=
  match entry with
  | some f => .ok (.native f)
  | none => .error (.unknownOperator op)

section

variable (lang : Language Value)

/-- Calls an operator on the top `n` operands. -/
def planOperator (op : String) (entry : Option Native) (n : Nat) (stack : List Operand) :
    Except EvalError Plan := do
  let f ← operator op entry
  let (args, stack) ← popValues n stack []
  return .call f args stack

/-- A connective: the right operand is needed unless the left one decides. -/
def planConnective (op : String) (stack : List Operand) : Except EvalError Plan := do
  let (right, stack) ← popOperand stack
  let (left, stack) ← popValue stack
  if left.truthy != (op == "and") then return .next (.value (.bool left.truthy) :: stack)
  else return .resolve right .truth stack

/-- An assignment; a member is refused before the value is evaluated. -/
def planAssignment (stack : List Operand) : Except EvalError Plan := do
  let (right, stack) ← popOperand stack
  let (target, stack) ← popValue stack
  let path := target.text
  if path.toList.contains '.' && !lang.options.memberAccess then .error .memberAccess
  else return .resolve right (.assign path) stack

/-- An instruction with two operands. -/
def planBinary (op : String) (stack : List Operand) : Except EvalError Plan :=
  if op = "and" ∨ op = "or" then planConnective op stack
  else if op = "=" then planAssignment lang stack
  else planOperator op (lang.binaryOp? op) 2 stack

/-- A conditional: one of two operands, by the truth of a third below them. -/
def planConditional (stack : List Operand) : Except EvalError Plan := do
  let (no, stack) ← popOperand stack
  let (yes, stack) ← popOperand stack
  let (test, stack) ← popValue stack
  return .resolve (if test.truthy then yes else no) .keep stack

/-- An instruction with three operands. -/
def planTernary (op : String) (stack : List Operand) : Except EvalError Plan :=
  if op = "?" then planConditional stack else planOperator op (lang.ternaryOp? op) 3 stack

/-- A call of the function below its arguments. -/
def planCall (argc : Nat) (stack : List Operand) : Except EvalError Plan := do
  let (args, stack) ← popValues argc stack []
  let (callee, stack) ← popValue stack
  match callee with
  | .function f => return .call f args stack
  | other => .error (.notAFunction other.text)

/-- The definition of the function whose name, parameters and body are on the stack. -/
def planDefinition (paramc : Nat) (stack : List Operand) : Except EvalError Plan :=
  match stack with
  | .thunk body :: stack => do
    let (params, stack) ← popValues paramc stack []
    let (name, stack) ← popValue stack
    return .define name.text (params.map Value.text) body stack
  | _ => .error .stackUnderflow

/-- The stack below the tested value, if there is one. -/
def popTested (tested : Bool) (stack : List Operand) : Except EvalError (List Operand) := do
  if tested then
    let (_, stack) ← popOperand stack
    return stack
  else return stack

/-- The end of a case block of `count` branches. -/
def planChoice (count : Nat) (tested : Bool) (stack : List Operand) : Except EvalError Plan := do
  let (chosen, stack) ← popBranches count stack none
  let stack ← popTested tested stack
  match chosen with
  | some o => return .resolve o .keep stack
  | none => return .next (.value .undefined :: stack)

/-- Pushes the flag of a branch below the branch's value. -/
def planFlag (stack : List Operand) (flag : Value → List Operand → Except EvalError Bool) :
    Except EvalError Plan := do
  let (value, stack) ← popOperand stack
  let (condition, stack) ← popValue stack
  let holds ← flag condition stack
  return .next (value :: .value (.bool holds) :: stack)

/-- Reads a member. -/
def planMember (name : String) (stack : List Operand) : Except EvalError Plan :=
  if !lang.options.memberAccess then .error .memberAccess
  else if isReserved name then .error (.reservedName name)
  else do
    let (base, stack) ← popValue stack
    return .next (.value (base.member name) :: stack)

/-- Puts a field into the object below its value. -/
def planProperty (key : String) (stack : List Operand) : Except EvalError Plan :=
  if isReserved key then .error (.reservedName key)
  else do
    let (v, stack) ← popValue stack
    match stack with
    | .value (.object fields) :: stack =>
      return .next (.value (.object (Record.insert fields key v)) :: stack)
    | _ => .error .stackUnderflow

/-- What an instruction asks for in a scope, on a stack whose needed operands are values. -/
def plan (scope : Bindings) (i : Instruction Value) (stack : List Operand) :
    Except EvalError Plan :=
  match i with
  | .literal v => return .next (.value v :: stack)
  | .target name => return .next (.value (.string name) :: stack)
  | .undefined => return .next (.value .undefined :: stack)
  | .group body => return .next (.thunk body :: stack)
  | .variable name => do return .next (.value (← lookup lang scope name) :: stack)
  | .unary op => planOperator op (lang.unaryOp? op) 1 stack
  | .binary op => planBinary lang op stack
  | .ternary op => planTernary lang op stack
  | .call argc => planCall argc stack
  | .define paramc => planDefinition paramc stack
  | .member name => planMember lang name stack
  | .endStatement => do
    let (_, stack) ← popOperand stack
    return .next stack
  | .array count => do
    let (items, stack) ← popValues count stack []
    return .next (.value (.array items) :: stack)
  | .whenCond _ => planFlag stack fun condition _ => .ok condition.truthy
  | .whenMatch k =>
    planFlag stack fun condition below =>
      match below[2 * k]? with
      | some (.value tested) => .ok (tested.equal condition)
      | some (.thunk _) => .ok false
      | none => .error .stackUnderflow
  | .caseElse => do
    let (value, stack) ← popOperand stack
    return .next (value :: .value (.bool true) :: stack)
  | .caseMatch count => planChoice count true stack
  | .caseCond count => planChoice count false stack
  | .objectStart => return .next (.value (.object []) :: stack)
  | .property key => planProperty key stack
  | .objectEnd => return .next stack

end

/-! ### Running -/

/-- What an instruction leads to: a new stack, or frames whose result is pushed. -/
inductive Step where
  | next (stack : List Operand)
  | await (frames : List Frame) (on : Nat) (stack : List Operand)

/-- The needed operands as values, or where the run is suspended. -/
inductive Forced where
  | ready (stack : List Operand)
  | suspended (depth : Nat) (frames : List Frame) (on : Nat) (stack : List Operand)

section

variable (inner : Engine) (lang : Language Value) (depth : Nat)

/-- The value of an operand; a program is entered. -/
def resolve : Operand → Eval Progress
  | .value v => pure (.done v)
  | .thunk code => inner.enter lang depth code

/-- Brings the operands at some depths to values. -/
def force : List Nat → List Operand → Eval Forced
  | [], stack => pure (.ready stack)
  | d :: rest, stack =>
    match stack[d]? with
    | none => Eval.fail .stackUnderflow
    | some (.value (.deferred id)) => pure (.suspended d [] id stack)
    | some (.value _) => force rest stack
    | some (.thunk code) => do
      match ← inner.enter lang depth code with
      | .done v => force rest (stack.set d (.value v))
      | .waiting frames on => return .suspended d frames on stack

/-- Defines a function that captures the variables in scope. -/
def define (name : String) (params : List String) (body : Program Value) : Eval Value := do
  let captured ← Eval.scope
  let f : Function Value := .defined ⟨← Eval.freshId, name, params, body, captured, lang⟩
  Eval.setScope (Record.insert captured name (.function f))
  return .function f

/-- Does what a plan asks for. -/
def perform (p : Plan) : Eval Step :=
  match p with
  | .next stack => return .next stack
  | .resolve o use stack => do
    match ← resolve inner lang depth o with
    | .done v => return .next (.value (← use.apply v) :: stack)
    | .waiting frames on => return .await (frames ++ use.frames) on stack
  | .call f args stack => return .next (.value (← inner.call depth f args) :: stack)
  | .define name params body stack =>
    return .next (.value (← define lang name params body) :: stack)

/-- Runs an instruction whose needed operands are values. -/
def step (i : Instruction Value) (stack : List Operand) : Eval Step := do
  perform inner lang depth (← Eval.ofExcept (plan lang (← Eval.scope) i stack))

/-- The value that a program leaves; a zero loses its sign. -/
def finish : List Operand → Eval Progress
  | [] => Eval.fail .stackUnderflow
  | [o] => do
    match ← resolve inner lang depth o with
    | .done v => return .done v.normalise
    | .waiting frames on => return .waiting frames on
  | _ => Eval.fail .parity

/-- Runs code on a stack. -/
def run : Program Value → List Operand → Eval Progress
  | [], stack => finish inner lang depth stack
  | i :: rest, stack => do
    match ← force inner lang depth (needed i) stack with
    | .suspended d frames on stack => return .waiting (frames ++ [.fill d stack (i :: rest)]) on
    | .ready stack =>
      match ← step inner lang depth i stack with
      | .await frames on stack => return .waiting (frames ++ [.push stack rest]) on
      | .next (.value (.deferred id) :: stack) => return .waiting [.push stack rest] id
      | .next stack => run rest stack

/-- Goes on with a frame. -/
def proceed (f : Frame) (v : Value) : Eval Progress :=
  match f with
  | .fill d stack code => run inner lang depth code (stack.set d (.value v))
  | .push stack code => run inner lang depth code (.value v :: stack)
  | .truth => return .done (.bool v.truthy)
  | .assign path => do
    Eval.assign path v
    return .done v

/-- Goes on with frames, the innermost first, now that the value they wait for is known. -/
def resume : List Frame → Value → Eval Progress
  | [], v => return .done v
  | f :: rest, v => do
    match ← proceed inner lang depth f v with
    | .done v => resume rest v
    | .waiting frames on => return .waiting (frames ++ rest) on

end

/-! ### Calls -/

/-- Enters a promise; a promise of a promise is an entry of its own. -/
def enterPromise (p : Promise) : Eval Value := .deferred <$> Eval.defer (.promised p)

/-- The function and the array that a traversal works on; `arrayAt` is where the array stands. -/
def traversalArguments (name : String) (args : List Value) (arrayAt : Nat) :
    Except EvalError (Function Value × List Value) :=
  match Operation.arg args 0, Operation.arg args arrayAt with
  | .function f, .array items => .ok (f, items)
  | .function _, _ =>
    .error (.invalidArgument ("Second argument to " ++ name ++ " is not an array"))
  | _, _ => .error (.invalidArgument ("First argument to " ++ name ++ " is not a function"))

section

variable (inner : Engine) (depth : Nat)

/-- The results of a function for the items from index `i` on. -/
def mapItems (f : Function Value) : (i : Nat) → List Value → Eval (List Value)
  | _, [] => pure []
  | i, x :: rest => do
    let y ← inner.call depth f [x, .number (Float.ofNat i)]
    return y :: (← mapItems f (i + 1) rest)

/-- The items from index `i` on for which a function's result holds. -/
def filterItems (f : Function Value) : (i : Nat) → List Value → Eval (List Value)
  | _, [] => pure []
  | i, x :: rest => do
    let y ← inner.call depth f [x, .number (Float.ofNat i)]
    let kept ← filterItems f (i + 1) rest
    return if y.truthy then x :: kept else kept

/-- The last of the results of a function that gets the one before, an item and its index. -/
def foldItems (f : Function Value) : (i : Nat) → Value → List Value → Eval Value
  | _, acc, [] => pure acc
  | i, acc, x :: rest => do
    foldItems f (i + 1) (← inner.call depth f [acc, x, .number (Float.ofNat i)]) rest

/-- Calls a function on the items of an array; nothing waits for deferred results. -/
def traverse (t : Traversal) (args : List Value) : Eval Value :=
  match t with
  | .map =>
    if (Operation.arg args 1).isUndefined then return .undefined
    else do
      let (f, items) ← Eval.ofExcept (traversalArguments "map" args 1)
      return .array (← mapItems inner depth f 0 items)
  | .filter =>
    if (Operation.arg args 1).isUndefined then return .undefined
    else do
      let (f, items) ← Eval.ofExcept (traversalArguments "filter" args 1)
      return .array (← filterItems inner depth f 0 items)
  | .fold =>
    if (Operation.arg args 2).isUndefined then return .undefined
    else do
      let (f, items) ← Eval.ofExcept (traversalArguments "fold" args 2)
      foldItems inner depth f 0 (Operation.arg args 1) items

/-- A random number below the first argument, below one without it. -/
def randomNumber (args : List Value) : Eval Value := do
  let x ← Eval.random
  let scale := Operation.arg args 0
  return .number (if scale.truthy then x * scale.toNumber else x)

/-- Calls a function of a table. -/
def callNative (hosts : Hosts) (f : Native) (args : List Value) : Eval Value :=
  match f.action with
  | .operation op => Eval.ofExcept (op.apply args)
  | .traversal t => traverse inner depth t args
  | .random => randomNumber args
  | .host key => do
    let reply := hosts key args
    Eval.note reply.entries
    match reply.answer with
    | .value v => return v
    | .error e => Eval.fail e
    | .promise p => enterPromise p
    | .call g args => inner.call depth g args

/-- Runs the body of a function in a scope of its own; a run that does not end becomes a deferred
value. -/
def enterBody (depth : Nat) (c : Closure Value) (scope : Bindings) : Eval Value :=
  Eval.inScope scope do
    match ← inner.enter c.language depth c.body with
    | .done v => return v
    | .waiting frames on =>
      return .deferred (← Eval.defer (.suspended (← Eval.scope) c.language frames on))

/-- The variables of a call of a defined function: those captured, its own name, and its
parameters, of which those without an argument are undefined. -/
def definedScope (f : Function Value) (c : Closure Value) (args : List Value) : Bindings :=
  Record.update (Record.insert c.captured c.name (.function f))
    (c.params.zipIdx.map fun (param, i) => (param, Operation.arg args i))

/-- Calls a function at a depth. -/
def call (hosts : Hosts) (f : Function Value) (args : List Value) : Eval Value :=
  match f with
  | .native g => callNative inner depth hosts g args
  | .defined c =>
    if depth < c.language.options.maxCallDepth then
      enterBody inner (depth + 1) c (definedScope (.defined c) c args)
    else Eval.fail (.callDepth c.language.options.maxCallDepth)
  | .prepared c => enterBody inner depth c (Record.update c.captured (c.params.zip args))

end

/-- The engine that nests entered programs and calls up to a number of levels. -/
def engine (hosts : Hosts) : (fuel : Nat) → Engine
  | 0 => ⟨fun _ _ _ => Eval.exhausted, fun _ _ _ => Eval.exhausted⟩
  | fuel + 1 =>
    { enter := fun lang depth code => run (engine hosts fuel) lang depth code []
      call := fun depth f args => call (engine hosts fuel) depth hosts f args }

end Machine

end Formula
