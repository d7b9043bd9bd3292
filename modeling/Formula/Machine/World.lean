import Formula.Bindings
import Formula.Stop

/-!
# The state of a run

What evaluating a formula can read and change: the variables in scope, what the host has noted,
the values that are not known yet, and the sources of identities and of random numbers. An
evaluation that fails keeps the state it has reached.
-/

namespace Formula

/-- What a place of the stack holds: a value, or a program whose value may not be needed. -/
inductive Operand where
  | value (v : Value)
  | thunk (code : Program Value)

/-- What remains to be done with a value that was not known yet. -/
inductive Frame where
  /-- put the value at a depth of the stack and go on with the code -/
  | fill (depth : Nat) (stack : List Operand) (code : Program Value)
  /-- push the value and go on with the code -/
  | push (stack : List Operand) (code : Program Value)
  /-- the value's truth is the value -/
  | truth
  /-- assign the value -/
  | assign (path : String)

/-- A value that a host gives later. -/
inductive Promise where
  | value (v : Value)
  | error (e : EvalError)
  /-- the host notes something when the value is asked for -/
  | noting (entries : List Value) (next : Promise)
  /-- the value is itself promised -/
  | nested (p : Promise)

/-- What a host does when one of its functions is called. -/
inductive Answer where
  | value (v : Value)
  | error (e : EvalError)
  | promise (p : Promise)
  | call (f : Function Value) (args : List Value)

/-- What the host notes, and its answer. -/
structure Reply where
  entries : List Value
  answer : Answer

/-- The host's functions by their keys. -/
abbrev Hosts := String → List Value → Reply

/-- An entry for a value that is not known yet. -/
inductive Deferred where
  /-- known, though it may be deferred in turn -/
  | settled (result : Except EvalError Value)
  | promised (p : Promise)
  /-- a call that waits for another deferred value, with its variables and language -/
  | suspended (scope : Bindings) (lang : Language Value) (frames : List Frame) (on : Nat)

structure World where
  scope : Bindings
  log : List Value
  deferreds : Array Deferred
  nextId : Nat
  seed : UInt64

namespace World

/-- A world with nothing noted; identities from `id` on are free. -/
def start (scope : Bindings) (id : Nat) : World := ⟨scope, [], #[], id, 1⟩

/-- Enters what is now known of a deferred value. -/
def record (w : World) (id : Nat) (result : Except EvalError Value) : World :=
  { w with deferreds := w.deferreds.setIfInBounds id (.settled result) }

end World

/-! ### Evaluations -/

/-- An evaluation changes the world and gives a result, an error or nothing for lack of fuel. -/
abbrev Eval := ExceptT (Stop EvalError) (StateM World)

namespace Eval

variable {α : Type}

def fail (e : EvalError) : Eval α := throw (.error e)

def exhausted : Eval α := throw .exhausted

def ofExcept : Except EvalError α → Eval α
  | .ok a => pure a
  | .error e => fail e

/-- The variables in scope. -/
def scope : Eval Bindings := do return (← get).scope

def setScope (scope : Bindings) : Eval Unit := modify fun w => { w with scope }

/-- Evaluates in a scope of its own; the scope outside is in force again afterwards, also after a
failure. -/
def inScope (scope : Bindings) (x : Eval α) : Eval α := fun w =>
  let (result, inner) := x { w with scope }
  (result, { inner with scope := w.scope })

/-- Notes what the host wants noted. -/
def note (entries : List Value) : Eval Unit := modify fun w => { w with log := w.log ++ entries }

/-- An identity that no function has. -/
def freshId : Eval Nat := modifyGet fun w => (w.nextId, { w with nextId := w.nextId + 1 })

/-- Enters a value that is not known yet. -/
def defer (d : Deferred) : Eval Nat :=
  modifyGet fun w => (w.deferreds.size, { w with deferreds := w.deferreds.push d })

def nextSeed (seed : UInt64) : UInt64 := seed * 6364136223846793005 + 1442695040888963407

/-- A number from zero up to one for each seed. -/
def fraction (seed : UInt64) : Float := Float.ofNat (seed >>> 11).toNat / 9007199254740992.0

/-- A random number from zero up to one. -/
def random : Eval Float :=
  modifyGet fun w => (fraction (nextSeed w.seed), { w with seed := nextSeed w.seed })

/-- Assigns a value to a variable or a member. -/
def assign (path : String) (v : Value) : Eval Unit := do
  setScope (← ofExcept (Bindings.assignPath (← scope) path v))

end Eval

end Formula
