/-!
# Programs

A program is a flat postfix sequence: operands come before the instruction that consumes them.
Parts whose value may not be needed are nested programs of their own, run when their value is.
-/

namespace Formula

/-- One instruction over literals of type `α`. -/
inductive Instruction (α : Type) where
  /-- pushes a value -/
  | literal (value : α)
  | unary (op : String)
  | binary (op : String)
  | ternary (op : String)
  /-- reads a variable -/
  | variable (name : String)
  /-- pushes the name to assign, to define or to bind as a parameter; dotted for a member -/
  | target (name : String)
  /-- calls the function below its `argc` arguments -/
  | call (argc : Nat)
  /-- defines the function named below its `paramc` parameters and its body -/
  | define (paramc : Nat)
  /-- pushes a program that has not been run -/
  | group (body : List (Instruction α))
  | member (name : String)
  /-- ends a statement and drops its value -/
  | endStatement
  | array (count : Nat)
  | undefined
  /-- ends a case block of `count` branches with a tested value below them -/
  | caseMatch (count : Nat)
  /-- ends a case block of `count` branches without a tested value -/
  | caseCond (count : Nat)
  | whenCond (index : Nat)
  | whenMatch (index : Nat)
  | caseElse
  | objectStart
  | property (key : String)
  | objectEnd

/-- A sequence of instructions. -/
abbrev Program (α : Type) := List (Instruction α)

namespace Instruction

variable {α : Type}

mutual

/-- The listing of an instruction, with the text that `literal` gives to values. -/
def text (literal : α → String) : Instruction α → String
  | .literal v => literal v
  | .unary op | .binary op | .ternary op => op
  | .variable name | .target name => name
  | .call n => "CALL " ++ toString n
  | .define n => "DEF " ++ toString n
  | .group body => "[" ++ String.intercalate " " (texts literal body) ++ "]"
  | .member name => "." ++ name
  | .endStatement => ";"
  | .array n => "ARRAY " ++ toString n
  | .undefined => "undefined"
  | .caseMatch n | .caseCond n => "CASE " ++ toString n
  | .whenCond k | .whenMatch k => "WHEN " ++ toString k
  | .caseElse => "ELSE"
  | .objectStart => "OBJECT"
  | .property key => "PROPERTY " ++ key
  | .objectEnd => "OBJECT END"

/-- The listings of the instructions of a program. -/
def texts (literal : α → String) : List (Instruction α) → List String
  | [] => []
  | i :: rest => text literal i :: texts literal rest

end

end Instruction

end Formula
