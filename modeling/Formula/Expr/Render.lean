import Formula.Expr
import Formula.Value.Text
import Formula.Text.Alphabetic

/-!
# Printing expressions

The text of an expression as a formula or as JavaScript. Every operator stands in parentheses with
its operands, so the text does not depend on how tightly operators bind. A part that may stay
unevaluated has parentheses of its own, except a value of a case block, which the words around it
delimit.
-/

namespace Formula

/-- The language an expression is printed in. -/
inductive Dialect where
  | formula
  | javaScript
deriving DecidableEq, Repr

namespace Dialect

/-- What stands between statements. -/
def separator : Dialect → String
  | formula => ";"
  | javaScript => ","

/-- An operator with its operand. -/
def unary (d : Dialect) (op operand : String) : String :=
  if op = "-" ∨ op = "+" then "(" ++ op ++ operand ++ ")"
  else
    match d with
    | javaScript =>
      if op = "not" then "(!" ++ operand ++ ")"
      else if op = "!" then "fac(" ++ operand ++ ")"
      else op ++ "(" ++ operand ++ ")"
    | formula => if op = "!" then "(" ++ operand ++ "!)" else "(" ++ op ++ " " ++ operand ++ ")"

/-- Two operands with an operator between them, in parentheses. -/
def between (left op right : String) : String := "(" ++ left ++ " " ++ op ++ " " ++ right ++ ")"

/-- An operator with two operands. -/
def binary (d : Dialect) (op left right : String) : String :=
  match d with
  | formula => if op = "[" then left ++ "[" ++ right ++ "]" else between left op right
  | javaScript =>
    match op with
    | "^" => "Math.pow(" ++ left ++ ", " ++ right ++ ")"
    | "||" =>
      "(function(a,b)\x7b return Array.isArray(a) && Array.isArray(b) ? a.concat(b) : "
        ++ "String(a) + String(b); \x7d((" ++ left ++ "),(" ++ right ++ ")))"
    | "==" => between left "===" right
    | "!=" => between left "!==" right
    | "[" => left ++ "[(" ++ right ++ ") | 0]"
    | op => between left op right

/-- A connective; its right side is a program of its own. -/
def connective (d : Dialect) (c : Connective) (left right : String) : String :=
  match d with
  | formula => between left c.symbol ("(" ++ right ++ ")")
  | javaScript =>
    between ("!!" ++ left) (match c with | .both => "&&" | .either => "||") ("!!(" ++ right ++ ")")

/-- The definition of a function. -/
def definition (d : Dialect) (name : String) (params : List String) (body : String) : String :=
  let params := String.intercalate ", " params
  match d with
  | formula => "(" ++ name ++ "(" ++ params ++ ") = (" ++ body ++ "))"
  | javaScript => "(" ++ name ++ " = function(" ++ params ++ ") \x7b return (" ++ body ++ ") \x7d)"

end Dialect

namespace Expr

/-- The text of a literal: a negative number in parentheses, a function by its name. -/
def literalText : Value → String
  | .number x => if x < 0.0 then "(" ++ Number.text x ++ ")" else Number.text x
  | .function f => f.name
  | v => v.literal

/-- Whether a key needs no quotes: letters, digits, underscores and dollar signs, the first no
digit. -/
def isPlainKey (key : String) : Bool :=
  match key.toList with
  | [] => false
  | c :: rest =>
    (Text.isAlphabetic c || c == '_' || c == '$')
      && rest.all fun c => Text.isAlphanumeric c || c == '_' || c == '$'

def keyText (key : String) : String := if isPlainKey key then key else Value.quote key

mutual

/-- The text of an expression. -/
def render (d : Dialect) : Expr → String
  | .sequence a b => "(" ++ (render d a ++ d.separator ++ render d b) ++ ")"
  | .closed a => "(" ++ render d a ++ ")"
  | .literal v => literalText v
  | .undefined => "undefined"
  | .variable name => name
  | .unary op e => d.unary op (render d e)
  | .binary op l r => d.binary op (render d l) (render d r)
  | .connective c l r => d.connective c (render d l) (render d r)
  | .conditional t y n => "(" ++ render d t ++ " ? (" ++ render d y ++ ") : (" ++ render d n ++ "))"
  | .assign root members v => "(" ++ path root members ++ " = (" ++ render d v ++ "))"
  | .define name params body => d.definition name params (render d body)
  | .call f args => render d f ++ "(" ++ String.intercalate ", " (renderItems d args) ++ ")"
  | .member e name => render d e ++ "." ++ name
  | .array items => "[" ++ String.intercalate ", " (renderItems d items) ++ "]"
  | .object [] => "\x7b\x7d"
  | .object (f :: fs) => "\x7b " ++ String.intercalate ", " (renderFields d (f :: fs)) ++ " \x7d"
  | .case tested branches other =>
    String.intercalate " "
      (renderTested d tested :: (renderBranches d branches ++ (renderOther d other ++ ["end"])))

def renderItems (d : Dialect) : List Expr → List String
  | [] => []
  | e :: rest => render d e :: renderItems d rest

def renderFields (d : Dialect) : List (String × Expr) → List String
  | [] => []
  | (key, e) :: rest => (keyText key ++ ": " ++ render d e) :: renderFields d rest

def renderTested (d : Dialect) : Option Expr → String
  | none => "case"
  | some e => "case " ++ render d e

def renderBranches (d : Dialect) : List (Expr × Expr) → List String
  | [] => []
  | (c, v) :: rest => ("when " ++ render d c ++ " then " ++ render d v) :: renderBranches d rest

def renderOther (d : Dialect) : Option Expr → List String
  | none => []
  | some e => ["else " ++ render d e]

end

/-- The listing of the program an expression compiles to. -/
def listing (e : Expr) : String :=
  String.intercalate " " (Instruction.texts Value.literal e.compile)

end Expr

end Formula
