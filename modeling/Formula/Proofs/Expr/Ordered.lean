import Formula.Expr

/-!
# Sequences among operands

A sequence of statements compiles to a program that is run when its value is needed. That matters
where it stands beside other operands, which are evaluated when they are reached. An expression is
ordered when no sequence stands there.
-/

namespace Formula

namespace Expr

def isSequence : Expr → Bool
  | .sequence _ _ | .closed _ => true
  | _ => false

mutual

/-- Whether no sequence of statements is an operand of an operator with two operands, a callee or
an argument, an item of an array, or the tested value or a condition of a case block. -/
def ordered : Expr → Bool
  | .literal _ | .undefined | .variable _ => true
  | .unary _ e => ordered e
  | .binary _ l r => (!l.isSequence && ordered l) && (!r.isSequence && ordered r)
  | .connective _ l r => ordered l && ordered r
  | .conditional t y n => ordered t && (ordered y && ordered n)
  | .assign _ _ v => ordered v
  | .define _ _ body => ordered body
  | .call f args => (!f.isSequence && ordered f) && orderedItems args
  | .member e _ => ordered e
  | .array items => orderedItems items
  | .object fields => orderedFields fields
  | .case none branches other => orderedBranches branches && orderedOption other
  | .case (some t) branches other =>
    (!t.isSequence && ordered t) && (orderedBranches branches && orderedOption other)
  | .sequence a b => ordered a && ordered b
  | .closed a => ordered a

def orderedItems : List Expr → Bool
  | [] => true
  | e :: rest => (!e.isSequence && ordered e) && orderedItems rest

def orderedFields : List (String × Expr) → Bool
  | [] => true
  | (_, e) :: rest => ordered e && orderedFields rest

def orderedBranches : List (Expr × Expr) → Bool
  | [] => true
  | (c, v) :: rest => (!c.isSequence && ordered c) && (ordered v && orderedBranches rest)

def orderedOption : Option Expr → Bool
  | none => true
  | some e => ordered e

end

end Expr

end Formula
