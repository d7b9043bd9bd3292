import Formula.Value

/-!
# Expressions

The syntax tree of a formula, and the program it compiles to. Only what may stay unevaluated
becomes a nested program: the right side of `and` and `or`, the branches of a conditional, the
values of a case block, the value of an assignment, the body of a definition, and a sequence of
statements.
-/

namespace Formula

/-- The operators that may not need their right operand. -/
inductive Connective where
  | both
  | either
deriving DecidableEq, Repr

/-- The symbol of a connective. -/
def Connective.symbol : Connective → String
  | .both => "and"
  | .either => "or"

inductive Expr where
  | literal (v : Value)
  | undefined
  | variable (name : String)
  | unary (op : String) (e : Expr)
  | binary (op : String) (left right : Expr)
  | connective (c : Connective) (left right : Expr)
  | conditional (test yes no : Expr)
  /-- assigns to a variable or, with further segments, to a member below it -/
  | assign (root : String) (members : List String) (value : Expr)
  | define (name : String) (params : List String) (body : Expr)
  | call (callee : Expr) (args : List Expr)
  | member (base : Expr) (name : String)
  | array (items : List Expr)
  | object (fields : List (String × Expr))
  /-- an optional tested value, conditions with values, and an optional value for the rest -/
  | case (tested : Option Expr) (branches : List (Expr × Expr)) (otherwise : Option Expr)
  /-- a statement and what follows it -/
  | sequence (first rest : Expr)
  /-- a statement that ends in a semicolon with nothing after it -/
  | closed (last : Expr)

namespace Expr

instance : Inhabited Expr := ⟨.undefined⟩

/-- The name an assignment puts on the stack: its segments with dots between them. -/
def path (root : String) (members : List String) : String :=
  String.intercalate "." (root :: members)

/-! ### Compilation -/

mutual

/-- The program of an expression: it leaves one operand above what the stack holds. -/
def compile : Expr → Program Value
  | .literal v => [.literal v]
  | .undefined => [.undefined]
  | .variable name => [.variable name]
  | .unary op e => compile e ++ [.unary op]
  | .binary op l r => compile l ++ (compile r ++ [.binary op])
  | .connective c l r => compile l ++ [.group (compile r), .binary c.symbol]
  | .conditional t y n => compile t ++ [.group (compile y), .group (compile n), .ternary "?"]
  | .assign root members v => [.target (path root members), .group (compile v), .binary "="]
  | .define name params body =>
    .target name :: (params.map .target ++ [.group (compile body), .define params.length])
  | .call f args => compile f ++ (compileItems args ++ [.call args.length])
  | .member e name => compile e ++ [.member name]
  | .array items => compileItems items ++ [.array items.length]
  | .object fields => .objectStart :: (compileFields fields ++ [.objectEnd])
  | .case (some t) branches other =>
    compile t ++ (compileBranches .whenMatch 0 branches
      ++ (compileOther other ++ [.caseMatch (branches.length + otherCount other)]))
  | .case none branches other =>
    compileBranches .whenCond 0 branches
      ++ (compileOther other ++ [.caseCond (branches.length + otherCount other)])
  | .sequence a b => [.group (compile a ++ (.endStatement :: compile b))]
  | .closed a => [.group (compile a)]

/-- The programs of expressions one after the other. -/
def compileItems : List Expr → Program Value
  | [] => []
  | e :: rest => compile e ++ compileItems rest

/-- Each field's value followed by its key. -/
def compileFields : List (String × Expr) → Program Value
  | [] => []
  | (key, e) :: rest => compile e ++ (.property key :: compileFields rest)

/-- Each condition followed by its value as a program and its branch instruction, counted from
`k`. -/
def compileBranches (branch : Nat → Instruction Value) :
    (k : Nat) → List (Expr × Expr) → Program Value
  | _, [] => []
  | k, (c, v) :: rest =>
    compile c ++ (.group (compile v) :: branch k :: compileBranches branch (k + 1) rest)

def compileOther : Option Expr → Program Value
  | none => []
  | some e => [.group (compile e), .caseElse]

/-- How many branches the value for the rest adds. -/
def otherCount : Option Expr → Nat
  | none => 0
  | some _ => 1

end

/-! ### Assignment targets -/

/-- What may stand left of an assignment. -/
inductive Target where
  | path (root : String) (members : List String)
  | function (name : String) (params : List String)

/-- A variable with members read from it. -/
def memberPath? : Expr → List String → Option (String × List String)
  | .variable name, members => some (name, members)
  | .member base name, members => memberPath? base (name :: members)
  | _, _ => none

def variableName? : Expr → Option String
  | .variable name => some name
  | _ => none

/-- The target an expression stands for. -/
def target? : Expr → Option Target
  | .variable name => some (.path name [])
  | .member base name => (memberPath? base [name]).map fun (root, members) => .path root members
  | .call f args =>
    match variableName? f, args.mapM variableName? with
    | some name, some params => some (.function name params)
    | _, _ => none
  | _ => none

/-- Whether an expression is a call, which only a definition can have on its left. -/
def isCall : Expr → Bool
  | .call _ _ => true
  | _ => false

/-! ### Substitution -/

mutual

/-- Replaces every read of a variable; assignment targets and parameters stay. -/
def substitute (name : String) (new : Expr) : Expr → Expr
  | .literal v => .literal v
  | .undefined => .undefined
  | .variable n => if n = name then new else .variable n
  | .unary op e => .unary op (substitute name new e)
  | .binary op l r => .binary op (substitute name new l) (substitute name new r)
  | .connective c l r => .connective c (substitute name new l) (substitute name new r)
  | .conditional t y n =>
    .conditional (substitute name new t) (substitute name new y) (substitute name new n)
  | .assign root members v => .assign root members (substitute name new v)
  | .define f params body => .define f params (substitute name new body)
  | .call f args => .call (substitute name new f) (substituteItems name new args)
  | .member e m => .member (substitute name new e) m
  | .array items => .array (substituteItems name new items)
  | .object fields => .object (substituteFields name new fields)
  | .case t branches other =>
    .case (substituteOption name new t) (substituteBranches name new branches)
      (substituteOption name new other)
  | .sequence a b => .sequence (substitute name new a) (substitute name new b)
  | .closed a => .closed (substitute name new a)

def substituteItems (name : String) (new : Expr) : List Expr → List Expr
  | [] => []
  | e :: rest => substitute name new e :: substituteItems name new rest

def substituteFields (name : String) (new : Expr) : List (String × Expr) → List (String × Expr)
  | [] => []
  | (key, e) :: rest => (key, substitute name new e) :: substituteFields name new rest

def substituteBranches (name : String) (new : Expr) : List (Expr × Expr) → List (Expr × Expr)
  | [] => []
  | (c, v) :: rest =>
    (substitute name new c, substitute name new v) :: substituteBranches name new rest

def substituteOption (name : String) (new : Expr) : Option Expr → Option Expr
  | none => none
  | some e => some (substitute name new e)

end

end Expr

end Formula
