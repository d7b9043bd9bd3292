import Formula.Proofs.Expr.Every

/-!
# Literals of expressions

`Expr.mapLiterals f` puts an expression for each literal of an expression.
-/

namespace Formula.Expr

mutual

/-- The expression with other expressions in the places of its literals. -/
def mapLiterals (f : Value → Expr) : Expr → Expr
  | .literal v => f v
  | .undefined => .undefined
  | .variable name => .variable name
  | .unary op e => .unary op (mapLiterals f e)
  | .binary op l r => .binary op (mapLiterals f l) (mapLiterals f r)
  | .connective c l r => .connective c (mapLiterals f l) (mapLiterals f r)
  | .conditional t y n => .conditional (mapLiterals f t) (mapLiterals f y) (mapLiterals f n)
  | .assign root members v => .assign root members (mapLiterals f v)
  | .define name params body => .define name params (mapLiterals f body)
  | .call g args => .call (mapLiterals f g) (mapItemLiterals f args)
  | .member e name => .member (mapLiterals f e) name
  | .array items => .array (mapItemLiterals f items)
  | .object fields => .object (mapFieldLiterals f fields)
  | .case tested branches other =>
    .case (mapOptionLiterals f tested) (mapBranchLiterals f branches) (mapOptionLiterals f other)
  | .sequence a b => .sequence (mapLiterals f a) (mapLiterals f b)
  | .closed a => .closed (mapLiterals f a)

def mapItemLiterals (f : Value → Expr) : List Expr → List Expr
  | [] => []
  | e :: rest => mapLiterals f e :: mapItemLiterals f rest

def mapFieldLiterals (f : Value → Expr) : List (String × Expr) → List (String × Expr)
  | [] => []
  | (key, e) :: rest => (key, mapLiterals f e) :: mapFieldLiterals f rest

def mapBranchLiterals (f : Value → Expr) : List (Expr × Expr) → List (Expr × Expr)
  | [] => []
  | (c, v) :: rest => (mapLiterals f c, mapLiterals f v) :: mapBranchLiterals f rest

def mapOptionLiterals (f : Value → Expr) : Option Expr → Option Expr
  | none => none
  | some e => some (mapLiterals f e)

end

mutual

/-- Literals put for literals leave the expression as it is. -/
theorem mapLiterals_literal : (e : Expr) → mapLiterals literal e = e
  | .literal _ | .undefined | .variable _ => rfl
  | .unary op e => congrArg (unary op) (mapLiterals_literal e)
  | .binary op l r | .connective c l r | .sequence l r => by
    rw [mapLiterals, mapLiterals_literal l, mapLiterals_literal r]
  | .conditional t y n => by
    rw [mapLiterals, mapLiterals_literal t, mapLiterals_literal y, mapLiterals_literal n]
  | .assign root members v => congrArg (assign root members) (mapLiterals_literal v)
  | .define name params body => congrArg (define name params) (mapLiterals_literal body)
  | .call g args => by rw [mapLiterals, mapLiterals_literal g, mapItemLiterals_literal args]
  | .member e name => congrArg (member · name) (mapLiterals_literal e)
  | .array items => congrArg array (mapItemLiterals_literal items)
  | .object fields => congrArg object (mapFieldLiterals_literal fields)
  | .case tested branches other => by
    rw [mapLiterals, mapOptionLiterals_literal tested, mapBranchLiterals_literal branches,
      mapOptionLiterals_literal other]
  | .closed a => congrArg closed (mapLiterals_literal a)

theorem mapItemLiterals_literal : (es : List Expr) → mapItemLiterals literal es = es
  | [] => rfl
  | e :: rest => by rw [mapItemLiterals, mapLiterals_literal e, mapItemLiterals_literal rest]

theorem mapFieldLiterals_literal : (fields : List (String × Expr)) → mapFieldLiterals literal fields = fields
  | [] => rfl
  | (key, e) :: rest => by rw [mapFieldLiterals, mapLiterals_literal e, mapFieldLiterals_literal rest]

theorem mapBranchLiterals_literal : (branches : List (Expr × Expr)) →
    mapBranchLiterals literal branches = branches
  | [] => rfl
  | (c, v) :: rest => by
    rw [mapBranchLiterals, mapLiterals_literal c, mapLiterals_literal v, mapBranchLiterals_literal rest]

theorem mapOptionLiterals_literal : (other : Option Expr) → mapOptionLiterals literal other = other
  | none => rfl
  | some e => congrArg some (mapLiterals_literal e)

end

end Formula.Expr
