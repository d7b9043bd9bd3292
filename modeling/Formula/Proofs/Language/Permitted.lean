import Formula.Proofs.Scope.Touched

/-!
# Permitted operators

Operators are switched off by category. The lexer takes no operator that is off, but for the colon,
which separates keys from values as well; a definition is checked by the grammar, since it is
written with the equals sign of an assignment. So in the program of a text no instruction, at any
depth, stands for an operator that is off.
-/

namespace Formula

namespace Instruction

/-- The operator that an instruction stands for. -/
def operator? : Instruction Value → Option String
  | .unary op | .binary op | .ternary op => some op
  | .array _ => some "["
  | .define _ => some "()="
  | _ => none

/-- Whether the operator that an instruction stands for, if there is one, is on. -/
def isPermitted (options : Options) (i : Instruction Value) : Bool :=
  i.operator?.all fun op => options.isEnabled (category op)

theorem everyOf_append (p : Instruction Value → Bool) (a b : Program Value) :
    everyOf p (a ++ b) = (everyOf p a && everyOf p b) := by
  induction a with
  | nil => rfl
  | cons i rest ih => rw [List.cons_append, everyOf, everyOf, ih, Bool.and_assoc]

theorem every_group_permitted (options : Options) (body : Program Value) :
    (Instruction.group body).every (isPermitted options) = everyOf (isPermitted options) body := by
  simp [every_group, isPermitted, operator?]

end Instruction

namespace Expr

open Instruction

variable {lang : Language Value}

/-- Whether every instruction of the program of an expression is permitted. -/
def Permitted (lang : Language Value) (e : Expr) : Prop :=
  everyOf (isPermitted lang.options) e.compile = true

theorem permitted_targets (names : List String) :
    everyOf (isPermitted lang.options) (names.map .target) = true := by
  induction names with
  | nil => rfl
  | cons name rest ih => simp [everyOf, every, isPermitted, operator?, ih]

theorem permitted_items {es : List Expr} (h : ∀ e ∈ es, Permitted lang e) :
    everyOf (isPermitted lang.options) (compileItems es) = true := by
  induction es with
  | nil => rfl
  | cons e rest ih =>
    obtain ⟨he, hrest⟩ := List.forall_mem_cons.mp h
    rw [compileItems, everyOf_append, Bool.and_eq_true]
    exact ⟨he, ih hrest⟩

theorem permitted_fields {fields : List (String × Expr)} (h : ∀ f ∈ fields, Permitted lang f.2) :
    everyOf (isPermitted lang.options) (compileFields fields) = true := by
  induction fields with
  | nil => rfl
  | cons f rest ih =>
    obtain ⟨key, e⟩ := f
    obtain ⟨he, hrest⟩ := List.forall_mem_cons.mp h
    have he' : everyOf (isPermitted lang.options) e.compile = true := he
    simp [compileFields, everyOf_append, everyOf, every, isPermitted, operator?, he', ih hrest]

theorem permitted_branches (branch : Nat → Instruction Value)
    (hbranch : ∀ k, (branch k).every (isPermitted lang.options) = true)
    {branches : List (Expr × Expr)}
    (h : ∀ b ∈ branches, Permitted lang b.1 ∧ Permitted lang b.2) (k : Nat) :
    everyOf (isPermitted lang.options) (compileBranches branch k branches) = true := by
  induction branches generalizing k with
  | nil => rfl
  | cons b rest ih =>
    obtain ⟨c, v⟩ := b
    obtain ⟨⟨hc, hv⟩, hrest⟩ := List.forall_mem_cons.mp h
    have hc' : everyOf (isPermitted lang.options) c.compile = true := hc
    have hv' : everyOf (isPermitted lang.options) v.compile = true := hv
    simp [compileBranches, everyOf_append, everyOf, every, isPermitted, operator?, hc', hv',
      ih hrest, hbranch k]

theorem permitted_other {other : Option Expr} (h : ∀ e ∈ other, Permitted lang e) :
    everyOf (isPermitted lang.options) (compileOther other) = true := by
  cases other with
  | none => rfl
  | some e =>
    have he : everyOf (isPermitted lang.options) e.compile = true := h e rfl
    simp [compileOther, everyOf, every, isPermitted, operator?, he]

theorem permitted_case {tested other : Option Expr} {branches : List (Expr × Expr)}
    (ht : ∀ e ∈ tested, Permitted lang e)
    (hb : ∀ b ∈ branches, Permitted lang b.1 ∧ Permitted lang b.2)
    (ho : ∀ e ∈ other, Permitted lang e) : Permitted lang (.case tested branches other) := by
  have hother := permitted_other ho
  cases tested with
  | none =>
    have hbranches := permitted_branches .whenCond (fun _ => rfl) hb 0
    simp [Permitted, compile, everyOf_append, everyOf, every, isPermitted, operator?, hbranches,
      hother]
  | some t =>
    have hbranches := permitted_branches .whenMatch (fun _ => rfl) hb 0
    have htested : everyOf (isPermitted lang.options) t.compile = true := ht t rfl
    simp [Permitted, compile, everyOf_append, everyOf, every, isPermitted, operator?, hbranches,
      hother, htested]

theorem permitted_operator {op : String} (i : Instruction Value) (hop : i.operator? = some op)
    (henabled : lang.isOperatorEnabled op = true) :
    everyOf (isPermitted lang.options) [i] = true := by
  have hpermitted : isPermitted lang.options i = true := by
    rw [isPermitted, hop]
    exact henabled
  cases i <;> simp_all [everyOf, every, operator?]

/-- Every form of expression is permitted where the tokens it is written with are. The colon alone
is taken whether it is on or off. -/
theorem permitted_grammar (hcolon : lang.unaryOp? ":" = none) :
    Parser.Grammar lang (Lexer.Lexical lang) (Permitted lang) where
  name _ := rfl
  operator _ _ := rfl
  word _ := rfl
  constant _ := rfl
  number _ := rfl
  string _ := rfl
  undefined := rfl
  unary {op e} hop hgood he := by
    have henabled : lang.isOperatorEnabled op = true := by
      refine hgood.1.resolve_left ?_
      rintro rfl
      rw [hcolon] at hop
      cases hop
    rw [Permitted, compile, everyOf_append, he]
    simpa using permitted_operator (.unary op) rfl henabled
  binary {op l r} hop _ hgood hl hr := by
    have henabled : lang.isOperatorEnabled op = true := by
      refine hgood.1.resolve_left ?_
      rintro rfl
      exact absurd hop (by decide)
    rw [Permitted, compile, everyOf_append, everyOf_append, hl, hr]
    simpa using permitted_operator (.binary op) rfl henabled
  index hgood hl hr := by
    rw [Permitted, compile, everyOf_append, everyOf_append, hl, hr]
    simpa using permitted_operator (.binary "[") rfl hgood
  connective {c l r} hgood hl hr := by
    have henabled : lang.isOperatorEnabled c.symbol = true :=
      hgood.1.resolve_left (by cases c <;> decide)
    rw [Permitted, compile, everyOf_append, hl, everyOf, every_group_permitted, hr]
    simpa using permitted_operator (.binary c.symbol) rfl henabled
  conditional {t y n} hgood ht hy hn := by
    have henabled : lang.isOperatorEnabled "?" = true := hgood.1.resolve_left (by decide)
    rw [Permitted, compile, everyOf_append, ht, everyOf, every_group_permitted, hy, everyOf,
      every_group_permitted, hn]
    simpa using permitted_operator (.ternary "?") rfl henabled
  assign {e root members v} hgood _ _ hv := by
    have henabled : lang.isOperatorEnabled "=" = true := hgood.1.resolve_left (by decide)
    rw [Permitted, compile, everyOf, everyOf, every_group_permitted, hv]
    simpa [every, isPermitted, operator?] using permitted_operator (.binary "=") rfl henabled
  define {e name params body} henabled _ _ hbody := by
    rw [Permitted, compile, everyOf, everyOf_append, permitted_targets, everyOf,
      every_group_permitted, hbody]
    simpa [every, isPermitted, operator?] using
      permitted_operator (.define params.length) rfl henabled
  call hf hargs := by
    rw [Permitted, compile, everyOf_append, hf, everyOf_append, permitted_items hargs]
    rfl
  member _ _ he := by
    rw [Permitted, compile, everyOf_append, he]
    rfl
  array {items} hgood hitems := by
    rw [Permitted, compile, everyOf_append, permitted_items hitems]
    simpa using permitted_operator (.array items.length) rfl hgood
  object hfields := by
    rw [Permitted, compile, everyOf, everyOf_append, permitted_fields hfields]
    rfl
  case ht hb ho := permitted_case ht hb ho
  sequence {a b} ha hb := by
    have hend : everyOf (isPermitted lang.options) (.endStatement :: b.compile) = true := hb
    rw [Permitted, compile, everyOf, every_group_permitted, everyOf_append, ha, hend]
    rfl
  closed ha := by
    rw [Permitted, compile, everyOf, every_group_permitted, ha]
    rfl

theorem parseExpr_permitted {source : String} {e : Expr} (hlang : lang.Complete)
    (hcolon : lang.unaryOp? ":" = none) (he : parseExpr lang source = .ok e) : Permitted lang e :=
  parseExpr_keeps hlang (permitted_grammar hcolon) (Lexer.tokensFrom_lexical _ _ _) he

theorem unaryOp?_colon (id : Nat) (options : Options) :
    (Language.ofOptions id options).unaryOp? ":" = none := by
  rw [Language.unaryOp?_standard]
  cases h : Record.get? (Language.natives id (Language.operations Operation.unaryTable)) ":" with
  | none => rfl
  | some f =>
    have hmem := Language.mem_natives (Record.mem_of_get? h)
    simp [Language.operations, Operation.unaryTable] at hmem

end Expr

/-- No instruction of the program of a text, at any depth, stands for an operator whose category is
off. -/
theorem parseExpr_respects_options {id : Nat} {options : Options} {source : String} {e : Expr}
    (he : parseExpr (.ofOptions id options) source = .ok e) :
    Instruction.everyOf (Instruction.isPermitted options) e.compile = true :=
  Expr.parseExpr_permitted (Language.Extended.complete (g := .sound) (.standard id options))
    (Expr.unaryOp?_colon id options) he

def withoutSums : Options := { operators := [("add", false), ("coalesce", false)] }

def operatingSource : String :=
  "f(x) = x not in ['a', -b] ? x[c] : \x7bk: x and d!\x7d; y = f('a') || sqrt e"

/-- A text with operators of all kinds in a language without sums. -/
theorem operating_respects_options :
    ∃ e, parseExpr (.ofOptions 0 withoutSums) operatingSource = .ok e ∧
      Instruction.everyOf (Instruction.isPermitted withoutSums) e.compile = true := by
  have hparses : (parseExpr (.ofOptions 0 withoutSums) operatingSource).toOption.isSome = true := by
    decide +kernel
  cases he : parseExpr (.ofOptions 0 withoutSums) operatingSource with
  | error e =>
    rw [he] at hparses
    cases hparses
  | ok e => exact ⟨e, rfl, parseExpr_respects_options he⟩

example : (parseExpr (.ofOptions 0 withoutSums) "a + b").toOption.isSome = false := by
  decide +kernel

end Formula
