import Formula.Expr.Symbols
import Formula.Proofs.Printed.Lexical
import Formula.Proofs.Scope.Written

/-!
# The variables a program touches

`Expr.roots` are the variables at the roots of the names of an expression. A name that is read is
its own root: the lexer takes no other names, save those of operators, which are no variables. So a
program that defines nothing reads and assigns variables at its roots only.
-/

namespace Formula

theorem Bindings.segments_dotless (acc : List Char) {cs : List Char} (h : '.' ∉ cs) :
    segments acc cs = [String.ofList (acc.reverse ++ cs)] := by
  induction cs generalizing acc with
  | nil => rw [segments, List.append_nil]
  | cons c cs ih =>
    obtain ⟨hc, hcs⟩ := List.ne_and_not_mem_of_not_mem_cons h
    rw [segments, if_neg hc.symm, ih (c :: acc) hcs, List.reverse_cons, List.append_assoc]
    rfl

theorem Bindings.root_dotless {name : String} (h : '.' ∉ name.toList) : root name = name := by
  rw [root, segments_dotless [] h, List.headD_cons, List.reverse_nil, List.nil_append,
    String.ofList_toList]

theorem Lexer.root_identifier {name : String} (h : isIdentifier name = true) :
    Bindings.root name = name := by
  have hparts : ∀ cs : List Char, cs.all isNamePart = true → '.' ∉ cs := fun cs hcs hdot =>
    absurd (List.all_eq_true.mp hcs '.' hdot) (by decide)
  refine Bindings.root_dotless ?_
  unfold isIdentifier at h
  rcases Bool.or_eq_true_iff.mp h with hword | hsigil
  · exact hparts _ (Bool.and_eq_true_iff.mp hword).2
  · revert hsigil
    unfold isSigiled
    split
    · next rest hname =>
      intro hrest
      simp [hname, hparts rest (Bool.and_eq_true_iff.mp hrest).2]
    · next rest _ hname =>
      intro hrest
      simp [hname, hparts rest (Bool.and_eq_true_iff.mp hrest).2]
    · exact fun hfalse => by cases hfalse

/-! ### Symbols -/

namespace Symbols

/-- The names so far, with the one under construction. -/
def collected (state : Option String × Names) : Names := complete state.1 state.2

theorem mem_collected {pending : Option String} {names : Names} {n : String} :
    n ∈ collected (pending, names) ↔ n ∈ names ∨ pending = some n := by
  cases pending with
  | none => simp [collected, complete]
  | some name =>
    simp only [collected, complete, add, Option.some.injEq]
    split
    · next h =>
      have hname : name ∈ names := List.contains_iff_mem.mp h
      exact ⟨.inl, fun h' => h'.elim id fun heq => heq ▸ hname⟩
    · simp [eq_comm]

theorem mem_named {name : String} {i : Instruction Value}
    (hi : i = .variable name ∨ i = .target name) (state : Option String × Names) :
    name ∈ collected (ofInstruction false i state) := by
  obtain ⟨pending, names⟩ := state
  rcases hi with rfl | rfl <;> rw [ofInstruction] <;> split <;> simp [mem_collected]

theorem subset_group (body : Program Value) (pending : Option String) (names : Names) :
    collected (ofInstructions false body (none, names)) ⊆
      collected (ofInstruction false (.group body) (pending, names)) :=
  fun _ hn => mem_collected.mpr (.inl hn)

mutual

theorem subset_ofInstruction :
    (i : Instruction Value) → (state : Option String × Names) →
      collected state ⊆ collected (ofInstruction false i state)
  | .group body, (pending, names) => fun n hn => by
    refine mem_collected.mpr ((mem_collected.mp hn).imp_left fun hmem => ?_)
    exact subset_ofInstructions body (none, names) (mem_collected.mpr (.inl hmem))
  | .variable _, (_, _) | .target _, (_, _) => fun n hn => by
    have hcases := mem_collected.mp hn
    rw [ofInstruction]
    split
    · exact mem_collected.mpr (hcases.imp_left (List.mem_append_left _))
    · exact mem_collected.mpr (.inl hn)
  | .member _, (_, _) => fun n hn => mem_collected.mpr (.inl hn)
  | .literal _, _ | .unary _, _ | .binary _, _ | .ternary _, _ | .call _, _ | .define _, _
  | .endStatement, _ | .array _, _ | .undefined, _ | .caseMatch _, _ | .caseCond _, _
  | .whenCond _, _ | .whenMatch _, _ | .caseElse, _ | .objectStart, _ | .property _, _
  | .objectEnd, _ => fun n hn => mem_collected.mpr (.inl hn)

theorem subset_ofInstructions :
    (code : List (Instruction Value)) → (state : Option String × Names) →
      collected state ⊆ collected (ofInstructions false code state)
  | [], _ => fun _ hn => hn
  | i :: rest, state => fun _ hn =>
    subset_ofInstructions rest _ (subset_ofInstruction i state hn)

end

end Symbols

/-! ### Programs within programs -/

namespace Instruction

mutual

/-- Whether something holds of an instruction and of those in the program it holds. -/
def every (p : Instruction Value → Bool) : Instruction Value → Bool
  | .group body => p (.group body) && everyOf p body
  | i => p i

def everyOf (p : Instruction Value → Bool) : List (Instruction Value) → Bool
  | [] => true
  | i :: rest => every p i && everyOf p rest

end

def isDefinition : Instruction Value → Bool
  | .define _ => true
  | _ => false

/-- Whether the name of a variable is its own root, or that of an operator. -/
def isNamed (lang : Language Value) : Instruction Value → Bool
  | .variable name =>
    Bindings.root name == name || (lang.isOperatorEnabled name && (lang.unaryOp? name).isSome)
  | _ => true

theorem everyOf_iff {p : Instruction Value → Bool} {code : Program Value} :
    everyOf p code = true ↔ ∀ i ∈ code, i.every p = true := by
  induction code with
  | nil => exact ⟨fun _ _ h => (List.not_mem_nil h).elim, fun _ => rfl⟩
  | cons i rest ih => rw [everyOf, Bool.and_eq_true_iff, ih, List.forall_mem_cons]

theorem every_group (p : Instruction Value → Bool) (body : Program Value) :
    (Instruction.group body).every p = (p (.group body) && everyOf p body) := by
  rw [every]

theorem named_variable {lang : Language Value} {name : String} :
    (Instruction.variable name).every (isNamed lang) = true ↔
      Bindings.root name = name ∨
        lang.isOperatorEnabled name = true ∧ (lang.unaryOp? name).isSome = true := by
  simp [every, isNamed]

end Instruction

namespace Expr

/-- Whether an expression defines no function, also not within the body of a function. -/
def definesNothing (e : Expr) : Bool := Instruction.everyOf (fun i => !i.isDefinition) e.compile

/-- The variables at the roots of the names of an expression. -/
def roots (e : Expr) : List String := (e.symbols false).map Bindings.root

/-- The names that an expression reads are their own roots or those of operators. -/
theorem named_grammar (lang : Language Value) : Parser.Grammar lang (Lexer.Lexical lang)
    (All fun i => i.isStructural = false ∧ i.every (Instruction.isNamed lang) = true) where
  name hname := ⟨rfl, Instruction.named_variable.mpr (.inl (Lexer.root_identifier hname))⟩
  operator {op} hgood hop := by
    refine ⟨rfl, Instruction.named_variable.mpr (hgood.1.imp ?_ fun henabled => ⟨henabled, hop⟩)⟩
    rintro rfl
    exact Bindings.root_dotless (by decide)
  word k := ⟨rfl, Instruction.named_variable.mpr (.inl (Bindings.root_dotless (by cases k <;> decide)))⟩
  constant _ := ⟨rfl, rfl⟩
  number _ := ⟨rfl, rfl⟩
  string _ := ⟨rfl, rfl⟩
  undefined := trivial
  unary _ _ he := ⟨⟨rfl, rfl⟩, he⟩
  binary _ hne _ hl hr := ⟨⟨by simpa [Instruction.isStructural] using hne, rfl⟩, hl, hr⟩
  index _ hl hr := ⟨⟨rfl, rfl⟩, hl, hr⟩
  connective _ hl hr := ⟨hl, hr⟩
  conditional _ ht hy hn := ⟨ht, hy, hn⟩
  assign _ _ _ hv := hv
  define _ _ _ hbody := hbody
  call hf hargs := ⟨hf, allItems_iff.mpr hargs⟩
  member _ _ he := he
  array _ hitems := allItems_iff.mpr hitems
  object hfields := allFields_iff.mpr hfields
  case ht hb ho := ⟨allOption_iff.mpr ht, allBranches_iff.mpr hb, allOption_iff.mpr ho⟩
  sequence ha hb := ⟨ha, hb⟩
  closed ha := ha

/-- Every instruction of the program of an expression is named, also in the programs within. -/
theorem compile_named {lang : Language Value} {source : String} {e : Expr}
    (hlang : lang.Complete) (he : parseExpr lang source = .ok e) :
    Instruction.everyOf (Instruction.isNamed lang) e.compile = true := by
  refine Instruction.everyOf_iff.mpr (compile_all ⟨fun {i} hi => ?_, fun _ _ hcode => ?_⟩ e
    (parseExpr_keeps hlang (named_grammar lang) (Lexer.tokensFrom_lexical _ _ _) he))
  · cases i with
    | «variable» _ | group _ => cases hi
    | _ => rfl
  · exact Instruction.everyOf_iff.mpr hcode

end Expr

/-! ### Touching -/

/-- Whether a name is one of given variables or stands for an operator. -/
def Language.Reads (lang : Language Value) (names : String → Prop) (name : String) : Prop :=
  names name ∨ lang.isOperatorEnabled name = true ∧ (lang.unaryOp? name).isSome = true

/-- Code that defines nothing, and that reads and assigns none but given variables. -/
inductive Program.Touches (lang : Language Value) (names : String → Prop) : Program Value → Prop
  | nil : Program.Touches lang names []
  | cons {i : Instruction Value} {rest : Program Value} :
      i.writes = false → (∀ name, i = .variable name → lang.Reads names name) →
      (∀ body, i = .group body → Program.Touches lang names body) →
      Program.Touches lang names rest → Program.Touches lang names (i :: rest)
  | assign {path : String} {body rest : Program Value} :
      names (Bindings.root path) → Program.Touches lang names body →
      Program.Touches lang names rest →
      Program.Touches lang names (.target path :: .group body :: .binary "=" :: rest)

/-- Code that defines nothing touches what its names are rooted at. -/
theorem Program.Writes.touches {lang : Language Value} {written names : String → Prop}
    {code : Program Value} (hcode : Program.Writes written code)
    (hdefines : Instruction.everyOf (fun i => !i.isDefinition) code = true)
    (hnamed : Instruction.everyOf (Instruction.isNamed lang) code = true)
    (state : Option String × Symbols.Names)
    (hnames : ∀ n ∈ Symbols.collected (Symbols.ofInstructions false code state),
      names (Bindings.root n)) : Program.Touches lang names code := by
  -- the names are collected from the left, so the state at the rest of the code is another one
  induction hcode generalizing state with
  | nil => exact .nil
  | @cons i rest hi hbody hrest ihbody ih =>
    obtain ⟨hdefine, hdefines⟩ := Bool.and_eq_true_iff.mp hdefines
    obtain ⟨hname, hnamed⟩ := Bool.and_eq_true_iff.mp hnamed
    have hfirst : ∀ n ∈ Symbols.collected (Symbols.ofInstruction false i state),
        names (Bindings.root n) :=
      fun n hn => hnames n (Symbols.subset_ofInstructions rest _ hn)
    refine .cons hi (fun name hvariable => ?_) (fun body hgroup => ?_)
      (ih hdefines hnamed _ hnames)
    · have hroot := hfirst name (Symbols.mem_named (.inl hvariable) state)
      subst hvariable
      refine (Instruction.named_variable.mp hname).imp_left fun hself => ?_
      rwa [hself] at hroot
    · subst hgroup
      rw [Instruction.every_group, Bool.and_eq_true_iff] at hdefine hname
      exact ihbody body rfl hdefine.2 hname.2 _ fun n hn =>
        hfirst n (Symbols.subset_group body state.1 state.2 hn)
  | @assign path body rest hroot hbody hrest ihbody ih =>
    simp only [Instruction.everyOf, Instruction.every_group, Bool.and_eq_true] at hdefines hnamed
    refine .assign (hnames path ?_) ?_ (ih hdefines.2.2.2 hnamed.2.2.2 _ hnames)
    · exact Symbols.subset_ofInstructions (.group body :: .binary "=" :: rest) _
        (Symbols.mem_named (.inr rfl) state)
    · let after := Symbols.ofInstruction false (.target path) state
      refine ihbody hdefines.2.1.2 hnamed.2.1.2 (none, after.2) fun n hn => hnames n ?_
      exact Symbols.subset_ofInstructions (.binary "=" :: rest) _
        (Symbols.subset_group body after.1 after.2 hn)
  | define params body hname hrest ih =>
    rw [Instruction.everyOf_iff] at hdefines
    have hdefine := hdefines (.define params.length) (by simp)
    simp [Instruction.every, Instruction.isDefinition] at hdefine

/-- The program of a parsed expression that defines nothing touches the roots of its names. -/
theorem Expr.compile_touches {lang : Language Value} {source : String} {e : Expr}
    (hlang : lang.Complete) (he : parseExpr lang source = .ok e) (hdefines : e.definesNothing) :
    Program.Touches lang (· ∈ e.roots) e.compile :=
  (Expr.compile_writes e (parseExpr_all hlang lang.emits_regular he) fun _ h => h).touches hdefines
    (Expr.compile_named hlang he) (none, []) fun _ hn => List.mem_map_of_mem hn

end Formula
