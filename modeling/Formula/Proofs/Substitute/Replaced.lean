import Formula.Proofs.Scope.Touched
import Formula.Proofs.Substitute.Exchanged

/-!
# Code in which a variable is replaced

To substitute an expression for a variable is to put the expression's code in place of each
instruction that reads the variable. If this code leads to an operand that stands for the variable's
value, the two programs are the same but for exchanged parts.
-/

namespace Formula

/-! ### Replacing -/

mutual

/-- Code in place of an instruction, if it reads a variable; the program that an instruction holds
is changed in the same way. -/
def Instruction.replace (name : String) (new : Program Value) : Instruction Value → Program Value
  | .variable n => if n = name then new else [.variable n]
  | .group body => [.group (Program.replace name new body)]
  | i => [i]

def Program.replace (name : String) (new : Program Value) : List (Instruction Value) → Program Value
  | [] => []
  | i :: rest => Instruction.replace name new i ++ Program.replace name new rest

end

section

variable (name : String) (new : Program Value)

theorem Program.replace_append (code rest : Program Value) :
    Program.replace name new (code ++ rest) =
      Program.replace name new code ++ Program.replace name new rest := by
  induction code with
  | nil => rfl
  | cons i code ih => rw [List.cons_append, Program.replace, Program.replace, ih, List.append_assoc]

theorem Program.replace_targets (params : List String) :
    Program.replace name new (params.map .target) = params.map .target := by
  induction params with
  | nil => rfl
  | cons param params ih => rw [List.map_cons, Program.replace, ih]; rfl

end

namespace Expr

variable (name : String) (new : Expr)

attribute [local simp] substitute substituteItems substituteFields substituteBranches
  substituteOption compile compileItems compileFields compileBranches compileOther
  Program.replace Instruction.replace Program.replace_append Program.replace_targets

theorem length_substituteItems (es : List Expr) : (substituteItems name new es).length = es.length := by
  induction es with
  | nil => rfl
  | cons e rest ih => simp [ih]

theorem length_substituteBranches (branches : List (Expr × Expr)) :
    (substituteBranches name new branches).length = branches.length := by
  induction branches with
  | nil => rfl
  | cons p rest ih => obtain ⟨c, v⟩ := p; simp [ih]

theorem otherCount_substitute (other : Option Expr) :
    otherCount (substituteOption name new other) = otherCount other := by
  cases other <;> rfl

mutual

/-- The code of an expression with another one substituted for a variable is the expression's code
with the other's code in place of the variable. -/
theorem compile_substitute : (e : Expr) →
    (substitute name new e).compile = Program.replace name new.compile e.compile
  | .literal _ | .undefined => by simp
  | .variable n => by
    simp only [substitute, compile, Program.replace, Instruction.replace, List.append_nil]
    split <;> rfl
  | .unary _ e | .member e _ | .closed e => by simp [compile_substitute e]
  | .binary _ a b | .connective _ a b | .sequence a b => by
    simp [compile_substitute a, compile_substitute b]
  | .conditional t y n => by
    simp [compile_substitute t, compile_substitute y, compile_substitute n]
  | .assign _ _ e | .define _ _ e => by simp [compile_substitute e]
  | .call f args => by
    simp [compile_substitute f, compileItems_substitute args, length_substituteItems]
  | .array items => by simp [compileItems_substitute items, length_substituteItems]
  | .object fields => by simp [compileFields_substitute fields]
  | .case none branches other => by
    simp [compileBranches_substitute .whenCond (fun _ => rfl) 0 branches,
      compileOther_substitute other, length_substituteBranches, otherCount_substitute]
  | .case (some t) branches other => by
    simp [compile_substitute t, compileBranches_substitute .whenMatch (fun _ => rfl) 0 branches,
      compileOther_substitute other, length_substituteBranches, otherCount_substitute]

theorem compileItems_substitute : (es : List Expr) →
    compileItems (substituteItems name new es) = Program.replace name new.compile (compileItems es)
  | [] => rfl
  | e :: rest => by simp [compile_substitute e, compileItems_substitute rest]

theorem compileFields_substitute : (fields : List (String × Expr)) →
    compileFields (substituteFields name new fields) =
      Program.replace name new.compile (compileFields fields)
  | [] => rfl
  | (_, e) :: rest => by simp [compile_substitute e, compileFields_substitute rest]

theorem compileBranches_substitute (branch : Nat → Instruction Value)
    (hbranch : ∀ k, (branch k).replace name new.compile = [branch k]) :
    (k : Nat) → (branches : List (Expr × Expr)) →
    compileBranches branch k (substituteBranches name new branches) =
      Program.replace name new.compile (compileBranches branch k branches)
  | _, [] => rfl
  | k, (c, v) :: rest => by
    simp [compile_substitute c, compile_substitute v, hbranch,
      compileBranches_substitute branch hbranch (k + 1) rest]

theorem compileOther_substitute : (other : Option Expr) →
    compileOther (substituteOption name new other) =
      Program.replace name new.compile (compileOther other)
  | none => rfl
  | some e => by simp [compile_substitute e]

end

end Expr

/-! ### The programs of parsed expressions -/

/-- Instructions of compiled programs: every program among them leaves one operand, literals are of
some kind, and the only operator with three operands is the conditional. -/
inductive Instruction.Tame (P : Value → Prop) : Instruction Value → Prop
  | group {body : Program Value} :
      Machine.Balanced body → (∀ i ∈ body, Instruction.Tame P i) → Instruction.Tame P (.group body)
  | plain {i : Instruction Value} :
      (∀ v, i = .literal v → P v) → (∀ body, i ≠ .group body) →
      (∀ op, i = .ternary op → op = "?") → Instruction.Tame P i

namespace Instruction

variable {P : Value → Prop}

theorem Tame.ofLiteral {v : Value} (h : (Instruction.literal v).Tame P) : P v := by
  cases h with
  | plain hv _ _ => exact hv v rfl

theorem Tame.ofGroup {body : Program Value} (h : (Instruction.group body).Tame P) :
    Machine.Balanced body ∧ ∀ i ∈ body, i.Tame P := by
  cases h with
  | group hbalanced hbody => exact ⟨hbalanced, hbody⟩
  | plain _ hgroup _ => exact (hgroup body rfl).elim

theorem Tame.ofTernary {op : String} (h : (Instruction.ternary op).Tame P) : op = "?" := by
  cases h with
  | plain _ _ hop => exact hop op rfl

def isCall : Instruction Value → Bool
  | .call _ => true
  | _ => false

/-- An instruction reads the variable, holds a program, or stays as it is. -/
theorem replace_cases (name : String) (new : Program Value) (i : Instruction Value) :
    i = .variable name ∨ (∃ body, i = .group body) ∨
      i.isGroup = false ∧ i ≠ .variable name ∧ i.replace name new = [i] := by
  cases i with
  | «variable» n =>
    by_cases h : n = name
    · exact .inl (congrArg _ h)
    · exact .inr (.inr ⟨rfl, fun heq => h (Instruction.variable.inj heq), by rw [replace, if_neg h]⟩)
  | group body => exact .inr (.inl ⟨body, rfl⟩)
  | _ => exact .inr (.inr ⟨rfl, by simp, rfl⟩)

end Instruction

/-- Code that writes nothing has what every instruction has that does not write. -/
theorem Program.Writes.every {names : String → Prop} {code : Program Value}
    (hcode : Program.Writes names code) (hnames : ∀ name, ¬names name)
    {p : Instruction Value → Bool} (hp : ∀ i : Instruction Value, i.writes = false → p i = true) :
    Instruction.everyOf p code = true := by
  induction hcode with
  | nil => rfl
  | @cons i rest hi _ _ ihbody ih =>
    refine Bool.and_eq_true_iff.mpr ⟨?_, ih⟩
    cases i with
    | group body =>
      rw [Instruction.every_group]
      exact Bool.and_eq_true_iff.mpr ⟨hp _ hi, ihbody body rfl⟩
    | _ => exact hp _ hi
  | assign hroot => exact (hnames _ hroot).elim
  | define _ _ hname => exact (hnames _ hname).elim

/-- Code that writes nothing and calls nothing is idle. -/
theorem Program.Writes.idle {P : Value → Prop} {names : String → Prop} {code : Program Value}
    (hcode : Program.Writes names code) (hnames : ∀ name, ¬names name)
    (hcalls : Instruction.everyOf (fun i => !i.isCall) code = true)
    (htame : ∀ i ∈ code, i.Tame P) : Machine.Idle P code := by
  induction hcode with
  | nil => exact .nil
  | @cons i rest hi _ _ ihbody ih =>
    obtain ⟨hcall, hcalls⟩ := Bool.and_eq_true_iff.mp hcalls
    obtain ⟨htame, hrest⟩ := List.forall_mem_cons.mp htame
    refine .cons ?_ hi ?_ ?_ ?_ ?_ (ih hcalls hrest)
    · rintro n rfl
      cases hcall
    · rintro op rfl
      exact htame.ofTernary
    · rintro v rfl
      exact htame.ofLiteral
    · rintro body rfl
      exact htame.ofGroup.1
    · rintro body rfl
      rw [Instruction.every_group, Bool.and_eq_true_iff] at hcall
      exact ihbody body rfl hcall.2 htame.ofGroup.2
  | assign hroot => exact (hnames _ hroot).elim
  | define _ _ hname => exact (hnames _ hname).elim

/-- All that is parsed is tame, if the constants are of the kind. -/
theorem Language.emits_tame {P : Value → Prop} (hP : Value.Hereditary P) {lang : Language Value}
    (hconstants : ∀ c ∈ lang.constants, P c.2) :
    lang.Emits fun i => i.isStructural = false ∧ i.Tame P where
  unary _ := ⟨rfl, .plain (fun _ h => by cases h) (fun _ h => by cases h) fun _ h => by cases h⟩
  binary _ hne := ⟨by simpa [Instruction.isStructural] using hne,
    .plain (fun _ h => by cases h) (fun _ h => by cases h) fun _ h => by cases h⟩
  «variable» _ := ⟨rfl, .plain (fun _ h => by cases h) (fun _ h => by cases h) fun _ h => by cases h⟩
  constant name := by
    refine ⟨rfl, .plain (fun v h => ?_) (fun _ h => by cases h) fun _ h => by cases h⟩
    cases h
    cases hn : lang.constant? name with
    | none => exact hP.undefined
    | some v => exact hconstants _ (Record.mem_of_get? hn)
  number x := ⟨rfl, .plain (fun v h => by cases h; exact hP.number x) (fun _ h => by cases h)
    fun _ h => by cases h⟩
  string s := ⟨rfl, .plain (fun v h => by cases h; exact hP.string s) (fun _ h => by cases h)
    fun _ h => by cases h⟩

namespace Expr

/-- Whether an expression calls no function; operators do not count. -/
def callsNothing (e : Expr) : Bool := Instruction.everyOf (fun i => !i.isCall) e.compile

theorem compiled_tame (P : Value → Prop) : Compiled fun i => i.Tame P where
  structural {i} h := by
    refine .plain ?_ ?_ ?_
    · rintro v rfl
      cases h
    · rintro body rfl
      cases h
    · rintro op rfl
      simpa [Instruction.isStructural] using h
  group hf hl hcode :=
    .group (part_balanced (fun a ha => All.mono (fun _ h => h.1) a (hf a ha))
      (All.mono (fun _ h => h.1) _ hl)) hcode

mutual

/-- A statement ends only within a sequence, which is a program of its own. -/
theorem endStatement_notMem : (e : Expr) → .endStatement ∉ e.compile
  | .literal _ | .undefined | .variable _ | .assign _ _ _ | .sequence _ _ | .closed _ => by
    simp [compile]
  | .define _ _ _ => by simp [compile]
  | .unary _ e | .member e _ => by simp [compile, endStatement_notMem e]
  | .binary _ a b => by simp [compile, endStatement_notMem a, endStatement_notMem b]
  | .connective _ a _ => by simp [compile, endStatement_notMem a]
  | .conditional t _ _ => by simp [compile, endStatement_notMem t]
  | .call f args => by simp [compile, endStatement_notMem f, endStatement_notMem_items args]
  | .array items => by simp [compile, endStatement_notMem_items items]
  | .object fields => by simp [compile, endStatement_notMem_fields fields]
  | .case none branches other => by
    simp [compile, endStatement_notMem_branches .whenCond (fun _ h => by cases h) 0 branches,
      endStatement_notMem_other other]
  | .case (some t) branches other => by
    simp [compile, endStatement_notMem t,
      endStatement_notMem_branches .whenMatch (fun _ h => by cases h) 0 branches,
      endStatement_notMem_other other]

theorem endStatement_notMem_items : (es : List Expr) → .endStatement ∉ compileItems es
  | [] => by simp [compileItems]
  | e :: rest => by simp [compileItems, endStatement_notMem e, endStatement_notMem_items rest]

theorem endStatement_notMem_fields :
    (fields : List (String × Expr)) → .endStatement ∉ compileFields fields
  | [] => by simp [compileFields]
  | (_, e) :: rest => by
    simp [compileFields, endStatement_notMem e, endStatement_notMem_fields rest]

theorem endStatement_notMem_branches (branch : Nat → Instruction Value)
    (hbranch : ∀ k, .endStatement ≠ branch k) :
    (k : Nat) → (branches : List (Expr × Expr)) →
      .endStatement ∉ compileBranches branch k branches
  | _, [] => by simp [compileBranches]
  | k, (c, _) :: rest => by
    simp [compileBranches, endStatement_notMem c, hbranch,
      endStatement_notMem_branches branch hbranch (k + 1) rest]

theorem endStatement_notMem_other (other : Option Expr) : .endStatement ∉ compileOther other := by
  cases other <;> simp [compileOther]

end

end Expr

/-! ### Reading -/

/-- Whether reading a name reads a variable, because the resolver makes the name an alias. -/
def Language.Aliases (lang : Language Value) (b : Bindings) (x name : String) : Prop :=
  isReserved name = false ∧ lang.function? name = none ∧
    (lang.isOperatorEnabled name = true → lang.unaryOp? name = none) ∧
    Record.get? b name = none ∧ lang.resolve? name = some (.alias x)

namespace Machine

open Eval

variable {hosts : Hosts} {lang : Language Value} {a b : Bindings} {x name : String} {v : Value}

/-- A name reads the same whatever a variable's value is, unless it reads that variable. -/
theorem lookup_insert (hname : name ≠ x) (halias : ¬lang.Aliases b x name) (v : Value) :
    lookup lang (Record.insert b x v) name = lookup lang b name := by
  unfold lookup
  split
  · rfl
  · next hreserved =>
    rw [Record.get?_insert_of_ne b v hname]
    cases hfunction : lang.function? name with
    | some f => rfl
    | none =>
      cases hunary : if lang.isOperatorEnabled name then lang.unaryOp? name else none with
      | some f => rfl
      | none =>
        cases hget : Record.get? b name with
        | some u => rfl
        | none =>
          cases hresolve : lang.resolve? name with
          | none => rfl
          | some resolution =>
            cases resolution with
            | value u => rfl
            | «alias» other =>
              have hother : other ≠ x := by
                rintro rfl
                refine halias ⟨by simpa using hreserved, hfunction, fun henabled => ?_, hget, hresolve⟩
                rwa [if_pos henabled] at hunary
              simp only [Record.get?_insert_of_ne b v hother]

/-- A variable that is not hidden by a function or an operator has its value. -/
theorem lookup_variable (hreserved : isReserved x = false) (hfunction : lang.function? x = none)
    (hoperator : lang.isOperatorEnabled x = true → lang.unaryOp? x = none)
    (hget : Record.get? b x = some v) : lookup lang b x = .ok v := by
  have hunary : (if lang.isOperatorEnabled x then lang.unaryOp? x else none) = none := by
    split
    · exact hoperator ‹_›
    · rfl
  simp only [lookup, hreserved, hfunction, hunary, hget]
  rfl

theorem leads_variable (hv : v.isDeferred = false) (hread : lookup lang b x = .ok v) :
    Leads hosts lang b [.variable x] [] [.value v] := by
  rintro depth rest stack w - rfl
  exact .of_eq fun n => run_variable hv hread rest stack

/-- Code for a variable that leads to an operand which stands for the variable's value is a part that
is exchanged. -/
theorem exchanged_replace {P : Value → Prop} {names : String → Prop} {new code : Program Value}
    {s : Shape} {o : Operand} {σ : List Shape} {t : Shape}
    (hcode : Program.Touches lang names code)
    (hquiet : Instruction.everyOf (fun i => !i.writes) code = true)
    (hread : lookup lang b x = .ok v) (hv : v.Known)
    (hsame : ∀ n, lang.Reads names n → n ≠ x → lookup lang a n = lookup lang b n)
    (hpair : PairedAs (Stands hosts lang a b) s o (.value v)) (hnew : Leads hosts lang a new [] [o])
    (hend : .endStatement ∉ new) (hshape : ∀ σ, effects new σ = some (s :: σ))
    (htame : ∀ i ∈ Program.replace x new code, i.Tame P)
    (he : effects (Program.replace x new code) σ = some [t]) :
    Exchanged hosts lang a b σ (Program.replace x new code) code := by
  induction hcode generalizing σ t with
  | nil =>
    cases he
    exact .nil t
  | @cons i rest hi hreads hbody hrest ihbody ih =>
    obtain ⟨hfirst, hothers⟩ := Bool.and_eq_true_iff.mp hquiet
    rw [Program.replace, effects_append] at he
    obtain ⟨hhead, htail⟩ := List.forall_mem_append.mp htame
    rcases Instruction.replace_cases x new i with rfl | ⟨body, rfl⟩ | ⟨hgroup, hne, hreplace⟩
    · rw [Program.replace, Instruction.replace, if_pos rfl] at *
      rw [hshape] at he
      exact .part hpair hnew (leads_variable hv.ready hread) hend (by simp) (ih hothers htail he)
    · rw [Instruction.every_group, Bool.and_eq_true_iff] at hfirst
      have hgroup := (hhead _ (List.mem_singleton_self _)).ofGroup
      obtain ⟨_, hbalanced⟩ := hgroup.1
      exact .group (ihbody body rfl hfirst.2 hgroup.2 hbalanced) (ih hothers htail he)
    · rw [hreplace] at he
      obtain ⟨σ₁, hi', he⟩ := Option.bind_eq_some_iff.mp he
      obtain ⟨σ', hi', hσ⟩ := Option.bind_eq_some_iff.mp hi'
      cases hσ
      rw [Program.replace, hreplace]
      refine .same hgroup hi hi' (fun n hn => hsame n (hreads n hn) ?_) (ih hothers htail he)
      exact fun heq => hne (hn.trans (congrArg _ heq))
  | assign =>
    simp [Instruction.everyOf, Instruction.every, Instruction.writes] at hquiet

end Machine

end Formula
