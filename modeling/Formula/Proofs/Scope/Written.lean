import Formula.Proofs.Expr.Parsed

/-!
# The variables a program writes

`Expr.written` are the variables that an expression assigns or defines; the body of a function is
run in a scope of its own and does not count. In the program of an expression each assignment and
each definition comes with its name, so a program can be read as one that writes only these.
-/

namespace Formula

/-! ### Assignments -/

namespace Bindings

/-- The variable that a path names: what stands before its first dot. -/
def root (path : String) : String := (segments [] path.toList).headD ""

/-- An assignment writes the variable at the root of its path and no other. -/
theorem assignPath_other (b : Bindings) (path : String) (v : Value) :
    Meets (fun b' => ∀ name ≠ root path, Record.get? b' name = Record.get? b name) (fun _ => True)
      (assignPath b path v) := by
  unfold assignPath assignSegments root
  generalize segments [] path.toList = names
  split
  · exact trivial
  · split
    · exact fun _ _ => rfl
    · exact fun name hne => Record.get?_insert_of_ne b v hne
    · refine Meets.bind (Meets.any _) fun target _ => ?_
      exact fun name hne => Record.get?_insert_of_ne b target hne

end Bindings

/-! ### Expressions -/

namespace Expr

mutual

/-- The variables that an expression assigns or defines outside the bodies of functions. -/
def written : Expr → List String
  | .literal _ | .undefined | .variable _ => []
  | .unary _ e | .member e _ | .closed e => written e
  | .binary _ a b | .connective _ a b | .sequence a b => written a ++ written b
  | .conditional t y n => written t ++ (written y ++ written n)
  | .assign root members v => Bindings.root (path root members) :: written v
  | .define name _ _ => [name]
  | .call f args => written f ++ writtenItems args
  | .array items => writtenItems items
  | .object fields => writtenFields fields
  | .case tested branches other =>
    writtenOption tested ++ (writtenBranches branches ++ writtenOption other)

def writtenItems : List Expr → List String
  | [] => []
  | e :: rest => written e ++ writtenItems rest

def writtenFields : List (String × Expr) → List String
  | [] => []
  | (_, e) :: rest => written e ++ writtenFields rest

def writtenBranches : List (Expr × Expr) → List String
  | [] => []
  | (c, v) :: rest => written c ++ (written v ++ writtenBranches rest)

def writtenOption : Option Expr → List String
  | none => []
  | some e => written e

end

end Expr

/-! ### Programs -/

/-- Whether an instruction assigns or defines a variable, whose name it finds on the stack. -/
def Instruction.writes : Instruction Value → Bool
  | .binary op => op = "="
  | .define _ => true
  | _ => false

/-- Code in which assignments and definitions come right after their names, and these are among
given ones. -/
inductive Program.Writes (names : String → Prop) : Program Value → Prop
  | nil : Program.Writes names []
  | cons {i : Instruction Value} {rest : Program Value} :
      i.writes = false → (∀ body, i = .group body → Program.Writes names body) →
      Program.Writes names rest → Program.Writes names (i :: rest)
  | assign {path : String} {body rest : Program Value} :
      names (Bindings.root path) → Program.Writes names body → Program.Writes names rest →
      Program.Writes names (.target path :: .group body :: .binary "=" :: rest)
  | define {name : String} (params : List String) (body : Program Value) {rest : Program Value} :
      names name → Program.Writes names rest →
      Program.Writes names
        (.target name :: (params.map .target ++ .group body :: .define params.length :: rest))

namespace Program.Writes

variable {names : String → Prop} {code rest : Program Value}

/-- An instruction that is no program on the stack. -/
theorem step {i : Instruction Value} (hi : i.writes = false) (hg : ∀ body, i ≠ .group body)
    (hrest : Writes names rest) : Writes names (i :: rest) :=
  .cons hi (fun body h => (hg body h).elim) hrest

theorem group {body : Program Value} (hbody : Writes names body) (hrest : Writes names rest) :
    Writes names (.group body :: rest) :=
  .cons rfl (fun _ h => by cases h; exact hbody) hrest

theorem append (hcode : Writes names code) (hrest : Writes names rest) :
    Writes names (code ++ rest) := by
  induction hcode with
  | nil => exact hrest
  | cons hi hg _ _ ih => exact .cons hi hg ih
  | assign hroot hbody _ _ ih => exact .assign hroot hbody ih
  | define params body hname _ ih =>
    rw [List.cons_append, List.append_assoc]
    exact .define params body hname ih

/-- Code followed by one instruction. -/
theorem concat {i : Instruction Value} (hcode : Writes names code) (hi : i.writes = false)
    (hg : ∀ body, i ≠ .group body) : Writes names (code ++ [i]) :=
  hcode.append (.step hi hg .nil)

end Program.Writes

/-! ### Compilation -/

theorem Language.emits_regular (lang : Language Value) :
    lang.Emits fun i => i.isStructural = false where
  unary _ := rfl
  binary _ hne := by simpa [Instruction.isStructural] using hne
  «variable» _ := rfl
  constant _ := rfl
  number _ := rfl
  string _ := rfl

namespace Expr

variable {names : String → Prop}

mutual

/-- The program of an expression writes what the expression does. -/
theorem compile_writes :
    (e : Expr) → e.Regular → (∀ n ∈ e.written, names n) → Program.Writes names e.compile
  | .literal _, _, _ | .undefined, _, _ | .variable _, _, _ =>
    .step rfl (fun _ h => by cases h) .nil
  | .unary _ e, he, hw => (compile_writes e he.2 hw).concat rfl fun _ h => by cases h
  | .member e _, he, hw => (compile_writes e he hw).concat rfl fun _ h => by cases h
  | .closed e, he, hw => .group (compile_writes e he hw) .nil
  | .binary op l r, he, hw => by
    obtain ⟨hl, hr⟩ := List.forall_mem_append.mp hw
    have hop : (Instruction.binary op).writes = false := by
      have hregular : op ∉ Instruction.connectives := by
        simpa [Instruction.isStructural] using he.1
      simp_all [Instruction.connectives, Instruction.writes]
    have hright := (compile_writes r he.2.2 hr).concat hop fun _ h => by cases h
    exact (compile_writes l he.2.1 hl).append hright
  | .connective c l r, he, hw => by
    obtain ⟨hl, hr⟩ := List.forall_mem_append.mp hw
    have hc : (Instruction.binary c.symbol).writes = false := by
      cases c <;> rfl
    have hright := compile_writes r he.2 hr
    exact (compile_writes l he.1 hl).append
      (.group hright (.step hc (fun _ h => by cases h) .nil))
  | .conditional t y n, he, hw => by
    obtain ⟨ht, hw⟩ := List.forall_mem_append.mp hw
    obtain ⟨hy, hn⟩ := List.forall_mem_append.mp hw
    have hyes := compile_writes y he.2.1 hy
    have hno := compile_writes n he.2.2 hn
    exact (compile_writes t he.1 ht).append
      (.group hyes (.group hno (.step rfl (fun _ h => by cases h) .nil)))
  | .assign _ _ v, he, hw => by
    obtain ⟨hroot, hv⟩ := List.forall_mem_cons.mp hw
    exact .assign hroot (compile_writes v he hv) .nil
  | .define _ params body, _, hw =>
    .define params body.compile (List.forall_mem_singleton.mp hw) .nil
  | .call f args, he, hw => by
    obtain ⟨hf, hargs⟩ := List.forall_mem_append.mp hw
    have hcall : Program.Writes names [.call args.length] := .step rfl (fun _ h => by cases h) .nil
    have hitems := (compileItems_writes args he.2 hargs).append hcall
    exact (compile_writes f he.1 hf).append hitems
  | .array items, he, hw => (compileItems_writes items he hw).concat rfl fun _ h => by cases h
  | .object fields, he, hw =>
    have hfields := (compileFields_writes fields he hw).concat rfl fun _ h => by cases h
    .step rfl (fun _ h => by cases h) hfields
  | .case (some t) branches other, he, hw => by
    obtain ⟨ht, hw⟩ := List.forall_mem_append.mp hw
    obtain ⟨hbranches, hother⟩ := List.forall_mem_append.mp hw
    have hend : Program.Writes names [.caseMatch (branches.length + otherCount other)] :=
      .step rfl (fun _ h => by cases h) .nil
    have hrest := (compileOther_writes other he.2.2 hother).append hend
    have hwhen := compileBranches_writes .whenMatch (fun _ => rfl) (fun _ _ h => by cases h) 0
      branches he.2.1 hbranches
    exact (compile_writes t he.1 ht).append (hwhen.append hrest)
  | .case none branches other, he, hw => by
    obtain ⟨_, hw⟩ := List.forall_mem_append.mp hw
    obtain ⟨hbranches, hother⟩ := List.forall_mem_append.mp hw
    have hend : Program.Writes names [.caseCond (branches.length + otherCount other)] :=
      .step rfl (fun _ h => by cases h) .nil
    have hrest := (compileOther_writes other he.2.2 hother).append hend
    have hwhen := compileBranches_writes .whenCond (fun _ => rfl) (fun _ _ h => by cases h) 0
      branches he.2.1 hbranches
    exact hwhen.append hrest
  | .sequence a b, he, hw => by
    obtain ⟨ha, hb⟩ := List.forall_mem_append.mp hw
    have hrest := compile_writes b he.2 hb
    exact .group ((compile_writes a he.1 ha).append
      (.step rfl (fun _ h => by cases h) hrest)) .nil

theorem compileItems_writes :
    (items : List Expr) → AllItems (fun i => i.isStructural = false) items →
      (∀ n ∈ writtenItems items, names n) → Program.Writes names (compileItems items)
  | [], _, _ => .nil
  | e :: rest, he, hw => by
    obtain ⟨hfirst, hrest⟩ := List.forall_mem_append.mp hw
    exact (compile_writes e he.1 hfirst).append (compileItems_writes rest he.2 hrest)

theorem compileFields_writes :
    (fields : List (String × Expr)) → AllFields (fun i => i.isStructural = false) fields →
      (∀ n ∈ writtenFields fields, names n) → Program.Writes names (compileFields fields)
  | [], _, _ => .nil
  | (_, e) :: rest, he, hw => by
    obtain ⟨hfirst, hrest⟩ := List.forall_mem_append.mp hw
    have hfields := compileFields_writes rest he.2 hrest
    exact (compile_writes e he.1 hfirst).append (.step rfl (fun _ h => by cases h) hfields)

theorem compileBranches_writes (branch : Nat → Instruction Value)
    (hbranch : ∀ k, (branch k).writes = false) (hcode : ∀ k body, branch k ≠ .group body) :
    (k : Nat) → (branches : List (Expr × Expr)) →
      AllBranches (fun i => i.isStructural = false) branches →
      (∀ n ∈ writtenBranches branches, names n) →
      Program.Writes names (compileBranches branch k branches)
  | _, [], _, _ => .nil
  | k, (c, v) :: rest, he, hw => by
    obtain ⟨hc, hw⟩ := List.forall_mem_append.mp hw
    obtain ⟨hv, hrest⟩ := List.forall_mem_append.mp hw
    have hmore := compileBranches_writes branch hbranch hcode (k + 1) rest he.2.2 hrest
    have hvalue := compile_writes v he.2.1 hv
    exact (compile_writes c he.1 hc).append
      (.group hvalue (.step (hbranch k) (hcode k) hmore))

theorem compileOther_writes :
    (other : Option Expr) → AllOption (fun i => i.isStructural = false) other →
      (∀ n ∈ writtenOption other, names n) → Program.Writes names (compileOther other)
  | none, _, _ => .nil
  | some e, he, hw =>
    have hvalue := compile_writes e he hw
    .group hvalue (.step rfl (fun _ h => by cases h) .nil)

end

end Expr

end Formula
