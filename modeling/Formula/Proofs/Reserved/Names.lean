import Formula.Proofs.Machine.Steps
import Formula.Proofs.Scope.Mentioned
import Formula.Proofs.Expr.Parsed

/-!
# Values and programs without reserved names

A value is unreserved when no name in it is reserved, at any depth: no field of an object, no variable
that a function captured or binds. Assignments, members and fields are checked for reserved names when
they are used, so in a program only the names count that definitions bind. The program of an
expression is unreserved if no definition in it binds a reserved name.
-/

namespace Formula

/-! ### Names -/

namespace Record

variable {α : Type}

/-- No name of a record is reserved. -/
def NamesFree (r : Record α) : Prop := ∀ p ∈ r, isReserved p.1 = false

namespace NamesFree

variable {r : Record α}

theorem insert (hr : NamesFree r) {name : String} (hname : isReserved name = false) (v : α) :
    NamesFree (Record.insert r name v) := by
  intro p hp
  rcases mem_insert hp with rfl | hp
  · exact hname
  · exact hr p hp

theorem update {pairs : Record α} (hr : NamesFree r) (hpairs : NamesFree pairs) :
    NamesFree (Record.update r pairs) := by
  unfold Record.update
  induction pairs generalizing r with
  | nil => exact hr
  | cons p rest ih =>
    obtain ⟨hp, hrest⟩ := List.forall_mem_cons.mp hpairs
    exact ih (hr.insert hp p.2) hrest

end NamesFree

end Record

/-- Code in which definitions bind no reserved name, and in which what is held has some property. -/
inductive Program.Unreserved (V : Value → Prop) : Program Value → Prop
  | nil : Program.Unreserved V []
  | cons {i : Instruction Value} {rest : Program Value} :
      (∀ paramc, i ≠ .define paramc) → (∀ v, i = .literal v → V v) →
      (∀ body, i = .group body → Program.Unreserved V body) → Program.Unreserved V rest →
      Program.Unreserved V (i :: rest)
  | define {name : String} {params : List String} {body rest : Program Value} :
      isReserved name = false → (∀ param ∈ params, isReserved param = false) →
      Program.Unreserved V body → Program.Unreserved V rest →
      Program.Unreserved V
        (.target name :: (params.map .target ++ .group body :: .define params.length :: rest))

mutual

inductive Value.Unreserved : Value → Prop
  | undefined : Value.Unreserved .undefined
  | null : Value.Unreserved .null
  | bool (b : Bool) : Value.Unreserved (.bool b)
  | number (x : Float) : Value.Unreserved (.number x)
  | string (s : String) : Value.Unreserved (.string s)
  | array {items : List Value} :
      (∀ v ∈ items, Value.Unreserved v) → Value.Unreserved (.array items)
  | object {fields : List (String × Value)} : Record.NamesFree fields →
      (∀ p ∈ fields, Value.Unreserved p.2) → Value.Unreserved (.object fields)
  | function {f : Function Value} : Function.Unreserved f → Value.Unreserved (.function f)
  | deferred (id : Nat) : Value.Unreserved (.deferred id)

inductive Function.Unreserved : Function Value → Prop
  | native (f : Native) : Function.Unreserved (.native f)
  | defined {c : Closure Value} :
      isReserved c.name = false → Closure.Unreserved c → Function.Unreserved (.defined c)
  | prepared {c : Closure Value} : Closure.Unreserved c → Function.Unreserved (.prepared c)

inductive Closure.Unreserved : Closure Value → Prop
  | mk {c : Closure Value} : (∀ param ∈ c.params, isReserved param = false) →
      Record.NamesFree c.captured → (∀ p ∈ c.captured, Value.Unreserved p.2) →
      Program.Unreserved Value.Unreserved c.body → Language.Unreserved c.language →
      Closure.Unreserved c

/-- What the resolver of a language gives. -/
inductive Language.Unreserved : Language Value → Prop
  | mk {lang : Language Value} :
      (∀ name v, lang.resolve? name = some (.value v) → Value.Unreserved v) →
      Language.Unreserved lang

end

/-- Variables without reserved names, and with unreserved values. -/
structure Bindings.Unreserved (b : Bindings) : Prop where
  names : Record.NamesFree b
  values : ∀ p ∈ b, p.2.Unreserved

theorem Language.Unreserved.resolve {lang : Language Value} (h : lang.Unreserved) :
    ∀ name v, lang.resolve? name = some (.value v) → v.Unreserved := by
  cases h with
  | mk hresolve => exact hresolve

namespace Value

theorem Unreserved.ofFunction {f : Function Value} (h : (Value.function f).Unreserved) :
    f.Unreserved := by
  cases h with
  | function hf => exact hf

theorem unreserved_fieldwise : Fieldwise Value.Unreserved where
  undefined := .undefined
  bool := .bool
  number := .number
  string := .string
  array := .array
  items h := by
    cases h with
    | array hitems => exact hitems
  fields h := by
    cases h with
    | object _ hfields => exact hfields
  empty := .object (fun _ h => (List.not_mem_nil h).elim) fun _ h => (List.not_mem_nil h).elim
  insert h hname hv := by
    cases h with
    | object hnames hfields =>
      exact .object (hnames.insert hname _) (Record.forall_insert hfields _ hv)

end Value

/-! ### Variables -/

namespace Bindings.Unreserved

variable {b : Bindings} {name : String} {v : Value}

theorem insert (hb : b.Unreserved) (hname : isReserved name = false) (hv : v.Unreserved) :
    Unreserved (Record.insert b name v) :=
  ⟨hb.names.insert hname v, Record.forall_insert hb.values name hv⟩

theorem update {pairs : Bindings} (hb : b.Unreserved) (hpairs : pairs.Unreserved) :
    Unreserved (Record.update b pairs) :=
  ⟨hb.names.update hpairs.names, Record.forall_update hb.values hpairs.values⟩

end Bindings.Unreserved

/-- An assignment to a path makes no name that is reserved. -/
theorem Bindings.assignPath_unreserved {b : Bindings} (hb : b.Unreserved) (path : String)
    {v : Value} (hv : v.Unreserved) :
    Meets Bindings.Unreserved (fun _ => True) (assignPath b path v) := by
  have hnames : Meets Record.NamesFree (fun _ => True) (assignPath b path v) := by
    unfold assignPath assignSegments
    split
    · exact trivial
    · next hfree =>
      have hfree : ∀ name ∈ segments [] path.toList, isReserved name = false := by
        simpa using List.find?_eq_none.mp hfree
      split
      · exact hb.names
      · next name hsegments =>
        exact hb.names.insert (hfree name (hsegments ▸ List.mem_singleton_self name)) v
      · next name rest _ hsegments =>
        refine Meets.bind (Meets.any _) fun root _ => ?_
        exact hb.names.insert (hfree name (hsegments ▸ List.mem_cons_self ..)) root
  have hvalues : Meets (fun b => ∀ p ∈ b, p.2.Unreserved) (fun _ => True) (assignPath b path v) :=
    (assignPath_fieldwise Value.unreserved_fieldwise hb.values path hv).weaken fun _ _ => trivial
  exact (hnames.and hvalues).mono fun _ h => ⟨h.1, h.2⟩

namespace Machine

/-- The variables of a call have the names that its function captured and binds. -/
theorem definedScope_unreserved {c : Closure Value} (hname : isReserved c.name = false)
    (hc : c.Unreserved) {args : List Value} (hargs : ∀ v ∈ args, v.Unreserved) :
    (definedScope (.defined c) c args).Unreserved := by
  have hself : Value.Unreserved (.function (.defined c)) := .function (.defined hname hc)
  obtain ⟨hparams, hcaptured, hvalues, _, _⟩ := hc
  refine ⟨(hcaptured.insert hname _).update fun p hp => ?_, ?_⟩
  · obtain ⟨q, hq, rfl⟩ := List.mem_map.mp hp
    exact hparams q.1 (List.fst_mem_of_mem_zipIdx hq)
  · exact definedScope_hereditary Value.unreserved_fieldwise.toHereditary hvalues hself hargs

end Machine

/-! ### Expressions -/

namespace Mention

/-- Places that bind no reserved name. -/
def BindsFree (ms : List Mention) : Prop := ∀ name, .bound name ∈ ms → isReserved name = false

/-- The name that a place binds. -/
def bound? : Mention → Option String
  | .bound n => some n
  | .read _ | .assigned _ _ => none

theorem bindsFree_iff {ms : List Mention} :
    BindsFree ms ↔ ∀ name ∈ ms.filterMap bound?, isReserved name = false := by
  have hbound : ∀ m name, bound? m = some name ↔ m = .bound name := by
    intro m name
    cases m <;> simp [bound?]
  simp only [BindsFree, List.mem_filterMap, hbound, exists_eq_right]

instance (ms : List Mention) : Decidable (BindsFree ms) := decidable_of_iff' _ bindsFree_iff

theorem bindsFree_append {ms ns : List Mention} :
    BindsFree (ms ++ ns) ↔ BindsFree ms ∧ BindsFree ns := by
  simp only [BindsFree, List.mem_append]
  exact ⟨fun h => ⟨fun n hn => h n (.inl hn), fun n hn => h n (.inr hn)⟩,
    fun h n hn => hn.elim (h.1 n) (h.2 n)⟩

theorem BindsFree.tail {m : Mention} {ms : List Mention} (h : BindsFree (m :: ms)) :
    BindsFree ms := fun n hn => h n (List.mem_cons_of_mem _ hn)

end Mention

/-- An instruction that holds no value and no program, and defines nothing. -/
def Instruction.Bare : Instruction Value → Prop
  | .literal _ | .group _ | .define _ => False
  | _ => True

namespace Program.Unreserved

variable {V : Value → Prop} {code rest : Program Value}

theorem step {i : Instruction Value} (hi : i.Bare) (hrest : Unreserved V rest) :
    Unreserved V (i :: rest) := by
  refine .cons ?_ ?_ ?_ hrest
  · rintro _ rfl
    exact hi
  · rintro _ rfl
    exact hi.elim
  · rintro _ rfl
    exact hi.elim

theorem group {body : Program Value} (hbody : Unreserved V body) (hrest : Unreserved V rest) :
    Unreserved V (.group body :: rest) :=
  .cons (fun _ h => by cases h) (fun _ h => by cases h) (fun _ h => by cases h; exact hbody) hrest

theorem append (hcode : Unreserved V code) (hrest : Unreserved V rest) :
    Unreserved V (code ++ rest) := by
  induction hcode with
  | nil => exact hrest
  | cons hd hl hg _ _ ih => exact .cons hd hl hg ih
  | define hname hparams hbody _ _ ih =>
    rw [List.cons_append, List.append_assoc]
    exact .define hname hparams hbody ih

end Program.Unreserved

namespace Expr

variable {V : Value → Prop}

/-- What a literal holds has a property. -/
def Holds (V : Value → Prop) (i : Instruction Value) : Prop := ∀ v, i = .literal v → V v

open Mention Program.Unreserved

mutual

/-- The program of an expression binds the names that the expression does. -/
theorem compile_unreserved : (e : Expr) → e.All (Holds V) → BindsFree e.mentions →
    Program.Unreserved V e.compile
  | .literal v, he, _ => .cons (fun _ h => by cases h) he (fun _ h => by cases h) .nil
  | .undefined, _, _ | .variable _, _, _ => step trivial .nil
  | .unary _ e, he, hb => (compile_unreserved e he.2 hb).append (step trivial .nil)
  | .member e _, he, hb => (compile_unreserved e he hb).append (step trivial .nil)
  | .closed e, he, hb => group (compile_unreserved e he hb) .nil
  | .binary _ l r, he, hb => by
    obtain ⟨hl, hr⟩ := bindsFree_append.mp hb
    exact (compile_unreserved l he.2.1 hl).append
      ((compile_unreserved r he.2.2 hr).append (step trivial .nil))
  | .connective c l r, he, hb => by
    obtain ⟨hl, hr⟩ := bindsFree_append.mp hb
    exact (compile_unreserved l he.1 hl).append
      (group (compile_unreserved r he.2 hr) (step trivial .nil))
  | .conditional t y n, he, hb => by
    obtain ⟨ht, hb⟩ := bindsFree_append.mp hb
    obtain ⟨hy, hn⟩ := bindsFree_append.mp hb
    exact (compile_unreserved t he.1 ht).append (group (compile_unreserved y he.2.1 hy)
      (group (compile_unreserved n he.2.2 hn) (step trivial .nil)))
  | .assign _ _ v, he, hb =>
    step trivial (group (compile_unreserved v he hb.tail) (step trivial .nil))
  | .define name params body, he, hb => by
    obtain ⟨hparams, hbody⟩ := bindsFree_append.mp hb.tail
    exact .define (hb name (List.mem_cons_self ..))
      (fun p hp => hparams p (List.mem_map.mpr ⟨p, hp, rfl⟩)) (compile_unreserved body he hbody) .nil
  | .call f args, he, hb => by
    obtain ⟨hf, hargs⟩ := bindsFree_append.mp hb
    exact (compile_unreserved f he.1 hf).append
      ((compileItems_unreserved args he.2 hargs).append (step trivial .nil))
  | .array items, he, hb => (compileItems_unreserved items he hb).append (step trivial .nil)
  | .object fields, he, hb =>
    step trivial ((compileFields_unreserved fields he hb).append (step trivial .nil))
  | .case (some t) branches other, he, hb => by
    obtain ⟨ht, hb⟩ := bindsFree_append.mp hb
    obtain ⟨hbranches, hother⟩ := bindsFree_append.mp hb
    exact (compile_unreserved t he.1 ht).append
      ((compileBranches_unreserved .whenMatch (fun _ => trivial) 0 branches he.2.1 hbranches).append
        ((compileOther_unreserved other he.2.2 hother).append (step trivial .nil)))
  | .case none branches other, he, hb => by
    obtain ⟨hbranches, hother⟩ := bindsFree_append.mp hb
    exact (compileBranches_unreserved .whenCond (fun _ => trivial) 0 branches he.2.1 hbranches).append
      ((compileOther_unreserved other he.2.2 hother).append (step trivial .nil))
  | .sequence a b, he, hb => by
    obtain ⟨ha, hb⟩ := bindsFree_append.mp hb
    exact group ((compile_unreserved a he.1 ha).append
      (step trivial (compile_unreserved b he.2 hb))) .nil

theorem compileItems_unreserved : (items : List Expr) → AllItems (Holds V) items →
    BindsFree (mentionsItems items) → Program.Unreserved V (compileItems items)
  | [], _, _ => .nil
  | e :: rest, he, hb => by
    obtain ⟨hfirst, hrest⟩ := bindsFree_append.mp hb
    exact (compile_unreserved e he.1 hfirst).append (compileItems_unreserved rest he.2 hrest)

theorem compileFields_unreserved : (fields : List (String × Expr)) → AllFields (Holds V) fields →
    BindsFree (mentionsFields fields) → Program.Unreserved V (compileFields fields)
  | [], _, _ => .nil
  | (_, e) :: rest, he, hb => by
    obtain ⟨hfirst, hrest⟩ := bindsFree_append.mp hb
    exact (compile_unreserved e he.1 hfirst).append
      (step trivial (compileFields_unreserved rest he.2 hrest))

theorem compileBranches_unreserved (branch : Nat → Instruction Value)
    (hbranch : ∀ k, (branch k).Bare) :
    (k : Nat) → (branches : List (Expr × Expr)) → AllBranches (Holds V) branches →
      BindsFree (mentionsBranches branches) →
      Program.Unreserved V (compileBranches branch k branches)
  | _, [], _, _ => .nil
  | k, (c, v) :: rest, he, hb => by
    obtain ⟨hc, hb⟩ := bindsFree_append.mp hb
    obtain ⟨hv, hrest⟩ := bindsFree_append.mp hb
    have hmore := compileBranches_unreserved branch hbranch (k + 1) rest he.2.2 hrest
    exact (compile_unreserved c he.1 hc).append
      (group (compile_unreserved v he.2.1 hv) (step (hbranch k) hmore))

theorem compileOther_unreserved : (other : Option Expr) → AllOption (Holds V) other →
    BindsFree (mentionsOption other) → Program.Unreserved V (compileOther other)
  | none, _, _ => .nil
  | some e, he, hb => group (compile_unreserved e he hb) (step trivial .nil)

end

end Expr

/-- A text that binds no reserved name, in a language whose constants have none, has an unreserved
program. -/
theorem parseExpr_unreserved {lang : Language Value} (hlang : lang.Complete)
    (hconstants : ∀ c ∈ lang.constants, c.2.Unreserved) {source : String} {e : Expr}
    (he : parseExpr lang source = .ok e) (hbinds : Mention.BindsFree e.mentions) :
    Program.Unreserved Value.Unreserved e.compile := by
  have hemits : lang.Emits fun i => i.isStructural = false ∧ Expr.Holds Value.Unreserved i :=
    Language.emits_made Value.unreserved_fieldwise.toHereditary hconstants
      (fun hv u hu => by cases hu; exact hv) fun hl _ v hv => (hl v hv).elim
  exact Expr.compile_unreserved e (Expr.All.mono (fun _ h => h.2) e (parseExpr_all hlang hemits he))
    hbinds

end Formula
