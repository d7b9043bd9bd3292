import Mathlib.Order.Filter.AtTopBot.Basic
import Mathlib.Order.Filter.Finite
import Formula.Proofs.Expr.Parsed

/-!
# Internal values

A value is internal when every function in it, at any depth, is built in or defined by a formula;
what the formula holds, what it captured and what its language gives is internal again. Then no
call leaves the program: there is a limit to the depth of calls, and no host to ask.
-/

namespace Formula

open Filter

/-- A function that is not one of the host. -/
def Native.BuiltIn (f : Native) : Prop := ∀ key, f.action ≠ .host key

namespace Language

/-- A language without functions of the host. -/
structure BuiltIn (lang : Language Value) : Prop where
  unary : ∀ p ∈ lang.unary, p.2.BuiltIn
  binary : ∀ p ∈ lang.binary, p.2.BuiltIn
  ternary : ∀ p ∈ lang.ternary, p.2.BuiltIn
  functions : ∀ p ∈ lang.functions, p.2.BuiltIn

end Language

mutual

/-- Values without functions of the host, and without deferred values unless these are allowed;
the limits that languages of functions put on the depth of calls are among given ones. -/
inductive Value.Internal (waits : Prop) (depths : Nat → Prop) : Value → Prop
  | undefined : Value.Internal waits depths .undefined
  | null : Value.Internal waits depths .null
  | bool (b : Bool) : Value.Internal waits depths (.bool b)
  | number (x : Float) : Value.Internal waits depths (.number x)
  | string (s : String) : Value.Internal waits depths (.string s)
  | array {items : List Value} :
      (∀ v ∈ items, Value.Internal waits depths v) → Value.Internal waits depths (.array items)
  | object {fields : List (String × Value)} :
      (∀ p ∈ fields, Value.Internal waits depths p.2) → Value.Internal waits depths (.object fields)
  | native {f : Native} : f.BuiltIn → Value.Internal waits depths (.function (.native f))
  | defined {c : Closure Value} :
      (∀ i ∈ c.body, Instruction.Internal waits depths i) →
      (∀ p ∈ c.captured, Value.Internal waits depths p.2) →
      Language.Internal waits depths c.language →
      Value.Internal waits depths (.function (.defined c))
  | deferred (id : Nat) : waits → Value.Internal waits depths (.deferred id)

inductive Instruction.Internal (waits : Prop) (depths : Nat → Prop) : Instruction Value → Prop
  | literal {v : Value} : Value.Internal waits depths v → Instruction.Internal waits depths (.literal v)
  | group {body : Program Value} :
      (∀ i ∈ body, Instruction.Internal waits depths i) →
      Instruction.Internal waits depths (.group body)
  | plain {i : Instruction Value} :
      (∀ v, i ≠ .literal v) → (∀ body, i ≠ .group body) → Instruction.Internal waits depths i

inductive Language.Internal (waits : Prop) (depths : Nat → Prop) : Language Value → Prop
  | mk {lang : Language Value} :
      lang.BuiltIn → depths lang.options.maxCallDepth →
      (∀ name v, (name, .value v) ∈ lang.resolver → Value.Internal waits depths v) →
      Language.Internal waits depths lang

end

variable {waits : Prop} {depths : Nat → Prop}

/-! ### Limits

A value is finite, so the limits in it have an upper bound.
-/

theorem eventually_forall_mem {α : Type} {P : ℕ → α → Prop} {xs : List α}
    (h : ∀ x ∈ xs, ∀ᶠ n in atTop, P n x) : ∀ᶠ n in atTop, ∀ x ∈ xs, P n x :=
  (eventually_all_finite xs.finite_toSet).mpr h

mutual

theorem Value.Internal.eventually {v : Value} :
    v.Internal waits depths → ∀ᶠ n : ℕ in atTop, v.Internal waits (· ≤ n)
  | .undefined => .of_forall fun _ => .undefined
  | .null => .of_forall fun _ => .null
  | .bool b => .of_forall fun _ => .bool b
  | .number x => .of_forall fun _ => .number x
  | .string s => .of_forall fun _ => .string s
  | .array hitems =>
    (eventually_forall_mem fun v hv => (hitems v hv).eventually).mono fun _ => .array
  | .object hfields =>
    (eventually_forall_mem fun p hp => (hfields p hp).eventually).mono fun _ => .object
  | .native hf => .of_forall fun _ => .native hf
  | .defined hbody hcaptured hlang =>
    have hcode := eventually_forall_mem fun i hi => (hbody i hi).eventually
    have hscope := eventually_forall_mem fun p hp => (hcaptured p hp).eventually
    (hcode.and (hscope.and hlang.eventually)).mono fun _ h => .defined h.1 h.2.1 h.2.2
  | .deferred id hwaits => .of_forall fun _ => .deferred id hwaits

theorem Instruction.Internal.eventually {i : Instruction Value} :
    i.Internal waits depths → ∀ᶠ n : ℕ in atTop, i.Internal waits (· ≤ n)
  | .literal hv => hv.eventually.mono fun _ => .literal
  | .group hbody => (eventually_forall_mem fun i hi => (hbody i hi).eventually).mono fun _ => .group
  | .plain hl hg => .of_forall fun _ => .plain hl hg

theorem Language.Internal.eventually {lang : Language Value} :
    lang.Internal waits depths → ∀ᶠ n : ℕ in atTop, lang.Internal waits (· ≤ n)
  | .mk htables _ hresolver => by
    have hvalues : ∀ᶠ n : ℕ in atTop, ∀ p ∈ lang.resolver, ∀ v, p.2 = .value v →
        v.Internal waits (· ≤ n) := by
      refine eventually_forall_mem fun p hp => ?_
      rcases p with ⟨name, other | v⟩
      · exact .of_forall fun _ v hv => by cases hv
      · refine (hresolver name v hp).eventually.mono fun n hn v' hv' => ?_
        cases hv'
        exact hn
    refine ((eventually_ge_atTop lang.options.maxCallDepth).and hvalues).mono fun n h => ?_
    exact .mk htables h.1 fun name v hv => h.2 _ hv v rfl

end

/-! ### Parts -/

namespace Value.Internal

theorem partwise (waits : Prop) (depths : Nat → Prop) : Value.Partwise (Value.Internal waits depths) where
  undefined := .undefined
  bool := .bool
  number := .number
  string := .string
  array := .array
  items h := by
    cases h with
    | array hitems => exact hitems
  object := .object
  fields h := by
    cases h with
    | object hfields => exact hfields

end Value.Internal

namespace Instruction.Internal

theorem ofLiteral {v : Value} (h : (Instruction.literal v).Internal waits depths) :
    v.Internal waits depths := by
  cases h with
  | literal hv => exact hv
  | plain hl _ => exact (hl v rfl).elim

theorem ofGroup {body : Program Value} (h : (Instruction.group body).Internal waits depths) :
    ∀ i ∈ body, i.Internal waits depths := by
  cases h with
  | group hbody => exact hbody
  | plain _ hg => exact (hg body rfl).elim

end Instruction.Internal

namespace Language

variable {lang : Language Value}

theorem BuiltIn.natives (h : lang.BuiltIn) (i : Instruction Value) :
    ∀ f ∈ i.natives lang, f.BuiltIn := by
  have hget : ∀ {r : Record Native} {name : String}, (∀ p ∈ r, p.2.BuiltIn) →
      ∀ f, Record.get? r name = some f → f.BuiltIn :=
    fun hr f hf => hr _ (Record.mem_of_get? hf)
  intro f hf
  cases i with
  | «variable» name =>
    rcases List.mem_append.mp hf with hf | hf
    · exact hget h.functions f (Option.mem_toList.mp hf)
    · exact hget h.unary f (Option.mem_toList.mp hf)
  | unary op => exact hget h.unary f (Option.mem_toList.mp hf)
  | binary op =>
    by_cases hop : op ∈ Instruction.connectives
    · simp [Instruction.natives, Instruction.called?, hop] at hf
    · simp only [Instruction.natives, Instruction.called?, hop, if_false, Option.getD_some,
        Option.mem_toList] at hf
      exact hget h.binary f hf
  | ternary op =>
    by_cases hop : op = "?"
    · simp [Instruction.natives, Instruction.called?, hop] at hf
    · simp only [Instruction.natives, Instruction.called?, hop, if_false, Option.getD_some,
        Option.mem_toList] at hf
      exact hget h.ternary f hf
  | _ => simp [Instruction.natives, Instruction.called?] at hf

theorem Internal.builtIn (h : lang.Internal waits depths) : lang.BuiltIn := by
  cases h with
  | mk htables _ _ => exact htables

theorem Internal.depth (h : lang.Internal waits depths) :
    depths lang.options.maxCallDepth := by
  cases h with
  | mk _ hdepth _ => exact hdepth

theorem Internal.resolve (h : lang.Internal waits depths) {name : String} {v : Value}
    (hv : lang.resolve? name = some (.value v)) : v.Internal waits depths := by
  cases h with
  | mk _ _ hresolver => exact hresolver name v (Record.mem_of_get? hv)

theorem natives_builtIn {id : Nat} {table : List (String × Action)}
    (h : ∀ q ∈ table, ∀ key, q.2 ≠ .host key) : ∀ p ∈ natives id table, p.2.BuiltIn :=
  fun _ hp => h _ (mem_natives hp)

theorem operations_builtIn (id : Nat) (table : List (String × Operation)) :
    ∀ p ∈ natives id (operations table), p.2.BuiltIn := by
  refine natives_builtIn fun q hq key => ?_
  obtain ⟨_, _, rfl⟩ := List.mem_map.mp hq
  exact Action.noConfusion

theorem ofOptions_builtIn (id : Nat) (options : Options) : (ofOptions id options).BuiltIn := by
  constructor <;> simp only [ofOptions, Language.standard]
  · exact operations_builtIn _ _
  · exact operations_builtIn _ _
  · exact operations_builtIn _ _
  · exact natives_builtIn (by simp [Operation.functionTable])

/-- The standard language has no function of the host, whatever its options. -/
theorem ofOptions_internal (waits : Prop) (id : Nat) (options : Options)
    (h : depths options.maxCallDepth) :
    (ofOptions id options).Internal waits depths :=
  .mk (ofOptions_builtIn id options) h fun _ _ hv => (List.not_mem_nil hv).elim

end Language

/-! ### Runs -/

/-- A world with internal values in scope. -/
def World.Internal (waits : Prop) (depths : Nat → Prop) (w : World) : Prop :=
  ∀ p ∈ w.scope, p.2.Internal waits depths

def Progress.Internal (waits : Prop) (depths : Nat → Prop) : Progress → Prop
  | .done v => v.Internal waits depths
  | .waiting _ _ => waits

theorem Instruction.Internal.made {i : Instruction Value} {lang : Language Value}
    {T : Program Value → Prop} (hi : i.Internal waits depths) (hlang : lang.Internal waits depths)
    (hgroup : ∀ body, i = .group body → T body) : i.Made (Value.Internal waits depths) T lang where
  literal := by
    rintro v rfl
    exact hi.ofLiteral
  group := hgroup
  natives f hf := .native (hlang.builtIn.natives i f hf)

theorem Machine.definedScope_internal {c : Closure Value} {args : List Value}
    (hc : (Value.function (.defined c)).Internal waits depths)
    (hargs : ∀ v ∈ args, v.Internal waits depths) :
    ∀ p ∈ definedScope (.defined c) c args, p.2.Internal waits depths := by
  have hcaptured : ∀ p ∈ c.captured, p.2.Internal waits depths := by
    cases hc with
    | defined _ hcaptured _ => exact hcaptured
  exact definedScope_hereditary (Value.Internal.partwise waits depths).toHereditary hcaptured hc hargs

/-! ### Programs -/

namespace Expr

theorem compiled_internal (waits : Prop) (depths : Nat → Prop) :
    Compiled fun i => i.Internal waits depths where
  structural {i} h := by
    refine .plain ?_ ?_
    · rintro v rfl
      cases h
    · rintro body rfl
      cases h
  group _ _ hcode := .group hcode

end Expr

/-- A program that is parsed is internal when the constants of its language are. -/
theorem parseExpr_internal {lang : Language Value} (hlang : lang.Complete)
    (hconstants : ∀ p ∈ lang.constants, p.2.Internal waits depths) {source : String} {e : Expr}
    (he : parseExpr lang source = .ok e) : ∀ i ∈ e.compile, i.Internal waits depths := by
  have hemits : lang.Emits fun i => i.isStructural = false ∧ i.Internal waits depths :=
    Language.emits_made (Value.Internal.partwise waits depths).toHereditary hconstants .literal
      .plain
  exact Expr.compile_all (Expr.compiled_internal waits depths) e (parseExpr_all hlang hemits he)

end Formula
