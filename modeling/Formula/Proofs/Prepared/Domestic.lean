import Formula.Evaluation
import Formula.Proofs.Expr.Folding
import Formula.Proofs.Machine.Halting

/-!
# Domestic values

A value is domestic when nothing in it comes of the host: every function in it, at any depth, is
built in or made of a formula, defined in one or prepared from one, and nothing is deferred. The
languages are the standard ones. Parsing gives domestic programs, running and simplifying them keeps
them so.
-/

namespace Formula

open Eval Machine Waiting

/-- A standard language, under any options that do not let calls nest deeper than a limit. -/
def Language.Domestic (limit : Nat) (lang : Language Value) : Prop :=
  ∃ id options, options.maxCallDepth ≤ limit ∧ lang = Language.ofOptions id options

mutual

inductive Value.Domestic (limit : Nat) : Value → Prop
  | undefined : Value.Domestic limit .undefined
  | null : Value.Domestic limit .null
  | bool (b : Bool) : Value.Domestic limit (.bool b)
  | number (x : Float) : Value.Domestic limit (.number x)
  | string (s : String) : Value.Domestic limit (.string s)
  | array {items : List Value} :
      (∀ v ∈ items, Value.Domestic limit v) → Value.Domestic limit (.array items)
  | object {fields : List (String × Value)} :
      (∀ p ∈ fields, Value.Domestic limit p.2) → Value.Domestic limit (.object fields)
  | native {f : Native} : f.BuiltIn → Value.Domestic limit (.function (.native f))
  | defined {c : Closure Value} :
      Closure.Domestic limit c → Value.Domestic limit (.function (.defined c))
  | prepared {c : Closure Value} :
      Closure.Domestic limit c → Value.Domestic limit (.function (.prepared c))

inductive Closure.Domestic (limit : Nat) : Closure Value → Prop
  | mk {c : Closure Value} : c.language.Domestic limit →
      (∀ i ∈ c.body, Instruction.Domestic limit i) →
      (∀ p ∈ c.captured, Value.Domestic limit p.2) → Closure.Domestic limit c

inductive Instruction.Domestic (limit : Nat) : Instruction Value → Prop
  | literal {v : Value} : Value.Domestic limit v → Instruction.Domestic limit (.literal v)
  | group {body : Program Value} :
      (∀ i ∈ body, Instruction.Domestic limit i) → Instruction.Domestic limit (.group body)
  | plain {i : Instruction Value} :
      (∀ v, i ≠ .literal v) → (∀ body, i ≠ .group body) → Instruction.Domestic limit i

end

variable {limit : Nat} {lang : Language Value}

/-! ### Languages -/

namespace Language.Domestic

theorem complete (h : lang.Domestic limit) : lang.Complete := by
  obtain ⟨id, options, -, rfl⟩ := h
  exact Extended.complete (g := .sound) (.standard id options)

theorem builtIn (h : lang.Domestic limit) : lang.BuiltIn := by
  obtain ⟨id, options, -, rfl⟩ := h
  exact ofOptions_builtIn id options

theorem depth (h : lang.Domestic limit) : lang.options.maxCallDepth ≤ limit := by
  obtain ⟨id, options, hlimit, rfl⟩ := h
  exact hlimit

/-- The operators of a standard language are operations: they call nothing. -/
theorem operation (h : lang.Domestic limit) {op : String} {f : Native}
    (hf : lang.unaryOp? op = some f ∨ lang.binaryOp? op = some f) :
    ∃ o, f.action = .operation o := by
  obtain ⟨id, options, -, rfl⟩ := h
  have hnatives : ∀ {id : Nat} {table : List (String × Operation)},
      Record.get? (natives id (operations table)) op = some f → ∃ o, f.action = .operation o := by
    intro id table hget
    obtain ⟨p, -, hp⟩ := List.mem_map.mp (mem_natives (Record.mem_of_get? hget))
    exact ⟨p.2, (congrArg Prod.snd hp).symm⟩
  rcases hf with hf | hf
  · rw [unaryOp?_standard] at hf
    exact hnatives hf
  · rw [binaryOp?_standard] at hf
    exact hnatives hf

end Language.Domestic

/-! ### The realm -/

theorem Value.Domestic.partwise (limit : Nat) : Value.Partwise (Value.Domestic limit) where
  undefined := .undefined
  bool := .bool
  number := .number
  string := .string
  array := .array
  items h := by
    cases h with
    | array hitems => exact hitems
  object := .object
  fields h := by
    cases h with
    | object hfields => exact hfields

namespace Instruction.Domestic

theorem ofLiteral {v : Value} (h : (Instruction.literal v).Domestic limit) : v.Domestic limit := by
  cases h with
  | literal hv => exact hv
  | plain hl _ => exact (hl v rfl).elim

theorem ofGroup {body : Program Value} (h : (Instruction.group body).Domestic limit) :
    ∀ i ∈ body, i.Domestic limit := by
  cases h with
  | group hbody => exact hbody
  | plain _ hg => exact (hg body rfl).elim

end Instruction.Domestic

/-- Domestic values, and programs with such values in them. -/
def Realm.domestic (limit : Nat) : Realm where
  value := Value.Domestic limit
  language := Language.Domestic limit
  program _ code := ∀ i ∈ code, i.Domestic limit
  waits := False

namespace Realm

theorem closure_domestic_iff {c : Formula.Closure Value} :
    (domestic limit).Closure c ↔ c.Domestic limit := by
  refine ⟨fun h => .mk h.language h.body h.captured, fun h => ?_⟩
  cases h with
  | mk hlang hbody hcaptured => exact ⟨hlang, hbody, hcaptured⟩

theorem domestic_closed (limit : Nat) : (domestic limit).Closed where
  partwise := Value.Domestic.partwise limit
  deferred := ⟨fun h => (by cases h), False.elim⟩
  native h := by
    cases h with
    | native hf => exact hf
  defined := by
    refine ⟨fun h => ?_, fun h => .defined (closure_domestic_iff.mp h)⟩
    cases h with
    | defined hc => exact closure_domestic_iff.mpr hc
  instruction hlang hcode i hi :=
    { literal := fun v hv => (hv ▸ hcode i hi).ofLiteral
      group := fun body hbody => (hbody ▸ hcode i hi).ofGroup
      natives := fun f hf => .native (hlang.builtIn.natives i f hf) }
  resolve hlang _ _ hv := by
    obtain ⟨id, options, -, rfl⟩ := hlang
    cases hv

end Realm

/-! ### Programs -/

namespace Expr

/-- The literals of an expression are domestic. -/
def Domestic (limit : Nat) (e : Expr) : Prop :=
  e.All fun i => i.isStructural = false ∧ i.Domestic limit

theorem Domestic.compile {e : Expr} (he : e.Domestic limit) :
    ∀ i ∈ e.compile, i.Domestic limit := by
  have hcompiled : Compiled fun i => i.Domestic limit :=
    { structural := fun {i} h => by
        refine .plain ?_ ?_
        · rintro v rfl
          cases h
        · rintro body rfl
          cases h
      group := fun _ _ hcode => .group hcode }
  exact compile_all hcompiled e he

end Expr

theorem parseExpr_domestic (hlang : lang.Domestic limit) {source : String} {e : Expr}
    (he : parseExpr lang source = .ok e) : e.Domestic limit := by
  have hconstants : ∀ p ∈ lang.constants, p.2.Domestic limit := by
    obtain ⟨id, options, -, rfl⟩ := hlang
    simp only [Language.ofOptions, Language.standard, standardConstants, List.forall_mem_cons]
    exact ⟨.number _, .number _, .bool _, .bool _, List.forall_mem_nil _⟩
  have hemits : lang.Emits fun i => i.isStructural = false ∧ i.Domestic limit :=
    Language.emits_made (Value.Domestic.partwise limit).toHereditary hconstants .literal .plain
  exact parseExpr_all hlang.complete hemits he

/-! ### Simplifying -/

/-- An evaluation comes to an end where the values in scope are domestic. -/
def Eval.Judgement.stops (R : Realm) (short : Prop) : Judgement where
  holds good x := Stops R short good x
  pure h := Halts.pure h
  bind hx hf := Halts.bind hx hf

/-- An operator of a standard language comes to an end, whatever it is applied to. -/
theorem applied_stops {hosts : Hosts} {op : String} {entry : Option Native} {args : List Value}
    (hentry : ∀ f, entry = some f → ∃ o, f.action = .operation o)
    (hargs : ∀ v ∈ args, v.Domestic limit) :
    Stops (Realm.domestic limit) False (Value.Domestic limit)
      fun n => applied ((engine hosts n).call 0) op entry args := by
  cases entry with
  | none =>
    have hnone : Stops (Realm.domestic limit) False (fun _ => False)
        fun _ => Eval.ofExcept (operator op none) := Halts.fail (.unknownOperator op)
    exact Halts.bind hnone fun f hf => hf.elim
  | some f =>
    obtain ⟨o, ho⟩ := hentry f rfl
    have hparts := (Value.Domestic.partwise limit).toHereditary
    refine Halts.of_succ ?_
    have hcall : ∀ n, applied ((engine hosts (n + 1)).call 0) op (some f) args =
        Eval.ofExcept (o.apply args) := fun n => by
      show (engine hosts (n + 1)).call 0 (.native f) args = _
      simp only [engine, call, callNative, ho]
    simp only [hcall]
    exact Halts.ofExcept (o.apply_hereditary hparts hargs)

theorem folds_domestic (hosts : Hosts) (hlang : lang.Domestic limit) :
    Expr.Folds (.stops (Realm.domestic limit) False) (Value.Domestic limit)
      (fun i => i.isStructural = false ∧ i.Domestic limit)
      (fun i => i.isStructural = false ∧ i.Domestic limit) (fun n => (engine hosts n).call 0)
      lang where
  hereditary := (Value.Domestic.partwise limit).toHereditary
  known h := h.2.ofLiteral
  literal h := ⟨rfl, .literal h⟩
  «variable» {name} h := by
    refine Halts.const fun w hw => ⟨hw, fun r hr => ?_⟩
    cases r with
    | none => exact h
    | some v =>
      unfold Expr.knownVariable? at hr
      split at hr
      · cases hr
      · split at hr
        · cases hr
        · cases hr
        · exact hw _ (Record.mem_of_get? hr)
  unary h := ⟨h, fun hv => applied_stops (fun f hf => hlang.operation (.inl hf))
    (List.forall_mem_singleton.mpr hv)⟩
  binary h := ⟨h, fun ha hb => applied_stops (fun f hf => hlang.operation (.inr hf))
    (List.forall_mem_cons.mpr ⟨ha, List.forall_mem_singleton.mpr hb⟩)⟩

/-- A function is prepared from an expression in the end, whatever the expression is. -/
theorem toFunction_stops (hosts : Hosts) (hlang : lang.Domestic limit) {e : Expr}
    (he : e.Domestic limit) (params : List String) :
    Stops (Realm.domestic limit) False (fun f => (Value.function f).Domestic limit)
      fun n => e.toFunction hosts n lang params := by
  have hfolds := folds_domestic hosts hlang
  have hsimplify : Stops (Realm.domestic limit) False (Expr.Domestic limit)
      fun n => e.simplify hosts n lang :=
    Halts.bind (Expr.fold_judged hfolds e he) fun f hf => Halts.pure (hfolds.expr hf)
  refine Halts.bind hsimplify fun e' he' => ?_
  refine Halts.bind stops_freshId fun id _ => Halts.bind stops_scope fun scope hscope => ?_
  exact Halts.pure (.prepared (.mk hlang he'.compile hscope))

end Formula
