import Formula.Proofs.Simplify.Folded
import Formula.Proofs.Waiting.Later

/-!
# Simplifying preserves what a program does

A program without assignments and definitions and its simplified form come to the same value or
error, and the host sees the same calls, wherever the variables that were in scope have the values
they had.
-/

namespace Formula

open Waiting Machine

/-- The host, with the calls of the functions under some keys noted. -/
def Hosts.tracedAt (keys : String → Bool) (hosts : Hosts) : Hosts := fun key args =>
  if keys key then hosts.traced key args else hosts key args

namespace Language

theorem Complete.emits_plain {lang : Language Value}
    (hconstants : ∀ p ∈ lang.constants, p.2.Settled) : lang.Emits Expr.Plain where
  unary _ := ⟨rfl, fun _ h => by cases h⟩
  binary _ hne := ⟨by simpa [Instruction.isStructural] using hne, fun _ h => by cases h⟩
  «variable» _ := ⟨rfl, fun _ h => by cases h⟩
  constant name := by
    refine ⟨rfl, fun v hv => ?_⟩
    cases hv
    cases h : lang.constant? name with
    | none => exact rfl
    | some v => exact hconstants _ (Record.mem_of_get? h)
  number _ := ⟨rfl, fun _ h => by cases h; rfl⟩
  string _ := ⟨rfl, fun _ h => by cases h; rfl⟩

theorem standardConstants_settled : ∀ p ∈ standardConstants, p.2.Settled := by
  simp [standardConstants, Value.Settled, Value.isSettled]

theorem natives_operation {id : Nat} {table : List (String × Operation)} {op : String} {f : Native}
    (h : Record.get? (natives id (operations table)) op = some f) :
    ∃ operation, f.action = .operation operation := by
  obtain ⟨p, _, hp⟩ := List.mem_map.mp (mem_natives (Record.mem_of_get? h))
  exact ⟨p.2, (congrArg Prod.snd hp).symm⟩

/-- The operators of the standard tables are built-in operations. -/
theorem operation_standard {id : Nat} {options : Options} {op : String} {f : Native}
    (h : (ofOptions id options).unaryOp? op = some f ∨
      (ofOptions id options).binaryOp? op = some f) :
    ∃ operation, f.action = .operation operation := by
  rw [unaryOp?_standard, binaryOp?_standard] at h
  exact h.elim natives_operation natives_operation

theorem PureOperatorsOn.standard {P : Value → Prop} (hP : Value.Hereditary P) (hosts : Hosts)
    (id : Nat) (options : Options) : (ofOptions id options).PureOperatorsOn P hosts := by
  constructor
  · intro op f h
    obtain ⟨operation, hf⟩ := operation_standard (.inl h)
    exact Native.pureOn_operation hP hosts hf
  · intro op f h
    obtain ⟨operation, hf⟩ := operation_standard (.inr h)
    exact Native.pureOn_operation hP hosts hf

theorem PureOperators.standard (hosts : Hosts) (id : Nat) (options : Options) :
    (ofOptions id options).PureOperators hosts :=
  have h := PureOperatorsOn.standard Value.settled_hereditary hosts id options
  ⟨h.unary, h.binary⟩

/-- Adding a function to a table keeps the operators pure, if it is pure or no operator. -/
theorem PureOperators.add {hosts : Hosts} {lang : Language Value} (h : lang.PureOperators hosts)
    (table : Table) (name : String) (id : Nat) (key : String)
    (hnew : table = .unary ∨ table = .binary → (⟨id, name, .host key⟩ : Native).Pure hosts) :
    (lang.add table name id key).PureOperators hosts := by
  have hinsert : ∀ {r : List (String × Native)} {op : String} {f : Native},
      (∀ op f, Record.get? r op = some f → f.Pure hosts) →
      (⟨id, name, .host key⟩ : Native).Pure hosts →
      Record.get? (Record.insert r name ⟨id, name, .host key⟩) op = some f → f.Pure hosts := by
    intro r op f hr hf hget
    by_cases hop : op = name
    · rw [hop, Record.get?_insert_self] at hget
      cases hget
      exact hf
    · rw [Record.get?_insert_of_ne r _ hop] at hget
      exact hr op f hget
  cases table with
  | unary => exact ⟨fun _ _ hget => hinsert h.unary (hnew (Or.inl rfl)) hget, h.binary⟩
  | binary => exact ⟨h.unary, fun _ _ hget => hinsert h.binary (hnew (Or.inr rfl)) hget⟩
  | ternary | functions => exact ⟨h.unary, h.binary⟩

end Language

variable {hosts : Hosts} {lang : Language Value} {e q : Expr} {fuel : Nat} {w w' w₁ w₂ : World}
  {b : Bindings}

theorem parseExpr_plain {source : String} (hlang : lang.Complete)
    (hconstants : lang.constants = standardConstants) (he : parseExpr lang source = .ok e) :
    e.All Expr.Plain := by
  refine parseExpr_all hlang (Language.Complete.emits_plain ?_) he
  rw [hconstants]
  exact Language.standardConstants_settled

/-- A variable that is known has a value in scope. -/
theorem Expr.knownVariable?_eq_some {name : String} {v : Value}
    (h : knownVariable? lang b name = some v) : Record.get? b name = some v := by
  unfold knownVariable? at h
  split at h
  · cases h
  split at h
  · cases h
  · cases h
  · exact h

/-- The program of a simplified expression is similar to that of the expression, if nothing that is
known changes; simplifying leaves the variables in scope. -/
theorem Expr.fold_similar {P : Value → Prop} (hk : Knowledge P hosts lang w.scope b)
    (he : e.All Expr.Plain) (hpreserving : e.Every (Preserving P b))
    (hq : e.simplify hosts fuel lang w = (.ok q, w₁)) :
    w₁.scope = w.scope ∧ Similar hosts lang b e.compile q.compile := by
  obtain ⟨f, w', hf, hexpr⟩ := Eval.bind_eq_ok hq
  obtain ⟨hscope, hfolds⟩ := Expr.fold_finds hk e he hpreserving w f w' rfl hf
  cases hexpr
  exact ⟨hscope, hfolds.replaces.similar⟩

theorem Expr.simplify_similar (hpure : lang.PureOperators hosts) (he : e.All Expr.Plain)
    (hassigns : e.assigns = false) (hb : Bindings.Settled w.scope)
    (hq : e.simplify hosts fuel lang w = (.ok q, w₁)) :
    Similar hosts lang w.scope e.compile q.compile := by
  have hk : Knowledge Value.Settled hosts lang w.scope w.scope :=
    ⟨Value.settled_hereditary, fun _ hv => hv, hpure.on, fun name v hv =>
      ⟨knownVariable?_eq_some hv, hb _ (Record.mem_of_get? (knownVariable?_eq_some hv))⟩⟩
  refine (fold_similar hk he (assigns_every (fun e hrebinding => ?_) e hassigns) hq).2
  cases e with
  | assign _ _ _ | define _ _ _ => cases hrebinding
  | member base name =>
    exact fun v hv _ => (Value.settled_hereditary.member hv name).isDeferred
  | _ => exact trivial

theorem Machine.Retraces.eventually {α β : Type} {R : α → β → Prop} {x : Nat → Eval α}
    {y : Nat → Eval β} (h : ∀ n, Retraces b R (x n) y) (hw : b.Within w.scope)
    {o : Except (Stop EvalError) α} (ho : o ≠ .error .exhausted) (hx : Eventually x w o w₁) :
    b.Within w₁.scope ∧ ∃ o', Alike R o o' ∧ Eventually y w o' w₁ := by
  obtain ⟨N, hN⟩ := hx
  exact h N w o w₁ hw (hN N (Nat.le_refl N)) ho

theorem Machine.Similar.evaluates (h : Similar hosts lang b e.compile q.compile) (n : Nat) :
    Retraces b (SimilarProgress hosts lang b) (e.evaluate hosts n lang)
      fun m => q.evaluate hosts m lang := engine_enters hosts lang b n 0 _ _ h

theorem Machine.Similar.evaluate (h : Similar hosts lang b e.compile q.compile)
    (hw : b.Within w.scope) {r : Except EvalError Value}
    (he : Eventually (fun m => e.evaluate hosts m lang) w (ended r) w₁) :
    Eventually (fun m => q.evaluate hosts m lang) w (ended r) w₁ := by
  obtain ⟨_, o', hrel, hq⟩ := Retraces.eventually h.evaluates hw (ended_ne_exhausted r) he
  cases r with
  | error e =>
    cases hrel
    exact hq
  | ok v =>
    cases hrel with
    | ok hp =>
      cases hp
      exact hq

theorem Machine.Similar.settle (h : Similar hosts lang b e.compile q.compile)
    (hw : b.Within w.scope) {r : Except EvalError Value}
    (he : Eventually (fun m => e.evaluate hosts m lang >>= Progress.settle hosts m lang) w
      (result r) w₁) :
    Eventually (fun m => q.evaluate hosts m lang >>= Progress.settle hosts m lang) w
      (result r) w₁ := by
  have hsettles : ∀ n, Retraces b Eq (e.evaluate hosts n lang >>= Progress.settle hosts n lang)
      fun m => q.evaluate hosts m lang >>= Progress.settle hosts m lang := by
    refine fun n => (h.evaluates n).bind fun p p' hp => ?_
    cases hp with
    | done v => exact settle_retraces n n v
    | waiting on hframes => exact drive_retraces n n hframes
  obtain ⟨_, o', hrel, hq⟩ := Retraces.eventually hsettles hw (result_ne_exhausted r) he
  cases r with
  | error e =>
    cases hrel
    exact hq
  | ok v =>
    cases hrel with
    | ok hv =>
      subst hv
      exact hq

/-- Expressions with similar programs come to the same, at once and after waiting. -/
theorem Machine.Similar.preserves (h : Similar hosts lang b e.compile q.compile)
    (hw : b.Within w.scope) (r : Except EvalError Value) (w₁ : World) :
    (Eventually (fun m => e.evaluate hosts m lang) w (ended r) w₁ ↔
      Eventually (fun m => q.evaluate hosts m lang) w (ended r) w₁) ∧
    (Eventually (fun m => e.evaluate hosts m lang >>= Progress.settle hosts m lang) w
        (result r) w₁ ↔
      Eventually (fun m => q.evaluate hosts m lang >>= Progress.settle hosts m lang) w
        (result r) w₁) :=
  ⟨⟨h.evaluate hw, h.symm.evaluate hw⟩, ⟨h.settle hw, h.symm.settle hw⟩⟩

/-- A program without assignments and definitions and its simplified form come to the same, at once
and after waiting, wherever the variables that were in scope are in scope: the same value or error,
and the same world, with all that has been noted of the calls of the host. -/
theorem evaluate_simplified {keys : String → Bool} {source : String} (hlang : lang.Complete)
    (hconstants : lang.constants = standardConstants)
    (hpure : lang.PureOperators (hosts.tracedAt keys)) (he : parseExpr lang source = .ok e)
    (hassigns : e.assigns = false) (hb : Bindings.Settled w.scope)
    (hq : e.simplify (hosts.tracedAt keys) fuel lang w = (.ok q, w₁))
    (hw : Bindings.Within w.scope w'.scope) (r : Except EvalError Value) (w₂ : World) :
    ((∃ N, ∀ m ≥ N, e.evaluate (hosts.tracedAt keys) m lang w' = (ended r, w₂)) ↔
      ∃ N, ∀ m ≥ N, q.evaluate (hosts.tracedAt keys) m lang w' = (ended r, w₂)) ∧
    ((∃ N, ∀ m ≥ N, (e.evaluate (hosts.tracedAt keys) m lang >>=
        Progress.settle (hosts.tracedAt keys) m lang) w' = (result r, w₂)) ↔
      ∃ N, ∀ m ≥ N, (q.evaluate (hosts.tracedAt keys) m lang >>=
        Progress.settle (hosts.tracedAt keys) m lang) w' = (result r, w₂)) := by
  have hplain := parseExpr_plain hlang hconstants he
  exact (Expr.simplify_similar hpure hplain hassigns hb hq).preserves hw r w₂

/-- A host with a pure operator and a function whose calls are noted. -/
def quotingHosts : Hosts := fun key args =>
  if key = "quote" then ⟨[], .value (.string "q")⟩ else ⟨[], .value (Operation.arg args 0)⟩

abbrev quotingTraced : Hosts := quotingHosts.tracedAt (· == "echo")

def quotingLanguage : Language Value :=
  ((Language.ofOptions 0 {}).add .unary "abs" 100 "quote").add .functions "echo" 101 "echo"

/-- A known variable under an operator, beside a variable that is not known. -/
def quotingSource : String := "echo(abs(x.name) || y)"

def quotingWorld : World := World.start [("x", .object [("name", .string "b")])] 102

/-- The same with one more variable. -/
def quotingLaterWorld : World :=
  World.start [("x", .object [("name", .string "b")]), ("y", .string "c")] 102

/-- The simplified program does what the program does, where one more variable has a value. -/
theorem quoting_simplified : ∃ e q w₁, parseExpr quotingLanguage quotingSource = .ok e ∧
    e.simplify quotingTraced 9 quotingLanguage quotingWorld = (.ok q, w₁) ∧
    ∃ v w₂, v.text = "qc" ∧
      ∃ N, ∀ m ≥ N, q.evaluate quotingTraced m quotingLanguage quotingLaterWorld =
        (ended (.ok v), w₂) := by
  have hassigns : (parseExpr quotingLanguage quotingSource).toOption.map Expr.assigns =
      some false := by
    decide +kernel
  have hsimplifies : (parseExpr quotingLanguage quotingSource).toOption.map (fun e =>
      (e.simplify quotingTraced 9 quotingLanguage quotingWorld).1.isOk) = some true := by
    decide +kernel
  have hvalue : (parseExpr quotingLanguage quotingSource).toOption.map (fun e =>
      shown (e.evaluate quotingTraced 9 quotingLanguage quotingLaterWorld).1) =
        some (some "qc") := by
    decide +kernel
  cases he : parseExpr quotingLanguage quotingSource with
  | error _ =>
    rw [he] at hassigns
    cases hassigns
  | ok e =>
    rw [he] at hassigns hsimplifies hvalue
    rcases hq : e.simplify quotingTraced 9 quotingLanguage quotingWorld with ⟨_ | q, w₁⟩ <;>
      rw [Except.toOption, Option.map_some, hq] at hsimplifies
    · cases hsimplifies
    rcases hrun : e.evaluate quotingTraced 9 quotingLanguage quotingLaterWorld with ⟨o, w₂⟩
    rw [Except.toOption, Option.map_some, hrun] at hvalue
    match o, Option.some.inj hvalue with
    | .ok (.done v), hvalue =>
      have hquote : (⟨100, "abs", .host "quote"⟩ : Native).Pure quotingTraced :=
        Native.pure_host rfl fun args _ => ⟨.ok (.string "q"), rfl, fun v hv => by cases hv; rfl⟩
      have hpure : quotingLanguage.PureOperators quotingTraced :=
        .add (.add (.standard _ 0 {}) .unary "abs" 100 "quote" fun _ => hquote) .functions "echo"
          101 "echo" (by simp)
      have hcomplete : quotingLanguage.Complete :=
        Language.Extended.complete (g := .direct) (.add _ _ _ _ (.add _ _ _ _ (.standard 0 {})))
      have hsettled : Bindings.Settled quotingWorld.scope := by
        simp [quotingWorld, World.start, Bindings.Settled, Value.Settled, Value.isSettled,
          Value.fieldsSettled]
      have hwithin : Bindings.Within quotingWorld.scope quotingLaterWorld.scope := by
        intro name v hget
        simp only [quotingWorld, quotingLaterWorld, World.start, Record.get?] at hget ⊢
        split at hget <;> simp_all
      -- more levels than nine change nothing
      have hruns : ∃ N, ∀ m ≥ N,
          e.evaluate quotingTraced m quotingLanguage quotingLaterWorld = (ended (.ok v), w₂) := by
        refine ⟨9, fun m hm => ?_⟩
        have hbelow := (Machine.engine_below quotingTraced hm).enter quotingLanguage 0 e.compile
        rw [← show _ = (ended (.ok v), w₂) from hrun]
        exact hbelow quotingLaterWorld fun h => by
          cases (congrArg Prod.fst hrun).symm.trans h
      exact ⟨e, q, w₁, rfl, hq, v, w₂, Option.some.inj hvalue,
        (evaluate_simplified hcomplete rfl hpure he (Option.some.inj hassigns) hsettled hq hwithin
          (.ok v) w₂).1.mp hruns⟩

end Formula
