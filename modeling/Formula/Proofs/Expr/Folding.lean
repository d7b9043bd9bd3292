import Formula.Expr.Simplify
import Formula.Proofs.Expr.Parsed

/-!
# What is said of folding

Folding an expression walks through it: it reads the variables in scope, calls operators on
operands that are known, and puts everything else together again. So what is said of the reads and
of the calls is said of the whole walk, whatever kind of statement it is, as long as such statements
are composed along `do` blocks.
-/

namespace Formula

/-- A kind of statement about evaluations, of which there is one for each number of levels: it holds
of a good value that is returned, and of two evaluations one after the other. -/
structure Eval.Judgement where
  holds : ∀ {α : Type}, (good : α → Prop) → (Nat → Eval α) → Prop
  pure : ∀ {α : Type} {good : α → Prop} {a : α}, good a → holds good fun _ => Pure.pure a
  bind : ∀ {α β : Type} {good : α → Prop} {good' : β → Prop} {x : Nat → Eval α}
    {f : Nat → α → Eval β}, holds good x → (∀ a, good a → holds good' fun n => f n a) →
      holds good' fun n => x n >>= f n

/-- The value of an operator that a table may have. -/
def applied (call : Function Value → List Value → Eval Value) (op : String)
    (entry : Option Native) (args : List Value) : Eval Value := do
  call (← Eval.ofExcept (Machine.operator op entry)) args

/-- What an operator on known operands is folded to: its value, unless that is none to be written. -/
def Folded.ofValue (restored : Expr) : Value → Folded
  | .function _ | .deferred _ => code restored
  | v => known v

/-- A known value with one property, or code whose parts have another one. -/
def Folded.Made (V : Value → Prop) (q : Instruction Value → Prop) : Folded → Prop
  | known v => V v
  | code e => e.All q

namespace Expr

section

variable (J : Eval.Judgement) (V : Value → Prop) (p q : Instruction Value → Prop)
  (call : Nat → Function Value → List Value → Eval Value) (lang : Language Value)

/-- What is said of the parts of an expression, of the variables that are known and of operators on
known operands, so that it is said of folding the expression. -/
structure Folds : Prop where
  hereditary : Value.Hereditary V
  known : ∀ {v}, p (.literal v) → V v
  literal : ∀ {v}, V v → q (.literal v)
  «variable» : ∀ {name}, p (.variable name) → J.holds
    (fun b => ∀ r, knownVariable? lang b name = r → r.elim (q (.variable name)) V)
    fun _ => Eval.scope
  unary : ∀ {op}, p (.unary op) → q (.unary op) ∧ ∀ {v}, V v →
    J.holds V fun n => applied (call n) op (lang.unaryOp? op) [v]
  binary : ∀ {op}, p (.binary op) → q (.binary op) ∧ ∀ {a b}, V a → V b →
    J.holds V fun n => applied (call n) op (lang.binaryOp? op) [a, b]

end

variable {J : Eval.Judgement} {V : Value → Prop} {p q : Instruction Value → Prop}
  {call : Nat → Function Value → List Value → Eval Value} {lang : Language Value}

namespace Folds

theorem expr (h : Folds J V p q call lang) {f : Folded} (hf : f.Made V q) : f.expr.All q := by
  cases f with
  | known v => exact h.literal hf
  | code e => exact hf

theorem exprs (h : Folds J V p q call lang) {fs : List Folded} (hfs : ∀ f ∈ fs, f.Made V q) :
    AllItems q (fs.map Folded.expr) := by
  refine allItems_iff.mpr fun e he => ?_
  obtain ⟨f, hf, rfl⟩ := List.mem_map.mp he
  exact h.expr (hfs f hf)

end Folds

theorem values_made {fs : List Folded} {values : List Value} (h : ∀ f ∈ fs, f.Made V q)
    (hv : fs.mapM Folded.value? = some values) : ∀ v ∈ values, V v := by
  induction fs generalizing values with
  | nil =>
    cases hv
    exact fun _ hm => (List.not_mem_nil hm).elim
  | cons f rest ih =>
    obtain ⟨hf, hrest⟩ := List.forall_mem_cons.mp h
    cases f with
    | code e => cases hv
    | known v =>
      obtain ⟨vs, hvs, rfl⟩ : ∃ vs, rest.mapM Folded.value? = some vs ∧ v :: vs = values := by
        simpa [List.mapM_cons, Folded.value?, Option.bind_eq_some_iff] using hv
      exact List.forall_mem_cons.mpr ⟨hf, ih hrest hvs⟩

theorem foldOperator_eq (call : Function Value → List Value → Eval Value) (op : String)
    (entry : Option Native) (args : List Value) (restored : Expr) :
    foldOperator call op entry args restored =
      applied call op entry args >>= fun v => Pure.pure (.ofValue restored v) := by
  rw [foldOperator, applied, bind_assoc]
  refine congrArg _ (funext fun f => congrArg _ (funext fun v => ?_))
  cases v <;> rfl

theorem foldOperator_judged {op : String} {entry : Option Native} {args : List Value}
    {restored : Expr} (hcall : J.holds V fun n => applied (call n) op entry args)
    (hrestored : restored.All q) :
    J.holds (Folded.Made V q) fun n => foldOperator (call n) op entry args restored := by
  simp only [foldOperator_eq]
  refine J.bind hcall fun v hv => J.pure ?_
  cases v with
  | function f => exact hrestored
  | deferred id => exact hrestored
  | _ => exact hv

mutual

/-- What is said of the parts is said of folding the whole: by induction on the expression. -/
theorem fold_judged (h : Folds J V p q call lang) : (e : Expr) → e.All p →
    J.holds (Folded.Made V q) fun n => fold (call n) lang e
  | .literal v, he => by
    have hv := h.known he
    cases v with
    | function f => exact J.pure (h.literal hv)
    | _ => exact J.pure hv
  | .undefined, _ => J.pure trivial
  | .variable name, he => by
    simp only [fold]
    refine J.bind (h.variable he) fun b hb => ?_
    cases hknown : knownVariable? lang b name with
    | some v => exact J.pure (hb _ hknown)
    | none => exact J.pure (hb _ hknown)
  | .unary op e, he => by
    obtain ⟨hop, happlied⟩ := h.unary he.1
    simp only [fold]
    refine J.bind (fold_judged h e he.2) fun f hf => ?_
    cases f with
    | known v => exact foldOperator_judged (happlied hf) ⟨hop, h.literal hf⟩
    | code e => exact J.pure ⟨hop, hf⟩
  | .binary op l r, he => by
    obtain ⟨hop, happlied⟩ := h.binary he.1
    simp only [fold]
    refine J.bind (fold_judged h l he.2.1) fun l hl => ?_
    refine J.bind (fold_judged h r he.2.2) fun r hr => ?_
    match l, r, hl, hr with
    | .known a, .known b, hl, hr =>
      exact foldOperator_judged (happlied hl hr) ⟨hop, h.literal hl, h.literal hr⟩
    | .known a, .code r, hl, hr => exact J.pure ⟨hop, h.literal hl, hr⟩
    | .code l, r, hl, hr => exact J.pure ⟨hop, hl, h.expr hr⟩
  | .connective c l r, he => by
    simp only [fold]
    refine J.bind (fold_judged h l he.1) fun l hl => ?_
    exact J.bind (fold_judged h r he.2) fun r hr => J.pure ⟨h.expr hl, h.expr hr⟩
  | .conditional t y n, he => by
    simp only [fold]
    refine J.bind (fold_judged h t he.1) fun t ht => ?_
    refine J.bind (fold_judged h y he.2.1) fun y hy => ?_
    exact J.bind (fold_judged h n he.2.2) fun n hn =>
      J.pure ⟨h.expr ht, h.expr hy, h.expr hn⟩
  | .assign root members v, he => by
    simp only [fold]
    exact J.bind (fold_judged h v he) fun v hv => J.pure (h.expr hv)
  | .define name params body, he => by
    simp only [fold]
    exact J.bind (fold_judged h body he) fun body hb => J.pure (h.expr hb)
  | .call f args, he => by
    simp only [fold]
    refine J.bind (fold_judged h f he.1) fun f hf => ?_
    exact J.bind (foldItems_judged h args he.2) fun args hargs =>
      J.pure ⟨h.expr hf, h.exprs hargs⟩
  | .member e name, he => by
    simp only [fold]
    refine J.bind (fold_judged h e he) fun f hf => ?_
    cases f with
    | known v =>
      dsimp only
      split
      · exact J.pure (h.hereditary.member hf name)
      · exact J.pure (h.literal hf)
    | code e => exact J.pure hf
  | .array items, he => by
    simp only [fold]
    refine J.bind (foldItems_judged h items he) fun items hitems => ?_
    cases hvalues : items.mapM Folded.value? with
    | some values => exact J.pure (h.hereditary.array (values_made hitems hvalues))
    | none => exact J.pure (h.exprs hitems)
  | .object fields, he => by
    simp only [fold]
    exact J.bind (foldFields_judged h fields he) fun fields hf => J.pure hf
  | .case tested branches other, he => by
    simp only [fold]
    refine J.bind (foldOption_judged h tested he.1) fun tested ht => ?_
    refine J.bind (foldBranches_judged h branches he.2.1) fun branches hb => ?_
    exact J.bind (foldOption_judged h other he.2.2) fun other ho => J.pure ⟨ht, hb, ho⟩
  | .sequence a b, he => by
    simp only [fold]
    refine J.bind (fold_judged h a he.1) fun a ha => ?_
    exact J.bind (fold_judged h b he.2) fun b hb => J.pure ⟨h.expr ha, h.expr hb⟩
  | .closed a, he => by
    simp only [fold]
    exact J.bind (fold_judged h a he) fun a ha => J.pure (h.expr ha)

theorem foldItems_judged (h : Folds J V p q call lang) : (es : List Expr) → AllItems p es →
    J.holds (fun fs => ∀ f ∈ fs, Folded.Made V q f) fun n => foldItems (call n) lang es
  | [], _ => J.pure fun _ hf => (List.not_mem_nil hf).elim
  | e :: rest, he => by
    simp only [foldItems]
    refine J.bind (fold_judged h e he.1) fun f hf => ?_
    exact J.bind (foldItems_judged h rest he.2) fun fs hfs =>
      J.pure (List.forall_mem_cons.mpr ⟨hf, hfs⟩)

theorem foldFields_judged (h : Folds J V p q call lang) : (fields : List (String × Expr)) →
    AllFields p fields → J.holds (AllFields q) fun n => foldFields (call n) lang fields
  | [], _ => J.pure trivial
  | (key, e) :: rest, he => by
    simp only [foldFields]
    refine J.bind (fold_judged h e he.1) fun f hf => ?_
    exact J.bind (foldFields_judged h rest he.2) fun fs hfs => J.pure ⟨h.expr hf, hfs⟩

theorem foldBranches_judged (h : Folds J V p q call lang) : (branches : List (Expr × Expr)) →
    AllBranches p branches → J.holds (AllBranches q) fun n => foldBranches (call n) lang branches
  | [], _ => J.pure trivial
  | (c, v) :: rest, he => by
    simp only [foldBranches]
    refine J.bind (fold_judged h c he.1) fun c hc => ?_
    refine J.bind (fold_judged h v he.2.1) fun v hv => ?_
    exact J.bind (foldBranches_judged h rest he.2.2) fun bs hbs =>
      J.pure ⟨h.expr hc, h.expr hv, hbs⟩

theorem foldOption_judged (h : Folds J V p q call lang) : (other : Option Expr) →
    AllOption p other → J.holds (AllOption q) fun n => foldOption (call n) lang other
  | none, _ => J.pure trivial
  | some e, he => by
    simp only [foldOption]
    exact J.bind (fold_judged h e he) fun f hf => J.pure (h.expr hf)

end

end Expr

end Formula
