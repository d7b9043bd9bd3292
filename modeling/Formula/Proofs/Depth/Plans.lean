import Formula.Proofs.Depth.Relimit

/-!
# Plans under another limit

What a name stands for, what an assignment leaves and what an instruction asks for are the same
under another limit of the call depth, but for that limit in the functions that occur.
-/

namespace Formula

variable {d : Nat}

theorem Except.bind_map {ε α α' β β' : Type} {t : α → α'} {u : β → β'} {x : Except ε α}
    {x' : Except ε α'} {f : α → Except ε β} {g : α' → Except ε β'} (hx : x' = x.map t)
    (hfg : ∀ a, g (t a) = (f a).map u) : x' >>= g = (x >>= f).map u := by
  subst hx
  cases x with
  | error e => rfl
  | ok a => exact hfg a

/-! ### Languages -/

namespace Language

variable (lang : Language Value)

@[simp] theorem relimit_unaryOp? : (lang.relimit d).unaryOp? = lang.unaryOp? := by
  rw [relimit_eq]
  rfl

@[simp] theorem relimit_binaryOp? : (lang.relimit d).binaryOp? = lang.binaryOp? := by
  rw [relimit_eq]
  rfl

@[simp] theorem relimit_ternaryOp? : (lang.relimit d).ternaryOp? = lang.ternaryOp? := by
  rw [relimit_eq]
  rfl

@[simp] theorem relimit_function? : (lang.relimit d).function? = lang.function? := by
  rw [relimit_eq]
  rfl

@[simp] theorem relimit_isOperatorEnabled :
    (lang.relimit d).isOperatorEnabled = lang.isOperatorEnabled := by
  rw [relimit_eq]
  rfl

@[simp] theorem relimit_memberAccess :
    (lang.relimit d).options.memberAccess = lang.options.memberAccess := by
  rw [relimit_eq]

@[simp] theorem relimit_maxCallDepth : (lang.relimit d).options.maxCallDepth = d := by
  rw [relimit_eq]

theorem relimit_resolve? (name : String) :
    (lang.relimit d).resolve? name = (lang.resolve? name).map (Resolution.relimit d) := by
  rw [relimit_eq]
  exact Record.get?_map _ _ _

end Language

/-! ### Variables -/

theorem Machine.lookup_relimit (lang : Language Value) (scope : Bindings) (name : String) :
    lookup (lang.relimit d) (Bindings.relimit d scope) name =
      (lookup lang scope name).map (Value.relimit d) := by
  have hvariable : ∀ other, Record.get? (Bindings.relimit d scope) other =
      (Record.get? scope other).map (Value.relimit d) := Record.get?_map _ _
  unfold lookup
  simp only [Language.relimit_function?, Language.relimit_isOperatorEnabled,
    Language.relimit_unaryOp?, Language.relimit_resolve?, hvariable]
  split
  · rfl
  · cases lang.function? name with
    | some f => rfl
    | none =>
      dsimp only
      split
      · rfl
      · cases Record.get? scope name with
        | some v => rfl
        | none =>
          rcases lang.resolve? name with _ | other | v
          · rfl
          · dsimp only [Option.map_none, Option.map_some, Resolution.relimit]
            cases Record.get? scope other with
            | some v => rfl
            | none => rfl
          · rfl

namespace Bindings

theorem fields?_relimit (v : Value) :
    fields? (v.relimit d) = (fields? v).map (Bindings.relimit d) := by
  cases v <;> simp [fields?]

theorem child_relimit (b : Bindings) (name : String) :
    (Record.get? (Bindings.relimit d b) name).getD (.object []) =
      ((Record.get? b name).getD (.object [])).relimit d := by
  rw [Bindings.relimit, Record.get?_map]
  cases Record.get? b name with
  | none => simp
  | some v => rfl

theorem assignInto_relimit (whole : String) (v : Value) (path : List String) :
    ∀ (name : String) (target : Value),
      assignInto whole (v.relimit d) name (target.relimit d) path =
        (assignInto whole v name target path).map (Value.relimit d) := by
  induction path with
  | nil =>
    intro name target
    rw [assignInto, assignInto, fields?_relimit]
    cases fields? target with
    | none => rfl
    | some fields => exact congrArg Except.ok (Value.relimit_object fields).symm
  | cons next path ih =>
    intro name target
    cases hf : fields? target with
    | none =>
      simp only [assignInto, fields?_relimit, hf, Option.map_none]
      rfl
    | some fields =>
      cases path with
      | nil =>
        simp only [assignInto, fields?_relimit, hf, Option.map_some, Bindings.relimit,
          Record.insert_map]
        exact congrArg Except.ok (Value.relimit_object _).symm
      | cons _ _ =>
        rw [assignInto, assignInto, fields?_relimit, hf]
        dsimp only [Option.map_some]
        rw [child_relimit]
        refine Except.bind_map (ih next _) fun child => ?_
        rw [Bindings.relimit, Record.insert_map]
        exact congrArg Except.ok (Value.relimit_object _).symm

theorem assignPath_relimit (b : Bindings) (path : String) (v : Value) :
    assignPath (Bindings.relimit d b) path (v.relimit d) =
      (assignPath b path v).map (Bindings.relimit d) := by
  unfold assignPath assignSegments
  split
  · rfl
  · split
    · rfl
    · exact congrArg Except.ok (Record.insert_map _ _ _ _)
    · rw [child_relimit]
      refine Except.bind_map (assignInto_relimit path v _ _ _) fun root => ?_
      exact congrArg Except.ok (Record.insert_map _ _ _ _)

end Bindings

/-! ### Operands -/

def Program.relimit (d : Nat) (code : Program Value) : Program Value :=
  code.map (Instruction.relimit d)

@[simp] def Operand.relimit (d : Nat) : Operand → Operand
  | .value v => .value (v.relimit d)
  | .thunk code => .thunk (Program.relimit d code)

abbrev Stack.relimit (d : Nat) (stack : List Operand) : List Operand :=
  stack.map (Operand.relimit d)

namespace Machine

@[simp] def Plan.relimit (d : Nat) : Plan → Plan
  | .next stack => .next (Stack.relimit d stack)
  | .resolve o use stack => .resolve (o.relimit d) use (Stack.relimit d stack)
  | .call f args stack =>
    .call (f.relimit d) (args.map (Value.relimit d)) (Stack.relimit d stack)
  | .define name params body stack =>
    .define name params (Program.relimit d body) (Stack.relimit d stack)

theorem popValues_relimit (n : Nat) (stack : List Operand) (acc : List Value) :
    popValues n (Stack.relimit d stack) (acc.map (Value.relimit d)) =
      (popValues n stack acc).map (Prod.map (List.map (Value.relimit d)) (Stack.relimit d)) := by
  induction n generalizing stack acc with
  | zero => rfl
  | succ n ih =>
    match stack with
    | [] | .thunk _ :: _ => rfl
    | .value v :: stack => exact ih stack (v :: acc)

variable (stack : List Operand)

theorem popValue_relimit : popValue (Stack.relimit d stack) =
    (popValue stack).map (Prod.map (Value.relimit d) (Stack.relimit d)) := by
  match stack with
  | [] | .thunk _ :: _ | .value _ :: _ => rfl

theorem popOperand_relimit : popOperand (Stack.relimit d stack) =
    (popOperand stack).map (Prod.map (Operand.relimit d) (Stack.relimit d)) := by
  cases stack with
  | nil | cons _ _ => rfl

theorem popBranches_relimit (n : Nat) (stack : List Operand) (chosen : Option Operand) :
    popBranches n (Stack.relimit d stack) (chosen.map (Operand.relimit d)) =
      (popBranches n stack chosen).map
        (Prod.map (Option.map (Operand.relimit d)) (Stack.relimit d)) := by
  induction n generalizing stack chosen with
  | zero => rfl
  | succ n ih =>
    match stack with
    | [] | [_] | _ :: .thunk _ :: _ => rfl
    | o :: .value flag :: stack =>
      simp only [Stack.relimit, List.map_cons, Operand.relimit, popBranches, Value.relimit_truthy]
      rw [← ih]
      split <;> rfl

theorem popTested_relimit (tested : Bool) : popTested tested (Stack.relimit d stack) =
    (popTested tested stack).map (Stack.relimit d) := by
  unfold popTested
  split
  · exact Except.bind_map (popOperand_relimit stack) fun _ => rfl
  · rfl

/-! ### Instructions -/

theorem planOperator_relimit (op : String) (entry : Option Native) (n : Nat) :
    planOperator op entry n (Stack.relimit d stack) =
      (planOperator op entry n stack).map (Plan.relimit d) := by
  have hf : operator op entry = (operator op entry).map (Function.relimit d) := by
    cases entry with
    | none => rfl
    | some f => exact congrArg Except.ok (by rw [Function.relimit])
  exact Except.bind_map hf fun f => Except.bind_map (popValues_relimit n stack []) fun r => rfl

theorem planConnective_relimit (op : String) : planConnective op (Stack.relimit d stack) =
    (planConnective op stack).map (Plan.relimit d) := by
  refine Except.bind_map (popOperand_relimit stack) fun r => ?_
  refine Except.bind_map (popValue_relimit r.2) fun l => ?_
  dsimp only [Prod.map]
  rw [Value.relimit_truthy]
  split
  · simp [Except.map, pure, Except.pure]
  · rfl

theorem planAssignment_relimit (lang : Language Value) :
    planAssignment (lang.relimit d) (Stack.relimit d stack) =
      (planAssignment lang stack).map (Plan.relimit d) := by
  refine Except.bind_map (popOperand_relimit stack) fun r => ?_
  refine Except.bind_map (popValue_relimit r.2) fun target => ?_
  dsimp only [Prod.map]
  rw [Value.relimit_text, Language.relimit_memberAccess]
  split <;> rfl

theorem planConditional_relimit : planConditional (Stack.relimit d stack) =
    (planConditional stack).map (Plan.relimit d) := by
  refine Except.bind_map (popOperand_relimit stack) fun no => ?_
  refine Except.bind_map (popOperand_relimit no.2) fun yes => ?_
  refine Except.bind_map (popValue_relimit yes.2) fun test => ?_
  dsimp only [Prod.map]
  rw [Value.relimit_truthy]
  split <;> rfl

theorem planCall_relimit (argc : Nat) : planCall argc (Stack.relimit d stack) =
    (planCall argc stack).map (Plan.relimit d) := by
  refine Except.bind_map (popValues_relimit argc stack []) fun args => ?_
  refine Except.bind_map (popValue_relimit args.2) fun callee => ?_
  obtain ⟨v, rest⟩ := callee
  have ht := Value.relimit_text (d := d) v
  revert ht
  cases v with
  | function f =>
    simp [Except.map, pure, Except.pure]
  | _ => simp +contextual [Except.map]

theorem planDefinition_relimit (paramc : Nat) :
    planDefinition paramc (Stack.relimit d stack) =
      (planDefinition paramc stack).map (Plan.relimit d) := by
  match stack with
  | [] | .value _ :: _ => rfl
  | .thunk body :: stack =>
    refine Except.bind_map (popValues_relimit paramc stack []) fun params => ?_
    refine Except.bind_map (popValue_relimit params.2) fun name => ?_
    simp [Except.map, pure, Except.pure, Function.comp_def]

theorem planChoice_relimit (count : Nat) (tested : Bool) :
    planChoice count tested (Stack.relimit d stack) =
      (planChoice count tested stack).map (Plan.relimit d) := by
  refine Except.bind_map (popBranches_relimit count stack none) fun chosen => ?_
  refine Except.bind_map (popTested_relimit chosen.2 tested) fun below => ?_
  obtain ⟨o | o, _⟩ := chosen
  · simp [Except.map, pure, Except.pure]
  · rfl

theorem planFlag_relimit {flag flag' : Value → List Operand → Except EvalError Bool}
    (hflag : ∀ v below, flag' (v.relimit d) (Stack.relimit d below) = flag v below) :
    planFlag (Stack.relimit d stack) flag' = (planFlag stack flag).map (Plan.relimit d) := by
  refine Except.bind_map (popOperand_relimit stack) fun value => ?_
  refine Except.bind_map (popValue_relimit value.2) fun condition => ?_
  refine Except.bind_map (t := id) ?_ fun holds => ?_
  · refine (hflag condition.1 condition.2).trans ?_
    cases flag condition.1 condition.2 <;> rfl
  · simp [Except.map, pure, Except.pure]

theorem planMember_relimit (lang : Language Value) (name : String) :
    planMember (lang.relimit d) name (Stack.relimit d stack) =
      (planMember lang name stack).map (Plan.relimit d) := by
  unfold planMember
  rw [Language.relimit_memberAccess]
  split
  · rfl
  · split
    · rfl
    · refine Except.bind_map (popValue_relimit stack) fun base => ?_
      simp [Except.map, pure, Except.pure, Value.relimit_member]

theorem planProperty_relimit (key : String) : planProperty key (Stack.relimit d stack) =
    (planProperty key stack).map (Plan.relimit d) := by
  unfold planProperty
  split
  · rfl
  · refine Except.bind_map (popValue_relimit stack) fun r => ?_
    obtain ⟨v, below⟩ := r
    match below with
    | [] | .thunk _ :: _ => rfl
    | .value w :: below =>
      cases w with
      | object fields =>
        simp [Except.map, pure, Except.pure, Record.insert_map]
      | _ => simp [Except.map]

/-- Under another limit an instruction asks for the same. -/
theorem plan_relimit (lang : Language Value) (scope : Bindings) (i : Instruction Value) :
    plan (lang.relimit d) (Bindings.relimit d scope) (i.relimit d) (Stack.relimit d stack) =
      (plan lang scope i stack).map (Plan.relimit d) := by
  cases i with
  | literal v => simp [Instruction.relimit, plan, Except.map, pure, Except.pure]
  | target name => simp [Instruction.relimit, plan, Except.map, pure, Except.pure]
  | undefined => simp [Instruction.relimit, plan, Except.map, pure, Except.pure]
  | group body =>
    rw [Instruction.relimit, Instruction.relimitCode_eq]
    rfl
  | «variable» name => exact Except.bind_map (lookup_relimit lang scope name) fun v => rfl
  | unary op =>
    simp only [Instruction.relimit, plan, Language.relimit_unaryOp?]
    exact planOperator_relimit stack op _ 1
  | binary op =>
    simp only [Instruction.relimit, plan, planBinary, Language.relimit_binaryOp?]
    split
    · exact planConnective_relimit stack op
    · split
      · exact planAssignment_relimit stack lang
      · exact planOperator_relimit stack op _ 2
  | ternary op =>
    simp only [Instruction.relimit, plan, planTernary, Language.relimit_ternaryOp?]
    split
    · exact planConditional_relimit stack
    · exact planOperator_relimit stack op _ 3
  | call argc => exact planCall_relimit stack argc
  | define paramc => exact planDefinition_relimit stack paramc
  | member name => exact planMember_relimit stack lang name
  | endStatement => exact Except.bind_map (popOperand_relimit stack) fun _ => rfl
  | array count =>
    refine Except.bind_map (popValues_relimit count stack []) fun items => ?_
    simp [Except.map, pure, Except.pure]
  | whenCond k =>
    unfold plan
    refine planFlag_relimit stack fun v below => ?_
    rw [Value.relimit_truthy]
  | whenMatch k =>
    unfold plan
    refine planFlag_relimit stack fun v below => ?_
    rw [Stack.relimit, List.getElem?_map]
    rcases below[2 * k]? with _ | tested | code
    · rfl
    · exact congrArg Except.ok (Value.relimit_equal tested v)
    · rfl
  | caseElse =>
    refine Except.bind_map (popOperand_relimit stack) fun value => ?_
    simp [Except.map, pure, Except.pure]
  | caseMatch count => exact planChoice_relimit stack count true
  | caseCond count => exact planChoice_relimit stack count false
  | objectStart => simp [Instruction.relimit, plan, Except.map, pure, Except.pure]
  | property key => exact planProperty_relimit stack key
  | objectEnd => rfl

end Machine

end Formula
