import Formula.Proofs.Tree.Instructions

/-!
# Single operators

Each kind of instruction that expressions compile to does, with the operands it finds, what the
tree evaluator does at its kind of expression.
-/

namespace Formula

namespace Machine

variable {inner : Engine} {lang : Language Value} {depth : Nat}

theorem plan_connective (c : Connective) (scope : Bindings) (r : Program Value) (a : Value)
    (stack : List Operand) :
    plan lang scope (.binary c.symbol) (.thunk r :: .value a :: stack) =
      .ok (if a.truthy != (c.symbol == "and") then .next (.value (.bool a.truthy) :: stack)
        else .resolve (.thunk r) .truth stack) := by
  have hc : c.symbol = "and" ∨ c.symbol = "or" := by
    cases c <;> decide
  rw [plan, planBinary, if_pos hc, apply_ite Except.ok]
  rfl

theorem plan_member (scope : Bindings) (name : String) (v : Value) (stack : List Operand) :
    plan lang scope (.member name) (.value v :: stack) =
      if !lang.options.memberAccess then .error .memberAccess
      else if isReserved name then .error (.reservedName name)
      else .ok (.next (.value (v.member name) :: stack)) := rfl

theorem plan_property (scope : Bindings) (key : String) (v : Value) (fields : Record Value)
    (stack : List Operand) :
    plan lang scope (.property key) (.value v :: .value (.object fields) :: stack) =
      if isReserved key then .error (.reservedName key)
      else .ok (.next (.value (.object (Record.insert fields key v)) :: stack)) := rfl

end Machine

namespace Tree

open Eval TreeEval

section

variable {g : Guard} {inner : Formula.Engine} {tree : Engine} {order : Order}
  {lang : Language Value} {depth : Nat} {rest : Program Value} {stack : List Operand}

/-! ### Operands in their turn -/

/-- An operand is evaluated in the machine's turn: as it is written if it is no sequence. -/
theorem operand_eq {e : Expr} (he : order = .asWritten → e.isSequence = false)
    (x : TreeEval Value) : operand order e x = late e x := by
  cases order with
  | sequencesLast => rfl
  | asWritten =>
    have hseq := he rfl
    cases e with
    | sequence _ _ | closed _ => cases hseq
    | _ => rfl

/-- An operand that nothing stands beside is evaluated at once. -/
theorem late_force (e : Expr) :
    late e (eval tree order lang depth e) >>= force tree order lang depth =
      eval tree order lang depth e := by
  cases e with
  | sequence a b => rw [eval]; rfl
  | closed a => rw [eval]; rfl
  | _ => simp only [late, bind_assoc, pure_bind, force, bind_pure]

example : (late (.closed .undefined) (TreeEval.fail .memberAccess) (World.start [] 0)).1.isOk := by
  decide +kernel

theorem eval_bind (e : Expr) (k : Value → TreeEval Value) :
    eval tree order lang depth e >>= k =
      late e (eval tree order lang depth e) >>= fun o => force tree order lang depth o >>= k := by
  conv => lhs; rw [← late_force]
  rw [bind_assoc]

/-- What is not a sequence has its value in its turn. -/
theorem agree_known {m : Eval Progress} {e : Expr} (he : e.isSequence = false)
    {x : TreeEval Value} {k : Late → TreeEval Value} (h : Agree g m (x >>= fun v => k (.known v))) :
    Agree g m (late e x >>= k) := by
  have hlate : late e x >>= k = x >>= fun v => k (.known v) := by
    cases e with
    | sequence _ _ | closed _ => cases he
    | _ => simp only [late, bind_assoc, pure_bind]
  rw [hlate]
  exact h

/-! ### Single instructions -/

theorem agree_literal {v : Value} (hv : v.Obeys g) {k : Value → TreeEval Value}
    (h : ∀ v, Ready g v →
      Agree g (Machine.run inner lang depth rest (.value v :: stack)) (k v)) :
    Agree g (Machine.run inner lang depth (.literal v :: rest) stack) (check v >>= k) := by
  rw [Machine.run_cons]
  exact agree_plan (p := .next (.value v :: stack)) (fun _ => rfl) (agree_push hv (h v))

theorem agree_variable (hlang : lang.Obeys g) {name : String}
    (hi : (Instruction.variable name).Obeys g lang) {k : Value → TreeEval Value}
    (h : ∀ v, Ready g v →
      Agree g (Machine.run inner lang depth rest (.value v :: stack)) (k v)) :
    Agree g (Machine.run inner lang depth (.variable name :: rest) stack)
      (lift Eval.scope >>= fun scope =>
        lift (Eval.ofExcept (Machine.lookup lang scope name)) >>= fun v => check v >>= k) := by
  have hrun : Machine.run inner lang depth (.variable name :: rest) stack =
      Eval.scope >>= fun scope => Eval.ofExcept (Machine.lookup lang scope name) >>= fun v =>
        Machine.afterStep inner lang depth rest (.next (.value v :: stack)) := by
    have hstep : Machine.run inner lang depth (.variable name :: rest) stack =
        Machine.step inner lang depth (.variable name) stack >>=
          Machine.afterStep inner lang depth rest := Machine.run_cons _ _ _
    rw [hstep, Machine.step, bind_assoc]
    refine congrArg _ (funext fun scope => ?_)
    rw [Machine.plan]
    cases Machine.lookup lang scope name with
    | error e => rfl
    | ok v => rfl
  rw [hrun]
  refine (mirrors_blind Blind.scope).agree safe_scope fun scope hscope => ?_
  have hmeets : Meets (Value.Obeys g) g.Mild (Machine.lookup lang scope name) :=
    (Machine.lookup_meets hlang hscope hi.natives).weaken fun _ he _ => he
  have hfound : Safe g (Value.Obeys g) (Eval.ofExcept (Machine.lookup lang scope name)) :=
    Keeps.ofExcept hmeets
  exact (mirrors_blind (Blind.ofExcept _)).agree hfound fun v hv => agree_push hv (h v)

theorem define_ready (hlang : lang.Obeys g) {name : String} {params : List String}
    {body : Program Value} (hb : Program.Obeys g lang body) :
    Safe g (Ready g) (Machine.define lang name params body) := by
  intro w hw
  obtain ⟨hsound, hend⟩ := Machine.define_safe hlang hb w hw
  exact ⟨hsound, hend, rfl⟩

theorem agree_define (hlang : lang.Obeys g) (hadmits : Expr.Admits g lang) {name : String}
    {params : List String} {body : Expr} (hb : body.Obeys g lang) {k : Value → TreeEval Value}
    (h : ∀ v, Ready g v →
      Agree g (Machine.run inner lang depth rest (.value v :: stack)) (k v)) :
    Agree g (Machine.run inner lang depth ((Expr.define name params body).compile ++ rest) stack)
      (lift (Machine.define lang name params body.compile) >>= k) := by
  have hcode : Program.Obeys g lang body.compile :=
    (Expr.alone_obeys hadmits hb (Expr.compile_obeys hadmits body hb)).ofGroup
  have hdefine : Machine.run inner lang depth ((Expr.define name params body).compile ++ rest)
      stack = Machine.define lang name params body.compile >>= fun v =>
        Machine.afterStep inner lang depth rest (.next (.value v :: stack)) := by
    rw [Expr.compile, List.cons_append, Machine.run_target, List.append_assoc,
      Machine.run_targets, List.cons_append, Machine.run_group, List.singleton_append,
      Machine.run_cons]
    show Machine.step inner lang depth (.define params.length) _ >>= _ = _
    rw [Machine.step_eq fun scope => Machine.plan_define scope name params body.compile stack,
      Machine.perform, bind_assoc]
    rfl
  rw [hdefine]
  refine (mirrors_blind (Blind.define lang name params body.compile)).agree (define_ready hlang hcode) ?_
  intro v hv
  rw [Machine.afterStep_value hv.2]
  exact h v hv

theorem agree_member (hin : Mirrored g inner tree) (hlang : lang.Obeys g)
    (hadmits : Expr.Admits g lang) {name : String} {o : Late} (ho : o.Good g lang order)
    {k : Value → TreeEval Value}
    (h : ∀ v, Ready g v →
      Agree g (Machine.run inner lang depth rest (.value v :: stack)) (k v)) :
    Agree g (Machine.run inner lang depth (.member name :: rest) (o.operand :: stack))
      (force tree order lang depth o >>= fun v =>
        (if !lang.options.memberAccess then TreeEval.fail .memberAccess
        else if isReserved name then TreeEval.fail (.reservedName name)
        else check (v.member name)) >>= k) := by
  rw [Machine.run_cons]
  refine agree_force (d := 0) hin hlang hadmits rfl ho fun v hv => ?_
  show Agree g (Machine.force inner lang depth [] (.value v :: stack) >>= _) _
  by_cases hm : (!lang.options.memberAccess) = true
  · rw [if_pos hm]
    exact agree_plan_fail
      (fun scope => (Machine.plan_member scope name v stack).trans (if_pos hm)) k
  · rw [if_neg hm]
    by_cases hr : isReserved name = true
    · rw [if_pos hr]
      refine agree_plan_fail (fun scope => ?_) k
      rw [Machine.plan_member, if_neg hm, if_pos hr]
    · rw [if_neg hr]
      have hp : ∀ scope, Machine.plan lang scope (.member name) (.value v :: stack) =
          .ok (.next (.value (v.member name) :: stack)) := by
        intro scope
        rw [Machine.plan_member, if_neg hm, if_neg hr]
      exact agree_plan hp (agree_push (hv.1.member name) (h _))

theorem agree_connective (hin : Mirrored g inner tree) (hlang : lang.Obeys g)
    (hadmits : Expr.Admits g lang) {c : Connective} {r : Expr} (hr : Suitable g lang order r)
    {o : Late} (ho : o.Good g lang order) {k : Value → TreeEval Value}
    (h : ∀ v, Ready g v →
      Agree g (Machine.run inner lang depth rest (.value v :: stack)) (k v)) :
    Agree g (Machine.run inner lang depth (.binary c.symbol :: rest)
        (.thunk r.compile :: o.operand :: stack))
      (force tree order lang depth o >>= fun a =>
        (if a.truthy != (c.symbol == "and") then return .bool a.truthy
        else return .bool (← lazily tree order lang depth r).truthy) >>= k) := by
  rw [Machine.run_cons, Machine.needed_connective]
  refine agree_force (d := 1) hin hlang hadmits rfl ho fun a ha => ?_
  show Agree g (Machine.force inner lang depth [] (.thunk r.compile :: .value a :: stack) >>= _) _
  refine agree_plan (fun scope => Machine.plan_connective c scope r.compile a stack) ?_
  by_cases hdecides : (a.truthy != (c.symbol == "and")) = true
  · rw [if_pos hdecides, if_pos hdecides]
    exact h _ ⟨.bool _, rfl⟩
  · rw [if_neg hdecides, if_neg hdecides, bind_assoc]
    refine agree_lazily hin hlang hadmits hr .truth fun v _ => ?_
    exact h (.bool v.truthy) ⟨.bool _, rfl⟩

theorem agree_conditional (hin : Mirrored g inner tree) (hlang : lang.Obeys g)
    (hadmits : Expr.Admits g lang) {y n : Expr} (hy : Suitable g lang order y)
    (hn : Suitable g lang order n) {o : Late} (ho : o.Good g lang order)
    {k : Value → TreeEval Value}
    (h : ∀ v, Ready g v →
      Agree g (Machine.run inner lang depth rest (.value v :: stack)) (k v)) :
    Agree g (Machine.run inner lang depth (.ternary "?" :: rest)
        (.thunk n.compile :: .thunk y.compile :: o.operand :: stack))
      (force tree order lang depth o >>= fun test =>
        lazily tree order lang depth (if test.truthy then y else n) >>= k) := by
  rw [Machine.run_cons]
  refine agree_force (d := 2) hin hlang hadmits rfl ho fun test htest => ?_
  show Agree g (Machine.force inner lang depth []
    (.thunk n.compile :: .thunk y.compile :: .value test :: stack) >>= _) _
  have hp : ∀ scope, Machine.plan lang scope (.ternary "?")
      (.thunk n.compile :: .thunk y.compile :: .value test :: stack) =
      .ok (.resolve (.thunk (if test.truthy then y else n).compile) .keep stack) := by
    intro scope
    rw [apply_ite Expr.compile, apply_ite Operand.thunk]
    rfl
  have hchosen : Suitable g lang order (if test.truthy then y else n) := by
    split
    · exact hy
    · exact hn
  refine agree_plan hp (agree_lazily hin hlang hadmits hchosen .keep fun v hv => ?_)
  have hkeep : (Machine.Use.keep.apply v >>= fun u =>
      Machine.afterStep inner lang depth rest (.next (.value u :: stack))) =
      Machine.run inner lang depth rest (.value v :: stack) :=
    Machine.afterStep_value hv.2 rest stack
  rw [hkeep]
  exact h v hv

theorem agree_assign (hin : Mirrored g inner tree) (hlang : lang.Obeys g)
    (hadmits : Expr.Admits g lang) {path : String} {e : Expr} (he : Suitable g lang order e)
    {k : Value → TreeEval Value}
    (h : ∀ v, Ready g v →
      Agree g (Machine.run inner lang depth rest (.value v :: stack)) (k v)) :
    Agree g (Machine.run inner lang depth (.binary "=" :: rest)
        (.thunk e.compile :: .value (.string path) :: stack))
      (assignTo lang path (lazily tree order lang depth e) >>= k) := by
  have hneeded : Machine.needed (.binary "=") = [] := by decide
  rw [Machine.run_cons, hneeded, assignTo]
  by_cases hm : (path.toList.contains '.' && !lang.options.memberAccess) = true
  · rw [if_pos hm]
    exact agree_plan_fail
      (fun scope => (Machine.plan_assignment scope path e.compile stack).trans (if_pos hm)) k
  · rw [if_neg hm, bind_assoc]
    refine agree_plan
      (fun scope => (Machine.plan_assignment scope path e.compile stack).trans (if_neg hm)) ?_
    refine agree_lazily hin hlang hadmits he (.assign path) fun v hv => ?_
    have hassign : (Machine.Use.assign path).apply v >>= (fun u =>
        Machine.afterStep inner lang depth rest (.next (.value u :: stack))) =
        Eval.assign path v >>= fun _ => Machine.run inner lang depth rest (.value v :: stack) := by
      rw [Machine.Use.apply, bind_assoc]
      refine congrArg _ (funext fun _ => ?_)
      exact Machine.afterStep_value hv.2 rest stack
    rw [hassign, bind_assoc]
    exact (mirrors_blind (Blind.assign path v)).agree (safe_assign path hv.1) fun _ _ => h v hv

theorem agree_invoke (hin : Mirrored g inner tree) (hlang : lang.Obeys g)
    (hadmits : Expr.Admits g lang) {f : Late} (hf : f.Good g lang order) {os : List Late}
    (hos : ∀ o ∈ os, o.Good g lang order) {k : Value → TreeEval Value}
    (h : ∀ v, Ready g v →
      Agree g (Machine.run inner lang depth rest (.value v :: stack)) (k v)) :
    Agree g (Machine.run inner lang depth (.call os.length :: rest)
        (os.reverse.map Late.operand ++ f.operand :: stack))
      (force tree order lang depth f >>= fun callee =>
        forceAll tree order lang depth os >>= fun args =>
          (match callee with
          | .function f => do check (← lift (tree.call depth f args))
          | other => TreeEval.fail (.notAFunction other.text)) >>= k) := by
  have hneeded : Machine.needed (.call os.length) =
      os.length :: (List.range os.length).reverse := by
    rw [Machine.needed, List.range_succ, List.reverse_append]
    rfl
  have hlength : (os.reverse.map Late.operand).length = os.length := by
    rw [List.length_map, List.length_reverse]
  have hcallee : (os.reverse.map Late.operand ++ f.operand :: stack)[os.length]? =
      some f.operand := by
    rw [List.getElem?_append_right (Nat.le_of_eq hlength), hlength, Nat.sub_self]
    rfl
  rw [Machine.run_cons, hneeded]
  refine agree_force hin hlang hadmits hcallee hf fun callee hready => ?_
  rw [List.set_append_right _ _ (Nat.le_of_eq hlength), hlength, Nat.sub_self, List.set_cons_zero]
  refine agree_forceAll hin hlang hadmits hos fun args hargs hknown => ?_
  have hpop := Machine.popValues_reverse args (.value callee :: stack)
  rw [hargs] at hpop
  cases callee with
  | function f =>
    have hplan : ∀ scope, Machine.plan lang scope (.call os.length)
        (args.reverse.map .value ++ .value (.function f) :: stack) =
        .ok (.call f args stack) := by
      intro scope
      rw [Machine.plan, Machine.planCall, hpop]
      rfl
    rw [bind_assoc]
    exact agree_plan hplan
      (agree_call hin hready.1.ofFunction (fun v hv => (hknown v hv).1) h)
  | _ =>
    refine agree_plan_fail (fun scope => ?_) k
    rw [Machine.plan, Machine.planCall, hpop]
    rfl

theorem agree_items (hin : Mirrored g inner tree) (hlang : lang.Obeys g)
    (hadmits : Expr.Admits g lang) {os : List Late} (hos : ∀ o ∈ os, o.Good g lang order)
    {k : Value → TreeEval Value}
    (h : ∀ v, Ready g v →
      Agree g (Machine.run inner lang depth rest (.value v :: stack)) (k v)) :
    Agree g (Machine.run inner lang depth (.array os.length :: rest)
        (os.reverse.map Late.operand ++ stack))
      (forceAll tree order lang depth os >>= fun items => k (.array items)) := by
  rw [Machine.run_cons]
  refine agree_forceAll hin hlang hadmits hos fun items hitems hknown => ?_
  have hpop := Machine.popValues_reverse items stack
  rw [hitems] at hpop
  have hplan : ∀ scope, Machine.plan lang scope (.array os.length)
      (items.reverse.map .value ++ stack) = .ok (.next (.value (.array items) :: stack)) := by
    intro scope
    rw [Machine.plan, hpop]
    rfl
  exact agree_next hplan rfl
    (h _ ⟨.array fun v hv => (hknown v hv).1, rfl⟩)

theorem agree_field (hin : Mirrored g inner tree) (hlang : lang.Obeys g)
    (hadmits : Expr.Admits g lang) {key : String} {fields : Record Value} {o : Late}
    (ho : o.Good g lang order) {t k : Value → TreeEval Value}
    (h : ∀ v, Ready g v → Agree g (Machine.run inner lang depth rest
      (.value (.object (Record.insert fields key v)) :: stack)) (t v >>= k)) :
    Agree g (Machine.run inner lang depth (.property key :: rest)
        (o.operand :: .value (.object fields) :: stack))
      (force tree order lang depth o >>= fun v =>
        (if isReserved key then TreeEval.fail (.reservedName key) else t v) >>= k) := by
  rw [Machine.run_cons]
  refine agree_force (d := 0) hin hlang hadmits rfl ho fun v hv => ?_
  show Agree g (Machine.force inner lang depth []
    (.value v :: .value (.object fields) :: stack) >>= _) _
  by_cases hr : isReserved key = true
  · rw [if_pos hr]
    exact agree_plan_fail
      (fun scope => (Machine.plan_property scope key v fields stack).trans (if_pos hr)) k
  · rw [if_neg hr]
    exact agree_next
      (fun scope => (Machine.plan_property scope key v fields stack).trans (if_neg hr))
      rfl (h v hv)

end

end Tree

end Formula
