import Formula.Machine

/-!
# Steps of a run

A run cut where it can be suspended: what is done after the needed operands of an instruction,
after a program that was entered, and after the instruction itself.
-/

namespace Formula

namespace Machine

section

variable (inner : Engine) (lang : Language Value) (depth : Nat)

/-- What is done after an instruction. -/
def afterStep (rest : Program Value) : Step → Eval Progress
  | .await frames on stack => return .waiting (frames ++ [.push stack rest]) on
  | .next (.value (.deferred id) :: stack) => return .waiting [.push stack rest] id
  | .next stack => run inner lang depth rest stack

/-- What is done once the needed operands of an instruction are values. -/
def afterForce (i : Instruction Value) (rest : Program Value) : Forced → Eval Progress
  | .suspended d frames on stack => return .waiting (frames ++ [.fill d stack (i :: rest)]) on
  | .ready stack => do afterStep inner lang depth rest (← step inner lang depth i stack)

/-- What is done once the program of a needed operand has been entered. -/
def afterEntry (d : Nat) (ds : List Nat) (stack : List Operand) : Progress → Eval Forced
  | .done v => force inner lang depth ds (stack.set d (.value v))
  | .waiting frames on => return .suspended d frames on stack

/-- What is done once a program whose value is used in some way has been entered. -/
def afterUse (use : Use) (stack : List Operand) (rest : Program Value) : Progress → Eval Progress
  | .done v => use.apply v >>= fun u => afterStep inner lang depth rest (.next (.value u :: stack))
  | .waiting frames on => return .waiting (frames ++ use.frames ++ [.push stack rest]) on

/-- What is done after frames, with those that come after them. -/
def afterFrames (more : List Frame) : Progress → Eval Progress
  | .done v => resume inner lang depth more v
  | .waiting frames on => return .waiting (frames ++ more) on

end

/-- What becomes of the body of a function. -/
def afterBody (lang : Language Value) : Progress → Eval Value
  | .done v => return v
  | .waiting frames on => do
    let scope ← Eval.scope
    return .deferred (← Eval.defer (.suspended scope lang frames on))

theorem enterBody_eq (inner : Engine) (depth : Nat) (c : Closure Value) (scope : Bindings) :
    enterBody inner depth c scope =
      Eval.inScope scope (inner.enter c.language depth c.body >>= afterBody c.language) := by
  rw [enterBody]
  refine congrArg _ (congrArg _ (funext fun p => ?_))
  cases p with
  | done v => rfl
  | waiting frames on => rfl

variable {inner : Engine} {lang : Language Value} {depth : Nat}

theorem force_thunk {d : Nat} {ds : List Nat} {stack : List Operand} {code : Program Value}
    (hd : stack[d]? = some (.thunk code)) :
    force inner lang depth (d :: ds) stack =
      inner.enter lang depth code >>= afterEntry inner lang depth d ds stack := by
  rw [force, hd]
  rfl

theorem perform_thunk (code : Program Value) (use : Use) (stack : List Operand)
    (rest : Program Value) :
    perform inner lang depth (.resolve (.thunk code) use stack) >>=
        afterStep inner lang depth rest =
      inner.enter lang depth code >>= afterUse inner lang depth use stack rest := by
  rw [perform, bind_assoc]
  refine congrArg _ (funext fun p => ?_)
  cases p with
  | done v => simp only [bind_assoc, pure_bind, afterUse]
  | waiting frames on => rfl

theorem run_cons (i : Instruction Value) (rest : Program Value) (stack : List Operand) :
    run inner lang depth (i :: rest) stack =
      force inner lang depth (needed i) stack >>= afterForce inner lang depth i rest := by
  rw [run]
  refine congrArg _ (funext fun r => ?_)
  cases r with
  | suspended d frames on stack => rfl
  | ready stack => rfl

theorem step_eq {i : Instruction Value} {stack : List Operand} {p : Plan}
    (h : ∀ scope, plan lang scope i stack = .ok p) :
    step inner lang depth i stack = perform inner lang depth p := by
  simp only [step, h]
  rfl

theorem step_fail {i : Instruction Value} {stack : List Operand} {e : EvalError}
    (h : ∀ scope, plan lang scope i stack = .error e) :
    step inner lang depth i stack = Eval.fail e := by
  simp only [step, h]
  rfl

theorem popValues_append (vs : List Value) (stack : List Operand) (acc : List Value) :
    popValues vs.length (vs.map .value ++ stack) acc = .ok (vs.reverse ++ acc, stack) := by
  induction vs generalizing acc with
  | nil => rfl
  | cons v vs ih =>
    rw [List.length_cons, List.map_cons, List.cons_append, popValues, ih, List.reverse_cons,
      List.append_assoc, List.singleton_append]

theorem popValues_reverse (vs : List Value) (stack : List Operand) :
    popValues vs.length (vs.reverse.map .value ++ stack) [] = .ok (vs, stack) := by
  have h := popValues_append vs.reverse stack []
  rwa [List.length_reverse, List.reverse_reverse, List.append_nil] at h

/-- What is done after an instruction that leaves no deferred value on top. -/
theorem afterStep_next {stack : List Operand}
    (h : ∀ id below, stack ≠ .value (.deferred id) :: below) (rest : Program Value) :
    afterStep inner lang depth rest (.next stack) = run inner lang depth rest stack := by
  unfold afterStep
  split
  · next heq => cases heq
  · next id below heq =>
    cases heq
    exact (h _ _ rfl).elim
  · next heq =>
    cases heq
    rfl

theorem afterStep_value {v : Value} (hv : v.isDeferred = false) (rest : Program Value)
    (stack : List Operand) : afterStep inner lang depth rest (.next (.value v :: stack)) =
      run inner lang depth rest (.value v :: stack) := by
  refine afterStep_next (fun id below h => ?_) rest
  cases h
  cases hv

theorem run_next {i : Instruction Value} {stack new : List Operand} (rest : Program Value)
    (hneeded : needed i = []) (hp : ∀ scope, plan lang scope i stack = .ok (.next new))
    (hafter : afterStep inner lang depth rest (.next new) = run inner lang depth rest new) :
    run inner lang depth (i :: rest) stack = run inner lang depth rest new := by
  have hstep : force inner lang depth [] stack >>= afterForce inner lang depth i rest =
      step inner lang depth i stack >>= afterStep inner lang depth rest := rfl
  rw [run_cons, hneeded, hstep, step_eq hp]
  exact hafter

theorem run_group (body rest : Program Value) (stack : List Operand) :
    run inner lang depth (.group body :: rest) stack =
      run inner lang depth rest (.thunk body :: stack) :=
  run_next rest rfl (fun _ => rfl) rfl

theorem run_target (name : String) (rest : Program Value) (stack : List Operand) :
    run inner lang depth (.target name :: rest) stack =
      run inner lang depth rest (.value (.string name) :: stack) :=
  run_next rest rfl (fun _ => rfl) rfl

theorem run_targets (names : List String) (rest : Program Value) (stack : List Operand) :
    run inner lang depth (names.map .target ++ rest) stack =
      run inner lang depth rest ((names.map Value.string).reverse.map .value ++ stack) := by
  induction names generalizing stack with
  | nil => rfl
  | cons name names ih =>
    rw [List.map_cons, List.cons_append, run_target, ih, List.map_cons, List.reverse_cons,
      List.map_append, List.append_assoc]
    rfl

/-! ### Assignments and definitions -/

theorem plan_assignment (scope : Bindings) (path : String) (v : Program Value)
    (stack : List Operand) :
    plan lang scope (.binary "=") (.thunk v :: .value (.string path) :: stack) =
      if path.toList.contains '.' && !lang.options.memberAccess then .error .memberAccess
      else .ok (.resolve (.thunk v) (.assign path) stack) := by
  rw [plan, planBinary, if_neg (by decide), if_pos rfl]
  rfl

/-- An assignment enters its value's program, unless it assigns a member where that is refused. -/
theorem run_assignment (path : String) (body rest : Program Value) (stack : List Operand) :
    run inner lang depth (.target path :: .group body :: .binary "=" :: rest) stack =
      if path.toList.contains '.' && !lang.options.memberAccess then Eval.fail .memberAccess
      else inner.enter lang depth body >>= afterUse inner lang depth (.assign path) stack rest := by
  have hstep : run inner lang depth (.binary "=" :: rest)
      (.thunk body :: .value (.string path) :: stack) =
      step inner lang depth (.binary "=") (.thunk body :: .value (.string path) :: stack) >>=
        afterStep inner lang depth rest := run_cons ..
  rw [run_target, run_group, hstep]
  split
  · next hm =>
    rw [step_fail fun scope => (plan_assignment scope path body stack).trans (if_pos hm)]
    rfl
  · next hm =>
    rw [step_eq fun scope => (plan_assignment scope path body stack).trans (if_neg hm)]
    exact perform_thunk body (.assign path) stack rest

theorem plan_define (scope : Bindings) (name : String) (params : List String)
    (body : Program Value) (stack : List Operand) :
    plan lang scope (.define params.length) (.thunk body ::
      ((params.map Value.string).reverse.map .value ++ .value (.string name) :: stack)) =
      .ok (.define name params body stack) := by
  have hpop := popValues_reverse (params.map Value.string) (.value (.string name) :: stack)
  rw [List.length_map] at hpop
  have htext : (params.map Value.string).map Value.text = params := by
    rw [List.map_map]
    exact List.map_id params
  rw [plan, planDefinition, hpop]
  show Except.ok (Plan.define (Value.string name).text ((params.map Value.string).map Value.text)
    body stack) = _
  rw [htext]
  rfl

/-- A definition leaves the function on the stack. -/
theorem run_definition (name : String) (params : List String) (body rest : Program Value)
    (stack : List Operand) :
    run inner lang depth (.target name ::
        (params.map .target ++ .group body :: .define params.length :: rest)) stack =
      define lang name params body >>= fun f => run inner lang depth rest (.value f :: stack) := by
  have hstep : ∀ stack', run inner lang depth (.define params.length :: rest) stack' =
      step inner lang depth (.define params.length) stack' >>= afterStep inner lang depth rest :=
    fun _ => run_cons ..
  rw [run_target, run_targets, run_group, hstep,
    step_eq fun scope => plan_define scope name params body stack]
  simp only [perform, define, bind_assoc, pure_bind]
  rfl

/-! ### Frames -/

theorem resume_cons (f : Frame) (rest : List Frame) (v : Value) :
    resume inner lang depth (f :: rest) v =
      proceed inner lang depth f v >>= afterFrames inner lang depth rest := by
  rw [resume]
  refine congrArg _ (funext fun p => ?_)
  cases p with
  | done v => rfl
  | waiting frames on => rfl

theorem resume_append (frames more : List Frame) (v : Value) :
    resume inner lang depth (frames ++ more) v =
      resume inner lang depth frames v >>= afterFrames inner lang depth more := by
  induction frames generalizing v with
  | nil => rfl
  | cons f rest ih =>
    rw [List.cons_append, resume_cons, resume_cons, bind_assoc]
    refine congrArg _ (funext fun p => ?_)
    cases p with
    | done v => exact ih v
    | waiting frames on =>
      rw [afterFrames, afterFrames, pure_bind, afterFrames, List.append_assoc]

theorem resume_single (f : Frame) (v : Value) :
    resume inner lang depth [f] v = proceed inner lang depth f v := by
  have hlast : afterFrames inner lang depth [] = pure := by
    funext p
    cases p with
    | done v => rfl
    | waiting frames on => rw [afterFrames, List.append_nil]
  rw [resume_cons, hlast, bind_pure]

/-- The use of a value comes before the frames that follow. -/
theorem resume_use (use : Use) (more : List Frame) (v : Value) :
    resume inner lang depth (use.frames ++ more) v =
      use.apply v >>= fun u => resume inner lang depth more u := by
  cases use with
  | keep => rfl
  | truth => rfl
  | assign path =>
    rw [Use.frames, List.singleton_append, resume_cons, proceed, Use.apply, bind_assoc, bind_assoc]
    rfl

end Machine

end Formula
