import Formula.Evaluation
import Formula.Proofs.Machine.Known
import Formula.Proofs.Machine.Scope
import Formula.Proofs.Scope.Written

/-!
# The variables a run keeps

A run changes no variable but those its program writes. Each instruction keeps the other variables,
hence code does, hence, by induction on the levels an engine nests, every entered program, and at
last whatever goes on after a wait. Calls keep all variables, whatever their functions write.
-/

namespace Formula

/-- Variables that differ from given ones in some names at most. -/
def Bindings.Kept (names : String → Prop) (b b' : Bindings) : Prop :=
  ∀ name, ¬names name → Record.get? b' name = Record.get? b name

/-- An evaluation that keeps variables as they were, some names aside. -/
abbrev Eval.Spares {α : Type} (names : String → Prop) (b : Bindings) (good : α → Prop)
    (x : Eval α) : Prop :=
  Eval.Keeps (fun w => Bindings.Kept names b w.scope) (fun _ => True) good x

section

variable (T : Program Value → Prop) (A : String → Prop)

/-- Operands whose programs are of some kind. -/
abbrev Stack.Runs (stack : List Operand) : Prop := Stack.Made (fun _ => True) T stack

/-- A frame that goes on with code of some kind and assigns some paths only. -/
def Frame.Runs : Frame → Prop
  | .fill _ stack code | .push stack code => Stack.Runs T stack ∧ T code
  | .truth => True
  | .assign path => A path

/-- A run that goes on, if it does, with code of some kind. -/
def Progress.Runs : Progress → Prop
  | .done _ => True
  | .waiting frames _ => ∀ f ∈ frames, f.Runs T A

namespace Machine

def Use.Runs : Use → Prop
  | .keep | .truth => True
  | .assign path => A path

def Forced.Runs : Forced → Prop
  | .ready stack => Stack.Runs T stack
  | .suspended _ frames _ stack => (∀ f ∈ frames, f.Runs T A) ∧ Stack.Runs T stack

def Step.Runs : Step → Prop
  | .next stack => Stack.Runs T stack
  | .await frames _ stack => (∀ f ∈ frames, f.Runs T A) ∧ Stack.Runs T stack

end Machine

end

section

variable (names : String → Prop)

/-- Operands whose programs write only given names. -/
abbrev Stack.Writes (stack : List Operand) : Prop := Stack.Runs (Program.Writes names) stack

abbrev Frame.Writes (f : Frame) : Prop :=
  f.Runs (Program.Writes names) fun path => names (Bindings.root path)

/-- A run that goes on, if it does, with code that writes only given names. -/
abbrev Progress.Writes (p : Progress) : Prop :=
  p.Runs (Program.Writes names) fun path => names (Bindings.root path)

namespace Machine

abbrev Use.Writes (use : Use) : Prop := use.Runs fun path => names (Bindings.root path)

abbrev Forced.Writes (r : Forced) : Prop :=
  r.Runs (Program.Writes names) fun path => names (Bindings.root path)

abbrev Step.Writes (s : Step) : Prop :=
  s.Runs (Program.Writes names) fun path => names (Bindings.root path)

end Machine

end

/-- An engine whose programs write what they are said to, and whose calls write nothing. -/
structure Engine.Spares (names : String → Prop) (b : Bindings) (inner : Engine) : Prop where
  enter : ∀ lang depth {code}, Program.Writes names code →
    Eval.Spares names b (Progress.Writes names) (inner.enter lang depth code)
  restores : Machine.Restores inner

variable {names : String → Prop} {b : Bindings}

/-! ### The state -/

namespace Eval

variable {α : Type}

theorem Scoped.spares {x : Eval α} (hx : Scoped x) : Spares names b (fun _ => True) x := by
  intro w hw
  have hkept : Bindings.Kept names b (x w).2.scope := (hx w).symm ▸ hw
  exact ⟨hkept, (Gives.any x w trivial).2⟩

theorem spares_scope : Spares names b (Bindings.Kept names b) scope := fun _ hw => ⟨hw, hw⟩

theorem spares_setScope {b' : Bindings} (hb : Bindings.Kept names b b') :
    Spares names b (fun _ => True) (setScope b') := fun _ _ => ⟨hb, trivial⟩

theorem spares_assign {path : String} (hroot : names (Bindings.root path)) (v : Value) :
    Spares names b (fun _ => True) (assign path v) := by
  refine Keeps.bind spares_scope fun b₁ hb => ?_
  have hassigned : Meets (Bindings.Kept names b) (fun _ => True)
      (Bindings.assignPath b₁ path v) := by
    refine (Bindings.assignPath_other b₁ path v).mono fun b₂ hother name hname => ?_
    have hne : name ≠ Bindings.root path := fun h => hname (h ▸ hroot)
    exact (hother name hne).trans (hb name hname)
  exact Keeps.bind (Keeps.ofExcept hassigned) fun b₂ hb₂ => spares_setScope hb₂

end Eval

namespace Machine

open Eval

variable {inner : Engine} {lang : Language Value} {depth : Nat} {stack : List Operand}

/-! ### Plans -/

/-- A plan that neither assigns nor defines. -/
def Plan.Quiet : Plan → Prop
  | .resolve _ (.assign _) _ | .define _ _ _ _ => False
  | _ => True

theorem planOperator_quiet (op : String) (entry : Option Native) (n : Nat) :
    Meets Plan.Quiet (fun _ => True) (planOperator op entry n stack) :=
  Meets.bind (Meets.any _) fun _ _ => Meets.bind (Meets.any _) fun _ _ => trivial

theorem planConnective_quiet (op : String) :
    Meets Plan.Quiet (fun _ => True) (planConnective op stack) := by
  refine Meets.bind (Meets.any _) fun _ _ => Meets.bind (Meets.any _) fun _ _ => ?_
  dsimp only
  split <;> exact trivial

theorem planCall_quiet (argc : Nat) : Meets Plan.Quiet (fun _ => True) (planCall argc stack) := by
  refine Meets.bind (Meets.any _) fun _ _ => Meets.bind (Meets.any _) fun r _ => ?_
  rcases r with ⟨callee, _⟩
  cases callee <;> exact trivial

theorem planChoice_quiet (count : Nat) (tested : Bool) :
    Meets Plan.Quiet (fun _ => True) (planChoice count tested stack) := by
  refine Meets.bind (Meets.any _) fun r _ => Meets.bind (Meets.any _) fun _ _ => ?_
  rcases r with ⟨chosen, _⟩
  cases chosen <;> exact trivial

theorem planFlag_quiet (flag : Value → List Operand → Except EvalError Bool) :
    Meets Plan.Quiet (fun _ => True) (planFlag stack flag) :=
  Meets.bind (Meets.any _) fun _ _ => Meets.bind (Meets.any _) fun _ _ =>
    Meets.bind (Meets.any _) fun _ _ => trivial

theorem planMember_quiet (name : String) :
    Meets Plan.Quiet (fun _ => True) (planMember lang name stack) := by
  unfold planMember
  split
  · exact trivial
  · split
    · exact trivial
    · exact Meets.bind (Meets.any _) fun _ _ => trivial

theorem planProperty_quiet (key : String) :
    Meets Plan.Quiet (fun _ => True) (planProperty key stack) := by
  unfold planProperty
  split
  · exact trivial
  · refine Meets.bind (Meets.any _) fun _ _ => ?_
    dsimp only
    split <;> exact trivial

theorem plan_quiet {scope : Bindings} {i : Instruction Value} (hi : i.writes = false) :
    Meets Plan.Quiet (fun _ => True) (plan lang scope i stack) := by
  cases i with
  | literal _ | target _ | undefined | group _ | objectStart | objectEnd => exact trivial
  | «variable» name => exact Meets.bind (Meets.any _) fun _ _ => trivial
  | unary op => exact planOperator_quiet op _ 1
  | binary op =>
    have hop : op ≠ "=" := by simpa [Instruction.writes] using hi
    unfold plan planBinary
    dsimp only
    split
    · exact planConnective_quiet op
    · exact planOperator_quiet op _ 2
  | ternary op =>
    unfold plan planTernary
    dsimp only
    split
    · exact Meets.bind (Meets.any _) fun _ _ => Meets.bind (Meets.any _) fun _ _ =>
        Meets.bind (Meets.any _) fun _ _ => trivial
    · exact planOperator_quiet op _ 3
  | call argc => exact planCall_quiet argc
  | define _ => cases hi
  | member name => exact planMember_quiet name
  | endStatement | array _ | caseElse => exact Meets.bind (Meets.any _) fun _ _ => trivial
  | whenCond _ | whenMatch _ =>
    unfold plan
    exact planFlag_quiet _
  | caseMatch count => exact planChoice_quiet count true
  | caseCond count => exact planChoice_quiet count false
  | property key => exact planProperty_quiet key

/-- Every value is one. -/
theorem partwise_true : Value.Partwise fun _ => True where
  undefined := trivial
  bool _ := trivial
  number _ := trivial
  string _ := trivial
  array _ := trivial
  items _ _ _ := trivial
  fields _ _ _ := trivial
  object _ := trivial

/-- An instruction that writes nothing asks for no assignment, and for programs of some kind if those
it finds are. -/
theorem plan_runs {T : Program Value → Prop} {scope : Bindings} {i : Instruction Value}
    (hi : i.writes = false) (hbody : ∀ body, i = .group body → T body) (hs : Stack.Runs T stack) :
    Meets (fun p => p.Made (fun _ => True) T ∧ p.Quiet) (fun _ => True)
      (plan lang scope i stack) := by
  have hmade : i.Made (fun _ => True) T lang :=
    ⟨fun _ _ => trivial, hbody, fun _ _ => trivial⟩
  exact (plan_made partwise_true.fieldwise (fun _ _ _ => trivial) (fun _ _ => trivial) hmade hs).and
    (plan_quiet hi)

theorem use_runs {A : String → Prop} {o : Operand} {use : Use} {stack : List Operand}
    (h : Plan.Quiet (.resolve o use stack)) : use.Runs A := by
  cases use with
  | keep | truth => exact trivial
  | assign path => exact h.elim

theorem useFrames_run {T : Program Value → Prop} {A : String → Prop} {use : Use}
    (huse : use.Runs A) : ∀ f ∈ use.frames, f.Runs T A := by
  cases use with
  | keep => exact fun f hf => (List.not_mem_nil hf).elim
  | truth => exact List.forall_mem_singleton.mpr trivial
  | assign path => exact List.forall_mem_singleton.mpr huse

/-! ### Instructions -/

theorem resolve_spares (h : inner.Spares names b) {o : Operand}
    (ho : o.Made (fun _ => True) (Program.Writes names)) :
    Spares names b (Progress.Writes names) (resolve inner lang depth o) := by
  cases o with
  | value v => exact Keeps.pure trivial
  | thunk code => exact h.enter lang depth ho

theorem force_spares (h : inner.Spares names b) (ds : List Nat) (hs : Stack.Writes names stack) :
    Spares names b (Forced.Writes names) (force inner lang depth ds stack) := by
  induction ds generalizing stack with
  | nil => exact Keeps.pure hs
  | cons d ds ih =>
    cases hd : stack[d]? with
    | none =>
      simp only [force, hd]
      exact Keeps.fail trivial
    | some o =>
      cases o with
      | value v =>
        cases v with
        | deferred id =>
          simp only [force, hd]
          exact Keeps.pure ⟨fun f hf => (List.not_mem_nil hf).elim, hs⟩
        | _ =>
          simp only [force, hd]
          exact ih hs
      | thunk code =>
        have hcode : Program.Writes names code := hs _ (List.mem_of_getElem? hd)
        rw [force_thunk hd]
        refine Keeps.bind (h.enter lang depth hcode) fun p hp => ?_
        cases p with
        | done v => exact ih (hs.set d trivial)
        | waiting frames on => exact Keeps.pure ⟨hp, hs⟩

theorem use_spares {use : Use} (huse : use.Writes names) (v : Value) :
    Spares names b (fun _ => True) (use.apply v) := by
  cases use with
  | keep | truth => exact Keeps.pure trivial
  | assign path => exact Keeps.bind (spares_assign huse v) fun _ _ => Keeps.pure trivial

theorem perform_spares (h : inner.Spares names b) {p : Plan}
    (hmade : p.Made (fun _ => True) (Program.Writes names)) (hquiet : p.Quiet) :
    Spares names b (Step.Writes names) (perform inner lang depth p) := by
  cases p with
  | next stack => exact Keeps.pure hmade
  | resolve o use stack =>
    have huse : use.Writes names := use_runs hquiet
    refine Keeps.bind (resolve_spares h hmade.1) fun r hr => ?_
    cases r with
    | done v =>
      exact Keeps.bind (use_spares huse v) fun u _ => Keeps.pure (hmade.2.cons trivial)
    | waiting frames on =>
      exact Keeps.pure ⟨List.forall_mem_append.mpr ⟨hr, useFrames_run huse⟩, hmade.2⟩
  | call f args stack =>
    exact Keeps.bind (h.restores depth f args).spares fun v _ =>
      Keeps.pure (hmade.2.2.cons trivial)
  | define => exact hquiet.elim

theorem define_spares {name : String} (hname : names name) (params : List String)
    (body : Program Value) : Spares names b (fun _ => True) (define lang name params body) := by
  refine Keeps.bind spares_scope fun captured hc => ?_
  have hfresh : Spares names b (fun _ => True) freshId := fun _ hw => ⟨hw, trivial⟩
  refine Keeps.bind hfresh fun id _ => ?_
  refine Keeps.bind (spares_setScope fun other hother => ?_) fun _ _ => Keeps.pure trivial
  have hne : other ≠ name := fun h => hother (h ▸ hname)
  exact (Record.get?_insert_of_ne captured _ hne).trans (hc other hother)

/-! ### Code -/

theorem finish_spares (h : inner.Spares names b) (hs : Stack.Writes names stack) :
    Spares names b (Progress.Writes names) (finish inner lang depth stack) := by
  match stack, hs with
  | [], _ | _ :: _ :: _, _ => exact Keeps.fail trivial
  | [o], hs =>
    refine Keeps.bind (resolve_spares h hs.head) fun p hp => ?_
    cases p with
    | done v => exact Keeps.pure trivial
    | waiting frames on => exact Keeps.pure hp

/-- What is done after an instruction, if the rest of the code keeps the variables. -/
theorem afterStep_spares {rest : Program Value} (hrest : Program.Writes names rest)
    (hrun : ∀ stack, Stack.Writes names stack →
      Spares names b (Progress.Writes names) (run inner lang depth rest stack))
    {s : Step} (hs : s.Writes names) :
    Spares names b (Progress.Writes names) (afterStep inner lang depth rest s) := by
  unfold afterStep
  split
  · exact Keeps.pure (List.forall_mem_append.mpr ⟨hs.1, List.forall_mem_singleton.mpr ⟨hs.2, hrest⟩⟩)
  · exact Keeps.pure (List.forall_mem_singleton.mpr ⟨Stack.Made.tail hs, hrest⟩)
  · exact hrun _ hs

/-- Code keeps the variables that it does not write, on every stack. -/
theorem run_spares (h : inner.Spares names b) {code : Program Value}
    (hcode : Program.Writes names code) (hs : Stack.Writes names stack) :
    Spares names b (Progress.Writes names) (run inner lang depth code stack) := by
  induction hcode generalizing stack with
  | nil => exact finish_spares h hs
  | @cons i rest hi hbody hrest _ ih =>
    rw [run_cons]
    refine Keeps.bind (force_spares h _ hs) fun r hr => ?_
    cases r with
    | suspended d frames on stack =>
      refine Keeps.pure (List.forall_mem_append.mpr ⟨hr.1, List.forall_mem_singleton.mpr ?_⟩)
      exact ⟨hr.2, .cons hi hbody hrest⟩
    | ready stack =>
      have hstep : Spares names b (Step.Writes names) (step inner lang depth i stack) :=
        Keeps.bind spares_scope fun scope _ =>
          Keeps.bind (Keeps.ofExcept (plan_runs hi hbody hr)) fun p hp =>
            perform_spares h hp.1 hp.2
      exact Keeps.bind hstep fun s hs => afterStep_spares hrest (fun _ => ih) hs
  | @assign path body rest hroot hbody hrest _ ih =>
    rw [run_assignment]
    split
    · exact Keeps.fail trivial
    · refine Keeps.bind (h.enter lang depth hbody) fun p hp => ?_
      have huse : (Use.assign path).Writes names := hroot
      cases p with
      | done v =>
        exact Keeps.bind (use_spares huse v) fun u _ =>
          afterStep_spares hrest (fun _ => ih) (hs.cons trivial)
      | waiting frames on =>
        refine Keeps.pure
          (List.forall_mem_append.mpr ⟨?_, List.forall_mem_singleton.mpr ⟨hs, hrest⟩⟩)
        exact List.forall_mem_append.mpr ⟨hp, useFrames_run huse⟩
  | define params body hname hrest ih =>
    rw [run_definition]
    exact Keeps.bind (define_spares hname params body) fun f _ => ih (hs.cons trivial)

theorem engine_spares (names : String → Prop) (b : Bindings) (hosts : Hosts) (fuel : Nat) :
    (engine hosts fuel).Spares names b := by
  induction fuel with
  | zero => exact ⟨fun _ _ _ _ => Keeps.exhausted, engine_restores hosts 0⟩
  | succ fuel ih =>
    exact ⟨fun _ _ _ hcode => run_spares ih hcode fun _ ho => (List.not_mem_nil ho).elim,
      engine_restores hosts (fuel + 1)⟩

/-! ### Waiting -/

theorem resume_spares (h : inner.Spares names b) {frames : List Frame}
    (hframes : ∀ f ∈ frames, f.Writes names) (v : Value) :
    Spares names b (Progress.Writes names) (resume inner lang depth frames v) := by
  induction frames generalizing v with
  | nil => exact Keeps.pure trivial
  | cons f rest ih =>
    obtain ⟨hf, hrest⟩ := List.forall_mem_cons.mp hframes
    rw [resume_cons]
    have hfirst : Spares names b (Progress.Writes names) (proceed inner lang depth f v) := by
      cases f with
      | fill d stack code => exact run_spares h hf.2 (hf.1.set d trivial)
      | push stack code => exact run_spares h hf.2 (hf.1.cons trivial)
      | truth => exact Keeps.pure trivial
      | assign path => exact Keeps.bind (spares_assign hf v) fun _ _ => Keeps.pure trivial
    refine Keeps.bind hfirst fun p hp => ?_
    cases p with
    | done v => exact ih hrest v
    | waiting frames on => exact Keeps.pure (List.forall_mem_append.mpr ⟨hp, hrest⟩)

theorem drive_spares (hosts : Hosts) (levels fuel : Nat) {s : Suspension}
    (hframes : ∀ f ∈ s.frames, f.Writes names) :
    Spares names b (fun _ => True) (drive hosts levels fuel s) := by
  induction fuel generalizing s with
  | zero => exact Keeps.exhausted
  | succ fuel ih =>
    obtain ⟨hawait, hsettle⟩ := waiting_scoped hosts levels fuel
    refine Keeps.bind (hawait s.on).spares fun v _ => ?_
    have hgo : Spares names b (Progress.Writes names)
        (resume (engine hosts levels) s.language 0 s.frames v) :=
      resume_spares (engine_spares names b hosts levels) hframes v
    refine Keeps.bind hgo fun p hp => ?_
    cases p with
    | done v => exact (hsettle v).spares
    | waiting frames on => exact ih hp

end Machine

/-! ### Programs -/

/-- A variable that a program does not write keeps its value, or stays without one, whether the
program ends, fails or waits, and also while it is waited for. Calls change no variable at all,
neither before nor after they wait. -/
theorem evaluate_unwritten {lang : Language Value} {source : String} {e : Expr}
    (hlang : lang.Complete) (he : parseExpr lang source = .ok e) {name : String}
    (hname : name ∉ e.written) (hosts : Hosts) (fuel : Nat) (w : World) :
    Record.get? (e.evaluate hosts fuel lang w).2.scope name = Record.get? w.scope name ∧
    (∀ p w₁, e.evaluate hosts fuel lang w = (.ok p, w₁) → ∀ w₂,
      Record.get? (p.settle hosts fuel lang w₂).2.scope name = Record.get? w₂.scope name) ∧
    ∀ depth f args,
      ((Machine.engine hosts fuel).call depth f args w).2.scope = w.scope ∧
      (((Machine.engine hosts fuel).call depth f args >>= Value.settle hosts fuel) w).2.scope =
        w.scope := by
  have hcode : Program.Writes (· ∈ e.written) e.compile :=
    Expr.compile_writes e (parseExpr_all hlang lang.emits_regular he) fun _ h => h
  have hevaluate := (Machine.engine_spares _ w.scope hosts fuel).enter lang 0 hcode w
    fun _ _ => rfl
  refine ⟨hevaluate.1 name hname, fun p w₁ hp w₂ => ?_, fun depth f args => ?_⟩
  · have hwrites : p.Writes (· ∈ e.written) := by
      have hend := hevaluate.2
      rw [show (Machine.engine hosts fuel).enter lang 0 e.compile w = (.ok p, w₁) from hp] at hend
      exact hend
    cases p with
    | done v =>
      exact congrArg (Record.get? · name) ((Machine.waiting_scoped hosts fuel fuel).2 v w₂)
    | waiting frames on =>
      have hdrive : Eval.Spares (· ∈ e.written) w₂.scope (fun _ => True)
          (Machine.drive hosts fuel fuel ⟨lang, frames, on⟩) :=
        Machine.drive_spares hosts fuel fuel hwrites
      exact (hdrive w₂ fun _ _ => rfl).1 name hname
  · have hcall := Machine.engine_restores hosts fuel depth f args
    exact ⟨hcall w, hcall.bind (Machine.waiting_scoped hosts fuel fuel).2 w⟩

/-- A host that gives back its first argument later. -/
def postponingHosts : Hosts := fun _ args => ⟨[], .promise (.value (Operation.arg args 0))⟩

def postponingLanguage : Language Value :=
  (Language.ofOptions 0 {}).add .functions "postpone" 100 "postpone"

/-- A function that assigns its parameter and another variable, and waits in between. -/
def renamingSource : String := "f(x) = (y = postpone(x); x = 'c'; y); z = f('b'); z"

def renamingWorld : World := World.start [("x", .string "a")] 101

/-- The variables outside keep their values: one has another value, one has none. -/
theorem renaming_unwritten : ∃ e w, parseExpr postponingLanguage renamingSource = .ok e ∧
    w = ((e.evaluate postponingHosts 50 postponingLanguage >>=
      Progress.settle postponingHosts 50 postponingLanguage) renamingWorld).2 ∧
    e.written = ["f", "z"] ∧ Record.get? w.scope "x" = some (.string "a") ∧
    Record.get? w.scope "y" = none := by
  obtain ⟨e, he, hnames⟩ := exists_ok_of_map (show (parseExpr postponingLanguage
    renamingSource).toOption.map Expr.written = some ["f", "z"] by decide +kernel)
  have hlang : postponingLanguage.Complete :=
    Language.Extended.complete (g := .sound) (.add _ _ _ _ (.standard 0 {}))
  refine ⟨e, _, he, rfl, hnames, ?_⟩
  have hkept : ∀ name, name ∉ e.written → Record.get?
      ((e.evaluate postponingHosts 50 postponingLanguage >>=
        Progress.settle postponingHosts 50 postponingLanguage) renamingWorld).2.scope name =
      Record.get? renamingWorld.scope name := by
    intro name hname
    obtain ⟨hevaluate, hsettle, -⟩ :=
      evaluate_unwritten hlang he hname postponingHosts 50 renamingWorld
    rcases Eval.bind_cases (e.evaluate postponingHosts 50 postponingLanguage)
      (Progress.settle postponingHosts 50 postponingLanguage) renamingWorld with
      ⟨p, w₁, hp, hbind⟩ | ⟨s, w₁, hs, hbind⟩
    · rw [hbind, hsettle p w₁ hp w₁, ← hevaluate, hp]
    · rw [hbind, ← hevaluate, hs]
  exact ⟨hkept "x" (by rw [hnames]; decide), hkept "y" (by rw [hnames]; decide)⟩

end Formula
