import Formula.Proofs.Reserved.Names
import Formula.Proofs.Scope.Kept

/-!
# Runs make no reserved names

An unreserved program leaves an unreserved world unreserved, and gives an unreserved value. Every
instruction does, hence code does, hence, by induction on the levels an engine nests, every entered
program and every call, and at last whatever waits for deferred values. A definition is the one
instruction whose names are not checked when it runs, so the names it binds are asked for beforehand.
-/

namespace Formula

/-! ### States -/

/-- Operands with unreserved values and programs. -/
abbrev Stack.Unreserved (stack : List Operand) : Prop :=
  Stack.Made Value.Unreserved (Program.Unreserved Value.Unreserved) stack

def Frame.Unreserved : Frame → Prop
  | .fill _ stack code | .push stack code =>
    Stack.Unreserved stack ∧ Program.Unreserved Value.Unreserved code
  | .truth | .assign _ => True

def Promise.Unreserved : Promise → Prop
  | .value v => v.Unreserved
  | .error _ => True
  | .noting _ next => next.Unreserved
  | .nested p => p.Unreserved

def Deferred.Unreserved : Deferred → Prop
  | .settled (.ok v) => v.Unreserved
  | .settled (.error _) => True
  | .promised p => p.Unreserved
  | .suspended scope lang frames _ =>
    scope.Unreserved ∧ lang.Unreserved ∧ ∀ f ∈ frames, f.Unreserved

/-- A world whose variables, and whatever waits in it, have no reserved names. -/
structure World.Unreserved (w : World) : Prop where
  scope : w.scope.Unreserved
  deferreds : ∀ d ∈ w.deferreds, d.Unreserved

def Progress.Unreserved : Progress → Prop
  | .done v => v.Unreserved
  | .waiting frames _ => ∀ f ∈ frames, f.Unreserved

def Answer.Unreserved : Answer → Prop
  | .value v => v.Unreserved
  | .error _ => True
  | .promise p => p.Unreserved
  | .call f args => f.Unreserved ∧ ∀ v ∈ args, v.Unreserved

/-- A host that gives unreserved answers to unreserved arguments. -/
def Hosts.Unreserved (hosts : Hosts) : Prop :=
  ∀ key args, (∀ v ∈ args, v.Unreserved) → (hosts key args).answer.Unreserved

/-- An evaluation that makes no reserved name, neither in the world nor in its result. -/
abbrev Eval.Unreserved {α : Type} (good : α → Prop) (x : Eval α) : Prop :=
  Eval.Keeps World.Unreserved (fun _ => True) good x

structure Engine.Unreserved (inner : Engine) : Prop where
  enter : ∀ {lang depth code}, lang.Unreserved → Program.Unreserved Value.Unreserved code →
    Eval.Unreserved Progress.Unreserved (inner.enter lang depth code)
  call : ∀ {depth f args}, f.Unreserved → (∀ v ∈ args, v.Unreserved) →
    Eval.Unreserved Value.Unreserved (inner.call depth f args)

namespace World.Unreserved

variable {w : World}

theorem reseed (hw : w.Unreserved) (seed : UInt64) : ({ w with seed } : World).Unreserved :=
  ⟨hw.scope, hw.deferreds⟩

theorem record (hw : w.Unreserved) (id : Nat) {r : Except EvalError Value}
    (hr : (Deferred.settled r).Unreserved) : (w.record id r).Unreserved := by
  refine ⟨hw.scope, fun e he => ?_⟩
  rcases Array.mem_or_eq_of_mem_setIfInBounds he with he | rfl
  · exact hw.deferreds e he
  · exact hr

end World.Unreserved

namespace Eval

theorem unreserved_scope : Unreserved Bindings.Unreserved scope := fun _ hw => ⟨hw, hw.scope⟩

theorem unreserved_setScope {b : Bindings} (hb : b.Unreserved) :
    Unreserved (fun _ => True) (setScope b) := fun _ hw => ⟨⟨hb, hw.deferreds⟩, trivial⟩

theorem unreserved_inScope {α : Type} {good : α → Prop} {b : Bindings} {x : Eval α}
    (hb : b.Unreserved) (hx : Unreserved good x) : Unreserved good (inScope b x) := by
  intro w hw
  obtain ⟨hinner, hend⟩ := hx { w with scope := b } ⟨hb, hw.deferreds⟩
  exact ⟨⟨hw.scope, hinner.deferreds⟩, hend⟩

theorem unreserved_note (entries : List Value) : Unreserved (fun _ => True) (note entries) :=
  fun _ hw => ⟨⟨hw.scope, hw.deferreds⟩, trivial⟩

theorem unreserved_freshId : Unreserved (fun _ => True) freshId :=
  fun _ hw => ⟨⟨hw.scope, hw.deferreds⟩, trivial⟩

theorem unreserved_random : Unreserved (fun _ => True) random := by
  intro w hw
  rw [random_eq]
  exact ⟨hw.reseed _, trivial⟩

theorem unreserved_defer {d : Deferred} (hd : d.Unreserved) :
    Unreserved (fun _ => True) (defer d) := by
  intro w hw
  refine ⟨⟨hw.scope, fun e he => ?_⟩, trivial⟩
  rcases Array.mem_push.mp he with he | rfl
  · exact hw.deferreds e he
  · exact hd

theorem unreserved_assign (path : String) {v : Value} (hv : v.Unreserved) :
    Unreserved (fun _ => True) (assign path v) :=
  Keeps.bind unreserved_scope fun _ hb =>
    Keeps.bind (Keeps.ofExcept (Bindings.assignPath_unreserved hb path hv)) fun _ hb' =>
      unreserved_setScope hb'

end Eval

namespace Machine

open Eval

def Forced.Unreserved : Forced → Prop
  | .ready stack => Stack.Unreserved stack
  | .suspended _ frames _ stack => (∀ f ∈ frames, f.Unreserved) ∧ Stack.Unreserved stack

def Step.Unreserved : Step → Prop
  | .next stack => Stack.Unreserved stack
  | .await frames _ stack => (∀ f ∈ frames, f.Unreserved) ∧ Stack.Unreserved stack

variable {inner : Engine} {lang : Language Value} {depth : Nat} {stack : List Operand}

/-! ### Instructions -/

/-- A plan that defines no function. -/
def Plan.DefinesNothing : Plan → Prop
  | .define _ _ _ _ => False
  | _ => True

theorem plan_definesNothing {scope : Bindings} {i : Instruction Value}
    (hi : ∀ paramc, i ≠ .define paramc) :
    Meets Plan.DefinesNothing (fun _ => True) (plan lang scope i stack) := by
  cases hwrites : i.writes with
  | false =>
    refine (plan_quiet hwrites).mono fun p hp => ?_
    cases p with
    | define => exact hp.elim
    | _ => exact trivial
  | true =>
    cases i with
    | define paramc => exact (hi paramc rfl).elim
    | binary op =>
      obtain rfl : op = "=" := by simpa [Instruction.writes] using hwrites
      refine Meets.bind (Meets.any _) fun _ _ => Meets.bind (Meets.any _) fun _ _ => ?_
      dsimp only
      split <;> exact trivial
    | _ => cases hwrites

theorem plan_unreserved {scope : Bindings} {i : Instruction Value} (hlang : lang.Unreserved)
    (hscope : scope.Unreserved) (hd : ∀ paramc, i ≠ .define paramc)
    (hl : ∀ v, i = .literal v → v.Unreserved)
    (hg : ∀ body, i = .group body → Program.Unreserved Value.Unreserved body)
    (hs : Stack.Unreserved stack) :
    Meets (fun p => p.Made Value.Unreserved (Program.Unreserved Value.Unreserved) ∧
      p.DefinesNothing) (fun _ => True) (plan lang scope i stack) := by
  have hi : i.Made Value.Unreserved (Program.Unreserved Value.Unreserved) lang :=
    ⟨hl, hg, fun f _ => .function (.native f)⟩
  exact (plan_made Value.unreserved_fieldwise hlang.resolve hscope.values hi hs).and
    (plan_definesNothing hd)

theorem resolve_unreserved (hin : inner.Unreserved) (hlang : lang.Unreserved) {o : Operand}
    (ho : o.Made Value.Unreserved (Program.Unreserved Value.Unreserved)) :
    Unreserved Progress.Unreserved (resolve inner lang depth o) := by
  cases o with
  | value v => exact Keeps.pure ho
  | thunk code => exact hin.enter hlang ho

theorem force_unreserved (hin : inner.Unreserved) (hlang : lang.Unreserved) (ds : List Nat)
    (hs : Stack.Unreserved stack) :
    Unreserved Forced.Unreserved (force inner lang depth ds stack) := by
  induction ds generalizing stack with
  | nil => exact Keeps.pure hs
  | cons d ds ih =>
    unfold force
    split
    · exact Keeps.fail trivial
    · exact Keeps.pure ⟨fun f hf => (List.not_mem_nil hf).elim, hs⟩
    · exact ih hs
    · next code hsome =>
      have hcode : Program.Unreserved Value.Unreserved code := hs _ (List.mem_of_getElem? hsome)
      refine Keeps.bind (hin.enter hlang hcode) fun p hp => ?_
      cases p with
      | done v => exact ih (hs.set d hp)
      | waiting frames on => exact Keeps.pure ⟨hp, hs⟩

theorem use_unreserved (use : Use) {v : Value} (hv : v.Unreserved) :
    Unreserved Value.Unreserved (use.apply v) := by
  cases use with
  | keep => exact Keeps.pure hv
  | truth => exact Keeps.pure (.bool _)
  | assign path => exact Keeps.bind (unreserved_assign path hv) fun _ _ => Keeps.pure hv

theorem useFrames_unreserved (use : Use) : ∀ f ∈ use.frames, f.Unreserved := by
  cases use with
  | keep => exact fun f hf => (List.not_mem_nil hf).elim
  | truth | assign path => exact List.forall_mem_singleton.mpr trivial

theorem perform_unreserved (hin : inner.Unreserved) (hlang : lang.Unreserved) {p : Plan}
    (hp : p.Made Value.Unreserved (Program.Unreserved Value.Unreserved))
    (hdefines : p.DefinesNothing) : Unreserved Step.Unreserved (perform inner lang depth p) := by
  cases p with
  | next stack => exact Keeps.pure hp
  | resolve o use stack =>
    refine Keeps.bind (resolve_unreserved hin hlang hp.1) fun r hr => ?_
    cases r with
    | done v =>
      exact Keeps.bind (use_unreserved use hr) fun u hu => Keeps.pure (hp.2.cons hu)
    | waiting frames on =>
      exact Keeps.pure ⟨List.forall_mem_append.mpr ⟨hr, useFrames_unreserved use⟩, hp.2⟩
  | call f args stack =>
    exact Keeps.bind (hin.call hp.1.ofFunction hp.2.1) fun v hv => Keeps.pure (hp.2.2.cons hv)
  | define => exact hdefines.elim

/-- A definition makes the name of the function, and its parameters when it is called. -/
theorem define_unreserved (hlang : lang.Unreserved) {name : String}
    (hname : isReserved name = false) {params : List String}
    (hparams : ∀ param ∈ params, isReserved param = false) {body : Program Value}
    (hbody : Program.Unreserved Value.Unreserved body) :
    Unreserved Value.Unreserved (define lang name params body) := by
  refine Keeps.bind unreserved_scope fun captured hc => ?_
  refine Keeps.bind unreserved_freshId fun id _ => ?_
  have hf : (Value.function (.defined ⟨id, name, params, body, captured, lang⟩)).Unreserved :=
    .function (.defined hname (.mk hparams hc.names hc.values hbody hlang))
  exact Keeps.bind (unreserved_setScope (hc.insert hname hf)) fun _ _ => Keeps.pure hf

/-! ### Code -/

theorem finish_unreserved (hin : inner.Unreserved) (hlang : lang.Unreserved)
    (hs : Stack.Unreserved stack) :
    Unreserved Progress.Unreserved (finish inner lang depth stack) := by
  match stack, hs with
  | [], _ | _ :: _ :: _, _ => exact Keeps.fail trivial
  | [o], hs =>
    refine Keeps.bind (resolve_unreserved hin hlang hs.head) fun p hp => ?_
    cases p with
    | done v => exact Keeps.pure (Value.unreserved_fieldwise.toHereditary.normalise hp)
    | waiting frames on => exact Keeps.pure hp

theorem run_unreserved (hin : inner.Unreserved) (hlang : lang.Unreserved) {code : Program Value}
    (hcode : Program.Unreserved Value.Unreserved code) (hs : Stack.Unreserved stack) :
    Unreserved Progress.Unreserved (run inner lang depth code stack) := by
  induction hcode generalizing stack with
  | nil => exact finish_unreserved hin hlang hs
  | @cons i rest hd hl hg hrest _ ih =>
    rw [run_cons]
    refine Keeps.bind (force_unreserved hin hlang _ hs) fun r hr => ?_
    cases r with
    | suspended d frames on stack =>
      refine Keeps.pure (List.forall_mem_append.mpr ⟨hr.1, List.forall_mem_singleton.mpr ?_⟩)
      exact ⟨hr.2, .cons hd hl hg hrest⟩
    | ready stack =>
      have hstep : Unreserved Step.Unreserved (step inner lang depth i stack) :=
        Keeps.bind unreserved_scope fun scope hscope =>
          Keeps.bind (Keeps.ofExcept (plan_unreserved hlang hscope hd hl hg hr)) fun p hp =>
            perform_unreserved hin hlang hp.1 hp.2
      refine Keeps.bind hstep fun s hs => ?_
      unfold afterStep
      split
      · exact Keeps.pure
          (List.forall_mem_append.mpr ⟨hs.1, List.forall_mem_singleton.mpr ⟨hs.2, hrest⟩⟩)
      · exact Keeps.pure (List.forall_mem_singleton.mpr ⟨Stack.Made.tail hs, hrest⟩)
      · exact ih hs
  | define hname hparams hbody _ _ ih =>
    rw [run_definition]
    exact Keeps.bind (define_unreserved hlang hname hparams hbody) fun f hf => ih (hs.cons hf)

/-! ### Frames -/

theorem proceed_unreserved (hin : inner.Unreserved) (hlang : lang.Unreserved) {f : Frame}
    (hf : f.Unreserved) {v : Value} (hv : v.Unreserved) :
    Unreserved Progress.Unreserved (proceed inner lang depth f v) := by
  cases f with
  | fill d stack code => exact run_unreserved hin hlang hf.2 (hf.1.set d hv)
  | push stack code => exact run_unreserved hin hlang hf.2 (hf.1.cons hv)
  | truth => exact Keeps.pure (.bool _)
  | assign path => exact Keeps.bind (unreserved_assign path hv) fun _ _ => Keeps.pure hv

theorem resume_unreserved (hin : inner.Unreserved) (hlang : lang.Unreserved) {frames : List Frame}
    (hframes : ∀ f ∈ frames, f.Unreserved) {v : Value} (hv : v.Unreserved) :
    Unreserved Progress.Unreserved (resume inner lang depth frames v) := by
  induction frames generalizing v with
  | nil => exact Keeps.pure hv
  | cons f rest ih =>
    obtain ⟨hf, hrest⟩ := List.forall_mem_cons.mp hframes
    rw [resume_cons]
    refine Keeps.bind (proceed_unreserved hin hlang hf hv) fun p hp => ?_
    cases p with
    | done v => exact ih hrest hp
    | waiting frames on => exact Keeps.pure (List.forall_mem_append.mpr ⟨hp, hrest⟩)

/-! ### Calls -/

theorem enterPromise_unreserved {p : Promise} (hp : p.Unreserved) :
    Unreserved Value.Unreserved (enterPromise p) :=
  Keeps.bind (unreserved_defer (d := .promised p) hp) fun id _ => Keeps.pure (.deferred id)

theorem callNative_unreserved (hin : inner.Unreserved) {hosts : Hosts}
    (hhosts : hosts.Unreserved) (f : Native) {args : List Value}
    (hargs : ∀ v ∈ args, v.Unreserved) :
    Unreserved Value.Unreserved (callNative inner depth hosts f args) := by
  have hparts := Value.unreserved_fieldwise.toHereditary
  unfold callNative
  split
  · next op _ =>
    exact Keeps.ofExcept ((Operation.apply_hereditary hparts op hargs).weaken fun _ _ => trivial)
  · next t _ =>
    exact traverse_keeps hparts (fun _ => trivial) (fun hf => hin.call hf.ofFunction) t hargs
  · exact Keeps.bind unreserved_random fun _ _ => Keeps.pure (.number _)
  · next key _ =>
    refine Keeps.bind (unreserved_note _) fun _ _ => ?_
    have hanswer := hhosts key args hargs
    revert hanswer
    cases (hosts key args).answer with
    | value v => exact fun ha => Keeps.pure ha
    | error e => exact fun _ => Keeps.fail trivial
    | promise p => exact fun ha => enterPromise_unreserved ha
    | call h args' => exact fun ha => hin.call ha.1 ha.2

/-- The body of a function is entered with the variables of the call, which are no others'. -/
theorem enterBody_unreserved (hin : inner.Unreserved) (depth : Nat) {c : Closure Value}
    (hc : c.Unreserved) {scope : Bindings} (hscope : scope.Unreserved) :
    Unreserved Value.Unreserved (enterBody inner depth c scope) := by
  obtain ⟨_, _, _, hbody, hlang⟩ := hc
  rw [enterBody_eq]
  refine unreserved_inScope hscope (Keeps.bind (hin.enter hlang hbody) fun p hp => ?_)
  cases p with
  | done v => exact Keeps.pure hp
  | waiting frames on =>
    refine Keeps.bind unreserved_scope fun inside hinside => ?_
    exact Keeps.bind (unreserved_defer (d := .suspended inside c.language frames on)
      ⟨hinside, hlang, hp⟩) fun id _ => Keeps.pure (.deferred id)

theorem call_unreserved (hin : inner.Unreserved) {hosts : Hosts} (hhosts : hosts.Unreserved)
    {f : Function Value} (hf : f.Unreserved) {args : List Value}
    (hargs : ∀ v ∈ args, v.Unreserved) :
    Unreserved Value.Unreserved (call inner depth hosts f args) := by
  cases hf with
  | native f => exact callNative_unreserved hin hhosts f hargs
  | defined hname hc =>
    unfold call
    dsimp only
    split
    · exact enterBody_unreserved hin _ hc (definedScope_unreserved hname hc hargs)
    · exact Keeps.fail trivial
  | prepared hc =>
    refine enterBody_unreserved hin depth hc ?_
    obtain ⟨hparams, hcaptured, hvalues, _, _⟩ := hc
    refine Bindings.Unreserved.update ⟨hcaptured, hvalues⟩ ⟨fun p hp => ?_, fun p hp => ?_⟩
    · exact hparams p.1 (List.of_mem_zip hp).1
    · exact hargs p.2 (List.of_mem_zip hp).2

/-- Every level of an engine makes no reserved name. -/
theorem engine_unreserved {hosts : Hosts} (hhosts : hosts.Unreserved) (fuel : Nat) :
    (engine hosts fuel).Unreserved := by
  induction fuel with
  | zero => exact ⟨fun _ _ => Keeps.exhausted, fun _ _ => Keeps.exhausted⟩
  | succ fuel ih =>
    refine ⟨fun hlang hcode => ?_, fun hf hargs => call_unreserved ih hhosts hf hargs⟩
    exact run_unreserved ih hlang hcode fun o ho => (List.not_mem_nil ho).elim

/-! ### Waiting -/

theorem ask_unreserved {p : Promise} (hp : p.Unreserved) : Unreserved Value.Unreserved (ask p) := by
  induction p with
  | value v => exact Keeps.pure hp
  | error e => exact Keeps.fail trivial
  | noting entries next ih => exact Keeps.bind (unreserved_note entries) fun _ _ => ih hp
  | nested p => exact enterPromise_unreserved hp

theorem recording_unreserved (id : Nat) {x : Eval Value} (hx : Unreserved Value.Unreserved x) :
    Unreserved Value.Unreserved (recording id x) := by
  intro w hw
  have h := hx w hw
  unfold recording
  split
  · next v w' hxw =>
    rw [hxw] at h
    exact ⟨h.1.record id h.2, h.2⟩
  · next e w' hxw =>
    rw [hxw] at h
    exact ⟨h.1.record id trivial, trivial⟩
  · next w' hxw =>
    rw [hxw] at h
    exact ⟨h.1, trivial⟩

/-- Waiting makes no reserved name: for a deferred value, for a value that may be deferred, for a
suspension. -/
theorem waiting_unreserved {hosts : Hosts} (hhosts : hosts.Unreserved) (levels fuel : Nat) :
    (∀ id, Unreserved Value.Unreserved (await hosts levels fuel id)) ∧
      (∀ v : Value, v.Unreserved → Unreserved Value.Unreserved (settle hosts levels fuel v)) ∧
      ∀ s : Suspension, s.language.Unreserved → (∀ f ∈ s.frames, f.Unreserved) →
        Unreserved Value.Unreserved (drive hosts levels fuel s) := by
  induction fuel with
  | zero => exact ⟨fun _ => Keeps.exhausted, fun _ _ => Keeps.exhausted, fun _ _ _ => Keeps.exhausted⟩
  | succ fuel ih =>
    obtain ⟨hawait, hsettle, hdrive⟩ := ih
    refine ⟨fun id => ?_, fun v hv => ?_, fun s hlang hframes => ?_⟩
    · unfold await
      have hget : Unreserved World.Unreserved (get : Eval World) := fun _ hw => ⟨hw, hw⟩
      refine Keeps.bind hget fun w hw => ?_
      split
      · exact Keeps.exhausted
      · next result hentry =>
        have hd := hw.deferreds _ (Array.mem_of_getElem? hentry)
        have hresult : Meets Value.Unreserved (fun _ => True) result := by
          cases result with
          | ok v => exact hd
          | error e => exact trivial
        exact Keeps.bind (Keeps.ofExcept hresult) hsettle
      · next p hentry =>
        have hp := hw.deferreds _ (Array.mem_of_getElem? hentry)
        exact Keeps.bind (recording_unreserved id (ask_unreserved hp)) hsettle
      · next scope lang frames on hentry =>
        obtain ⟨hscope, hlang, hframes⟩ := hw.deferreds _ (Array.mem_of_getElem? hentry)
        exact recording_unreserved id
          (unreserved_inScope hscope (hdrive ⟨lang, frames, on⟩ hlang hframes))
    · unfold settle
      split
      · next id => exact hawait id
      · exact Keeps.pure hv
    · unfold drive
      refine Keeps.bind (hawait s.on) fun v hv => ?_
      have hin := engine_unreserved hhosts levels
      refine Keeps.bind (resume_unreserved hin hlang hframes hv) fun p hp => ?_
      cases p with
      | done v => exact hsettle v hp
      | waiting frames on => exact hdrive ⟨s.language, frames, on⟩ hlang hp

end Machine

theorem Progress.settle_unreserved {hosts : Hosts} (hhosts : hosts.Unreserved) (fuel : Nat)
    {lang : Language Value} (hlang : lang.Unreserved) {p : Progress} (hp : p.Unreserved) :
    Eval.Unreserved Value.Unreserved (p.settle hosts fuel lang) := by
  obtain ⟨_, hsettle, hdrive⟩ := Machine.waiting_unreserved hhosts fuel fuel
  cases p with
  | done v => exact hsettle v hp
  | waiting frames on => exact hdrive ⟨lang, frames, on⟩ hlang hp

/-! ### Programs -/

theorem World.unreserved_start (id : Nat) : (World.start [] id).Unreserved where
  scope := ⟨fun _ h => (List.not_mem_nil h).elim, fun _ h => (List.not_mem_nil h).elim⟩
  deferreds _ h := (Array.not_mem_empty _ h).elim

/-- Evaluating a program whose definitions bind no reserved name leaves no variable and no field with
such a name, in the variables, in what waits and in the value, whether it ends, fails or waits, and
also after it was waited for. No assignment, no object and no argument is an exception. -/
theorem evaluate_unreserved {lang : Language Value} {source : String} {e : Expr}
    (hlang : lang.Complete) (hresolver : lang.Unreserved)
    (hconstants : ∀ c ∈ lang.constants, c.2.Unreserved) (he : parseExpr lang source = .ok e)
    (hbinds : Mention.BindsFree e.mentions) {hosts : Hosts} (hhosts : hosts.Unreserved) (fuel : Nat)
    {w : World} (hw : w.Unreserved) :
    ((e.evaluate hosts fuel lang w).2.Unreserved ∧
      ∀ p, (e.evaluate hosts fuel lang w).1 = .ok p → p.Unreserved) ∧
    ((e.evaluate hosts fuel lang >>= Progress.settle hosts fuel lang) w).2.Unreserved ∧
      ∀ v, ((e.evaluate hosts fuel lang >>= Progress.settle hosts fuel lang) w).1 = .ok v →
        v.Unreserved := by
  have hcode := parseExpr_unreserved hlang hconstants he hbinds
  have hevaluate : Eval.Unreserved Progress.Unreserved (e.evaluate hosts fuel lang) :=
    (Machine.engine_unreserved hhosts fuel).enter hresolver hcode
  have hsettle : Eval.Unreserved Value.Unreserved
      (e.evaluate hosts fuel lang >>= Progress.settle hosts fuel lang) :=
    Eval.Keeps.bind hevaluate fun _ hp => Progress.settle_unreserved hhosts fuel hresolver hp
  have hends : ∀ {α : Type} {good : α → Prop} {x : Eval α}, Eval.Unreserved good x →
      (x w).2.Unreserved ∧ ∀ a, (x w).1 = .ok a → good a := by
    intro α good x hx
    obtain ⟨hworld, hend⟩ := hx w hw
    exact ⟨hworld, fun a ha => by rwa [ha] at hend⟩
  exact ⟨hends hevaluate, hends hsettle⟩

/-- A function with a parameter, a member that is assigned and a value that comes later. -/
def depositingSource : String := "f(x) = (y = postpone([x]); y); a.b = f('c'); a"

/-- The object that is assigned and given back has the field that it was assigned. -/
theorem depositing_unreserved : ∃ e v w, parseExpr postponingLanguage depositingSource = .ok e ∧
    (e.evaluate postponingHosts 9 postponingLanguage >>=
      Progress.settle postponingHosts 9 postponingLanguage) (World.start [] 101) = (.ok v, w) ∧
    w.scope.map Prod.fst = ["a", "f"] ∧ v.Unreserved ∧ w.Unreserved := by
  obtain ⟨e, he, hfacts⟩ := exists_ok_of_map (show (parseExpr postponingLanguage
    depositingSource).toOption.map (fun e =>
      let outcome := (e.evaluate postponingHosts 9 postponingLanguage >>=
        Progress.settle postponingHosts 9 postponingLanguage) (World.start [] 101)
      (decide (Mention.BindsFree e.mentions), outcome.1.isOk, outcome.2.scope.map Prod.fst)) =
    some (true, true, ["a", "f"]) by decide +kernel)
  simp only [Prod.mk.injEq, decide_eq_true_eq] at hfacts
  obtain ⟨hbinds, hends, hnames⟩ := hfacts
  have hlang : postponingLanguage.Complete :=
    Language.Extended.complete (g := .sound) (.add _ _ _ _ (.standard 0 {}))
  have hhosts : postponingHosts.Unreserved := fun _ _ hargs =>
    Operation.arg_hereditary Value.unreserved_fieldwise.toHereditary hargs 0
  have hconstants : ∀ c ∈ postponingLanguage.constants, c.2.Unreserved := by
    show ∀ c ∈ standardConstants, c.2.Unreserved
    simp only [standardConstants, List.forall_mem_cons]
    exact ⟨.number _, .number _, .bool _, .bool _, fun c hc => (List.not_mem_nil hc).elim⟩
  obtain ⟨-, hworld, hvalue⟩ := evaluate_unreserved hlang (.mk fun _ _ h => by cases h) hconstants he
    hbinds hhosts 9 (World.unreserved_start 101)
  rcases hrun : (e.evaluate postponingHosts 9 postponingLanguage >>=
    Progress.settle postponingHosts 9 postponingLanguage) (World.start [] 101) with ⟨r, w⟩
  rw [hrun] at hends hnames hworld hvalue
  cases r with
  | error s => cases hends
  | ok v => exact ⟨e, v, w, he, hrun, hnames, hvalue v rfl, hworld⟩

/-- A definition is not checked: it makes a variable of a reserved name. -/
theorem definition_reserved : ∃ e p w,
    parseExpr (Language.ofOptions 0 {}) "constructor(x) = x; 1" = .ok e ∧
    (World.start [] 0).Unreserved ∧
    e.evaluate postponingHosts 9 (Language.ofOptions 0 {}) (World.start [] 0) = (.ok p, w) ∧
    w.scope.map Prod.fst = ["constructor"] ∧ ¬w.Unreserved := by
  obtain ⟨e, he, hfacts⟩ := exists_ok_of_map (show (parseExpr (Language.ofOptions 0 {})
    "constructor(x) = x; 1").toOption.map (fun e =>
      let outcome := e.evaluate postponingHosts 9 (Language.ofOptions 0 {}) (World.start [] 0)
      (outcome.1.isOk, outcome.2.scope.map Prod.fst)) = some (true, ["constructor"])
    by decide +kernel)
  simp only [Prod.mk.injEq] at hfacts
  obtain ⟨hends, hnames⟩ := hfacts
  rcases hrun : e.evaluate postponingHosts 9 (Language.ofOptions 0 {}) (World.start [] 0) with ⟨r, w⟩
  rw [hrun] at hends hnames
  cases r with
  | error s => cases hends
  | ok p =>
    refine ⟨e, p, w, he, World.unreserved_start 0, hrun, hnames, fun hw => ?_⟩
    have hmem : "constructor" ∈ w.scope.map Prod.fst := hnames ▸ List.mem_singleton_self _
    obtain ⟨q, hq, hname⟩ := List.mem_map.mp hmem
    have hfree := hw.scope.names q hq
    rw [hname] at hfree
    cases hfree

end Formula
