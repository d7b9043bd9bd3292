import Formula.Proofs.Scope.Kept
import Formula.Proofs.Scope.Touched

/-!
# The variables a run depends on

A run depends on no variable but those its program touches. In worlds that agree in these and in
everything else, code has the same outcome, and it leaves the worlds so that they agree again. Calls
and waits depend on no variable in scope at all. So the program of an expression that defines nothing
depends on the roots of its names, at once and while it is waited for.
-/

namespace Formula

/-- Variables that are the same among given names. -/
def Bindings.Agrees (names : String → Prop) (b b' : Bindings) : Prop :=
  ∀ name, names name → Record.get? b' name = Record.get? b name

/-- Worlds that are the same but for the variables outside given names. -/
structure World.Agrees (names : String → Prop) (w w' : World) : Prop where
  scope : Bindings.Agrees names w.scope w'.scope
  log : w'.log = w.log
  deferreds : w'.deferreds = w.deferreds
  nextId : w'.nextId = w.nextId
  seed : w'.seed = w.seed

/-- An evaluation that has one outcome in worlds that agree, a good one if it is a result, and after
which they agree. -/
def Eval.Agrees {α : Type} (names : String → Prop) (good : α → Prop) (x : Eval α) : Prop :=
  ∀ w w', World.Agrees names w w' → (x w').1 = (x w).1 ∧ (∀ a, (x w).1 = .ok a → good a) ∧
    World.Agrees names (x w).2 (x w').2

section

variable (lang : Language Value) (names : String → Prop)

abbrev Stack.Touches (stack : List Operand) : Prop := Stack.Runs (Program.Touches lang names) stack

abbrev Frame.Touches (f : Frame) : Prop :=
  f.Runs (Program.Touches lang names) fun path => names (Bindings.root path)

/-- A run that goes on, if it does, with code that touches only given variables. -/
abbrev Progress.Touches (p : Progress) : Prop :=
  p.Runs (Program.Touches lang names) fun path => names (Bindings.root path)

namespace Machine

abbrev Forced.Touches (r : Forced) : Prop :=
  r.Runs (Program.Touches lang names) fun path => names (Bindings.root path)

abbrev Step.Touches (s : Step) : Prop :=
  s.Runs (Program.Touches lang names) fun path => names (Bindings.root path)

end Machine

end

/-- An engine in which programs depend on what they touch, and calls on no variable in scope. -/
structure Engine.Agrees (lang : Language Value) (names : String → Prop) (inner : Engine) : Prop where
  enter : ∀ depth {code}, Program.Touches lang names code →
    Eval.Agrees names (Progress.Touches lang names) (inner.enter lang depth code)
  calls : Machine.CallsApart inner

variable {names : String → Prop}

/-! ### Variables -/

theorem Bindings.Agrees.insert {b b' : Bindings} (h : Agrees names b b') (name : String)
    (v : Value) : Agrees names (Record.insert b name v) (Record.insert b' name v) := by
  intro other hother
  by_cases hname : other = name
  · subst hname
    rw [Record.get?_insert_self, Record.get?_insert_self]
  · rw [Record.get?_insert_of_ne _ _ hname, Record.get?_insert_of_ne _ _ hname]
    exact h other hother

theorem Bindings.assignPath_agrees {b b' : Bindings} (h : Agrees names b b') {path : String}
    (hroot : names (root path)) (v : Value) :
    (∃ e, assignPath b path v = .error e ∧ assignPath b' path v = .error e) ∨
      ∃ c c', assignPath b path v = .ok c ∧ assignPath b' path v = .ok c' ∧ Agrees names c c' := by
  unfold root at hroot
  unfold assignPath assignSegments
  generalize segments [] path.toList = path' at hroot
  split
  · exact .inl ⟨_, rfl, rfl⟩
  · match path', hroot with
    | [], _ => exact .inr ⟨b, b', rfl, rfl, h⟩
    | [name], _ => exact .inr ⟨_, _, rfl, rfl, h.insert name v⟩
    | name :: next :: rest, hroot =>
      have hget : Record.get? b' name = Record.get? b name := h name hroot
      simp only [hget]
      cases assignInto path v name ((Record.get? b name).getD (.object [])) (next :: rest) with
      | error e => exact .inl ⟨e, rfl, rfl⟩
      | ok target => exact .inr ⟨_, _, rfl, rfl, h.insert name target⟩

/-- Without a resolver, a name is looked up in agreement where the variable of that name is. -/
theorem Machine.lookup_agrees {lang : Language Value} (hlang : lang.resolver = []) {name : String}
    (hreads : lang.Reads names name) {b b' : Bindings} (h : Bindings.Agrees names b b') :
    lookup lang b' name = lookup lang b name := by
  have hresolve : lang.resolve? name = none := by rw [Language.resolve?, hlang, Record.get?_nil]
  unfold lookup
  split
  · rfl
  split
  · rfl
  rcases hreads with hname | ⟨henabled, hunary⟩
  · rw [h name hname, hresolve]
  · obtain ⟨f, hf⟩ := Option.isSome_iff_exists.mp hunary
    rw [if_pos henabled, hf]

/-! ### The state -/

namespace Eval

namespace Agrees

variable {α β : Type} {good : α → Prop} {good' : β → Prop}

theorem pure {a : α} (h : good a) : Agrees names good (Pure.pure a) :=
  fun _ _ hw => ⟨rfl, fun _ ha => by cases ha; exact h, hw⟩

theorem fail (e : EvalError) : Agrees names good (Eval.fail e) :=
  fun _ _ hw => ⟨rfl, fun _ ha => (by cases ha), hw⟩

theorem exhausted : Agrees names good Eval.exhausted :=
  fun _ _ hw => ⟨rfl, fun _ ha => (by cases ha), hw⟩

theorem ofExcept {mild : EvalError → Prop} {x : Except EvalError α} (hx : Meets good mild x) :
    Agrees names good (Eval.ofExcept x) := by
  cases x with
  | error e => exact fail e
  | ok a => exact pure hx

theorem bind {x : Eval α} {f : α → Eval β} (hx : Agrees names good x)
    (hf : ∀ a, good a → Agrees names good' (f a)) : Agrees names good' (x >>= f) := by
  intro w w' hw
  obtain ⟨hsame, hgood, hafter⟩ := hx w w' hw
  rcases hxw : x w with ⟨s | a, w₁⟩ <;> rcases hxw' : x w' with ⟨s' | a', w₁'⟩ <;>
    rw [hxw, hxw'] at hsame hafter <;> cases hsame
  · rw [bind_of_error hxw, bind_of_error hxw']
    exact ⟨rfl, fun _ ha => (by cases ha), hafter⟩
  · rw [bind_of_ok hxw, bind_of_ok hxw']
    exact hf a (hgood a (by rw [hxw])) w₁ w₁' hafter

theorem of_apart {x : Eval α} (hx : Apart x) : Agrees names (fun _ => True) x := by
  intro w w' hw
  obtain ⟨scope, log, deferreds, nextId, seed⟩ := w'
  obtain ⟨hscope, rfl, rfl, rfl, rfl⟩ := hw
  have hkept : (x w).2.scope = w.scope := Scoped.of_apart hx w
  have hb := hx w scope
  rw [show (⟨scope, w.log, w.deferreds, w.nextId, w.seed⟩ : World) = { w with scope } from rfl, hb]
  exact ⟨rfl, fun _ _ => trivial, hkept ▸ hscope, rfl, rfl, rfl, rfl⟩

theorem assign {path : String} (hroot : names (Bindings.root path)) (v : Value) :
    Agrees names (fun _ => True) (Eval.assign path v) := by
  intro w w' hw
  have hassign : ∀ w, Eval.assign path v w =
      (Eval.ofExcept (Bindings.assignPath w.scope path v) >>= Eval.setScope) w := fun _ => rfl
  rw [hassign, hassign]
  rcases Bindings.assignPath_agrees hw.scope hroot v with ⟨e, he, he'⟩ | ⟨c, c', hc, hc', hagrees⟩
  · rw [he, he']
    exact fail e w w' hw
  · rw [hc, hc']
    exact ⟨rfl, fun _ _ => trivial, { hw with scope := hagrees }⟩

end Agrees

end Eval

namespace Machine

open Eval

variable {inner : Engine} {lang : Language Value} {depth : Nat} {stack : List Operand}

/-! ### Instructions -/

/-- An instruction that reads only variables that agree asks for the same. -/
theorem plan_agrees (hlang : lang.resolver = []) {i : Instruction Value}
    (hreads : ∀ name, i = .variable name → lang.Reads names name) {b b' : Bindings}
    (h : Bindings.Agrees names b b') : plan lang b' i stack = plan lang b i stack := by
  cases i with
  | «variable» name => rw [plan, plan, lookup_agrees hlang (hreads name rfl) h]
  | _ => rfl

theorem resolve_agrees (h : inner.Agrees lang names) {o : Operand}
    (ho : o.Made (fun _ => True) (Program.Touches lang names)) :
    Agrees names (Progress.Touches lang names) (resolve inner lang depth o) := by
  cases o with
  | value v => exact .pure trivial
  | thunk code => exact h.enter depth ho

theorem force_agrees (h : inner.Agrees lang names) (ds : List Nat)
    (hs : Stack.Touches lang names stack) :
    Agrees names (Forced.Touches lang names) (force inner lang depth ds stack) := by
  induction ds generalizing stack with
  | nil => exact .pure hs
  | cons d ds ih =>
    cases hd : stack[d]? with
    | none =>
      simp only [force, hd]
      exact .fail _
    | some o =>
      cases o with
      | value v =>
        cases v with
        | deferred id =>
          simp only [force, hd]
          exact .pure ⟨fun f hf => (List.not_mem_nil hf).elim, hs⟩
        | _ =>
          simp only [force, hd]
          exact ih hs
      | thunk code =>
        have hcode : Program.Touches lang names code := hs _ (List.mem_of_getElem? hd)
        rw [force_thunk hd]
        refine .bind (h.enter depth hcode) fun p hp => ?_
        cases p with
        | done v => exact ih (hs.set d trivial)
        | waiting frames on => exact .pure ⟨hp, hs⟩

theorem use_agrees {use : Use} (huse : use.Runs fun path => names (Bindings.root path)) (v : Value) :
    Agrees names (fun _ => True) (use.apply v) := by
  cases use with
  | keep | truth => exact .pure trivial
  | assign path => exact .bind (.assign huse v) fun _ _ => .pure trivial

theorem perform_agrees (h : inner.Agrees lang names) {p : Plan}
    (hmade : p.Made (fun _ => True) (Program.Touches lang names)) (hquiet : p.Quiet) :
    Agrees names (Step.Touches lang names) (perform inner lang depth p) := by
  cases p with
  | next stack => exact .pure hmade
  | resolve o use stack =>
    have huse : use.Runs fun path => names (Bindings.root path) := use_runs hquiet
    refine .bind (resolve_agrees h hmade.1) fun r hr => ?_
    cases r with
    | done v => exact .bind (use_agrees huse v) fun u _ => .pure (hmade.2.cons trivial)
    | waiting frames on =>
      exact .pure ⟨List.forall_mem_append.mpr ⟨hr, useFrames_run huse⟩, hmade.2⟩
  | call f args stack =>
    exact .bind (.of_apart (h.calls depth f args)) fun v _ => .pure (hmade.2.2.cons trivial)
  | define => exact hquiet.elim

theorem step_agrees (hlang : lang.resolver = []) (h : inner.Agrees lang names)
    {i : Instruction Value} (hi : i.writes = false)
    (hreads : ∀ name, i = .variable name → lang.Reads names name)
    (hbody : ∀ body, i = .group body → Program.Touches lang names body)
    (hs : Stack.Touches lang names stack) :
    Agrees names (Step.Touches lang names) (step inner lang depth i stack) := by
  have hplan : Agrees names (fun p => p.Made (fun _ => True) (Program.Touches lang names) ∧ p.Quiet)
      (Eval.scope >>= fun b => Eval.ofExcept (plan lang b i stack)) := by
    intro w w' hw
    have hruns : Agrees names (fun p => p.Made (fun _ => True) (Program.Touches lang names) ∧ p.Quiet)
        (Eval.ofExcept (plan lang w.scope i stack)) := .ofExcept (plan_runs hi hbody hs)
    show (Eval.ofExcept (plan lang w'.scope i stack) w').1 = _ ∧ _ ∧
      World.Agrees names _ (Eval.ofExcept (plan lang w'.scope i stack) w').2
    rw [plan_agrees hlang hreads hw.scope]
    exact hruns w w' hw
  have hstep : step inner lang depth i stack =
      (Eval.scope >>= fun b => Eval.ofExcept (plan lang b i stack)) >>= perform inner lang depth := by
    rw [step, bind_assoc]
  rw [hstep]
  exact .bind hplan fun p hp => perform_agrees h hp.1 hp.2

/-! ### Code -/

theorem finish_agrees (h : inner.Agrees lang names) (hs : Stack.Touches lang names stack) :
    Agrees names (Progress.Touches lang names) (finish inner lang depth stack) := by
  match stack, hs with
  | [], _ | _ :: _ :: _, _ => exact .fail _
  | [o], hs =>
    refine .bind (resolve_agrees h hs.head) fun p hp => ?_
    cases p with
    | done v => exact .pure trivial
    | waiting frames on => exact .pure hp

/-- What is done after an instruction, if the rest of the code depends on what it touches. -/
theorem afterStep_agrees {rest : Program Value} (hrest : Program.Touches lang names rest)
    (hrun : ∀ stack, Stack.Touches lang names stack →
      Agrees names (Progress.Touches lang names) (run inner lang depth rest stack))
    {s : Step} (hs : s.Touches lang names) :
    Agrees names (Progress.Touches lang names) (afterStep inner lang depth rest s) := by
  unfold afterStep
  split
  · exact .pure (List.forall_mem_append.mpr ⟨hs.1, List.forall_mem_singleton.mpr ⟨hs.2, hrest⟩⟩)
  · exact .pure (List.forall_mem_singleton.mpr ⟨Stack.Made.tail hs, hrest⟩)
  · exact hrun _ hs

/-- Code depends on the variables that it touches, on every stack. -/
theorem run_agrees (hlang : lang.resolver = []) (h : inner.Agrees lang names)
    {code : Program Value} (hcode : Program.Touches lang names code)
    (hs : Stack.Touches lang names stack) :
    Agrees names (Progress.Touches lang names) (run inner lang depth code stack) := by
  induction hcode generalizing stack with
  | nil => exact finish_agrees h hs
  | @cons i rest hi hreads hbody hrest _ ih =>
    rw [run_cons]
    refine .bind (force_agrees h _ hs) fun r hr => ?_
    cases r with
    | suspended d frames on stack =>
      -- the instruction is run once its operand is there, so it is part of what is left
      refine .pure (List.forall_mem_append.mpr ⟨hr.1, List.forall_mem_singleton.mpr ?_⟩)
      exact ⟨hr.2, .cons hi hreads hbody hrest⟩
    | ready stack =>
      exact .bind (step_agrees hlang h hi hreads hbody hr) fun s hs =>
        afterStep_agrees hrest (fun _ => ih) hs
  | @assign path body rest hroot hbody hrest _ ih =>
    rw [run_assignment]
    split
    · exact .fail _
    · refine .bind (h.enter depth hbody) fun p hp => ?_
      have huse : (Use.assign path).Runs fun path => names (Bindings.root path) := hroot
      cases p with
      | done v =>
        exact .bind (use_agrees huse v) fun u _ =>
          afterStep_agrees hrest (fun _ => ih) (hs.cons trivial)
      | waiting frames on =>
        refine .pure (List.forall_mem_append.mpr ⟨?_, List.forall_mem_singleton.mpr ⟨hs, hrest⟩⟩)
        exact List.forall_mem_append.mpr ⟨hp, useFrames_run huse⟩

theorem engine_agrees (hlang : lang.resolver = []) (hosts : Hosts) (fuel : Nat) :
    (engine hosts fuel).Agrees lang names := by
  induction fuel with
  | zero => exact ⟨fun _ _ _ => .exhausted, engine_apart hosts 0⟩
  | succ fuel ih =>
    exact ⟨fun _ _ hcode => run_agrees hlang ih hcode fun _ ho => (List.not_mem_nil ho).elim,
      engine_apart hosts (fuel + 1)⟩

/-! ### Waiting -/

theorem resume_agrees (hlang : lang.resolver = []) (h : inner.Agrees lang names)
    {frames : List Frame} (hframes : ∀ f ∈ frames, f.Touches lang names) (v : Value) :
    Agrees names (Progress.Touches lang names) (resume inner lang depth frames v) := by
  induction frames generalizing v with
  | nil => exact .pure trivial
  | cons f rest ih =>
    obtain ⟨hf, hrest⟩ := List.forall_mem_cons.mp hframes
    rw [resume_cons]
    have hfirst : Agrees names (Progress.Touches lang names) (proceed inner lang depth f v) := by
      cases f with
      | fill d stack code => exact run_agrees hlang h hf.2 (hf.1.set d trivial)
      | push stack code => exact run_agrees hlang h hf.2 (hf.1.cons trivial)
      | truth => exact .pure trivial
      | assign path => exact .bind (.assign hf v) fun _ _ => .pure trivial
    refine .bind hfirst fun p hp => ?_
    cases p with
    | done v => exact ih hrest v
    | waiting frames on => exact .pure (List.forall_mem_append.mpr ⟨hp, hrest⟩)

theorem drive_agrees (hlang : lang.resolver = []) (hosts : Hosts) (levels fuel : Nat)
    {frames : List Frame} (hframes : ∀ f ∈ frames, f.Touches lang names) (on : Nat) :
    Agrees names (fun _ => True) (drive hosts levels fuel ⟨lang, frames, on⟩) := by
  induction fuel generalizing frames on with
  | zero => exact .exhausted
  | succ fuel ih =>
    obtain ⟨hawait, hsettle⟩ := waiting_apart hosts levels fuel
    refine .bind (.of_apart (hawait on)) fun v _ => ?_
    refine .bind (resume_agrees hlang (engine_agrees hlang hosts levels) hframes v) fun p hp => ?_
    cases p with
    | done v => exact .of_apart (hsettle v)
    | waiting frames on => exact ih hp on

end Machine

/-! ### Programs -/

/-- An expression that defines nothing, in a language without a resolver, depends on no variables
but the roots of its names: where these are the same, it has the same outcome, the host sees the same
calls in the same order, and these variables are the same afterwards; so it is at once, and when it
is waited for. -/
theorem evaluate_depends {lang : Language Value} {source : String} {e : Expr}
    (hlang : lang.Complete) (hresolver : lang.resolver = [])
    (he : parseExpr lang source = .ok e) (hdefines : e.definesNothing) (hosts : Hosts) (fuel : Nat)
    {w w' : World} (hw : w.Agrees (· ∈ e.roots) w') :
    ((e.evaluate hosts.traced fuel lang w').1 = (e.evaluate hosts.traced fuel lang w).1 ∧
      (e.evaluate hosts.traced fuel lang w).2.Agrees (· ∈ e.roots)
        (e.evaluate hosts.traced fuel lang w').2) ∧
    ((e.evaluate hosts.traced fuel lang >>= Progress.settle hosts.traced fuel lang) w').1 =
        ((e.evaluate hosts.traced fuel lang >>= Progress.settle hosts.traced fuel lang) w).1 ∧
      ((e.evaluate hosts.traced fuel lang >>= Progress.settle hosts.traced fuel lang) w).2.Agrees
        (· ∈ e.roots)
        ((e.evaluate hosts.traced fuel lang >>= Progress.settle hosts.traced fuel lang) w').2 := by
  have hcode := Expr.compile_touches hlang he hdefines
  have hevaluate := (Machine.engine_agrees hresolver hosts.traced fuel).enter 0 hcode
  have hsettle : ∀ p : Progress, p.Touches lang (· ∈ e.roots) →
      Eval.Agrees (· ∈ e.roots) (fun _ => True) (p.settle hosts.traced fuel lang) := by
    intro p hp
    cases p with
    | done v => exact .of_apart ((Machine.waiting_apart hosts.traced fuel fuel).2 v)
    | waiting frames on => exact Machine.drive_agrees hresolver hosts.traced fuel fuel hp on
  have hsettled := Eval.Agrees.bind hevaluate hsettle
  exact ⟨⟨(hevaluate w w' hw).1, (hevaluate w w' hw).2.2⟩, (hsettled w w' hw).1,
    (hsettled w w' hw).2.2⟩

/-- A program that assigns a member while it waits, and reads it back. -/
def storingSource : String := "y.a = postpone(x); z = y.a || x; z"

def storingWorld : World := World.start [("q", .string "a"), ("x", .string "b")] 101

/-- The same with other variables beside the one that the program reads. -/
def storingOtherWorld : World := World.start [("a", .bool true), ("x", .string "b")] 101

/-- The program does the same in both worlds, and leaves its variables the same. -/
theorem storing_depends : ∃ e, parseExpr postponingLanguage storingSource = .ok e ∧
    e.roots = ["y", "postpone", "x", "z", "y"] ∧
    ((e.evaluate postponingHosts.traced 50 postponingLanguage >>=
        Progress.settle postponingHosts.traced 50 postponingLanguage) storingOtherWorld).1 =
      ((e.evaluate postponingHosts.traced 50 postponingLanguage >>=
        Progress.settle postponingHosts.traced 50 postponingLanguage) storingWorld).1 ∧
    ((e.evaluate postponingHosts.traced 50 postponingLanguage >>=
        Progress.settle postponingHosts.traced 50 postponingLanguage) storingWorld).2.Agrees
      (· ∈ e.roots)
      ((e.evaluate postponingHosts.traced 50 postponingLanguage >>=
        Progress.settle postponingHosts.traced 50 postponingLanguage) storingOtherWorld).2 := by
  obtain ⟨e, he, hcode⟩ := exists_ok_of_map (show (parseExpr postponingLanguage
    storingSource).toOption.map (fun e => (e.roots, e.definesNothing)) =
      some (["y", "postpone", "x", "z", "y"], true) by decide +kernel)
  obtain ⟨hroots, hdefines⟩ := Prod.ext_iff.mp hcode
  have hlang : postponingLanguage.Complete :=
    Language.Extended.complete (g := .sound) (.add _ _ _ _ (.standard 0 {}))
  have hworlds : storingWorld.Agrees (· ∈ e.roots) storingOtherWorld := by
    refine ⟨?_, rfl, rfl, rfl, rfl⟩
    show ∀ name ∈ e.roots, _
    rw [show e.roots = _ from hroots]
    simp [storingWorld, storingOtherWorld, World.start, Record.get?]
  exact ⟨e, he, hroots, (evaluate_depends hlang rfl he hdefines postponingHosts 50 hworlds).2⟩

end Formula
