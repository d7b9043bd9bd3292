import Formula.Proofs.Expr.Derived

/-!
# Sessions

A session is any number of requests one after the other: expressions are evaluated and made into
functions, functions are called, deferred values and suspended evaluations are waited for, and
variables are set. What a request works on was held before; what it gives is held afterwards. In
no session does a request end in an error of a malformed program.
-/

namespace Formula

open Eval

/-- What a request gives. -/
inductive Held where
  | value (v : Value)
  | suspended (s : Suspension)

/-- What is asked for in a session. -/
inductive Request where
  | evaluate (lang : Language Value) (e : Expr)
  /-- make a function of an expression -/
  | prepare (lang : Language Value) (e : Expr) (params : List String)
  | call (f : Function Value) (args : List Value)
  | settle (v : Value)
  /-- go on with an evaluation until it has a value -/
  | resume (s : Suspension)
  | bind (name : String) (v : Value)

namespace Request

def run (hosts : Hosts) (fuel : Nat) : Request → Eval Held
  | evaluate lang e => do
    match ← e.evaluate hosts fuel lang with
    | .done v => return .value v
    | .waiting frames on => return .suspended ⟨lang, frames, on⟩
  | prepare lang e params => do
    return .value (.function (← e.toFunction hosts fuel lang params))
  | call f args => return .value (← f.apply hosts fuel args)
  | settle v => return .value (← v.settle hosts fuel)
  | resume s => return .value (← Progress.settle hosts fuel s.language (.waiting s.frames s.on))
  | bind name v => do
    Eval.setScope (Record.insert (← Eval.scope) name v)
    return .value v

/-- A request for what is held, or for an expression of an extended language. -/
def Proper (held : List Held) : Request → Prop
  | evaluate lang e | prepare lang e _ => lang.Extended .sound ∧ e.Derived lang
  | call f args => .value (.function f) ∈ held ∧ ∀ v ∈ args, .value v ∈ held
  | settle v => .value v ∈ held
  | resume s => .suspended s ∈ held
  | bind _ v => .value v ∈ held

end Request

/-- The worlds of a session with what is held in them. -/
inductive Session (hosts : Hosts) : World → List Held → Prop
  | start {scope : Bindings} (id : Nat) :
      Bindings.Obeys .sound scope → Session hosts (World.start scope id) []
  /-- a value from outside -/
  | gain {w : World} {held : List Held} {v : Value} :
      v.Obeys .sound → Session hosts w held → Session hosts w (.value v :: held)
  | read {w : World} {held : List Held} {name : String} {v : Value} :
      Record.get? w.scope name = some v → Session hosts w held →
      Session hosts w (.value v :: held)
  | given {w w' : World} {held : List Held} {q : Request} {fuel : Nat} {h : Held} :
      q.Proper held → q.run hosts fuel w = (.ok h, w') → Session hosts w held →
      Session hosts w' (h :: held)
  | failed {w w' : World} {held : List Held} {q : Request} {fuel : Nat} {s : Stop EvalError} :
      q.Proper held → q.run hosts fuel w = (.error s, w') → Session hosts w held →
      Session hosts w' held

/-- What is held of sound values and programs. -/
def Held.Sound : Held → Prop
  | .value v => v.Obeys .sound
  | .suspended s => s.language.Obeys .sound ∧ ∀ f ∈ s.frames, f.Sound .sound s.language

section

variable {hosts : Hosts} (hhosts : hosts.Sound .sound)

include hhosts

theorem Request.run_safe {q : Request} {held : List Held} (hheld : ∀ h ∈ held, h.Sound)
    (hq : q.Proper held) (fuel : Nat) : Safe .sound Held.Sound (q.run hosts fuel) := by
  have hin := Machine.engine_sound (Guard.code_lawful True) hhosts fuel
  have hwait := Machine.waiting_safe (Guard.code_lawful True) hhosts fuel fuel
  cases q with
  | evaluate lang e =>
    obtain ⟨hlang, he⟩ := hq
    have hcode := Expr.compile_sound (he.obeys hlang)
    refine Keeps.bind (hin.enter hlang.obeys hcode) fun p hp => ?_
    cases p with
    | done v => exact Keeps.pure hp
    | waiting frames on => exact Keeps.pure ⟨hlang.obeys, hp⟩
  | prepare lang e params =>
    obtain ⟨hlang, he⟩ := hq
    exact Keeps.bind (Expr.toFunction_safe hhosts fuel hlang.obeys (he.obeys hlang) params)
      fun f hf => Keeps.pure (Value.Obeys.function hf)
  | call f args =>
    have hf : (Value.function f).Obeys .sound := hheld _ hq.1
    have hargs : ∀ v ∈ args, v.Obeys .sound := fun v hv => hheld _ (hq.2 v hv)
    exact Keeps.bind (hin.call hf.ofFunction hargs) fun v hv => Keeps.pure hv
  | settle v => exact Keeps.bind (hwait.2.1 v (hheld _ hq)) fun v hv => Keeps.pure hv
  | resume s =>
    obtain ⟨hlang, hframes⟩ := hheld _ hq
    exact Keeps.bind (hwait.2.2 ⟨s.language, s.frames, s.on⟩ hlang hframes) fun v hv =>
      Keeps.pure hv
  | bind name v =>
    have hv : v.Obeys .sound := hheld _ hq
    refine Keeps.bind safe_scope fun scope hscope => ?_
    exact Keeps.bind (safe_setScope (hscope.insert name hv)) fun _ _ => Keeps.pure hv

theorem Session.sound {w : World} {held : List Held} (h : Session hosts w held) :
    w.Sound .sound ∧ ∀ x ∈ held, x.Sound := by
  induction h with
  | start id hscope =>
    exact ⟨⟨hscope, fun d hd => (Array.not_mem_empty d hd).elim⟩,
      fun x hx => (List.not_mem_nil hx).elim⟩
  | gain hv _ ih => exact ⟨ih.1, List.forall_mem_cons.mpr ⟨hv, ih.2⟩⟩
  | read hv _ ih => exact ⟨ih.1, List.forall_mem_cons.mpr ⟨ih.1.scope.get? hv, ih.2⟩⟩
  | @given w w' held q fuel x hq hrun _ ih =>
    have hsafe := Request.run_safe hhosts ih.2 hq fuel w ih.1
    rw [hrun] at hsafe
    exact ⟨hsafe.1, List.forall_mem_cons.mpr ⟨hsafe.2, ih.2⟩⟩
  | @failed w w' held q fuel s hq hrun _ ih =>
    have hsafe := Request.run_safe hhosts ih.2 hq fuel w ih.1
    rw [hrun] at hsafe
    exact ⟨hsafe.1, ih.2⟩

end

/-- No request of a session ends in an error of a malformed program. -/
theorem session_never_malformed {hosts : Hosts} (hhosts : hosts.Sound .sound) {w : World}
    {held : List Held} (hs : Session hosts w held) {q : Request} (hq : q.Proper held) (fuel : Nat) :
    ¬∃ e, (q.run hosts fuel w).1 = .error (.error e) ∧ e.Malformed := by
  rintro ⟨e, he, hbad⟩
  obtain ⟨hw, hheld⟩ := hs.sound hhosts
  have hend := (Request.run_safe hhosts hheld hq fuel w hw).2
  rw [he] at hend
  exact hend trivial hbad

/-- A host with one function, whose value comes later. -/
def laterHosts : Hosts := fun _ _ => ⟨[], .promise (.value (.string "a"))⟩

def laterLanguage : Language Value := (Language.ofOptions 0 {}).add .functions "later" 100 "later"

/-- A case block with sequences of statements, in a function that waits for its host. -/
def laterSource : String :=
  "f(x) = (y = later(); case x when y then (z = y; z) else later() end); f('a')"

theorem later_never_malformed : ∃ e, parseExpr laterLanguage laterSource = .ok e ∧
    ¬∃ err, ((Request.evaluate laterLanguage e).run laterHosts 50 (World.start [] 101)).1 =
      .error (.error err) ∧ err.Malformed := by
  have hparses : (parseExpr laterLanguage laterSource).isOk = true := by decide +kernel
  cases he : parseExpr laterLanguage laterSource with
  | error _ =>
    rw [he] at hparses
    cases hparses
  | ok e =>
    have hhosts : laterHosts.Sound .sound := fun _ _ _ => Value.Obeys.string "a"
    have hlang : laterLanguage.Extended .sound := .add _ _ _ _ (.standard 0 {})
    have hstart : Session laterHosts (World.start [] 101) [] :=
      .start 101 fun _ h => (List.not_mem_nil h).elim
    have hq : (Request.evaluate laterLanguage e).Proper [] := ⟨hlang, .parsed he⟩
    exact ⟨e, rfl, session_never_malformed hhosts hstart hq 50⟩

end Formula
