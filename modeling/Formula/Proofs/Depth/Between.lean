import Formula.Proofs.Depth.Shadowed
import Formula.Proofs.Termination
import Formula.Proofs.Waiting.Later

/-!
# The call depth between waits

A call that is suspended gives back a deferred value and is not active any more; when it is gone on
with, depths count from zero again. So the limit is one on the calls that are active at the same
time between two waits, and no limit on the calls that wait for one another.
-/

namespace Formula

namespace Machine

open Eval

variable {d depth : Nat}

/-! ### Waiting -/

section

variable (hosts : Hosts) (levels : Nat)

mutual

/-- Waits for a deferred value, with calls of functions of formulas watched. -/
def watchedAwait : (fuel : Nat) → (id : Nat) → Eval Value
  | 0, _ => Eval.exhausted
  | fuel + 1, id => do
    match (← get).deferreds[id]? with
    | none => Eval.exhausted
    | some (.settled result) => do watchedSettle fuel (← Eval.ofExcept result)
    | some (.promised p) => do watchedSettle fuel (← recording id (ask p))
    | some (.suspended scope lang frames on) =>
      recording id (Eval.inScope scope (watchedDrive fuel ⟨lang, frames, on⟩))

def watchedSettle : (fuel : Nat) → Value → Eval Value
  | 0, _ => Eval.exhausted
  | fuel + 1, v =>
    match v with
    | .deferred id => watchedAwait fuel id
    | v => pure v

def watchedDrive : (fuel : Nat) → Suspension → Eval Value
  | 0, _ => Eval.exhausted
  | fuel + 1, s => do
    let v ← watchedAwait fuel s.on
    match ← resume (watchedEngine hosts levels) s.language 0 s.frames v with
    | .done v => watchedSettle fuel v
    | .waiting frames on => watchedDrive fuel ⟨s.language, frames, on⟩

end

end

theorem ask_shadowed (hd : depth ≤ d) (p : Promise) : Shadowed d depth (ask p.silent) (ask p) := by
  induction p with
  | value v => exact .pure hd v
  | error e => exact .fail hd e
  | noting entries next ih =>
    exact fun w w' hsound hw => ih w _ ⟨hsound.scope, hsound.deferreds⟩
      (hw.relog w.log (w'.log ++ entries))
  | nested p _ => exact enterPromise_shadowed hd p

theorem recording_shadowed (id : Nat) {x y : Eval Value} (h : Shadowed d depth x y) :
    Shadowed d depth (recording id x) (recording id y) := by
  intro w w' hsound hw
  obtain ⟨hout, hworld, hmarks⟩ := h w w' hsound hw
  unfold recording
  rcases hx : x w with ⟨o, w₁⟩
  rcases hy : y w' with ⟨o', w₁'⟩
  rw [hx] at hout hworld hmarks
  rw [hy] at hout hworld hmarks
  obtain rfl : o = o' := hout
  match o, hmarks with
  | .ok v, hmarks => exact ⟨rfl, hworld.record id (.ok v), hmarks⟩
  | .error (.error e), hmarks => exact ⟨rfl, hworld.record id (.error e), hmarks⟩
  | .error .exhausted, hmarks => exact ⟨rfl, hworld, hmarks⟩

/-- Waiting is watched: for a deferred value, for a value that may be deferred, for a suspension. -/
theorem waiting_shadowed {hosts : Hosts} (hhosts : hosts.Sound (.limited d)) (levels fuel : Nat) :
    (∀ id, Shadowed d 0 (watchedAwait hosts.silent levels fuel id) (await hosts levels fuel id)) ∧
      (∀ v : Value, v.Obeys (.limited d) →
        Shadowed d 0 (watchedSettle hosts.silent levels fuel v) (settle hosts levels fuel v)) ∧
      ∀ s : Suspension, s.language.Obeys (.limited d) →
        (∀ f ∈ s.frames, f.Sound (.limited d) s.language) →
          Shadowed d 0 (watchedDrive hosts.silent levels fuel s) (drive hosts levels fuel s) := by
  have hd : 0 ≤ d := Nat.zero_le d
  induction fuel with
  | zero =>
    exact ⟨fun _ => .exhausted hd, fun _ _ => .exhausted hd, fun _ _ _ => .exhausted hd⟩
  | succ fuel ih =>
    obtain ⟨hawait, hsettle, hdrive⟩ := ih
    obtain ⟨hawaits, -, -⟩ := waiting_safe (Guard.limited_lawful d) hhosts levels fuel
    refine ⟨fun id w w' hsound hw => ?_, fun v hv => ?_, fun s hlang hframes => ?_⟩
    · have hget : ∀ w : World, (get : Eval World) w = (.ok w, w) := fun _ => rfl
      rw [watchedAwait, await, bind_of_ok (hget w), bind_of_ok (hget w'), hw.entry id]
      cases hentry : w'.deferreds[id]? with
      | none => exact Shadowed.exhausted hd w w' hsound hw
      | some entry =>
        have hentrySound := hsound.deferreds entry (Array.mem_of_getElem? hentry)
        cases entry with
        | settled r =>
          have hr : Meets (Value.Obeys (.limited d)) (Guard.limited d).Mild r := by
            cases r with
            | ok v => exact hentrySound
            | error e => exact hentrySound
          exact Shadowed.bind (.ofExcept hd r) (Keeps.ofExcept hr) hsettle w w' hsound hw
        | promised p =>
          exact Shadowed.bind (recording_shadowed id (ask_shadowed hd p))
            (recording_safe id (ask_safe hentrySound)) hsettle w w' hsound hw
        | suspended scope lang frames on =>
          obtain ⟨hscope, hlang, hframes⟩ := hentrySound
          exact recording_shadowed id (.inScope scope hscope (hdrive ⟨lang, frames, on⟩ hlang
            hframes)) w w' hsound hw
    · cases v with
      | deferred id => exact hawait id
      | _ => exact .pure hd _
    · have hin := engine_shadowed hhosts levels
      refine .bind (hawait s.on) (hawaits s.on) fun v hv => ?_
      refine .bind (resume_shadowed hin hd hlang hframes hv)
        (resume_safe hin.sound hlang hframes hv) fun p hp => ?_
      cases p with
      | done v => exact hsettle v hp
      | waiting frames on => exact hdrive ⟨s.language, frames, on⟩ hlang hp

end Machine

open Machine Waiting

/-- Evaluates an expression and waits for its value, with calls of functions of formulas watched. -/
def Expr.watched (hosts : Hosts) (fuel : Nat) (lang : Language Value) (e : Expr) : Eval Value := do
  match ← (watchedEngine hosts fuel).enter lang 0 e.compile with
  | .done v => watchedSettle hosts fuel fuel v
  | .waiting frames on => watchedDrive hosts fuel fuel ⟨lang, frames, on⟩

/-- The greatest number of calls of functions of formulas that are active at the same time until an
expression is settled. A call that is suspended is not active. -/
def Expr.activeUntilSettled (hosts : Hosts) (fuel : Nat) (lang : Language Value) (e : Expr)
    (w : World) : Nat :=
  peak 0 (e.watched hosts.silent fuel lang w.silent).2.log

section

variable {d : Nat} {hosts : Hosts} {lang : Language Value} {source : String} {e : Expr} {w : World}

/-- Where all languages have one limit, a program that has more calls active at the same time than
the limit allows, before or after any wait, settles to the error that names the limit. Being watched
changes no outcome. -/
theorem settled_limited (hlang : lang.Extended (.limited d))
    (hlimit : lang.options.maxCallDepth = d) (he : parseExpr lang source = .ok e)
    (hhosts : hosts.Sound (.limited d)) (hw : w.Sound (.limited d)) (fuel : Nat) :
    (e.watched hosts.silent fuel lang w.silent).1 =
        ((e.evaluate hosts fuel lang >>= Progress.settle hosts fuel lang) w).1 ∧
      (d < e.activeUntilSettled hosts fuel lang w →
        ((e.evaluate hosts fuel lang >>= Progress.settle hosts fuel lang) w).1 =
          .error (.error (.callDepth d))) := by
  have hd : 0 ≤ d := Nat.zero_le d
  have hadmits : Expr.Admits (.limited d) lang := fun _ _ _ _ => hlimit
  have hemits := hlang.emits_obeys fun _ _ _ => trivial
  have hcode : Program.Obeys (.limited d) lang e.compile :=
    ⟨hlimit, Expr.compile_obeys hadmits e (parseExpr_all hlang.complete hemits he)⟩
  have hin := engine_shadowed hhosts fuel
  obtain ⟨-, hsettle, hdrive⟩ := waiting_shadowed hhosts fuel fuel
  have hshadowed : Eval.Shadowed d 0 (e.watched hosts.silent fuel lang)
      (e.evaluate hosts fuel lang >>= Progress.settle hosts fuel lang) := by
    refine .bind (hin.enter hd hlang.obeys hcode) (hin.sound.enter hlang.obeys hcode) fun p hp => ?_
    cases p with
    | done v => exact hsettle v hp
    | waiting frames on => exact hdrive ⟨lang, frames, on⟩ hlang.obeys hp
  obtain ⟨hout, -, marks, -, hlog, hdeep⟩ := hshadowed w.silent w hw (.silent w)
  refine ⟨hout, fun hlt => hdeep ?_⟩
  rw [Expr.activeUntilSettled, hlog] at hlt
  exact hlt

end

/-- The language with an echo, in which two calls may be nested. -/
def shallowEcho : Language Value :=
  (Language.ofOptions 0 { maxCallDepth := 2 }).add .functions "echo" 100 "echo"

/-- A recursion that begins after a wait. -/
def afterwardsSource : String := "f(x) = x == 'aa' ? x : f(x || 'a'); f(echo(''))"

theorem afterwards_limited : ∃ e, parseExpr shallowEcho afterwardsSource = .ok e ∧
    2 < e.activeUntilSettled laterEchoHosts 20 shallowEcho (World.start [] 101) ∧
    ((e.evaluate laterEchoHosts 20 shallowEcho >>= Progress.settle laterEchoHosts 20 shallowEcho)
      (World.start [] 101)).1 = .error (.error (.callDepth 2)) := by
  have hactive : (parseExpr shallowEcho afterwardsSource).toOption.map (fun e =>
      decide (2 < e.activeUntilSettled laterEchoHosts 20 shallowEcho (World.start [] 101))) =
      some true := by
    decide +kernel
  obtain ⟨e, he, hdecide⟩ := exists_ok_of_map hactive
  have hdeep := of_decide_eq_true hdecide
  have hlang : shallowEcho.Extended (.limited 2) := .add _ _ _ _ (.standard 0 _)
  have hstart : (World.start [] 101).Sound (.limited 2) :=
    ⟨List.forall_mem_nil _, fun d hd => (Array.not_mem_empty d hd).elim⟩
  have hhosts : laterEchoHosts.Sound (.limited 2) := fun _ _ _ => Value.Obeys.string _
  exact ⟨e, he, hdeep, (settled_limited hlang rfl he hhosts hstart 20).2 hdeep⟩

/-- Whether a deferred value is a call that has not been settled. -/
def Deferred.isSuspended : Deferred → Bool
  | .suspended .. => true
  | _ => false

/-- How many calls are suspended and not settled. -/
def World.suspended (w : World) : Nat := (w.deferreds.toList.filter Deferred.isSuspended).length

/-- A recursion that waits in every call. -/
def waitingSource : String := "f(x) = echo(x) == 'aaa' ? 'end' : f(x || 'a'); f('')"

/-- The limit does not count calls that are suspended. Under a limit of two, four calls wait for one
another, as a wait that is cut short shows, and the program settles to a value; where the host
answers at once the same program is refused. -/
theorem suspended_not_limited : ∃ e, parseExpr shallowEcho waitingSource = .ok e ∧
    ((e.evaluate laterEchoHosts 13 shallowEcho >>= Progress.settle laterEchoHosts 13 shallowEcho)
      (World.start [] 101)).2.suspended = 4 ∧
    settledText laterEchoHosts 20 shallowEcho (World.start [] 101) e = some "end" ∧
    (e.evaluate echoHosts 20 shallowEcho (World.start [] 101)).1 =
      .error (.error (.callDepth 2)) := by
  have hshown : (parseExpr shallowEcho waitingSource).toOption.map (fun e =>
      (((e.evaluate laterEchoHosts 13 shallowEcho >>=
          Progress.settle laterEchoHosts 13 shallowEcho) (World.start [] 101)).2.suspended,
        settledText laterEchoHosts 20 shallowEcho (World.start [] 101) e,
        tooDeep? (e.evaluate echoHosts 20 shallowEcho (World.start [] 101)).1)) =
      some (4, some "end", some 2) := by
    decide +kernel
  obtain ⟨e, he, hpair⟩ := exists_ok_of_map hshown
  obtain ⟨hsuspended, hrest⟩ := Prod.mk.inj hpair
  obtain ⟨hsettled, hdeep⟩ := Prod.mk.inj hrest
  exact ⟨e, he, hsuspended, hsettled, eq_of_tooDeep? hdeep⟩

end Formula
