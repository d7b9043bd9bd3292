import Formula.Proofs.Waiting.Calls

/-!
# Programs whose hosts answer later

A program gives the same with hosts that answer at once and with hosts that answer later: the same
value or error, the same variables, and the same calls of the host in the same order.
-/

namespace Formula

open Waiting

variable {hosts later : Hosts} {lang : Language Value} {e : Expr} {w w₁ : World}
  {r : Except EvalError Value} {fuel : Nat}

/-- Evaluating and then settling comes to a result that the evaluation that does not wait has. -/
theorem Waiting.Follows.settles
    (h : Follows later lang (fun m => e.evaluate later m lang) w r w₁) (hr : Proper r) :
    ∃ w₂, World.Like False w₁ w₂ ∧
      Eventually (fun m => e.evaluate later m lang >>= Progress.settle later m lang) w
        (result r) w₂ := by
  have hready : ∀ v, r = .ok v → v.isDeferred = false := by
    rintro v rfl
    exact hr
  cases h with
  | @ends w' hlike hrun =>
    refine ⟨w', hlike, ?_⟩
    cases r with
    | error e => exact .bind_error _ hrun
    | ok v =>
      refine .bind_ok hrun ⟨1, fun m hm => ?_⟩
      obtain ⟨n, rfl⟩ : ∃ n, m = n + 1 := ⟨m - 1, by omega⟩
      have hsettle : Machine.settle later (n + 1) (n + 1) v = pure v :=
        settle_known (hready v rfl) (n + 1) n
      exact congrFun hsettle w'
  | @waits frames on w' hrun hpending =>
    obtain ⟨N, w₂, hlike, hdrive⟩ := hpending.yields hready (World.Extends.refl w')
    exact ⟨w₂, hlike, .bind_ok hrun ⟨N, fun m hm => hdrive m hm m hm⟩⟩

/-- A host that answers with the text of its first argument. -/
def echoHosts : Hosts := fun _ args => ⟨[], .value (.string (Operation.arg args 0).text)⟩

/-- The same host, with answers that are pending once and then promised again. -/
def laterEchoHosts : Hosts := fun _ args =>
  ⟨[], .promise (.noting [] (.nested (.value (.string (Operation.arg args 0).text))))⟩

def echoLanguage : Language Value := (Language.ofOptions 0 {}).add .functions "echo" 100 "echo"

/-- The text of the value that a run ends with. -/
def Waiting.shown : Except (Stop EvalError) Progress → Option String
  | .ok (.done v) => some v.text
  | _ => none

/-- The text of the value that a program settles to. -/
def Waiting.settledText (hosts : Hosts) (fuel : Nat) (lang : Language Value) (w : World)
    (e : Expr) : Option String :=
  ((e.evaluate hosts fuel lang >>= Progress.settle hosts fuel lang) w).1.toOption.map Value.text

end Formula
