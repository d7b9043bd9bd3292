import Formula.Proofs.Machine.Safety
import Formula.Proofs.Machine.Steps

/-!
# Known values

A run that ends does so with a value that is not deferred and whose zero has no sign: what is
deferred is waited for as soon as it is on top of the stack.
-/

namespace Formula

/-- A value that is not deferred and that normalising does not change. -/
structure Value.Known (v : Value) : Prop where
  ready : v.isDeferred = false
  normal : v.normalise = v

theorem Value.known_normalise {v : Value} (h : v.isDeferred = false) : v.normalise.Known := by
  cases v with
  | number x =>
    simp only [normalise]
    split
    · refine ⟨rfl, ?_⟩
      simp only [normalise, ite_self]
    · next hx =>
      refine ⟨rfl, ?_⟩
      simp only [normalise, hx]
      rfl
  | deferred id => cases h
  | _ => exact ⟨rfl, rfl⟩

/-- A run whose value is known, if it ends. -/
def Progress.Known : Progress → Prop
  | .done v => v.Known
  | .waiting _ _ => True

namespace Eval

variable {α : Type}

/-- Evaluations of which only the result matters. -/
abbrev Gives (good : α → Prop) (x : Eval α) : Prop := Keeps (fun _ => True) (fun _ => True) good x

theorem Gives.any (x : Eval α) : Gives (fun _ => True) x := by
  intro w _
  refine ⟨trivial, ?_⟩
  rcases (x w).1 with (e | _) | a
  · trivial
  · trivial
  · trivial

end Eval

/-- An engine in which programs that end have known values. -/
def Engine.Knows (inner : Engine) : Prop :=
  ∀ lang depth code, Eval.Gives Progress.Known (inner.enter lang depth code)

namespace Machine

open Eval

variable {inner : Engine} {lang : Language Value} {depth : Nat}

theorem finish_known (hin : inner.Knows) {stack : List Operand}
    (htop : ∀ id below, stack ≠ .value (.deferred id) :: below) :
    Gives Progress.Known (finish inner lang depth stack) := by
  match stack, htop with
  | [], _ => exact Keeps.fail trivial
  | [.value v], htop =>
    have hv : v.isDeferred = false := by
      cases v with
      | deferred id => exact (htop id [] rfl).elim
      | _ => rfl
    exact Keeps.pure (Value.known_normalise hv)
  | [.thunk code], _ =>
    refine Keeps.bind (hin lang depth code) fun p hp => ?_
    cases p with
    | done v => exact Keeps.pure (Value.known_normalise hp.ready)
    | waiting frames on => exact Keeps.pure trivial
  | _ :: _ :: _, _ => exact Keeps.fail trivial

theorem run_known (hin : inner.Knows) (code : Program Value) {stack : List Operand}
    (htop : ∀ id below, stack ≠ .value (.deferred id) :: below) :
    Gives Progress.Known (run inner lang depth code stack) := by
  induction code generalizing stack with
  | nil => exact finish_known hin htop
  | cons i rest ih =>
    rw [run_cons]
    refine Keeps.bind (Gives.any _) fun r _ => ?_
    cases r with
    | suspended d frames on stack => exact Keeps.pure trivial
    | ready stack =>
      refine Keeps.bind (Gives.any _) fun p _ => ?_
      unfold afterStep
      split
      · exact Keeps.pure trivial
      · exact Keeps.pure trivial
      · next stack htop => exact ih htop

theorem engine_known (hosts : Hosts) (fuel : Nat) : (engine hosts fuel).Knows := by
  induction fuel with
  | zero => exact fun _ _ _ => Keeps.exhausted
  | succ fuel ih => exact fun _ _ code => run_known ih code fun id below h => by cases h

end Machine

end Formula
