import Formula.Proofs.Machine.Safety

/-!
# Worlds alike

Evaluations do not look at what is known of deferred values; only waiting does. Worlds are alike
when they agree in the rest, and where it counts, in how many deferred values they have. A blind
evaluation does the same in worlds alike.
-/

namespace Formula

/-- Worlds that differ only in what is known of deferred values. -/
structure World.Like (counted : Prop) (w w' : World) : Prop where
  scope : w'.scope = w.scope
  log : w'.log = w.log
  size : counted → w'.deferreds.size = w.deferreds.size
  nextId : w'.nextId = w.nextId
  seed : w'.seed = w.seed

namespace World.Like

variable {c : Prop} {w w' w'' : World}

theorem refl (c : Prop) (w : World) : Like c w w := ⟨rfl, rfl, fun _ => rfl, rfl, rfl⟩

theorem trans (h : Like c w w') (h' : Like c w' w'') : Like c w w'' :=
  ⟨h'.scope.trans h.scope, h'.log.trans h.log, fun hc => (h'.size hc).trans (h.size hc),
    h'.nextId.trans h.nextId, h'.seed.trans h.seed⟩

theorem symm (h : Like c w w') : Like c w' w :=
  ⟨h.scope.symm, h.log.symm, fun hc => (h.size hc).symm, h.nextId.symm, h.seed.symm⟩

theorem rescope (h : Like c w w') (scope : Bindings) :
    Like c { w with scope } { w' with scope } := ⟨rfl, h.log, h.size, h.nextId, h.seed⟩

theorem relog (h : Like c w w') (entries : List Value) :
    Like c { w with log := w.log ++ entries } { w' with log := w'.log ++ entries } :=
  ⟨h.scope, congrArg (· ++ entries) h.log, h.size, h.nextId, h.seed⟩

theorem reseed (h : Like c w w') (seed : UInt64) : Like c { w with seed } { w' with seed } :=
  ⟨h.scope, h.log, h.size, h.nextId, rfl⟩

theorem push (h : Like c w w') (d d' : Deferred) :
    Like c { w with deferreds := w.deferreds.push d }
      { w' with deferreds := w'.deferreds.push d' } := by
  refine ⟨h.scope, h.log, fun hc => ?_, h.nextId, h.seed⟩
  show (w'.deferreds.push d').size = (w.deferreds.push d).size
  rw [Array.size_push, Array.size_push, h.size hc]

end World.Like

/-- An evaluation that does the same in worlds alike. -/
def Blind {α : Type} (c : Prop) (x : Eval α) : Prop :=
  ∀ w w', World.Like c w w' → (x w').1 = (x w).1 ∧ World.Like c (x w).2 (x w').2

namespace Blind

open Eval

variable {α β : Type} {c : Prop}

theorem pure (a : α) : Blind c (Pure.pure a : Eval α) := fun _ _ h => ⟨rfl, h⟩

theorem fail (e : EvalError) : Blind c (Eval.fail e : Eval α) := fun _ _ h => ⟨rfl, h⟩

theorem exhausted : Blind c (Eval.exhausted : Eval α) := fun _ _ h => ⟨rfl, h⟩

theorem ofExcept (x : Except EvalError α) : Blind c (Eval.ofExcept x) := by
  cases x with
  | error e => exact Blind.fail e
  | ok a => exact Blind.pure a

theorem bind {x : Eval α} {f : α → Eval β} (hx : Blind c x) (hf : ∀ a, Blind c (f a)) :
    Blind c (x >>= f) := by
  intro w w' hw
  obtain ⟨hr, hs⟩ := hx w w' hw
  rcases hxw : x w with ⟨s | a, w₁⟩ <;> rcases hxw' : x w' with ⟨s' | a', w₁'⟩ <;>
    rw [hxw, hxw'] at hr hs <;> cases hr
  · rw [bind_of_error hxw, bind_of_error hxw']
    exact ⟨rfl, hs⟩
  · rw [bind_of_ok hxw, bind_of_ok hxw']
    exact hf a w₁ w₁' hs

theorem scope : Blind c Eval.scope := fun _ _ h => ⟨congrArg Except.ok h.scope, h⟩

theorem setScope (b : Bindings) : Blind c (Eval.setScope b) := fun _ _ h => ⟨rfl, h.rescope b⟩

theorem note (entries : List Value) : Blind c (Eval.note entries) :=
  fun _ _ h => ⟨rfl, h.relog entries⟩

theorem freshId : Blind c Eval.freshId := fun _ _ h =>
  ⟨congrArg Except.ok h.nextId, h.scope, h.log, h.size, congrArg (· + 1) h.nextId, h.seed⟩

theorem defer {c : Prop} (hc : c) (d : Deferred) : Blind c (Eval.defer d) :=
  fun _ _ h => ⟨congrArg Except.ok (h.size hc), h.push d d⟩

theorem random : Blind c Eval.random := by
  intro w w' h
  rw [random_eq, random_eq, h.seed]
  exact ⟨rfl, h.reseed _⟩

theorem assign (path : String) (v : Value) : Blind c (Eval.assign path v) :=
  Blind.bind Blind.scope fun _ => Blind.bind (Blind.ofExcept _) fun b => Blind.setScope b

theorem define (lang : Language Value) (name : String) (params : List String)
    (body : Program Value) : Blind c (Machine.define lang name params body) :=
  Blind.bind Blind.scope fun _ => Blind.bind Blind.freshId fun _ =>
    Blind.bind (Blind.setScope _) fun _ => Blind.pure _

theorem use (use : Machine.Use) (v : Value) : Blind c (use.apply v) := by
  cases use with
  | keep => exact Blind.pure v
  | truth => exact Blind.pure _
  | assign path => exact Blind.bind (Blind.assign path v) fun _ => Blind.pure v

theorem randomNumber (args : List Value) : Blind c (Machine.randomNumber args) :=
  Blind.bind Blind.random fun _ => Blind.pure _

end Blind

end Formula
