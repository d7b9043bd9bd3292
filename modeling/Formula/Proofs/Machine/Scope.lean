import Formula.Proofs.Machine.Sound
import Formula.Proofs.Machine.Steps

/-!
# Calls are apart from the variables in scope

A function is called in a scope of its own, and a suspended call goes on in its own scope. So a call
or a wait does the same whatever variables are in scope, and leaves them as they are, also after a
failure.
-/

namespace Formula

namespace Eval

variable {α β : Type}

/-- An evaluation that leaves the variables in scope as they are. -/
def Scoped (x : Eval α) : Prop := ∀ w, (x w).2.scope = w.scope

/-- An evaluation that neither reads nor changes the variables in scope. -/
def Apart (x : Eval α) : Prop :=
  ∀ w b, x { w with scope := b } = ((x w).1, { (x w).2 with scope := b })

namespace Apart

theorem pure (a : α) : Apart (Pure.pure a : Eval α) := fun _ _ => rfl

theorem fail (e : EvalError) : Apart (Eval.fail e : Eval α) := fun _ _ => rfl

theorem exhausted : Apart (Eval.exhausted : Eval α) := fun _ _ => rfl

theorem ofExcept (x : Except EvalError α) : Apart (Eval.ofExcept x) := by
  cases x with
  | error e => exact fail e
  | ok a => exact pure a

theorem bind {x : Eval α} {f : α → Eval β} (hx : Apart x) (hf : ∀ a, Apart (f a)) :
    Apart (x >>= f) := by
  intro w b
  have hb := hx w b
  rcases bind_cases x f w with ⟨a, w', hxw, hbind⟩ | ⟨s, w', hxw, hbind⟩
  · rw [hxw] at hb
    rw [hbind, bind_of_ok hb]
    exact hf a w' b
  · rw [hxw] at hb
    rw [hbind, bind_of_error hb]

/-- An evaluation that reads the state, but not the variables in scope. -/
theorem reading {f : World → Eval α} (hf : ∀ w, Apart (f w))
    (hscope : ∀ w b, f { w with scope := b } = f w) : Apart (get >>= f) := by
  intro w b
  show f { w with scope := b } { w with scope := b } = _
  rw [hscope]
  exact hf w w b

theorem note (entries : List Value) : Apart (Eval.note entries) := fun _ _ => rfl

theorem defer (d : Deferred) : Apart (Eval.defer d) := fun _ _ => rfl

theorem random : Apart Eval.random := fun w b => by
  rw [random_eq, random_eq]

theorem inScope (b : Bindings) (x : Eval α) : Apart (Eval.inScope b x) := fun _ _ => rfl

end Apart

namespace Scoped

theorem of_apart {x : Eval α} (hx : Apart x) : Scoped x :=
  fun w => congrArg (fun r => r.2.scope) (hx w w.scope)

theorem bind {x : Eval α} {f : α → Eval β} (hx : Scoped x) (hf : ∀ a, Scoped (f a)) :
    Scoped (x >>= f) := by
  intro w
  have hw := hx w
  rcases bind_cases x f w with ⟨a, w', hxw, hb⟩ | ⟨s, w', hxw, hb⟩
  · rw [hxw] at hw
    rw [hb, hf a w', hw]
  · rw [hxw] at hw
    rw [hb, hw]

theorem ofExcept (x : Except EvalError α) : Scoped (Eval.ofExcept x) := of_apart (.ofExcept x)

theorem scope : Scoped Eval.scope := fun _ => rfl

end Scoped

end Eval

namespace Machine

open Eval

/-- An engine whose calls leave the variables in scope as they are. -/
def Restores (inner : Engine) : Prop := ∀ depth f args, Scoped (inner.call depth f args)

/-- An engine whose calls neither read nor change the variables in scope. -/
def CallsApart (inner : Engine) : Prop := ∀ depth f args, Apart (inner.call depth f args)

variable {inner : Engine} {depth : Nat}

theorem enterPromise_apart (p : Promise) : Apart (enterPromise p) :=
  .bind (.defer _) fun _ => .pure _

theorem mapItems_apart (h : CallsApart inner) (f : Function Value) (i : Nat) (items : List Value) :
    Apart (mapItems inner depth f i items) := by
  induction items generalizing i with
  | nil => exact .pure _
  | cons x rest ih => exact .bind (h depth f _) fun y => .bind (ih (i + 1)) fun ys => .pure _

theorem filterItems_apart (h : CallsApart inner) (f : Function Value) (i : Nat)
    (items : List Value) : Apart (filterItems inner depth f i items) := by
  induction items generalizing i with
  | nil => exact .pure _
  | cons x rest ih => exact .bind (h depth f _) fun y => .bind (ih (i + 1)) fun ys => .pure _

theorem foldItems_apart (h : CallsApart inner) (f : Function Value) (i : Nat) (acc : Value)
    (items : List Value) : Apart (foldItems inner depth f i acc items) := by
  induction items generalizing i acc with
  | nil => exact .pure _
  | cons x rest ih => exact .bind (h depth f _) fun y => ih (i + 1) y

theorem traverse_apart (h : CallsApart inner) (t : Traversal) (args : List Value) :
    Apart (traverse inner depth t args) := by
  cases t with
  | map =>
    simp only [traverse]
    split
    · exact .pure _
    · exact .bind (.ofExcept _) fun p => .bind (mapItems_apart h p.1 0 p.2) fun _ => .pure _
  | filter =>
    simp only [traverse]
    split
    · exact .pure _
    · exact .bind (.ofExcept _) fun p => .bind (filterItems_apart h p.1 0 p.2) fun _ => .pure _
  | fold =>
    simp only [traverse]
    split
    · exact .pure _
    · exact .bind (.ofExcept _) fun p => foldItems_apart h p.1 0 _ p.2

theorem callNative_apart (h : CallsApart inner) (hosts : Hosts) (f : Native) (args : List Value) :
    Apart (callNative inner depth hosts f args) := by
  unfold callNative
  cases f.action with
  | operation op => exact .ofExcept _
  | traversal t => exact traverse_apart h t args
  | random => exact .bind .random fun _ => .pure _
  | host key =>
    refine .bind (.note _) fun _ => ?_
    cases (hosts key args).answer with
    | value v => exact .pure v
    | error e => exact .fail e
    | promise p => exact enterPromise_apart p
    | call g args => exact h depth g args

theorem enterBody_apart (c : Closure Value) (scope : Bindings) :
    Apart (enterBody inner depth c scope) := .inScope _ _

theorem call_apart (h : CallsApart inner) (hosts : Hosts) (f : Function Value)
    (args : List Value) : Apart (call inner depth hosts f args) := by
  cases f with
  | native g => exact callNative_apart h hosts g args
  | defined c =>
    simp only [call]
    split
    · exact enterBody_apart c _
    · exact .fail _
  | prepared c => exact enterBody_apart c _

theorem engine_apart (hosts : Hosts) (fuel : Nat) : CallsApart (engine hosts fuel) := by
  induction fuel with
  | zero => exact fun _ _ _ => .exhausted
  | succ fuel ih => exact fun _ f args => call_apart ih hosts f args

theorem engine_restores (hosts : Hosts) (fuel : Nat) : Restores (engine hosts fuel) :=
  fun depth f args => .of_apart (engine_apart hosts fuel depth f args)

/-! ### Waiting -/

theorem ask_apart (p : Promise) : Apart (ask p) := by
  induction p with
  | value v => exact .pure v
  | error e => exact .fail e
  | noting entries next ih => exact .bind (.note entries) fun _ => ih
  | nested p _ => exact enterPromise_apart p

theorem recording_apart (id : Nat) {x : Eval Value} (h : Apart x) : Apart (recording id x) := by
  intro w b
  have hb := h w b
  rcases hx : x w with ⟨(e | _) | v, w'⟩ <;> rw [hx] at hb <;> simp only [recording, hb, hx] <;> rfl

theorem waiting_apart (hosts : Hosts) (levels fuel : Nat) :
    (∀ id, Apart (await hosts levels fuel id)) ∧ ∀ v, Apart (settle hosts levels fuel v) := by
  induction fuel with
  | zero => exact ⟨fun _ => .exhausted, fun _ => .exhausted⟩
  | succ fuel ih =>
    obtain ⟨hawait, hsettle⟩ := ih
    refine ⟨fun id => .reading (fun w => ?_) fun _ _ => rfl, fun v => ?_⟩
    · cases w.deferreds[id]? with
      | none => exact .exhausted
      | some d =>
        cases d with
        | settled r => exact .bind (.ofExcept r) fun v => hsettle v
        | promised p => exact .bind (recording_apart id (ask_apart p)) fun v => hsettle v
        | suspended scope lang frames on => exact recording_apart id (.inScope scope _)
    · cases v with
      | deferred id => exact hawait id
      | _ => exact .pure _

theorem waiting_scoped (hosts : Hosts) (levels fuel : Nat) :
    (∀ id, Scoped (await hosts levels fuel id)) ∧ ∀ v, Scoped (settle hosts levels fuel v) :=
  ⟨fun id => .of_apart ((waiting_apart hosts levels fuel).1 id),
    fun v => .of_apart ((waiting_apart hosts levels fuel).2 v)⟩

end Machine

end Formula
