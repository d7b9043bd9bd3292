import Formula.Machine.Await
import Formula.Proofs.Outcome
import Formula.Proofs.Machine.Steps

/-!
# Enough fuel

An evaluation that does not run out of levels or fuel does the same with more of either. Only
entering a program, calling a function and waiting use them up, so the steps of the machine are
compared for two engines that agree as far as the first one gets.
-/

namespace Formula

namespace Eval

variable {α β : Type}

/-- An evaluation that agrees with another one wherever that one does not run out of fuel. -/
def Below (x y : Eval α) : Prop := ∀ w, (x w).1 ≠ .error .exhausted → y w = x w

namespace Below

theorem refl (x : Eval α) : Below x x := fun _ _ => rfl

theorem trans {x y z : Eval α} (hxy : Below x y) (hyz : Below y z) : Below x z := by
  intro w h
  have hy : y w = x w := hxy w h
  rw [← hy] at h ⊢
  exact hyz w h

theorem exhausted (y : Eval α) : Below Eval.exhausted y := fun _ h => (h rfl).elim

theorem bind {x y : Eval α} {f g : α → Eval β} (hxy : Below x y) (hfg : ∀ a, Below (f a) (g a)) :
    Below (x >>= f) (y >>= g) := by
  intro w h
  rcases bind_cases x f w with ⟨a, w', hx, hb⟩ | ⟨s, w', hx, hb⟩
  · have hy : y w = x w := hxy w (by simp [hx])
    rw [hb] at h
    rw [hb, bind_of_ok (hy.trans hx)]
    exact hfg a w' h
  · have hs : s ≠ .exhausted := by
      rintro rfl
      simp [hb] at h
    have hy : y w = x w := hxy w (by simpa [hx] using hs)
    rw [hb, bind_of_error (hy.trans hx)]

theorem after {x : Eval α} {f g : α → Eval β} (hfg : ∀ a, Below (f a) (g a)) :
    Below (x >>= f) (x >>= g) := bind (refl x) hfg

theorem inScope (scope : Bindings) {x y : Eval α} (hxy : Below x y) :
    Below (Eval.inScope scope x) (Eval.inScope scope y) := by
  intro w h
  have hy := hxy { w with scope } h
  simp only [Eval.inScope, hy]

end Below

end Eval

/-- An engine that agrees with another one wherever that one does not run out of levels. -/
structure Engine.Below (inner inner' : Engine) : Prop where
  enter : ∀ lang depth code, Eval.Below (inner.enter lang depth code) (inner'.enter lang depth code)
  call : ∀ depth f args, Eval.Below (inner.call depth f args) (inner'.call depth f args)

namespace Machine

open Eval

variable {inner inner' : Engine} {lang : Language Value} {depth : Nat}

/-! ### Running -/

theorem resolve_below (h : inner.Below inner') (o : Operand) :
    Below (resolve inner lang depth o) (resolve inner' lang depth o) := by
  cases o with
  | value v => exact .refl _
  | thunk code => exact h.enter lang depth code

theorem force_below (h : inner.Below inner') (ds : List Nat) (stack : List Operand) :
    Below (force inner lang depth ds stack) (force inner' lang depth ds stack) := by
  induction ds generalizing stack with
  | nil => exact .refl _
  | cons d rest ih =>
    cases hd : stack[d]? with
    | none =>
      simp only [force, hd]
      exact .refl _
    | some o =>
      cases o with
      | value v =>
        cases v with
        | deferred id =>
          simp only [force, hd]
          exact .refl _
        | _ =>
          simp only [force, hd]
          exact ih stack
      | thunk code =>
        rw [force_thunk hd, force_thunk hd]
        refine .bind (h.enter lang depth code) fun p => ?_
        cases p with
        | done v => exact ih _
        | waiting frames on => exact .refl _

theorem perform_below (h : inner.Below inner') (p : Plan) :
    Below (perform inner lang depth p) (perform inner' lang depth p) := by
  cases p with
  | next stack => exact .refl _
  | resolve o use stack =>
    refine .bind (resolve_below h o) fun p => ?_
    cases p with
    | done v => exact .refl _
    | waiting frames on => exact .refl _
  | call f args stack => exact .bind (h.call depth f args) fun v => .refl _
  | define name params body stack => exact .refl _

theorem step_below (h : inner.Below inner') (i : Instruction Value) (stack : List Operand) :
    Below (step inner lang depth i stack) (step inner' lang depth i stack) :=
  .after fun _ => .after fun p => perform_below h p

theorem finish_below (h : inner.Below inner') (stack : List Operand) :
    Below (finish inner lang depth stack) (finish inner' lang depth stack) := by
  match stack with
  | [] => exact .refl _
  | [o] =>
    refine .bind (resolve_below h o) fun p => ?_
    cases p with
    | done v => exact .refl _
    | waiting frames on => exact .refl _
  | _ :: _ :: _ => exact .refl _

theorem run_below (h : inner.Below inner') (code : Program Value) (stack : List Operand) :
    Below (run inner lang depth code stack) (run inner' lang depth code stack) := by
  induction code generalizing stack with
  | nil => exact finish_below h stack
  | cons i rest ih =>
    rw [run_cons, run_cons]
    refine .bind (force_below h _ stack) fun r => ?_
    cases r with
    | suspended d frames on stack => exact .refl _
    | ready stack =>
      refine .bind (step_below h i stack) fun s => ?_
      unfold afterStep
      split
      · exact .refl _
      · exact .refl _
      · exact ih _

theorem proceed_below (h : inner.Below inner') (f : Frame) (v : Value) :
    Below (proceed inner lang depth f v) (proceed inner' lang depth f v) := by
  cases f with
  | fill d stack code => exact run_below h code _
  | push stack code => exact run_below h code _
  | truth => exact .refl _
  | assign path => exact .refl _

theorem resume_below (h : inner.Below inner') (frames : List Frame) (v : Value) :
    Below (resume inner lang depth frames v) (resume inner' lang depth frames v) := by
  induction frames generalizing v with
  | nil => exact .refl _
  | cons f rest ih =>
    rw [resume_cons, resume_cons]
    refine .bind (proceed_below h f v) fun p => ?_
    cases p with
    | done v => exact ih v
    | waiting frames on => exact .refl _

/-! ### Calls -/

theorem mapItems_below (h : inner.Below inner') (f : Function Value) (i : Nat)
    (items : List Value) :
    Below (mapItems inner depth f i items) (mapItems inner' depth f i items) := by
  induction items generalizing i with
  | nil => exact .refl _
  | cons x rest ih =>
    exact .bind (h.call depth f _) fun y => .bind (ih (i + 1)) fun ys => .refl _

theorem filterItems_below (h : inner.Below inner') (f : Function Value) (i : Nat)
    (items : List Value) :
    Below (filterItems inner depth f i items) (filterItems inner' depth f i items) := by
  induction items generalizing i with
  | nil => exact .refl _
  | cons x rest ih =>
    exact .bind (h.call depth f _) fun y => .bind (ih (i + 1)) fun ys => .refl _

theorem foldItems_below (h : inner.Below inner') (f : Function Value) (i : Nat) (acc : Value)
    (items : List Value) :
    Below (foldItems inner depth f i acc items) (foldItems inner' depth f i acc items) := by
  induction items generalizing i acc with
  | nil => exact .refl _
  | cons x rest ih => exact .bind (h.call depth f _) fun y => ih (i + 1) y

theorem traverse_below (h : inner.Below inner') (t : Traversal) (args : List Value) :
    Below (traverse inner depth t args) (traverse inner' depth t args) := by
  cases t with
  | map =>
    simp only [traverse]
    split
    · exact .refl _
    · exact .after fun p => .bind (mapItems_below h p.1 0 p.2) fun _ => .refl _
  | filter =>
    simp only [traverse]
    split
    · exact .refl _
    · exact .after fun p => .bind (filterItems_below h p.1 0 p.2) fun _ => .refl _
  | fold =>
    simp only [traverse]
    split
    · exact .refl _
    · exact .after fun p => foldItems_below h p.1 0 _ p.2

theorem callNative_below (h : inner.Below inner') (hosts : Hosts) (f : Native)
    (args : List Value) :
    Below (callNative inner depth hosts f args) (callNative inner' depth hosts f args) := by
  unfold callNative
  cases f.action with
  | operation op => exact .refl _
  | traversal t => exact traverse_below h t args
  | random => exact .refl _
  | host key =>
    refine .after fun _ => ?_
    cases (hosts key args).answer with
    | call g args => exact h.call depth g args
    | _ => exact .refl _

theorem enterBody_below (h : inner.Below inner') (c : Closure Value) (scope : Bindings) :
    Below (enterBody inner depth c scope) (enterBody inner' depth c scope) := by
  rw [enterBody_eq, enterBody_eq]
  exact .inScope scope (.bind (h.enter c.language depth c.body) fun _ => .refl _)

theorem call_below (h : inner.Below inner') (hosts : Hosts) (f : Function Value)
    (args : List Value) :
    Below (call inner depth hosts f args) (call inner' depth hosts f args) := by
  cases f with
  | native g => exact callNative_below h hosts g args
  | defined c =>
    simp only [call]
    split
    · exact enterBody_below h c _
    · exact .refl _
  | prepared c => exact enterBody_below h c _

theorem engine_below_succ (hosts : Hosts) (n : Nat) :
    (engine hosts n).Below (engine hosts (n + 1)) := by
  induction n with
  | zero => exact ⟨fun _ _ _ => .exhausted _, fun _ _ _ => .exhausted _⟩
  | succ n ih => exact ⟨fun _ _ code => run_below ih code [], fun _ f args => call_below ih hosts f args⟩

/-- More levels change nothing in what does not run out of them. -/
theorem engine_below (hosts : Hosts) {n m : Nat} (h : n ≤ m) :
    (engine hosts n).Below (engine hosts m) := by
  induction h with
  | refl => exact ⟨fun _ _ _ => .refl _, fun _ _ _ => .refl _⟩
  | @step m _ ih =>
    have hsucc := engine_below_succ hosts m
    exact ⟨fun lang depth code => (ih.enter lang depth code).trans (hsucc.enter lang depth code),
      fun depth f args => (ih.call depth f args).trans (hsucc.call depth f args)⟩

/-! ### Waiting -/

theorem recording_below (id : Nat) {x y : Eval Value} (h : Below x y) :
    Below (recording id x) (recording id y) := by
  intro w hw
  have hx : (x w).1 ≠ .error .exhausted := by
    intro he
    rcases hxw : x w with ⟨r, w'⟩
    rw [hxw] at he
    simp only at he
    subst he
    simp [recording, hxw] at hw
  simp only [recording, h w hx]

/-- More levels and more fuel change nothing in a wait that does not run out of either. -/
theorem waiting_below (hosts : Hosts) {n m : Nat} (h : n ≤ m) (fuel : Nat) :
    ∀ fuel' ≥ fuel, (∀ id, Below (await hosts n fuel id) (await hosts m fuel' id)) ∧
      (∀ v, Below (settle hosts n fuel v) (settle hosts m fuel' v)) ∧
      ∀ s, Below (drive hosts n fuel s) (drive hosts m fuel' s) := by
  induction fuel with
  | zero => exact fun _ _ => ⟨fun _ => .exhausted _, fun _ => .exhausted _, fun _ => .exhausted _⟩
  | succ fuel ih =>
    intro fuel' hfuel
    obtain ⟨k, rfl⟩ : ∃ k, fuel' = k + 1 := ⟨fuel' - 1, by omega⟩
    obtain ⟨hawait, hsettle, hdrive⟩ := ih k (by omega)
    refine ⟨fun id => ?_, fun v => ?_, fun s => ?_⟩
    · refine .after fun w => ?_
      cases w.deferreds[id]? with
      | none => exact .refl _
      | some d =>
        cases d with
        | settled r => exact .after fun v => hsettle v
        | promised p => exact .after fun v => hsettle v
        | suspended scope lang frames on =>
          exact recording_below id (.inScope scope (hdrive ⟨lang, frames, on⟩))
    · cases v with
      | deferred id => exact hawait id
      | _ => exact .refl _
    · refine .bind (hawait s.on) fun v => .bind (resume_below (engine_below hosts h) _ v) fun p => ?_
      cases p with
      | done v => exact hsettle v
      | waiting frames on => exact hdrive ⟨s.language, frames, on⟩

end Machine

end Formula
