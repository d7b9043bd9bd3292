import Formula.Evaluation
import Formula.Proofs.Machine.Known

/-!
# Values that are ready

No run gives a deferred value, also not after it has waited: what it waits for is not deferred, and
a frame either pushes that or goes on with an instruction, after which a deferred value on top of
the stack is waited for again.
-/

namespace Formula

/-- A frame that goes on with an instruction, if it puts a value somewhere on the stack. -/
def Frame.Ready : Frame → Prop
  | .fill _ _ code => code ≠ []
  | _ => True

/-- A run whose value, if it ends, is not deferred. -/
def Progress.Ready : Progress → Prop
  | .done v => v.isDeferred = false
  | .waiting frames _ => ∀ f ∈ frames, f.Ready

/-- An engine in which no program that ends has a deferred value, at once or later. -/
def Engine.Ready (inner : Engine) : Prop :=
  ∀ lang depth code, Eval.Gives Progress.Ready (inner.enter lang depth code)

namespace Machine

open Eval

def Forced.Ready : Forced → Prop
  | .ready _ => True
  | .suspended _ frames _ _ => ∀ f ∈ frames, f.Ready

def Step.Ready : Step → Prop
  | .next _ => True
  | .await frames _ _ => ∀ f ∈ frames, f.Ready

/-- A stack on top of which there is no deferred value. -/
def Cleared (stack : List Operand) : Prop := ∀ id low, stack ≠ .value (.deferred id) :: low

theorem cleared_value {v : Value} (hv : v.isDeferred = false) (stack : List Operand) :
    Cleared (.value v :: stack) := by
  rintro id low h
  cases h
  cases hv

variable {inner : Engine} {lang : Language Value} {depth : Nat} {stack : List Operand}

theorem useFrames_ready (use : Use) : ∀ f ∈ use.frames, f.Ready := by
  cases use with
  | keep => exact List.forall_mem_nil _
  | truth | assign _ => exact List.forall_mem_singleton.mpr trivial

theorem force_ready (h : inner.Ready) (ds : List Nat) :
    Gives Forced.Ready (force inner lang depth ds stack) := by
  induction ds generalizing stack with
  | nil => exact Keeps.pure trivial
  | cons d ds ih =>
    cases hd : stack[d]? with
    | none =>
      simp only [force, hd]
      exact Keeps.fail trivial
    | some o =>
      cases o with
      | value v =>
        cases v with
        | deferred id =>
          simp only [force, hd]
          exact Keeps.pure (List.forall_mem_nil _)
        | _ =>
          simp only [force, hd]
          exact ih
      | thunk code =>
        rw [force_thunk hd]
        refine Keeps.bind (h lang depth code) fun p hp => ?_
        cases p with
        | done v => exact ih
        | waiting frames on => exact Keeps.pure hp

theorem perform_ready (h : inner.Ready) (p : Plan) :
    Gives Step.Ready (perform inner lang depth p) := by
  cases p with
  | next stack => exact Keeps.pure trivial
  | resolve o use stack =>
    have hresolve : Gives (fun p => ∀ frames on, p = .waiting frames on →
        ∀ f ∈ frames, f.Ready) (resolve inner lang depth o) := by
      cases o with
      | value v => exact Keeps.pure fun _ _ h => by cases h
      | thunk code => exact (h lang depth code).mono fun p hp frames on hw => by subst hw; exact hp
    refine Keeps.bind hresolve fun p hp => ?_
    cases p with
    | done v => exact Keeps.bind (Gives.any _) fun _ _ => Keeps.pure trivial
    | waiting frames on =>
      exact Keeps.pure (List.forall_mem_append.mpr ⟨hp frames on rfl, useFrames_ready use⟩)
  | call f args stack => exact Keeps.bind (Gives.any _) fun _ _ => Keeps.pure trivial
  | define => exact Keeps.bind (Gives.any _) fun _ _ => Keeps.pure trivial

theorem finish_ready (h : inner.Ready) (hs : Cleared stack) :
    Gives Progress.Ready (finish inner lang depth stack) := by
  match stack, hs with
  | [], _ | _ :: _ :: _, _ => exact Keeps.fail trivial
  | [.value v], hs =>
    have hv : v.isDeferred = false := by
      cases v with
      | deferred id => exact (hs id [] rfl).elim
      | _ => rfl
    exact Keeps.pure (Value.known_normalise hv).ready
  | [.thunk code], _ =>
    refine Keeps.bind (h lang depth code) fun p hp => ?_
    cases p with
    | done v => exact Keeps.pure (Value.known_normalise hp).ready
    | waiting frames on => exact Keeps.pure hp

theorem run_ready (h : inner.Ready) (code : Program Value) (hs : code = [] → Cleared stack) :
    Gives Progress.Ready (run inner lang depth code stack) := by
  induction code generalizing stack with
  | nil => exact finish_ready h (hs rfl)
  | cons i rest ih =>
    rw [run_cons]
    refine Keeps.bind (force_ready h _) fun r hr => ?_
    cases r with
    | suspended d frames on stack =>
      exact Keeps.pure (List.forall_mem_append.mpr
        ⟨hr, List.forall_mem_singleton.mpr (List.cons_ne_nil i rest)⟩)
    | ready stack =>
      have hstep : Gives Step.Ready (step inner lang depth i stack) :=
        Keeps.bind (Gives.any _) fun _ _ => Keeps.bind (Gives.any _) fun p _ => perform_ready h p
      refine Keeps.bind hstep fun s hs => ?_
      unfold afterStep
      split
      · exact Keeps.pure (List.forall_mem_append.mpr ⟨hs, List.forall_mem_singleton.mpr trivial⟩)
      · exact Keeps.pure (List.forall_mem_singleton.mpr trivial)
      · next stack hcleared => exact ih fun _ => hcleared

theorem engine_ready (hosts : Hosts) (fuel : Nat) : (engine hosts fuel).Ready := by
  induction fuel with
  | zero => exact fun _ _ _ => Keeps.exhausted
  | succ fuel ih => exact fun _ _ code => run_ready ih code fun _ _ _ h => by cases h

theorem resume_ready (h : inner.Ready) {frames : List Frame} (hframes : ∀ f ∈ frames, f.Ready)
    {v : Value} (hv : v.isDeferred = false) :
    Gives Progress.Ready (resume inner lang depth frames v) := by
  induction frames generalizing v with
  | nil => exact Keeps.pure hv
  | cons f rest ih =>
    obtain ⟨hf, hrest⟩ := List.forall_mem_cons.mp hframes
    rw [resume_cons]
    have hfirst : Gives Progress.Ready (proceed inner lang depth f v) := by
      cases f with
      | fill d stack code => exact run_ready h code fun hnil => (hf hnil).elim
      | push stack code => exact run_ready h code fun _ => cleared_value hv stack
      | truth => exact Keeps.pure rfl
      | assign path => exact Keeps.bind (Gives.any _) fun _ _ => Keeps.pure hv
    refine Keeps.bind hfirst fun p hp => ?_
    cases p with
    | done u => exact ih hrest hp
    | waiting frames on => exact Keeps.pure (List.forall_mem_append.mpr ⟨hp, hrest⟩)

/-! ### Waiting -/

theorem recording_eq_ok {id : Nat} {x : Eval Value} {w w₁ : World} {v : Value}
    (h : recording id x w = (.ok v, w₁)) : ∃ w₂, x w = (.ok v, w₂) := by
  rcases hx : x w with ⟨(e | _) | u, w₂⟩
  · simp only [recording, hx] at h
    cases h
  · simp only [recording, hx] at h
    cases h
  · simp only [recording, hx] at h
    cases h
    exact ⟨w₂, rfl⟩

theorem inScope_eq_ok {α : Type} {b : Bindings} {x : Eval α} {w w₁ : World} {a : α}
    (h : inScope b x w = (.ok a, w₁)) : ∃ w₂, x { w with scope := b } = (.ok a, w₂) := by
  rcases hx : x { w with scope := b } with ⟨r, w₂⟩
  simp only [inScope, hx] at h
  cases h
  exact ⟨w₂, rfl⟩

/-- What has been waited for is not deferred. -/
theorem waiting_ready (hosts : Hosts) (levels fuel : Nat) :
    (∀ id w v w₁, await hosts levels fuel id w = (.ok v, w₁) → v.isDeferred = false) ∧
    (∀ u w v w₁, settle hosts levels fuel u w = (.ok v, w₁) → v.isDeferred = false) ∧
    ∀ s w v w₁, drive hosts levels fuel s w = (.ok v, w₁) → v.isDeferred = false := by
  induction fuel with
  | zero =>
    refine ⟨fun _ _ _ _ h => ?_, fun _ _ _ _ h => ?_, fun _ _ _ _ h => ?_⟩ <;> cases h
  | succ fuel ih =>
    obtain ⟨hawait, hsettle, hdrive⟩ := ih
    refine ⟨fun id w v w₁ h => ?_, fun u w v w₁ h => ?_, fun s w v w₁ h => ?_⟩
    · rw [await] at h
      obtain ⟨w', _, hget, h⟩ := bind_eq_ok h
      cases hget
      cases hd : w.deferreds[id]? with
      | none =>
        rw [hd] at h
        cases h
      | some d =>
        rw [hd] at h
        cases d with
        | settled r =>
          obtain ⟨u, w', -, h⟩ := bind_eq_ok h
          exact hsettle u w' v w₁ h
        | promised p =>
          obtain ⟨u, w', -, h⟩ := bind_eq_ok h
          exact hsettle u w' v w₁ h
        | suspended scope lang frames on =>
          obtain ⟨w', h⟩ := recording_eq_ok h
          obtain ⟨w'', h⟩ := inScope_eq_ok h
          exact hdrive _ _ v w'' h
    · cases u with
      | deferred id => exact hawait id w v w₁ h
      | _ =>
        cases h
        rfl
    · obtain ⟨u, w', -, h⟩ := bind_eq_ok h
      obtain ⟨p, w'', -, h⟩ := bind_eq_ok h
      cases p with
      | done u => exact hsettle u w'' v w₁ h
      | waiting frames on => exact hdrive _ w'' v w₁ h

end Machine

end Formula
