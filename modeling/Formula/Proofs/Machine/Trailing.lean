import Formula.Proofs.Machine.Mimics
import Formula.Proofs.Machine.Paired

/-!
# Groups at the end of code

A group that is all that is left of some code on an empty stack is entered at once, so its body could
as well stand in its place. Code that differs in such groups does the same, but for the levels it
takes and the code that is left where it waits. Where a group stands at the end of more code, the
shapes on the stack tell that the stack is empty there.
-/

namespace Formula

namespace Machine

open Eval Waiting

/-- Codes that are the same but for groups, at the end of one of them or of groups there, whose bodies
stand in their place; the shapes are those on the stack that the codes are run on. -/
inductive Trailing : List Shape → Program Value → Program Value → Prop
  | same (σ : List Shape) (code : Program Value) : Trailing σ code code
  | cons {i : Instruction Value} {σ σ' : List Shape} {rest rest' : Program Value} :
      effect i σ = some σ' → Trailing σ' rest rest' → Trailing σ (i :: rest) (i :: rest')
  | group {body body' : Program Value} :
      Trailing [] body body' → Trailing [] [.group body] [.group body']
  | left {body body' : Program Value} : Trailing [] body body' → Trailing [] [.group body] body'
  | right {body body' : Program Value} : Trailing [] body body' → Trailing [] body [.group body']

inductive TrailingFrame : Frame → Frame → Prop
  | same (f : Frame) : TrailingFrame f f
  | fill {d : Nat} {stack : List Operand} {σ : List Shape} {code code' : Program Value} :
      (∀ v, Fits (stack.set d (.value v)) σ) → Trailing σ code code' →
      TrailingFrame (.fill d stack code) (.fill d stack code')
  | push {stack : List Operand} {σ : List Shape} {code code' : Program Value} :
      (∀ v, Fits (.value v :: stack) σ) → Trailing σ code code' →
      TrailingFrame (.push stack code) (.push stack code')

inductive TrailingProgress : Progress → Progress → Prop
  | done (v : Value) : TrailingProgress (.done v) (.done v)
  | waiting {frames frames' : List Frame} (on : Nat) : List.Forall₂ TrailingFrame frames frames' →
      TrailingProgress (.waiting frames on) (.waiting frames' on)

theorem Trailing.symm {σ : List Shape} {code code' : Program Value} (h : Trailing σ code code') :
    Trailing σ code' code := by
  induction h with
  | same σ code => exact .same σ code
  | cons he _ ih => exact .cons he ih
  | group _ ih => exact .group ih
  | left _ ih => exact .right ih
  | right _ ih => exact .left ih

theorem Trailing.append {σ σ' : List Shape} {first code code' : Program Value}
    (hfirst : effects first σ = some σ') (h : Trailing σ' code code') :
    Trailing σ (first ++ code) (first ++ code') := by
  induction first generalizing σ with
  | nil =>
    cases hfirst
    exact h
  | cons i rest ih =>
    obtain ⟨τ, hi, hrest⟩ := Option.bind_eq_some_iff.mp hfirst
    exact .cons hi (ih hrest)

theorem trailingFrames_refl (frames : List Frame) : List.Forall₂ TrailingFrame frames frames :=
  List.forall₂_same.mpr fun f _ => .same f

theorem trailingProgress_refl (p : Progress) : TrailingProgress p p := by
  cases p with
  | done v => exact .done v
  | waiting frames on => exact .waiting on (trailingFrames_refl frames)

variable {hosts : Hosts} {inner : Engine} {lang : Language Value} {depth n : Nat}
  {stack : List Operand} {σ σ' : List Shape} {i : Instruction Value}

/-! ### Shapes along a run -/

/-- The needed operands are values, or the instruction finds what it needs once the one that is
waited for is. -/
def Forced.Fits (i : Instruction Value) (ds : List Nat) (σ σ' : List Shape) : Forced → Prop
  | .ready stack => Machine.Fits stack (forced ds σ)
  | .suspended d _ _ stack =>
    ∃ τ, (∀ v, Machine.Fits (stack.set d (.value v)) τ) ∧ effect i τ = some σ'

def Step.Fits (σ : List Shape) : Step → Prop
  | .next stack => Machine.Fits stack σ
  | .await _ _ stack => ∀ v, Machine.Fits (.value v :: stack) σ

theorem force_fits {ds : List Nat} (hds : ∀ d ∈ ds, d ∈ needed i) (hs : Fits stack σ)
    (he : effect i σ = some σ') :
    Gives (Forced.Fits i ds σ σ') (force inner lang depth ds stack) := by
  induction ds generalizing stack σ with
  | nil => exact Keeps.pure hs
  | cons d ds ih =>
    obtain ⟨hd, hrest⟩ := List.forall_mem_cons.mp hds
    have hset : ∀ v, Gives (Forced.Fits i (d :: ds) σ σ')
        (force inner lang depth ds (stack.set d (.value v))) :=
      fun v => ih hrest (hs.set d v) ((effect_set hd σ).trans he)
    unfold force
    split
    · exact Keeps.fail trivial
    · exact Keeps.pure ⟨_, hs.set d, (effect_set hd σ).trans he⟩
    · next v _ hsome =>
      have hsame : stack.set d (.value v) = stack := by
        obtain ⟨hlt, hv⟩ := List.getElem?_eq_some_iff.mp hsome
        rw [← hv, List.set_getElem_self]
      exact hsame ▸ hset v
    · next code _ =>
      refine Keeps.bind (Gives.any _) fun p _ => ?_
      cases p with
      | done v => exact hset v
      | waiting frames on => exact Keeps.pure ⟨_, hs.set d, (effect_set hd σ).trans he⟩

theorem perform_fits {p : Plan} (hp : p.Fits σ) :
    Gives (Step.Fits σ) (perform inner lang depth p) := by
  have hpush : ∀ {x : Eval Value} {below : List Operand},
      (∃ under, σ = .value :: under ∧ Fits below under) →
      Gives (Step.Fits σ) (x >>= fun v => pure (.next (.value v :: below))) := by
    rintro x below ⟨under, rfl, hunder⟩
    exact Keeps.bind (Gives.any x) fun v _ => Keeps.pure (Fits.value v hunder)
  cases p with
  | next stack => exact Keeps.pure hp
  | resolve o use stack =>
    refine Keeps.bind (Gives.any _) fun r _ => ?_
    cases r with
    | done v => exact hpush hp
    | waiting frames on =>
      obtain ⟨under, rfl, hunder⟩ := hp
      exact Keeps.pure fun v => .value v hunder
  | call f args stack => exact hpush hp
  | define name params body stack => exact hpush hp

theorem step_fits (hs : Fits stack (forced (needed i) σ)) (he : effect i σ = some σ') :
    Gives (Step.Fits σ') (step inner lang depth i stack) :=
  Keeps.bind (Gives.any _) fun _ _ =>
    Keeps.bind (Keeps.ofExcept (plan_above hs he []).1) fun _ hp => perform_fits hp

/-! ### Code -/

/-- A program that is all there is comes to what it comes to when it is entered. -/
theorem finish_thunk (hin : inner.Knows) (code : Program Value) :
    finish inner lang depth [.thunk code] = inner.enter lang depth code := by
  funext w
  have hend := (hin lang depth code w trivial).2
  unfold finish
  change (inner.enter lang depth code >>= _) w = inner.enter lang depth code w
  rcases hw : inner.enter lang depth code w with ⟨s | p, w₁⟩
  · rw [bind_of_error hw]
  · rw [bind_of_ok hw]
    rw [hw] at hend
    cases p with
    | done v =>
      have hknown : v.Known := hend
      dsimp only
      rw [hknown.normal]
      rfl
    | waiting frames on => rfl

theorem run_lastGroup (body : Program Value) :
    run (engine hosts n) lang depth [.group body] [] = (engine hosts n).enter lang depth body := by
  rw [run_group]
  exact finish_thunk (engine_known hosts n) body

/-- What comes after an instruction, once the rest of the code is compared. -/
theorem afterStep_trailing {rest rest' : Program Value} (hrest : Trailing σ rest rest')
    (hrun : ∀ {stack : List Operand}, Fits stack σ →
      Mimics Eq TrailingProgress (run (engine hosts n) lang depth rest stack)
        fun m => run (engine hosts m) lang depth rest' stack)
    {s : Step} (hs : s.Fits σ) :
    Mimics Eq TrailingProgress (afterStep (engine hosts n) lang depth rest s)
      fun m => afterStep (engine hosts m) lang depth rest' s := by
  have hpush : ∀ {stack : List Operand} (frames : List Frame) (on : Nat),
      (∀ v, Fits (.value v :: stack) σ) →
      Mimics Eq TrailingProgress (pure (.waiting (frames ++ [.push stack rest]) on))
        fun _ => pure (.waiting (frames ++ [.push stack rest']) on) :=
    fun _ on hs => .pure (.waiting on
      (List.rel_append (trailingFrames_refl _) (.cons (.push hs hrest) .nil)))
  cases s with
  | await frames on stack => exact hpush frames on hs
  | next stack =>
    by_cases htop : ∃ id below, stack = .value (.deferred id) :: below
    · obtain ⟨id, below, rfl⟩ := htop
      have hs : Fits (.value (.deferred id) :: below) σ := hs
      cases hs with
      | value _ hbelow => exact hpush [] id fun v => .value v hbelow
    · simp only [afterStep_next fun id below h => htop ⟨id, below, h⟩]
      exact hrun hs

/-- An engine in which such codes are compared, when they are entered. -/
def Trails (hosts : Hosts) (inner : Engine) : Prop :=
  ∀ lang depth code code', Trailing [] code code' →
    Mimics Eq TrailingProgress (inner.enter lang depth code)
      fun m => (engine hosts m).enter lang depth code'

section

variable (hin : Trails hosts (engine hosts n))

include hin

theorem run_trailing {code code' : Program Value} (hcode : Trailing σ code code')
    (hs : Fits stack σ) : Mimics Eq TrailingProgress (run (engine hosts n) lang depth code stack)
      fun m => run (engine hosts m) lang depth code' stack := by
  induction hcode generalizing stack with
  | same σ code =>
    refine (Mimics.same (Gives.any _) (N := n) fun m hm =>
      run_below (engine_below hosts hm) code stack).mono ?_
    rintro p _ ⟨rfl, -⟩
    exact trailingProgress_refl p
  | @cons i σ σ' rest rest' he hrest ih =>
    simp only [run_cons]
    refine (Mimics.same (force_fits (fun _ h => h) hs he) (N := n) fun m hm =>
      force_below (engine_below hosts hm) _ stack).bind ?_
    rintro r _ ⟨rfl, hr⟩
    cases r with
    | suspended d frames on stack =>
      obtain ⟨τ, hfits, hτ⟩ := hr
      exact .pure (.waiting on (List.rel_append (trailingFrames_refl frames)
        (.cons (.fill hfits (.cons hτ hrest)) .nil)))
    | ready stack =>
      refine (Mimics.same (step_fits hr he) (N := n) fun m hm =>
        step_below (engine_below hosts hm) i stack).bind ?_
      rintro s _ ⟨rfl, hstep⟩
      exact afterStep_trailing hrest ih hstep
  | @group body body' hbody _ =>
    cases hs
    simp only [run_lastGroup]
    exact hin lang depth body body' hbody
  | @left body body' hbody _ =>
    cases hs
    rw [run_lastGroup]
    refine (hin lang depth body body' hbody).of_below fun m => ?_
    exact (engine_below_succ hosts m).enter lang depth body' |>.trans <|
      (engine_below_succ hosts (m + 1)).enter lang depth body'
  | @right body body' hbody ih =>
    cases hs
    simp only [run_lastGroup]
    exact (ih .nil).of_below fun m => .refl _

theorem proceed_trailing {f f' : Frame} (hf : TrailingFrame f f') (v : Value) :
    Mimics Eq TrailingProgress (proceed (engine hosts n) lang depth f v)
      fun m => proceed (engine hosts m) lang depth f' v := by
  cases hf with
  | same f =>
    refine (Mimics.same (Gives.any _) (N := n) fun m hm =>
      proceed_below (engine_below hosts hm) f v).mono ?_
    rintro p _ ⟨rfl, -⟩
    exact trailingProgress_refl p
  | fill hs hcode => exact run_trailing hin hcode (hs v)
  | push hs hcode => exact run_trailing hin hcode (hs v)

theorem resume_trailing {frames frames' : List Frame}
    (hframes : List.Forall₂ TrailingFrame frames frames') (v : Value) :
    Mimics Eq TrailingProgress (resume (engine hosts n) lang depth frames v)
      fun m => resume (engine hosts m) lang depth frames' v := by
  induction hframes generalizing v with
  | nil => exact .pure (.done v)
  | cons hf hrest ih =>
    simp only [resume_cons]
    refine (proceed_trailing hin hf v).bind fun p p' hp => ?_
    cases hp with
    | done v => exact ih v
    | waiting on hframes => exact .pure (.waiting on (List.rel_append hframes hrest))

end

theorem engine_trails (hosts : Hosts) (n : Nat) : Trails hosts (engine hosts n) := by
  induction n with
  | zero => exact fun _ _ _ _ _ => .exhausted _
  | succ n ih => exact fun _ _ _ _ hcode => (run_trailing ih hcode .nil).of_below fun m => .refl _

/-! ### Waiting -/

theorem settle_trailing (n fuel : Nat) (v : Value) :
    Mimics Eq Eq (settle hosts n fuel v) fun m => settle hosts m m v :=
  (Mimics.same (Gives.any _) (N := n + fuel) fun m hm =>
    (waiting_below hosts (by omega) fuel m (by omega)).2.1 v).mono fun _ _ h => h.1

/-- Runs that are suspended with such frames settle to the same. -/
theorem drive_trailing (n fuel : Nat) {frames frames' : List Frame} {on : Nat}
    (hframes : List.Forall₂ TrailingFrame frames frames') :
    Mimics Eq Eq (drive hosts n fuel ⟨lang, frames, on⟩)
      fun m => drive hosts m m ⟨lang, frames', on⟩ := by
  induction fuel generalizing frames frames' on with
  | zero => exact .exhausted _
  | succ fuel ih =>
    have hbody : Mimics Eq Eq (drive hosts n (fuel + 1) ⟨lang, frames, on⟩) fun m =>
        await hosts m m on >>= fun v =>
          resume (engine hosts m) lang 0 frames' v >>= conclude hosts lang m m := by
      refine (Mimics.same (Gives.any _) (N := n + fuel) fun m hm =>
        (waiting_below hosts (by omega) fuel m (by omega)).1 on).bind ?_
      rintro v _ ⟨rfl, -⟩
      refine (resume_trailing (engine_trails hosts n) hframes v).bind fun p p' hp => ?_
      cases hp with
      | done v => exact settle_trailing n fuel v
      | waiting on hframes => exact ih hframes
    exact hbody.of_below fun m => drive_above hosts lang frames' on m

/-- Codes that differ in groups at the end have the same value or error, and leave the same world, at
once and after waiting. -/
theorem Trailing.enter {code code' : Program Value} (h : Trailing [] code code')
    (res : Except EvalError Value) (w w₁ : World) :
    (Eventually (fun m => (engine hosts m).enter lang 0 code) w (ended res) w₁ ↔
      Eventually (fun m => (engine hosts m).enter lang 0 code') w (ended res) w₁) ∧
    (Eventually (fun m => (engine hosts m).enter lang 0 code >>= Progress.settle hosts m lang) w
        (result res) w₁ ↔
      Eventually (fun m => (engine hosts m).enter lang 0 code' >>= Progress.settle hosts m lang) w
        (result res) w₁) := by
  have hends : ∀ {code code' : Program Value}, Trailing [] code code' →
      Eventually (fun m => (engine hosts m).enter lang 0 code) w (ended res) w₁ →
      Eventually (fun m => (engine hosts m).enter lang 0 code') w (ended res) w₁ := by
    rintro code code' h ⟨N, hN⟩
    obtain ⟨o, _, hrel, rfl, ho⟩ := engine_trails hosts N lang 0 _ _ h w w _ w₁ rfl
      (hN N (Nat.le_refl N)) (ended_ne_exhausted res)
    cases res with
    | error e =>
      cases hrel
      exact ho
    | ok v =>
      cases hrel with
      | ok hp =>
        cases hp
        exact ho
  have hsettles : ∀ {code code' : Program Value}, Trailing [] code code' →
      Eventually (fun m => (engine hosts m).enter lang 0 code >>= Progress.settle hosts m lang) w
        (result res) w₁ →
      Eventually (fun m => (engine hosts m).enter lang 0 code' >>= Progress.settle hosts m lang) w
        (result res) w₁ := by
    rintro code code' h ⟨N, hN⟩
    have hm : Mimics Eq Eq ((engine hosts N).enter lang 0 code >>= Progress.settle hosts N lang)
        fun m => (engine hosts m).enter lang 0 code' >>= Progress.settle hosts m lang := by
      refine (engine_trails hosts N lang 0 _ _ h).bind fun p p' hp => ?_
      cases hp with
      | done v => exact settle_trailing N N v
      | waiting on hframes => exact drive_trailing N N hframes
    obtain ⟨o, _, hrel, rfl, ho⟩ :=
      hm w w _ w₁ rfl (hN N (Nat.le_refl N)) (result_ne_exhausted res)
    cases res with
    | error e =>
      cases hrel
      exact ho
    | ok v =>
      cases hrel with
      | ok hv =>
        subst hv
        exact ho
  exact ⟨⟨hends h, hends h.symm⟩, hsettles h, hsettles h.symm⟩

end Machine

end Formula
