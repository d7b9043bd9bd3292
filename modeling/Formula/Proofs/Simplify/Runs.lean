import Formula.Proofs.Machine.Mimics
import Formula.Proofs.Machine.Scope

/-!
# Runs of similar programs

Similar programs do the same wherever the known variables are in scope: what one of them comes to
with some levels, the other comes to with levels enough. They assign none of the known variables, so
these stay in scope. They are suspended at the same points, with frames that are similar again, so
they also do the same after a wait.
-/

namespace Formula

open Waiting

namespace Machine

open Eval

section

variable (hosts : Hosts) (lang : Language Value) (b : Bindings)

inductive SimilarFrame : Frame → Frame → Prop
  | fill (d : Nat) {stack stack' : List Operand} {code code' : Program Value} :
      SimilarStack hosts lang b stack stack' → Similar hosts lang b code code' →
      SimilarFrame (.fill d stack code) (.fill d stack' code')
  | push {stack stack' : List Operand} {code code' : Program Value} :
      SimilarStack hosts lang b stack stack' → Similar hosts lang b code code' →
      SimilarFrame (.push stack code) (.push stack' code')
  | truth : SimilarFrame .truth .truth
  | assign {path : String} :
      Record.get? b (Bindings.root path) = none → SimilarFrame (.assign path) (.assign path)

abbrev SimilarFrames : List Frame → List Frame → Prop := List.Forall₂ (SimilarFrame hosts lang b)

inductive SimilarProgress : Progress → Progress → Prop
  | done (v : Value) : SimilarProgress (.done v) (.done v)
  | waiting {frames frames' : List Frame} (on : Nat) :
      SimilarFrames hosts lang b frames frames' →
      SimilarProgress (.waiting frames on) (.waiting frames' on)

inductive SimilarStep : Step → Step → Prop
  | next {stack stack' : List Operand} :
      SimilarStack hosts lang b stack stack' → SimilarStep (.next stack) (.next stack')
  | await {frames frames' : List Frame} (on : Nat) {stack stack' : List Operand} :
      SimilarFrames hosts lang b frames frames' → SimilarStack hosts lang b stack stack' →
      SimilarStep (.await frames on stack) (.await frames' on stack')

inductive SimilarForced : Forced → Forced → Prop
  | ready {stack stack' : List Operand} :
      SimilarStack hosts lang b stack stack' → SimilarForced (.ready stack) (.ready stack')
  | suspended (d : Nat) {frames frames' : List Frame} (on : Nat) {stack stack' : List Operand} :
      SimilarFrames hosts lang b frames frames' → SimilarStack hosts lang b stack stack' →
      SimilarForced (.suspended d frames on stack) (.suspended d frames' on stack')

/-- Wherever the first evaluation comes to an outcome with the known variables in scope, the second
comes to a related one in the end, and the known variables are in scope again. -/
def Retraces {α β : Type} (R : α → β → Prop) (x : Eval α) (y : Nat → Eval β) : Prop :=
  ∀ w o w₁, b.Within w.scope → x w = (o, w₁) → o ≠ .error .exhausted →
    b.Within w₁.scope ∧ ∃ o', Alike R o o' ∧ Eventually y w o' w₁

/-- An engine that similar programs are compared in. -/
def Enters (inner : Engine) : Prop :=
  ∀ depth code code', Similar hosts lang b code code' →
    Retraces b (SimilarProgress hosts lang b) (inner.enter lang depth code)
      fun m => (engine hosts m).enter lang depth code'

end

variable {hosts : Hosts} {lang : Language Value} {b : Bindings} {depth : Nat}

theorem SimilarFrame.symm {f f' : Frame} (h : SimilarFrame hosts lang b f f') :
    SimilarFrame hosts lang b f' f := by
  cases h with
  | fill d hs hcode => exact .fill d (SimilarStack.symm hs) hcode.symm
  | push hs hcode => exact .push (SimilarStack.symm hs) hcode.symm
  | truth => exact .truth
  | assign hroot => exact .assign hroot

theorem SimilarFrames.symm {frames frames' : List Frame}
    (h : SimilarFrames hosts lang b frames frames') : SimilarFrames hosts lang b frames' frames :=
  (h.imp fun _ _ => SimilarFrame.symm).flip

namespace Retraces

variable {α β γ δ : Type} {R : α → β → Prop} {S : γ → δ → Prop}

theorem iff_mimics {x : Eval α} {y : Nat → Eval β} :
    Retraces b R x y ↔ Mimics (fun w w' => w' = w ∧ b.Within w.scope) R x y := by
  constructor
  · rintro h _ w o w₁ ⟨rfl, hw⟩ hx ho
    obtain ⟨hw₁, o', hrel, hy⟩ := h w o w₁ hw hx ho
    exact ⟨o', w₁, hrel, ⟨rfl, hw₁⟩, hy⟩
  · intro h w o w₁ hw hx ho
    obtain ⟨o', _, hrel, ⟨rfl, hw₁⟩, hy⟩ := h w w o w₁ ⟨rfl, hw⟩ hx ho
    exact ⟨hw₁, o', hrel, hy⟩

theorem pure {a : α} {a' : β} (h : R a a') : Retraces b R (Pure.pure a) fun _ => Pure.pure a' :=
  iff_mimics.mpr (.pure h)

theorem ofExcept {x : Except EvalError α} {x' : Except EvalError β} (h : Alike R x x') :
    Retraces b R (Eval.ofExcept x) fun _ => Eval.ofExcept x' :=
  iff_mimics.mpr (.ofExcept h)

theorem fail (e : EvalError) : Retraces b R (Eval.fail e) fun _ => Eval.fail e :=
  iff_mimics.mpr (.fail e)

theorem exhausted (y : Nat → Eval β) : Retraces b R Eval.exhausted y :=
  iff_mimics.mpr (.exhausted y)

theorem bind {x : Eval α} {y : Nat → Eval β} {f : α → Eval γ} {g : Nat → β → Eval δ}
    (hxy : Retraces b R x y) (hfg : ∀ a a', R a a' → Retraces b S (f a) fun m => g m a') :
    Retraces b S (x >>= f) fun m => y m >>= g m :=
  iff_mimics.mpr ((iff_mimics.mp hxy).bind fun a a' h => iff_mimics.mp (hfg a a' h))

/-- One level more than what is compared with is enough as well. -/
theorem of_below {x : Eval α} {y y' : Nat → Eval β} (h : Retraces b R x y)
    (hy : ∀ m, Below (y m) (y' (m + 1))) : Retraces b R x y' :=
  iff_mimics.mpr ((iff_mimics.mp h).of_below hy)

/-- What keeps the known variables retraces itself. -/
theorem of_kept {x : Eval α} {y : Nat → Eval α}
    (hx : ∀ w, b.Within w.scope → b.Within (x w).2.scope) {N : Nat}
    (hy : ∀ m ≥ N, Below x (y m)) : Retraces b Eq x y := by
  intro w o w₁ hw hxw ho
  have hkept := hx w hw
  rw [hxw] at hkept
  have halike : Alike Eq o o := by
    cases o with
    | ok a => exact .ok rfl
    | error s => exact .error s
  refine ⟨hkept, o, halike, N, fun m hm => ?_⟩
  rw [hy m hm w (by rwa [hxw]), hxw]

theorem of_scoped {x : Eval α} {y : Nat → Eval α} (hx : Scoped x) {N : Nat}
    (hy : ∀ m ≥ N, Below x (y m)) : Retraces b Eq x y :=
  of_kept (fun w hw => (hx w).symm ▸ hw) hy

end Retraces

variable {n : Nat}

/-- An assignment of another variable keeps the known ones. -/
theorem assign_within {path : String} (hroot : Record.get? b (Bindings.root path) = none)
    (v : Value) (w : World) (hw : b.Within w.scope) :
    b.Within (Eval.assign path v w).2.scope := by
  have hassign : Eval.assign path v w =
      (Eval.ofExcept (Bindings.assignPath w.scope path v) >>= Eval.setScope) w := rfl
  rw [hassign]
  have hother := Bindings.assignPath_other w.scope path v
  cases hb : Bindings.assignPath w.scope path v with
  | error e => exact hw
  | ok b' =>
    rw [hb] at hother
    intro name u hget
    have hne : name ≠ Bindings.root path := by
      rintro rfl
      rw [hroot] at hget
      cases hget
    exact (hother name hne).trans (hw name u hget)

theorem assign_retraces {path : String} (hroot : Record.get? b (Bindings.root path) = none)
    (v : Value) : Retraces b Eq (Eval.assign path v) fun _ => Eval.assign path v :=
  .of_kept (assign_within hroot v) (N := 0) fun _ _ => .refl _

def Use.Spares (b : Bindings) (use : Use) : Prop :=
  ∀ path, use = .assign path → Record.get? b (Bindings.root path) = none

theorem use_retraces {use : Use} (huse : use.Spares b) (v : Value) :
    Retraces b Eq (use.apply v) fun _ => use.apply v := by
  cases use with
  | keep => exact .pure rfl
  | truth => exact .pure rfl
  | assign path => exact (assign_retraces (huse path rfl) v).bind fun _ _ _ => .pure rfl

theorem useFrames_similar {use : Use} (huse : use.Spares b) :
    SimilarFrames hosts lang b use.frames use.frames := by
  cases use with
  | keep => exact .nil
  | truth => exact .cons .truth .nil
  | assign path => exact .cons (.assign (huse path rfl)) .nil

/-- A call is made with the same function and the same arguments. -/
theorem call_retraces (f : Function Value) (args : List Value) :
    Retraces b Eq ((engine hosts n).call depth f args)
      fun m => (engine hosts m).call depth f args :=
  .of_scoped (engine_restores hosts n depth f args) (N := n)
    fun _ hm => (engine_below hosts hm).call depth f args

/-- What comes after an instruction, once the rest of the code retraces. -/
theorem afterStep_retraces {rest rest' : Program Value} (hrest : Similar hosts lang b rest rest')
    (hrun : ∀ {stack stack' : List Operand}, SimilarStack hosts lang b stack stack' →
      Retraces b (SimilarProgress hosts lang b) (run (engine hosts n) lang depth rest stack)
        fun m => run (engine hosts m) lang depth rest' stack')
    {s s' : Step} (hs : SimilarStep hosts lang b s s') :
    Retraces b (SimilarProgress hosts lang b) (afterStep (engine hosts n) lang depth rest s)
      fun m => afterStep (engine hosts m) lang depth rest' s' := by
  cases hs with
  | await on hframes hstack =>
    exact .pure (.waiting on (List.rel_append hframes (.cons (.push hstack hrest) .nil)))
  | next hstack =>
    cases hstack with
    | nil => exact hrun .nil
    | cons ho hstack =>
      cases ho with
      | thunk hcode => exact hrun (.cons (.thunk hcode) hstack)
      | value v =>
        cases v with
        | deferred id => exact .pure (.waiting id (.cons (.push hstack hrest) .nil))
        | _ => exact hrun (.cons (.value _) hstack)

section

variable (hin : Enters hosts lang b (engine hosts n))

include hin

theorem resolve_retraces {o o' : Operand} (ho : SimilarOperand hosts lang b o o') :
    Retraces b (SimilarProgress hosts lang b) (resolve (engine hosts n) lang depth o)
      fun m => resolve (engine hosts m) lang depth o' := by
  cases ho with
  | value v => exact .pure (.done v)
  | thunk hcode => exact hin depth _ _ hcode

theorem force_retraces (ds : List Nat) {stack stack' : List Operand}
    (hs : SimilarStack hosts lang b stack stack') :
    Retraces b (SimilarForced hosts lang b) (force (engine hosts n) lang depth ds stack)
      fun m => force (engine hosts m) lang depth ds stack' := by
  induction ds generalizing stack stack' with
  | nil => exact .pure (.ready hs)
  | cons d rest ih =>
    have hget := getElem?_similar hs d
    cases hd : stack[d]? with
    | none =>
      rw [hd] at hget
      have hd' : stack'[d]? = none := by
        generalize stack'[d]? = o' at hget
        cases hget
        rfl
      simp only [force, hd, hd']
      exact .fail _
    | some o =>
      rw [hd] at hget
      obtain ⟨o', hd', ho⟩ : ∃ o', stack'[d]? = some o' ∧ SimilarOperand hosts lang b o o' := by
        generalize stack'[d]? = p at hget
        cases hget with
        | some h => exact ⟨_, rfl, h⟩
      cases ho with
      | value v =>
        cases v with
        | deferred id =>
          simp only [force, hd, hd']
          exact .pure (.suspended d id .nil hs)
        | _ =>
          simp only [force, hd, hd']
          exact ih hs
      | thunk hcode =>
        rw [force_thunk hd]
        simp only [force_thunk hd']
        refine (hin depth _ _ hcode).bind fun p p' hp => ?_
        cases hp with
        | done v => exact ih (set_similar hs d (.value v))
        | waiting on hframes => exact .pure (.suspended d on hframes hs)

theorem perform_retraces {p p' : Plan} (hp : SimilarPlan hosts lang b p p') :
    Retraces b (SimilarStep hosts lang b) (perform (engine hosts n) lang depth p)
      fun m => perform (engine hosts m) lang depth p' := by
  cases hp with
  | next hs => exact .pure (.next hs)
  | @resolve _ _ use _ _ ho huse hs =>
    have hspares : use.Spares b := fun path h => (huse path h).elim
    refine (resolve_retraces hin ho).bind fun q q' hq => ?_
    cases hq with
    | done v =>
      refine (use_retraces hspares v).bind fun u u' hu => ?_
      subst hu
      exact .pure (.next (.cons (.value u) hs))
    | waiting on hframes =>
      exact .pure (.await on (List.rel_append hframes (useFrames_similar hspares)) hs)
  | call f args hs =>
    refine (call_retraces f args).bind fun v v' hv => ?_
    subst hv
    exact .pure (.next (.cons (.value v) hs))

theorem step_retraces {i : Instruction Value} (hgroup : i.isGroup = false)
    (hrebinds : i.rebinds = false) {stack stack' : List Operand}
    (hs : SimilarStack hosts lang b stack stack') :
    Retraces b (SimilarStep hosts lang b) (step (engine hosts n) lang depth i stack)
      fun m => step (engine hosts m) lang depth i stack' := by
  have hscope : Retraces b Eq Eval.scope fun _ => Eval.scope :=
    .of_scoped .scope (N := 0) fun _ _ => .refl _
  refine hscope.bind fun scope scope' h => ?_
  subst h
  have hplan : Alike (SimilarPlan hosts lang b) (plan lang scope i stack)
      (plan lang scope i stack') := plan_similar hgroup hrebinds hs
  exact (Retraces.ofExcept hplan).bind fun p p' hp => perform_retraces hin hp

theorem finish_retraces {stack stack' : List Operand}
    (hs : SimilarStack hosts lang b stack stack') :
    Retraces b (SimilarProgress hosts lang b) (finish (engine hosts n) lang depth stack)
      fun m => finish (engine hosts m) lang depth stack' := by
  match hs with
  | .nil => exact .fail _
  | .cons ho .nil =>
    refine (resolve_retraces hin ho).bind fun q q' hq => ?_
    cases hq with
    | done v => exact .pure (.done _)
    | waiting on hframes => exact .pure (.waiting on hframes)
  | .cons _ (.cons _ _) => exact .fail _

theorem run_retraces {code code' : Program Value} (hcode : Similar hosts lang b code code')
    {stack stack' : List Operand} (hs : SimilarStack hosts lang b stack stack') :
    Retraces b (SimilarProgress hosts lang b) (run (engine hosts n) lang depth code stack)
      fun m => run (engine hosts m) lang depth code' stack' := by
  induction hcode generalizing stack stack' with
  | nil => exact finish_retraces hin hs
  | @push part part' rest rest' vs hpart hpart' _ ih =>
    intro w o w₁ hw hx ho
    -- both parts push the same values, with levels of their own
    have hbelow := hpart.below n depth rest stack w hw (by rwa [hx])
    have hvalues : SimilarStack hosts lang b (vs.reverse.map .value ++ stack)
        (vs.reverse.map .value ++ stack') :=
      List.rel_append (List.forall₂_same.mpr fun _ hmem => by
        obtain ⟨v, _, rfl⟩ := List.mem_map.mp hmem
        exact .value v) hs
    obtain ⟨hw₁, o', hrel, N, hN⟩ := ih hvalues w o w₁ hw (hbelow ▸ hx) ho
    obtain ⟨M, hM⟩ := hpart'.above
    refine ⟨hw₁, o', hrel, N + M, fun m hm => ?_⟩
    have hpushed := hM m (by omega) depth rest' stack' w hw
    exact hpushed.trans (hN m (by omega))
  | @group body body' rest rest' hbody _ _ ih =>
    simp only [run_group]
    exact ih (.cons (.thunk hbody) hs)
  | @same i rest rest' hgroup hrebinds hrest ih =>
    simp only [run_cons]
    refine (force_retraces hin (needed i) hs).bind fun r r' hr => ?_
    cases hr with
    | suspended d on hframes hstack =>
      have hfill := SimilarFrame.fill d hstack (.same hgroup hrebinds hrest)
      exact .pure (.waiting on (List.rel_append hframes (.cons hfill .nil)))
    | ready hstack =>
      refine (step_retraces hin hgroup hrebinds hstack).bind fun s s' hstep => ?_
      exact afterStep_retraces hrest ih hstep
  | @assign path body body' rest rest' hroot hbody hrest _ ih =>
    simp only [run_assignment]
    split
    · exact .fail _
    · have hspares : (Use.assign path).Spares b := fun _ h => by cases h; exact hroot
      refine (hin depth _ _ hbody).bind fun p p' hp => ?_
      cases hp with
      | done v =>
        refine (use_retraces hspares v).bind fun u u' hu => ?_
        subst hu
        exact afterStep_retraces hrest ih (.next (.cons (.value u) hs))
      | waiting on hframes =>
        have huse := List.rel_append hframes (useFrames_similar hspares)
        exact .pure (.waiting on (List.rel_append huse (.cons (.push hs hrest) .nil)))

theorem proceed_retraces {f f' : Frame} (hf : SimilarFrame hosts lang b f f') (v : Value) :
    Retraces b (SimilarProgress hosts lang b) (proceed (engine hosts n) lang depth f v)
      fun m => proceed (engine hosts m) lang depth f' v := by
  cases hf with
  | fill d hs hcode => exact run_retraces hin hcode (set_similar hs d (.value v))
  | push hs hcode => exact run_retraces hin hcode (.cons (.value v) hs)
  | truth => exact .pure (.done _)
  | assign hroot => exact (assign_retraces hroot v).bind fun _ _ _ => .pure (.done v)

theorem resume_retraces {frames frames' : List Frame}
    (hframes : SimilarFrames hosts lang b frames frames') (v : Value) :
    Retraces b (SimilarProgress hosts lang b) (resume (engine hosts n) lang depth frames v)
      fun m => resume (engine hosts m) lang depth frames' v := by
  induction hframes generalizing v with
  | nil => exact .pure (.done v)
  | cons hf hrest ih =>
    simp only [resume_cons]
    refine (proceed_retraces hin hf v).bind fun p p' hp => ?_
    cases hp with
    | done v => exact ih v
    | waiting on hframes => exact .pure (.waiting on (List.rel_append hframes hrest))

end

/-- Similar programs do the same, with however many levels the first one is run. -/
theorem engine_enters (hosts : Hosts) (lang : Language Value) (b : Bindings) (n : Nat) :
    Enters hosts lang b (engine hosts n) := by
  induction n with
  | zero => exact fun _ _ _ _ => .exhausted _
  | succ n ih =>
    intro depth code code' hcode
    exact (run_retraces ih hcode .nil).of_below fun m => .refl _

/-! ### Waiting -/

theorem await_retraces (n fuel id : Nat) :
    Retraces b Eq (await hosts n fuel id) fun m => await hosts m m id :=
  .of_scoped ((waiting_scoped hosts n fuel).1 id) (N := n + fuel) fun m hm =>
    (waiting_below hosts (by omega) fuel m (by omega)).1 id

theorem settle_retraces (n fuel : Nat) (v : Value) :
    Retraces b Eq (settle hosts n fuel v) fun m => settle hosts m m v :=
  .of_scoped ((waiting_scoped hosts n fuel).2 v) (N := n + fuel) fun m hm =>
    (waiting_below hosts (by omega) fuel m (by omega)).2.1 v

/-- Runs that are suspended with similar frames settle to the same. -/
theorem drive_retraces (n fuel : Nat) {frames frames' : List Frame} {on : Nat}
    (hframes : SimilarFrames hosts lang b frames frames') :
    Retraces b Eq (drive hosts n fuel ⟨lang, frames, on⟩)
      fun m => drive hosts m m ⟨lang, frames', on⟩ := by
  induction fuel generalizing frames frames' on with
  | zero => exact .exhausted _
  | succ fuel ih =>
    have hbody : Retraces b Eq (drive hosts n (fuel + 1) ⟨lang, frames, on⟩) fun m =>
        await hosts m m on >>= fun v =>
          resume (engine hosts m) lang 0 frames' v >>= conclude hosts lang m m := by
      refine (await_retraces n fuel on).bind fun v v' hv => ?_
      subst hv
      refine (resume_retraces (engine_enters hosts lang b n) hframes v).bind fun p p' hp => ?_
      cases hp with
      | done v => exact settle_retraces n fuel v
      | waiting on hframes => exact ih hframes
    exact hbody.of_below fun m => drive_above hosts lang frames' on m

end Machine

end Formula
