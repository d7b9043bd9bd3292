import Formula.Proofs.Substitute.Exchanged
import Formula.Proofs.Simplify.Runs

/-!
# Runs of programs with parts exchanged

Programs with parts exchanged do the same, each where its own variables are in scope: what one of
them comes to with some levels, the other comes to with levels enough, and all but the variables in
scope is the same in the end. A part leads to its operand by itself, and an operand that stands for a
value is that value wherever it is needed; any other step is made on both sides.
-/

namespace Formula

open Waiting

namespace Machine

open Eval

section

variable (hosts : Hosts) (lang : Language Value) (a b : Bindings)

/-- Wherever the first evaluation comes to an outcome with its variables in scope, it leaves them
there, and with other variables in scope the second comes to a related outcome in the end. -/
def Matches {α β : Type} (R : α → β → Prop) (x : Eval α) (y : Nat → Eval β) : Prop :=
  ∀ w o w₁, w.scope = a → x w = (o, w₁) → o ≠ .error .exhausted →
    w₁.scope = a ∧ ∃ o', Alike R o o' ∧
      Eventually y { w with scope := b } o' { w₁ with scope := b }

/-- An engine that programs with parts exchanged are compared in. -/
def Exchanges (inner : Engine) : Prop :=
  ∀ depth code code', Exchanged hosts lang a b [] code code' →
    Matches a b (ExchangedProgress hosts lang a b) (inner.enter lang depth code)
      fun m => (engine hosts m).enter lang depth code'

end

variable {hosts : Hosts} {lang : Language Value} {a b : Bindings} {depth n : Nat}
  {σ σ' : List Shape} {stack stack' : List Operand}

namespace Matches

variable {α β γ δ : Type} {R : α → β → Prop} {S : γ → δ → Prop}

theorem iff_mimics {x : Eval α} {y : Nat → Eval β} :
    Matches a b R x y ↔ Mimics (fun w w' => w.scope = a ∧ w' = { w with scope := b }) R x y := by
  constructor
  · rintro h w _ o w₁ ⟨hw, rfl⟩ hx ho
    obtain ⟨hw₁, o', hrel, hy⟩ := h w o w₁ hw hx ho
    exact ⟨o', _, hrel, ⟨hw₁, rfl⟩, hy⟩
  · intro h w o w₁ hw hx ho
    obtain ⟨o', _, hrel, ⟨hw₁, rfl⟩, hy⟩ := h w _ o w₁ ⟨hw, rfl⟩ hx ho
    exact ⟨hw₁, o', hrel, hy⟩

theorem pure {x : α} {y : β} (h : R x y) : Matches a b R (Pure.pure x) fun _ => Pure.pure y :=
  iff_mimics.mpr (.pure h)

theorem ofExcept {x : Except EvalError α} {y : Except EvalError β} (h : Alike R x y) :
    Matches a b R (Eval.ofExcept x) fun _ => Eval.ofExcept y :=
  iff_mimics.mpr (.ofExcept h)

theorem fail (e : EvalError) : Matches a b R (Eval.fail e) fun _ => Eval.fail e :=
  iff_mimics.mpr (.fail e)

theorem exhausted (y : Nat → Eval β) : Matches a b R Eval.exhausted y :=
  iff_mimics.mpr (.exhausted y)

theorem bind {x : Eval α} {y : Nat → Eval β} {f : α → Eval γ} {g : Nat → β → Eval δ}
    (hxy : Matches a b R x y) (hfg : ∀ p q, R p q → Matches a b S (f p) fun m => g m q) :
    Matches a b S (x >>= f) fun m => y m >>= g m :=
  iff_mimics.mpr ((iff_mimics.mp hxy).bind fun p q h => iff_mimics.mp (hfg p q h))

/-- One level more than what is compared with is enough as well. -/
theorem of_below {x : Eval α} {y y' : Nat → Eval β} (h : Matches a b R x y)
    (hy : ∀ m, Below (y m) (y' (m + 1))) : Matches a b R x y' :=
  iff_mimics.mpr ((iff_mimics.mp h).of_below hy)

/-- What neither reads nor changes the variables in scope matches itself. -/
theorem of_apart {x : Eval α} {y : Nat → Eval α} (hx : Apart x) {N : Nat}
    (hy : ∀ m ≥ N, Below x (y m)) : Matches a b Eq x y := by
  intro w o w₁ hw hxw ho
  have hscope := Scoped.of_apart hx w
  have hother := hx w b
  rw [hxw] at hscope hother
  have halike : Alike Eq o o := by
    cases o with
    | ok a => exact .ok rfl
    | error s => exact .error s
  refine ⟨hscope.trans hw, o, halike, N, fun m hm => ?_⟩
  rw [hy m hm _ (by rwa [hother]), hother]

/-- The first evaluation may be one that it unfolds to. -/
theorem left {xs xs' : Nat → Eval α} {y : Nat → Eval β}
    (h : ∀ w, w.scope = a → Unfolds xs xs' w) (hm : Matches a b R (xs' n) y) :
    Matches a b R (xs n) y :=
  iff_mimics.mpr ((iff_mimics.mp hm).left fun w _ hw => h w hw.1)

/-- The second evaluation may be one that it unfolds to. -/
theorem right {x : Eval α} {y y' : Nat → Eval β} (h : ∀ w, w.scope = b → Unfolds y y' w)
    (hm : Matches a b R x y') : Matches a b R x y :=
  iff_mimics.mpr ((iff_mimics.mp hm).right fun w w' hw => h w' (by rw [hw.2]))

end Matches

/-! ### Operands -/

theorem StandsFor.ready {v : Value} {o : Operand} (h : StandsFor hosts lang a v o)
    (hv : v.isDeferred = false) (id : Nat) : o ≠ .value (.deferred id) := by
  rintro rfl
  cases h
  cases hv

theorem set_self {d : Nat} {o : Operand} (h : stack[d]? = some o) : stack.set d o = stack := by
  obtain ⟨hd, rfl⟩ := List.getElem?_eq_some_iff.mp h
  exact List.set_getElem_self hd

/-- An operand that stands for a value is brought to it. -/
theorem StandsFor.force {v : Value} {o : Operand} (h : StandsFor hosts lang a v o)
    (hv : v.isDeferred = false) {d : Nat} (hd : stack[d]? = some o) (ds : List Nat) {w : World}
    (hw : w.scope = a) :
    Unfolds (fun n => force (engine hosts n) lang depth (d :: ds) stack)
      (fun n => force (engine hosts n) lang depth ds (stack.set d (.value v))) w := by
  cases h with
  | value =>
    refine .of_eq fun n => ?_
    rw [set_self hd]
    cases v with
    | deferred id => cases hv
    | _ => rw [Machine.force, hd]
  | thunk hcomes =>
    simp only [force_thunk hd]
    exact (hcomes depth w hw).bind fun n => afterEntry (engine hosts n) lang depth d ds stack

theorem useFrames_exchanged {use : Use} (huse : ∀ path, use ≠ .assign path) :
    ExchangedFrames hosts lang a b use.frames use.frames := by
  cases use with
  | keep => exact .nil
  | truth => exact .cons .truth .nil
  | assign path => exact (huse path rfl).elim

theorem use_matches {use : Use} (huse : ∀ path, use ≠ .assign path) (v : Value) :
    Matches a b Eq (use.apply v) fun _ => use.apply v := by
  cases use with
  | keep => exact .pure rfl
  | truth => exact .pure rfl
  | assign path => exact (huse path rfl).elim

/-- A call is made with the same function and the same arguments. -/
theorem call_matches (f : Function Value) (args : List Value) :
    Matches a b Eq ((engine hosts n).call depth f args)
      fun m => (engine hosts m).call depth f args :=
  .of_apart (engine_apart hosts n depth f args) (N := n)
    fun _ hm => (engine_below hosts hm).call depth f args

/-- What comes after an instruction, once the rest of the code matches. -/
theorem afterStep_matches {rest rest' : Program Value}
    (hrest : Exchanged hosts lang a b σ rest rest')
    (hrun : ∀ {stack stack' : List Operand}, ExchangedStack hosts lang a b σ stack stack' →
      Matches a b (ExchangedProgress hosts lang a b) (run (engine hosts n) lang depth rest stack)
        fun m => run (engine hosts m) lang depth rest' stack')
    {s s' : Step} (hs : ExchangedStep hosts lang a b σ s s') :
    Matches a b (ExchangedProgress hosts lang a b) (afterStep (engine hosts n) lang depth rest s)
      fun m => afterStep (engine hosts m) lang depth rest' s' := by
  cases hs with
  | await on hframes hstack =>
    exact .pure (.waiting on (List.rel_append hframes (.cons (.push hstack hrest) .nil)))
  | @next _ stack stack' hstack =>
    by_cases htop : ∃ id below, stack = .value (.deferred id) :: below
    · obtain ⟨id, below, rfl⟩ := htop
      match hstack with
      | .cons (.value _) hbelow =>
        exact .pure (.waiting id (.cons (.push hbelow hrest) .nil))
      | .cons (.thunk (.stands ⟨v, hv, ho, _⟩)) _ => exact (ho.ready hv.ready id rfl).elim
    · have htop' : ∀ id below, stack' ≠ .value (.deferred id) :: below := by
        rintro id below rfl
        match hstack with
        | .cons (.value _) _ => exact htop ⟨id, _, rfl⟩
        | .cons (.thunk (.stands ⟨v, hv, _, ho⟩)) _ => exact ho.ready hv.ready id rfl
      simp only [afterStep_next htop', afterStep_next fun id below h => htop ⟨id, below, h⟩]
      exact hrun hstack

section

variable (hin : Exchanges hosts lang a b (engine hosts n))

include hin

theorem resolve_matches {s : Shape} {o o' : Operand}
    (ho : PairedAs (ExchangedOperand hosts lang a b) s o o') :
    Matches a b (ExchangedProgress hosts lang a b) (resolve (engine hosts n) lang depth o)
      fun m => resolve (engine hosts m) lang depth o' := by
  cases ho with
  | value v => exact .pure (.done v)
  | object fields => exact .pure (.done _)
  | thunk ho =>
    cases ho with
    | thunk hcode => exact hin depth _ _ hcode
    | stands h =>
      obtain ⟨v, _, hv, hv'⟩ := h
      exact .left (fun w => hv.resolve depth)
        (.right (fun w => hv'.resolve depth) (.pure (.done v)))

theorem force_matches {i : Instruction Value} (ds : List Nat) {τ : List Shape}
    (hds : ∀ d ∈ ds, d ∈ needed i ∧ d < τ.length) (he : effect i τ = effect i σ)
    (hs : ExchangedStack hosts lang a b τ stack stack') :
    Matches a b (ExchangedForced hosts lang a b i σ (forced ds τ))
      (force (engine hosts n) lang depth ds stack)
      fun m => force (engine hosts m) lang depth ds stack' := by
  induction ds generalizing τ stack stack' with
  | nil => exact .pure (.ready hs)
  | cons d ds ih =>
    obtain ⟨⟨hneeded, hd⟩, hds⟩ := List.forall_mem_cons.mp hds
    have hrest : ∀ v, Matches a b (ExchangedForced hosts lang a b i σ (forced (d :: ds) τ))
        (force (engine hosts n) lang depth ds (stack.set d (.value v)))
        fun m => force (engine hosts m) lang depth ds (stack'.set d (.value v)) := fun v =>
      ih (fun c hc => ⟨(hds c hc).1, List.length_set.symm ▸ (hds c hc).2⟩)
        ((effect_set hneeded τ).trans he) (hs.set hd v)
    have hsame : ∀ {s : List Operand} {v : Value}, s[d]? = some (.value v) →
        v.isDeferred = false → ∀ m, force (engine hosts m) lang depth (d :: ds) s =
          force (engine hosts m) lang depth ds (s.set d (.value v)) := by
      intro s v hget hv m
      rw [set_self hget]
      cases v with
      | deferred id => cases hv
      | _ => rw [force, hget]
    obtain ⟨o, o', ho, ho', hpair⟩ := hs.get hd
    generalize τ[d] = t at hpair
    cases hpair with
    | object fields =>
      simp only [hsame ho rfl, hsame ho' rfl]
      exact hrest _
    | value v =>
      cases v with
      | deferred id =>
        simp only [force, ho, ho']
        exact .pure (.suspended id hneeded hd he .nil hs)
      | _ =>
        simp only [hsame ho rfl, hsame ho' rfl]
        exact hrest _
    | thunk hpair =>
      cases hpair with
      | thunk hcode =>
        rw [force_thunk ho]
        simp only [force_thunk ho']
        refine (hin depth _ _ hcode).bind fun p p' hp => ?_
        cases hp with
        | done v => exact hrest v
        | waiting on hframes => exact .pure (.suspended on hneeded hd he hframes hs)
      | stands h =>
        obtain ⟨v, hv, hstands, hstands'⟩ := h
        exact .left (fun w => hstands.force hv.ready ho ds)
          (.right (fun w => hstands'.force hv.ready ho' ds) (hrest v))

theorem perform_matches {p p' : Plan} (hquiet : p.Quiet)
    (hp : PairedPlan (ExchangedOperand hosts lang a b) (fun s s' => s = [] ∧ s' = []) σ p p') :
    Matches a b (ExchangedStep hosts lang a b σ) (perform (engine hosts n) lang depth p)
      fun m => perform (engine hosts m) lang depth p' := by
  cases hp with
  | next hs => exact .pure (.next hs)
  | resolve use ho hs =>
    have huse : ∀ path, use ≠ .assign path := by
      rintro path rfl
      exact hquiet
    refine (resolve_matches hin ho).bind fun q q' hq => ?_
    cases hq with
    | done v =>
      refine (use_matches huse v).bind fun u u' hu => ?_
      subst hu
      exact .pure (.next (hs.value u))
    | waiting on hframes =>
      exact .pure (.await on (List.rel_append hframes (useFrames_exchanged huse)) hs)
  | call f args hs =>
    refine (call_matches f args).bind fun v v' hv => ?_
    subst hv
    exact .pure (.next (hs.value v))
  | define => exact hquiet.elim

theorem step_matches {i : Instruction Value} (hgroup : i.isGroup = false)
    (hwrites : i.writes = false) (he : effect i σ = some σ')
    (hlookup : ∀ name, i = .variable name → lookup lang a name = lookup lang b name)
    (hs : ExchangedStack hosts lang a b (forced (needed i) σ) stack stack') :
    Matches a b (ExchangedStep hosts lang a b σ') (step (engine hosts n) lang depth i stack)
      fun m => step (engine hosts m) lang depth i stack' := by
  have hscope : Matches a b (fun s s' => s = a ∧ s' = b) Eval.scope fun _ => Eval.scope := by
    intro w o w₁ hw hx _
    cases hx
    exact ⟨hw, _, .ok ⟨hw, rfl⟩, 0, fun _ _ => rfl⟩
  refine hscope.bind fun s s' h => ?_
  rw [h.1, h.2]
  have hplan : Alike (PairedPlan (ExchangedOperand hosts lang a b)
      (fun low low' => low = [] ∧ low' = []) σ') (plan lang a i stack)
      (plan lang b i stack') :=
    plan_paired hs (effect_inv he).2 (forced_forced i σ) hlookup
      (fun body h => by subst h; cases hgroup) (fun n h => by subst h; cases hwrites)
  have hquiet : Meets Plan.Quiet (fun _ => True) (plan lang a i stack) := plan_quiet hwrites
  generalize plan lang a i stack = p at hplan hquiet ⊢
  generalize plan lang b i stack' = p' at hplan ⊢
  cases hplan with
  | error e => exact .fail e
  | ok hp => exact perform_matches hin hquiet hp

theorem finish_matches {s : Shape} (hs : ExchangedStack hosts lang a b [s] stack stack') :
    Matches a b (ExchangedProgress hosts lang a b) (finish (engine hosts n) lang depth stack)
      fun m => finish (engine hosts m) lang depth stack' := by
  match hs with
  | .cons ho (.low hlow) =>
    obtain ⟨rfl, rfl⟩ := hlow
    simp only [finish_single]
    refine (resolve_matches hin ho).bind fun q q' hq => ?_
    cases hq with
    | done v => exact .pure (.done _)
    | waiting on hframes => exact .pure (.waiting on hframes)

theorem run_matches {code code' : Program Value} (hcode : Exchanged hosts lang a b σ code code')
    (hs : ExchangedStack hosts lang a b σ stack stack') :
    Matches a b (ExchangedProgress hosts lang a b) (run (engine hosts n) lang depth code stack)
      fun m => run (engine hosts m) lang depth code' stack' := by
  induction hcode generalizing stack stack' with
  | nil s => exact finish_matches hin hs
  | @part s σ o o' part part' rest rest' ho hpart hpart' hend hend' _ ih =>
    exact .left (fun w => hpart depth rest stack w fun h => (hend h).elim)
      (.right (fun w => hpart' depth rest' stack' w fun h => (hend' h).elim)
        (ih (.cons (ho.imp fun _ _ => .stands) hs)))
  | group hbody _ _ ih =>
    simp only [run_group]
    exact ih (hs.thunk (.thunk hbody))
  | @same i σ σ' rest rest' hgroup hwrites he hlookup hrest ih =>
    simp only [run_cons]
    have hneeded : ∀ d ∈ needed i, d ∈ needed i ∧ d < σ.length :=
      fun d hd => ⟨hd, (effect_inv he).1 d hd⟩
    refine (force_matches hin (needed i) hneeded rfl hs).bind fun r r' hr => ?_
    cases hr with
    | @suspended τ d _ _ on _ _ hd hlt hsame hframes hstack =>
      have hcode := Exchanged.same hgroup hwrites ((effect_set hd τ).trans (hsame.trans he))
        hlookup hrest
      have hfill := ExchangedFrame.fill hlt hstack hcode
      exact .pure (.waiting on (List.rel_append hframes (.cons hfill .nil)))
    | ready hstack =>
      refine (step_matches hin hgroup hwrites he hlookup hstack).bind fun s s' hstep => ?_
      exact afterStep_matches hrest ih hstep

theorem proceed_matches {f f' : Frame} (hf : ExchangedFrame hosts lang a b f f') (v : Value) :
    Matches a b (ExchangedProgress hosts lang a b) (proceed (engine hosts n) lang depth f v)
      fun m => proceed (engine hosts m) lang depth f' v := by
  cases hf with
  | fill hd hs hcode => exact run_matches hin hcode (hs.set hd v)
  | push hs hcode => exact run_matches hin hcode (hs.value v)
  | truth => exact .pure (.done _)

theorem resume_matches {frames frames' : List Frame}
    (hframes : ExchangedFrames hosts lang a b frames frames') (v : Value) :
    Matches a b (ExchangedProgress hosts lang a b) (resume (engine hosts n) lang depth frames v)
      fun m => resume (engine hosts m) lang depth frames' v := by
  induction hframes generalizing v with
  | nil => exact .pure (.done v)
  | cons hf hrest ih =>
    simp only [resume_cons]
    refine (proceed_matches hin hf v).bind fun p p' hp => ?_
    cases hp with
    | done v => exact ih v
    | waiting on hframes => exact .pure (.waiting on (List.rel_append hframes hrest))

end

/-- Programs with parts exchanged do the same, with however many levels the first one is run. -/
theorem engine_exchanges (hosts : Hosts) (lang : Language Value) (a b : Bindings) (n : Nat) :
    Exchanges hosts lang a b (engine hosts n) := by
  induction n with
  | zero => exact fun _ _ _ _ => .exhausted _
  | succ n ih =>
    intro depth code code' hcode
    exact (run_matches ih hcode (.low ⟨rfl, rfl⟩)).of_below fun m => .refl _

/-! ### Waiting -/

theorem await_matches (n fuel id : Nat) :
    Matches a b Eq (await hosts n fuel id) fun m => await hosts m m id :=
  .of_apart ((waiting_apart hosts n fuel).1 id) (N := n + fuel) fun m hm =>
    (waiting_below hosts (by omega) fuel m (by omega)).1 id

theorem settle_matches (n fuel : Nat) (v : Value) :
    Matches a b Eq (settle hosts n fuel v) fun m => settle hosts m m v :=
  .of_apart ((waiting_apart hosts n fuel).2 v) (N := n + fuel) fun m hm =>
    (waiting_below hosts (by omega) fuel m (by omega)).2.1 v

/-- Runs that are suspended with parts exchanged settle to the same. -/
theorem drive_matches (n fuel : Nat) {frames frames' : List Frame} {on : Nat}
    (hframes : ExchangedFrames hosts lang a b frames frames') :
    Matches a b Eq (drive hosts n fuel ⟨lang, frames, on⟩)
      fun m => drive hosts m m ⟨lang, frames', on⟩ := by
  induction fuel generalizing frames frames' on with
  | zero => exact .exhausted _
  | succ fuel ih =>
    have hbody : Matches a b Eq (drive hosts n (fuel + 1) ⟨lang, frames, on⟩) fun m =>
        await hosts m m on >>= fun v =>
          resume (engine hosts m) lang 0 frames' v >>= conclude hosts lang m m := by
      refine (await_matches n fuel on).bind fun v v' hv => ?_
      subst hv
      refine (resume_matches (engine_exchanges hosts lang a b n) hframes v).bind fun p p' hp => ?_
      cases hp with
      | done v => exact settle_matches n fuel v
      | waiting on hframes => exact ih hframes
    exact hbody.of_below fun m => drive_above hosts lang frames' on m

end Machine

end Formula
