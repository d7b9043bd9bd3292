import Formula.Evaluation
import Formula.Proofs.Machine.Sound
import Formula.Proofs.Machine.Steps

/-!
# Watched calls

A watched run notes when a function of a formula is called and when its call is over, also by a
failure. Calls are active in between, so the marks tell how many are active at the same time.
-/

namespace Formula

/-- A call of a function of a formula begins. -/
def calling : Value := .bool true

/-- The call that began last is over. -/
def called : Value := .bool false

/-- How many calls are active after a mark. -/
def afterMark (active : Nat) : Value → Nat
  | .bool true => active + 1
  | .bool false => active - 1
  | _ => active

/-- The greatest number of calls that are active at the same time, where some are active before. -/
def peak : (active : Nat) → List Value → Nat
  | active, [] => active
  | active, m :: marks => max active (peak (afterMark active m) marks)

/-- Marks of calls that are all over. -/
inductive Nested : List Value → Prop
  | nil : Nested []
  | call {marks rest : List Value} :
      Nested marks → Nested rest → Nested (calling :: marks ++ called :: rest)

namespace Machine

/-- Notes the beginning and the end of an evaluation. -/
def watched {α : Type} (x : Eval α) : Eval α := fun w =>
  let (result, inner) := x { w with log := w.log ++ [calling] }
  (result, { inner with log := inner.log ++ [called] })

/-- Calls a function; a call of a function of a formula is watched. -/
def watchedCall (inner : Engine) (depth : Nat) (hosts : Hosts) (f : Function Value)
    (args : List Value) : Eval Value :=
  match f with
  | .defined c => watched (call inner depth hosts (.defined c) args)
  | f => call inner depth hosts f args

/-- The engine, with calls of functions of formulas watched. -/
def watchedEngine (hosts : Hosts) : (fuel : Nat) → Engine
  | 0 => ⟨fun _ _ _ => Eval.exhausted, fun _ _ _ => Eval.exhausted⟩
  | fuel + 1 =>
    { enter := fun lang depth code => run (watchedEngine hosts fuel) lang depth code []
      call := fun depth f args => watchedCall (watchedEngine hosts fuel) depth hosts f args }

end Machine

/-- The greatest number of calls of functions of formulas that are active at the same time while an
expression is evaluated. -/
def Expr.activeCalls (hosts : Hosts) (fuel : Nat) (lang : Language Value) (e : Expr) (w : World) :
    Nat :=
  peak 0 ((Machine.watchedEngine hosts fuel).enter lang 0 e.compile { w with log := [] }).2.log

/-! ### Marks -/

theorem le_peak (active : Nat) (marks : List Value) : active ≤ peak active marks := by
  cases marks with
  | nil => exact Nat.le_refl active
  | cons m marks => exact Nat.le_max_left _ _

theorem peak_le_append (active : Nat) (marks more : List Value) :
    peak active marks ≤ peak active (marks ++ more) := by
  induction marks generalizing active with
  | nil => exact le_peak active more
  | cons m marks ih =>
    have h := ih (afterMark active m)
    rw [List.cons_append, peak, peak]
    omega

theorem lt_peak_calling (active : Nat) (marks : List Value) :
    active < peak active (calling :: marks) := by
  have h := le_peak (active + 1) marks
  have hstep : peak active (calling :: marks) = max active (peak (active + 1) marks) := rfl
  omega

theorem Nested.peak_append {marks : List Value} (h : Nested marks) (active : Nat)
    (more : List Value) :
    peak active (marks ++ more) = max (peak active marks) (peak active more) := by
  induction h generalizing active more with
  | nil =>
    have h := le_peak active more
    rw [List.nil_append, peak]
    omega
  | @call marks rest _ _ ihmarks ihrest =>
    have hcall : ∀ more, peak active (calling :: marks ++ called :: more) =
        max active (max (peak (active + 1) marks) (max (active + 1) (peak active more))) := by
      intro more
      have hstep : peak active (calling :: marks ++ called :: more) =
        max active (peak (active + 1) (marks ++ called :: more)) := rfl
      have hover : peak (active + 1) (called :: more) = max (active + 1) (peak active more) := rfl
      rw [hstep, ihmarks, hover]
    have hassoc : calling :: marks ++ called :: rest ++ more =
      calling :: marks ++ called :: (rest ++ more) := by simp
    rw [hassoc, hcall, hcall, ihrest]
    omega

theorem Nested.append {marks more : List Value} (h : Nested marks) (h' : Nested more) :
    Nested (marks ++ more) := by
  induction h with
  | nil => exact h'
  | @call marks rest hmarks _ _ ih =>
    have hassoc : calling :: marks ++ called :: rest ++ more =
      calling :: marks ++ called :: (rest ++ more) := by simp
    rw [hassoc]
    exact .call hmarks ih

theorem Nested.single {marks : List Value} (h : Nested marks) :
    Nested (calling :: marks ++ [called]) := .call h .nil

/-- While a call is active, so is one more than in what it does. -/
theorem Nested.peak_single {marks : List Value} (h : Nested marks) (active : Nat) :
    peak active (calling :: marks ++ [called]) = peak (active + 1) marks := by
  have hstep : peak active (calling :: marks ++ [called]) =
      max active (peak (active + 1) (marks ++ [called])) := rfl
  have hover : peak (active + 1) [called] = max (active + 1) active := rfl
  have hle := le_peak (active + 1) marks
  rw [hstep, h.peak_append, hover]
  omega

/-! ### Logs that grow -/

/-- An evaluation that only adds to what has been noted. -/
def Eval.Adds {α : Type} (x : Eval α) : Prop := ∀ w, w.log <+: (x w).2.log

namespace Eval.Adds

variable {α β : Type}

theorem pure (a : α) : Adds (Pure.pure a : Eval α) := fun _ => List.prefix_refl _

theorem fail (e : EvalError) : Adds (Eval.fail e : Eval α) := fun _ => List.prefix_refl _

theorem exhausted : Adds (Eval.exhausted : Eval α) := fun _ => List.prefix_refl _

theorem ofExcept (x : Except EvalError α) : Adds (Eval.ofExcept x) := by
  cases x with
  | error e => exact fail e
  | ok a => exact pure a

theorem bind {x : Eval α} {f : α → Eval β} (hx : Adds x) (hf : ∀ a, Adds (f a)) :
    Adds (x >>= f) := by
  intro w
  have hw := hx w
  rcases bind_cases x f w with ⟨a, w', hxw, hb⟩ | ⟨s, w', hxw, hb⟩
  · rw [hxw] at hw
    rw [hb]
    exact hw.trans (hf a w')
  · rw [hxw] at hw
    rw [hb]
    exact hw

theorem scope : Adds Eval.scope := fun _ => List.prefix_refl _

theorem setScope (b : Bindings) : Adds (Eval.setScope b) := fun _ => List.prefix_refl _

theorem note (entries : List Value) : Adds (Eval.note entries) := fun _ => List.prefix_append _ _

theorem freshId : Adds Eval.freshId := fun _ => List.prefix_refl _

theorem defer (d : Deferred) : Adds (Eval.defer d) := fun _ => List.prefix_refl _

theorem random : Adds Eval.random := by
  intro w
  -- the seed is generalised so that nothing computes the next one
  obtain ⟨x, seed, hnext⟩ : ∃ x seed, Eval.random w = (.ok x, { w with seed }) :=
    ⟨_, _, random_eq w⟩
  exact hnext ▸ List.prefix_refl _

theorem assign (path : String) (v : Value) : Adds (Eval.assign path v) :=
  .bind .scope fun _ => .bind (.ofExcept _) fun b => .setScope b

theorem inScope (b : Bindings) {x : Eval α} (hx : Adds x) : Adds (Eval.inScope b x) :=
  fun w => hx { w with scope := b }

theorem watched {x : Eval α} (hx : Adds x) : Adds (Machine.watched x) := fun w =>
  (List.prefix_append w.log [calling]).trans
    ((hx { w with log := w.log ++ [calling] }).trans (List.prefix_append _ [called]))

end Eval.Adds

/-- An engine whose programs and calls only add to what has been noted. -/
structure Engine.Adds (inner : Engine) : Prop where
  enter : ∀ lang depth code, (inner.enter lang depth code).Adds
  call : ∀ depth f args, (inner.call depth f args).Adds

namespace Machine

open Eval (Adds)

variable {inner : Engine} {lang : Language Value} {depth : Nat}

theorem resolve_adds (h : inner.Adds) (o : Operand) : Adds (resolve inner lang depth o) := by
  cases o with
  | value v => exact .pure _
  | thunk code => exact h.enter lang depth code

theorem force_adds (h : inner.Adds) (ds : List Nat) (stack : List Operand) :
    Adds (force inner lang depth ds stack) := by
  induction ds generalizing stack with
  | nil => exact .pure _
  | cons d ds ih =>
    unfold force
    split
    · exact .fail _
    · exact .pure _
    · exact ih stack
    · refine .bind (h.enter lang depth _) fun p => ?_
      cases p with
      | done v => exact ih _
      | waiting frames on => exact .pure _

theorem use_adds (use : Use) (v : Value) : Adds (use.apply v) := by
  cases use with
  | keep => exact .pure _
  | truth => exact .pure _
  | assign path => exact .bind (.assign path v) fun _ => .pure _

theorem define_adds (name : String) (params : List String) (body : Program Value) :
    Adds (define lang name params body) :=
  .bind .scope fun _ => .bind .freshId fun _ => .bind (.setScope _) fun _ => .pure _

theorem perform_adds (h : inner.Adds) (p : Plan) : Adds (perform inner lang depth p) := by
  cases p with
  | next stack => exact .pure _
  | resolve o use stack =>
    refine .bind (resolve_adds h o) fun p => ?_
    cases p with
    | done v => exact .bind (use_adds use v) fun _ => .pure _
    | waiting frames on => exact .pure _
  | call f args stack => exact .bind (h.call depth f args) fun _ => .pure _
  | define name params body stack => exact .bind (define_adds name params body) fun _ => .pure _

theorem step_adds (h : inner.Adds) (i : Instruction Value) (stack : List Operand) :
    Adds (step inner lang depth i stack) :=
  .bind .scope fun _ => .bind (.ofExcept _) fun p => perform_adds h p

theorem finish_adds (h : inner.Adds) (stack : List Operand) :
    Adds (finish inner lang depth stack) := by
  match stack with
  | [] | _ :: _ :: _ => exact .fail _
  | [o] =>
    refine .bind (resolve_adds h o) fun p => ?_
    cases p with
    | done v => exact .pure _
    | waiting frames on => exact .pure _

/-- What is done after an instruction, if the rest of the code only adds. -/
theorem afterStep_adds {rest : Program Value}
    (hrest : ∀ stack, Adds (run inner lang depth rest stack)) (s : Step) :
    Adds (afterStep inner lang depth rest s) := by
  unfold afterStep
  split
  · exact .pure _
  · exact .pure _
  · exact hrest _

theorem afterForce_adds (h : inner.Adds) {rest : Program Value}
    (hrest : ∀ stack, Adds (run inner lang depth rest stack)) (i : Instruction Value)
    (r : Forced) : Adds (afterForce inner lang depth i rest r) := by
  cases r with
  | suspended d frames on stack => exact .pure _
  | ready stack => exact .bind (step_adds h i stack) fun s => afterStep_adds hrest s

theorem run_adds (h : inner.Adds) (code : Program Value) (stack : List Operand) :
    Adds (run inner lang depth code stack) := by
  induction code generalizing stack with
  | nil => exact finish_adds h stack
  | cons i rest ih =>
    rw [run_cons]
    exact .bind (force_adds h _ stack) fun r => afterForce_adds h ih i r

theorem mapItems_adds (h : inner.Adds) (f : Function Value) (i : Nat) (items : List Value) :
    Adds (mapItems inner depth f i items) := by
  induction items generalizing i with
  | nil => exact .pure _
  | cons x rest ih => exact .bind (h.call depth f _) fun _ => .bind (ih (i + 1)) fun _ => .pure _

theorem filterItems_adds (h : inner.Adds) (f : Function Value) (i : Nat) (items : List Value) :
    Adds (filterItems inner depth f i items) := by
  induction items generalizing i with
  | nil => exact .pure _
  | cons x rest ih => exact .bind (h.call depth f _) fun _ => .bind (ih (i + 1)) fun _ => .pure _

theorem foldItems_adds (h : inner.Adds) (f : Function Value) (i : Nat) (acc : Value)
    (items : List Value) : Adds (foldItems inner depth f i acc items) := by
  induction items generalizing i acc with
  | nil => exact .pure _
  | cons x rest ih => exact .bind (h.call depth f _) fun y => ih (i + 1) y

theorem traverse_adds (h : inner.Adds) (t : Traversal) (args : List Value) :
    Adds (traverse inner depth t args) := by
  cases t with
  | map =>
    simp only [traverse]
    split
    · exact .pure _
    · exact .bind (.ofExcept _) fun p => .bind (mapItems_adds h p.1 0 p.2) fun _ => .pure _
  | filter =>
    simp only [traverse]
    split
    · exact .pure _
    · exact .bind (.ofExcept _) fun p => .bind (filterItems_adds h p.1 0 p.2) fun _ => .pure _
  | fold =>
    simp only [traverse]
    split
    · exact .pure _
    · exact .bind (.ofExcept _) fun p => foldItems_adds h p.1 0 _ p.2

theorem callNative_adds (h : inner.Adds) (hosts : Hosts) (f : Native) (args : List Value) :
    Adds (callNative inner depth hosts f args) := by
  unfold callNative
  cases f.action with
  | operation op => exact .ofExcept _
  | traversal t => exact traverse_adds h t args
  | random => exact .bind .random fun _ => .pure _
  | host key =>
    refine .bind (.note _) fun _ => ?_
    cases (hosts key args).answer with
    | value v => exact .pure v
    | error e => exact .fail e
    | promise p => exact .bind (.defer _) fun _ => .pure _
    | call g args => exact h.call depth g args

theorem enterBody_adds (h : inner.Adds) (c : Closure Value) (scope : Bindings) :
    Adds (enterBody inner depth c scope) := by
  refine .inScope scope (.bind (h.enter c.language depth c.body) fun p => ?_)
  cases p with
  | done v => exact .pure v
  | waiting frames on => exact .bind .scope fun _ => .bind (.defer _) fun _ => .pure _

theorem call_adds (h : inner.Adds) (hosts : Hosts) (f : Function Value) (args : List Value) :
    Adds (call inner depth hosts f args) := by
  cases f with
  | native g => exact callNative_adds h hosts g args
  | defined c =>
    simp only [call]
    split
    · exact enterBody_adds h c _
    · exact .fail _
  | prepared c => exact enterBody_adds h c _

theorem watchedEngine_adds (hosts : Hosts) (fuel : Nat) : (watchedEngine hosts fuel).Adds := by
  induction fuel with
  | zero => exact ⟨fun _ _ _ => .exhausted, fun _ _ _ => .exhausted⟩
  | succ fuel ih =>
    refine ⟨fun _ _ code => run_adds ih code [], fun depth f args => ?_⟩
    have hcall : Adds (call (watchedEngine hosts fuel) depth hosts f args) :=
      call_adds ih hosts f args
    cases f with
    | defined c => exact .watched hcall
    | native g => exact hcall
    | prepared c => exact hcall

end Machine

end Formula
