import Formula.Proofs.Values.Internal
import Formula.Proofs.Waiting.Pending

/-!
# Evaluations that come to an end

An evaluation takes as many levels of entered programs and calls as it needs. It comes to an end
when from some number of levels on it does the same and does not run out of them. Code does when
the programs on its stack and the calls it makes do: what it does at one level is a loop over its
instructions. Which values and programs occur is given by a realm.
-/

namespace Formula

open Waiting

namespace Eval

variable {α β : Type}

/-- An outcome that is a good result or an error, or lack of levels where they may be short. -/
def Concludes (short : Prop) (good : α → Prop) : Except (Stop EvalError) α → Prop
  | .ok a => good a
  | .error (.error _) => True
  | .error .exhausted => short

/-- Evaluations, one for each number of levels, that come to an end in every world with an
invariant, and keep the invariant. -/
def Halts (short : Prop) (inv : World → Prop) (good : α → Prop) (x : Nat → Eval α) : Prop :=
  ∀ w, inv w → ∃ o w', Eventually x w o w' ∧ inv w' ∧ Concludes short good o

namespace Halts

variable {short : Prop} {inv : World → Prop} {good : α → Prop} {good' : β → Prop}

theorem const {x : Eval α} (h : ∀ w, inv w → inv (x w).2 ∧ Concludes short good (x w).1) :
    Halts short inv good fun _ => x :=
  fun w hw => ⟨(x w).1, (x w).2, ⟨0, fun _ _ => rfl⟩, h w hw⟩

theorem pure {a : α} (h : good a) : Halts short inv good fun _ => Pure.pure a :=
  const fun _ hw => ⟨hw, h⟩

theorem fail (e : EvalError) : Halts short inv good fun _ => Eval.fail e :=
  const fun _ hw => ⟨hw, trivial⟩

theorem exhausted (h : short) : Halts short inv good fun _ => Eval.exhausted :=
  const fun _ hw => ⟨hw, h⟩

theorem ofExcept {mild : EvalError → Prop} {r : Except EvalError α} (h : Meets good mild r) :
    Halts short inv good fun _ => Eval.ofExcept r := by
  cases r with
  | error e => exact fail e
  | ok a => exact pure h

theorem bind {x : Nat → Eval α} {f : Nat → α → Eval β} (hx : Halts short inv good x)
    (hf : ∀ a, good a → Halts short inv good' fun n => f n a) :
    Halts short inv good' fun n => x n >>= f n := by
  intro w hw
  obtain ⟨o, w₁, ⟨N, hN⟩, hw₁, ho⟩ := hx w hw
  match o, ho with
  | .ok a, ho =>
    obtain ⟨o', w₂, ⟨M, hM⟩, hw₂, ho'⟩ := hf a ho w₁ hw₁
    refine ⟨o', w₂, ⟨max N M, fun m hm => ?_⟩, hw₂, ho'⟩
    exact (bind_of_ok (hN m (le_of_max_le_left hm))).trans (hM m (le_of_max_le_right hm))
  | .error (.error e), _ =>
    exact ⟨_, w₁, ⟨N, fun m hm => bind_of_error (hN m hm)⟩, hw₁, trivial⟩
  | .error .exhausted, hshort =>
    exact ⟨_, w₁, ⟨N, fun m hm => bind_of_error (hN m hm)⟩, hw₁, hshort⟩

/-- Whether evaluations come to an end does not depend on the first of them. -/
theorem of_succ {x : Nat → Eval α} (h : Halts short inv good fun n => x (n + 1)) :
    Halts short inv good x := by
  intro w hw
  obtain ⟨o, w', ⟨N, hN⟩, hrest⟩ := h w hw
  refine ⟨o, w', ⟨N + 1, fun m hm => ?_⟩, hrest⟩
  obtain ⟨k, rfl⟩ : ∃ k, m = k + 1 := ⟨m - 1, by omega⟩
  exact hN k (by omega)

end Halts

end Eval

/-! ### Realms -/

/-- What may occur in a run: values, languages and the programs in them, and whether values may be
deferred. -/
structure Realm where
  value : Value → Prop
  language : Language Value → Prop
  program : Language Value → Program Value → Prop
  waits : Prop

namespace Realm

/-- What a function of a formula holds belongs to a realm. -/
structure Closure (R : Realm) (c : Formula.Closure Value) : Prop where
  language : R.language c.language
  body : R.program c.language c.body
  captured : ∀ p ∈ c.captured, R.value p.2

/-- Running the programs of a realm does not leave it, and asks no host. -/
structure Closed (R : Realm) : Prop where
  partwise : Value.Partwise R.value
  deferred : ∀ {id : Nat}, R.value (.deferred id) ↔ R.waits
  native : ∀ {f : Native}, R.value (.function (.native f)) → f.BuiltIn
  defined : ∀ {c : Formula.Closure Value}, R.value (.function (.defined c)) ↔ R.Closure c
  instruction : ∀ {lang : Language Value} {code : Program Value}, R.language lang →
    R.program lang code → ∀ i ∈ code, i.Made R.value (R.program lang) lang
  resolve : ∀ {lang : Language Value}, R.language lang →
    ∀ name v, lang.resolve? name = some (.value v) → R.value v

/-- A world with values of a realm in scope. -/
def world (R : Realm) (w : World) : Prop := ∀ p ∈ w.scope, R.value p.2

def progress (R : Realm) : Progress → Prop
  | .done v => R.value v
  | .waiting _ _ => R.waits

end Realm

/-- Evaluations that come to an end where the values in scope belong to a realm. -/
abbrev Eval.Stops (R : Realm) (short : Prop) {α : Type} (good : α → Prop) (x : Nat → Eval α) :
    Prop :=
  Halts short R.world good x

/-! ### The state -/

namespace Eval

variable {R : Realm} {short : Prop} {α : Type}

theorem stops_scope : Stops R short (fun b : Bindings => ∀ p ∈ b, R.value p.2) fun _ => scope :=
  Halts.const fun _ hw => ⟨hw, hw⟩

theorem stops_setScope {b : Bindings} (hb : ∀ p ∈ b, R.value p.2) :
    Stops R short (fun _ => True) fun _ => setScope b := Halts.const fun _ _ => ⟨hb, trivial⟩

theorem stops_freshId : Stops R short (fun _ => True) fun _ => freshId :=
  Halts.const fun _ hw => ⟨hw, trivial⟩

theorem stops_defer (d : Deferred) : Stops R short (fun _ => True) fun _ => defer d :=
  Halts.const fun _ hw => ⟨hw, trivial⟩

theorem stops_random : Stops R short (fun _ => True) fun _ => random := by
  -- the seed is generalised so that nothing computes the next one
  have hreseed : ∀ {w : World} seed, R.world w → R.world { w with seed } := fun _ hw => hw
  refine Halts.const fun w hw => ?_
  rw [random_eq]
  exact ⟨hreseed _ hw, trivial⟩

theorem stops_assign (hR : R.Closed) (path : String) {v : Value} (hv : R.value v) :
    Stops R short (fun _ => True) fun _ => assign path v := by
  refine Halts.bind stops_scope fun b hb => ?_
  have hassigned := Bindings.assignPath_fieldwise hR.partwise.fieldwise hb path hv
  exact Halts.bind (Halts.ofExcept hassigned) fun b' hb' => stops_setScope hb'

theorem stops_inScope {good : α → Prop} {b : Bindings} {x : Nat → Eval α}
    (hb : ∀ p ∈ b, R.value p.2) (hx : Stops R short good x) :
    Stops R short good fun n => inScope b (x n) := by
  intro w hw
  obtain ⟨o, w', ⟨N, hN⟩, _, ho⟩ := hx { w with scope := b } hb
  refine ⟨o, { w' with scope := w.scope }, ⟨N, fun m hm => ?_⟩, hw, ho⟩
  simp only [inScope, hN m hm]

end Eval

namespace Machine

open Eval

/-- Engines for every number of levels, which may refuse to call functions that are prepared. -/
structure Levels (hosts : Hosts) where
  engine : Nat → Engine
  /-- whether an evaluation may end for lack of levels, however many there are -/
  short : Prop
  enter : ∀ n lang depth code,
    (engine (n + 1)).enter lang depth code = run (engine n) lang depth code []
  native : ∀ n depth f args,
    (engine (n + 1)).call depth (.native f) args = callNative (engine n) depth hosts f args
  defined : ∀ n depth c args,
    (engine (n + 1)).call depth (.defined c) args = call (engine n) depth hosts (.defined c) args

section

variable (R : Realm) {hosts : Hosts} (E : Levels hosts)

/-- Code that comes to an end when it is entered. -/
def EntryStops (lang : Language Value) (depth : Nat) (code : Program Value) : Prop :=
  Eval.Stops R E.short R.progress fun n => (E.engine n).enter lang depth code

/-- Code on the stack: it may become the body of a function. -/
def Enterable (lang : Language Value) (depth : Nat) (code : Program Value) : Prop :=
  R.program lang code ∧ EntryStops R E lang depth code

/-- Calls of functions of a realm come to an end at a depth. -/
def Calls (depth : Nat) : Prop :=
  ∀ f args, R.value (.function f) → (∀ v ∈ args, R.value v) →
    Eval.Stops R E.short R.value fun n => (E.engine n).call depth f args

/-- Calls of prepared functions of a realm come to an end at a depth. -/
def PreparedCalls (depth : Nat) : Prop :=
  ∀ c args, R.value (.function (.prepared c)) → (∀ v ∈ args, R.value v) →
    Eval.Stops R E.short R.value fun n => (E.engine n).call depth (.prepared c) args

/-- An operand, a stack and a plan made of values of a realm and of code that can be entered. -/
abbrev Halting (lang : Language Value) (depth : Nat) (stack : List Operand) : Prop :=
  Stack.Made R.value (Enterable R E lang depth) stack

end

variable {R : Realm} {hosts : Hosts} {E : Levels hosts} {lang : Language Value} {depth : Nat}
  {stack : List Operand} (hR : R.Closed)

/-! ### Instructions -/

theorem resolve_stops {o : Operand} (ho : o.Made R.value (Enterable R E lang depth)) :
    Stops R E.short R.progress fun n => resolve (E.engine n) lang depth o := by
  cases o with
  | value v => exact Halts.pure ho
  | thunk code => exact ho.2

include hR

theorem force_stops (ds : List Nat) (hs : Halting R E lang depth stack) :
    Stops R E.short (Forced.Made R.value (Enterable R E lang depth) R.waits)
      fun n => force (E.engine n) lang depth ds stack := by
  induction ds generalizing stack with
  | nil => exact Halts.pure hs
  | cons d ds ih =>
    cases hd : stack[d]? with
    | none =>
      simp only [force, hd]
      exact Halts.fail _
    | some o =>
      have ho := hs o (List.mem_of_getElem? hd)
      cases o with
      | value v =>
        cases v with
        | deferred id =>
          simp only [force, hd]
          exact Halts.pure (hR.deferred.mp ho)
        | _ =>
          simp only [force, hd]
          exact ih hs
      | thunk code =>
        simp only [force_thunk hd]
        refine Halts.bind ho.2 fun p hp => ?_
        cases p with
        | done v => exact ih (hs.set d hp)
        | waiting frames on => exact Halts.pure hp

theorem use_stops (use : Use) {v : Value} (hv : R.value v) :
    Stops R E.short R.value fun _ => use.apply v := by
  cases use with
  | keep => exact Halts.pure hv
  | truth => exact Halts.pure (hR.partwise.bool _)
  | assign path => exact Halts.bind (stops_assign hR path hv) fun _ _ => Halts.pure hv

theorem define_stops (hlang : R.language lang) (name : String) (params : List String)
    {body : Program Value} (hbody : R.program lang body) :
    Stops R E.short R.value fun _ => define lang name params body := by
  refine Halts.bind stops_scope fun captured hc => ?_
  refine Halts.bind stops_freshId fun id _ => ?_
  have hf : R.value (.function (.defined ⟨id, name, params, body, captured, lang⟩)) :=
    hR.defined.mpr ⟨hlang, hbody, hc⟩
  exact Halts.bind (stops_setScope (Record.forall_insert hc name hf)) fun _ _ => Halts.pure hf

theorem perform_stops (hcalls : Calls R E depth) (hlang : R.language lang) {p : Plan}
    (hp : p.Made R.value (Enterable R E lang depth)) :
    Stops R E.short (Step.Made R.value (Enterable R E lang depth) R.waits)
      fun n => perform (E.engine n) lang depth p := by
  cases p with
  | next stack => exact Halts.pure hp
  | resolve o use stack =>
    refine Halts.bind (resolve_stops hp.1) fun r hr => ?_
    cases r with
    | done v => exact Halts.bind (use_stops hR use hr) fun u hu => Halts.pure (hp.2.cons hu)
    | waiting frames on => exact Halts.pure hr
  | call f args stack =>
    exact Halts.bind (hcalls f args hp.1 hp.2.1) fun v hv => Halts.pure (hp.2.2.cons hv)
  | define name params body stack =>
    exact Halts.bind (define_stops hR hlang name params hp.1.1) fun v hv =>
      Halts.pure (hp.2.cons hv)

theorem step_stops (hcalls : Calls R E depth) (hlang : R.language lang) {i : Instruction Value}
    (hi : i.Made R.value (Enterable R E lang depth) lang) (hs : Halting R E lang depth stack) :
    Stops R E.short (Step.Made R.value (Enterable R E lang depth) R.waits)
      fun n => step (E.engine n) lang depth i stack := by
  refine Halts.bind stops_scope fun scope hscope => ?_
  have hplan := plan_made hR.partwise.fieldwise (hR.resolve hlang) hscope hi hs
  exact Halts.bind (Halts.ofExcept hplan) fun p hp => perform_stops hR hcalls hlang hp

/-! ### Code -/

theorem finish_stops (hs : Halting R E lang depth stack) :
    Stops R E.short R.progress fun n => finish (E.engine n) lang depth stack := by
  match stack, hs with
  | [], _ => exact Halts.fail _
  | [o], hs =>
    refine Halts.bind (resolve_stops hs.head) fun p hp => ?_
    cases p with
    | done v => exact Halts.pure (hR.partwise.normalise hp)
    | waiting frames on => exact Halts.pure hp
  | _ :: _ :: _, _ => exact Halts.fail _

theorem run_stops (hcalls : Calls R E depth) (hlang : R.language lang) {code : Program Value}
    (hcode : ∀ i ∈ code, i.Made R.value (Enterable R E lang depth) lang)
    (hs : Halting R E lang depth stack) :
    Stops R E.short R.progress fun n => run (E.engine n) lang depth code stack := by
  induction code generalizing stack with
  | nil => exact finish_stops hR hs
  | cons i rest ih =>
    obtain ⟨hi, hrest⟩ := List.forall_mem_cons.mp hcode
    simp only [run_cons]
    refine Halts.bind (force_stops hR _ hs) fun r hr => ?_
    cases r with
    | suspended d frames on stack => exact Halts.pure hr
    | ready stack =>
      refine Halts.bind (step_stops hR hcalls hlang hi hr) fun p hp => ?_
      unfold afterStep
      split
      · exact Halts.pure hp
      · exact Halts.pure (hR.deferred.mp hp.head)
      · exact ih hrest hp

/-- Code is entered at a depth where calls come to an end; the programs in it are entered one level
further in, and they are smaller. -/
theorem enter_stops (hcalls : Calls R E depth) (hlang : R.language lang) (code : Program Value)
    (hcode : R.program lang code) : EntryStops R E lang depth code := by
  have hmade : ∀ i ∈ code, i.Made R.value (Enterable R E lang depth) lang := by
    intro i hi
    have hparts := hR.instruction hlang hcode i hi
    refine ⟨hparts.literal, ?_, hparts.natives⟩
    rintro body rfl
    have hbody := hparts.group body rfl
    exact ⟨hbody, enter_stops hcalls hlang body hbody⟩
  refine Halts.of_succ ?_
  simp only [E.enter]
  exact run_stops hR hcalls hlang hmade fun o ho => (List.not_mem_nil ho).elim
termination_by sizeOf code
decreasing_by
  have hsize := List.sizeOf_lt_of_mem hi
  simp only [Instruction.group.sizeOf_spec] at hsize
  omega

/-! ### Calls

A traversal calls a function at its own depth, with an item and a number after it or, in a fold,
with two values and a number. A traversal that is called so finds no array where its own stands,
but for `map` and `filter` within a fold: so traversals nest at most three deep.
-/

omit hR in
/-- A traversal that is called with an item and an index calls nothing. -/
theorem traverse_item (t : Traversal) (x : Value) (i : Float) :
    ∃ r : Except EvalError Value, Meets (· = .undefined) (fun _ => True) r ∧
      ∀ inner depth, traverse inner depth t [x, .number i] = Eval.ofExcept r := by
  cases t with
  | map | filter =>
    cases x with
    | _ => exact ⟨.error _, trivial, fun _ _ => rfl⟩
  | fold => exact ⟨.ok .undefined, rfl, fun _ _ => rfl⟩

omit hR in
/-- What a traversal works on stands in its arguments. -/
theorem traversalArguments_spec (name : String) (args : List Value) (arrayAt : Nat) :
    Meets (fun r => Operation.arg args 0 = .function r.1 ∧ Operation.arg args arrayAt = .array r.2)
      (fun _ => True) (traversalArguments name args arrayAt) := by
  unfold traversalArguments
  split
  · next f items hf hitems => exact ⟨hf, hitems⟩
  · exact trivial
  · exact trivial

/-- Calls of a function with an item and its index come to an end. -/
def ItemCalls (R : Realm) (E : Levels hosts) (depth : Nat) (f : Function Value) : Prop :=
  ∀ x i, R.value x → Stops R E.short R.value fun n => (E.engine n).call depth f [x, .number i]

/-- Calls of a function with the result so far, an item and its index come to an end. -/
def FoldCalls (R : Realm) (E : Levels hosts) (depth : Nat) (f : Function Value) : Prop :=
  ∀ acc x i, R.value acc → R.value x →
    Stops R E.short R.value fun n => (E.engine n).call depth f [acc, x, .number i]

section

variable {f : Function Value} {args items : List Value}

omit hR in
theorem mapItems_stops (h : ItemCalls R E depth f) (i : Nat) (hitems : ∀ v ∈ items, R.value v) :
    Stops R E.short (fun vs => ∀ v ∈ vs, R.value v)
      fun n => mapItems (E.engine n) depth f i items := by
  induction items generalizing i with
  | nil => exact Halts.pure hitems
  | cons x rest ih =>
    obtain ⟨hx, hrest⟩ := List.forall_mem_cons.mp hitems
    refine Halts.bind (h x _ hx) fun y hy => Halts.bind (ih (i + 1) hrest) fun ys hys => ?_
    exact Halts.pure (List.forall_mem_cons.mpr ⟨hy, hys⟩)

omit hR in
theorem filterItems_stops (h : ItemCalls R E depth f) (i : Nat)
    (hitems : ∀ v ∈ items, R.value v) :
    Stops R E.short (fun vs => ∀ v ∈ vs, R.value v)
      fun n => filterItems (E.engine n) depth f i items := by
  induction items generalizing i with
  | nil => exact Halts.pure hitems
  | cons x rest ih =>
    obtain ⟨hx, hrest⟩ := List.forall_mem_cons.mp hitems
    refine Halts.bind (h x _ hx) fun y hy => ?_
    refine Halts.bind (ih (i + 1) hrest) fun kept hkept => Halts.pure ?_
    split
    · exact List.forall_mem_cons.mpr ⟨hx, hkept⟩
    · exact hkept

omit hR in
theorem foldItems_stops (h : FoldCalls R E depth f) (i : Nat) {acc : Value} (hacc : R.value acc)
    (hitems : ∀ v ∈ items, R.value v) :
    Stops R E.short R.value fun n => foldItems (E.engine n) depth f i acc items := by
  induction items generalizing i acc with
  | nil => exact Halts.pure hacc
  | cons x rest ih =>
    obtain ⟨hx, hrest⟩ := List.forall_mem_cons.mp hitems
    exact Halts.bind (h acc x _ hacc hx) fun y hy => ih (i + 1) hy hrest

/-- A traversal comes to an end when the calls it makes do; only a fold over an array makes calls
with three arguments. -/
theorem traverse_stops (t : Traversal) (hargs : ∀ v ∈ args, R.value v)
    (hitem : ∀ f, R.value (.function f) → ItemCalls R E depth f)
    (hfold : ∀ f items, Operation.arg args 2 = .array items → R.value (.function f) →
      FoldCalls R E depth f) :
    Stops R E.short R.value fun n => traverse (E.engine n) depth t args := by
  have hparts := hR.partwise
  have harg : ∀ i, R.value (Operation.arg args i) :=
    Operation.arg_hereditary hparts.toHereditary hargs
  cases t with
  | map =>
    simp only [traverse]
    split
    · exact Halts.pure hparts.undefined
    · refine Halts.bind (Halts.ofExcept (traversalArguments_spec "map" args 1)) fun r hr => ?_
      have hmap := mapItems_stops (hitem r.1 (hr.1 ▸ harg 0)) 0 (hparts.items (hr.2 ▸ harg 1))
      exact Halts.bind hmap fun vs hvs => Halts.pure (hparts.array hvs)
  | filter =>
    simp only [traverse]
    split
    · exact Halts.pure hparts.undefined
    · refine Halts.bind (Halts.ofExcept (traversalArguments_spec "filter" args 1)) fun r hr => ?_
      have hfilter := filterItems_stops (hitem r.1 (hr.1 ▸ harg 0)) 0
        (hparts.items (hr.2 ▸ harg 1))
      exact Halts.bind hfilter fun vs hvs => Halts.pure (hparts.array hvs)
  | fold =>
    simp only [traverse]
    split
    · exact Halts.pure hparts.undefined
    · refine Halts.bind (Halts.ofExcept (traversalArguments_spec "fold" args 2)) fun r hr => ?_
      exact foldItems_stops (hfold r.1 r.2 hr.2 (hr.1 ▸ harg 0)) 0 (harg 1)
        (hparts.items (hr.2 ▸ harg 2))

theorem callNative_stops {g : Native} (hg : g.BuiltIn) (hargs : ∀ v ∈ args, R.value v)
    (htraverse : ∀ t, Stops R E.short R.value fun n => traverse (E.engine n) depth t args) :
    Stops R E.short R.value fun n => callNative (E.engine n) depth hosts g args := by
  unfold callNative
  cases ha : g.action with
  | operation op =>
    exact Halts.ofExcept (op.apply_hereditary hR.partwise.toHereditary hargs)
  | traversal t => exact htraverse t
  | random => exact Halts.bind stops_random fun _ _ => Halts.pure (hR.partwise.number _)
  | host key => exact (hg key ha).elim

theorem enterBody_stops {c : Closure Value} {scope : Bindings}
    (hbody : EntryStops R E c.language depth c.body) (hscope : ∀ p ∈ scope, R.value p.2) :
    Stops R E.short R.value fun n => enterBody (E.engine n) depth c scope := by
  simp only [enterBody_eq]
  refine stops_inScope hscope (Halts.bind hbody fun p hp => ?_)
  cases p with
  | done v => exact Halts.pure hp
  | waiting frames on =>
    refine Halts.bind stops_scope fun scope _ => ?_
    exact Halts.bind (stops_defer _) fun id _ => Halts.pure (hR.deferred.mpr hp)

/-- A call comes to an end when the bodies that may be entered one call deeper do, calls of prepared
functions do, and traversals of its arguments do. -/
theorem call_stops
    (hbodies : ∀ (lang : Language Value) code, R.language lang →
      depth < lang.options.maxCallDepth → R.program lang code →
        EntryStops R E lang (depth + 1) code)
    (hprepared : PreparedCalls R E depth) (hf : R.value (.function f))
    (hargs : ∀ v ∈ args, R.value v)
    (htraverse : ∀ t, Stops R E.short R.value fun n => traverse (E.engine n) depth t args) :
    Stops R E.short R.value fun n => (E.engine n).call depth f args := by
  cases f with
  | native g =>
    refine Halts.of_succ ?_
    simp only [E.native]
    exact callNative_stops hR (hR.native hf) hargs htraverse
  | defined c =>
    obtain ⟨hlang, hbody, hcaptured⟩ := hR.defined.mp hf
    have hscope := definedScope_hereditary hR.partwise.toHereditary hcaptured hf hargs
    refine Halts.of_succ ?_
    simp only [E.defined, call]
    split
    · next hdepth => exact enterBody_stops hR (hbodies _ _ hlang hdepth hbody) hscope
    · exact Halts.fail _
  | prepared c => exact hprepared c args hf hargs

end

/-- Calls come to an end at a depth when the bodies that may be entered one call deeper and the
calls of prepared functions do. -/
theorem calls_of_bodies
    (hbodies : ∀ (lang : Language Value) code, R.language lang →
      depth < lang.options.maxCallDepth → R.program lang code →
        EntryStops R E lang (depth + 1) code)
    (hprepared : PreparedCalls R E depth) : Calls R E depth := by
  have hitem : ∀ f, R.value (.function f) → ItemCalls R E depth f := by
    intro f hf x i hx
    have hargs : ∀ v ∈ [x, .number i], R.value v :=
      List.forall_mem_cons.mpr ⟨hx, List.forall_mem_singleton.mpr (hR.partwise.number i)⟩
    refine call_stops hR hbodies hprepared hf hargs fun t => ?_
    obtain ⟨r, hr, heq⟩ := traverse_item t x i
    simp only [heq]
    exact Halts.ofExcept (hr.mono fun v hv => hv ▸ hR.partwise.undefined)
  have hfold : ∀ f, R.value (.function f) → FoldCalls R E depth f := by
    intro f hf acc x i hacc hx
    have hargs : ∀ v ∈ [acc, x, .number i], R.value v :=
      List.forall_mem_cons.mpr ⟨hacc, List.forall_mem_cons.mpr
        ⟨hx, List.forall_mem_singleton.mpr (hR.partwise.number i)⟩⟩
    exact call_stops hR hbodies hprepared hf hargs fun t =>
      traverse_stops hR t hargs hitem fun f items harray => by cases harray
  exact fun f args hf hargs => call_stops hR hbodies hprepared hf hargs fun t =>
    traverse_stops hR t hargs hitem fun f _ _ => hfold f

/-- Under a limit every call comes to an end when those of prepared functions do: by induction on how
far its depth is from the limit. -/
theorem calls_stop {limit : Nat}
    (hlimit : ∀ {lang}, R.language lang → lang.options.maxCallDepth ≤ limit)
    (hprepared : ∀ depth, PreparedCalls R E depth) (distance : Nat) :
    ∀ depth, limit ≤ depth + distance → Calls R E depth := by
  induction distance with
  | zero =>
    refine fun depth hnear => calls_of_bodies hR (fun lang code hlang hdepth _ => ?_)
      (hprepared depth)
    have hmax := hlimit hlang
    omega
  | succ distance ih =>
    exact fun depth hnear => calls_of_bodies hR (fun lang code hlang _ hcode =>
      enter_stops hR (ih (depth + 1) (by omega)) hlang code hcode) (hprepared depth)

end Machine

end Formula
