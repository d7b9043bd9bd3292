import Formula.Machine.Await
import Formula.Proofs.Expr.Balance

/-!
# Sound states

What the states of a run have in common under a guard: every value and program in them obeys it,
and where operators must be in their tables, every stack fits the code that goes on with it.
-/

namespace Formula

namespace Machine

/-- A stack on which code ends with one operand. -/
def Suits (stack : List Operand) (code : Program Value) : Prop :=
  ∃ σ s, Fits stack σ ∧ effects code σ = some [s]

end Machine

open Machine

variable (g : Guard)

namespace Guard

/-- A guard that demands complete tables demands balanced programs. -/
def Lawful : Prop := g.total → ∀ lang code, g.body lang code → Balanced code

/-- The errors that a run under a guard may end in. -/
def Mild (e : EvalError) : Prop := g.total → ¬e.Malformed

end Guard

/-- A frame that a run can go on with, whatever the value is that it waits for. -/
def Frame.Sound (lang : Language Value) (f : Frame) : Prop :=
  f.Obeys g lang ∧
    match f with
    | .fill d stack code => g.total → ∀ v, Suits (stack.set d (.value v)) code
    | .push stack code => g.total → ∀ v, Suits (.value v :: stack) code
    | .truth | .assign _ => True

def Promise.Sound : Promise → Prop
  | .value v => v.Obeys g
  | .error e => g.Mild e
  | .noting _ next => next.Sound
  | .nested p => p.Sound

def Deferred.Sound : Deferred → Prop
  | .settled (.ok v) => v.Obeys g
  | .settled (.error e) => g.Mild e
  | .promised p => p.Sound g
  | .suspended scope lang frames _ =>
    Bindings.Obeys g scope ∧ lang.Obeys g ∧ ∀ f ∈ frames, f.Sound g lang

structure World.Sound (w : World) : Prop where
  scope : Bindings.Obeys g w.scope
  deferreds : ∀ d ∈ w.deferreds, d.Sound g

def Progress.Sound (lang : Language Value) : Progress → Prop
  | .done v => v.Obeys g
  | .waiting frames _ => ∀ f ∈ frames, f.Sound g lang

def Answer.Sound : Answer → Prop
  | .value v => v.Obeys g
  | .error e => g.Mild e
  | .promise p => p.Sound g
  | .call f args => f.Obeys g ∧ ∀ v ∈ args, v.Obeys g

/-- A host that gives sound answers to sound arguments. -/
def Hosts.Sound (hosts : Hosts) : Prop :=
  ∀ key args, (∀ v ∈ args, v.Obeys g) → (hosts key args).answer.Sound g

/-- The host, with every call noted before what the host notes: the function and its arguments. -/
def Hosts.traced (hosts : Hosts) : Hosts := fun key args =>
  { hosts key args with entries := .array (.string key :: args) :: (hosts key args).entries }

theorem Hosts.Sound.traced {g : Guard} {hosts : Hosts} (h : hosts.Sound g) :
    hosts.traced.Sound g := fun key args hargs => h key args hargs

/-- What an evaluation under a guard does: it keeps the world sound and ends mildly. -/
abbrev Eval.Safe {α : Type} (good : α → Prop) (x : Eval α) : Prop :=
  Eval.Keeps (World.Sound g) g.Mild good x

structure Engine.Sound (inner : Engine) : Prop where
  enter : ∀ {lang depth code}, lang.Obeys g → Program.Obeys g lang code →
    Eval.Safe g (Progress.Sound g lang) (inner.enter lang depth code)
  call : ∀ {depth f args}, f.Obeys g → (∀ v ∈ args, v.Obeys g) →
    Eval.Safe g (Value.Obeys g) (inner.call depth f args)

variable {g}

/-! ### The state -/

theorem World.Sound.reseed {w : World} (hw : w.Sound g) (seed : UInt64) :
    ({ w with seed } : World).Sound g := ⟨hw.scope, hw.deferreds⟩

theorem World.Sound.record {w : World} (hw : w.Sound g) (id : Nat) {r : Except EvalError Value}
    (hr : (Deferred.settled r).Sound g) : (w.record id r).Sound g := by
  refine ⟨hw.scope, fun e he => ?_⟩
  rcases Array.mem_or_eq_of_mem_setIfInBounds he with he | rfl
  · exact hw.deferreds e he
  · exact hr

namespace Eval

theorem safe_scope : Safe g (Bindings.Obeys g) scope := fun _ hw => ⟨hw, hw.scope⟩

theorem safe_setScope {b : Bindings} (hb : Bindings.Obeys g b) :
    Safe g (fun _ => True) (setScope b) := fun _ hw => ⟨⟨hb, hw.deferreds⟩, trivial⟩

theorem safe_inScope {α : Type} {good : α → Prop} {b : Bindings} {x : Eval α}
    (hb : Bindings.Obeys g b) (hx : Safe g good x) : Safe g good (inScope b x) := by
  intro w hw
  obtain ⟨hinner, hend⟩ := hx { w with scope := b } ⟨hb, hw.deferreds⟩
  exact ⟨⟨hw.scope, hinner.deferreds⟩, hend⟩

theorem safe_note (entries : List Value) : Safe g (fun _ => True) (note entries) :=
  fun _ hw => ⟨⟨hw.scope, hw.deferreds⟩, trivial⟩

theorem safe_freshId : Safe g (fun _ => True) freshId :=
  fun _ hw => ⟨⟨hw.scope, hw.deferreds⟩, trivial⟩

theorem random_eq (w : World) :
    random w = (.ok (fraction (nextSeed w.seed)), { w with seed := nextSeed w.seed }) := rfl

theorem safe_random : Safe g (fun _ => True) random := by
  intro w hw
  rw [random_eq]
  exact ⟨hw.reseed _, trivial⟩

theorem safe_defer {d : Deferred} (hd : d.Sound g) : Safe g (fun _ => True) (defer d) := by
  intro w hw
  refine ⟨⟨hw.scope, fun e he => ?_⟩, trivial⟩
  rcases Array.mem_push.mp he with he | rfl
  · exact hw.deferreds e he
  · exact hd

theorem safe_assign (path : String) {v : Value} (hv : v.Obeys g) :
    Safe g (fun _ => True) (assign path v) := by
  refine Keeps.bind safe_scope fun b hb => ?_
  have hm : Meets (Bindings.Obeys g) g.Mild (Bindings.assignPath b path v) :=
    (Bindings.assignPath_meets hb path hv).weaken fun _ h _ => h
  exact Keeps.bind (Keeps.ofExcept hm) fun b' hb' => safe_setScope hb'

end Eval

/-! ### Instructions -/

namespace Machine

/-- A plan that obeys the guard and leaves the promised shapes. -/
def Plan.Sound (g : Guard) (lang : Language Value) (σ : List Shape) (p : Plan) : Prop :=
  p.Obeys g lang ∧ (g.total → p.Fits σ)

theorem plan_sound {lang : Language Value} {scope : Bindings} {i : Instruction Value}
    {stack : List Operand} {σ σ' : List Shape} (hlang : lang.Obeys g)
    (hscope : Bindings.Obeys g scope) (hi : i.Obeys g lang) (hs : Stack.Obeys g lang stack)
    (hf : g.total → Fits stack σ ∧ planned i σ = some σ') :
    Meets (Plan.Sound g lang σ') g.Mild (plan lang scope i stack) := by
  have hobeys := plan_obeys hlang hscope hi hs
  have hfits : g.total → Meets (Plan.Fits · σ') (fun e => ¬e.Malformed)
      (plan lang scope i stack) := by
    intro ht
    refine plan_fits (hf ht).1 (hf ht).2 (hi.entry ht) ?_
    rintro name rfl
    exact (lookup_meets hlang hscope hi.natives).mono fun _ _ => trivial
  cases hp : plan lang scope i stack with
  | error e =>
    rw [hp] at hfits
    exact hfits
  | ok p =>
    rw [hp] at hobeys hfits
    exact ⟨hobeys, hfits⟩

end Machine

end Formula
