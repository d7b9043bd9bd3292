import Formula.Proofs.Machine.Blind
import Formula.Proofs.Tree.Evaluator

/-!
# The machine and the tree evaluator side by side

What an evaluation does is looked at without the entries for deferred values, which no evaluation
reads: they say how to go on with a suspended program, and trees keep nothing of the kind.
`Mirrors` relates an evaluation of a value to one of trees, `Agree` a run of the machine; both are
carried along `do` blocks.
-/

namespace Formula

/-- A world without what is known of deferred values; their number stays. -/
def World.erase (w : World) : World :=
  { w with deferreds := Array.replicate w.deferreds.size (.settled (.ok .undefined)) }

theorem World.erase_eq_iff {w w' : World} : w'.erase = w.erase ↔ World.Like True w w' := by
  constructor
  · intro h
    have hsize := congrArg (fun w => w.deferreds.size) h
    simp only [erase, Array.size_replicate] at hsize
    simp only [erase, World.mk.injEq] at h
    exact ⟨h.1, h.2.1, fun _ => hsize, h.2.2.2.1, h.2.2.2.2⟩
  · intro h
    simp only [erase, h.scope, h.log, h.size trivial, h.nextId, h.seed]

namespace Tree

open Eval TreeEval

/-! ### Outcomes -/

/-- The outcome of an evaluation of trees. -/
def outcome {α : Type} (r : Except Halt α × World) : Except Halt α × World := (r.1, r.2.erase)

/-- The outcome of an evaluation of the machine, as trees have it. -/
def seen {α : Type} : Except (Stop EvalError) α × World → Except Halt α × World
  | (.ok a, w) => (.ok a, w.erase)
  | (.error s, w) => (.error (.stop s), w.erase)

/-- The outcome of a run of the machine, as trees have it. -/
def observed : Except (Stop EvalError) Progress × World → Except Halt Value × World
  | (.ok (.done v), w) => (.ok v, w.erase)
  | (.ok (.waiting _ on), w) => (.error (.waiting on), w.erase)
  | (.error s, w) => (.error (.stop s), w.erase)

/-- A value that a guard allows and that is known. -/
def Ready (g : Guard) (v : Value) : Prop := v.Obeys g ∧ v.isDeferred = false

section

variable (g : Guard) {α β : Type}

/-- An evaluation that is the same on both sides. -/
def Mirrors (x : Eval α) (y : TreeEval α) : Prop :=
  ∀ w w', w.Sound g → w'.erase = w.erase → outcome (y w') = seen (x w)

/-- A run that gives what trees give. -/
def Agree (m : Eval Progress) (t : TreeEval Value) : Prop :=
  ∀ w w', w.Sound g → w'.erase = w.erase → outcome (t w') = observed (m w) ∧
    ∀ v, (m w).1 = .ok (.done v) → Ready g v

end

section

variable {g : Guard} {α β : Type}

theorem mirrors_lift_iff {x y : Eval α} : Mirrors g x (lift y) ↔
    ∀ w w', w.Sound g → w'.erase = w.erase →
      (y w').1 = (x w).1 ∧ (y w').2.erase = (x w).2.erase := by
  refine forall_congr' fun w => forall_congr' fun w' => forall_congr' fun _ =>
    forall_congr' fun _ => ?_
  unfold lift
  rcases x w with ⟨s | a, w₁⟩ <;> rcases y w' with ⟨s' | a', w₁'⟩ <;>
    simp only [outcome, seen, Prod.mk.injEq, Except.ok.injEq, Except.error.injEq, Halt.stop.injEq,
      reduceCtorEq, false_and]

theorem mirrors_blind {x : Eval α} (h : Blind True x) : Mirrors g x (lift x) := by
  refine mirrors_lift_iff.mpr fun w w' _ he => ?_
  obtain ⟨hr, hs⟩ := h w w' (World.erase_eq_iff.mp he)
  exact ⟨hr, World.erase_eq_iff.mpr hs⟩

/-! ### Composition -/

/-- A mirrored evaluation ends in the same way on both sides. -/
theorem Mirrors.cases {good : α → Prop} {x : Eval α} {y : TreeEval α} (hx : Mirrors g x y)
    (hsafe : Safe g good x) {w w' : World} (hw : w.Sound g) (he : w'.erase = w.erase) :
    (∃ a w₁ w₁', x w = (.ok a, w₁) ∧ y w' = (.ok a, w₁') ∧ w₁'.erase = w₁.erase ∧ good a ∧
        w₁.Sound g) ∨
      ∃ s w₁ w₁', x w = (.error s, w₁) ∧ y w' = (.error (.stop s), w₁') ∧
        w₁'.erase = w₁.erase := by
  have hout := hx w w' hw he
  obtain ⟨hsound, hend⟩ := hsafe w hw
  rcases hxw : x w with ⟨s | a, w₁⟩ <;> rcases hyw : y w' with ⟨r, w₁'⟩ <;>
    rw [hxw] at hout hsound hend <;> rw [hyw] at hout
  · obtain ⟨rfl, hs⟩ : r = .error (.stop s) ∧ w₁'.erase = w₁.erase := Prod.mk.inj hout
    exact Or.inr ⟨s, w₁, w₁', rfl, rfl, hs⟩
  · obtain ⟨rfl, hs⟩ : r = .ok a ∧ w₁'.erase = w₁.erase := Prod.mk.inj hout
    exact Or.inl ⟨a, w₁, w₁', rfl, rfl, hs, hend, hsound⟩

theorem Mirrors.bind {good : α → Prop} {x : Eval α} {y : TreeEval α} {f : α → Eval β}
    {k : α → TreeEval β} (hx : Mirrors g x y) (hsafe : Safe g good x)
    (hf : ∀ a, good a → Mirrors g (f a) (k a)) : Mirrors g (x >>= f) (y >>= k) := by
  intro w w' hw he
  rcases hx.cases hsafe hw he with ⟨a, w₁, w₁', hxw, hyw, h₁, ha, hw₁⟩ | ⟨s, w₁, w₁', hxw, hyw, h₁⟩
  · rw [bind_of_ok hxw, bind_of_ok hyw]
    exact hf a ha w₁ w₁' hw₁ h₁
  · rw [bind_of_error hxw, bind_of_error hyw]
    exact congrArg _ h₁

theorem Mirrors.agree {good : α → Prop} {x : Eval α} {y : TreeEval α} {f : α → Eval Progress}
    {k : α → TreeEval Value} (hx : Mirrors g x y) (hsafe : Safe g good x)
    (hf : ∀ a, good a → Agree g (f a) (k a)) : Agree g (x >>= f) (y >>= k) := by
  intro w w' hw he
  rcases hx.cases hsafe hw he with ⟨a, w₁, w₁', hxw, hyw, h₁, ha, hw₁⟩ | ⟨s, w₁, w₁', hxw, hyw, h₁⟩
  · rw [bind_of_ok hxw, bind_of_ok hyw]
    exact hf a ha w₁ w₁' hw₁ h₁
  · rw [bind_of_error hxw, bind_of_error hyw]
    exact ⟨congrArg _ h₁, fun v hv => by cases hv⟩

/-- A run that goes on with its value, and keeps frames where it waits. -/
theorem Agree.bind {m : Eval Progress} {t : TreeEval Value} {lang : Language Value}
    {f : Progress → Eval Progress} {k : Value → TreeEval Value} (hm : Agree g m t)
    (hsafe : Safe g (Progress.Sound g lang) m)
    (hwait : ∀ frames on, ∃ frames', f (.waiting frames on) = Pure.pure (.waiting frames' on))
    (hf : ∀ v, Ready g v → Agree g (f (.done v)) (k v)) : Agree g (m >>= f) (t >>= k) := by
  intro w w' hw he
  obtain ⟨hout, hready⟩ := hm w w' hw he
  obtain ⟨hsound, hend⟩ := hsafe w hw
  rcases hmw : m w with ⟨s | p, w₁⟩ <;> rcases htw : t w' with ⟨r, w₁'⟩ <;>
    rw [hmw] at hout hready hsound <;> rw [htw] at hout
  · obtain ⟨rfl, hs⟩ : r = .error (.stop s) ∧ w₁'.erase = w₁.erase := Prod.mk.inj hout
    rw [bind_of_error hmw, bind_of_error htw]
    exact ⟨congrArg _ hs, fun v hv => by cases hv⟩
  · cases p with
    | done v =>
      obtain ⟨rfl, hs⟩ : r = .ok v ∧ w₁'.erase = w₁.erase := Prod.mk.inj hout
      rw [bind_of_ok hmw, bind_of_ok htw]
      exact hf v (hready v rfl) w₁ w₁' hsound hs
    | waiting frames on =>
      obtain ⟨rfl, hs⟩ : r = .error (.waiting on) ∧ w₁'.erase = w₁.erase := Prod.mk.inj hout
      obtain ⟨frames', hframes⟩ := hwait frames on
      rw [bind_of_ok hmw, bind_of_error htw, hframes]
      exact ⟨congrArg _ hs, fun v hv => by cases hv⟩

end

end Tree

end Formula
