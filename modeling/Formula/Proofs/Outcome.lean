import Formula.Machine.World

/-!
# What is said of outcomes

`Meets good mild` speaks of a computation that may fail: its result is good, or its error is mild.
`Keeps inv mild good` speaks of an evaluation in the same way, and adds that a world with the
invariant is left with the invariant, also by a failure. `Alike R x y` compares two computations that
may fail: their results are related, or their errors are the same. All are composed along `do` blocks.
-/

namespace Formula

/-- The errors of a program that no expression compiles to. -/
def EvalError.Malformed : EvalError → Prop
  | .parity | .stackUnderflow | .unknownOperator _ => True
  | _ => False

/-! ### Computations that may fail -/

def Meets {ε α : Type} (good : α → Prop) (mild : ε → Prop) : Except ε α → Prop
  | .ok a => good a
  | .error e => mild e

/-- What is computed of a result shows that there is one. -/
theorem exists_ok_of_map {ε α β : Type} {x : Except ε α} {f : α → β} {b : β}
    (h : x.toOption.map f = some b) : ∃ a, x = .ok a ∧ f a = b := by
  cases x with
  | error e => cases h
  | ok a => exact ⟨a, rfl, Option.some.inj h⟩

namespace Meets

variable {ε α β : Type} {mild : ε → Prop}

theorem bind {good : α → Prop} {good' : β → Prop} {x : Except ε α} {f : α → Except ε β}
    (hx : Meets good mild x) (hf : ∀ a, good a → Meets good' mild (f a)) :
    Meets good' mild (x >>= f) := by
  cases x with
  | error e => exact hx
  | ok a => exact hf a hx

theorem any (x : Except ε α) : Meets (fun _ => True) (fun _ => True) x := by
  cases x with
  | error _ => exact trivial
  | ok _ => exact trivial

theorem mono {good good' : α → Prop} {x : Except ε α} (hx : Meets good mild x)
    (h : ∀ a, good a → good' a) : Meets good' mild x := by
  cases x with
  | error e => exact hx
  | ok a => exact h a hx

theorem weaken {good : α → Prop} {mild' : ε → Prop} {x : Except ε α} (hx : Meets good mild x)
    (h : ∀ e, mild e → mild' e) : Meets good mild' x := by
  cases x with
  | error e => exact h e hx
  | ok a => exact hx

theorem result {good : α → Prop} {x : Except ε α} {a : α} (hx : Meets good mild x)
    (h : x = .ok a) : good a := by
  subst h
  exact hx

theorem and {good good' : α → Prop} {x : Except ε α} (h : Meets good mild x)
    (h' : Meets good' mild x) : Meets (fun a => good a ∧ good' a) mild x := by
  cases x with
  | error e => exact h
  | ok a => exact ⟨h, h'⟩

end Meets

/-- Two results that are related, or the same error. -/
inductive Alike {ε α β : Type} (R : α → β → Prop) : Except ε α → Except ε β → Prop
  | ok {a : α} {b : β} : R a b → Alike R (.ok a) (.ok b)
  | error (e : ε) : Alike R (.error e) (.error e)

theorem Alike.bind {ε α β γ δ : Type} {R : α → β → Prop} {S : γ → δ → Prop} {x : Except ε α}
    {y : Except ε β} {f : α → Except ε γ} {g : β → Except ε δ} (hxy : Alike R x y)
    (hfg : ∀ a b, R a b → Alike S (f a) (g b)) : Alike S (x >>= f) (y >>= g) := by
  cases hxy with
  | ok hab => exact hfg _ _ hab
  | error e => exact .error e

theorem Alike.mono {ε α β : Type} {R S : α → β → Prop} {x : Except ε α} {y : Except ε β}
    (h : Alike R x y) (hRS : ∀ a b, R a b → S a b) : Alike S x y := by
  cases h with
  | ok hab => exact .ok (hRS _ _ hab)
  | error e => exact .error e

/-! ### Evaluations -/

namespace Eval

section

variable {ε α β : Type}

theorem bind_of_ok {x : ExceptT ε (StateM World) α} {f : α → ExceptT ε (StateM World) β}
    {w w' : World} {a : α} (h : x w = (.ok a, w')) : (x >>= f) w = f a w' := by
  simp only [bind, ExceptT.bind, ExceptT.mk, StateT.bind, h]
  rfl

theorem bind_of_error {x : ExceptT ε (StateM World) α} {f : α → ExceptT ε (StateM World) β}
    {w w' : World} {s : ε} (h : x w = (.error s, w')) : (x >>= f) w = (.error s, w') := by
  simp only [bind, ExceptT.bind, ExceptT.mk, StateT.bind, h]
  rfl

end

variable {α β : Type}

/-- The two ways in which a sequence of evaluations goes. -/
theorem bind_cases (x : Eval α) (f : α → Eval β) (w : World) :
    (∃ a w', x w = (.ok a, w') ∧ (x >>= f) w = f a w') ∨
      ∃ s w', x w = (.error s, w') ∧ (x >>= f) w = (.error s, w') := by
  rcases hx : x w with ⟨s | a, w'⟩
  · exact Or.inr ⟨s, w', rfl, bind_of_error hx⟩
  · exact Or.inl ⟨a, w', rfl, bind_of_ok hx⟩

theorem bind_eq_ok {x : Eval α} {f : α → Eval β} {w w'' : World} {b : β}
    (h : (x >>= f) w = (.ok b, w'')) : ∃ a w', x w = (.ok a, w') ∧ f a w' = (.ok b, w'') := by
  rcases bind_cases x f w with ⟨a, w', hx, hb⟩ | ⟨s, w', _, hb⟩
  · exact ⟨a, w', hx, hb ▸ h⟩
  · rw [hb] at h
    cases h

/-- An outcome meets a condition when its result does, or its error the condition for errors; lack
of fuel is no outcome. -/
def Ends (mild : EvalError → Prop) (good : α → Prop) : Except (Stop EvalError) α → Prop
  | .ok a => good a
  | .error (.error e) => mild e
  | .error .exhausted => True

/-- An evaluation keeps an invariant of the world, and its outcome meets a condition. -/
def Keeps (inv : World → Prop) (mild : EvalError → Prop) (good : α → Prop) (x : Eval α) : Prop :=
  ∀ w, inv w → inv (x w).2 ∧ Ends mild good (x w).1

namespace Keeps

variable {inv : World → Prop} {mild : EvalError → Prop}

theorem pure {good : α → Prop} {a : α} (h : good a) :
    Keeps inv mild good (Pure.pure a) := fun _ hw => ⟨hw, h⟩

theorem fail {good : α → Prop} {e : EvalError} (h : mild e) :
    Keeps inv mild good (Eval.fail e) := fun _ hw => ⟨hw, h⟩

theorem exhausted {good : α → Prop} : Keeps inv mild good Eval.exhausted :=
  fun _ hw => ⟨hw, trivial⟩

theorem ofExcept {good : α → Prop} {x : Except EvalError α} (h : Meets good mild x) :
    Keeps inv mild good (Eval.ofExcept x) := by
  cases x with
  | error e => exact fail h
  | ok a => exact pure h

theorem bind {good : α → Prop} {good' : β → Prop} {x : Eval α} {f : α → Eval β}
    (hx : Keeps inv mild good x) (hf : ∀ a, good a → Keeps inv mild good' (f a)) :
    Keeps inv mild good' (x >>= f) := by
  intro w hw
  have h := hx w hw
  rcases bind_cases x f w with ⟨a, w', hxw, hb⟩ | ⟨s, w', hxw, hb⟩
  · rw [hxw] at h
    rw [hb]
    exact hf a h.2 w' h.1
  · rw [hxw] at h
    rw [hb]
    refine ⟨h.1, ?_⟩
    cases s with
    | error e => exact h.2
    | exhausted => trivial

theorem mono {good good' : α → Prop} {x : Eval α} (hx : Keeps inv mild good x)
    (h : ∀ a, good a → good' a) : Keeps inv mild good' x := by
  intro w hw
  obtain ⟨hi, he⟩ := hx w hw
  refine ⟨hi, ?_⟩
  match hr : (x w).1 with
  | .ok a =>
    rw [hr] at he
    exact h a he
  | .error (.error e) =>
    rw [hr] at he
    exact he
  | .error .exhausted => trivial

end Keeps

end Eval

end Formula
