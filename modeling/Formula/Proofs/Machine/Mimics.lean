import Formula.Proofs.Machine.Known
import Formula.Proofs.Simplify.Similar

/-!
# One evaluation in terms of others

An evaluation with some bound is compared with others that have higher bounds and start in a related
world: what it comes to, they come to in the end, in a related world again. Such comparisons are
composed along `do` blocks.
-/

namespace Formula

open Waiting

namespace Eval

variable {α β γ δ : Type}

/-- Wherever the first evaluation comes to an outcome, the others come to a related one in the end,
from related worlds and to related worlds. -/
def Mimics (W : World → World → Prop) (R : α → β → Prop) (x : Eval α) (y : Nat → Eval β) : Prop :=
  ∀ w w' o w₁, W w w' → x w = (o, w₁) → o ≠ .error .exhausted →
    ∃ o' w₁', Alike R o o' ∧ W w₁ w₁' ∧ Eventually y w' o' w₁'

namespace Mimics

variable {W : World → World → Prop} {R : α → β → Prop} {S : γ → δ → Prop}

theorem pure {a : α} {a' : β} (h : R a a') : Mimics W R (Pure.pure a) fun _ => Pure.pure a' := by
  intro w w' o w₁ hw hx _
  cases hx
  exact ⟨.ok a', w', .ok h, hw, 0, fun _ _ => rfl⟩

/-- An evaluation that needs no levels is compared in one step. -/
theorem once {x : Eval α} {y : Eval β}
    (h : ∀ w w', W w w' → Alike R (x w).1 (y w').1 ∧ W (x w).2 (y w').2) :
    Mimics W R x fun _ => y := by
  intro w w' o w₁ hw hx _
  obtain ⟨hrel, hw₁⟩ := h w w' hw
  rw [hx] at hrel hw₁
  exact ⟨_, _, hrel, hw₁, 0, fun _ _ => rfl⟩

theorem ofExcept {x : Except EvalError α} {x' : Except EvalError β} (h : Alike R x x') :
    Mimics W R (Eval.ofExcept x) fun _ => Eval.ofExcept x' := by
  cases h with
  | ok hab => exact pure hab
  | error e =>
    intro w w' o w₁ hw hx _
    cases hx
    exact ⟨_, w', .error _, hw, 0, fun _ _ => rfl⟩

theorem fail (e : EvalError) : Mimics W R (Eval.fail e) fun _ => Eval.fail e :=
  ofExcept (x := .error e) (.error e)

theorem exhausted (y : Nat → Eval β) : Mimics W R Eval.exhausted y := by
  intro w w' o w₁ _ hx ho
  cases hx
  exact (ho rfl).elim

theorem bind {x : Eval α} {y : Nat → Eval β} {f : α → Eval γ} {g : Nat → β → Eval δ}
    (hxy : Mimics W R x y) (hfg : ∀ a a', R a a' → Mimics W S (f a) fun m => g m a') :
    Mimics W S (x >>= f) fun m => y m >>= g m := by
  intro w w' o w₁ hw hx ho
  rcases bind_cases x f w with ⟨a, w₂, hxw, hb⟩ | ⟨s, w₂, hxw, hb⟩
  · obtain ⟨o', w₂', hrel, hw₂, hy⟩ := hxy w w' _ w₂ hw hxw (by simp)
    rw [hb] at hx
    cases hrel with
    | ok ha =>
      obtain ⟨o'', w₁', hrel', hw₁, hg⟩ := hfg a _ ha w₂ w₂' o w₁ hw₂ hx ho
      exact ⟨o'', w₁', hrel', hw₁, .bind_ok hy hg⟩
  · rw [hb] at hx
    cases hx
    have hs : (Except.error s : Except (Stop EvalError) α) ≠ .error .exhausted := by
      intro h
      cases h
      exact ho rfl
    obtain ⟨o', w₂', hrel, hw₂, hy⟩ := hxy w w' _ _ hw hxw hs
    cases hrel with
    | error _ => exact ⟨_, w₂', .error s, hw₂, .bind_error g hy⟩

theorem mono {R' : α → β → Prop} {x : Eval α} {y : Nat → Eval β} (h : Mimics W R x y)
    (hR : ∀ a b, R a b → R' a b) : Mimics W R' x y := by
  intro w w' o w₁ hw hx ho
  obtain ⟨o', w₁', hrel, hw₁, hy⟩ := h w w' o w₁ hw hx ho
  exact ⟨o', w₁', hrel.mono hR, hw₁, hy⟩

/-- One level more than what is compared with is enough as well. -/
theorem of_below {x : Eval α} {y y' : Nat → Eval β} (h : Mimics W R x y)
    (hy : ∀ m, Below (y m) (y' (m + 1))) : Mimics W R x y' := by
  intro w w' o w₁ hw hx ho
  obtain ⟨o', w₁', hrel, hw₁, N, hN⟩ := h w w' o w₁ hw hx ho
  have ho' : o' ≠ .error .exhausted := by
    rintro rfl
    cases hrel
    exact ho rfl
  refine ⟨o', w₁', hrel, hw₁, N + 1, fun m hm => ?_⟩
  obtain ⟨n, rfl⟩ : ∃ n, m = n + 1 := ⟨m - 1, by omega⟩
  have hn := hN n (by omega)
  rw [hy n w' (by rwa [hn]), hn]

/-- An evaluation comes to the same with a higher bound, and to a good result if it gives one. -/
theorem same {good : α → Prop} {x : Eval α} {y : Nat → Eval α} (hx : Gives good x) {N : Nat}
    (hy : ∀ m ≥ N, Below x (y m)) : Mimics Eq (fun a a' => a = a' ∧ good a) x y := by
  rintro w _ o w₁ rfl hxw ho
  have hgood := (hx w trivial).2
  rw [hxw] at hgood
  refine ⟨o, w₁, ?_, rfl, N, fun m hm => ?_⟩
  · cases o with
    | ok a => exact .ok ⟨rfl, hgood⟩
    | error s => exact .error s
  · rw [hy m hm w (by rwa [hxw]), hxw]

end Mimics

end Eval

/-! ### Evaluations level by level -/

namespace Eval

variable {α β : Type}

theorem bind_of_eq {x y : Eval α} {f : α → Eval β} {w : World} (h : x w = y w) :
    (x >>= f) w = (y >>= f) w := by
  simp only [Bind.bind, ExceptT.bind, ExceptT.mk, StateT.bind, h]

/-- Evaluations, one for each number of levels, that are the same as others unless they run out of
levels; with levels enough they are the same. -/
structure Unfolds (x y : Nat → Eval α) (w : World) : Prop where
  below : ∀ n, (x n w).1 ≠ .error .exhausted → x n w = y n w
  above : ∃ N, ∀ n ≥ N, x n w = y n w

namespace Unfolds

variable {x y z : Nat → Eval α} {w : World}

theorem of_eq (h : ∀ n, x n w = y n w) : Unfolds x y w :=
  ⟨fun n _ => h n, 0, fun n _ => h n⟩

/-- Evaluations that are given one level more, and without it have none. -/
theorem shift {z : Eval α} (hzero : ∀ w, (x 0 w).1 = .error .exhausted)
    (h : Unfolds (fun n => x (n + 1)) (fun _ => z) w) : Unfolds x (fun _ => z) w := by
  refine ⟨fun n hn => ?_, ?_⟩
  · cases n with
    | zero => exact (hn (hzero w)).elim
    | succ n => exact h.below n hn
  · obtain ⟨N, hN⟩ := h.above
    refine ⟨N + 1, fun n hn => ?_⟩
    obtain ⟨m, rfl⟩ : ∃ m, n = m + 1 := ⟨n - 1, by omega⟩
    exact hN m (by omega)

theorem trans (hxy : Unfolds x y w) (hyz : Unfolds y z w) : Unfolds x z w := by
  refine ⟨fun n hn => ?_, ?_⟩
  · have hy := hxy.below n hn
    rw [hy] at hn ⊢
    exact hyz.below n hn
  · obtain ⟨N, hN⟩ := hxy.above
    obtain ⟨M, hM⟩ := hyz.above
    exact ⟨N + M, fun n hn => (hN n (by omega)).trans (hM n (by omega))⟩

theorem after (h : Unfolds x y w) (f : Nat → α → Eval β) :
    Unfolds (fun n => x n >>= f n) (fun n => y n >>= f n) w := by
  refine ⟨fun n hn => bind_of_eq (h.below n fun hx => hn ?_), ?_⟩
  · rcases bind_cases (x n) (f n) w with ⟨a, w', hxa, _⟩ | ⟨s, w', hxs, hb⟩
    · rw [hxa] at hx
      cases hx
    · rw [hxs] at hx
      rw [hb]
      exact congrArg Except.error (Except.error.inj hx)
  · obtain ⟨N, hN⟩ := h.above
    exact ⟨N, fun n hn => bind_of_eq (hN n hn)⟩

/-- What comes after an evaluation that gives one result and changes nothing. -/
theorem bind {a : α} (h : Unfolds x (fun _ => pure a) w) (f : Nat → α → Eval β) :
    Unfolds (fun n => x n >>= f n) (fun n => f n a) w := by
  simpa only [pure_bind] using h.after f

end Unfolds

namespace Mimics

variable {W : World → World → Prop} {R : α → β → Prop} {n : Nat}

/-- The first evaluation may be one that it unfolds to. -/
theorem left {x x' : Nat → Eval α} {y : Nat → Eval β} (h : ∀ w w', W w w' → Unfolds x x' w)
    (hm : Mimics W R (x' n) y) : Mimics W R (x n) y := by
  intro w w' o w₁ hw hx ho
  have hsame := (h w w' hw).below n (by rwa [hx])
  exact hm w w' o w₁ hw (hsame ▸ hx) ho

/-- The second evaluation may be one that it unfolds to. -/
theorem right {x : Eval α} {y y' : Nat → Eval β} (h : ∀ w w', W w w' → Unfolds y y' w')
    (hm : Mimics W R x y') : Mimics W R x y := by
  intro w w' o w₁ hw hx ho
  obtain ⟨o', w₁', hrel, hw₁, N, hN⟩ := hm w w' o w₁ hw hx ho
  obtain ⟨M, hM⟩ := (h w w' hw).above
  refine ⟨o', w₁', hrel, hw₁, N + M, fun m hm => ?_⟩
  rw [hM m (by omega), hN m (by omega)]

end Mimics

end Eval

namespace Machine

open Eval

/-- Going on after a wait is bounded by one wait less. -/
theorem drive_above (hosts : Hosts) (lang : Language Value) (frames : List Frame) (on m : Nat) :
    Below (await hosts m m on >>= fun v =>
        resume (engine hosts m) lang 0 frames v >>= conclude hosts lang m m)
      (drive hosts (m + 1) (m + 1) ⟨lang, frames, on⟩) := by
  have hlevels : m ≤ m + 1 := Nat.le_succ m
  obtain ⟨hawait, hsettle, hdrive⟩ := waiting_below hosts hlevels m m (Nat.le_refl m)
  refine .bind (hawait on) fun v => .bind (resume_below (engine_below hosts hlevels) _ v) fun p => ?_
  cases p with
  | done v => exact hsettle v
  | waiting frames on => exact hdrive ⟨lang, frames, on⟩

end Machine

end Formula
