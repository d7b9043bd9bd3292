import Formula.Proofs.Machine.Fuel
import Formula.Proofs.Machine.Halting

/-!
# Rations of prepared calls

Calls of prepared functions count against no limit. An engine with a ration lets only so many of
them nest in one another, and is the engine itself as far as the ration goes. Under a ration
everything comes to an end, by induction on the ration; so what goes on for ever needs more than
any ration.
-/

namespace Formula

open Eval Waiting

namespace Machine

/-- Calls a function; a call of a prepared function takes one from the ration, and is not made when
nothing is left. -/
def rationedCall (hosts : Hosts) (inner : Nat → Engine) (ration depth : Nat) (f : Function Value)
    (args : List Value) : Eval Value :=
  match f with
  | .prepared c =>
    match ration with
    | 0 => Eval.exhausted
    | ration + 1 => call (inner ration) depth hosts (.prepared c) args
  | f => call (inner ration) depth hosts f args

/-- The engine, with a ration of calls of prepared functions that are nested in one another. -/
def rationed (hosts : Hosts) : (fuel ration : Nat) → Engine
  | 0, _ => ⟨fun _ _ _ => Eval.exhausted, fun _ _ _ => Eval.exhausted⟩
  | fuel + 1, ration =>
    { enter := fun lang depth code => run (rationed hosts fuel ration) lang depth code []
      call := rationedCall hosts (rationed hosts fuel) ration }

section

variable {hosts : Hosts} {n m r s : Nat}

/-! ### What a ration changes -/

theorem rationedCall_below {inner inner' : Nat → Engine}
    (h : ∀ {r s}, r ≤ s → (inner r).Below (inner' s)) (hr : r ≤ s) (depth : Nat)
    (f : Function Value) (args : List Value) :
    Below (rationedCall hosts inner r depth f args) (rationedCall hosts inner' s depth f args) := by
  cases f with
  | prepared c =>
    cases r with
    | zero => exact .exhausted _
    | succ r =>
      obtain ⟨k, rfl⟩ : ∃ k, s = k + 1 := ⟨s - 1, by omega⟩
      exact call_below (h (by omega)) hosts (.prepared c) args
  | native g => exact call_below (h hr) hosts (.native g) args
  | defined c => exact call_below (h hr) hosts (.defined c) args

/-- More levels and a larger ration change nothing in what runs out of neither. -/
theorem rationed_below (hn : n ≤ m) (hr : r ≤ s) :
    (rationed hosts n r).Below (rationed hosts m s) := by
  induction n generalizing m r s with
  | zero => exact ⟨fun _ _ _ => .exhausted _, fun _ _ _ => .exhausted _⟩
  | succ n ih =>
    obtain ⟨k, rfl⟩ : ∃ k, m = k + 1 := ⟨m - 1, by omega⟩
    have hinner : ∀ {r s}, r ≤ s → (rationed hosts n r).Below (rationed hosts k s) :=
      fun hr => ih (by omega) hr
    exact ⟨fun _ _ code => run_below (hinner hr) code [],
      fun depth f args => rationedCall_below hinner hr depth f args⟩

/-- Each call takes a level, so a ration of as many calls as there are levels is no ration. -/
theorem rationed_eq (hr : n ≤ r) : rationed hosts n r = engine hosts n := by
  induction n generalizing r with
  | zero => rfl
  | succ n ih =>
    have hcall : ∀ depth f args, rationedCall hosts (rationed hosts n) r depth f args =
        call (engine hosts n) depth hosts f args := by
      intro depth f args
      obtain ⟨k, rfl⟩ : ∃ k, r = k + 1 := ⟨r - 1, by omega⟩
      cases f with
      | prepared c =>
        simp only [rationedCall]
        rw [ih (by omega)]
      | native g | defined c =>
        simp only [rationedCall]
        rw [ih (by omega)]
    simp only [rationed, engine, ih (Nat.le_of_succ_le hr)]
    exact congrArg _ (funext fun depth => funext fun f => funext fun args => hcall depth f args)

end

/-! ### Running under a ration -/

/-- The engines with a ration. -/
def rations (hosts : Hosts) (ration : Nat) : Levels hosts where
  engine fuel := rationed hosts fuel ration
  short := True
  enter _ _ _ _ := rfl
  native _ _ _ _ := rfl
  defined _ _ _ _ := rfl

section

variable {R : Realm} {hosts : Hosts} {limit : Nat} (hR : R.Closed)
  (hlimit : ∀ {lang}, R.language lang → lang.options.maxCallDepth ≤ limit)
  (hclosure : ∀ {c}, R.value (.function (.prepared c)) → R.Closure c)

include hR hlimit hclosure

/-- Calls of prepared functions come to an end under every ration: the body is run with one call
less to go, and all that it calls comes to an end under the smaller ration. -/
theorem preparedCalls_stop (ration : Nat) :
    ∀ depth, PreparedCalls R (rations hosts ration) depth := by
  induction ration with
  | zero =>
    refine fun depth c args _ _ => Halts.of_succ ?_
    exact Halts.exhausted trivial
  | succ ration ih =>
    intro depth c args hf hargs
    have hc := hclosure hf
    have hcalls := calls_stop hR hlimit ih limit depth (by omega)
    have hscope : ∀ p ∈ Record.update c.captured (c.params.zip args), R.value p.2 :=
      Record.forall_update hc.captured fun p hp => hargs p.2 (List.of_mem_zip hp).2
    refine Halts.of_succ ?_
    exact enterBody_stops hR (enter_stops hR hcalls hc.language c.body hc.body) hscope

/-- All calls come to an end under a ration. -/
theorem rationed_calls (ration depth : Nat) : Calls R (rations hosts ration) depth :=
  calls_stop hR hlimit (preparedCalls_stop hR hlimit hclosure ration) limit depth (by omega)

end

end Machine

/-! ### Whether a ration is enough -/

namespace Waiting

variable {α β : Type} {y : Nat → Eval α} {w w' w'' : World} {o o' : Except (Stop EvalError) α}

theorem Eventually.unique (h : Eventually y w o w') (h' : Eventually y w o' w'') :
    o = o' ∧ w' = w'' := by
  obtain ⟨N, hN⟩ := h
  obtain ⟨M, hM⟩ := h'
  have heq := (hN _ (Nat.le_max_left N M)).symm.trans (hM _ (Nat.le_max_right N M))
  exact Prod.mk.inj heq

/-- Handing on what an evaluation gives. -/
theorem Eventually.map (h : Eventually y w o w') {f : α → Eval β} {g : α → β}
    (hf : ∀ a, f a = Pure.pure (g a)) : Eventually (fun n => y n >>= f) w (o.map g) w' := by
  obtain ⟨N, hN⟩ := h
  refine ⟨N, fun n hn => ?_⟩
  cases o with
  | ok a => exact (bind_of_ok (hN n hn)).trans (congrFun (hf a) w')
  | error s => exact bind_of_error (hN n hn)

end Waiting

/-- Evaluations with numbers of levels and rations, and those without a ration. -/
structure Rationed {α : Type} (x : (fuel ration : Nat) → Eval α) (y : Nat → Eval α) : Prop where
  below : ∀ {n m r s}, n ≤ m → r ≤ s → Below (x n r) (x m s)
  eq : ∀ {n r}, n ≤ r → x n r = y n

namespace Rationed

variable {α : Type} {x : Nat → Nat → Eval α} {y : Nat → Eval α}

theorem enter (hosts : Hosts) (lang : Language Value) (depth : Nat) (code : Program Value) :
    Rationed (fun n r => (Machine.rationed hosts n r).enter lang depth code)
      fun n => (Machine.engine hosts n).enter lang depth code where
  below hn hr := (Machine.rationed_below hn hr).enter lang depth code
  eq hr := by rw [Machine.rationed_eq hr]

theorem call (hosts : Hosts) (depth : Nat) (f : Function Value) (args : List Value) :
    Rationed (fun n r => (Machine.rationed hosts n r).call depth f args)
      fun n => (Machine.engine hosts n).call depth f args where
  below hn hr := (Machine.rationed_below hn hr).call depth f args
  eq hr := by rw [Machine.rationed_eq hr]

theorem bind {β : Type} (h : Rationed x y) (f : α → Eval β) :
    Rationed (fun n r => x n r >>= f) fun n => y n >>= f where
  below hn hr := .bind (h.below hn hr) fun _ => .refl _
  eq hr := by rw [h.eq hr]

/-- What is done within a ration is done without one. -/
theorem within (h : Rationed x y) (n r : Nat) : Below (x n r) (y n) := by
  rw [← h.eq (Nat.le_max_left n r)]
  exact h.below (Nat.le_refl n) (Nat.le_max_right n r)

/-- What comes to an end under every ration comes to an end without one, or needs more than any
ration. -/
theorem ends_or_overdraws (h : Rationed x y) {R : Realm} {good : α → Prop}
    (hstops : ∀ r, Stops R True good fun n => x n r) {w : World} (hw : R.world w) :
    (∃ o w', Eventually y w o w' ∧ R.world w' ∧ Concludes False good o) ∨
      ∀ r, ∃ w', Eventually (fun n => x n r) w (.error .exhausted) w' := by
  refine or_iff_not_imp_right.mpr fun hover => ?_
  obtain ⟨r, hr⟩ := not_forall.mp hover
  obtain ⟨o, w', ⟨N, hN⟩, hw', ho⟩ := hstops r w hw
  have hne : o ≠ .error .exhausted := by
    rintro rfl
    exact hr ⟨w', N, hN⟩
  refine ⟨o, w', ⟨N, fun n hn => ?_⟩, hw', ?_⟩
  · have hx : x n r w = (o, w') := hN n hn
    rw [← hx]
    exact h.within n r w (by rw [hx]; exact hne)
  · match o, ho, hne with
    | .ok a, ho, _ => exact ho
    | .error (.error e), _, _ => exact trivial
    | .error .exhausted, _, hne => exact hne rfl

/-- What comes to an end without a ration does not need more than any. -/
theorem not_overdraws (h : Rationed x y) {w w' : World} {o : Except (Stop EvalError) α}
    (hy : Eventually y w o w') (hne : o ≠ .error .exhausted) :
    ¬∀ r, ∃ w', Eventually (fun n => x n r) w (.error .exhausted) w' := by
  intro hover
  obtain ⟨N, hN⟩ := hy
  obtain ⟨w'', hexhausted⟩ := hover N
  have hx : ∀ n ≥ N, x n N w = (o, w') := by
    have hself : x N N w = (o, w') := by rw [h.eq (Nat.le_refl N), hN N (Nat.le_refl N)]
    intro n hn
    rw [← hself]
    exact h.below hn (Nat.le_refl N) w (by rw [hself]; exact hne)
  exact hne (Eventually.unique ⟨N, hx⟩ hexhausted).1

end Rationed

end Formula
