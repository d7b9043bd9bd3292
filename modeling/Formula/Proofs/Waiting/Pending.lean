import Formula.Evaluation
import Formula.Proofs.Machine.Blind
import Formula.Proofs.Machine.Steps

/-!
# Suspended runs

A suspended run is judged by what becomes of it: with enough levels and fuel, going on with its
frames leads to a result, whatever frames come after them. Between its suspension and its
resumption only further deferred values are entered.
-/

namespace Formula

/-- A world in which only further deferred values have been entered. -/
structure World.Extends (w w' : World) : Prop where
  like : World.Like False w w'
  kept : ∀ {id : Nat} {d : Deferred}, w.deferreds[id]? = some d → w'.deferreds[id]? = some d

namespace World.Extends

variable {w w' w'' : World}

theorem refl (w : World) : w.Extends w := ⟨.refl False w, id⟩

theorem trans (h : w.Extends w') (h' : w'.Extends w'') : w.Extends w'' :=
  ⟨h.like.trans h'.like, fun hd => h'.kept (h.kept hd)⟩

theorem rescope (h : w.Extends w') (scope : Bindings) :
    World.Extends { w with scope } { w' with scope } := ⟨h.like.rescope scope, h.kept⟩

theorem push (w : World) (d : Deferred) :
    w.Extends { w with deferreds := w.deferreds.push d } := by
  refine ⟨⟨rfl, rfl, fun hc => hc.elim, rfl, rfl⟩, fun {id e} he => ?_⟩
  obtain ⟨hid, _⟩ := Array.getElem?_eq_some_iff.mp he
  show (w.deferreds.push d)[id]? = some e
  rw [Array.getElem?_push_lt hid, ← he, Array.getElem?_eq_getElem hid]

end World.Extends

namespace Waiting

open Eval Machine

/-- The outcome of an evaluation of a value. -/
def result : Except EvalError Value → Except (Stop EvalError) Value
  | .ok v => .ok v
  | .error e => .error (.error e)

/-- The outcome of a run that ends. -/
def ended : Except EvalError Value → Except (Stop EvalError) Progress
  | .ok v => .ok (.done v)
  | .error e => .error (.error e)

theorem result_ne_exhausted (r : Except EvalError Value) : result r ≠ .error .exhausted := by
  cases r <;> simp [result]

theorem ended_ne_exhausted (r : Except EvalError Value) : ended r ≠ .error .exhausted := by
  cases r <;> simp [ended]

/-- The string that a run ends with. -/
def string? : Except (Stop EvalError) Progress → Option String
  | .ok (.done (.string s)) => some s
  | _ => none

theorem of_string? {o : Except (Stop EvalError) Progress} {s : String} (h : string? o = some s) :
    o = .ok (.done (.string s)) := by
  unfold string? at h
  split at h
  · rw [Option.some.inj h]
  · cases h

/-- The error that an evaluation ends with. -/
def failure? {α : Type} : Except (Stop EvalError) α → Option EvalError
  | .error (.error e) => some e
  | _ => none

theorem of_failure? {α : Type} {o : Except (Stop EvalError) α} {e : EvalError}
    (h : failure? o = some e) : o = .error (.error e) := by
  unfold failure? at h
  split at h
  · rw [Option.some.inj h]
  · cases h

/-- What an evaluation does under every bound that is high enough. -/
def Eventually {α : Type} (y : Nat → Eval α) (w : World) (o : Except (Stop EvalError) α)
    (w' : World) : Prop := ∃ N, ∀ m ≥ N, y m w = (o, w')

/-- A wait gives a result, in a world like another, with enough levels and fuel. -/
def Yields (x : (levels fuel : Nat) → Eval Value) (w : World) (r : Except EvalError Value)
    (w₁ : World) : Prop :=
  ∃ N w', World.Like False w₁ w' ∧ ∀ levels ≥ N, ∀ fuel ≥ N, x levels fuel w = (result r, w')

section

variable (hosts : Hosts) (lang : Language Value)

/-- What a wait does with what a run has come to. -/
def conclude (levels fuel : Nat) : Progress → Eval Value
  | .done v => settle hosts levels fuel v
  | .waiting frames on => drive hosts levels fuel ⟨lang, frames, on⟩

/-- Goes on with frames once the result they wait for is known. -/
def goOn (frames : List Frame) (r : Except EvalError Value) (levels fuel : Nat) : Eval Value := do
  let v ← Eval.ofExcept r
  conclude hosts lang levels fuel (← resume (engine hosts levels) lang 0 frames v)

/-- Waiting for a deferred value comes to a result, from a world on. -/
def Settles (id : Nat) (w : World) (r : Except EvalError Value) (w₁ : World) : Prop :=
  ∀ w', w.Extends w' → Yields (fun levels fuel => await hosts levels fuel id) w' r w₁

/-- Going on with frames once their deferred value is known comes to a result, from a world on:
what further frames make of that result is what comes of all of them. -/
def Pending (frames : List Frame) (on : Nat) (w : World) (r : Except EvalError Value)
    (w₁ : World) : Prop :=
  ∀ w', w.Extends w' → ∀ more r' w₂,
    (∀ w₃, World.Like False w₁ w₃ → Yields (goOn hosts lang more r) w₃ r' w₂) →
      Yields (fun levels fuel => drive hosts levels fuel ⟨lang, frames ++ more, on⟩) w' r' w₂

/-- A run that ends with a result, or is suspended and comes to that result later. -/
inductive Follows (y : Nat → Eval Progress) (w : World) (r : Except EvalError Value)
    (w₁ : World) : Prop
  | ends {w' : World} : World.Like False w₁ w' → Eventually y w (ended r) w' → Follows y w r w₁
  | waits {frames : List Frame} {on : Nat} {w' : World} :
      Eventually y w (.ok (.waiting frames on)) w' → Pending hosts lang frames on w' r w₁ →
      Follows y w r w₁

/-- A call that gives a result, or a deferred value that settles to it. -/
inductive Answers (y : Nat → Eval Value) (w : World) (r : Except EvalError Value)
    (w₁ : World) : Prop
  | now {w' : World} : World.Like False w₁ w' → Eventually y w (result r) w' → Answers y w r w₁
  | later {id : Nat} {w' : World} :
      Eventually y w (.ok (.deferred id)) w' → Settles hosts id w' r w₁ → Answers y w r w₁

end

variable {hosts : Hosts} {lang : Language Value} {w w₁ w₂ : World} {r r' : Except EvalError Value}

/-! ### Going on -/

theorem goOn_error (frames : List Frame) (e : EvalError) (levels fuel : Nat) (w : World) :
    goOn hosts lang frames (.error e) levels fuel w = (.error (.error e), w) := rfl

theorem goOn_ok (frames : List Frame) (v : Value) (levels fuel : Nat) :
    goOn hosts lang frames (.ok v) levels fuel =
      resume (engine hosts levels) lang 0 frames v >>= conclude hosts lang levels fuel := rfl

theorem goOn_append (frames more : List Frame) (v : Value) (levels fuel : Nat) :
    goOn hosts lang (frames ++ more) (.ok v) levels fuel =
      resume (engine hosts levels) lang 0 frames v >>= fun p =>
        afterFrames (engine hosts levels) lang 0 more p >>= conclude hosts lang levels fuel := by
  rw [goOn_ok, resume_append, bind_assoc]

/-- Without frames the result is settled at once, unless it is deferred. -/
theorem goOn_nil (hr : ∀ v, r = .ok v → v.isDeferred = false) (hw : World.Like False w₁ w) :
    Yields (goOn hosts lang [] r) w r w₁ := by
  refine ⟨1, w, hw, fun levels _ fuel hfuel => ?_⟩
  cases r with
  | error e => rfl
  | ok v =>
    obtain ⟨n, rfl⟩ : ∃ n, fuel = n + 1 := ⟨fuel - 1, by omega⟩
    have hv := hr v rfl
    have hdone : resume (engine hosts levels) lang 0 [] v w = (.ok (.done v), w) := rfl
    rw [goOn_ok, bind_of_ok hdone]
    cases v with
    | deferred id => cases hv
    | _ => rfl

/-- A suspended run goes on with what its deferred value settles to. -/
theorem drive_yields {frames : List Frame} {on : Nat}
    (hawait : Yields (fun levels fuel => await hosts levels fuel on) w r w₁)
    (hgo : ∀ w', World.Like False w₁ w' → Yields (goOn hosts lang frames r) w' r' w₂) :
    Yields (fun levels fuel => drive hosts levels fuel ⟨lang, frames, on⟩) w r' w₂ := by
  obtain ⟨N, w', hlike, hawait⟩ := hawait
  obtain ⟨M, w'', hlike', hgo⟩ := hgo w' hlike
  refine ⟨N + M + 1, w'', hlike', fun levels hlevels fuel hfuel => ?_⟩
  obtain ⟨n, rfl⟩ : ∃ n, fuel = n + 1 := ⟨fuel - 1, by omega⟩
  have ha := hawait levels (by omega) n (by omega)
  have hg := hgo levels (by omega) n (by omega)
  have hdrive : drive hosts levels (n + 1) ⟨lang, frames, on⟩ =
      await hosts levels n on >>= fun v => goOn hosts lang frames (.ok v) levels n := by
    rw [drive]
    refine congrArg _ (funext fun v => congrArg _ (funext fun p => ?_))
    cases p with
    | done u => rfl
    | waiting fs on => rfl
  show drive hosts levels (n + 1) ⟨lang, frames, on⟩ w = _
  rw [hdrive]
  cases r with
  | ok v => rw [bind_of_ok ha, hg]
  | error e => rw [bind_of_error ha, ← hg, goOn_error]

theorem pending_of_settles {on : Nat} (h : Settles hosts on w r w₁) :
    Pending hosts lang [] on w r w₁ :=
  fun w' hw' _ _ _ hgo => drive_yields (h w' hw') hgo

/-- Frames are gone on with one after the other. -/
theorem follows_goOn {frames more : List Frame} {v : Value}
    (h : Follows hosts lang (fun m => resume (engine hosts m) lang 0 frames v) w r w₁)
    (hgo : ∀ w', World.Like False w₁ w' → Yields (goOn hosts lang more r) w' r' w₂) :
    Yields (goOn hosts lang (frames ++ more) (.ok v)) w r' w₂ := by
  cases h with
  | @ends w' hlike hrun =>
    obtain ⟨N, hrun⟩ := hrun
    obtain ⟨M, w'', hlike', hgo⟩ := hgo w' hlike
    refine ⟨N + M, w'', hlike', fun levels hlevels fuel hfuel => ?_⟩
    rw [← hgo levels (by omega) fuel (by omega)]
    have hframes := hrun levels (by omega)
    rw [goOn_append]
    cases r with
    | ok u => exact bind_of_ok hframes
    | error e => exact bind_of_error hframes
  | @waits fs on w' hrun hpending =>
    obtain ⟨N, hrun⟩ := hrun
    obtain ⟨M, w'', hlike', hdrive⟩ := hpending w' (World.Extends.refl w') more r' w₂ hgo
    refine ⟨N + M, w'', hlike', fun levels hlevels fuel hfuel => ?_⟩
    have hframes := hrun levels (by omega)
    rw [← hdrive levels (by omega) fuel (by omega), goOn_append]
    exact bind_of_ok hframes

/-- What comes of frames goes into the frames after them. -/
theorem Pending.append {frames extra : List Frame} {on : Nat} {v : Value} {w₀ : World}
    (h : Pending hosts lang frames on w (.ok v) w₀)
    (hextra : ∀ w', World.Like False w₀ w' →
      Follows hosts lang (fun m => resume (engine hosts m) lang 0 extra v) w' r w₁) :
    Pending hosts lang (frames ++ extra) on w r w₁ := by
  intro w' hw' more r' w₂ hgo
  rw [List.append_assoc]
  exact h w' hw' (extra ++ more) r' w₂ fun w₃ hw₃ => follows_goOn (hextra w₃ hw₃) hgo

/-- An error goes through all frames. -/
theorem Pending.append_error {frames : List Frame} {on : Nat} {e : EvalError}
    (h : Pending hosts lang frames on w (.error e) w₁) (extra : List Frame) :
    Pending hosts lang (frames ++ extra) on w (.error e) w₁ := by
  intro w' hw' more r' w₂ hgo
  rw [List.append_assoc]
  exact h w' hw' (extra ++ more) r' w₂ hgo

/-- A run that is suspended settles, unless its value is deferred. -/
theorem Pending.yields {frames : List Frame} {on : Nat} (h : Pending hosts lang frames on w r w₁)
    (hr : ∀ v, r = .ok v → v.isDeferred = false) {w' : World} (hw' : w.Extends w') :
    Yields (fun levels fuel => drive hosts levels fuel ⟨lang, frames, on⟩) w' r w₁ := by
  have hdrive := h w' hw' [] r w₁ fun w₃ hw₃ => goOn_nil hr hw₃
  rwa [List.append_nil] at hdrive

end Waiting

end Formula
