import Formula.Proofs.Waiting.Runs

/-!
# Hosts that answer later

Where every result of a host comes later, a call of it is a deferred value, and so is a call of a
function whose body waits for one. Both settle to what the call gives where the host answers at
once; hence, by induction on the levels an engine nests, so does a whole evaluation.
-/

namespace Formula

namespace Waiting

open Eval Machine

variable {hosts later : Hosts} {inner : Engine} {depth depth' : Nat} {w w' w₁ : World}
  {r : Except EvalError Value}

theorem Eventually.inScope {α : Type} {y : Nat → Eval α} {scope : Bindings}
    {o : Except (Stop EvalError) α} (h : Eventually y { w with scope } o w₁) :
    Eventually (fun m => Eval.inScope scope (y m)) w o { w₁ with scope := w.scope } := by
  obtain ⟨N, h⟩ := h
  refine ⟨N, fun m hm => ?_⟩
  show Eval.inScope scope (y m) w = _
  rw [Eval.inScope, h m hm]

theorem callNative_host {inner : Engine} {f : Native} {key : String} (hf : f.action = .host key)
    {args : List Value} (h : (hosts key args).answer = .of r) (w : World) :
    callNative inner depth hosts f args w =
      (result r, { w with log := w.log ++ (hosts key args).entries }) := by
  rw [callNative, hf]
  dsimp only
  rw [h]
  cases r with
  | ok v => rfl
  | error e => rfl

theorem callNative_promise {inner : Engine} {f : Native} {key : String} (hf : f.action = .host key)
    {args : List Value} {p : Promise} (h : (hosts key args).answer = .promise p) (w : World) :
    callNative inner depth hosts f args w = (.ok (.deferred w.deferreds.size),
      { w with
        log := w.log ++ (hosts key args).entries
        deferreds := w.deferreds.push (.promised p) }) := by
  rw [callNative, hf]
  dsimp only
  rw [h]
  rfl

end Waiting

end Formula
