import Formula.Proofs.Waiting.Pending

/-!
# Promises and suspended calls

Waiting for a promise asks for it, and for the promises it gives in turn, until there is a result.
Waiting for a suspended call goes on with the call in its own scope.
-/

namespace Formula

namespace Promise

/-- What a promise gives in the end. -/
def result : Promise → Except EvalError Value
  | .value v => .ok v
  | .error e => .error e
  | .noting _ next => next.result
  | .nested p => p.result

/-- What the host notes until then; asking for a promise that is still pending notes nothing. -/
def notes : Promise → List Value
  | .value _ | .error _ => []
  | .noting entries next => entries ++ next.notes
  | .nested p => p.notes

end Promise

/-- The answer that gives a result at once. -/
def Answer.of : Except EvalError Value → Answer
  | .ok v => .value v
  | .error e => .error e

namespace Hosts

/-- Hosts whose functions answer with values that are not deferred, or with errors. -/
def Synchronous (hosts : Hosts) : Prop :=
  ∀ key args, ∃ r, (hosts key args).answer = .of r ∧ ∀ v, r = .ok v → v.isDeferred = false

/-- Hosts that give the results of others, but may promise them first. -/
def Defers (later hosts : Hosts) : Prop :=
  ∀ key args, later key args = hosts key args ∨
    ∃ p, (later key args).answer = .promise p ∧ (hosts key args).answer = .of p.result ∧
      (hosts key args).entries = (later key args).entries ++ p.notes

variable {hosts later : Hosts}

theorem Synchronous.traced (h : hosts.Synchronous) : hosts.traced.Synchronous :=
  fun key args => h key args

theorem Defers.traced (h : later.Defers hosts) : later.traced.Defers hosts.traced := by
  intro key args
  rcases h key args with he | ⟨p, hlater, hnow, hentries⟩
  · refine Or.inl ?_
    rw [Hosts.traced, Hosts.traced, he]
  · refine Or.inr ⟨p, hlater, hnow, ?_⟩
    rw [Hosts.traced, Hosts.traced, hentries, List.cons_append]

end Hosts

namespace Waiting

open Eval Machine

variable {hosts : Hosts} {lang : Language Value} {w w₁ w₂ : World} {r : Except EvalError Value}

theorem Yields.like {x : (levels fuel : Nat) → Eval Value} (h : Yields x w r w₁)
    (hlike : World.Like False w₂ w₁) : Yields x w r w₂ := by
  obtain ⟨N, w', hw', hx⟩ := h
  exact ⟨N, w', hlike.trans hw', hx⟩

theorem Settles.like {id : Nat} (h : Settles hosts id w r w₁) (hlike : World.Like False w₂ w₁) :
    Settles hosts id w r w₂ := fun w' hw' => (h w' hw').like hlike

/-! ### Promises -/

theorem await_promised {id : Nat} {p : Promise} (h : w.deferreds[id]? = some (.promised p))
    (levels fuel : Nat) : await hosts levels (fuel + 1) id w =
      (recording id (ask p) >>= settle hosts levels fuel) w := by
  have hget : (get : Eval World) w = (.ok w, w) := rfl
  rw [await, bind_of_ok hget, h]

theorem settle_known {v : Value} (hv : v.isDeferred = false) (levels fuel : Nat) :
    settle hosts levels (fuel + 1) v = pure v := by
  cases v with
  | deferred id => cases hv
  | _ => rfl

/-- A promise is asked for until it gives a result. -/
theorem ask_yields {p : Promise} (hp : ∀ v, p.result = .ok v → v.isDeferred = false) (w : World)
    (id : Nat) (hid : id < w.deferreds.size) :
    Yields (fun levels fuel => recording id (ask p) >>= settle hosts levels fuel) w p.result
      { w with log := w.log ++ p.notes } := by
  induction p generalizing w id with
  | value v =>
    have hask : recording id (ask (.value v)) w = (.ok v, w.record id (.ok v)) := rfl
    refine ⟨1, w.record id (.ok v), ?_, fun levels _ fuel hfuel => ?_⟩
    · rw [Promise.notes, List.append_nil]
      exact ⟨rfl, rfl, fun hc => hc.elim, rfl, rfl⟩
    · obtain ⟨n, rfl⟩ : ∃ n, fuel = n + 1 := ⟨fuel - 1, by omega⟩
      refine (bind_of_ok hask).trans ?_
      rw [settle_known (hp v rfl)]
      rfl
  | error e =>
    have hask : recording id (ask (.error e)) w = (.error (.error e), w.record id (.error e)) := rfl
    refine ⟨0, w.record id (.error e), ?_, fun levels _ fuel _ => bind_of_error hask⟩
    rw [Promise.notes, List.append_nil]
    exact ⟨rfl, rfl, fun hc => hc.elim, rfl, rfl⟩
  | noting entries next ih =>
    have h := ih hp { w with log := w.log ++ entries } id hid
    rw [Promise.notes, ← List.append_assoc]
    exact h
  | nested p ih =>
    -- the inner promise is an entry of its own, which is waited for in turn
    have hentry : (({ w with deferreds := w.deferreds.push (.promised p) } : World).record id
        (.ok (.deferred w.deferreds.size))).deferreds[w.deferreds.size]? = some (.promised p) := by
      show ((w.deferreds.push (.promised p)).setIfInBounds id _)[w.deferreds.size]? = _
      rw [Array.getElem?_setIfInBounds_ne (by omega), Array.getElem?_push_size]
    have hask : recording id (ask (.nested p)) w = (.ok (.deferred w.deferreds.size),
        ({ w with deferreds := w.deferreds.push (.promised p) } : World).record id
          (.ok (.deferred w.deferreds.size))) := rfl
    obtain ⟨N, w', hlike, h⟩ := ih hp _ w.deferreds.size (Array.getElem?_eq_some_iff.mp hentry).1
    refine ⟨N + 2, w', ?_, fun levels hlevels fuel hfuel => ?_⟩
    · exact ⟨hlike.scope, hlike.log, fun hc => hc.elim, hlike.nextId, hlike.seed⟩
    · obtain ⟨n, rfl⟩ : ∃ n, fuel = n + 2 := ⟨fuel - 2, by omega⟩
      refine (bind_of_ok hask).trans ?_
      rw [settle, await_promised hentry]
      exact h levels (by omega) n (by omega)

theorem settles_promised {id : Nat} {p : Promise} (h : w.deferreds[id]? = some (.promised p))
    (hp : ∀ v, p.result = .ok v → v.isDeferred = false) :
    Settles hosts id w p.result { w with log := w.log ++ p.notes } := by
  intro w' hw'
  have hentry := hw'.kept h
  have hyields : Yields (fun levels fuel => recording id (ask p) >>= settle hosts levels fuel) w'
      p.result { w' with log := w'.log ++ p.notes } :=
    ask_yields hp w' id (Array.getElem?_eq_some_iff.mp hentry).1
  obtain ⟨N, w'', hlike, hask⟩ := hyields
  refine ⟨N + 1, w'', (hw'.like.relog p.notes).trans hlike, fun levels hlevels fuel hfuel => ?_⟩
  obtain ⟨n, rfl⟩ : ∃ n, fuel = n + 1 := ⟨fuel - 1, by omega⟩
  exact (await_promised hentry levels n).trans (hask levels (by omega) n (by omega))

/-! ### Suspended calls -/

theorem await_suspended {id : Nat} {scope : Bindings} {frames : List Frame} {on : Nat}
    (h : w.deferreds[id]? = some (.suspended scope lang frames on)) (levels fuel : Nat) :
    await hosts levels (fuel + 1) id w =
      recording id (inScope scope (drive hosts levels fuel ⟨lang, frames, on⟩)) w := by
  have hget : (get : Eval World) w = (.ok w, w) := rfl
  rw [await, bind_of_ok hget, h]

end Waiting

end Formula
