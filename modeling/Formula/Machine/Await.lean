import Formula.Machine

/-!
# Waiting for deferred values

A deferred value is asked for until it is a value that is not deferred. Asking for a suspended
call resumes it in its own scope; the result is recorded, so a call goes on only once and a host
notes only once. What is resumed starts at call depth zero.
-/

namespace Formula

/-- Code that waits for a deferred value, in the language it was started in. -/
structure Suspension where
  language : Language Value
  frames : List Frame
  on : Nat

namespace Machine

/-- What a promise gives, up to a further deferred value. -/
def ask : Promise → Eval Value
  | .value v => pure v
  | .error e => Eval.fail e
  | .noting entries next => do
    Eval.note entries
    ask next
  | .nested p => enterPromise p

/-- Records the result of a deferred value. -/
def recording (id : Nat) (x : Eval Value) : Eval Value := fun w =>
  match x w with
  | (.ok v, w) => (.ok v, w.record id (.ok v))
  | (.error (.error e), w) => (.error (.error e), w.record id (.error e))
  | (.error .exhausted, w) => (.error .exhausted, w)

section

variable (hosts : Hosts) (levels : Nat)

mutual

/-- The value of a deferred value; one without an entry never has one. -/
def await : (fuel : Nat) → (id : Nat) → Eval Value
  | 0, _ => Eval.exhausted
  | fuel + 1, id => do
    match (← get).deferreds[id]? with
    | none => Eval.exhausted
    | some (.settled result) => do settle fuel (← Eval.ofExcept result)
    | some (.promised p) => do settle fuel (← recording id (ask p))
    | some (.suspended scope lang frames on) =>
      recording id (Eval.inScope scope (drive fuel ⟨lang, frames, on⟩))

/-- The value itself, or what it settles to. -/
def settle : (fuel : Nat) → Value → Eval Value
  | 0, _ => Eval.exhausted
  | fuel + 1, v =>
    match v with
    | .deferred id => await fuel id
    | v => pure v

/-- Goes on with a suspension until it has a value. -/
def drive : (fuel : Nat) → Suspension → Eval Value
  | 0, _ => Eval.exhausted
  | fuel + 1, s => do
    let v ← await fuel s.on
    match ← resume (engine hosts levels) s.language 0 s.frames v with
    | .done v => settle fuel v
    | .waiting frames on => drive fuel ⟨s.language, frames, on⟩

end

end

end Machine

end Formula
