import Formula.Proofs.Depth.Machines
import Formula.Proofs.Machine.Fuel
import Formula.Proofs.Waiting.Later

/-!
# The call depth a program needs

How deep the calls of a program are nested does not depend on the limit, as long as the limit
allows it. So there is one number that decides for every limit: from it on the program does the
same under all limits, and below it the program fails with the error that names the limit.
-/

namespace Formula

open Machine Waiting

/-- Values without functions and deferred values, at any depth of arrays and objects. -/
inductive Value.Data : Value → Prop
  | undefined : Value.Data .undefined
  | null : Value.Data .null
  | bool (b : Bool) : Value.Data (.bool b)
  | number (x : Float) : Value.Data (.number x)
  | string (s : String) : Value.Data (.string s)
  | array {items : List Value} : (∀ v ∈ items, Value.Data v) → Value.Data (.array items)
  | object {fields : List (String × Value)} :
      (∀ p ∈ fields, Value.Data p.2) → Value.Data (.object fields)

theorem Value.Data.internal {waits : Prop} {depths : Nat → Prop} {v : Value} (h : v.Data) :
    v.Internal waits depths := by
  induction h with
  | undefined => exact .undefined
  | null => exact .null
  | bool b => exact .bool b
  | number x => exact .number x
  | string s => exact .string s
  | array _ ih => exact .array ih
  | object _ ih => exact .object ih

/-- No function has a limit that would change. -/
theorem Value.Data.relimit_self {d : Nat} {v : Value} (h : v.Data) : v.relimit d = v :=
  (h.internal : v.Internal False fun _ => False).relimit_self fun _ hfalse => hfalse.elim

/-- The standard language under options with a limit of the call depth. -/
abbrev Language.limited (id : Nat) (options : Options) (limit : Nat) : Language Value :=
  Language.ofOptions id { options with maxCallDepth := limit }

namespace Language

variable {id : Nat} {options : Options}

theorem limited_at (limit : Nat) : (limited id options limit).At limit :=
  ofOptions_internal False id _ rfl

theorem limited_relimit (limit d : Nat) :
    (limited id options limit).relimit d = limited id options d := by
  simp only [relimit_eq, limited, ofOptions, standard, List.map_nil]

theorem constants_data : ∀ p ∈ (ofOptions id options).constants, p.2.Data := by
  simp only [ofOptions, standard, standardConstants, List.forall_mem_cons]
  exact ⟨.number _, .number _, .bool _, .bool _, fun p hp => (List.not_mem_nil hp).elim⟩

end Language

theorem parseExpr_ofOptions_internal {id : Nat} {options : Options} {source : String} {e : Expr}
    (he : parseExpr (.ofOptions id options) source = .ok e) (waits : Prop) (depths : Nat → Prop) :
    ∀ i ∈ e.compile, i.Internal waits depths :=
  parseExpr_internal (Language.Extended.complete (g := .sound) (.standard id options))
    (fun p hp => (Language.constants_data p hp).internal) he

theorem compile_relimit {id : Nat} {options : Options} {source : String} {e : Expr}
    (he : parseExpr (.ofOptions id options) source = .ok e) (d : Nat) :
    Program.relimit d e.compile = e.compile :=
  List.map_eq_self fun i hi =>
    (parseExpr_ofOptions_internal he False (fun _ => False) i hi).relimit_self
      fun _ hfalse => hfalse.elim

theorem Progress.Internal.relimit_self {limit : Nat} {p : Progress} (h : p.At limit) :
    p.relimit limit = p := by
  cases p with
  | done v =>
    have hv : v.At limit := h
    exact congrArg Progress.done (hv.relimit_self fun _ heq => heq)
  | waiting frames on => rfl

/-- A world under a limit is known from what has been noted in it. -/
theorem World.Under.eq {d : Nat} {w w' : World} (h : w.Under d w') :
    w' = { w with scope := Bindings.relimit d w.scope, log := w'.log } := by
  obtain ⟨hscope, hdeferreds, hnext, hseed⟩ := h
  cases w'
  cases hscope
  cases hdeferreds
  cases hnext
  cases hseed
  rfl

section

variable {hosts : Hosts} {n limit : Nat} {id : Nat} {options : Options} {source : String} {e : Expr}
  {w w₁ : World} {o : Except (Stop EvalError) Progress}

/-- The watched run under one limit, and the run under another. -/
theorem evaluate_matched (he : parseExpr (.ofOptions id options) source = .ok e)
    (hscope : ∀ p ∈ w.scope, p.2.Data) (hosts : Hosts) (n limit d : Nat) :
    Eval.Matched limit d 0 (Progress.At limit) (Progress.relimit d) { w with log := [] } w
      ((watchedEngine hosts n).enter (.limited id options limit) 0 e.compile { w with log := [] })
      (e.evaluate hosts n (.limited id options d) w) := by
  have hlang : (Language.limited id options limit).At limit := Language.limited_at limit
  have henter := (engine_lockstep limit d hosts n).enter (Nat.zero_le d) hlang
    (parseExpr_ofOptions_internal he False (· = limit))
  rw [Language.limited_relimit, compile_relimit he] at henter
  refine henter _ w (fun p hp => (hscope p hp).internal) ⟨?_, rfl, rfl, rfl⟩
  exact (Record.map_eq_self fun p hp => (hscope p hp).relimit_self).symm

/-- A run that its limit allows is not changed by being watched. -/
theorem watched_evaluate (he : parseExpr (.ofOptions id options) source = .ok e)
    (hscope : ∀ p ∈ w.scope, p.2.Data)
    (hrun : e.evaluate hosts n (.limited id options limit) w = (o, w₁))
    (hallowed : ∀ s, o = .error s → ¬ s.Overran) :
    ∃ marks, (watchedEngine hosts n).enter (.limited id options limit) 0 e.compile
        { w with log := [] } = (o, { w₁ with log := marks }) ∧
      w₁.log = w.log ∧ peak 0 marks ≤ limit := by
  have h := evaluate_matched he hscope hosts n limit limit
  rw [hrun] at h
  rcases hx : (watchedEngine hosts n).enter (.limited id options limit) 0 e.compile
    { w with log := [] } with ⟨o', w₂⟩
  rw [hx] at h
  cases h with
  | overran _ hover =>
    obtain ⟨s, hs, ho⟩ := hover le_rfl
    exact (hallowed s ho hs).elim
  | @same o' _ _ marks _ hlog hpeak hgood hat hunder hlog' =>
    have houtcome : o'.map (Progress.relimit limit) = o' := by
      cases o' with
      | error s => rfl
      | ok p => exact congrArg Except.ok (hgood p rfl).relimit_self
    have hworld : w₁ = { w₂ with log := w₁.log } := by
      have heq := hunder.eq
      rwa [Bindings.relimit, Record.map_eq_self fun p hp => (hat p hp).relimit_self fun _ h => h]
        at heq
    refine ⟨marks, ?_, hlog', hpeak⟩
    rw [houtcome, hworld, ← List.nil_append marks, ← hlog]
  | deeper _ hlt => exact (Nat.lt_irrefl _ hlt).elim

theorem activeCalls_eq {marks : List Value} {lang : Language Value}
    (h : (watchedEngine hosts n).enter lang 0 e.compile { w with log := [] } =
      (o, { w₁ with log := marks })) : e.activeCalls hosts n lang w = peak 0 marks := by
  rw [Expr.activeCalls, h]

/-- A program is evaluated with no functions and nothing deferred in scope, under a limit that it
does not reach. From the greatest number of active calls on, every limit gives the same outcome and
the same variables, but for the limit in functions; under every smaller limit the outcome is the
error with that limit. -/
theorem evaluate_limited (he : parseExpr (.ofOptions id options) source = .ok e)
    (hscope : ∀ p ∈ w.scope, p.2.Data)
    (hrun : e.evaluate hosts n (.limited id options limit) w = (o, w₁))
    (hlevels : o ≠ .error .exhausted) (hlimit : ∀ k, o ≠ .error (.error (.callDepth k)))
    (d : Nat) {levels : Nat} (hn : n ≤ levels) :
    (e.activeCalls hosts n (.limited id options limit) w ≤ d →
      e.evaluate hosts levels (.limited id options d) w =
        (o.map (Progress.relimit d), { w₁ with scope := Bindings.relimit d w₁.scope })) ∧
    (d < e.activeCalls hosts n (.limited id options limit) w →
      (e.evaluate hosts levels (.limited id options d) w).1 = .error (.error (.callDepth d))) := by
  have hallowed : ∀ s, o = .error s → ¬ s.Overran := by
    rintro (err | _) rfl
    · intro hover
      cases err with
      | callDepth k => exact hlimit k rfl
      | _ => exact hover
    · exact (hlevels rfl).elim
  obtain ⟨marks, hwatched, hlog, -⟩ := watched_evaluate he hscope hrun hallowed
  have h := evaluate_matched he hscope hosts n limit d
  rw [activeCalls_eq hwatched]
  rw [hwatched] at h
  -- more levels than `n` change nothing, as the run under the limit `d` does not lack any
  have hmore : ∀ {o' w₁'}, e.evaluate hosts n (.limited id options d) w = (o', w₁') →
      o' ≠ .error .exhausted → e.evaluate hosts levels (.limited id options d) w = (o', w₁') :=
    fun hd hne => ((engine_below hosts hn).enter _ 0 e.compile w
      fun h => hne ((congrArg Prod.fst hd).symm.trans h)).trans hd
  rcases hy : e.evaluate hosts n (.limited id options d) w with ⟨o', w₁'⟩
  rw [hy] at h
  cases h with
  | overran hover _ => exact (hallowed _ rfl hover).elim
  | @same _ _ _ marks' _ hmarks hpeak hgood hat hunder hlog' =>
    obtain rfl : marks = marks' := hmarks
    have hsettled : o.map (Progress.relimit d) ≠ .error .exhausted := by
      cases o with
      | error s => exact hlevels
      | ok p => exact fun h => by cases h
    refine ⟨fun _ => ?_, fun hlt => absurd hpeak (Nat.not_le.mpr hlt)⟩
    rw [hmore hy hsettled, hunder.eq, hlog', hlog]
  | deeper marks' _ hmarks hpeak =>
    obtain rfl : marks = marks' := hmarks
    refine ⟨fun hle => absurd hle (Nat.not_le.mpr hpeak), fun _ => ?_⟩
    rw [hmore hy fun h => by cases h]

end

/-- A chain of three objects, in scope. -/
def chainWorld : World :=
  World.start [("chain", .object [("name", .string "a"), ("next", .object [("name", .string "b"),
    ("next", .object [("name", .string "c")])])])] 100

/-- Each object of a chain takes a call within the call for the one before. -/
def chainSource : String := "end(x) = x.next ? end(x.next) : x.name; end(chain)"

theorem chain_limited : ∃ e, parseExpr (.ofOptions 0 {}) chainSource = .ok e ∧
    ∀ d, ∀ levels ≥ 12,
      (3 ≤ d → shown (e.evaluate (fun _ _ => ⟨[], .value .null⟩) levels (.limited 0 {} d)
        chainWorld).1 = some "c") ∧
      (d < 3 → (e.evaluate (fun _ _ => ⟨[], .value .null⟩) levels (.limited 0 {} d)
        chainWorld).1 = .error (.error (.callDepth d))) := by
  have hshown : (parseExpr (.ofOptions 0 {}) chainSource).toOption.map (fun e =>
      (shown (e.evaluate (fun _ _ => ⟨[], .value .null⟩) 12 (.limited 0 {} 5) chainWorld).1,
        e.activeCalls (fun _ _ => ⟨[], .value .null⟩) 12 (.limited 0 {} 5) chainWorld)) =
      some (some "c", 3) := by
    decide +kernel
  cases he : parseExpr (.ofOptions 0 {}) chainSource with
  | error _ =>
    rw [he] at hshown
    cases hshown
  | ok e =>
    rw [he] at hshown
    obtain ⟨hvalue, hactive⟩ := Prod.mk.inj (Option.some.inj hshown)
    rcases hrun : e.evaluate (fun _ _ => ⟨[], .value .null⟩) 12 (.limited 0 {} 5) chainWorld
      with ⟨o, w₁⟩
    rw [hrun] at hvalue
    match o, hvalue with
    | .ok (.done v), hvalue =>
      have hscope : ∀ p ∈ chainWorld.scope, p.2.Data := by
        simp only [chainWorld, World.start, List.forall_mem_singleton]
        refine .object (List.forall_mem_cons.mpr ⟨.string _, List.forall_mem_singleton.mpr ?_⟩)
        refine .object (List.forall_mem_cons.mpr ⟨.string _, List.forall_mem_singleton.mpr ?_⟩)
        exact .object (List.forall_mem_singleton.mpr (.string _))
      refine ⟨e, rfl, fun d levels hn => ?_⟩
      have h := evaluate_limited he hscope hrun (fun h => by cases h) (fun _ h => by cases h) d hn
      rw [hactive] at h
      refine ⟨fun hle => ?_, h.2⟩
      rw [h.1 hle]
      exact (congrArg some (Value.relimit_text v)).trans hvalue

end Formula
