import Formula.Proofs.Machine.Fuel
import Formula.Proofs.Machine.Halting

/-!
# Evaluation comes to an end

Every evaluation in which only built-in functions and functions of formulas occur comes to an end.
The limits of the call depths that occur are finitely many, so calls nest up to some depth; at one
depth traversals nest three deep at most, and the programs in a program are smaller.
-/

namespace Formula

open Filter Machine Waiting

/-- Internal values, and programs with such values in them. -/
def Realm.internal (waits : Prop) (depths : Nat → Prop) : Realm where
  value := Value.Internal waits depths
  language := Language.Internal waits depths
  program _ code := ∀ i ∈ code, i.Internal waits depths
  waits := waits

theorem Realm.internal_closed (waits : Prop) (depths : Nat → Prop) :
    (internal waits depths).Closed where
  partwise := Value.Internal.partwise waits depths
  deferred := by
    refine ⟨fun h => ?_, .deferred _⟩
    cases h with
    | deferred _ hwaits => exact hwaits
  native h := by
    cases h with
    | native hf => exact hf
  defined := by
    refine ⟨fun h => ?_, fun h => .defined h.body h.captured h.language⟩
    cases h with
    | defined hbody hcaptured hlang => exact ⟨hlang, hbody, hcaptured⟩
  instruction hlang hcode i hi :=
    (hcode i hi).made hlang fun _ hgroup => (hgroup ▸ hcode i hi).ofGroup
  resolve hlang _ _ hv := hlang.resolve hv

/-- The engines themselves. -/
def Machine.levels (hosts : Hosts) : Levels hosts where
  engine := engine hosts
  short := False
  enter _ _ _ _ := rfl
  native _ _ _ _ := rfl
  defined _ _ _ _ := rfl

/-- No internal value is a prepared function. -/
theorem Machine.internal_not_prepared {waits : Prop} {depths : Nat → Prop} {hosts : Hosts}
    (depth : Nat) : PreparedCalls (Realm.internal waits depths) (levels hosts) depth :=
  fun _ _ hf _ => by cases hf

/-- Where the variables in scope, the constants and what the resolver gives are internal, a program
ends with a value or an error, whatever its call depth limit is; it waits only if a value may be
deferred. -/
theorem evaluate_terminates {waits : Prop} {lang : Language Value} {source : String} {e : Expr}
    {w : World} (hlang : lang.Complete) (hinternal : lang.Internal waits (fun _ => True))
    (hconstants : ∀ p ∈ lang.constants, p.2.Internal waits (fun _ => True))
    (he : parseExpr lang source = .ok e) (hw : ∀ p ∈ w.scope, p.2.Internal waits (fun _ => True))
    (hosts : Hosts) :
    ∃ N o w', (∀ n ≥ N, e.evaluate hosts n lang w = (o, w')) ∧
      ((∃ v, o = .ok (.done v)) ∨ (∃ err, o = .error (.error err)) ∨
        waits ∧ ∃ frames on, o = .ok (.waiting frames on)) := by
  have hcode := parseExpr_internal hlang hconstants he
  obtain ⟨limit, hscope, hbody, hlimited⟩ :=
    ((eventually_forall_mem fun p hp => (hw p hp).eventually).and
      ((eventually_forall_mem fun i hi => (hcode i hi).eventually).and hinternal.eventually)).exists
  have hclosed := Realm.internal_closed waits (· ≤ limit)
  have hcalls : Calls (Realm.internal waits (· ≤ limit)) (levels hosts) 0 :=
    calls_stop hclosed Language.Internal.depth internal_not_prepared limit 0 (by omega)
  obtain ⟨o, w', ⟨N, hN⟩, _, ho⟩ :=
    enter_stops hclosed hcalls hlimited e.compile hbody w hscope
  refine ⟨N, o, w', hN, ?_⟩
  match o, ho with
  | .ok (.done v), _ => exact Or.inl ⟨v, rfl⟩
  | .ok (.waiting frames on), hwaits => exact Or.inr (Or.inr ⟨hwaits, frames, on, rfl⟩)
  | .error (.error err), _ => exact Or.inr (Or.inl ⟨err, rfl⟩)

/-- A language in which three calls may be nested. -/
abbrev shallowLanguage : Language Value := Language.ofOptions 0 { maxCallDepth := 3 }

/-- `again(g) = g(g)` and the built-in `map`, in scope. -/
def againWorld : World :=
  World.start [
    ("again", .function (.defined ⟨200, "again", ["g"], [.variable "g", .variable "g", .call 1], [],
      shallowLanguage⟩)),
    ("each", .function (.native ⟨201, "map", .traversal .map⟩))] 202

def againSource : String := "fold(each, again, [[again]])"

def silentHosts : Hosts := fun _ _ => ⟨[], .value .undefined⟩

/-- What an outcome says of the depth of calls, if it is that error. -/
def tooDeep? : Except (Stop EvalError) Progress → Option Nat
  | .error (.error (.callDepth limit)) => some limit
  | _ => none

theorem eq_of_tooDeep? {o : Except (Stop EvalError) Progress} {limit : Nat}
    (h : tooDeep? o = some limit) : o = .error (.error (.callDepth limit)) := by
  unfold tooDeep? at h
  split at h
  · cases h
    rfl
  · cases h

/-- A fold calls a traversal that calls a function that calls its argument with itself: the
recursion ends at the limit. -/
theorem again_terminates : ∃ e N w', parseExpr shallowLanguage againSource = .ok e ∧
    ∀ n ≥ N, e.evaluate silentHosts n shallowLanguage againWorld =
      (.error (.error (.callDepth 3)), w') := by
  have hrun : (parseExpr shallowLanguage againSource).toOption.map (fun e =>
      tooDeep? (e.evaluate silentHosts 12 shallowLanguage againWorld).1) = some (some 3) := by
    decide +kernel
  cases he : parseExpr shallowLanguage againSource with
  | error _ =>
    rw [he] at hrun
    cases hrun
  | ok e =>
    rw [he] at hrun
    have hcomplete : shallowLanguage.Complete :=
      Language.Extended.complete (g := .sound) (.standard 0 { maxCallDepth := 3 })
    have hlang : shallowLanguage.Internal False (fun _ => True) :=
      Language.ofOptions_internal _ _ _ trivial
    have hconstants : ∀ p ∈ shallowLanguage.constants, p.2.Internal False (fun _ => True) := by
      simp only [Language.ofOptions, Language.standard, standardConstants, List.forall_mem_cons]
      exact ⟨.number _, .number _, .bool _, .bool _, fun p hp => (List.not_mem_nil hp).elim⟩
    have hbody : ∀ i ∈ [Instruction.variable "g", .variable "g", .call 1],
        i.Internal False (fun _ => True) := by
      have hplain : ∀ name : String, (Instruction.variable name).Internal False (fun _ => True) :=
        fun _ => .plain (fun _ h => by cases h) (fun _ h => by cases h)
      simp only [List.forall_mem_cons]
      exact ⟨hplain "g", hplain "g", .plain (fun _ h => by cases h) (fun _ h => by cases h),
        List.forall_mem_nil _⟩
    have hscope : ∀ p ∈ againWorld.scope, p.2.Internal False (fun _ => True) := by
      simp only [againWorld, World.start, List.forall_mem_cons]
      exact ⟨.defined hbody (List.forall_mem_nil _) hlang, .native (fun _ h => by cases h),
        List.forall_mem_nil _⟩
    obtain ⟨N, o, w', hN, _⟩ :=
      evaluate_terminates hcomplete hlang hconstants he hscope silentHosts
    -- more levels than twelve change nothing
    have hdeep : (e.evaluate silentHosts 12 shallowLanguage againWorld).1 =
        .error (.error (.callDepth 3)) := eq_of_tooDeep? (Option.some.inj hrun)
    have hbelow := (engine_below silentHosts (le_max_right N 12)).enter shallowLanguage 0 e.compile
      againWorld fun h => by cases hdeep.symm.trans h
    have ho : o = .error (.error (.callDepth 3)) :=
      (congrArg Prod.fst ((hN _ (le_max_left N 12)).symm.trans hbelow)).trans hdeep
    exact ⟨e, N, w', rfl, fun n hn => ho ▸ hN n hn⟩

end Formula
