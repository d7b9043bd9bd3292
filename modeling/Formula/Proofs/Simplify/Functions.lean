import Formula.Proofs.Simplify.Members
import Formula.Proofs.Waiting.Calls

/-!
# Functions made of expressions

The function made of an expression runs the simplified expression in a copy of the variables that
were in scope, with its parameters set. Simplifying has replaced what was known by then, so the
function does what the expression does in that copy as long as neither a parameter nor an assignment
is for a variable that was known; else it reads the value from before.
-/

namespace Formula

namespace Record

variable {α : Type}

theorem get?_filter (r : Record α) (keep : String → Bool) (name : String) :
    get? (r.filter fun p => keep p.1) name = if keep name then get? r name else none := by
  induction r with
  | nil => simp
  | cons p rest ih =>
    obtain ⟨key, v⟩ := p
    by_cases hkey : key = name
    · subst hkey
      by_cases hkeep : keep key = true <;> simp_all [get?]
    · by_cases hkeep : keep key = true <;> simp_all [get?]

theorem get?_update_of_notMem (r : Record α) {pairs : List (String × α)} {name : String}
    (h : name ∉ pairs.map Prod.fst) : get? (update r pairs) name = get? r name := by
  unfold update
  induction pairs generalizing r with
  | nil => rfl
  | cons p rest ih =>
    obtain ⟨hp, hrest⟩ := List.ne_and_not_mem_of_not_mem_cons h
    exact (ih (insert r p.1 p.2) hrest).trans (get?_insert_of_ne r p.2 hp)

end Record

open Eval Machine Waiting

/-! ### Calls that evaluate an expression -/

/-- A call that does what evaluating an expression in a scope of its own does: it gives the value or
the error at once, or a deferred value that stands for what is left of the evaluation. -/
structure Function.Evaluates (hosts : Hosts) (lang : Language Value) (f : Function Value)
    (args : List Value) (e : Expr) (scope : Bindings) (w : World) : Prop where
  ends : ∀ r w₁, Eventually (fun m => inScope scope (e.evaluate hosts m lang)) w (ended r) w₁ →
    Eventually (fun m => f.apply hosts m args) w (result r) w₁
  /-- wherever the deferred value is asked for, in whichever world that has its entry -/
  waits : ∀ frames on w₁,
    Eventually (fun m => e.evaluate hosts m lang) { w with scope } (.ok (.waiting frames on)) w₁ →
    ∃ entry, Eventually (fun m => f.apply hosts m args) w (.ok (.deferred w₁.deferreds.size))
        { w₁ with scope := w.scope, deferreds := w₁.deferreds.push entry } ∧
      ∀ w₂ r w₃, w₂.deferreds[w₁.deferreds.size]? = some entry →
        (Eventually (fun m => recording w₁.deferreds.size
            (inScope w₁.scope (drive hosts m m ⟨lang, frames, on⟩))) w₂ (result r) w₃ ↔
          Eventually (fun m => await hosts m m w₁.deferreds.size) w₂ (result r) w₃)
  diverges : (∀ m, (e.evaluate hosts m lang { w with scope }).1 = .error .exhausted) →
    ∀ m, (f.apply hosts m args w).1 = .error .exhausted

namespace Machine.Retraces

variable {α β : Type} {b b' : Bindings} {R : α → β → Prop}

/-- In a scope of its own an evaluation keeps whatever is known outside. -/
theorem inScope {x : Eval α} {y : Nat → Eval β} (h : Retraces b R x y) {scope : Bindings}
    (hscope : b.Within scope) :
    Retraces b' R (Eval.inScope scope x) fun m => Eval.inScope scope (y m) := by
  intro w o w₁ hw hx ho
  rcases hinner : x { w with scope } with ⟨o', w₂⟩
  rw [Eval.inScope, hinner] at hx
  cases hx
  obtain ⟨_, o', hrel, hy⟩ := h { w with scope } o w₂ hscope hinner ho
  exact ⟨hw, o', hrel, hy.inScope⟩

theorem recording {x : Eval Value} {y : Nat → Eval Value} (h : Retraces b Eq x y) (id : Nat) :
    Retraces b Eq (recording id x) fun m => recording id (y m) := by
  intro w o w₁ hw hx ho
  rcases hinner : x w with ⟨(e | _) | v, w₂⟩ <;> rw [Machine.recording, hinner] at hx <;> cases hx
  · obtain ⟨hkept, _, hrel, N, hN⟩ := h w _ w₂ hw hinner (by simp)
    cases hrel
    exact ⟨hkept, _, .error _, N, fun m hm => by simp only [Machine.recording, hN m hm]⟩
  · exact (ho rfl).elim
  · obtain ⟨hkept, _, hrel, N, hN⟩ := h w _ w₂ hw hinner (by simp)
    cases hrel with
    | ok hv =>
      subst hv
      exact ⟨hkept, _, .ok rfl, N, fun m hm => by simp only [Machine.recording, hN m hm]⟩

end Machine.Retraces

section

variable {hosts : Hosts} {lang : Language Value} {e q : Expr} {b scope : Bindings} {w w₁ : World}
  {args : List Value}

theorem Expr.evaluate_eventually {n : Nat} {o : Except (Stop EvalError) Progress}
    (h : e.evaluate hosts n lang w = (o, w₁)) (ho : o ≠ .error .exhausted) :
    Eventually (fun m => e.evaluate hosts m lang) w o w₁ := by
  refine ⟨n, fun m hm => ?_⟩
  have hbelow : Below (e.evaluate hosts n lang) (e.evaluate hosts m lang) :=
    (engine_below hosts hm).enter lang 0 e.compile
  exact (hbelow w (by rwa [h])).trans h

theorem Function.apply_prepared (c : Closure Value) (args : List Value) (m : Nat) :
    (Function.prepared c).apply hosts (m + 1) args =
      inScope (Record.update c.captured (c.params.zip args))
        ((engine hosts m).enter c.language 0 c.body >>= afterBody c.language) :=
  enterBody_eq _ _ _ _

/-- Asking for a suspended call comes to what going on with similar frames comes to. -/
theorem Machine.SimilarFrames.await_iff {frames frames' : List Frame} {on id : Nat}
    (h : SimilarFrames hosts lang b frames frames') (hb : b.Within scope)
    (hentry : w.deferreds[id]? = some (.suspended scope lang frames' on))
    (r : Except EvalError Value) :
    Eventually (fun m => recording id (inScope scope (drive hosts m m ⟨lang, frames, on⟩))) w
        (result r) w₁ ↔
      Eventually (fun m => await hosts m m id) w (result r) w₁ := by
  -- nothing needs to be known where the call is asked for: it goes on in its own scope
  have hempty : Bindings.Within [] w.scope := fun _ _ h => by cases h
  have hsame : ∀ {o : Except (Stop EvalError) Value}, Alike Eq (result r) o → o = result r := by
    intro o halike
    cases r <;> cases halike <;> simp_all [result]
  have hretraces : ∀ {frames frames' : List Frame}, SimilarFrames hosts lang b frames frames' →
      ∀ n fuel, Retraces [] Eq
        (recording id (inScope scope (drive hosts n fuel ⟨lang, frames, on⟩)))
        fun m => recording id (inScope scope (drive hosts m m ⟨lang, frames', on⟩)) :=
    fun h n fuel => ((drive_retraces n fuel h).inScope hb).recording id
  constructor
  · intro hx
    obtain ⟨_, o, halike, hy⟩ := Retraces.eventually (fun n => hretraces h n n) hempty
      (result_ne_exhausted r) hx
    rw [hsame halike] at hy
    -- asking for the entry spends one of the waits that the bound allows
    obtain ⟨N, hN⟩ := hy
    refine .of_succ (fun m => await_suspended hentry (m + 1) m) ⟨N, fun m hm => ?_⟩
    have hdrive : Below (drive hosts m m ⟨lang, frames', on⟩)
        (drive hosts (m + 1) m ⟨lang, frames', on⟩) :=
      (waiting_below hosts (Nat.le_succ m) m m (Nat.le_refl m)).2.2 _
    have hrun : recording id (inScope scope (drive hosts m m ⟨lang, frames', on⟩)) w =
        (result r, w₁) := hN m hm
    have hended : (recording id (inScope scope (drive hosts m m ⟨lang, frames', on⟩)) w).1 ≠
        .error .exhausted := by
      rw [hrun]
      exact result_ne_exhausted r
    exact (recording_below id (.inScope scope hdrive) w hended).trans hrun
  · rintro ⟨N, hN⟩
    have hrun : recording id (inScope scope (drive hosts (N + 1) N ⟨lang, frames', on⟩)) w =
        (result r, w₁) := (await_suspended hentry (N + 1) N).symm.trans (hN (N + 1) (Nat.le_succ N))
    obtain ⟨_, o, halike, hy⟩ := hretraces h.symm (N + 1) N w _ w₁ hempty hrun
      (result_ne_exhausted r)
    rwa [hsame halike] at hy

/-- A function whose body is similar to an expression evaluates it. -/
theorem Machine.Similar.function_evaluates (h : Similar hosts lang b e.compile q.compile)
    {id : Nat} {name : String} {params : List String} {captured : Bindings}
    (hb : b.Within (Record.update captured (params.zip args))) (w : World) :
    (Function.prepared ⟨id, name, params, q.compile, captured, lang⟩).Evaluates hosts lang args e
      (Record.update captured (params.zip args)) w := by
  generalize hscope : Record.update captured (params.zip args) = scope at hb ⊢
  generalize hc : (⟨id, name, params, q.compile, captured, lang⟩ : Closure Value) = c
  have hcall : ∀ m, (Function.prepared c).apply hosts (m + 1) args =
      inScope scope (q.evaluate hosts m lang >>= afterBody lang) := by
    intro m
    rw [Function.apply_prepared, ← hc, hscope]
    rfl
  constructor
  · rintro r w₁ ⟨N, hN⟩
    have hrun : inScope scope (e.evaluate hosts N lang) w = (ended r, w₁) := hN N (Nat.le_refl N)
    rcases hinner : e.evaluate hosts N lang { w with scope } with ⟨o, w₂⟩
    rw [inScope, hinner] at hrun
    cases hrun
    obtain ⟨_, o, halike, hq⟩ := h.evaluates N _ _ w₂ hb hinner (ended_ne_exhausted r)
    have hbody : Eventually (fun m => q.evaluate hosts m lang >>= afterBody lang) { w with scope }
        (result r) w₂ := by
      cases r with
      | error e =>
        cases halike
        exact .bind_error _ hq
      | ok v =>
        cases halike with
        | ok hp =>
          cases hp
          exact hq.bind_ok (.pure (fun _ => rfl) w₂)
    exact .of_succ (fun m => congrFun (hcall m) w) hbody.inScope
  · intro frames on w₁ hx
    obtain ⟨hw₁, o, halike, hq⟩ := Retraces.eventually h.evaluates hb (by simp) hx
    cases halike with
    | ok hp =>
      cases hp with
      | @waiting _ frames' _ hframes =>
        refine ⟨.suspended w₁.scope lang frames' on, ?_, fun w₂ r w₃ hentry =>
          hframes.await_iff hw₁ hentry r⟩
        have hdefer : Eventually (fun _ => afterBody lang (.waiting frames' on)) w₁
            (.ok (.deferred w₁.deferreds.size))
            { w₁ with deferreds := w₁.deferreds.push (.suspended w₁.scope lang frames' on) } :=
          .const rfl
        exact .of_succ (fun m => congrFun (hcall m) w) (hq.bind_ok hdefer).inScope
  · intro hx m
    cases m with
    | zero => rfl
    | succ k =>
      rw [hcall]
      rcases hinner : q.evaluate hosts k lang { w with scope } with ⟨o, w₂⟩
      -- if the body came to an outcome, the expression would come to it as well
      by_cases ho : o = .error .exhausted
      · subst ho
        simp only [inScope, bind_of_error hinner]
      · obtain ⟨_, o', halike, N, hN⟩ := h.symm.evaluates k _ _ w₂ hb hinner ho
        have hexhausted : o' = .error .exhausted :=
          (congrArg Prod.fst (hN N (Nat.le_refl N))).symm.trans (hx N)
        subst hexhausted
        cases halike
        exact (ho rfl).elim

end

/-! ### Functions made of expressions -/

namespace Expr

/-- Whether an expression itself changes a variable that is known: assigns it, or defines a
function. -/
def changesKnown (lang : Language Value) (scope : Bindings) : Expr → Bool
  | .assign root members _ =>
    (knownVariable? lang scope (Bindings.root (path root members))).isSome
  | .define _ _ _ => true
  | _ => false

/-- The variables that are known when some are in scope. -/
def knownIn (lang : Language Value) (scope : Bindings) : Bindings :=
  scope.filter fun p => (knownVariable? lang scope p.1).isSome

variable {lang : Language Value} {scope : Bindings}

theorem get?_knownIn (lang : Language Value) (scope : Bindings) (name : String) :
    Record.get? (knownIn lang scope) name = knownVariable? lang scope name := by
  refine (Record.get?_filter scope (fun name => (knownVariable? lang scope name).isSome) name).trans ?_
  cases h : knownVariable? lang scope name with
  | none => rfl
  | some v => exact knownVariable?_eq_some h

/-- Setting variables that are not known leaves in scope what is known. -/
theorem knownIn_within {params : List String} (args : List Value)
    (h : ∀ p ∈ params, knownVariable? lang scope p = none) :
    (knownIn lang scope).Within (Record.update scope (params.zip args)) := by
  intro name v hget
  rw [get?_knownIn] at hget
  have hname : name ∉ (params.zip args).map Prod.fst := by
    intro hmem
    obtain ⟨p, hp, rfl⟩ := List.mem_map.mp hmem
    rw [h p.1 (List.of_mem_zip hp).1] at hget
    cases hget
  rw [Record.get?_update_of_notMem scope hname]
  exact knownVariable?_eq_some hget

end Expr

variable {hosts : Hosts} {lang : Language Value} {e : Expr} {fuel : Nat} {w w₁ : World}
  {f : Function Value}

theorem Expr.toFunction_eq_ok {params : List String}
    (hf : e.toFunction hosts fuel lang params w = (.ok f, w₁)) :
    ∃ q w₀, e.simplify hosts fuel lang w = (.ok q, w₀) ∧
      f = .prepared ⟨w₀.nextId, "anonymous",
        params.map fun p => String.ofList (Text.trim p.toList), q.compile, w₀.scope, lang⟩ ∧
      w₁ = { w₀ with nextId := w₀.nextId + 1 } := by
  obtain ⟨q, w₀, hq, hmade⟩ := bind_eq_ok hf
  obtain ⟨hfunction, rfl⟩ := Prod.mk.inj hmade
  cases hfunction
  exact ⟨q, w₀, hq, rfl, rfl⟩

example : String.ofList (Text.trim " z ".toList) = "z" := by decide +kernel

/-- The function made of an expression does what the expression does in a copy of the variables that
were in scope, with the parameters set, whatever is in scope when it is called, if nothing that was
known is a parameter or changed by the expression. -/
theorem toFunction_evaluates {source : String} {params : List String} (hlang : lang.Complete)
    (hconstants : lang.constants = standardConstants) (hpure : lang.PureOperators hosts)
    (he : parseExpr lang source = .ok e)
    (hchanges : e.Every fun e => e.changesKnown lang w.scope = false)
    (hsettled : ∀ name v, Expr.knownVariable? lang w.scope name = some v → v.Settled)
    (hparams : ∀ p ∈ params,
      Expr.knownVariable? lang w.scope (String.ofList (Text.trim p.toList)) = none)
    (hf : e.toFunction hosts fuel lang params w = (.ok f, w₁)) (args : List Value) (w' : World) :
    w₁.scope = w.scope ∧ f.Evaluates hosts lang args e
      (Record.update w.scope
        ((params.map fun p => String.ofList (Text.trim p.toList)).zip args)) w' := by
  obtain ⟨q, w₀, hq, rfl, rfl⟩ := Expr.toFunction_eq_ok hf
  have hk : Expr.Knowledge Value.Settled hosts lang w.scope (Expr.knownIn lang w.scope) :=
    ⟨Value.settled_hereditary, fun _ hv => hv, hpure.on, fun name v hv =>
      ⟨(Expr.get?_knownIn lang w.scope name).trans hv, hsettled name v hv⟩⟩
  have hpreserving : e.Every (Expr.Preserving Value.Settled (Expr.knownIn lang w.scope)) := by
    refine Expr.Every.mono (fun e hchanges => ?_) e hchanges
    have hchanges := hchanges.here
    cases e with
    | assign root members _ =>
      exact (Expr.get?_knownIn lang w.scope _).trans
        (Option.isNone_iff_eq_none.mp (Option.isSome_eq_false_iff.mp hchanges))
    | define _ _ _ => cases hchanges
    | member base name => exact fun v hv _ => (Value.settled_hereditary.member hv name).isDeferred
    | _ => exact trivial
  obtain ⟨hscope, hsimilar⟩ :=
    Expr.fold_similar hk (parseExpr_plain hlang hconstants he) hpreserving hq
  have hnames : ∀ name ∈ params.map fun p => String.ofList (Text.trim p.toList),
      Expr.knownVariable? lang w.scope name = none := by
    intro name hname
    obtain ⟨p, hp, rfl⟩ := List.mem_map.mp hname
    exact hparams p hp
  have hwithin := Expr.knownIn_within args hnames
  refine ⟨hscope, ?_⟩
  rw [hscope]
  exact hsimilar.function_evaluates hwithin w'

/-- A parameter beside a variable that is known, and an assignment of one that is not. -/
def joiningSource : String := "y = x || z; y || '!'"

def joiningWorld : World := World.start [("x", .string "a")] 100

/-- The variable has another value by now. -/
def joiningLaterWorld : World := World.start [("x", .string "c"), ("z", .string "d")] 200

/-- The function reads the variable as it was, and its argument. -/
theorem joining_evaluates : ∃ e f w₁, parseExpr (Language.ofOptions 0 {}) joiningSource = .ok e ∧
    e.toFunction nullHosts 9 (Language.ofOptions 0 {}) [" z "] joiningWorld = (.ok f, w₁) ∧
    ∃ v w₂, v.text = "ab!" ∧ ∃ N, ∀ m ≥ N,
      f.apply nullHosts m [.string "b"] joiningLaterWorld = (result (.ok v), w₂) := by
  have hshown : (parseExpr (Language.ofOptions 0 {}) joiningSource).toOption.map (fun e =>
      (decide (e.Every fun e =>
          e.changesKnown (Language.ofOptions 0 {}) joiningWorld.scope = false),
        (e.toFunction nullHosts 9 (Language.ofOptions 0 {}) [" z "] joiningWorld).1.isOk,
        shown (e.evaluate nullHosts 9 (Language.ofOptions 0 {})
          { joiningLaterWorld with scope := [("x", .string "a"), ("z", .string "b")] }).1)) =
      some (true, true, some "ab!") := by
    decide +kernel
  obtain ⟨e, he, hall⟩ := exists_ok_of_map hshown
  obtain ⟨hchanges, hall⟩ := Prod.mk.inj hall
  obtain ⟨hmakes, hvalue⟩ := Prod.mk.inj hall
  rcases hf : e.toFunction nullHosts 9 (Language.ofOptions 0 {}) [" z "] joiningWorld with
    ⟨_ | f, w₁⟩ <;> rw [hf] at hmakes
  · cases hmakes
  rcases hrun : e.evaluate nullHosts 9 (Language.ofOptions 0 {})
    { joiningLaterWorld with scope := [("x", .string "a"), ("z", .string "b")] } with ⟨o, w₂⟩
  rw [hrun] at hvalue
  match o, hvalue with
  | .ok (.done v), hvalue =>
    have hcomplete : (Language.ofOptions 0 {}).Complete :=
      Language.Extended.complete (g := .direct) (.standard 0 {})
    have hsettled : ∀ name v,
        Expr.knownVariable? (Language.ofOptions 0 {}) joiningWorld.scope name = some v →
          v.Settled := by
      intro name v hknown
      have hmem := Record.mem_of_get? (Expr.knownVariable?_eq_some hknown)
      simp only [joiningWorld, World.start, List.mem_singleton, Prod.mk.injEq] at hmem
      rw [hmem.2]
      rfl
    have hparams : ∀ p ∈ [" z "], Expr.knownVariable? (Language.ofOptions 0 {}) joiningWorld.scope
        (String.ofList (Text.trim p.toList)) = none := by
      simp only [List.forall_mem_singleton]
      decide +kernel
    have hruns : Eventually (fun m => inScope [("x", .string "a"), ("z", .string "b")]
        (e.evaluate nullHosts m (Language.ofOptions 0 {}))) joiningLaterWorld (ended (.ok v))
          { w₂ with scope := joiningLaterWorld.scope } :=
      (Expr.evaluate_eventually hrun (by simp)).inScope
    have hevaluates := (toFunction_evaluates hcomplete rfl (.standard _ 0 {}) he
      (of_decide_eq_true hchanges) hsettled hparams hf [.string "b"] joiningLaterWorld).2
    exact ⟨e, f, w₁, he, hf, v, _, Option.some.inj hvalue, hevaluates.ends _ _ hruns⟩

/-- The argument is what the expression gives in a copy; the function gives what the parameter was
before. -/
theorem parameter_not_evaluated :
    (parseExpr (Language.ofOptions 0 {}) "x").toOption.map (fun e =>
      shown (inScope (Record.update joiningWorld.scope [("x", .string "b")])
        (e.evaluate nullHosts 9 (Language.ofOptions 0 {})) joiningWorld).1) = some (some "b") ∧
    (parseExpr (Language.ofOptions 0 {}) "x").toOption.map (fun e =>
      ((e.toFunction nullHosts 9 (Language.ofOptions 0 {}) ["x"] >>= fun f =>
        f.apply nullHosts 9 [.string "b"]) joiningWorld).1.toOption.map Value.text) =
          some (some "a") := by
  decide +kernel

end Formula
