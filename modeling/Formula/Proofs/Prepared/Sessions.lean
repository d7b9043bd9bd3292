import Formula.Proofs.Prepared.Domestic
import Formula.Proofs.Prepared.Rationed
import Formula.Proofs.Session
import Formula.Proofs.Simplify.Pushes
import Formula.Proofs.Termination

/-!
# Sessions without a host

Source texts are evaluated in standard languages and made into functions, functions are called and
variables are set to them, one request after the other. Every request ends with a value or an error,
unless prepared functions call one another without bound: nothing else goes on for ever.
-/

namespace Formula

open Eval Machine Waiting

def Held.Domestic (limit : Nat) : Held → Prop
  | value v => v.Domestic limit
  | suspended _ => False

/-- What is held of a run. -/
def Held.ofProgress (lang : Language Value) : Progress → Held
  | .done v => value v
  | .waiting frames on => suspended ⟨lang, frames, on⟩

namespace Request

/-- A request for a source text in a standard language, or for what is held. -/
def Domestic (limit : Nat) (held : List Held) : Request → Prop
  | evaluate lang e | prepare lang e _ =>
    lang.Domestic limit ∧ ∃ source, parseExpr lang source = .ok e
  | call f args => .value (.function f) ∈ held ∧ ∀ v ∈ args, .value v ∈ held
  | bind _ v => .value v ∈ held
  | settle _ | resume _ => False

/-- A request that ends with a value or an error. -/
def Ends (hosts : Hosts) (w : World) (q : Request) : Prop :=
  ∃ o w', Eventually (fun n => q.run hosts n) w o w' ∧
    ((∃ v, o = .ok (.value v)) ∨ ∃ e, o = .error (.error e))

/-- A request for which calls of prepared functions nest deeper than a ration allows, however many
levels there are. -/
def Overdraws (hosts : Hosts) (ration : Nat) (w : World) : Request → Prop
  | evaluate lang e => ∃ w', Eventually (fun n => (rationed hosts n ration).enter lang 0 e.compile)
      w (.error .exhausted) w'
  | call f args => ∃ w', Eventually (fun n => (rationed hosts n ration).call 0 f args)
      w (.error .exhausted) w'
  | _ => False

end Request

/-- The worlds of sessions in standard languages, with what is held in them: a request is made when
the one before it has ended. -/
inductive DomesticSession (hosts : Hosts) (limit : Nat) : World → List Held → Prop
  | start {scope : Bindings} (id : Nat) : (∀ p ∈ scope, p.2.Domestic limit) →
      DomesticSession hosts limit (.start scope id) []
  | gain {w : World} {held : List Held} {v : Value} : v.Domestic limit →
      DomesticSession hosts limit w held → DomesticSession hosts limit w (.value v :: held)
  | given {w w' : World} {held : List Held} {q : Request} {x : Held} : q.Domestic limit held →
      Eventually (fun n => q.run hosts n) w (.ok x) w' →
      DomesticSession hosts limit w held → DomesticSession hosts limit w' (x :: held)
  | failed {w w' : World} {held : List Held} {q : Request} {e : EvalError} :
      q.Domestic limit held → Eventually (fun n => q.run hosts n) w (.error (.error e)) w' →
      DomesticSession hosts limit w held → DomesticSession hosts limit w' held

section

variable {hosts : Hosts} {limit : Nat} {w : World} {held : List Held} {q : Request}

/-! ### One request -/

theorem Held.ofProgress_eq (lang : Language Value) (p : Progress) :
    (match p with
      | .done v => Pure.pure (value v)
      | .waiting frames on => Pure.pure (suspended ⟨lang, frames, on⟩) : Eval Held) =
      Pure.pure (ofProgress lang p) := by
  cases p <;> rfl

/-- What a request comes to in a domestic world. -/
theorem Request.outcome (hw : (Realm.domestic limit).world w) (hheld : ∀ x ∈ held, x.Domestic limit)
    (hq : q.Domestic limit held) :
    (∃ o w', Eventually (fun n => q.run hosts n) w o w' ∧ (Realm.domestic limit).world w' ∧
      Concludes False (Held.Domestic limit) o) ∨ ∀ ration, q.Overdraws hosts ration w := by
  have hR := Realm.domestic_closed limit
  have hclosure : ∀ {c}, (Realm.domestic limit).value (.function (.prepared c)) →
      (Realm.domestic limit).Closure c := fun hc => by
    cases hc with
    | prepared hc => exact Realm.closure_domestic_iff.mpr hc
  have hcalls : ∀ r, Calls (Realm.domestic limit) (rations hosts r) 0 :=
    fun r => rationed_calls hR Language.Domestic.depth hclosure r 0
  cases q with
  | evaluate lang e =>
    obtain ⟨hlang, source, he⟩ := hq
    have hcode := (parseExpr_domestic hlang he).compile
    have hstops := fun r => enter_stops hR (hcalls r) hlang e.compile hcode
    refine ((Rationed.enter hosts lang 0 e.compile).ends_or_overdraws hstops hw).imp_left ?_
    rintro ⟨o, w', hrun, hw', ho⟩
    refine ⟨_, w', hrun.map (Held.ofProgress_eq lang), hw', ?_⟩
    match o, ho with
    | .ok (.done v), hv => exact hv
    | .ok (.waiting _ _), hwaits => exact hwaits
    | .error (.error _), _ => exact trivial
  | call f args =>
    have hf : (Value.function f).Domestic limit := hheld _ hq.1
    have hargs : ∀ v ∈ args, v.Domestic limit := fun v hv => hheld _ (hq.2 v hv)
    have hstops := fun r => hcalls r f args hf hargs
    refine ((Rationed.call hosts 0 f args).ends_or_overdraws hstops hw).imp_left ?_
    rintro ⟨o, w', hrun, hw', ho⟩
    refine ⟨_, w', hrun.map fun _ => rfl, hw', ?_⟩
    match o, ho with
    | .ok v, hv => exact hv
    | .error (.error _), _ => exact trivial
  | prepare lang e params =>
    obtain ⟨hlang, source, he⟩ := hq
    have hfunction := toFunction_stops hosts hlang (parseExpr_domestic hlang he) params
    have hstops : Stops (Realm.domestic limit) False (Held.Domestic limit)
        fun n => (Request.prepare lang e params).run hosts n :=
      Halts.bind hfunction fun f hf => Halts.pure hf
    exact Or.inl (hstops w hw)
  | bind name v =>
    have hv : v.Domestic limit := hheld _ hq
    have hstops : Stops (Realm.domestic limit) False (Held.Domestic limit)
        fun n => (Request.bind name v).run hosts n :=
      Halts.bind stops_scope fun scope hscope =>
        Halts.bind (stops_setScope (Record.forall_insert hscope name hv)) fun _ _ => Halts.pure hv
    exact Or.inl (hstops w hw)
  | settle v => exact hq.elim
  | resume s => exact hq.elim

/-- A request that overdraws every ration does not come to an end. -/
theorem Request.Overdraws.exhausted {w' : World} {o : Except (Stop EvalError) Held}
    (hover : ∀ ration, q.Overdraws hosts ration w)
    (hrun : Eventually (fun n => q.run hosts n) w o w') : o = .error .exhausted := by
  by_contra hne
  cases q with
  | evaluate lang e =>
    refine ((Rationed.enter hosts lang 0 e.compile).bind _).not_overdraws hrun hne fun r => ?_
    exact (hover r).imp fun _ h => h.map (Held.ofProgress_eq lang)
  | call f args =>
    refine ((Rationed.call hosts 0 f args).bind _).not_overdraws hrun hne fun r => ?_
    exact (hover r).imp fun _ h => h.map (g := Held.value) fun _ => rfl
  | _ => exact hover 0

/-! ### Sessions -/

/-- All that a session holds and has in scope is domestic. -/
theorem DomesticSession.domestic (h : DomesticSession hosts limit w held) :
    (Realm.domestic limit).world w ∧ ∀ x ∈ held, x.Domestic limit := by
  induction h with
  | start id hscope => exact ⟨hscope, List.forall_mem_nil _⟩
  | gain hv _ ih => exact ⟨ih.1, List.forall_mem_cons.mpr ⟨hv, ih.2⟩⟩
  | given hq hrun _ ih =>
    rcases Request.outcome ih.1 ih.2 hq with ⟨o, w', hrun', hw', ho⟩ | hover
    · obtain ⟨rfl, rfl⟩ := hrun.unique hrun'
      exact ⟨hw', List.forall_mem_cons.mpr ⟨ho, ih.2⟩⟩
    · cases Request.Overdraws.exhausted hover hrun
  | failed hq hrun _ ih =>
    rcases Request.outcome ih.1 ih.2 hq with ⟨o, w', hrun', hw', -⟩ | hover
    · obtain ⟨rfl, rfl⟩ := hrun.unique hrun'
      exact ⟨hw', ih.2⟩
    · cases Request.Overdraws.exhausted hover hrun

/-- A request in a session of evaluations, of functions that are prepared, bound and called, goes on
for ever exactly if calls of prepared functions nest in one another without bound. -/
theorem session_endless_iff (hs : DomesticSession hosts limit w held) (hq : q.Domestic limit held) :
    ¬q.Ends hosts w ↔ ∀ ration, q.Overdraws hosts ration w := by
  constructor
  · intro hends
    rcases Request.outcome hs.domestic.1 hs.domestic.2 hq with ⟨o, w', hrun, -, ho⟩ | hover
    · refine (hends ⟨o, w', hrun, ?_⟩).elim
      match o, ho with
      | .ok (.value v), _ => exact Or.inl ⟨v, rfl⟩
      | .error (.error e), _ => exact Or.inr ⟨e, rfl⟩
    · exact hover
  · rintro hover ⟨o, w', hrun, ⟨v, rfl⟩ | ⟨e, rfl⟩⟩
    · cases Request.Overdraws.exhausted hover hrun
    · cases Request.Overdraws.exhausted hover hrun

end

/-! ### Self-application -/

/-- A source text that applies a function to itself. -/
def selfSource : String := "g(g)"

def selfCall : Expr := .call (.variable "g") [.variable "g"]

/-- The function that is prepared from the source text with the parameter `g`. -/
def selfApplied : Function Value :=
  .prepared ⟨100, "anonymous", ["g"], selfCall.compile, [], shallowLanguage⟩

/-- The world after the function has been prepared. -/
def selfWorld : World := { World.start [] 100 with nextId := 101 }

/-- Whether an expression applies `g` to itself. -/
def Expr.isSelfCall : Expr → Bool
  | .call (.variable f) [.variable x] => f = "g" && x = "g"
  | _ => false

theorem Expr.eq_of_isSelfCall {e : Expr} (h : e.isSelfCall = true) : e = selfCall := by
  unfold isSelfCall at h
  split at h
  · simp only [Bool.and_eq_true, decide_eq_true_eq] at h
    obtain ⟨rfl, rfl⟩ := h
    rfl
  · cases h

theorem parse_selfSource : parseExpr shallowLanguage selfSource = .ok selfCall := by
  have hparses : (parseExpr shallowLanguage selfSource).toOption.map Expr.isSelfCall =
      some true := by
    decide +kernel
  obtain ⟨e, he, hself⟩ := exists_ok_of_map hparses
  rw [he, Expr.eq_of_isSelfCall hself]

/-- The parameter is a name that the language leaves free. -/
theorem self_free : isReserved "g" = false ∧ shallowLanguage.function? "g" = none ∧
    shallowLanguage.unaryOp? "g" = none := by
  have hfree : isReserved "g" = false ∧ (shallowLanguage.function? "g").isNone = true ∧
      (shallowLanguage.unaryOp? "g").isNone = true := by decide +kernel
  exact ⟨hfree.1, Option.isNone_iff_eq_none.mp hfree.2.1, Option.isNone_iff_eq_none.mp hfree.2.2⟩

/-- Nothing of the expression is known beforehand. -/
theorem fold_selfCall (call : Function Value → List Value → Eval Value) {w : World}
    (hw : w.scope = []) :
    Expr.fold call shallowLanguage selfCall w = (.ok (.code selfCall), w) := by
  have hknown : Expr.knownVariable? shallowLanguage w.scope "g" = none := by
    simp [Expr.knownVariable?, self_free, hw]
  have hscope : Eval.scope w = (.ok w.scope, w) := rfl
  have hvariable : Expr.fold call shallowLanguage (.variable "g") w =
      (.ok (.code (.variable "g")), w) := by
    rw [Expr.fold, bind_of_ok hscope, hknown]
    rfl
  have hitems : Expr.foldItems call shallowLanguage [.variable "g"] w =
      (.ok [.code (.variable "g")], w) := by
    rw [Expr.foldItems, bind_of_ok hvariable]
    rfl
  rw [selfCall, Expr.fold, bind_of_ok hvariable, bind_of_ok hitems]
  rfl

theorem selfApplied_held :
    DomesticSession silentHosts 3 selfWorld [.value (.function selfApplied)] := by
  have hlang : shallowLanguage.Domestic 3 := ⟨0, { maxCallDepth := 3 }, Nat.le_refl 3, rfl⟩
  have hrun : ∀ n, (Request.prepare shallowLanguage selfCall ["g"]).run silentHosts n
      (World.start [] 100) = (.ok (.value (.function selfApplied)), selfWorld) := by
    intro n
    have hfold := fold_selfCall ((engine silentHosts n).call 0) (w := World.start [] 100) rfl
    have hsimplify : selfCall.simplify silentHosts n shallowLanguage (World.start [] 100) =
        (.ok selfCall, World.start [] 100) := bind_of_ok hfold
    have hprepare : selfCall.toFunction silentHosts n shallowLanguage ["g"] (World.start [] 100) =
        (.ok selfApplied, selfWorld) := bind_of_ok hsimplify
    exact bind_of_ok hprepare
  exact .given (q := .prepare shallowLanguage selfCall ["g"])
    ⟨hlang, selfSource, parse_selfSource⟩ ⟨0, fun n _ => hrun n⟩
    (.start 100 (List.forall_mem_nil _))

/-- The body calls what the parameter is bound to, with itself. -/
theorem selfCall_run (inner : Engine) (depth : Nat) {w : World}
    (hw : w.scope = [("g", .function selfApplied)]) :
    run inner shallowLanguage depth selfCall.compile [] w =
      (inner.call depth selfApplied [.function selfApplied] >>= fun v =>
        afterStep inner shallowLanguage depth [] (.next [.value v])) w := by
  have hcompile : selfCall.compile = [.variable "g", .variable "g", .call 1] := rfl
  have hlookup : lookup shallowLanguage w.scope "g" = .ok (.function selfApplied) := by
    simp [lookup, self_free, hw, Record.get?]
  rw [hcompile, run_variable rfl hlookup, run_variable rfl hlookup]
  rw [run_plan (p := .call selfApplied [.function selfApplied] []), perform_call]
  · intro d hd
    have hd' : d = 1 ∨ d = 0 := by simpa [needed, List.range, List.range.loop] using hd
    rcases hd' with rfl | rfl <;> exact ⟨_, rfl, rfl⟩
  · rfl

theorem inScope_of_error {α : Type} {b : Bindings} {x : Eval α} {w w' : World}
    {s : Stop EvalError} (h : x { w with scope := b } = (.error s, w')) :
    (inScope b x w).1 = .error s := by
  simp only [inScope, h]

/-- However many levels there are, calling the function with itself uses them up: two levels on it
is called with itself again. -/
theorem selfApplied_exhausted (hosts : Hosts) (depth n : Nat) (w : World) :
    ((engine hosts n).call depth selfApplied [.function selfApplied] w).1 =
      .error .exhausted := by
  induction n using Nat.strongRecOn generalizing w with
  | ind n ih =>
    match n, ih with
    | 0, _ | 1, _ => rfl
    | n + 2, ih =>
      let inside : World := { w with scope := [("g", .function selfApplied)] }
      have hrun := selfCall_run (engine hosts n) depth (w := inside) rfl
      rcases hcall : (engine hosts n).call depth selfApplied [.function selfApplied] inside
        with ⟨o, w'⟩
      obtain rfl : o = .error .exhausted := by rw [← ih n (by omega) inside, hcall]
      rw [bind_of_error hcall] at hrun
      have hbody : (engine hosts (n + 2)).call depth selfApplied [.function selfApplied] =
          enterBody (engine hosts (n + 1)) depth
            ⟨100, "anonymous", ["g"], selfCall.compile, [], shallowLanguage⟩
            [("g", .function selfApplied)] := rfl
      rw [hbody, enterBody_eq]
      exact inScope_of_error (bind_of_error hrun)

theorem selfApplied_not_ends :
    ¬(Request.call selfApplied [.function selfApplied]).Ends silentHosts selfWorld := by
  rintro ⟨o, w', ⟨N, hN⟩, ho⟩
  have hexhausted := selfApplied_exhausted silentHosts 0 N selfWorld
  rcases hcall : (engine silentHosts N).call 0 selfApplied [.function selfApplied] selfWorld
    with ⟨r, w₁⟩
  obtain rfl : r = .error .exhausted := by rw [← hexhausted, hcall]
  have hrun : (Request.call selfApplied [.function selfApplied]).run silentHosts N selfWorld =
      (.error .exhausted, w₁) := bind_of_error hcall
  have hsame : Except.error Stop.exhausted = o :=
    congrArg Prod.fst (hrun.symm.trans (hN N (Nat.le_refl N)))
  subst hsame
  rcases ho with ⟨v, hv⟩ | ⟨e, he⟩
  · cases hv
  · cases he

/-- What is held can be called with what is held. -/
theorem selfApplied_domestic : (Request.call selfApplied [.function selfApplied]).Domestic 3
    [.value (.function selfApplied)] :=
  ⟨List.mem_singleton_self _, fun v hv => List.mem_singleton.mpr (by rw [List.mem_singleton.mp hv])⟩

/-- Nested in one another, the calls of the function overdraw every ration. -/
theorem selfApplied_overdraws :
    DomesticSession silentHosts 3 selfWorld [.value (.function selfApplied)] ∧ ∀ ration,
      (Request.call selfApplied [.function selfApplied]).Overdraws silentHosts ration selfWorld :=
  ⟨selfApplied_held,
    (session_endless_iff selfApplied_held selfApplied_domestic).mp selfApplied_not_ends⟩

/-- A limit on nested calls does not stop a prepared function that is called with itself. -/
theorem selfApplied_endless : ∃ w held f, DomesticSession silentHosts 3 w held ∧
    (Request.call f [.function f]).Domestic 3 held ∧
    ¬(Request.call f [.function f]).Ends silentHosts w :=
  ⟨selfWorld, _, selfApplied, selfApplied_held, selfApplied_domestic, selfApplied_not_ends⟩

end Formula
