import Formula.Proofs.Simplify.Preserved
import Formula.Proofs.Substitute.Replaced
import Formula.Proofs.Substitute.Runs

/-!
# Substituting an expression with a value

An expression without assignments, definitions and calls that has a value may be put in place of a
variable: the program with the substitution does what the program does where the variable has this
value. Zeros are left out, since a value that is evaluated alone loses the sign of its zero, and so
are names that the resolver makes an alias of the variable, since these are not replaced.
-/

namespace Formula

open Waiting Machine

variable {hosts : Hosts} {lang : Language Value} {p r : Expr} {x source replacement : String}
  {v : Value} {n : Nat} {w w₁ w₂ : World} {P : Value → Prop}

theorem parseExpr_tame (hP : Value.Hereditary P) (hlang : lang.Complete)
    (hconstants : ∀ c ∈ lang.constants, P c.2) (hp : parseExpr lang source = .ok p) :
    p.All fun i => i.isStructural = false ∧ i.Tame P :=
  parseExpr_all hlang (Language.emits_tame hP hconstants) hp

theorem Expr.compile_idle (hP : Value.Hereditary P) (hlang : lang.Complete)
    (hconstants : ∀ c ∈ lang.constants, P c.2) (hr : parseExpr lang replacement = .ok r)
    (hwrites : r.written = []) (hcalls : r.callsNothing = true) : Idle P r.compile := by
  have htame := parseExpr_tame hP hlang hconstants hr
  have hcode := Expr.compile_writes r (Expr.All.mono (fun _ h => h.1) r htame) fun _ h => h
  exact hcode.idle (by simp [hwrites]) hcalls (Expr.compile_all (Expr.compiled_tame P) r htame)

/-- What a run ends with is known. -/
theorem Expr.evaluate_known (hv : r.evaluate hosts n lang w = (.ok (.done v), w₁)) : v.Known := by
  have hend := (engine_known hosts n lang 0 r.compile w trivial).2
  rwa [show (engine hosts n).enter lang 0 r.compile w = _ from hv] at hend

/-- The code of an expression without assignments, definitions and calls leads to an operand that
stands for the expression's value, if the names it reads stand for values of the kind. -/
theorem Expr.leads_value (hc : Closed P hosts lang) (hlang : lang.Complete)
    (hr : parseExpr lang replacement = .ok r) (hwrites : r.written = [])
    (hcalls : r.callsNothing = true)
    (hread : ∀ name ∈ Symbols.mentionedIn r.compile,
      Meets P (fun _ => True) (lookup lang w.scope name))
    (hv : r.evaluate hosts n lang w = (.ok (.done v), w₁)) (hzero : v ≠ .number 0.0)
    (b : Bindings) :
    ∃ o, PairedAs (Stands hosts lang w.scope b) r.shape o (.value v) ∧
      Leads hosts lang w.scope r.compile [] [o] := by
  have hidle := Expr.compile_idle hc.partwise.toHereditary hlang hc.constants hr hwrites hcalls
  have hregular := parseExpr_all hlang lang.emits_regular hr
  obtain ⟨o, hf, hstands, hleads⟩ :=
    idle_leads hc hidle hread (Expr.effects_compile r hregular []) rfl hv hzero
  refine ⟨o, ?_, hleads⟩
  generalize r.shape = s at hf
  cases hf with
  | value u _ =>
    cases hstands
    exact .value v
  | object fields _ =>
    cases hstands
    exact .object fields
  | thunk body _ => exact .thunk ⟨v, Expr.evaluate_known hv, hstands, .value⟩

/-- Where all variables are of a kind, names stand for values of the kind. -/
theorem Machine.Closed.reads (hc : Closed P hosts lang) {b : Bindings} (hb : ∀ q ∈ b, P q.2)
    (name : String) : Meets P (fun _ => True) (lookup lang b name) :=
  (lookup_made hc.resolver hb fun f _ => hc.natives f).weaken fun _ _ => trivial

/-- The programs with and without the substitution are the same but for exchanged parts. -/
theorem Expr.substitute_exchanged (hc : Closed P hosts lang) (hlang : lang.Complete)
    (hp : parseExpr lang source = .ok p) (hr : parseExpr lang replacement = .ok r)
    (hwrites : p.written = []) (hrwrites : r.written = []) (hcalls : r.callsNothing = true)
    (hreserved : isReserved x = false) (hfunction : lang.function? x = none)
    (hoperator : lang.isOperatorEnabled x = true → lang.unaryOp? x = none)
    (halias : ∀ name ∈ p.roots, name ≠ x → ¬lang.Aliases w.scope x name)
    (hb : ∀ q ∈ w.scope, P q.2)
    (hv : r.evaluate hosts n lang w = (.ok (.done v), w₁)) (hzero : v ≠ .number 0.0) :
    Exchanged hosts lang w.scope (Record.insert w.scope x v) []
      (Expr.substitute x r p).compile p.compile := by
  have hptame := parseExpr_tame hc.partwise.toHereditary hlang hc.constants hp
  have hrtame := parseExpr_tame hc.partwise.toHereditary hlang hc.constants hr
  have hregular : ∀ e : Expr, e.All (fun i => i.isStructural = false ∧ i.Tame P) →
      e.All fun i => i.isStructural = false := Expr.All.mono fun _ h => h.1
  have hcode := Expr.compile_writes p (hregular p hptame) fun _ h => h
  have hnothing : ∀ name, name ∉ p.written := by simp [hwrites]
  have hdefines : p.definesNothing = true := hcode.every hnothing fun i hi => by
    cases i with
    | define _ => cases hi
    | _ => rfl
  obtain ⟨o, hpair, hleads⟩ := Expr.leads_value hc hlang hr hrwrites hcalls
    (fun name _ => hc.reads hb name) hv hzero (Record.insert w.scope x v)
  have hall := Expr.substitute_all x hrtame p hptame
  have heffects := Expr.effects_compile (Expr.substitute x r p) (hregular _ hall) []
  have htame := Expr.compile_all (Expr.compiled_tame P) (Expr.substitute x r p) hall
  rw [Expr.compile_substitute] at heffects htame ⊢
  refine exchanged_replace (Expr.compile_touches hlang hp hdefines)
    (hcode.every hnothing fun i hi => by rw [hi]; rfl)
    (lookup_variable hreserved hfunction hoperator (Record.get?_insert_self ..))
    (Expr.evaluate_known hv) ?_ hpair hleads
    (Expr.endStatement_notMem r) (Expr.effects_compile r (hregular r hrtame)) htame heffects
  rintro name (hname | ⟨henabled, hunary⟩) hne
  · exact (lookup_insert hne (halias name hname hne) v).symm
  · refine (lookup_insert hne (fun halias => ?_) v).symm
    rw [halias.2.2.1 henabled] at hunary
    cases hunary

/-- An evaluation does the same as one that is given other variables to begin with, if either comes,
with levels enough, to what the other comes to at all. -/
theorem Eval.eventually_inScope {α : Type} {b : Bindings} {y z : Nat → Eval α}
    {o : Except (Stop EvalError) α}
    (hyz : ∀ n w₁, y n w = (o, w₁) → w₁.scope = w.scope ∧
      Eventually z { w with scope := b } o { w₁ with scope := b })
    (hzy : ∀ n w₁, z n { w with scope := b } = (o, w₁) →
      Eventually y w o { w₁ with scope := w.scope }) :
    Eventually y w o w₁ ↔ Eventually (fun m => Eval.inScope b (z m)) w o w₁ := by
  constructor
  · rintro ⟨N, hN⟩
    obtain ⟨hscope, M, hM⟩ := hyz N w₁ (hN N (Nat.le_refl N))
    refine ⟨M, fun m hm => ?_⟩
    simp only [Eval.inScope, hM m hm, ← hscope]
  · rintro ⟨N, hN⟩
    have hlast := hN N (Nat.le_refl N)
    rcases hz : z N { w with scope := b } with ⟨o', w'⟩
    simp only [Eval.inScope, hz] at hlast
    obtain ⟨rfl, rfl⟩ := Prod.mk.inj hlast
    exact hzy N w' hz

section

variable {a b : Bindings} {q : Expr}

theorem Machine.Exchanged.evaluates (h : Exchanged hosts lang a b [] p.compile q.compile) (n : Nat) :
    Matches a b (ExchangedProgress hosts lang a b) (p.evaluate hosts n lang)
      fun m => q.evaluate hosts m lang := engine_exchanges hosts lang a b n 0 _ _ h

theorem Machine.Exchanged.evaluate (h : Exchanged hosts lang a b [] p.compile q.compile)
    (hw : w.scope = a) {res : Except EvalError Value}
    (hp : p.evaluate hosts n lang w = (ended res, w₁)) :
    w₁.scope = a ∧ Eventually (fun m => q.evaluate hosts m lang) { w with scope := b } (ended res)
      { w₁ with scope := b } := by
  obtain ⟨hscope, o', hrel, hq⟩ := h.evaluates n w _ w₁ hw hp (ended_ne_exhausted res)
  refine ⟨hscope, ?_⟩
  cases res with
  | error e =>
    cases hrel
    exact hq
  | ok v =>
    cases hrel with
    | ok hprogress =>
      cases hprogress
      exact hq

theorem Machine.Exchanged.settle (h : Exchanged hosts lang a b [] p.compile q.compile)
    (hw : w.scope = a) {res : Except EvalError Value}
    (hp : (p.evaluate hosts n lang >>= Progress.settle hosts n lang) w = (result res, w₁)) :
    w₁.scope = a ∧ Eventually (fun m => q.evaluate hosts m lang >>= Progress.settle hosts m lang)
      { w with scope := b } (result res) { w₁ with scope := b } := by
  have hsettles : Matches a b Eq (p.evaluate hosts n lang >>= Progress.settle hosts n lang)
      fun m => q.evaluate hosts m lang >>= Progress.settle hosts m lang := by
    refine (h.evaluates n).bind fun s s' hs => ?_
    cases hs with
    | done v => exact settle_matches n n v
    | waiting on hframes => exact drive_matches n n hframes
  obtain ⟨hscope, o', hrel, hq⟩ := hsettles w _ w₁ hw hp (result_ne_exhausted res)
  refine ⟨hscope, ?_⟩
  cases res with
  | error e =>
    cases hrel
    exact hq
  | ok v =>
    cases hrel with
    | ok hv =>
      subst hv
      exact hq

end

theorem Value.settled_partwise : Value.Partwise Value.Settled where
  toHereditary := Value.settled_hereditary
  object h := (Value.fieldsSettled_iff _).mpr h

/-- Operators are pure on settled values, and only these are at hand. -/
theorem Machine.Closed.settled (hpure : lang.PureOperators hosts)
    (hconstants : ∀ c ∈ lang.constants, c.2.Settled)
    (hresolver : ∀ name v, lang.resolve? name = some (.value v) → v.Settled) :
    Closed Value.Settled hosts lang :=
  ⟨Value.settled_partwise, hpure.on, fun _ => rfl, hconstants, hresolver⟩

/-- A variable that is tested and joined, next to one that has no value and is not read. -/
def substitutedSource : String := "x == 'b' ? x || y : z"

/-- A statement and the variable that is the value. -/
def sequenceSource : String := "('c'; y)"

def substitutedWorld : World := World.start [("y", .string "b")] 0

/-- A program in which an expression is substituted for a variable does what the program does in a
scope where the variable has the expression's value: it comes to the same value or error, at once or
after waiting, and what the host has noted is the same. The values in scope, like those of constants
and of the resolver, are of some kind on which the operators are pure, such as settled values. -/
theorem evaluate_substituted (hc : Closed P hosts lang) (hlang : lang.Complete)
    (hp : parseExpr lang source = .ok p) (hr : parseExpr lang replacement = .ok r)
    (hwrites : p.written = []) (hrwrites : r.written = []) (hcalls : r.callsNothing = true)
    (hreserved : isReserved x = false) (hfunction : lang.function? x = none)
    (hoperator : lang.isOperatorEnabled x = true → lang.unaryOp? x = none)
    (halias : ∀ name ∈ p.roots, name ≠ x → ¬lang.Aliases w.scope x name)
    (hb : ∀ q ∈ w.scope, P q.2) (hv : r.evaluate hosts n lang w = (.ok (.done v), w₁))
    (hzero : v ≠ .number 0.0) (res : Except EvalError Value) (w₂ : World) :
    ((∃ N, ∀ m ≥ N, (Expr.substitute x r p).evaluate hosts m lang w = (ended res, w₂)) ↔
      ∃ N, ∀ m ≥ N, Eval.inScope (Record.insert w.scope x v) (p.evaluate hosts m lang) w =
        (ended res, w₂)) ∧
    ((∃ N, ∀ m ≥ N, ((Expr.substitute x r p).evaluate hosts m lang >>=
        Progress.settle hosts m lang) w = (result res, w₂)) ↔
      ∃ N, ∀ m ≥ N, Eval.inScope (Record.insert w.scope x v)
        (p.evaluate hosts m lang >>= Progress.settle hosts m lang) w = (result res, w₂)) := by
  have h := Expr.substitute_exchanged hc hlang hp hr hwrites hrwrites hcalls hreserved hfunction
    hoperator halias hb hv hzero
  exact ⟨Eval.eventually_inScope (fun _ _ => h.evaluate rfl) fun _ _ hq => (h.symm.evaluate rfl hq).2,
    Eval.eventually_inScope (fun _ _ => h.settle rfl) fun _ _ hq => (h.symm.settle rfl hq).2⟩

/-- A sequence of statements is put in place of a variable, and its value is joined. -/
theorem sequence_substituted : ∃ p r, parseExpr (Language.ofOptions 0 {}) substitutedSource = .ok p ∧
    parseExpr (Language.ofOptions 0 {}) sequenceSource = .ok r ∧ ∃ w₂, ∃ N, ∀ m ≥ N,
      (Expr.substitute "x" r p).evaluate quotingHosts m (Language.ofOptions 0 {}) substitutedWorld =
        (ended (.ok (.string "bb")), w₂) := by
  obtain ⟨p, hp, hfacts⟩ := exists_ok_of_map (show (parseExpr (Language.ofOptions 0 {})
    substitutedSource).toOption.map (fun p => (p.written, string? (Eval.inScope
      (Record.insert substitutedWorld.scope "x" (.string "b"))
      (p.evaluate quotingHosts 9 (Language.ofOptions 0 {})) substitutedWorld).1)) =
    some ([], some "bb") by decide +kernel)
  obtain ⟨r, hr, hvalue⟩ := exists_ok_of_map (show (parseExpr (Language.ofOptions 0 {})
    sequenceSource).toOption.map (fun r => (r.written, r.callsNothing, string?
      (r.evaluate quotingHosts 9 (Language.ofOptions 0 {}) substitutedWorld).1)) =
    some ([], true, some "b") by decide +kernel)
  simp only [Prod.mk.injEq] at hfacts hvalue
  obtain ⟨hwrites, hjoined⟩ := hfacts
  obtain ⟨hrwrites, hcalls, hb⟩ := hvalue
  rcases hrun : r.evaluate quotingHosts 9 (Language.ofOptions 0 {}) substitutedWorld with ⟨o, w₁⟩
  rw [hrun] at hb
  cases of_string? hb
  have hclosed : Closed Value.Settled quotingHosts (Language.ofOptions 0 {}) :=
    .settled (.standard quotingHosts 0 {}) Language.standardConstants_settled fun _ _ h => by cases h
  have hcomplete : (Language.ofOptions 0 {}).Complete :=
    Language.Extended.complete (g := .direct) (.standard 0 {})
  have hsettled : ∀ q ∈ substitutedWorld.scope, q.2.Settled := by
    simp [substitutedWorld, World.start, Value.Settled, Value.isSettled]
  rcases hinner : Eval.inScope (Record.insert substitutedWorld.scope "x" (.string "b"))
    (p.evaluate quotingHosts 9 (Language.ofOptions 0 {})) substitutedWorld with ⟨o', w₂⟩
  rw [hinner] at hjoined
  cases of_string? hjoined
  refine ⟨p, r, hp, hr, w₂, (evaluate_substituted hclosed hcomplete hp hr hwrites hrwrites hcalls
    rfl (by decide +kernel) (by decide +kernel) (fun _ _ _ h => ?_) hsettled hrun (by simp)
    (.ok (.string "bb")) w₂).1.mpr ⟨9, fun m hm => ?_⟩⟩
  · cases h.2.2.2.2
  · -- more levels than nine change nothing
    have hbelow : Eval.Below
        (Eval.inScope (Record.insert substitutedWorld.scope "x" (.string "b"))
          (p.evaluate quotingHosts 9 (Language.ofOptions 0 {})))
        (Eval.inScope (Record.insert substitutedWorld.scope "x" (.string "b"))
          (p.evaluate quotingHosts m (Language.ofOptions 0 {}))) :=
      .inScope _ ((engine_below quotingHosts hm).enter (Language.ofOptions 0 {}) 0 p.compile)
    rw [hbelow substitutedWorld (by rw [hinner]; simp), hinner]
    rfl

/-- A language whose resolver makes a variable an alias of another one. -/
def aliasingLanguage : Language Value :=
  { Language.ofOptions 0 {} with resolver := [("y", .alias "x")] }

/-- A read of the variable through an alias is not replaced, so it fails where the variable has no
value of its own. -/
theorem alias_kept : aliasingLanguage.PureOperators quotingHosts ∧ ∃ p r w₁ w₂ w₃,
    parseExpr aliasingLanguage "y" = .ok p ∧
    parseExpr aliasingLanguage "'a'" = .ok r ∧ p.written = [] ∧ r.written = [] ∧
    r.callsNothing = true ∧ isReserved "x" = false ∧ aliasingLanguage.function? "x" = none ∧
    aliasingLanguage.unaryOp? "x" = none ∧
    r.evaluate quotingHosts 9 aliasingLanguage (World.start [] 0) =
      (ended (.ok (.string "a")), w₁) ∧
    (Expr.substitute "x" r p).evaluate quotingHosts 9 aliasingLanguage (World.start [] 0) =
      (ended (.error (.undefinedVariable "y")), w₂) ∧
    Eval.inScope (Record.insert (World.start [] 0).scope "x" (.string "a"))
      (p.evaluate quotingHosts 9 aliasingLanguage) (World.start [] 0) =
        (ended (.ok (.string "a")), w₃) := by
  obtain ⟨p, hp, hfacts⟩ := exists_ok_of_map (show (parseExpr aliasingLanguage
    "y").toOption.map (fun p => (p.written, string? (Eval.inScope
      (Record.insert (World.start [] 0).scope "x" (.string "a"))
      (p.evaluate quotingHosts 9 aliasingLanguage) (World.start [] 0)).1)) =
    some ([], some "a") by decide +kernel)
  obtain ⟨r, hr, hvalue⟩ := exists_ok_of_map (show (parseExpr aliasingLanguage
    "'a'").toOption.map (fun r => (r.written, r.callsNothing, string?
      (r.evaluate quotingHosts 9 aliasingLanguage (World.start [] 0)).1)) =
    some ([], true, some "a") by decide +kernel)
  have hfails : (parseExpr aliasingLanguage "y").toOption.bind (fun p =>
      (parseExpr aliasingLanguage "'a'").toOption.bind fun r => failure?
        ((Expr.substitute "x" r p).evaluate quotingHosts 9 aliasingLanguage (World.start [] 0)).1) =
      some (.undefinedVariable "y") := by
    decide +kernel
  rw [hp, hr] at hfails
  simp only [Prod.mk.injEq] at hfacts hvalue
  have hpure := Language.PureOperators.standard quotingHosts 0 {}
  exact ⟨⟨hpure.unary, hpure.binary⟩, p, r, _, _, _, hp, hr, hfacts.1, hvalue.1, hvalue.2.1, rfl,
    by decide +kernel, by decide +kernel, Prod.ext (of_string? hvalue.2.2) rfl,
    Prod.ext (of_failure? hfails) rfl, Prod.ext (of_string? hfacts.2) rfl⟩

end Formula
