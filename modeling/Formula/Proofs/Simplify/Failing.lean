import Formula.Proofs.Expr.Folding
import Formula.Proofs.Simplify.Delayed
import Formula.Proofs.Substitute.Preserved

/-!
# Where simplifying fails

Simplifying an expression applies each operator whose operands are known, also in parts that are
not run when the expression is. An operator that fails there makes simplifying fail. Where it stands
in a part that is run whenever the expression is, no run of the expression gives a value either. So
an expression that has a value is simplified, unless one of its delayed parts is not, and that part
gives no value wherever the variables are as they were.
-/

namespace Formula

open Machine Eval

/-- Evaluations, one for each number of levels, that with levels enough have one outcome where
exactly some variables are in scope, and change nothing. -/
def Eval.TendsTo {α : Type} (b : Bindings) (x : Nat → Eval α) (r : Except EvalError α) : Prop :=
  ∃ N, ∀ m ≥ N, ∀ w : World, w.scope = b → x m w = (r.mapError .error, w)

namespace Eval.TendsTo

variable {α β : Type} {b : Bindings} {x : Nat → Eval α} {f : Nat → α → Eval β}

theorem pure (a : α) : TendsTo b (fun _ => Pure.pure a) (.ok a) := ⟨0, fun _ _ _ _ => rfl⟩

theorem scope : TendsTo b (fun _ => Eval.scope) (.ok b) :=
  ⟨0, fun _ _ w hw => by
    subst hw
    rfl⟩

theorem bind {a : α} {r : Except EvalError β} (hx : TendsTo b x (.ok a))
    (hf : TendsTo b (fun m => f m a) r) : TendsTo b (fun m => x m >>= f m) r := by
  obtain ⟨N, hN⟩ := hx
  obtain ⟨M, hM⟩ := hf
  refine ⟨N + M, fun m hm w hw => ?_⟩
  show (x m >>= f m) w = _
  rw [bind_of_ok (hN m (by omega) w hw)]
  exact hM m (by omega) w hw

theorem bind_error {s : EvalError} (hx : TendsTo b x (.error s)) :
    TendsTo b (fun m => x m >>= f m) (.error s) := by
  obtain ⟨N, hN⟩ := hx
  exact ⟨N, fun m hm w hw => bind_of_error (hN m hm w hw)⟩

end Eval.TendsTo

namespace Expr

section

variable (hosts : Hosts) (lang : Language Value) (waits : Prop) (b : Bindings)

/-- An expression that is simplified, with levels enough. -/
def Simplifies (e : Expr) : Prop :=
  ∃ f, TendsTo b (fun m => fold ((engine hosts m).call 0) lang e) (.ok f)

/-- An expression that is not simplified, and gives no value wherever the variables are. -/
def FailsWith (s : EvalError) (e : Expr) : Prop :=
  TendsTo b (fun m => fold ((engine hosts m).call 0) lang e) (.error s) ∧
    Futile hosts lang waits b e.compile

/-- An evaluation that goes through some parts. It comes to something good, and the parts are
simplified; or it fails, and so does one of the parts, if nothing is wrong with what is run. -/
def Assessed {α : Type} (parts : List Expr) (good : α → Prop) (wrong : Prop) (x : Nat → Eval α) :
    Prop :=
  (∃ a, good a ∧ TendsTo b x (.ok a) ∧ ∀ d ∈ parts, d.Simplifies hosts lang b) ∨
    ∃ s, TendsTo b x (.error s) ∧ (wrong ∨ ∃ d ∈ parts, d.FailsWith hosts lang waits b s)

/-- What is known of an expression: a value of some kind, which its program leaves. -/
def Known (P : Value → Prop) (e : Expr) (f : Folded) : Prop :=
  ∀ v, f = .known v → P v ∧ Brings hosts lang waits b e.compile (· = [.value v])

end

variable {P : Value → Prop} {hosts : Hosts} {lang : Language Value} {waits : Prop}
  {b : Bindings}

namespace Assessed

variable {α β : Type} {parts more : List Expr} {good : α → Prop} {good' : β → Prop}
  {wrong wrong' : Prop} {x : Nat → Eval α} {f : Nat → α → Eval β}

theorem pure {a : α} (h : good a) :
    Assessed hosts lang waits b [] good wrong fun _ => Pure.pure a :=
  .inl ⟨a, h, .pure a, List.forall_mem_nil _⟩

theorem scope : Assessed hosts lang waits b [] (· = b) wrong fun _ => Eval.scope :=
  .inl ⟨b, rfl, .scope, List.forall_mem_nil _⟩

theorem imp (h : Assessed hosts lang waits b parts good wrong x) (hwrong : wrong → wrong') :
    Assessed hosts lang waits b parts good wrong' x :=
  h.imp_right fun ⟨s, hs, hfails⟩ => ⟨s, hs, hfails.imp_left hwrong⟩

theorem bind (hx : Assessed hosts lang waits b parts good wrong x)
    (hf : ∀ a, good a → Assessed hosts lang waits b more good' wrong fun m => f m a) :
    Assessed hosts lang waits b (parts ++ more) good' wrong fun m => x m >>= f m := by
  rcases hx with ⟨a, ha, htends, hparts⟩ | ⟨s, htends, hfails⟩
  · rcases hf a ha with ⟨c, hc, htends', hmore⟩ | ⟨s, htends', hfails⟩
    · exact .inl ⟨c, hc, htends.bind htends', List.forall_mem_append.mpr ⟨hparts, hmore⟩⟩
    · refine .inr ⟨s, htends.bind htends', hfails.imp_right fun ⟨d, hd, hd'⟩ => ?_⟩
      exact ⟨d, List.mem_append_right _ hd, hd'⟩
  · refine .inr ⟨s, htends.bind_error, hfails.imp_right fun ⟨d, hd, hd'⟩ => ?_⟩
    exact ⟨d, List.mem_append_left _ hd, hd'⟩

/-- What comes last goes through no parts. -/
theorem last (hx : Assessed hosts lang waits b parts good wrong x)
    (hf : ∀ a, good a → Assessed hosts lang waits b [] good' wrong fun m => f m a) :
    Assessed hosts lang waits b parts good' wrong fun m => x m >>= f m := by
  have h := hx.bind hf
  rwa [List.append_nil] at h

/-- A part that need not be run. -/
theorem delayed {e : Expr} {kept : Folded → Prop}
    (h : Assessed hosts lang waits b e.delayed kept (e.Barren hosts lang waits b)
      fun m => fold ((engine hosts m).call 0) lang e) :
    Assessed hosts lang waits b (e :: e.delayed) kept wrong
      fun m => fold ((engine hosts m).call 0) lang e := by
  rcases h with ⟨f, hf, htends, hparts⟩ | ⟨s, htends, hbarren | ⟨d, hd, hfails⟩⟩
  · exact .inl ⟨f, hf, htends, List.forall_mem_cons.mpr ⟨⟨f, htends⟩, hparts⟩⟩
  · exact .inr ⟨s, htends, .inr ⟨e, List.mem_cons_self, htends, Brings.futile hbarren⟩⟩
  · exact .inr ⟨s, htends, .inr ⟨d, List.mem_cons_of_mem e hd, hfails⟩⟩

end Assessed

theorem knownVariable?_ready {name : String} {v : Value} (h : knownVariable? lang b name = some v) :
    v.isDeferred = false := by
  unfold knownVariable? at h
  split at h
  · cases h
  split at h
  · cases h
  · cases h
  · next hfunction hdeferred =>
    cases v with
    | deferred id => exact (hdeferred id h).elim
    | _ => rfl

/-! ### Operators -/

/-- A call of a pure function that gives a value is the call that purity describes. -/
theorem pure_call {f : Native} {args : List Value} {r : Except EvalError Value} {N : Nat}
    (hN : ∀ m ≥ N, ∀ depth w,
      (engine hosts m).call depth (.native f) args w = (Waiting.result r, w))
    {n depth : Nat} {w w₁ : World} {u : Value}
    (h : (engine hosts n).call depth (.native f) args w = (.ok u, w₁)) : r = .ok u ∧ w₁ = w := by
  have hbelow := (engine_below hosts (Nat.le_max_left n N)).call depth (.native f) args w
    (by simp [h])
  rw [hN _ (Nat.le_max_right n N), h] at hbelow
  cases r with
  | error s => cases hbelow
  | ok v =>
    cases hbelow
    exact ⟨rfl, rfl⟩

/-- An operator on known operands has a value, or no run gets past it. -/
theorem foldOperator_assessed (hready : waits → ∀ v, P v → v.isDeferred = false) {e : Expr}
    {code : Program Value} {i : Instruction Value} {op : String} {entry : Option Native}
    {args : List Value} {restored : Expr} (he : e.compile = code ++ [i])
    (hcode : Brings hosts lang waits b code (· = args.reverse.map .value)) (hargs : ∀ v ∈ args, P v)
    (hpure : ∀ f, entry = some f → f.PureOn P hosts) (hneeded : ∀ d ∈ needed i, d < args.length)
    (hplan : ∀ scope stack, plan lang scope i (args.reverse.map .value ++ stack) =
      (operator op entry).map fun f => .call f args stack) :
    Assessed hosts lang waits b [] (Known hosts lang waits b P e) (e.Barren hosts lang waits b)
      fun m => foldOperator ((engine hosts m).call 0) op entry args restored := by
  have hvs : waits → ∀ v ∈ args, v.isDeferred = false := fun hw v hv => hready hw v (hargs v hv)
  simp only [foldOperator_eq]
  cases entry with
  | none =>
    have hnever : Brings hosts lang waits b (code ++ [i]) fun _ => False :=
      hcode.unplanned hneeded hvs hplan
    refine .inr ⟨.unknownOperator op, ⟨0, fun _ _ _ _ => rfl⟩, .inl ?_⟩
    rw [Barren, he]
    exact hnever.mono fun _ hno => hno.elim
  | some f =>
    obtain ⟨r, hr, N, hN⟩ := hpure f rfl args hargs
    have hcalls : ∀ good : List Operand → Prop, (∀ u, r = .ok u → good [.value u]) →
        Brings hosts lang waits b (code ++ [i]) good := fun good hgood =>
      hcode.call hneeded hvs hplan fun n depth w u w₁ hcall => by
        obtain ⟨hu, hw⟩ := pure_call hN hcall
        exact ⟨fun h => hready h u (hr u hu), hgood u hu, hw⟩
    have happlied : TendsTo b (fun m => applied ((engine hosts m).call 0) op (some f) args) r :=
      ⟨N, fun m hm w _ => (hN m hm 0 w).trans (by cases r <;> rfl)⟩
    cases r with
    | error s =>
      refine .inr ⟨s, happlied.bind_error, .inl ?_⟩
      rw [Barren, he]
      exact hcalls _ fun u hu => by cases hu
    | ok u =>
      refine .inl ⟨.ofValue restored u, fun v hv => ?_, happlied.bind (.pure _),
        List.forall_mem_nil _⟩
      obtain rfl : u = v := by
        cases u <;> first | exact Folded.known.inj hv | cases hv
      rw [he]
      exact ⟨hr u rfl, hcalls _ fun v hv => by cases hv; rfl⟩

/-! ### Expressions -/

/-- A literal or an operator as the grammar puts it into expressions; constants are of some kind. -/
def Made (P : Value → Prop) (i : Instruction Value) : Prop :=
  i.isStructural = false ∧ ∀ v, i = .literal v → P v

theorem modest {e : Expr} (he : e.All (Made P)) (hs : e.Every (Sparing b)) : e.Modest b :=
  ⟨All.mono (fun _ h => h.1) e he, hs⟩

theorem modestItems {es : List Expr} (he : AllItems (Made P) es) (hs : EveryItem (Sparing b) es) :
    ModestItems b es :=
  ⟨AllItems.combine (fun _ h _ => h.1) es he he, hs⟩

/-- What folding takes for known is of some kind, on which the operators are pure. -/
structure Grounds (P : Value → Prop) (hosts : Hosts) (lang : Language Value) (waits : Prop)
    (b : Bindings) : Prop where
  hereditary : Value.Hereditary P
  operators : lang.PureOperatorsOn P hosts
  «variable» : ∀ name v, knownVariable? lang b name = some v → P v
  ready : waits → ∀ v, P v → v.isDeferred = false

/-- Items that are all known push their values. -/
theorem known_items {es : List Expr} {fs : List Folded}
    (h : List.Forall₂ (Known hosts lang waits b P) es fs) {values : List Value}
    (hvalues : fs.mapM Folded.value? = some values) :
    (∀ v ∈ values, P v) ∧ values.length = es.length ∧
      Brings hosts lang waits b (compileItems es) (· = values.reverse.map .value) := by
  induction h generalizing values with
  | nil =>
    cases hvalues
    exact ⟨List.forall_mem_nil _, rfl, fun _ _ w hs hrun => ⟨[], w, rfl, hs, hrun⟩⟩
  | @cons e f es fs he _ ih =>
    cases f with
    | code e' => cases hvalues
    | known v =>
      obtain ⟨vs, hvs, rfl⟩ : ∃ vs, fs.mapM Folded.value? = some vs ∧ v :: vs = values := by
        simpa [List.mapM_cons, Folded.value?, Option.bind_eq_some_iff] using hvalues
      obtain ⟨hP, hlength, hbrings⟩ := ih hvs
      obtain ⟨hv, hfirst⟩ := he v rfl
      refine ⟨List.forall_mem_cons.mpr ⟨hv, hP⟩, congrArg (· + 1) hlength, ?_⟩
      refine (Brings.append hfirst hbrings).mono fun os hos => ?_
      obtain ⟨_, _, rfl, rfl, rfl⟩ := hos
      rw [List.reverse_cons, List.map_append]
      rfl

theorem Known.code {e e' : Expr} : Known hosts lang waits b P e (.code e') := fun _ h => by cases h

theorem brings_literal {v : Value} (hv : waits → v.isDeferred = false) :
    Brings hosts lang waits b [.literal v] (· = [.value v]) := by
  have hnil : Brings hosts lang waits b [] (· = ([] : List Value).reverse.map .value) :=
    fun _ _ w hs hrun => ⟨[], w, rfl, hs, hrun⟩
  exact hnil.next (List.forall_mem_nil _) (fun _ => List.forall_mem_nil _) hv fun _ _ _ => rfl

/-- Code that pushes values. -/
theorem brings_pushed {code : Program Value} {v : Value} (h : Pushes hosts lang b code [v]) :
    Brings hosts lang waits b code (· = [.value v]) := by
  rintro rest stack w hs ⟨k, n, depth, u, w₁, p, w₂, hrun, hgives⟩
  have hsame := h.below n depth rest stack w hs.within (by rw [hrun]; simp)
  exact ⟨[.value v], w, rfl, hs.value (h.ready v (List.mem_singleton_self v)),
    k, n, depth, u, w₁, p, w₂, hsame.symm.trans hrun, hgives⟩

section

variable (hg : Grounds P hosts lang waits b)

include hg

set_option linter.unusedSectionVars false in
mutual

/-- Folding an expression goes through its delayed parts. If it fails, and not in one of these, then
no run gets past the expression to a value. -/
theorem fold_assessed : (e : Expr) → e.All (Made P) → e.Every (Sparing b) →
    Assessed hosts lang waits b e.delayed (Known hosts lang waits b P e)
      (e.Barren hosts lang waits b) fun m => fold ((engine hosts m).call 0) lang e
  | .literal v, he, _ => by
    have hv : Known hosts lang waits b P (.literal v) (.known v) := fun u hu => by
      cases hu
      exact ⟨he.2 v rfl, brings_literal fun hw => hg.ready hw v (he.2 v rfl)⟩
    cases v with
    | function f => exact .pure Known.code
    | _ => exact .pure hv
  | .undefined, _, _ => .pure Known.code
  | .variable name, _, _ => by
    simp only [fold]
    refine Assessed.scope.last fun b' hb' => ?_
    subst hb'
    cases hv : knownVariable? lang b' name with
    | none => exact .pure Known.code
    | some v =>
      refine .pure fun u hu => ?_
      cases hu
      exact ⟨hg.variable name v hv, brings_pushed (pushes_known hv (knownVariable?_eq_some hv))⟩
  | .unary op e, he, hs => by
    simp only [fold]
    refine ((fold_assessed e he.2 hs.2).imp barren_unary).last fun f hf => ?_
    cases f with
    | code e' => exact .pure Known.code
    | known v =>
      obtain ⟨hv, hbrings⟩ := hf v rfl
      have hcompile : (Expr.unary op e).compile = e.compile ++ [.unary op] := rfl
      refine foldOperator_assessed hg.ready hcompile hbrings
        (List.forall_mem_singleton.mpr hv) (hg.operators.unary op) (by simp [needed])
        fun scope stack => ?_
      simp only [plan]
      cases lang.unaryOp? op <;> rfl
  | .binary op l r, he, hs => by
    have hop : op ∉ Instruction.connectives := by
      simpa [Instruction.isStructural] using he.1.1
    have hl := modest he.2.1 hs.2.1
    have hr := modest he.2.2 hs.2.2
    simp only [fold]
    refine ((fold_assessed l he.2.1 hs.2.1).imp fun h => barren_left hop h hr).bind fun l' hl' => ?_
    refine ((fold_assessed r he.2.2 hs.2.2).imp (barren_right hop hl)).last fun r' hr' => ?_
    cases l' with
    | code e' => exact .pure Known.code
    | known x =>
      cases r' with
      | code e' => exact .pure Known.code
      | known y =>
        obtain ⟨hx, hfirst⟩ := hl' x rfl
        obtain ⟨hy, hsecond⟩ := hr' y rfl
        have hboth : Brings hosts lang waits b (l.compile ++ r.compile)
            (· = [x, y].reverse.map .value) := by
          refine (Brings.append hfirst hsecond).mono fun os hos => ?_
          obtain ⟨_, _, rfl, rfl, rfl⟩ := hos
          rfl
        refine foldOperator_assessed hg.ready (List.append_assoc _ _ _).symm hboth
          (List.forall_mem_cons.mpr ⟨hx, List.forall_mem_singleton.mpr hy⟩) (hg.operators.binary op)
          (by simp [needed_binary hop]) fun scope stack => ?_
        rw [plan_binary hop]
        cases lang.binaryOp? op <;> rfl
  | .connective c l r, he, hs => by
    have hr := modest he.2 hs.2.2
    simp only [fold]
    refine ((fold_assessed l he.1 hs.2.1).imp fun h => barren_connective h hr).bind fun _ _ => ?_
    exact (fold_assessed r he.2 hs.2.2).delayed.last fun _ _ => .pure Known.code
  | .conditional t y n, he, hs => by
    have hy := modest he.2.1 hs.2.2.1
    have hn := modest he.2.2 hs.2.2.2
    simp only [fold]
    refine ((fold_assessed t he.1 hs.2.1).imp fun h => barren_conditional h hy hn).bind
      fun _ _ => ?_
    refine (fold_assessed y he.2.1 hs.2.2.1).delayed.bind fun _ _ => ?_
    exact (fold_assessed n he.2.2 hs.2.2.2).delayed.last fun _ _ => .pure Known.code
  | .assign root members v, he, hs => by
    have hv : v.Modest b := modest he hs.2
    simp only [fold]
    exact ((fold_assessed v he hs.2).imp (barren_assign hs.1 hv)).last fun _ _ => .pure Known.code
  | .define name params body, he, hs => by
    simp only [fold]
    exact (fold_assessed body he hs.2).delayed.last fun _ _ => .pure Known.code
  | .call f args, he, hs => by
    have hf := modest he.1 hs.2.1
    have hargs := modestItems he.2 hs.2.2
    simp only [fold]
    refine ((fold_assessed f he.1 hs.2.1).imp fun h => barren_callee h hargs).bind fun _ _ => ?_
    exact ((foldItems_assessed args he.2 hs.2.2).imp (barren_arguments hf)).last
      fun _ _ => .pure Known.code
  | .member e name, he, hs => by
    simp only [fold]
    refine ((fold_assessed e he hs.2).imp barren_member).last fun f hf => ?_
    cases f with
    | code e' => exact .pure Known.code
    | known v =>
      obtain ⟨hv, hbrings⟩ := hf v rfl
      dsimp only
      split
      · next hok =>
        simp only [Bool.and_eq_true, Bool.not_eq_true'] at hok
        refine .pure fun u hu => ?_
        cases hu
        have hvalue : Brings hosts lang waits b e.compile (· = [v].reverse.map .value) := hbrings
        have hu := hg.hereditary.member hv name
        refine ⟨hu, hvalue.next (by simp [needed]) (fun hw => List.forall_mem_singleton.mpr
          (hg.ready hw v hv)) (fun hw => hg.ready hw _ hu) fun scope stack _ => ?_⟩
        simp only [plan, planMember, hok.1, hok.2]
        rfl
      · exact .pure Known.code
  | .array items, he, hs => by
    simp only [fold]
    refine ((foldItems_assessed items he hs.2).imp barren_array).last fun fs hfs => ?_
    cases hvalues : fs.mapM Folded.value? with
    | none => exact .pure Known.code
    | some values =>
      obtain ⟨hvs, hlength, hbrings⟩ := known_items hfs hvalues
      refine .pure fun u hu => ?_
      cases hu
      refine ⟨hg.hereditary.array hvs, hbrings.next ?_ (fun hw v hv => hg.ready hw v (hvs v hv))
        (fun _ => rfl) fun scope stack _ => ?_⟩
      · simp [needed, hlength]
      · simp only [plan, ← hlength, popValues_reverse]
        rfl
  | .object fields, he, hs => by
    simp only [fold]
    exact ((foldFields_assessed fields he hs.2).imp barren_object).last
      fun _ _ => .pure Known.code
  | .case tested branches other, he, hs => by
    simp only [fold]
    refine ((foldOption_assessed (!branches.isEmpty) tested he.1 hs.2.1).imp ?_).bind fun _ _ => ?_
    · rintro ⟨hrun, t, rfl, ht⟩
      match branches, hrun, he, hs with
      | (c, v) :: rest, _, he, hs =>
        exact barren_tested ht (modest he.2.1.1 hs.2.2.1.1) (modest he.2.1.2.1 hs.2.2.1.2.1)
    refine ((foldBranches_assessed branches he.2.1 hs.2.2.1).imp fun h => ?_).bind fun _ _ => ?_
    · cases tested with
      | none => exact barren_conditions (h isBranch_whenCond 0)
      | some t => exact barren_matches (modest he.1 hs.2.1) (h isBranch_whenMatch 0)
    refine ((foldOption_assessed false other he.2.2 hs.2.2.2).imp ?_).last
      fun _ _ => .pure Known.code
    rintro ⟨hrun, -⟩
    cases hrun
  | .sequence l r, he, hs => by
    have hl := modest he.1 hs.2.1
    have hr := modest he.2 hs.2.2
    simp only [fold]
    refine ((fold_assessed l he.1 hs.2.1).imp (barren_first hl hr)).bind fun _ _ => ?_
    exact ((fold_assessed r he.2 hs.2.2).imp (barren_rest hl hr)).last fun _ _ => .pure Known.code
  | .closed e, he, hs => by
    simp only [fold]
    exact ((fold_assessed e he hs.2).imp (barren_closed (modest he hs.2))).last
      fun _ _ => .pure Known.code

theorem foldItems_assessed : (es : List Expr) → AllItems (Made P) es →
    EveryItem (Sparing b) es →
    Assessed hosts lang waits b (delayedItems es) (List.Forall₂ (Known hosts lang waits b P) es)
      (BarrenItems hosts lang waits b es) fun m => foldItems ((engine hosts m).call 0) lang es
  | [], _, _ => .pure .nil
  | e :: rest, he, hs => by
    have hfirst := modest he.1 hs.1
    have hrest := modestItems he.2 hs.2
    simp only [foldItems]
    refine ((fold_assessed e he.1 hs.1).imp fun h => barrenItems_head h hrest).bind fun f hf => ?_
    exact ((foldItems_assessed rest he.2 hs.2).imp (barrenItems_tail hfirst)).last
      fun fs hfs => .pure (.cons hf hfs)

theorem foldFields_assessed : (fields : List (String × Expr)) → AllFields (Made P) fields →
    EveryField (Sparing b) fields →
    Assessed hosts lang waits b (delayedFields fields) (fun _ => True)
      (Brings hosts lang waits b (compileFields fields) fun _ => False)
      fun m => foldFields ((engine hosts m).call 0) lang fields
  | [], _, _ => .pure trivial
  | (key, e) :: rest, he, hs => by
    simp only [foldFields]
    refine ((fold_assessed e he.1 hs.1).imp never_field).bind fun _ _ => ?_
    exact ((foldFields_assessed rest he.2 hs.2).imp (never_fields (modest he.1 hs.1))).last
      fun _ _ => .pure trivial

theorem foldBranches_assessed : (branches : List (Expr × Expr)) →
    AllBranches (Made P) branches → EveryBranch (Sparing b) branches →
    Assessed hosts lang waits b (delayedBranches branches) (fun _ => True)
      (∀ {branch}, IsBranch branch → ∀ k,
        Brings hosts lang waits b (compileBranches branch k branches) fun _ => False)
      fun m => foldBranches ((engine hosts m).call 0) lang branches
  | [], _, _ => .pure trivial
  | (c, v) :: rest, he, hs => by
    have hc := modest he.1 hs.1
    have hv := modest he.2.1 hs.2.1
    simp only [foldBranches]
    refine ((fold_assessed c he.1 hs.1).imp ?_).bind fun _ _ => ?_
    · exact fun h _ hbranch _ => never_condition hbranch h hv
    refine (fold_assessed v he.2.1 hs.2.1).delayed.bind fun _ _ => ?_
    refine ((foldBranches_assessed rest he.2.2 hs.2.2).imp ?_).last fun _ _ => .pure trivial
    exact fun h _ hbranch k => never_branches hbranch hc hv (h hbranch (k + 1))

theorem foldOption_assessed (run : Bool) : (other : Option Expr) → AllOption (Made P) other →
    EveryOption (Sparing b) other →
    Assessed hosts lang waits b (delayedOption run other) (fun _ => True)
      (run = true ∧ ∃ e, other = some e ∧ e.Barren hosts lang waits b)
      fun m => foldOption ((engine hosts m).call 0) lang other
  | none, _, _ => .pure trivial
  | some e, he, hs => by
    simp only [foldOption]
    cases run with
    | true =>
      exact ((fold_assessed e he hs).imp fun h => ⟨rfl, e, rfl, h⟩).last fun _ _ => .pure trivial
    | false => exact (fold_assessed e he hs).delayed.last fun _ _ => .pure trivial

end

end

/-! ### More levels -/

end Expr

/-- Evaluations that come to good results only, and do not change with more levels once they have an
outcome. -/
def Eval.Judgement.below : Judgement where
  holds good x :=
    (∀ n w a w₁, x n w = (.ok a, w₁) → good a) ∧ ∀ n m, n ≤ m → Below (x n) (x m)
  pure h := ⟨fun _ _ _ _ hx => by cases hx; exact h, fun _ _ _ => .refl _⟩
  bind {α β good good' x f} hx hf := by
    refine ⟨fun n w c w₁ h => ?_, fun n m hnm w hne => ?_⟩
    · obtain ⟨a, w', hxa, hfa⟩ := bind_eq_ok h
      exact (hf a (hx.1 n w a w' hxa)).1 n w' c w₁ hfa
    · change ((x n >>= f n) w).1 ≠ _ at hne
      change (x m >>= f m) w = (x n >>= f n) w
      rcases bind_cases (x n) (f n) w with ⟨a, w', hxa, hb⟩ | ⟨s, w', hxs, hb⟩
      · have hxm : x m w = (.ok a, w') := (hx.2 n m hnm w (by simp [hxa])).trans hxa
        rw [hb] at hne ⊢
        rw [bind_of_ok hxm]
        exact (hf a (hx.1 n w a w' hxa)).2 n m hnm w' hne
      · rw [hb] at hne ⊢
        exact bind_of_error ((hx.2 n m hnm w (by simpa [hxs] using hne)).trans hxs)

namespace Expr

theorem folds_below (hosts : Hosts) (lang : Language Value) :
    Folds .below (fun _ => True) (fun _ => True) (fun _ => True)
      (fun n => (engine hosts n).call 0) lang := by
  have happlied : ∀ op entry args, Judgement.below.holds (fun _ => True)
      fun n => applied ((engine hosts n).call 0) op entry args := fun op entry args =>
    ⟨fun _ _ _ _ _ => trivial, fun n m hnm => (Below.refl _).bind fun f =>
      (engine_below hosts hnm).call 0 f args⟩
  exact {
    hereditary := ⟨trivial, fun _ => trivial, fun _ => trivial, fun _ => trivial,
      fun _ => trivial, fun _ _ _ => trivial, fun _ _ _ => trivial⟩
    known := fun _ => trivial
    literal := fun _ => trivial
    «variable» := fun _ => ⟨fun _ _ _ _ _ r _ => by cases r <;> exact trivial,
      fun _ _ _ => .refl _⟩
    unary := fun _ => ⟨trivial, fun _ => happlied _ _ _⟩
    binary := fun _ => ⟨trivial, fun _ _ => happlied _ _ _⟩ }

/-- Once simplifying has an outcome, more levels do not change it. -/
theorem simplify_below (hosts : Hosts) (lang : Language Value) {n m : Nat} (h : n ≤ m) (e : Expr) :
    Below (e.simplify hosts n lang) (e.simplify hosts m lang) :=
  ((fold_judged (folds_below hosts lang) e (.of_forall (fun _ => trivial) e)).2 n m h).bind
    fun _ => .refl _

/-! ### Whole programs -/

theorem simplify_tends {hosts : Hosts} {lang : Language Value} {b : Bindings} {e : Expr}
    {r : Except EvalError Folded}
    (h : TendsTo b (fun m => fold ((engine hosts m).call 0) lang e) r) :
    TendsTo b (fun m => e.simplify hosts m lang) (r.map Folded.expr) := by
  cases r with
  | error s => exact h.bind_error
  | ok f => exact h.bind (.pure f.expr)

end Expr

section

variable {P : Value → Prop} {waits : Prop} {hosts : Hosts} {lang : Language Value}
  {source : String} {e : Expr} {n : Nat} {v : Value} {w w₁ : World}

/-- An expression that has a value, and binds no name again that is bound, is simplified if and only
if its delayed parts are. If it is not, then one of them fails as it does, and this part gives no
value wherever the variables have the values they have. -/
theorem simplify_evaluated (hlang : lang.Complete) (hP : Value.Hereditary P)
    (hpure : lang.PureOperatorsOn P hosts) (hconstants : ∀ c ∈ lang.constants, P c.2)
    (he : parseExpr lang source = .ok e) (hb : ∀ p ∈ w.scope, p.2.isDeferred = false → P p.2)
    (hsparing : e.Every (Expr.Sparing w.scope))
    (hwaits : waits → ∀ u, P u → u.isDeferred = false)
    (hv : e.evaluate hosts n lang w = (.ok (.done v), w₁) ∨ waits ∧
      (e.evaluate hosts n lang >>= Progress.settle hosts n lang) w = (.ok v, w₁)) :
    ((∃ q N, ∀ m ≥ N, e.simplify hosts m lang w = (.ok q, w)) ↔
      ∀ d ∈ e.delayed, ∃ q N, ∀ m ≥ N, d.simplify hosts m lang w = (.ok q, w)) ∧
    ((∃ q N, ∀ m ≥ N, e.simplify hosts m lang w = (.ok q, w)) ∨
      ∃ d ∈ e.delayed, Futile hosts lang waits w.scope d.compile ∧ ∃ s N, ∀ m ≥ N,
        e.simplify hosts m lang w = (.error (.error s), w) ∧
        d.simplify hosts m lang w = (.error (.error s), w)) := by
  have hg : Expr.Grounds P hosts lang waits w.scope :=
    ⟨hP, hpure, fun name v hv => hb _ (Record.mem_of_get? (Expr.knownVariable?_eq_some hv))
      (Expr.knownVariable?_ready hv), hwaits⟩
  obtain ⟨u, w₂, hanswers⟩ : ∃ u w₂, Answers hosts lang waits e.compile w u w₂ := by
    rcases hv with hv | ⟨hw, hv⟩
    · exact ⟨v, w₁, 0, n, 0, .done v, w₁, hv, .done v w₁⟩
    · exact answers_of_settle hw hv
  have hmade : e.All (Expr.Made P) :=
    parseExpr_all hlang (Language.emits_made hP hconstants
      (fun hv u hu => by cases hu; exact hv) fun hi _ v hv => (hi v hv).elim) he
  -- an evaluation settles the matter for the world that it starts in
  have hsimplifies : ∀ {d : Expr} {f : Folded},
      TendsTo w.scope (fun m => Expr.fold ((engine hosts m).call 0) lang d) (.ok f) →
      ∃ q N, ∀ m ≥ N, d.simplify hosts m lang w = (.ok q, w) := fun h =>
    have ⟨N, hN⟩ := Expr.simplify_tends h
    ⟨_, N, fun m hm => hN m hm w rfl⟩
  have hfails : ∀ {d : Expr} {s : EvalError},
      TendsTo w.scope (fun m => Expr.fold ((engine hosts m).call 0) lang d) (.error s) →
      ∃ N, ∀ m ≥ N, d.simplify hosts m lang w = (.error (.error s), w) := fun h =>
    have ⟨N, hN⟩ := Expr.simplify_tends h
    ⟨N, fun m hm => hN m hm w rfl⟩
  have hexclusive : ∀ {d : Expr} {s : EvalError},
      (∃ N, ∀ m ≥ N, d.simplify hosts m lang w = (.error (.error s), w)) →
      ¬∃ q N, ∀ m ≥ N, d.simplify hosts m lang w = (.ok q, w) := by
    rintro d s ⟨N, hN⟩ ⟨q, M, hM⟩
    have hboth := (hN (N + M) (by omega)).symm.trans (hM (N + M) (by omega))
    cases hboth
  rcases Expr.fold_assessed hg e hmade hsparing with
    ⟨f, -, htends, hparts⟩ | ⟨s, htends, hbarren | ⟨d, hd, hdtends, hfutile⟩⟩
  · exact ⟨⟨fun _ d hd => have ⟨_, h⟩ := hparts d hd; hsimplifies h, fun _ => hsimplifies htends⟩,
      .inl (hsimplifies htends)⟩
  · exact (Brings.futile hbarren w u w₂ (fun _ _ h => h) hanswers).elim
  · refine ⟨⟨fun h => (hexclusive (hfails htends) h).elim,
      fun h => (hexclusive (hfails hdtends) (h d hd)).elim⟩, .inr ⟨d, hd, hfutile, s, ?_⟩⟩
    obtain ⟨N, hN⟩ := hfails htends
    obtain ⟨M, hM⟩ := hfails hdtends
    exact ⟨N + M, fun m hm => ⟨hN m (by omega), hM m (by omega)⟩⟩

end

/-! ### A conversion that is not run -/

/-- A language in which values may be converted. -/
def convertingLanguage : Language Value := .ofOptions 0 { operators := [("conversion", true)] }

/-- A conditional with a branch that converts to a type which there is not. -/
def convertingSource : String := "x ? 'a' : (1 as 'date')"

def convertingWorld : World := World.start [("x", .bool true)] 0

theorem converting_fails : ∃ e w₁, parseExpr convertingLanguage convertingSource = .ok e ∧
    e.Every (Expr.Sparing convertingWorld.scope) ∧
    e.evaluate quotingHosts 9 convertingLanguage convertingWorld =
      (.ok (.done (.string "a")), w₁) ∧
    ∀ m ≥ 9, (e.simplify quotingHosts m convertingLanguage convertingWorld).1 =
      .error (.error (.unknownType "date")) := by
  obtain ⟨e, he, hfacts⟩ := exists_ok_of_map (show (parseExpr convertingLanguage
    convertingSource).toOption.map (fun e => (e.assigns,
      Waiting.string? (e.evaluate quotingHosts 9 convertingLanguage convertingWorld).1,
      Waiting.failure? (e.simplify quotingHosts 9 convertingLanguage convertingWorld).1)) =
    some (false, some "a", some (.unknownType "date")) by decide +kernel)
  simp only [Prod.mk.injEq] at hfacts
  obtain ⟨hassigns, hvalue, hfails⟩ := hfacts
  have hsparing : e.Every (Expr.Sparing convertingWorld.scope) :=
    Expr.assigns_every (fun e h => by cases e <;> first | exact trivial | cases h) e hassigns
  refine ⟨e, _, he, hsparing, Prod.ext (Waiting.of_string? hvalue) rfl, fun m hm => ?_⟩
  -- more levels than nine change nothing
  have hnine := Waiting.of_failure? hfails
  have hsame := Expr.simplify_below quotingHosts convertingLanguage hm e convertingWorld
    (by rw [hnine]; simp)
  rw [hsame, hnine]

/-- The branch that is not taken gives no value; neither it nor the conditional is simplified. -/
theorem converting_evaluated : ∃ e, parseExpr convertingLanguage convertingSource = .ok e ∧
    ∃ d ∈ e.delayed, Futile quotingHosts convertingLanguage True convertingWorld.scope d.compile ∧
      ∃ s N, ∀ m ≥ N,
        e.simplify quotingHosts m convertingLanguage convertingWorld =
          (.error (.error s), convertingWorld) ∧
        d.simplify quotingHosts m convertingLanguage convertingWorld =
          (.error (.error s), convertingWorld) := by
  obtain ⟨e, w₁, he, hsparing, hv, hfails⟩ := converting_fails
  have hcomplete : convertingLanguage.Complete :=
    Language.Extended.complete (g := .direct) (.standard 0 _)
  have hpure : convertingLanguage.PureOperatorsOn Value.Settled quotingHosts :=
    .standard Value.settled_hereditary quotingHosts 0 _
  have hsettled : ∀ p ∈ convertingWorld.scope, p.2.isDeferred = false → p.2.Settled := by
    simp [convertingWorld, World.start, Value.Settled, Value.isSettled]
  have hready : True → ∀ u, Value.Settled u → u.isDeferred = false := fun _ _ hu => hu.isDeferred
  rcases (simplify_evaluated hcomplete Value.settled_hereditary hpure
    Language.standardConstants_settled he hsettled hsparing hready (.inl hv)).2 with
    ⟨q, N, hq⟩ | hdelayed
  · have hnine := hfails (N + 9) (by omega)
    rw [hq (N + 9) (by omega)] at hnine
    cases hnine
  · exact ⟨e, he, hdelayed⟩

/-- A conditional is not simplified, although it has a value, where the branch that is not taken
fails. -/
theorem conversion_not_simplified :
    (∀ P, Value.Hereditary P → convertingLanguage.PureOperatorsOn P quotingHosts) ∧
    ∃ e w₁, parseExpr convertingLanguage convertingSource = .ok e ∧
      e.evaluate quotingHosts 9 convertingLanguage convertingWorld =
        (.ok (.done (.string "a")), w₁) ∧
      ∀ m q w₂, e.simplify quotingHosts m convertingLanguage convertingWorld ≠ (.ok q, w₂) := by
  obtain ⟨e, w₁, he, -, hv, hfails⟩ := converting_fails
  refine ⟨fun P hP => .standard hP quotingHosts 0 _, e, w₁, he, hv, fun m q w₂ hq => ?_⟩
  have hlater := Expr.simplify_below quotingHosts convertingLanguage (Nat.le_add_right m 9) e
    convertingWorld (by rw [hq]; simp)
  have hnine := hfails (m + 9) (by omega)
  rw [hlater, hq] at hnine
  cases hnine

end Formula
