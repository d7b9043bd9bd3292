import Formula.Proofs.Machine.Mimics
import Formula.Proofs.Machine.Paired
import Formula.Proofs.Scope.Kept
import Formula.Proofs.Scope.Mentioned

/-!
# Code without calls

Code that calls, assigns and defines nothing does one thing wherever exactly some variables are in
scope, if the operators are pure: it leads to operands that it puts on the stack, and changes nothing
else, or no run that comes to it ends with a value. What a program on the stack comes to is decided
in the same way before it is entered.
-/

namespace Formula

open Waiting

/-- Only a zero is changed when it loses its sign. -/
theorem Value.normalise_eq_self {v : Value} (h : v.normalise ≠ .number 0.0) : v.normalise = v := by
  cases v with
  | number x =>
    simp only [normalise] at h ⊢
    split at h
    · exact (h rfl).elim
    · next hx => rw [if_neg hx]
  | _ => rfl

namespace Machine

open Eval

/-! ### What programs come to -/

section

variable (hosts : Hosts) (lang : Language Value) (b : Bindings)

/-- A program whose value is `v` wherever exactly the variables `b` are in scope. -/
def Comes (code : Program Value) (v : Value) : Prop :=
  ∀ depth w, w.scope = b →
    Unfolds (fun n => (engine hosts n).enter lang depth code) (fun _ => pure (.done v)) w

/-- A program that does not come to a value at once. -/
def Valueless (code : Program Value) : Prop :=
  ∀ n depth w v w₁, w.scope = b → (engine hosts n).enter lang depth code w ≠ (.ok (.done v), w₁)

/-- A program that has one value of some kind, or none. -/
def Decided (P : Value → Prop) (code : Program Value) : Prop :=
  (∃ v, P v ∧ Comes hosts lang b code v) ∨ Valueless hosts lang b code

/-- Code that turns the topmost operands into others and does nothing else. The operand left by a
statement is not above others. -/
def Leads (code : Program Value) (os os' : List Operand) : Prop :=
  ∀ depth rest stack w, (.endStatement ∈ code → stack = []) → w.scope = b →
    Unfolds (fun n => run (engine hosts n) lang depth (code ++ rest) (os ++ stack))
      (fun n => run (engine hosts n) lang depth rest (os' ++ stack)) w

/-- Code that no run gets past to end with a value. -/
def Stuck (code : Program Value) (os : List Operand) : Prop :=
  ∀ n depth rest stack w v w₁, (.endStatement ∈ code → stack = []) → w.scope = b →
    run (engine hosts n) lang depth (code ++ rest) (os ++ stack) w ≠ (.ok (.done v), w₁)

end

/-- A language whose operators are pure on values of some kind, and whose functions, constants and
resolver are of this kind. -/
structure Closed (P : Value → Prop) (hosts : Hosts) (lang : Language Value) : Prop where
  partwise : Value.Partwise P
  operators : lang.PureOperatorsOn P hosts
  natives : ∀ f : Native, P (.function (.native f))
  constants : ∀ p ∈ lang.constants, P p.2
  resolver : ∀ name v, lang.resolve? name = some (.value v) → P v

variable {hosts : Hosts} {lang : Language Value} {b : Bindings} {P : Value → Prop}
  {os os' : List Operand} {σ σ' : List Shape}

theorem Stuck.of_unfolds {x y : Nat → Eval Progress} {w : World} (h : Unfolds x y w)
    (hy : ∀ n v w₁, y n w ≠ (.ok (.done v), w₁)) (n : Nat) (v : Value) (w₁ : World) :
    x n w ≠ (.ok (.done v), w₁) := by
  intro hx
  have hsame := h.below n (by rw [hx]; exact fun h => by cases h)
  exact hy n v w₁ (hsame.symm.trans hx)

theorem Leads.trans {code rest : Program Value} {os'' : List Operand}
    (h : Leads hosts lang b code os os') (h' : Leads hosts lang b rest os' os'') :
    Leads hosts lang b (code ++ rest) os os'' := by
  intro depth more stack w hend hw
  have hfirst := h depth (rest ++ more) stack w (fun hc => hend (List.mem_append_left _ hc)) hw
  rw [List.append_assoc]
  exact hfirst.trans (h' depth more stack w (fun hc => hend (List.mem_append_right _ hc)) hw)

theorem Leads.stuck {code rest : Program Value} (h : Leads hosts lang b code os os')
    (h' : Stuck hosts lang b rest os') : Stuck hosts lang b (code ++ rest) os := by
  intro n depth more stack w v w₁ hend hw
  have hfirst := h depth (rest ++ more) stack w (fun hc => hend (List.mem_append_left _ hc)) hw
  rw [List.append_assoc]
  exact Stuck.of_unfolds hfirst (fun n v w₁ =>
    h' n depth more stack w v w₁ (fun hc => hend (List.mem_append_right _ hc)) hw) n v w₁

theorem Stuck.append {code : Program Value} (h : Stuck hosts lang b code os)
    (rest : Program Value) : Stuck hosts lang b (code ++ rest) os := by
  intro n depth more stack w v w₁ hend hw
  rw [List.append_assoc]
  exact h n depth (rest ++ more) stack w v w₁ (fun hc => hend (List.mem_append_left _ hc)) hw

/-! ### Needed operands -/

/-- Needed operands that have values are brought to them, or one has none. -/
theorem force_decided (ds : List Nat) (hds : ∀ d ∈ ds, d < os.length) (hf : Fits os σ)
    (hm : Stack.Made P (Decided hosts lang b P) os) :
    (∃ os', Fits os' (forced ds σ) ∧ Stack.Made P (Decided hosts lang b P) os' ∧
      ∀ depth stack w, w.scope = b →
        Unfolds (fun n => force (engine hosts n) lang depth ds (os ++ stack))
          (fun _ => pure (.ready (os' ++ stack))) w) ∨
    ∀ n depth stack w s w₁, w.scope = b →
      force (engine hosts n) lang depth ds (os ++ stack) w ≠ (.ok (.ready s), w₁) := by
  induction ds generalizing os σ with
  | nil => exact .inl ⟨os, hf, hm, fun _ _ _ _ => .of_eq fun _ => rfl⟩
  | cons d ds ih =>
    obtain ⟨hd, hds⟩ := List.forall_mem_cons.mp hds
    have hget : ∀ stack, (os ++ stack)[d]? = some os[d] := fun stack => by
      rw [List.getElem?_append_left hd, List.getElem?_eq_getElem hd]
    have hset : ∀ v stack, (os ++ stack).set d (.value v) = os.set d (.value v) ++ stack :=
      fun v stack => List.set_append_left d _ hd
    cases ho : os[d] with
    | value v =>
      simp only [ho] at hget
      have hsame : os.set d (.value v) = os := by rw [← ho, List.set_getElem_self]
      have hfits : Fits os (σ.set d .value) := hsame ▸ hf.set d v
      cases v with
      | deferred id =>
        refine .inr fun n depth stack w s w₁ _ h => ?_
        rw [force, hget] at h
        cases h
      | _ =>
        simp only [force, hget]
        exact ih hds hfits hm
    | thunk code =>
      simp only [ho] at hget
      have hlength : ∀ v, ∀ c ∈ ds, c < (os.set d (.value v)).length := fun v c hc => by
        rw [List.length_set]
        exact hds c hc
      have hcode : Decided hosts lang b P code := by
        have h := hm _ (List.getElem_mem hd)
        rwa [ho] at h
      simp only [force_thunk (hget _)]
      rcases hcode with ⟨v, hv, hcomes⟩ | hnone
      · have hafter : ∀ depth stack w, w.scope = b → Unfolds
            (fun n => (engine hosts n).enter lang depth code >>=
              afterEntry (engine hosts n) lang depth d ds (os ++ stack))
            (fun n => force (engine hosts n) lang depth ds (os.set d (.value v) ++ stack)) w := by
          intro depth stack w hw
          rw [← hset v stack]
          exact (hcomes depth w hw).bind fun n =>
            afterEntry (engine hosts n) lang depth d ds (os ++ stack)
        rcases ih (hlength v) (hf.set d v) (hm.set d hv) with ⟨os', hf', hm', hforce⟩ | hnever
        · exact .inl ⟨os', hf', hm', fun depth stack w hw =>
            (hafter depth stack w hw).trans (hforce depth stack w hw)⟩
        · refine .inr fun n depth stack w s w₁ hw h => ?_
          have hsame := (hafter depth stack w hw).below n (by rw [h]; exact fun h => by cases h)
          exact hnever n depth stack w s w₁ hw (hsame.symm.trans h)
      · refine .inr fun n depth stack w s w₁ hw h => ?_
        obtain ⟨p, w', hp, hafter⟩ := bind_eq_ok h
        cases p with
        | done v => exact hnone n depth w v w' hw hp
        | waiting frames on => cases hafter

/-! ### Instructions -/

/-- A plan that calls, if anything, the operator in a table's entry. -/
def Plan.Operates (entry : Option (Option Native)) : Plan → Prop
  | .call f _ _ => ∃ g, f = .native g ∧ entry = some (some g)
  | _ => True

theorem planOperator_operates {op : String} {entry : Option Native} {n : Nat}
    {stack : List Operand} :
    Meets (Plan.Operates (some entry)) (fun _ => True) (planOperator op entry n stack) := by
  cases entry with
  | none => exact trivial
  | some g =>
    show Meets _ _ (popValues n stack [] >>= fun r => pure (Plan.call (.native g) r.1 r.2))
    exact Meets.bind (Meets.any _) fun _ _ => ⟨g, rfl, rfl⟩

theorem planFlag_operates {entry : Option (Option Native)} {stack : List Operand}
    (flag : Value → List Operand → Except EvalError Bool) :
    Meets (Plan.Operates entry) (fun _ => True) (planFlag stack flag) :=
  Meets.bind (Meets.any _) fun _ _ => Meets.bind (Meets.any _) fun _ _ =>
    Meets.bind (Meets.any _) fun _ _ => trivial

theorem planChoice_operates {entry : Option (Option Native)} {stack : List Operand} (count : Nat)
    (tested : Bool) : Meets (Plan.Operates entry) (fun _ => True) (planChoice count tested stack) := by
  refine Meets.bind (Meets.any _) fun r _ => Meets.bind (Meets.any _) fun _ _ => ?_
  rcases r with ⟨chosen, _⟩
  cases chosen <;> exact trivial

theorem planMember_operates {entry : Option (Option Native)} {name : String}
    {stack : List Operand} :
    Meets (Plan.Operates entry) (fun _ => True) (planMember lang name stack) := by
  unfold planMember
  split
  · exact trivial
  split
  · exact trivial
  · exact Meets.bind (Meets.any _) fun _ _ => trivial

theorem planProperty_operates {entry : Option (Option Native)} {key : String}
    {stack : List Operand} :
    Meets (Plan.Operates entry) (fun _ => True) (planProperty key stack) := by
  unfold planProperty
  split
  · exact trivial
  · refine Meets.bind (Meets.any _) fun _ _ => ?_
    dsimp only
    split <;> exact trivial

/-- An instruction other than a call calls its operator, if anything. -/
theorem plan_operates {scope : Bindings} {i : Instruction Value} {stack : List Operand}
    (hi : ∀ n, i ≠ .call n) (hwrites : i.writes = false) :
    Meets (Plan.Operates (i.called? lang)) (fun _ => True) (plan lang scope i stack) := by
  cases i with
  | literal _ | target _ | undefined | group _ | objectStart | objectEnd => exact trivial
  | «variable» name => exact Meets.bind (Meets.any _) fun _ _ => trivial
  | unary op => exact planOperator_operates
  | binary op =>
    unfold plan planBinary
    dsimp only
    split
    · refine Meets.bind (Meets.any _) fun _ _ => Meets.bind (Meets.any _) fun _ _ => ?_
      dsimp only
      split <;> exact trivial
    split
    · refine Meets.bind (Meets.any _) fun _ _ => Meets.bind (Meets.any _) fun _ _ => ?_
      dsimp only
      split <;> exact trivial
    · have hop : op ∉ Instruction.connectives := by simp_all [Instruction.connectives]
      rw [Instruction.called?, if_neg hop]
      exact planOperator_operates
  | ternary op =>
    unfold plan planTernary
    dsimp only
    split
    · exact Meets.bind (Meets.any _) fun _ _ => Meets.bind (Meets.any _) fun _ _ =>
        Meets.bind (Meets.any _) fun _ _ => trivial
    · next hop =>
      rw [Instruction.called?, if_neg hop]
      exact planOperator_operates
  | call n => exact (hi n rfl).elim
  | define _ => cases hwrites
  | member name => exact planMember_operates
  | endStatement | array _ | caseElse => exact Meets.bind (Meets.any _) fun _ _ => trivial
  | whenCond _ | whenMatch _ =>
    unfold plan
    exact planFlag_operates _
  | caseMatch count => exact planChoice_operates count true
  | caseCond count => exact planChoice_operates count false
  | property key => exact planProperty_operates

/-- Code that calls, assigns and defines nothing, with literals of some kind, in which every nested
program leaves one operand. -/
inductive Idle (P : Value → Prop) : Program Value → Prop
  | nil : Idle P []
  | cons {i : Instruction Value} {rest : Program Value} :
      (∀ n, i ≠ .call n) → i.writes = false → (∀ op, i = .ternary op → op = "?") →
      (∀ v, i = .literal v → P v) → (∀ body, i = .group body → Balanced body) →
      (∀ body, i = .group body → Idle P body) → Idle P rest → Idle P (i :: rest)

/-- Only the end of a statement leaves nothing. -/
theorem planned_ne_nil {i : Instruction Value} (hi : i ≠ .endStatement)
    (hp : planned i σ = some σ') : σ' ≠ [] := by
  have hvalue : ∀ {o : Option (List Shape)}, o.map (.value :: ·) = some σ' → σ' ≠ [] := by
    intro o ho
    obtain ⟨below, -, rfl⟩ := Option.map_eq_some_iff.mp ho
    exact List.cons_ne_nil _ _
  rintro rfl
  unfold planned at hp
  split at hp
  all_goals first
    | exact hi rfl
    | exact hvalue hp rfl
    | cases hp
    | (split at hp <;> first | exact hvalue hp rfl | cases hp | (split at hp <;> cases hp))

/-! ### Steps -/

section

variable (P : Value → Prop) (hosts : Hosts) (lang : Language Value) (b : Bindings)

/-- Code that is stuck, or leads to operands of given shapes that are decided. -/
def Reaches (code : Program Value) (os : List Operand) (σ : List Shape) : Prop :=
  Stuck hosts lang b code os ∨ ∃ os', Fits os' σ ∧
    Stack.Made P (Decided hosts lang b P) os' ∧ Leads hosts lang b code os os'

end

/-- A stack that is left has no deferred value on top, or the run waits. -/
theorem reaches_next {i : Instruction Value} (hnil : os' = [] → i = .endStatement)
    (h : ∀ depth rest stack w, w.scope = b →
      Unfolds (fun n => run (engine hosts n) lang depth ([i] ++ rest) (os ++ stack))
        (fun n => afterStep (engine hosts n) lang depth rest (.next (os' ++ stack))) w)
    (hf : Fits os' σ) (hm : Stack.Made P (Decided hosts lang b P) os') :
    Reaches P hosts lang b [i] os σ := by
  by_cases htop : ∃ id below, os' = .value (.deferred id) :: below
  · obtain ⟨id, below, rfl⟩ := htop
    refine .inl fun n depth rest stack w v w₁ _ hw => ?_
    exact Stuck.of_unfolds (h depth rest stack w hw) (fun _ _ _ hrun => by cases hrun) n v w₁
  · refine .inr ⟨os', hf, hm, fun depth rest stack w hend hw => ?_⟩
    have hready : ∀ id below, os' ++ stack ≠ .value (.deferred id) :: below := by
      intro id below heq
      cases os' with
      | nil =>
        obtain rfl := hnil rfl
        rw [hend (List.mem_singleton_self _)] at heq
        cases heq
      | cons o os' =>
        cases heq
        exact htop ⟨id, os', rfl⟩
    have hafter := h depth rest stack w hw
    simp only [afterStep_next hready] at hafter
    exact hafter

theorem reaches_value {i : Instruction Value} {u : Value}
    (h : ∀ depth rest stack w, w.scope = b →
      Unfolds (fun n => run (engine hosts n) lang depth ([i] ++ rest) (os ++ stack))
        (fun n => afterStep (engine hosts n) lang depth rest
          (.next (.value u :: (os' ++ stack)))) w)
    (hu : P u) (hf : Fits os' σ) (hm : Stack.Made P (Decided hosts lang b P) os') :
    Reaches P hosts lang b [i] os (.value :: σ) :=
  have hf : Fits (.value u :: os') (.value :: σ) := .value u hf
  reaches_next (fun h => by cases h) h hf (hm.cons hu)

/-- What a value is used for, if it is not assigned. -/
theorem use_value (hP : Value.Partwise P) {o : Operand} {use : Use} {stack : List Operand}
    (hquiet : Plan.Quiet (.resolve o use stack)) {v : Value} (hv : P v) :
    ∃ u, P u ∧ use.apply v = pure u := by
  cases use with
  | keep => exact ⟨v, hv, rfl⟩
  | truth => exact ⟨.bool v.truthy, hP.bool _, rfl⟩
  | assign path => exact hquiet.elim

/-- A pure function gives what it gives, with levels enough. -/
theorem call_unfolds {f : Native} {args : List Value} {r : Except EvalError Value}
    (h : ∃ N, ∀ m ≥ N, ∀ depth w, (engine hosts m).call depth (.native f) args w = (result r, w))
    (depth : Nat) (w : World) :
    Unfolds (fun n => (engine hosts n).call depth (.native f) args)
      (fun _ => Eval.ofExcept r) w := by
  obtain ⟨N, hN⟩ := h
  have hresult : Eval.ofExcept r w = (result r, w) := by cases r <;> rfl
  refine ⟨fun n hn => ?_, N, fun n hn => (hN n hn depth w).trans hresult.symm⟩
  have hbelow := (engine_below hosts (Nat.le_max_left n N)).call depth _ _ w hn
  rw [hresult, ← hN _ (Nat.le_max_right n N) depth w, ← hbelow]

/-- The operators that regular instructions call are pure. -/
theorem Closed.pure (hc : Closed P hosts lang) {i : Instruction Value} {g : Native}
    (hternary : ∀ op, i = .ternary op → op = "?") (hi : i.called? lang = some (some g)) :
    g.PureOn P hosts := by
  cases i with
  | unary op => exact hc.operators.unary op g (Option.some.inj hi)
  | binary op =>
    simp only [Instruction.called?] at hi
    split at hi
    · cases hi
    · exact hc.operators.binary op g (Option.some.inj hi)
  | ternary op =>
    obtain rfl := hternary op rfl
    simp [Instruction.called?] at hi
  | _ => cases hi

/-- A plan for decided operands is stuck, or leads to decided operands. -/
theorem plan_reaches (hc : Closed P hosts lang) {i : Instruction Value} {p : Plan}
    (h : ∀ depth rest stack w, w.scope = b →
      Unfolds (fun n => run (engine hosts n) lang depth ([i] ++ rest) (os ++ stack))
        (fun n => perform (engine hosts n) lang depth (p.above stack) >>=
          afterStep (engine hosts n) lang depth rest) w)
    (hternary : ∀ op, i = .ternary op → op = "?")
    (hnil : σ = [] → i = .endStatement) (hf : p.Fits σ)
    (hm : p.Made P (Decided hosts lang b P)) (hquiet : p.Quiet)
    (hoperates : p.Operates (i.called? lang)) : Reaches P hosts lang b [i] os σ := by
  cases p with
  | next s =>
    refine reaches_next (fun hs => hnil ?_) h hf hm
    subst hs
    cases hf
    rfl
  | resolve o use s =>
    obtain ⟨below, rfl, hf⟩ := hf
    cases o with
    | value v =>
      obtain ⟨u, hu, happly⟩ := use_value hc.partwise hquiet hm.1
      refine reaches_value (fun depth rest stack w hw => (h depth rest stack w hw).trans
        (.of_eq fun n => ?_)) hu hf hm.2
      simp only [Plan.above, perform, resolve, happly, pure_bind]
    | thunk code =>
      simp only [Plan.above, perform_thunk] at h
      rcases hm.1 with ⟨v, hv, hcomes⟩ | hnone
      · obtain ⟨u, hu, happly⟩ := use_value hc.partwise hquiet hv
        refine reaches_value (fun depth rest stack w hw => (h depth rest stack w hw).trans ?_)
          hu hf hm.2
        have hafter := (hcomes depth w hw).bind fun n =>
          afterUse (engine hosts n) lang depth use (s ++ stack) rest
        simpa only [afterUse, happly, pure_bind] using hafter
      · refine .inl fun n depth rest stack w v w₁ _ hw => ?_
        refine Stuck.of_unfolds (h depth rest stack w hw) (fun n v w₁ hrun => ?_) n v w₁
        obtain ⟨q, w', hq, hafter⟩ := bind_eq_ok hrun
        cases q with
        | done v => exact hnone n depth w v w' hw hq
        | waiting frames on => cases hafter
  | call f args s =>
    obtain ⟨below, rfl, hf⟩ := hf
    obtain ⟨g, rfl, hg⟩ := hoperates
    obtain ⟨r, hr, hcall⟩ := hc.pure hternary hg args hm.2.1
    have hafter : ∀ depth rest stack w, w.scope = b →
        Unfolds (fun n => run (engine hosts n) lang depth ([i] ++ rest) (os ++ stack))
          (fun n => Eval.ofExcept r >>= fun v =>
            afterStep (engine hosts n) lang depth rest (.next (.value v :: (s ++ stack)))) w := by
      intro depth rest stack w hw
      refine (h depth rest stack w hw).trans ?_
      simp only [Plan.above, perform_call]
      exact (call_unfolds hcall depth w).after _
    cases r with
    | error e =>
      refine .inl fun n depth rest stack w v w₁ _ hw => ?_
      exact Stuck.of_unfolds (hafter depth rest stack w hw) (fun _ _ _ hrun => by cases hrun) n v w₁
    | ok u => exact reaches_value hafter (hr u rfl) hf hm.2.2
  | define => exact hquiet.elim

/-- An instruction that calls nothing and writes nothing is stuck, or leads to decided operands. -/
theorem instruction_reaches (hc : Closed P hosts lang) {i : Instruction Value}
    (hread : ∀ name, i = .variable name → Meets P (fun _ => True) (lookup lang b name))
    (hcall : ∀ n, i ≠ .call n) (hwrites : i.writes = false)
    (hternary : ∀ op, i = .ternary op → op = "?") (hliteral : ∀ v, i = .literal v → P v)
    (hbody : ∀ body, i = .group body → Decided hosts lang b P body) (he : effect i σ = some σ')
    (hf : Fits os σ) (hm : Stack.Made P (Decided hosts lang b P) os) :
    Reaches P hosts lang b [i] os σ' := by
  obtain ⟨hin, hp⟩ := effect_inv he
  rcases force_decided (needed i) (fun d hd => hf.length_eq ▸ hin d hd) hf hm with
    ⟨os₁, hf₁, hm₁, hforce⟩ | hnever
  · have hnil : σ' = [] → i = .endStatement := fun hσ =>
      by_contra fun hi => planned_ne_nil hi hp hσ
    have hmade : Meets (Plan.Made P (Decided hosts lang b P)) (fun _ => True) (plan lang b i os₁) :=
      plan_made_of_read hc.partwise.fieldwise hread ⟨hliteral, hbody, fun f _ => hc.natives f⟩ hm₁
    have hquiet : Meets Plan.Quiet (fun _ => True) (plan lang b i os₁) := plan_quiet hwrites
    have hoperates : Meets (Plan.Operates (i.called? lang)) (fun _ => True) (plan lang b i os₁) :=
      plan_operates hcall hwrites
    have habove (stack : List Operand) : Meets (Plan.Fits · σ') (fun _ => True) (plan lang b i os₁) ∧
        plan lang b i (os₁ ++ stack) = (plan lang b i os₁).map (Plan.above stack) :=
      plan_above hf₁ he stack
    have hrun : ∀ depth rest stack w, w.scope = b →
        Unfolds (fun n => run (engine hosts n) lang depth ([i] ++ rest) (os ++ stack))
          (fun n => Eval.ofExcept ((plan lang b i os₁).map (Plan.above stack)) >>= fun p =>
            perform (engine hosts n) lang depth p >>= afterStep (engine hosts n) lang depth rest)
          w := by
      intro depth rest stack w hw
      simp only [List.singleton_append, run_cons]
      refine ((hforce depth stack w hw).bind fun n =>
        afterForce (engine hosts n) lang depth i rest).trans (.of_eq fun n => ?_)
      have hstep : step (engine hosts n) lang depth i (os₁ ++ stack) w =
          (Eval.ofExcept (plan lang b i (os₁ ++ stack)) >>=
            perform (engine hosts n) lang depth) w := by
        rw [← hw]
        rfl
      rw [← (habove stack).2, ← bind_assoc]
      exact bind_of_eq hstep
    cases hplan : plan lang b i os₁ with
    | error e =>
      refine .inl fun n depth rest stack w v w₁ _ hw => ?_
      have hfails := hrun depth rest stack w hw
      rw [hplan] at hfails
      exact Stuck.of_unfolds hfails (fun _ _ _ hrun => by cases hrun) n v w₁
    | ok p =>
      rw [hplan] at hrun
      exact plan_reaches hc hrun hternary hnil ((habove []).1.result hplan) (hmade.result hplan)
        (hquiet.result hplan) (hoperates.result hplan)
  · refine .inl fun n depth rest stack w v w₁ _ hw hrun => ?_
    rw [List.singleton_append, run_cons] at hrun
    obtain ⟨r, w', hr, hafter⟩ := bind_eq_ok hrun
    cases r with
    | ready s => exact hnever n depth stack w s w' hw hr
    | suspended d frames on s => cases hafter

/-! ### Code -/

theorem Fits.single {s : Shape} (hf : Fits os [s]) : ∃ o, os = [o] :=
  List.length_eq_one_iff.mp hf.length_eq

/-- Code that leads to one operand comes to what the operand comes to. -/
theorem Leads.comes {code : Program Value} {o : Operand} {v : Value}
    (h : Leads hosts lang b code [] [o])
    (ho : ∀ depth w, w.scope = b →
      Unfolds (fun n => finish (engine hosts n) lang depth [o]) (fun _ => pure (.done v)) w) :
    Comes hosts lang b code v := by
  intro depth w hw
  have hrun := h depth [] [] w (fun _ => rfl) hw
  simp only [List.append_nil] at hrun
  exact .shift (fun _ => rfl) (hrun.trans (ho depth w hw))

/-- What is done once the program of the last operand has been entered. -/
def afterLast : Progress → Eval Progress
  | .done v => pure (.done v.normalise)
  | .waiting frames on => pure (.waiting frames on)

theorem finish_single {inner : Engine} {depth : Nat} (o : Operand) :
    finish inner lang depth [o] = resolve inner lang depth o >>= afterLast := by
  refine congrArg (resolve inner lang depth o >>= ·) (funext fun p => ?_)
  cases p with
  | done v => rfl
  | waiting frames on => rfl

theorem Comes.finish {body : Program Value} {v : Value} (h : Comes hosts lang b body v)
    (depth : Nat) {w : World} (hw : w.scope = b) :
    Unfolds (fun n => finish (engine hosts n) lang depth [.thunk body])
      (fun _ => pure (.done v.normalise)) w := by
  simp only [finish_single]
  exact (h depth w hw).bind fun _ => afterLast

/-- What a program comes to is known. -/
theorem Comes.known {code : Program Value} {v : Value} (h : Comes hosts lang b code v) {w : World}
    (hw : w.scope = b) : v.Known := by
  obtain ⟨N, hN⟩ := (h 0 w hw).above
  have hknown := (engine_known hosts N lang 0 code w trivial).2
  rw [hN N (Nat.le_refl N)] at hknown
  exact hknown

theorem Reaches.decided {code : Program Value} {s : Shape} (hP : Value.Partwise P)
    (h : Reaches P hosts lang b code [] [s]) : Decided hosts lang b P code := by
  rcases h with hstuck | ⟨os, hf, hm, hleads⟩
  · refine .inr fun n depth w v w₁ hw henter => ?_
    cases n with
    | zero => cases henter
    | succ n =>
      refine hstuck n depth [] [] w v w₁ (fun _ => rfl) hw ?_
      rw [List.append_nil]
      exact henter
  · obtain ⟨o, rfl⟩ := hf.single
    have ho := hm o (List.mem_singleton_self o)
    cases o with
    | value u =>
      exact .inl ⟨u.normalise, hP.normalise ho, hleads.comes fun _ _ _ => .of_eq fun _ => rfl⟩
    | thunk body =>
      rcases ho with ⟨v, hv, hcomes⟩ | hnone
      · exact .inl ⟨v.normalise, hP.normalise hv, hleads.comes fun depth _ hw => hcomes.finish depth hw⟩
      · refine .inr fun n depth w v w₁ hw henter => ?_
        cases n with
        | zero => cases henter
        | succ n =>
          have hrun := hleads depth [] [] w (fun _ => rfl) hw
          rw [List.append_nil] at hrun
          refine Stuck.of_unfolds hrun (fun n v w₁ hfinish => ?_) n v w₁ henter
          change finish (engine hosts n) lang depth [.thunk body] w = _ at hfinish
          rw [finish_single] at hfinish
          obtain ⟨p, w', hp, hlast⟩ := bind_eq_ok hfinish
          cases p with
          | done v => exact hnone n depth w v w' hw hp
          | waiting frames on => cases hlast

/-- Idle code whose names stand for values of the kind is stuck, or leads to decided operands. -/
theorem idle_reaches (hc : Closed P hosts lang) {code : Program Value} (hidle : Idle P code)
    (hread : ∀ name ∈ Symbols.mentionedIn code, Meets P (fun _ => True) (lookup lang b name))
    (he : effects code σ = some σ') (hf : Fits os σ)
    (hm : Stack.Made P (Decided hosts lang b P) os) : Reaches P hosts lang b code os σ' := by
  induction hidle generalizing os σ σ' with
  | nil =>
    cases he
    exact .inr ⟨os, hf, hm, fun _ _ _ _ _ _ => .of_eq fun _ => rfl⟩
  | @cons i rest hcall hwrites hternary hliteral hbalanced _ _ ihbody ih =>
    obtain ⟨σ₁, he₁, he⟩ := Option.bind_eq_some_iff.mp he
    obtain ⟨hfirst, hothers⟩ := List.forall_mem_append.mp hread
    have hname : ∀ name, i = .variable name → Meets P (fun _ => True) (lookup lang b name) := by
      rintro name rfl
      exact hfirst name (List.mem_singleton_self name)
    have hbody : ∀ body, i = .group body → Decided hosts lang b P body := by
      rintro body rfl
      obtain ⟨_, hs⟩ := hbalanced body rfl
      have hreaches := ihbody body rfl hfirst hs .nil fun _ ho => (List.not_mem_nil ho).elim
      exact hreaches.decided hc.partwise
    rcases instruction_reaches hc hname hcall hwrites hternary hliteral hbody he₁ hf hm with
      hstuck | ⟨os₁, hf₁, hm₁, hfirst⟩
    · exact .inl (hstuck.append rest)
    · rcases ih hothers he hf₁ hm₁ with hstuck | ⟨os₂, hf₂, hm₂, hrest⟩
      · exact .inl (hfirst.stuck hstuck)
      · exact .inr ⟨os₂, hf₂, hm₂, hfirst.trans hrest⟩

section

variable (hosts : Hosts) (lang : Language Value) (b : Bindings)

/-- An operand that stands for a value: it is the value, or a program that comes to it. -/
inductive StandsFor (v : Value) : Operand → Prop
  | value : StandsFor v (.value v)
  | thunk {code : Program Value} : Comes hosts lang b code v → StandsFor v (.thunk code)

end

/-- Idle code with a value other than a zero leads to an operand that stands for the value. -/
theorem idle_leads (hc : Closed P hosts lang) {code : Program Value} (hidle : Idle P code)
    (hread : ∀ name ∈ Symbols.mentionedIn code, Meets P (fun _ => True) (lookup lang b name))
    {s : Shape} (he : effects code [] = some [s]) {n depth : Nat} {v : Value}
    {w w₁ : World} (hw : w.scope = b)
    (hv : (engine hosts n).enter lang depth code w = (.ok (.done v), w₁))
    (hzero : v ≠ .number 0.0) :
    ∃ o, Fits [o] [s] ∧ StandsFor hosts lang b v o ∧ Leads hosts lang b code [] [o] := by
  cases n with
  | zero => cases hv
  | succ n =>
    have hrun : run (engine hosts n) lang depth (code ++ []) ([] ++ []) w = (.ok (.done v), w₁) := by
      rw [List.append_nil]
      exact hv
    rcases idle_reaches hc hidle hread he .nil fun _ ho => (List.not_mem_nil ho).elim with
      hstuck | ⟨os, hf, hm, hleads⟩
    · exact (hstuck n depth [] [] w v w₁ (fun _ => rfl) hw hrun).elim
    · obtain ⟨o, rfl⟩ := hf.single
      refine ⟨o, hf, ?_, hleads⟩
      have hsame := (hleads depth [] [] w (fun _ => rfl) hw).below n (by rw [hrun]; simp)
      have hfinish : finish (engine hosts n) lang depth [o] w = (.ok (.done v), w₁) :=
        hsame.symm.trans hrun
      cases o with
      | value u =>
        cases hfinish
        rw [Value.normalise_eq_self hzero]
        exact .value
      | thunk body =>
        rw [finish_single] at hfinish
        obtain ⟨p, w', hp, hlast⟩ := bind_eq_ok hfinish
        cases p with
        | waiting frames on => cases hlast
        | done u =>
          rcases hm _ (List.mem_singleton_self _) with ⟨v', -, hcomes⟩ | hnone
          · have hu := (hcomes depth w hw).below n (by
              rw [show (engine hosts n).enter lang depth body w = _ from hp]
              simp)
            rw [show (engine hosts n).enter lang depth body w = _ from hp] at hu
            cases hu
            cases hlast
            rw [(hcomes.known hw).normal]
            exact .thunk hcomes
          · exact (hnone n depth w u w' hw hp).elim

end Machine

end Formula
