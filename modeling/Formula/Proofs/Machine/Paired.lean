import Formula.Proofs.Machine.Shape
import Formula.Proofs.Simplify.Similar

/-!
# Instructions and the operands they do not look at

An instruction looks into the operands that are values by the time it runs; an operand that may be a
program it only moves or asks for, and what lies below the operands it takes it does not touch. So on
two stacks that hold the same values, but may differ in the other operands and below, it asks for
the same. In particular what it asks for does not depend on the stack below.
-/

namespace Formula

namespace Machine

section

variable (T : Operand → Operand → Prop) (L : List Operand → List Operand → Prop)

/-- Two operands of a shape: the same value, or operands that are related. -/
inductive PairedAs : Shape → Operand → Operand → Prop
  | value (v : Value) : PairedAs .value (.value v) (.value v)
  | object (fields : List (String × Value)) :
      PairedAs .object (.value (.object fields)) (.value (.object fields))
  | thunk {o o' : Operand} : T o o' → PairedAs .thunk o o'

/-- Two stacks whose topmost operands have given shapes, above stacks that are related. -/
inductive Paired : List Shape → List Operand → List Operand → Prop
  | low {stack stack' : List Operand} : L stack stack' → Paired [] stack stack'
  | cons {s : Shape} {σ : List Shape} {o o' : Operand} {stack stack' : List Operand} :
      PairedAs T s o o' → Paired σ stack stack' → Paired (s :: σ) (o :: stack) (o' :: stack')

/-- Two plans that ask for the same, apart from operands that are related, and leave stacks with
given shapes on top. -/
inductive PairedPlan : List Shape → Plan → Plan → Prop
  | next {σ : List Shape} {stack stack' : List Operand} :
      Paired T L σ stack stack' → PairedPlan σ (.next stack) (.next stack')
  | resolve {s : Shape} {σ : List Shape} {o o' : Operand} (use : Use) {stack stack' : List Operand} :
      PairedAs T s o o' → Paired T L σ stack stack' →
      PairedPlan (.value :: σ) (.resolve o use stack) (.resolve o' use stack')
  | call {σ : List Shape} (f : Function Value) (args : List Value) {stack stack' : List Operand} :
      Paired T L σ stack stack' →
      PairedPlan (.value :: σ) (.call f args stack) (.call f args stack')
  | define {σ : List Shape} (name : String) (params : List String) {body body' : Program Value}
      {stack stack' : List Operand} :
      T (.thunk body) (.thunk body') → Paired T L σ stack stack' →
      PairedPlan (.value :: σ) (.define name params body stack) (.define name params body' stack')

/-- A part taken off the stack, and the rest of the stack. -/
abbrev PairedPopped {α : Type} (R : α → α → Prop) (σ : List Shape) :
    α × List Operand → α × List Operand → Prop :=
  fun p p' => R p.1 p'.1 ∧ Paired T L σ p.2 p'.2

end

variable {T : Operand → Operand → Prop} {L : List Operand → List Operand → Prop}
  {stack stack' : List Operand} {s : Shape} {σ σ' : List Shape}

namespace PairedAs

variable {T' : Operand → Operand → Prop} {o o' : Operand}

theorem imp (h : ∀ o o', T o o' → T' o o') (ho : PairedAs T s o o') : PairedAs T' s o o' := by
  cases ho with
  | value v => exact .value v
  | object fields => exact .object fields
  | thunk ho => exact .thunk (h _ _ ho)

theorem flip (h : ∀ o o', T o o' → T' o' o) (ho : PairedAs T s o o') : PairedAs T' s o' o := by
  cases ho with
  | value v => exact .value v
  | object fields => exact .object fields
  | thunk ho => exact .thunk (h _ _ ho)

end PairedAs

namespace Paired

theorem value (v : Value) (h : Paired T L σ stack stack') :
    Paired T L (.value :: σ) (.value v :: stack) (.value v :: stack') := .cons (.value v) h

theorem thunk {o o' : Operand} (ho : T o o') (h : Paired T L σ stack stack') :
    Paired T L (.thunk :: σ) (o :: stack) (o' :: stack') := .cons (.thunk ho) h

theorem set (h : Paired T L σ stack stack') {d : Nat} (hd : d < σ.length) (v : Value) :
    Paired T L (σ.set d .value) (stack.set d (.value v)) (stack'.set d (.value v)) := by
  induction h generalizing d with
  | low _ => cases hd
  | cons ho h ih =>
    cases d with
    | zero => exact h.value v
    | succ d => exact .cons ho (ih (Nat.lt_of_succ_lt_succ hd))

/-- The operands at a depth among the topmost ones. -/
theorem get (h : Paired T L σ stack stack') {d : Nat} (hd : d < σ.length) :
    ∃ o o', stack[d]? = some o ∧ stack'[d]? = some o' ∧ PairedAs T σ[d] o o' := by
  induction h generalizing d with
  | low _ => cases hd
  | cons ho h ih =>
    cases d with
    | zero => exact ⟨_, _, rfl, rfl, ho⟩
    | succ d => exact ih (Nat.lt_of_succ_lt_succ hd)

end Paired

/-! ### Operands -/

theorem popValues_paired (n : Nat) {σ : List Shape} {stack stack' : List Operand}
    (hs : Paired T L σ stack stack') (hd : dropValues n σ = some σ') (acc : List Value) :
    Alike (PairedPopped T L Eq σ') (popValues n stack acc) (popValues n stack' acc) := by
  induction n generalizing σ stack stack' acc with
  | zero =>
    cases hd
    exact .ok ⟨rfl, hs⟩
  | succ n ih =>
    match σ, hd, hs with
    | .value :: _, hd, .cons (.value v) hs => exact ih hs hd (v :: acc)

theorem popValue_paired (hs : Paired T L (.value :: σ) stack stack') :
    Alike (PairedPopped T L Eq σ) (popValue stack) (popValue stack') := by
  match hs with
  | .cons (.value v) hs => exact .ok ⟨rfl, hs⟩

theorem popOperand_paired (hs : Paired T L (s :: σ) stack stack') :
    Alike (PairedPopped T L (PairedAs T s) σ) (popOperand stack) (popOperand stack') := by
  match hs with
  | .cons ho hs => exact .ok ⟨ho, hs⟩

theorem popBranches_paired (n : Nat) {σ : List Shape} {stack stack' : List Operand}
    (hs : Paired T L σ stack stack') (hd : dropBranches n σ = some σ')
    {chosen chosen' : Option Operand}
    (hchosen : Option.Rel (fun o o' => ∃ s, PairedAs T s o o') chosen chosen') :
    Alike (PairedPopped T L (Option.Rel fun o o' => ∃ s, PairedAs T s o o') σ')
      (popBranches n stack chosen) (popBranches n stack' chosen') := by
  induction n generalizing σ stack stack' chosen chosen' with
  | zero =>
    cases hd
    exact .ok ⟨hchosen, hs⟩
  | succ n ih =>
    match σ, hd, hs with
    | s :: .value :: _, hd, .cons ho (.cons (.value flag) hs) =>
      rw [popBranches, popBranches]
      refine ih hs hd ?_
      split
      · exact .some ⟨s, ho⟩
      · exact hchosen

theorem popTested_paired {tested : Bool} {below : List Shape}
    (ht : if tested then ∃ s, below = s :: σ else below = σ)
    (hs : Paired T L below stack stack') :
    Alike (Paired T L σ) (popTested tested stack) (popTested tested stack') := by
  cases tested with
  | false =>
    cases ht
    exact .ok hs
  | true =>
    obtain ⟨s, rfl⟩ := ht
    exact (popOperand_paired hs).bind fun p p' hp => .ok hp.2

/-! ### Plans -/

theorem planOperator_paired (op : String) (entry : Option Native) {n : Nat}
    (hs : Paired T L σ stack stack') (hd : (dropValues n σ).map (.value :: ·) = some σ') :
    Alike (PairedPlan T L σ') (planOperator op entry n stack) (planOperator op entry n stack') := by
  obtain ⟨below, hb, rfl⟩ := dropValues_map hd
  unfold planOperator
  cases entry with
  | none => exact .error _
  | some f =>
    refine (popValues_paired n hs hb []).bind ?_
    rintro ⟨args, rest⟩ ⟨args', rest'⟩ ⟨hargs, hrest⟩
    cases hargs
    exact .ok (.call _ args hrest)

theorem planConnective_paired (op : String) (hs : Paired T L (s :: .value :: σ) stack stack') :
    Alike (PairedPlan T L (.value :: σ)) (planConnective op stack) (planConnective op stack') := by
  match hs with
  | .cons ho (.cons (.value v) hs) =>
    simp only [planConnective, popOperand, popValue, bind, Except.bind]
    split
    · exact .ok (.next (hs.value _))
    · exact .ok (.resolve .truth ho hs)

theorem planAssignment_paired (lang : Language Value)
    (hs : Paired T L (s :: .value :: σ) stack stack') :
    Alike (PairedPlan T L (.value :: σ)) (planAssignment lang stack)
      (planAssignment lang stack') := by
  match hs with
  | .cons ho (.cons (.value v) hs) =>
    simp only [planAssignment, popOperand, popValue, bind, Except.bind]
    split
    · exact .error _
    · exact .ok (.resolve _ ho hs)

theorem planConditional_paired {t : Shape} (hs : Paired T L (s :: t :: .value :: σ) stack stack') :
    Alike (PairedPlan T L (.value :: σ)) (planConditional stack) (planConditional stack') := by
  match hs with
  | .cons hno (.cons hyes (.cons (.value v) hs)) =>
    simp only [planConditional, popOperand, popValue, bind, Except.bind]
    split
    · exact .ok (.resolve .keep hyes hs)
    · exact .ok (.resolve .keep hno hs)

theorem planCall_paired {argc : Nat} (hs : Paired T L σ stack stack')
    (hd : (dropValues (argc + 1) σ).map (.value :: ·) = some σ') :
    Alike (PairedPlan T L σ') (planCall argc stack) (planCall argc stack') := by
  obtain ⟨below, hb, rfl⟩ := dropValues_map hd
  refine (popValues_paired argc hs (dropValues_succ hb) []).bind ?_
  rintro ⟨args, rest⟩ ⟨args', rest'⟩ ⟨hargs, hrest⟩
  cases hargs
  refine (popValue_paired hrest).bind ?_
  rintro ⟨v, rest⟩ ⟨v', rest'⟩ ⟨hv, hrest⟩
  cases hv
  cases v with
  | function f => exact .ok (.call f args hrest)
  | _ => exact .error _

/-- Related operands of a definition are programs. -/
def Bodies (T : Operand → Operand → Prop) : Prop :=
  ∀ o o', T o o' → ∃ body body', o = .thunk body ∧ o' = .thunk body'

theorem planDefinition_paired (hbodies : Bodies T) {paramc : Nat}
    (hs : Paired T L (.thunk :: σ) stack stack')
    (hd : (dropValues (paramc + 1) σ).map (.value :: ·) = some σ') :
    Alike (PairedPlan T L σ') (planDefinition paramc stack) (planDefinition paramc stack') := by
  obtain ⟨below, hb, rfl⟩ := dropValues_map hd
  match hs with
  | .cons (.thunk ho) hs =>
    obtain ⟨body, body', rfl, rfl⟩ := hbodies _ _ ho
    refine (popValues_paired paramc hs (dropValues_succ hb) []).bind ?_
    rintro ⟨params, rest⟩ ⟨params', rest'⟩ ⟨hparams, hrest⟩
    cases hparams
    refine (popValue_paired hrest).bind ?_
    rintro ⟨v, rest⟩ ⟨v', rest'⟩ ⟨hv, hrest⟩
    cases hv
    exact .ok (.define _ _ ho hrest)

theorem planChoice_paired {count : Nat} {tested : Bool} {below : List Shape}
    (hs : Paired T L σ stack stack') (hd : dropBranches count σ = some below)
    (ht : if tested then ∃ s, below = s :: σ' else below = σ') :
    Alike (PairedPlan T L (.value :: σ')) (planChoice count tested stack)
      (planChoice count tested stack') := by
  unfold planChoice
  refine (popBranches_paired count hs hd .none).bind ?_
  rintro ⟨chosen, rest⟩ ⟨chosen', rest'⟩ ⟨hchosen, hrest⟩
  refine (popTested_paired ht hrest).bind fun below below' hbelow => ?_
  dsimp only at hchosen ⊢
  cases hchosen with
  | none => exact .ok (.next (hbelow.value _))
  | some ho =>
    obtain ⟨s, ho⟩ := ho
    exact .ok (.resolve .keep ho hbelow)

theorem planFlag_paired {flag : Value → List Operand → Except EvalError Bool}
    (hflag : ∀ v {below below' : List Operand}, Paired T L σ below below' →
      flag v below = flag v below')
    (hs : Paired T L (s :: .value :: σ) stack stack') :
    Alike (PairedPlan T L (s :: .value :: σ)) (planFlag stack flag) (planFlag stack' flag) := by
  refine (popOperand_paired hs).bind ?_
  rintro ⟨value, below⟩ ⟨value', below'⟩ ⟨hvalue, hbelow⟩
  refine (popValue_paired hbelow).bind ?_
  rintro ⟨v, below⟩ ⟨v', below'⟩ ⟨hv, hbelow⟩
  cases hv
  dsimp only
  rw [hflag v hbelow]
  cases flag v below' with
  | error e => exact .error e
  | ok holds => exact .ok (.next (.cons hvalue (hbelow.value _)))

theorem planMember_paired (lang : Language Value) (name : String)
    (hs : Paired T L (.value :: σ) stack stack') :
    Alike (PairedPlan T L (.value :: σ)) (planMember lang name stack)
      (planMember lang name stack') := by
  match hs with
  | .cons (.value v) hs =>
    unfold planMember
    split
    · exact .error _
    split
    · exact .error _
    · exact .ok (.next (hs.value _))

theorem planProperty_paired (key : String) (hs : Paired T L (.value :: .object :: σ) stack stack') :
    Alike (PairedPlan T L (.object :: σ)) (planProperty key stack) (planProperty key stack') := by
  match hs with
  | .cons (.value v) (.cons (.object fields) hs) =>
    unfold planProperty
    split
    · exact .error _
    · exact .ok (.next (.cons (.object _) hs))

/-- What is tested stands where its branch looks for it, as a value. -/
theorem tested_paired {k : Nat} (hforced : forced (needed (.whenMatch k)) (s :: .value :: σ) =
      s :: .value :: σ) (hk : 2 * k < σ.length) (hs : Paired T L σ stack stack') :
    ∃ v, stack[2 * k]? = some (.value v) ∧ stack'[2 * k]? = some (.value v) := by
  have hvalue : σ[2 * k] = .value := by
    have hset : σ.set (2 * k) .value = σ := by
      simpa [forced, needed, List.set_cons_succ] using hforced
    rw [← List.getElem_set_self (l := σ) (i := 2 * k) (a := .value) (by simpa using hk)]
    simp only [hset]
  obtain ⟨o, o', ho, ho', hpair⟩ := hs.get hk
  rw [hvalue] at hpair
  match o, o', hpair with
  | _, _, .value v => exact ⟨v, ho, ho'⟩

theorem planBinary_paired {lang : Language Value} {op : String} (hs : Paired T L σ stack stack')
    (hp : planned (.binary op) σ = some σ') :
    Alike (PairedPlan T L σ') (planBinary lang op stack) (planBinary lang op stack') := by
  unfold planBinary
  by_cases hop : op ∈ Instruction.connectives
  · simp only [planned, hop, if_true] at hp
    obtain ⟨s, below, rfl⟩ : ∃ s below, σ = s :: .value :: below := by
      rcases σ with _ | ⟨s, _ | ⟨_ | _ | _, below⟩⟩ <;> first | exact ⟨_, _, rfl⟩ | cases hp
    cases hp
    split
    · exact planConnective_paired op hs
    · split
      · exact planAssignment_paired lang hs
      · simp_all [Instruction.connectives]
  · simp only [planned, hop, if_false] at hp
    have hne : ¬(op = "and" ∨ op = "or") ∧ op ≠ "=" := by
      simpa [Instruction.connectives, not_or, and_assoc] using hop
    rw [if_neg hne.1, if_neg hne.2, if_neg hne.1, if_neg hne.2]
    exact planOperator_paired op _ hs hp

theorem planTernary_paired {lang : Language Value} {op : String} (hs : Paired T L σ stack stack')
    (hp : planned (.ternary op) σ = some σ') :
    Alike (PairedPlan T L σ') (planTernary lang op stack) (planTernary lang op stack') := by
  unfold planTernary
  by_cases hop : op = "?"
  · simp only [planned, hop, if_true] at hp ⊢
    obtain ⟨s, t, below, rfl⟩ : ∃ s t below, σ = s :: t :: .value :: below := by
      rcases σ with _ | ⟨s, _ | ⟨t, _ | ⟨_ | _ | _, below⟩⟩⟩ <;>
        first | exact ⟨_, _, _, rfl⟩ | cases hp
    cases hp
    exact planConditional_paired hs
  · simp only [planned, hop, if_false] at hp ⊢
    exact planOperator_paired op _ hs hp

/-- On paired stacks whose needed operands are values, an instruction asks for the same, if it reads
the same variable and holds related programs. -/
theorem plan_paired {lang : Language Value} {scope scope' : Bindings} {i : Instruction Value}
    (hs : Paired T L σ stack stack') (hp : planned i σ = some σ')
    (hforced : forced (needed i) σ = σ)
    (hlookup : ∀ name, i = .variable name → lookup lang scope name = lookup lang scope' name)
    (hgroup : ∀ body, i = .group body → T (.thunk body) (.thunk body))
    (hdefine : ∀ n, i = .define n → Bodies T) :
    Alike (PairedPlan T L σ') (plan lang scope i stack) (plan lang scope' i stack') := by
  have hpush : ∀ v : Value, Alike (PairedPlan T L (.value :: σ))
      (.ok (.next (.value v :: stack)) : Except EvalError Plan)
      (.ok (.next (.value v :: stack'))) := fun v => .ok (.next (hs.value v))
  cases i with
  | literal v =>
    cases hp
    exact hpush v
  | target name =>
    cases hp
    exact hpush _
  | undefined =>
    cases hp
    exact hpush _
  | group body =>
    cases hp
    exact .ok (.next (hs.thunk (hgroup body rfl)))
  | «variable» name =>
    cases hp
    simp only [plan, hlookup name rfl]
    cases lookup lang scope' name with
    | error e => exact .error e
    | ok v => exact hpush v
  | unary op => exact planOperator_paired op _ hs hp
  | binary op => exact planBinary_paired hs hp
  | ternary op => exact planTernary_paired hs hp
  | call argc => exact planCall_paired hs hp
  | define paramc =>
    obtain ⟨below, rfl⟩ : ∃ below, σ = .thunk :: below := by
      rcases σ with _ | ⟨_ | _ | _, below⟩ <;> first | exact ⟨_, rfl⟩ | cases hp
    exact planDefinition_paired (hdefine paramc rfl) hs hp
  | member name =>
    obtain ⟨below, rfl⟩ : ∃ below, σ = .value :: below := by
      rcases σ with _ | ⟨_ | _ | _, below⟩ <;> first | exact ⟨_, rfl⟩ | cases hp
    cases hp
    exact planMember_paired lang name hs
  | endStatement =>
    cases σ with
    | nil => cases hp
    | cons s below =>
      cases hp
      exact (popOperand_paired hs).bind fun p p' hp => .ok (.next hp.2)
  | array count =>
    obtain ⟨below, hb, rfl⟩ := dropValues_map hp
    refine (popValues_paired count hs hb []).bind ?_
    rintro ⟨items, rest⟩ ⟨items', rest'⟩ ⟨hitems, hrest⟩
    cases hitems
    exact .ok (.next (hrest.value _))
  | whenCond k =>
    obtain ⟨s, below, rfl⟩ : ∃ s below, σ = s :: .value :: below := by
      rcases σ with _ | ⟨s, _ | ⟨_ | _ | _, below⟩⟩ <;> first | exact ⟨_, _, rfl⟩ | cases hp
    cases hp
    simp only [plan]
    exact planFlag_paired (fun _ _ _ _ => rfl) hs
  | whenMatch k =>
    obtain ⟨s, below, rfl⟩ : ∃ s below, σ = s :: .value :: below := by
      rcases σ with _ | ⟨s, _ | ⟨_ | _ | _, below⟩⟩ <;> first | exact ⟨_, _, rfl⟩ | cases hp
    simp only [planned] at hp
    split at hp
    · next hk =>
      cases hp
      simp only [plan]
      refine planFlag_paired (fun v stack stack' hbelow => ?_) hs
      obtain ⟨tested, ht, ht'⟩ := tested_paired hforced hk hbelow
      simp only [ht, ht']
    · cases hp
  | caseElse =>
    cases σ with
    | nil => cases hp
    | cons s below =>
      cases hp
      exact (popOperand_paired hs).bind fun p p' hp => .ok (.next (.cons hp.1 (hp.2.value _)))
  | caseMatch count =>
    simp only [planned] at hp
    split at hp
    · next s below hd =>
      cases hp
      exact planChoice_paired hs hd ⟨s, rfl⟩
    · cases hp
  | caseCond count =>
    obtain ⟨below, hd, rfl⟩ := Option.map_eq_some_iff.mp hp
    exact planChoice_paired hs hd rfl
  | objectStart =>
    cases hp
    exact .ok (.next (.cons (.object []) hs))
  | property key =>
    obtain ⟨below, rfl⟩ : ∃ below, σ = .value :: .object :: below := by
      rcases σ with _ | ⟨_ | _ | _, _ | ⟨_ | _ | _, below⟩⟩ <;> first | exact ⟨_, rfl⟩ | cases hp
    cases hp
    exact planProperty_paired key hs
  | objectEnd =>
    obtain ⟨below, rfl⟩ : ∃ below, σ = .object :: below := by
      rcases σ with _ | ⟨_ | _ | _, below⟩ <;> first | exact ⟨_, rfl⟩ | cases hp
    cases hp
    cases hs with
    | cons ho hs =>
      cases ho with
      | object fields => exact .ok (.next (hs.value _))

/-! ### The stack below -/

/-- The same program. -/
inductive SameThunk : Operand → Operand → Prop
  | refl (code : Program Value) : SameThunk (.thunk code) (.thunk code)

/-- The same plan with a stack below. -/
def Plan.above (low : List Operand) : Plan → Plan
  | .next stack => .next (stack ++ low)
  | .resolve o use stack => .resolve o use (stack ++ low)
  | .call f args stack => .call f args (stack ++ low)
  | .define name params body stack => .define name params body (stack ++ low)

/-- A stack with given shapes, above nothing and above a stack `low`. -/
theorem paired_above_iff {low : List Operand} :
    Paired SameThunk (fun stack stack' => stack = [] ∧ stack' = low) σ stack stack' ↔
      Fits stack σ ∧ stack' = stack ++ low := by
  constructor
  · intro h
    induction h with
    | low h =>
      obtain ⟨rfl, rfl⟩ := h
      exact ⟨.nil, rfl⟩
    | cons ho _ ih =>
      obtain ⟨hfits, rfl⟩ := ih
      cases ho with
      | value v => exact ⟨.value v hfits, rfl⟩
      | object fields => exact ⟨.object fields hfits, rfl⟩
      | thunk ho =>
        cases ho
        exact ⟨.thunk _ hfits, rfl⟩
  · rintro ⟨hfits, rfl⟩
    induction hfits with
    | nil => exact .low ⟨rfl, rfl⟩
    | value v _ ih => exact ih.value v
    | thunk code _ ih => exact ih.thunk (.refl code)
    | object fields _ ih => exact .cons (.object fields) ih

theorem forced_forced (i : Instruction Value) (σ : List Shape) :
    forced (needed i) (forced (needed i) σ) = forced (needed i) σ := by
  have hset : ∀ ds : List Nat, (∀ d ∈ ds, d ∈ needed i) → ∀ σ : List Shape,
      forced (needed i) (forced ds σ) = forced (needed i) σ := by
    intro ds
    induction ds with
    | nil => exact fun _ _ => rfl
    | cons d ds ih =>
      intro h σ
      obtain ⟨hd, hds⟩ := List.forall_mem_cons.mp h
      exact (ih hds (σ.set d .value)).trans (forced_set hd σ)
  exact hset (needed i) (fun _ h => h) σ

/-- What an instruction asks for depends on the operands it takes, and on nothing below them. -/
theorem plan_above {lang : Language Value} {scope : Bindings} {i : Instruction Value}
    (hf : Fits stack (forced (needed i) σ)) (he : effect i σ = some σ') (low : List Operand) :
    Meets (Plan.Fits · σ') (fun _ => True) (plan lang scope i stack) ∧
      plan lang scope i (stack ++ low) = (plan lang scope i stack).map (Plan.above low) := by
  have hbodies : Bodies SameThunk := by
    rintro _ _ ⟨code⟩
    exact ⟨code, code, rfl, rfl⟩
  have hpair : Paired SameThunk (fun stack stack' => stack = [] ∧ stack' = low)
      (forced (needed i) σ) stack (stack ++ low) := paired_above_iff.mpr ⟨hf, rfl⟩
  have hplan : Alike (PairedPlan SameThunk (fun stack stack' => stack = [] ∧ stack' = low) σ')
      (plan lang scope i stack) (plan lang scope i (stack ++ low)) :=
    plan_paired hpair (effect_inv he).2 (forced_forced i σ) (fun _ _ => rfl)
      (fun body _ => .refl body) fun _ _ => hbodies
  generalize plan lang scope i stack = p at hplan ⊢
  generalize plan lang scope i (stack ++ low) = p' at hplan ⊢
  cases hplan with
  | error e => exact ⟨trivial, rfl⟩
  | ok h =>
    cases h with
    | next hs =>
      obtain ⟨hf, rfl⟩ := paired_above_iff.mp hs
      exact ⟨hf, rfl⟩
    | resolve use ho hs =>
      obtain ⟨hf, rfl⟩ := paired_above_iff.mp hs
      cases ho with
      | value v => exact ⟨⟨_, rfl, hf⟩, rfl⟩
      | object fields => exact ⟨⟨_, rfl, hf⟩, rfl⟩
      | thunk ho =>
        cases ho
        exact ⟨⟨_, rfl, hf⟩, rfl⟩
    | call f args hs =>
      obtain ⟨hf, rfl⟩ := paired_above_iff.mp hs
      exact ⟨⟨_, rfl, hf⟩, rfl⟩
    | define name params hbody hs =>
      obtain ⟨hf, rfl⟩ := paired_above_iff.mp hs
      cases hbody
      exact ⟨⟨_, rfl, hf⟩, rfl⟩

end Machine

end Formula
