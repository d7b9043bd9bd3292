import Formula.Machine
import Formula.Proofs.Values.Lifted

/-!
# Instructions and the functions they do not look into

What an instruction asks for does not depend on what functions do, nor on what programs on the stack
do: on two stacks whose values are the same but for their functions, and whose programs are related,
it asks for the same, or for related things.
-/

namespace Formula

/-- Operands that are the same but for functions, which are related, and programs, which are related
in another way. -/
inductive Operand.Lifted (F : Function Value → Function Value → Prop)
    (T : Program Value → Program Value → Prop) : Operand → Operand → Prop
  | value {v v' : Value} : v.Lifted F v' → Operand.Lifted F T (.value v) (.value v')
  | thunk {code code' : Program Value} :
      T code code' → Operand.Lifted F T (.thunk code) (.thunk code')

abbrev Stack.Lifted (F : Function Value → Function Value → Prop)
    (T : Program Value → Program Value → Prop) : List Operand → List Operand → Prop :=
  List.Forall₂ (Operand.Lifted F T)

inductive Instruction.Lifted (F : Function Value → Function Value → Prop)
    (T : Program Value → Program Value → Prop) : Instruction Value → Instruction Value → Prop
  | literal {v v' : Value} : v.Lifted F v' → Instruction.Lifted F T (.literal v) (.literal v')
  | group {body body' : Program Value} :
      T body body' → Instruction.Lifted F T (.group body) (.group body')
  | plain {i : Instruction Value} :
      (∀ v, i ≠ .literal v) → (∀ body, i ≠ .group body) → Instruction.Lifted F T i i

/-- Languages that an instruction cannot tell apart: they have the same operators, and members are
read in both or in none. -/
structure Language.SameTables (lang lang' : Language Value) : Prop where
  unary : lang'.unaryOp? = lang.unaryOp?
  binary : lang'.binaryOp? = lang.binaryOp?
  ternary : lang'.ternaryOp? = lang.ternaryOp?
  members : lang'.options.memberAccess = lang.options.memberAccess

theorem Language.SameTables.refl (lang : Language Value) : lang.SameTables lang :=
  ⟨rfl, rfl, rfl, rfl⟩

/-! ### Hosts -/

/-- Promises of values that are the same but for their functions. -/
inductive Promise.Lifted (F : Function Value → Function Value → Prop) : Promise → Promise → Prop
  | value {v v' : Value} : v.Lifted F v' → Promise.Lifted F (.value v) (.value v')
  | error (e : EvalError) : Promise.Lifted F (.error e) (.error e)
  | noting {entries entries' : List Value} {next next' : Promise} :
      Values.Lifted F entries entries' → Promise.Lifted F next next' →
      Promise.Lifted F (.noting entries next) (.noting entries' next')
  | nested {p p' : Promise} : Promise.Lifted F p p' → Promise.Lifted F (.nested p) (.nested p')

inductive Answer.Lifted (F : Function Value → Function Value → Prop) : Answer → Answer → Prop
  | value {v v' : Value} : v.Lifted F v' → Answer.Lifted F (.value v) (.value v')
  | error (e : EvalError) : Answer.Lifted F (.error e) (.error e)
  | promise {p p' : Promise} : p.Lifted F p' → Answer.Lifted F (.promise p) (.promise p')
  | call {f f' : Function Value} {args args' : List Value} :
      F f f' → Values.Lifted F args args' → Answer.Lifted F (.call f args) (.call f' args')

structure Reply.Lifted (F : Function Value → Function Value → Prop) (r r' : Reply) : Prop where
  entries : Values.Lifted F r.entries r'.entries
  answer : r.answer.Lifted F r'.answer

/-- Hosts that do not look into functions: they tell them apart by name and identity, and note, give,
promise or call those that they are given. -/
def Hosts.Uniform (hosts : Hosts) : Prop :=
  ∀ {F : Function Value → Function Value → Prop}, Function.Congruent F → (∀ f, F f f) →
    ∀ (key : String) {args args' : List Value}, Values.Lifted F args args' →
      (hosts key args).Lifted F (hosts key args')

namespace Machine

/-- Plans that ask for the same but for functions and programs, which are related. -/
inductive Plan.Lifted (F : Function Value → Function Value → Prop)
    (T : Program Value → Program Value → Prop) : Plan → Plan → Prop
  | next {stack stack' : List Operand} :
      Stack.Lifted F T stack stack' → Plan.Lifted F T (.next stack) (.next stack')
  | resolve {o o' : Operand} (use : Use) {stack stack' : List Operand} :
      o.Lifted F T o' → Stack.Lifted F T stack stack' →
      Plan.Lifted F T (.resolve o use stack) (.resolve o' use stack')
  | call {f f' : Function Value} {args args' : List Value} {stack stack' : List Operand} :
      F f f' → Values.Lifted F args args' → Stack.Lifted F T stack stack' →
      Plan.Lifted F T (.call f args stack) (.call f' args' stack')
  | define (name : String) (params : List String) {body body' : Program Value}
      {stack stack' : List Operand} :
      T body body' → Stack.Lifted F T stack stack' →
      Plan.Lifted F T (.define name params body stack) (.define name params body' stack')

variable {F : Function Value → Function Value → Prop} {T : Program Value → Program Value → Prop}
  {stack stack' : List Operand}

/-! ### Operands -/

/-- What is taken off two stacks, and the rest of them. -/
abbrev Popped {α : Type} (F : Function Value → Function Value → Prop)
    (T : Program Value → Program Value → Prop) (R : α → α → Prop) :
    α × List Operand → α × List Operand → Prop :=
  fun p p' => R p.1 p'.1 ∧ Stack.Lifted F T p.2 p'.2

theorem popValues_lifted (n : Nat) (hs : Stack.Lifted F T stack stack') {acc acc' : List Value}
    (hacc : Values.Lifted F acc acc') :
    Alike (Popped F T (Values.Lifted F)) (popValues n stack acc) (popValues n stack' acc') := by
  induction n generalizing stack stack' acc acc' with
  | zero => exact .ok ⟨hacc, hs⟩
  | succ n ih =>
    cases hs with
    | nil => exact .error _
    | cons ho hs =>
      cases ho with
      | value hv => exact ih hs (.cons hv hacc)
      | thunk _ => exact .error _

theorem popValue_lifted (hs : Stack.Lifted F T stack stack') :
    Alike (Popped F T (Value.Lifted F)) (popValue stack) (popValue stack') := by
  cases hs with
  | nil => exact .error _
  | cons ho hs =>
    cases ho with
    | value hv => exact .ok ⟨hv, hs⟩
    | thunk _ => exact .error _

theorem popOperand_lifted (hs : Stack.Lifted F T stack stack') :
    Alike (Popped F T (Operand.Lifted F T)) (popOperand stack) (popOperand stack') := by
  cases hs with
  | nil => exact .error _
  | cons ho hs => exact .ok ⟨ho, hs⟩

theorem popBranches_lifted (n : Nat) (hs : Stack.Lifted F T stack stack')
    {chosen chosen' : Option Operand} (hchosen : Option.Rel (Operand.Lifted F T) chosen chosen') :
    Alike (Popped F T (Option.Rel (Operand.Lifted F T))) (popBranches n stack chosen)
      (popBranches n stack' chosen') := by
  induction n generalizing stack stack' chosen chosen' with
  | zero => exact .ok ⟨hchosen, hs⟩
  | succ n ih =>
    cases hs with
    | nil => exact .error _
    | cons ho hs =>
      cases hs with
      | nil => cases ho <;> exact .error _
      | cons hflag hs =>
        cases hflag with
        | thunk _ => cases ho <;> exact .error _
        | value hflag =>
          refine ih hs ?_
          rw [hflag.truthy]
          split
          · exact .some ho
          · exact hchosen

theorem popTested_lifted (tested : Bool) (hs : Stack.Lifted F T stack stack') :
    Alike (Stack.Lifted F T) (popTested tested stack) (popTested tested stack') := by
  cases tested with
  | false => exact .ok hs
  | true => exact (popOperand_lifted hs).bind fun p p' hp => .ok hp.2

/-! ### Names -/

/-- A name stands for values that are the same but for their functions, if the variables it may read
do. -/
theorem lookup_lifted (hF : ∀ f, F f f) {lang : Language Value} {name : String} {b b' : Bindings}
    (h : ∀ other, other = name ∨ lang.resolve? name = some (.alias other) →
      Option.Rel (Value.Lifted F) (Record.get? b other) (Record.get? b' other)) :
    Alike (Value.Lifted F) (lookup lang b name) (lookup lang b' name) := by
  unfold lookup
  split
  · exact .error _
  · cases lang.function? name with
    | some f => exact .ok (.function (hF _))
    | none =>
      dsimp only
      split
      · exact .ok (.function (hF _))
      · have hname := h name (.inl rfl)
        generalize Record.get? b name = o, Record.get? b' name = o' at hname
        cases hname with
        | some hv => exact .ok hv
        | none =>
          rcases hresolve : lang.resolve? name with _ | other | v
          · exact .error _
          · have hother := h other (.inr hresolve)
            dsimp only
            generalize Record.get? b other = o, Record.get? b' other = o' at hother
            cases hother with
            | some hv => exact .ok hv
            | none => exact .error _
          · exact .ok (.refl hF v)

/-! ### Plans -/

theorem planConnective_lifted (op : String) (hs : Stack.Lifted F T stack stack') :
    Alike (Plan.Lifted F T) (planConnective op stack) (planConnective op stack') := by
  refine (popOperand_lifted hs).bind ?_
  rintro ⟨right, below⟩ ⟨right', below'⟩ ⟨hright, hbelow⟩
  refine (popValue_lifted hbelow).bind ?_
  rintro ⟨left, rest⟩ ⟨left', rest'⟩ ⟨hleft, hrest⟩
  dsimp only at hleft ⊢
  rw [hleft.truthy]
  split
  · exact .ok (.next (.cons (.value (.bool _)) hrest))
  · exact .ok (.resolve .truth hright hrest)

theorem planConditional_lifted (hs : Stack.Lifted F T stack stack') :
    Alike (Plan.Lifted F T) (planConditional stack) (planConditional stack') := by
  refine (popOperand_lifted hs).bind ?_
  rintro ⟨no, below⟩ ⟨no', below'⟩ ⟨hno, hbelow⟩
  refine (popOperand_lifted hbelow).bind ?_
  rintro ⟨yes, below⟩ ⟨yes', below'⟩ ⟨hyes, hbelow⟩
  refine (popValue_lifted hbelow).bind ?_
  rintro ⟨test, rest⟩ ⟨test', rest'⟩ ⟨htest, hrest⟩
  dsimp only at htest ⊢
  refine .ok (.resolve .keep ?_ hrest)
  rw [htest.truthy]
  split
  · exact hyes
  · exact hno

theorem planChoice_lifted (count : Nat) (tested : Bool) (hs : Stack.Lifted F T stack stack') :
    Alike (Plan.Lifted F T) (planChoice count tested stack) (planChoice count tested stack') := by
  refine (popBranches_lifted count hs .none).bind ?_
  rintro ⟨chosen, below⟩ ⟨chosen', below'⟩ ⟨hchosen, hbelow⟩
  refine (popTested_lifted tested hbelow).bind fun rest rest' hrest => ?_
  dsimp only at hchosen ⊢
  cases hchosen with
  | none => exact .ok (.next (.cons (.value .undefined) hrest))
  | some ho => exact .ok (.resolve .keep ho hrest)

theorem planFlag_lifted {flag flag' : Value → List Operand → Except EvalError Bool}
    (hflag : ∀ {v v' : Value} {below below' : List Operand}, v.Lifted F v' →
      Stack.Lifted F T below below' → flag v below = flag' v' below')
    (hs : Stack.Lifted F T stack stack') :
    Alike (Plan.Lifted F T) (planFlag stack flag) (planFlag stack' flag') := by
  refine (popOperand_lifted hs).bind ?_
  rintro ⟨value, below⟩ ⟨value', below'⟩ ⟨hvalue, hbelow⟩
  refine (popValue_lifted hbelow).bind ?_
  rintro ⟨condition, rest⟩ ⟨condition', rest'⟩ ⟨hcondition, hrest⟩
  dsimp only at hcondition hrest ⊢
  rw [hflag hcondition hrest]
  cases flag' condition' rest' with
  | error e => exact .error e
  | ok holds => exact .ok (.next (.cons hvalue (.cons (.value (.bool _)) hrest)))

theorem planProperty_lifted (key : String) (hs : Stack.Lifted F T stack stack') :
    Alike (Plan.Lifted F T) (planProperty key stack) (planProperty key stack') := by
  unfold planProperty
  split
  · exact .error _
  refine (popValue_lifted hs).bind ?_
  rintro ⟨v, rest⟩ ⟨v', rest'⟩ ⟨hv, hrest⟩
  dsimp only at hv hrest ⊢
  cases hrest with
  | nil => exact .error _
  | cons ho hrest =>
    cases ho with
    | thunk _ => exact .error _
    | value hu =>
      cases hu with
      | object hfields =>
        exact .ok (.next (.cons (.value (.object (Fields.Lifted.insert hfields key hv))) hrest))
      | _ => exact .error _

section

variable {lang lang' : Language Value} (htables : lang.SameTables lang')

include htables

theorem planMember_lifted (name : String) (hs : Stack.Lifted F T stack stack') :
    Alike (Plan.Lifted F T) (planMember lang name stack) (planMember lang' name stack') := by
  unfold planMember
  rw [htables.members]
  split
  · exact .error _
  split
  · exact .error _
  exact (popValue_lifted hs).bind fun p p' hp =>
    .ok (.next (.cons (.value (hp.1.member name)) hp.2))

variable (hF : Function.Congruent F)

include hF

omit htables in
theorem planOperator_lifted (op : String) (entry : Option Native) (n : Nat)
    (hs : Stack.Lifted F T stack stack') :
    Alike (Plan.Lifted F T) (planOperator op entry n stack) (planOperator op entry n stack') := by
  unfold planOperator
  cases entry with
  | none => exact .error _
  | some f =>
    exact (popValues_lifted n hs .nil).bind fun p p' hp => .ok (.call (hF.native f) hp.1 hp.2)

theorem planAssignment_lifted (hs : Stack.Lifted F T stack stack') :
    Alike (Plan.Lifted F T) (planAssignment lang stack) (planAssignment lang' stack') := by
  refine (popOperand_lifted hs).bind ?_
  rintro ⟨right, below⟩ ⟨right', below'⟩ ⟨hright, hbelow⟩
  refine (popValue_lifted hbelow).bind ?_
  rintro ⟨target, rest⟩ ⟨target', rest'⟩ ⟨htarget, hrest⟩
  dsimp only at htarget ⊢
  rw [htarget.text hF, htables.members]
  split
  · exact .error _
  · exact .ok (.resolve _ hright hrest)

omit htables in
theorem planCall_lifted (argc : Nat) (hs : Stack.Lifted F T stack stack') :
    Alike (Plan.Lifted F T) (planCall argc stack) (planCall argc stack') := by
  refine (popValues_lifted argc hs .nil).bind ?_
  rintro ⟨args, below⟩ ⟨args', below'⟩ ⟨hargs, hbelow⟩
  refine (popValue_lifted hbelow).bind ?_
  rintro ⟨v, rest⟩ ⟨v', rest'⟩ ⟨hv, hrest⟩
  have ht := hv.text hF
  dsimp only at hv ht ⊢
  cases hv with
  | function hf => exact .ok (.call hf hargs hrest)
  | _ =>
    dsimp only
    rw [ht]
    exact .error _

omit htables in
theorem texts_lifted {vs vs' : List Value} (h : Values.Lifted F vs vs') :
    vs'.map Value.text = vs.map Value.text := by
  induction h with
  | nil => rfl
  | cons hv _ ih => rw [List.map_cons, List.map_cons, hv.text hF, ih]

omit htables in
theorem planDefinition_lifted (paramc : Nat) (hs : Stack.Lifted F T stack stack') :
    Alike (Plan.Lifted F T) (planDefinition paramc stack) (planDefinition paramc stack') := by
  cases hs with
  | nil => exact .error _
  | cons ho hs =>
    cases ho with
    | value _ => exact .error _
    | thunk hbody =>
      refine (popValues_lifted paramc hs .nil).bind ?_
      rintro ⟨params, below⟩ ⟨params', below'⟩ ⟨hparams, hbelow⟩
      refine (popValue_lifted hbelow).bind ?_
      rintro ⟨name, rest⟩ ⟨name', rest'⟩ ⟨hname, hrest⟩
      dsimp only at hparams hname ⊢
      rw [hname.text hF, texts_lifted hF hparams]
      exact .ok (.define _ _ hbody hrest)

/-- On two stacks an instruction asks for the same but for functions and programs, if the names it
reads stand for values that are the same but for their functions. -/
theorem plan_lifted {scope scope' : Bindings} {i i' : Instruction Value} (hi : i.Lifted F T i')
    (hlookup : ∀ name, i = .variable name →
      Alike (Value.Lifted F) (lookup lang scope name) (lookup lang' scope' name))
    (hs : Stack.Lifted F T stack stack') :
    Alike (Plan.Lifted F T) (plan lang scope i stack) (plan lang' scope' i' stack') := by
  have hpush {v v' : Value} (hv : v.Lifted F v') : Alike (Plan.Lifted F T)
      (.ok (.next (.value v :: stack)) : Except EvalError Plan) (.ok (.next (.value v' :: stack'))) :=
    .ok (.next (.cons (.value hv) hs))
  cases hi with
  | literal hv => exact hpush hv
  | group hbody => exact .ok (.next (.cons (.thunk hbody) hs))
  | plain hliteral hgroup =>
    cases i with
    | literal v => exact (hliteral v rfl).elim
    | group body => exact (hgroup body rfl).elim
    | target name => exact hpush (.string name)
    | undefined => exact hpush .undefined
    | «variable» name =>
      exact (hlookup name rfl).bind fun v v' hv => hpush hv
    | unary op =>
      simp only [plan, htables.unary]
      exact planOperator_lifted hF op _ 1 hs
    | binary op =>
      simp only [plan, planBinary, htables.binary]
      split
      · exact planConnective_lifted op hs
      · split
        · exact planAssignment_lifted htables hF hs
        · exact planOperator_lifted hF op _ 2 hs
    | ternary op =>
      simp only [plan, planTernary, htables.ternary]
      split
      · exact planConditional_lifted hs
      · exact planOperator_lifted hF op _ 3 hs
    | call argc => exact planCall_lifted hF argc hs
    | define paramc => exact planDefinition_lifted hF paramc hs
    | member name => exact planMember_lifted htables name hs
    | endStatement => exact (popOperand_lifted hs).bind fun p p' hp => .ok (.next hp.2)
    | array count =>
      exact (popValues_lifted count hs .nil).bind fun p p' hp =>
        .ok (.next (.cons (.value (.array hp.1)) hp.2))
    | caseMatch count => exact planChoice_lifted count true hs
    | caseCond count => exact planChoice_lifted count false hs
    | whenCond _ =>
      simp only [plan]
      refine planFlag_lifted (fun hv _ => ?_) hs
      rw [hv.truthy]
    | whenMatch k =>
      simp only [plan]
      refine planFlag_lifted (fun {v v' below below'} hv hbelow => ?_) hs
      have hget := forall₂_getElem? hbelow (2 * k)
      generalize below[2 * k]? = o, below'[2 * k]? = o' at hget
      cases hget with
      | none => rfl
      | some ho =>
        cases ho with
        | value hu => exact congrArg Except.ok (hu.equal hF hv).symm
        | thunk _ => rfl
    | caseElse =>
      exact (popOperand_lifted hs).bind fun p p' hp =>
        .ok (.next (.cons hp.1 (.cons (.value (.bool true)) hp.2)))
    | objectStart => exact hpush (.object .nil)
    | property key => exact planProperty_lifted key hs
    | objectEnd => exact .ok (.next hs)

end

end Machine

end Formula
