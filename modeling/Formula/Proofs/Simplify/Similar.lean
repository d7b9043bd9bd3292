import Formula.Proofs.Scope.Written
import Formula.Proofs.Simplify.Pushes
import Mathlib.Data.List.Forall2

/-!
# Similar programs

Two programs are similar when they are the same but for parts that push the same known values; they
may assign variables that are not known, and define nothing. On similar stacks an instruction that
leaves the variables in scope alone asks for the same: what is called and what is kept is equal, and
what is entered is similar.
-/

namespace Formula

/-- Whether an instruction assigns or defines a variable. -/
def Instruction.rebinds : Instruction Value → Bool
  | .define _ => true
  | .binary op => op == "="
  | _ => false

def Instruction.isGroup : Instruction Value → Bool
  | .group _ => true
  | _ => false

namespace Machine

/-- Programs that are the same but for parts that push the same known values. -/
inductive Similar (hosts : Hosts) (lang : Language Value) (b : Bindings) :
    Program Value → Program Value → Prop
  | nil : Similar hosts lang b [] []
  | push {part part' rest rest' : Program Value} {vs : List Value} :
      Pushes hosts lang b part vs → Pushes hosts lang b part' vs →
      Similar hosts lang b rest rest' → Similar hosts lang b (part ++ rest) (part' ++ rest')
  | group {body body' rest rest' : Program Value} :
      Similar hosts lang b body body' → Similar hosts lang b rest rest' →
      Similar hosts lang b (.group body :: rest) (.group body' :: rest')
  | same {i : Instruction Value} {rest rest' : Program Value} :
      i.isGroup = false → i.rebinds = false → Similar hosts lang b rest rest' →
      Similar hosts lang b (i :: rest) (i :: rest')
  | assign {path : String} {body body' rest rest' : Program Value} :
      Record.get? b (Bindings.root path) = none → Similar hosts lang b body body' →
      Similar hosts lang b rest rest' →
      Similar hosts lang b (.target path :: .group body :: .binary "=" :: rest)
        (.target path :: .group body' :: .binary "=" :: rest')

section

variable (hosts : Hosts) (lang : Language Value) (b : Bindings)

/-- The same value, or similar programs. -/
inductive SimilarOperand : Operand → Operand → Prop
  | value (v : Value) : SimilarOperand (.value v) (.value v)
  | thunk {code code' : Program Value} :
      Similar hosts lang b code code' → SimilarOperand (.thunk code) (.thunk code')

abbrev SimilarStack : List Operand → List Operand → Prop :=
  List.Forall₂ (SimilarOperand hosts lang b)

/-- Plans that ask for the same, apart from programs that are similar, and that neither assign nor
define. -/
inductive SimilarPlan : Plan → Plan → Prop
  | next {stack stack' : List Operand} :
      SimilarStack hosts lang b stack stack' → SimilarPlan (.next stack) (.next stack')
  | resolve {o o' : Operand} {use : Use} {stack stack' : List Operand} :
      SimilarOperand hosts lang b o o' → (∀ path, use ≠ .assign path) →
      SimilarStack hosts lang b stack stack' →
      SimilarPlan (.resolve o use stack) (.resolve o' use stack')
  | call (f : Function Value) (args : List Value) {stack stack' : List Operand} :
      SimilarStack hosts lang b stack stack' →
      SimilarPlan (.call f args stack) (.call f args stack')

end

variable {hosts : Hosts} {lang : Language Value} {b : Bindings} {stack stack' : List Operand}

theorem Similar.symm {code code' : Program Value} (h : Similar hosts lang b code code') :
    Similar hosts lang b code' code := by
  induction h with
  | nil => exact .nil
  | push hpart hpart' _ ih => exact .push hpart' hpart ih
  | group _ _ ihbody ih => exact .group ihbody ih
  | same hgroup hrebinds _ ih => exact .same hgroup hrebinds ih
  | assign hroot _ _ ihbody ih => exact .assign hroot ihbody ih

theorem SimilarOperand.symm {o o' : Operand} (h : SimilarOperand hosts lang b o o') :
    SimilarOperand hosts lang b o' o := by
  cases h with
  | value v => exact .value v
  | thunk hcode => exact .thunk hcode.symm

theorem SimilarStack.symm (h : SimilarStack hosts lang b stack stack') :
    SimilarStack hosts lang b stack' stack :=
  (h.imp fun _ _ => SimilarOperand.symm).flip

/-! ### Operands -/

/-- A part taken off the stack, and the rest of the stack. -/
abbrev SimilarPopped (hosts : Hosts) (lang : Language Value) (b : Bindings) {α : Type}
    (R : α → α → Prop) : α × List Operand → α × List Operand → Prop :=
  fun p p' => R p.1 p'.1 ∧ SimilarStack hosts lang b p.2 p'.2

theorem popValues_similar (n : Nat) (hs : SimilarStack hosts lang b stack stack')
    (acc : List Value) :
    Alike (SimilarPopped hosts lang b Eq) (popValues n stack acc) (popValues n stack' acc) := by
  induction n generalizing stack stack' acc with
  | zero => exact .ok ⟨rfl, hs⟩
  | succ n ih =>
    cases hs with
    | nil => exact .error _
    | cons ho hs =>
      cases ho with
      | value v => exact ih hs (v :: acc)
      | thunk _ => exact .error _

theorem popValue_similar (hs : SimilarStack hosts lang b stack stack') :
    Alike (SimilarPopped hosts lang b Eq) (popValue stack) (popValue stack') := by
  cases hs with
  | nil => exact .error _
  | cons ho hs =>
    cases ho with
    | value v => exact .ok ⟨rfl, hs⟩
    | thunk _ => exact .error _

theorem popOperand_similar (hs : SimilarStack hosts lang b stack stack') :
    Alike (SimilarPopped hosts lang b (SimilarOperand hosts lang b))
      (popOperand stack) (popOperand stack') := by
  cases hs with
  | nil => exact .error _
  | cons ho hs => exact .ok ⟨ho, hs⟩

theorem popBranches_similar (n : Nat) (hs : SimilarStack hosts lang b stack stack')
    {chosen chosen' : Option Operand}
    (hchosen : Option.Rel (SimilarOperand hosts lang b) chosen chosen') :
    Alike (SimilarPopped hosts lang b (Option.Rel (SimilarOperand hosts lang b)))
      (popBranches n stack chosen) (popBranches n stack' chosen') := by
  induction n generalizing stack stack' chosen chosen' with
  | zero => exact .ok ⟨hchosen, hs⟩
  | succ n ih =>
    cases hs with
    | nil => exact .error _
    | cons ho hs =>
      cases hs with
      | nil => cases ho <;> exact .error _
      | cons hflag hs =>
        cases hflag with
        | thunk _ => cases ho <;> exact .error _
        | value flag =>
          refine ih hs ?_
          split
          · exact .some ho
          · exact hchosen

theorem popTested_similar (tested : Bool) (hs : SimilarStack hosts lang b stack stack') :
    Alike (SimilarStack hosts lang b) (popTested tested stack) (popTested tested stack') := by
  cases tested with
  | false => exact .ok hs
  | true => exact (popOperand_similar hs).bind fun p p' hp => .ok hp.2

/-! ### Plans -/

theorem planOperator_similar (op : String) (entry : Option Native) (n : Nat)
    (hs : SimilarStack hosts lang b stack stack') :
    Alike (SimilarPlan hosts lang b) (planOperator op entry n stack)
      (planOperator op entry n stack') := by
  unfold planOperator
  cases entry with
  | none => exact .error _
  | some f =>
    refine (popValues_similar n hs []).bind fun p p' hp => ?_
    obtain ⟨args, rest⟩ := p
    obtain ⟨args', rest'⟩ := p'
    obtain ⟨rfl, hrest⟩ := hp
    exact .ok (.call _ args hrest)

theorem planConnective_similar (op : String) (hs : SimilarStack hosts lang b stack stack') :
    Alike (SimilarPlan hosts lang b) (planConnective op stack) (planConnective op stack') := by
  refine (popOperand_similar hs).bind fun right right' hright => ?_
  refine (popValue_similar hright.2).bind fun left left' hleft => ?_
  obtain ⟨v, rest⟩ := left
  obtain ⟨v', rest'⟩ := left'
  obtain ⟨rfl, hrest⟩ := hleft
  dsimp only
  split
  · exact .ok (.next (.cons (.value _) hrest))
  · exact .ok (.resolve hright.1 (fun path h => by cases h) hrest)

theorem planConditional_similar (hs : SimilarStack hosts lang b stack stack') :
    Alike (SimilarPlan hosts lang b) (planConditional stack) (planConditional stack') := by
  refine (popOperand_similar hs).bind fun no no' hno => ?_
  refine (popOperand_similar hno.2).bind fun yes yes' hyes => ?_
  refine (popValue_similar hyes.2).bind fun test test' htest => ?_
  obtain ⟨v, rest⟩ := test
  obtain ⟨v', rest'⟩ := test'
  obtain ⟨rfl, hrest⟩ := htest
  refine .ok (.resolve ?_ (fun path h => by cases h) hrest)
  dsimp only
  split
  · exact hyes.1
  · exact hno.1

theorem planCall_similar (argc : Nat) (hs : SimilarStack hosts lang b stack stack') :
    Alike (SimilarPlan hosts lang b) (planCall argc stack) (planCall argc stack') := by
  refine (popValues_similar argc hs []).bind fun args args' hargs => ?_
  refine (popValue_similar hargs.2).bind fun callee callee' hcallee => ?_
  obtain ⟨v, rest⟩ := callee
  obtain ⟨v', rest'⟩ := callee'
  obtain ⟨rfl, hrest⟩ := hcallee
  rw [hargs.1]
  cases v with
  | function f => exact .ok (.call f _ hrest)
  | _ => exact .error _

theorem planChoice_similar (count : Nat) (tested : Bool)
    (hs : SimilarStack hosts lang b stack stack') :
    Alike (SimilarPlan hosts lang b) (planChoice count tested stack)
      (planChoice count tested stack') := by
  refine (popBranches_similar count hs .none).bind fun p p' hp => ?_
  refine (popTested_similar tested hp.2).bind fun rest rest' hrest => ?_
  obtain ⟨chosen, below⟩ := p
  obtain ⟨chosen', below'⟩ := p'
  have hchosen : Option.Rel (SimilarOperand hosts lang b) chosen chosen' := hp.1
  cases hchosen with
  | none => exact .ok (.next (.cons (.value _) hrest))
  | some ho => exact .ok (.resolve ho (fun path h => by cases h) hrest)

theorem planFlag_similar (flag : Value → List Operand → Except EvalError Bool)
    (hflag : ∀ v {below below' : List Operand}, SimilarStack hosts lang b below below' →
      flag v below = flag v below')
    (hs : SimilarStack hosts lang b stack stack') :
    Alike (SimilarPlan hosts lang b) (planFlag stack flag) (planFlag stack' flag) := by
  refine (popOperand_similar hs).bind fun value value' hvalue => ?_
  refine (popValue_similar hvalue.2).bind fun condition condition' hcondition => ?_
  obtain ⟨v, rest⟩ := condition
  obtain ⟨v', rest'⟩ := condition'
  obtain ⟨rfl, hrest⟩ := hcondition
  have hsame : flag v rest = flag v rest' := hflag v hrest
  dsimp only
  rw [hsame]
  cases flag v rest' with
  | error e => exact .error e
  | ok holds => exact .ok (.next (.cons hvalue.1 (.cons (.value _) hrest)))

theorem planMember_similar (name : String) (hs : SimilarStack hosts lang b stack stack') :
    Alike (SimilarPlan hosts lang b) (planMember lang name stack) (planMember lang name stack') := by
  unfold planMember
  split
  · exact .error _
  split
  · exact .error _
  refine (popValue_similar hs).bind fun p p' hp => ?_
  obtain ⟨v, rest⟩ := p
  obtain ⟨v', rest'⟩ := p'
  obtain ⟨rfl, hrest⟩ := hp
  exact .ok (.next (.cons (.value _) hrest))

theorem planProperty_similar (key : String) (hs : SimilarStack hosts lang b stack stack') :
    Alike (SimilarPlan hosts lang b) (planProperty key stack) (planProperty key stack') := by
  unfold planProperty
  split
  · exact .error _
  refine (popValue_similar hs).bind fun p p' hp => ?_
  obtain ⟨v, rest⟩ := p
  obtain ⟨v', rest'⟩ := p'
  obtain ⟨rfl, hrest⟩ := hp
  dsimp only
  cases hrest with
  | nil => exact .error _
  | cons ho hrest =>
    cases ho with
    | thunk _ => exact .error _
    | value u =>
      cases u with
      | object fields => exact .ok (.next (.cons (.value _) hrest))
      | _ => exact .error _

theorem getElem?_similar (hs : SimilarStack hosts lang b stack stack') (d : Nat) :
    Option.Rel (SimilarOperand hosts lang b) stack[d]? stack'[d]? := by
  induction hs generalizing d with
  | nil => exact .none
  | cons ho _ ih =>
    cases d with
    | zero => exact .some ho
    | succ d => exact ih d

theorem set_similar (hs : SimilarStack hosts lang b stack stack') (d : Nat) {o o' : Operand}
    (ho : SimilarOperand hosts lang b o o') :
    SimilarStack hosts lang b (stack.set d o) (stack'.set d o') := by
  induction hs generalizing d with
  | nil => exact .nil
  | cons hhead htail ih =>
    cases d with
    | zero => exact .cons ho htail
    | succ d => exact .cons hhead (ih d)

theorem plan_similar {scope : Bindings} {i : Instruction Value} (hgroup : i.isGroup = false)
    (hrebinds : i.rebinds = false) (hs : SimilarStack hosts lang b stack stack') :
    Alike (SimilarPlan hosts lang b) (plan lang scope i stack) (plan lang scope i stack') := by
  have hpush : ∀ v : Value, Alike (SimilarPlan hosts lang b)
      (.ok (.next (.value v :: stack)) : Except EvalError Plan)
      (.ok (.next (.value v :: stack'))) :=
    fun v => .ok (.next (.cons (.value v) hs))
  cases i with
  | literal v => exact hpush v
  | unary op => exact planOperator_similar op _ 1 hs
  | binary op =>
    have hop : op ≠ "=" := by simpa [Instruction.rebinds] using hrebinds
    simp only [plan, planBinary, hop, if_false]
    split
    · exact planConnective_similar op hs
    · exact planOperator_similar op _ 2 hs
  | ternary op =>
    simp only [plan, planTernary]
    split
    · exact planConditional_similar hs
    · exact planOperator_similar op _ 3 hs
  | «variable» name =>
    simp only [plan]
    cases lookup lang scope name with
    | error e => exact .error e
    | ok v => exact hpush v
  | target name => exact hpush _
  | call argc => exact planCall_similar argc hs
  | define _ => cases hrebinds
  | group _ => cases hgroup
  | member name => exact planMember_similar name hs
  | endStatement => exact (popOperand_similar hs).bind fun p p' hp => .ok (.next hp.2)
  | array count =>
    refine (popValues_similar count hs []).bind fun p p' hp => ?_
    obtain ⟨items, rest⟩ := p
    obtain ⟨items', rest'⟩ := p'
    obtain ⟨rfl, hrest⟩ := hp
    exact .ok (.next (.cons (.value _) hrest))
  | undefined => exact hpush _
  | caseMatch count => exact planChoice_similar count true hs
  | caseCond count => exact planChoice_similar count false hs
  | whenCond _ =>
    simp only [plan]
    exact planFlag_similar _ (fun _ _ _ _ => rfl) hs
  | whenMatch k =>
    simp only [plan]
    refine planFlag_similar _ (fun v below below' hbelow => ?_) hs
    have hget := getElem?_similar hbelow (2 * k)
    revert hget
    generalize below[2 * k]? = o
    generalize below'[2 * k]? = o'
    intro hget
    cases hget with
    | none => rfl
    | some ho => cases ho <;> rfl
  | caseElse =>
    exact (popOperand_similar hs).bind fun p p' hp => .ok (.next (.cons hp.1 (.cons (.value _) hp.2)))
  | objectStart => exact hpush _
  | property key => exact planProperty_similar key hs
  | objectEnd => exact .ok (.next hs)

end Machine

end Formula
