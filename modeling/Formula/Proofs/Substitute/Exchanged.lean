import Formula.Proofs.Substitute.Decided

/-!
# Programs with parts exchanged

Two programs, run where different variables are in scope, may be the same but for parts that lead to
operands which stand for the same values. The shapes on the stack are kept with the code, so that an
instruction after such a part is known to look only at operands that it has brought to values.
-/

namespace Formula

namespace Machine

section

variable (hosts : Hosts) (lang : Language Value) (a b : Bindings)

/-- Two operands that stand for the same value, each where variables of its own are in scope. -/
def Stands (o o' : Operand) : Prop :=
  ∃ v : Value, v.Known ∧ StandsFor hosts lang a v o ∧ StandsFor hosts lang b v o'

/-- Programs that are the same but for parts that lead to operands which stand for the same values;
they write nothing, and find shapes on the stack with which they leave one operand. -/
inductive Exchanged : List Shape → Program Value → Program Value → Prop
  | nil (s : Shape) : Exchanged [s] [] []
  | part {s : Shape} {σ : List Shape} {o o' : Operand} {part part' rest rest' : Program Value} :
      PairedAs (Stands hosts lang a b) s o o' →
      Leads hosts lang a part [] [o] → Leads hosts lang b part' [] [o'] →
      .endStatement ∉ part → .endStatement ∉ part' →
      Exchanged (s :: σ) rest rest' → Exchanged σ (part ++ rest) (part' ++ rest')
  | group {σ : List Shape} {body body' rest rest' : Program Value} :
      Exchanged [] body body' → Exchanged (.thunk :: σ) rest rest' →
      Exchanged σ (.group body :: rest) (.group body' :: rest')
  | same {i : Instruction Value} {σ σ' : List Shape} {rest rest' : Program Value} :
      i.isGroup = false → i.writes = false → effect i σ = some σ' →
      (∀ name, i = .variable name → lookup lang a name = lookup lang b name) →
      Exchanged σ' rest rest' → Exchanged σ (i :: rest) (i :: rest')

/-- Programs with parts exchanged, or operands that stand for the same value. -/
inductive ExchangedOperand : Operand → Operand → Prop
  | thunk {code code' : Program Value} :
      Exchanged hosts lang a b [] code code' → ExchangedOperand (.thunk code) (.thunk code')
  | stands {o o' : Operand} : Stands hosts lang a b o o' → ExchangedOperand o o'

/-- Two stacks with given shapes, with parts exchanged. -/
abbrev ExchangedStack : List Shape → List Operand → List Operand → Prop :=
  Paired (ExchangedOperand hosts lang a b) fun stack stack' => stack = [] ∧ stack' = []

inductive ExchangedFrame : Frame → Frame → Prop
  | fill {d : Nat} {σ : List Shape} {stack stack' : List Operand} {code code' : Program Value} :
      d < σ.length → ExchangedStack hosts lang a b σ stack stack' →
      Exchanged hosts lang a b (σ.set d .value) code code' →
      ExchangedFrame (.fill d stack code) (.fill d stack' code')
  | push {σ : List Shape} {stack stack' : List Operand} {code code' : Program Value} :
      ExchangedStack hosts lang a b σ stack stack' →
      Exchanged hosts lang a b (.value :: σ) code code' →
      ExchangedFrame (.push stack code) (.push stack' code')
  | truth : ExchangedFrame .truth .truth

abbrev ExchangedFrames : List Frame → List Frame → Prop :=
  List.Forall₂ (ExchangedFrame hosts lang a b)

inductive ExchangedProgress : Progress → Progress → Prop
  | done (v : Value) : ExchangedProgress (.done v) (.done v)
  | waiting {frames frames' : List Frame} (on : Nat) :
      ExchangedFrames hosts lang a b frames frames' →
      ExchangedProgress (.waiting frames on) (.waiting frames' on)

/-- What an instruction leads to on exchanged stacks. -/
inductive ExchangedStep : List Shape → Step → Step → Prop
  | next {σ : List Shape} {stack stack' : List Operand} :
      ExchangedStack hosts lang a b σ stack stack' → ExchangedStep σ (.next stack) (.next stack')
  | await {σ : List Shape} {frames frames' : List Frame} (on : Nat) {stack stack' : List Operand} :
      ExchangedFrames hosts lang a b frames frames' → ExchangedStack hosts lang a b σ stack stack' →
      ExchangedStep (.value :: σ) (.await frames on stack) (.await frames' on stack')

/-- What bringing operands to values that an instruction needs leads to. -/
inductive ExchangedForced (i : Instruction Value) (σ : List Shape) : List Shape → Forced → Forced → Prop
  | ready {σ' : List Shape} {stack stack' : List Operand} :
      ExchangedStack hosts lang a b σ' stack stack' →
      ExchangedForced i σ σ' (.ready stack) (.ready stack')
  | suspended {σ' τ : List Shape} {d : Nat} {frames frames' : List Frame} (on : Nat)
      {stack stack' : List Operand} :
      d ∈ needed i → d < τ.length → effect i τ = effect i σ →
      ExchangedFrames hosts lang a b frames frames' →
      ExchangedStack hosts lang a b τ stack stack' →
      ExchangedForced i σ σ' (.suspended d frames on stack) (.suspended d frames' on stack')

end

variable {hosts : Hosts} {lang : Language Value} {a b : Bindings} {σ : List Shape}

/-! ### Symmetry -/

theorem Stands.symm {o o' : Operand} (h : Stands hosts lang a b o o') :
    Stands hosts lang b a o' o := by
  obtain ⟨v, hv, ho, ho'⟩ := h
  exact ⟨v, hv, ho', ho⟩

theorem Exchanged.symm {code code' : Program Value} (h : Exchanged hosts lang a b σ code code') :
    Exchanged hosts lang b a σ code' code := by
  induction h with
  | nil s => exact .nil s
  | part ho hpart hpart' hend hend' _ ih =>
    exact .part (ho.flip fun _ _ => Stands.symm) hpart' hpart hend' hend ih
  | group _ _ ihbody ih => exact .group ihbody ih
  | same hgroup hwrites he hlookup _ ih =>
    exact .same hgroup hwrites he (fun name hi => (hlookup name hi).symm) ih

theorem ExchangedOperand.symm {o o' : Operand} (h : ExchangedOperand hosts lang a b o o') :
    ExchangedOperand hosts lang b a o' o := by
  cases h with
  | thunk hcode => exact .thunk hcode.symm
  | stands ho => exact .stands ho.symm

theorem ExchangedStack.symm {stack stack' : List Operand}
    (h : ExchangedStack hosts lang a b σ stack stack') :
    ExchangedStack hosts lang b a σ stack' stack := by
  induction h with
  | low h => exact .low ⟨h.2, h.1⟩
  | cons ho _ ih => exact .cons (ho.flip fun _ _ => ExchangedOperand.symm) ih

theorem ExchangedFrame.symm {f f' : Frame} (h : ExchangedFrame hosts lang a b f f') :
    ExchangedFrame hosts lang b a f' f := by
  cases h with
  | fill hd hs hcode => exact .fill hd hs.symm hcode.symm
  | push hs hcode => exact .push hs.symm hcode.symm
  | truth => exact .truth

theorem ExchangedFrames.symm {frames frames' : List Frame}
    (h : ExchangedFrames hosts lang a b frames frames') :
    ExchangedFrames hosts lang b a frames' frames :=
  (h.imp fun _ _ => ExchangedFrame.symm).flip

/-! ### Operands -/

theorem StandsFor.resolve {v : Value} {o : Operand} (h : StandsFor hosts lang a v o) (depth : Nat)
    {w : World} (hw : w.scope = a) :
    Eval.Unfolds (fun n => resolve (engine hosts n) lang depth o) (fun _ => pure (.done v)) w := by
  cases h with
  | value => exact .of_eq fun _ => rfl
  | thunk hcomes => exact hcomes depth w hw

end Machine

end Formula
