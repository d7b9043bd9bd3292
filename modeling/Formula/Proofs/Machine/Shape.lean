import Formula.Proofs.Expr.Parts

/-!
# Stack effects

What code does to the stack can be read off without running it. A shape says what a place of the
stack holds; `effect` says which shapes an instruction leaves, if it finds what it needs. The
program of an expression leaves one place more than it finds, whatever the stack below holds.
-/

namespace Formula

inductive Shape where
  | value
  | thunk
  /-- a value that is an object -/
  | object
deriving DecidableEq, Repr

namespace Machine

/-- A stack with the given shapes, from the top. -/
inductive Fits : List Operand → List Shape → Prop
  | nil : Fits [] []
  | value {stack : List Operand} {σ : List Shape} (v : Value) :
      Fits stack σ → Fits (.value v :: stack) (.value :: σ)
  | thunk {stack : List Operand} {σ : List Shape} (code : Program Value) :
      Fits stack σ → Fits (.thunk code :: stack) (.thunk :: σ)
  | object {stack : List Operand} {σ : List Shape} (fields : List (String × Value)) :
      Fits stack σ → Fits (.value (.object fields) :: stack) (.object :: σ)

namespace Fits

variable {stack : List Operand} {σ : List Shape}

theorem length_eq (h : Fits stack σ) : stack.length = σ.length := by
  induction h with
  | nil => rfl
  | value _ _ ih | thunk _ _ ih | object _ _ ih => simp only [List.length_cons, ih]

theorem set (h : Fits stack σ) (d : Nat) (v : Value) :
    Fits (stack.set d (.value v)) (σ.set d .value) := by
  induction h generalizing d with
  | nil => exact .nil
  | value u h ih =>
    cases d with
    | zero => exact .value v h
    | succ d => exact .value u (ih d)
  | thunk code h ih =>
    cases d with
    | zero => exact .value v h
    | succ d => exact .thunk code (ih d)
  | object fields h ih =>
    cases d with
    | zero => exact .value v h
    | succ d => exact .object fields (ih d)

end Fits

/-! ### Effects -/

/-- The shapes once the operands at some depths are values. -/
def forced (ds : List Nat) (σ : List Shape) : List Shape :=
  ds.foldl (fun σ d => σ.set d .value) σ

def dropValues : Nat → List Shape → Option (List Shape)
  | 0, σ => some σ
  | n + 1, .value :: σ => dropValues n σ
  | _ + 1, _ => none

/-- The shapes below some branches: each is a flag with the branch's value above. -/
def dropBranches : Nat → List Shape → Option (List Shape)
  | 0, σ => some σ
  | n + 1, _ :: .value :: σ => dropBranches n σ
  | _ + 1, _ => none

/-- The shapes that an instruction leaves when its needed operands are values. -/
def planned : Instruction Value → List Shape → Option (List Shape)
  | .literal _, σ | .target _, σ | .undefined, σ | .variable _, σ => some (.value :: σ)
  | .group _, σ => some (.thunk :: σ)
  | .unary _, σ => (dropValues 1 σ).map (.value :: ·)
  | .binary op, σ =>
    if op ∈ Instruction.connectives then
      match σ with
      | _ :: .value :: σ => some (.value :: σ)
      | _ => none
    else (dropValues 2 σ).map (.value :: ·)
  | .ternary op, σ =>
    if op = "?" then
      match σ with
      | _ :: _ :: .value :: σ => some (.value :: σ)
      | _ => none
    else (dropValues 3 σ).map (.value :: ·)
  | .call argc, σ => (dropValues (argc + 1) σ).map (.value :: ·)
  | .define paramc, .thunk :: σ => (dropValues (paramc + 1) σ).map (.value :: ·)
  | .member _, σ => (dropValues 1 σ).map (.value :: ·)
  | .endStatement, _ :: σ => some σ
  | .array count, σ => (dropValues count σ).map (.value :: ·)
  | .whenCond _, s :: .value :: σ => some (s :: .value :: σ)
  | .whenMatch k, s :: .value :: σ => if 2 * k < σ.length then some (s :: .value :: σ) else none
  | .caseElse, s :: σ => some (s :: .value :: σ)
  | .caseMatch count, σ =>
    match dropBranches count σ with
    | some (_ :: σ) => some (.value :: σ)
    | _ => none
  | .caseCond count, σ => (dropBranches count σ).map (.value :: ·)
  | .objectStart, σ => some (.object :: σ)
  | .property _, .value :: .object :: σ => some (.object :: σ)
  | .objectEnd, .object :: σ => some (.value :: σ)
  | _, _ => none

/-- The shapes that an instruction leaves. -/
def effect (i : Instruction Value) (σ : List Shape) : Option (List Shape) :=
  if ∀ d ∈ needed i, d < σ.length then planned i (forced (needed i) σ) else none

def effects : Program Value → List Shape → Option (List Shape)
  | [], σ => some σ
  | i :: rest, σ => (effect i σ).bind (effects rest)

/-- Code that leaves exactly one operand on an empty stack. -/
def Balanced (code : Program Value) : Prop := ∃ s, effects code [] = some [s]

theorem effects_append (a b : Program Value) (σ : List Shape) :
    effects (a ++ b) σ = (effects a σ).bind (effects b) := by
  induction a generalizing σ with
  | nil => rfl
  | cons i rest ih =>
    simp only [List.cons_append, effects, Option.bind_assoc]
    exact congrArg _ (funext ih)

theorem forced_set {ds : List Nat} {d : Nat} (hd : d ∈ ds) (σ : List Shape) :
    forced ds (σ.set d .value) = forced ds σ := by
  unfold forced
  induction ds generalizing σ with
  | nil => cases hd
  | cons c ds ih =>
    simp only [List.foldl_cons]
    by_cases hc : c = d
    · rw [hc, List.set_set]
    · rw [List.set_comm _ _ (Ne.symm hc)]
      rcases List.mem_cons.mp hd with hd | hd
      · exact (hc hd.symm).elim
      · exact ih hd _

/-- An operand that an instruction needs may as well be a value from the start. -/
theorem effect_set {i : Instruction Value} {d : Nat} (hd : d ∈ needed i) (σ : List Shape) :
    effect i (σ.set d .value) = effect i σ := by
  unfold effect
  rw [forced_set hd, List.length_set]

theorem effect_inv {i : Instruction Value} {σ σ' : List Shape} (h : effect i σ = some σ') :
    (∀ d ∈ needed i, d < σ.length) ∧ planned i (forced (needed i) σ) = some σ' := by
  unfold effect at h
  split at h
  · next hin => exact ⟨hin, h⟩
  · cases h

/-! ### Plans -/

def Plan.Fits : Plan → List Shape → Prop
  | .next stack, σ => Machine.Fits stack σ
  | .resolve _ _ stack, σ | .call _ _ stack, σ | .define _ _ _ stack, σ =>
    ∃ below, σ = .value :: below ∧ Machine.Fits stack below

section

variable {mild : EvalError → Prop} {stack : List Operand} {σ σ' : List Shape}

theorem popValues_fits (n : Nat) {stack : List Operand} {σ σ' : List Shape} (hf : Fits stack σ)
    (hd : dropValues n σ = some σ') (acc : List Value) :
    Meets (fun r => Fits r.2 σ') mild (popValues n stack acc) := by
  induction n generalizing stack σ acc with
  | zero =>
    cases hd
    exact hf
  | succ n ih =>
    cases hf with
    | nil => cases hd
    | value v hf => exact ih hf hd (v :: acc)
    | thunk _ _ => cases hd
    | object _ _ => cases hd

theorem popValue_fits (hf : Fits stack (.value :: σ)) :
    Meets (fun r => Fits r.2 σ) mild (popValue stack) := by
  cases hf with
  | value v hf => exact hf

theorem popOperand_fits {s : Shape} (hf : Fits stack (s :: σ)) :
    Meets (fun r => Fits (r.1 :: r.2) (s :: σ) ∧ Fits r.2 σ) mild (popOperand stack) := by
  cases hf with
  | value v hf => exact ⟨.value v hf, hf⟩
  | thunk code hf => exact ⟨.thunk code hf, hf⟩
  | object fields hf => exact ⟨.object fields hf, hf⟩

theorem popBranches_fits (n : Nat) {stack : List Operand} {σ σ' : List Shape}
    (hf : Fits stack σ) (hd : dropBranches n σ = some σ') (chosen : Option Operand) :
    Meets (fun r => Fits r.2 σ') mild (popBranches n stack chosen) := by
  induction n generalizing stack σ chosen with
  | zero =>
    cases hd
    exact hf
  | succ n ih =>
    match σ, hd with
    | s :: .value :: below, hd =>
      cases hf with
      | value v hf => cases hf with
        | value flag hf => exact ih hf hd _
      | thunk code hf => cases hf with
        | value flag hf => exact ih hf hd _
      | object fields hf => cases hf with
        | value flag hf => exact ih hf hd _

/-- A value takes the place of those that were dropped. -/
theorem dropValues_map {n : Nat} (h : (dropValues n σ).map (.value :: ·) = some σ') :
    ∃ below, dropValues n σ = some below ∧ σ' = .value :: below := by
  obtain ⟨below, hd, rfl⟩ := Option.map_eq_some_iff.mp h
  exact ⟨below, hd, rfl⟩

theorem dropValues_succ {n : Nat} {σ below : List Shape} (h : dropValues (n + 1) σ = some below) :
    dropValues n σ = some (.value :: below) := by
  induction n generalizing σ with
  | zero =>
    match σ, h with
    | .value :: σ, h =>
      cases h
      rfl
  | succ n ih =>
    match σ, h with
    | .value :: σ, h => exact ih h

theorem planOperator_fits {op : String} {entry : Option Native} {n : Nat} (hf : Fits stack σ)
    (hd : (dropValues n σ).map (.value :: ·) = some σ') (he : entry ≠ none) :
    Meets (Plan.Fits · σ') mild (planOperator op entry n stack) := by
  obtain ⟨below, hb, rfl⟩ := dropValues_map hd
  cases entry with
  | none => exact (he rfl).elim
  | some f =>
    show Meets _ _ (popValues n stack [] >>= fun r => pure (Plan.call (.native f) r.1 r.2))
    exact Meets.bind (popValues_fits n hf hb []) fun r hr => ⟨below, rfl, hr⟩

theorem planConnective_fits (op : String) {s : Shape} (hf : Fits stack (s :: .value :: σ)) :
    Meets (Plan.Fits · (.value :: σ)) mild (planConnective op stack) := by
  unfold planConnective
  refine Meets.bind (popOperand_fits hf) ?_
  rintro ⟨right, stack⟩ ⟨_, hf⟩
  refine Meets.bind (popValue_fits hf) ?_
  rintro ⟨left, stack⟩ hf
  dsimp only
  split
  · exact Fits.value _ hf
  · exact ⟨σ, rfl, hf⟩

theorem planAssignment_fits (lang : Language Value) {s : Shape}
    (hf : Fits stack (s :: .value :: σ)) :
    Meets (Plan.Fits · (.value :: σ)) (fun e => ¬e.Malformed) (planAssignment lang stack) := by
  unfold planAssignment
  refine Meets.bind (popOperand_fits hf) ?_
  rintro ⟨right, stack⟩ ⟨_, hf⟩
  refine Meets.bind (popValue_fits hf) ?_
  rintro ⟨target, stack⟩ hf
  dsimp only
  split
  · exact id
  · exact ⟨σ, rfl, hf⟩

theorem planConditional_fits {s t : Shape} (hf : Fits stack (s :: t :: .value :: σ)) :
    Meets (Plan.Fits · (.value :: σ)) mild (planConditional stack) := by
  unfold planConditional
  refine Meets.bind (popOperand_fits hf) ?_
  rintro ⟨no, stack⟩ ⟨_, hf⟩
  refine Meets.bind (popOperand_fits hf) ?_
  rintro ⟨yes, stack⟩ ⟨_, hf⟩
  exact Meets.bind (popValue_fits hf) fun r hr => ⟨σ, rfl, hr⟩

theorem planCall_fits {argc : Nat} (hf : Fits stack σ)
    (hd : (dropValues (argc + 1) σ).map (.value :: ·) = some σ') :
    Meets (Plan.Fits · σ') (fun e => ¬e.Malformed) (planCall argc stack) := by
  obtain ⟨below, hb, rfl⟩ := dropValues_map hd
  unfold planCall
  refine Meets.bind (popValues_fits argc hf (dropValues_succ hb) []) ?_
  rintro ⟨args, stack⟩ hf
  refine Meets.bind (popValue_fits hf) ?_
  rintro ⟨callee, stack⟩ hf
  cases callee with
  | function f => exact ⟨below, rfl, hf⟩
  | _ => exact id

theorem planDefinition_fits {paramc : Nat} (hf : Fits stack (.thunk :: σ))
    (hd : (dropValues (paramc + 1) σ).map (.value :: ·) = some σ') :
    Meets (Plan.Fits · σ') mild (planDefinition paramc stack) := by
  obtain ⟨below, hb, rfl⟩ := dropValues_map hd
  cases hf with
  | thunk body hf =>
    refine Meets.bind (popValues_fits paramc hf (dropValues_succ hb) []) ?_
    rintro ⟨params, stack⟩ hf
    exact Meets.bind (popValue_fits hf) fun r hr => ⟨below, rfl, hr⟩

theorem planChoice_fits {count : Nat} {tested : Bool} {below : List Shape} (hf : Fits stack σ)
    (hd : dropBranches count σ = some below)
    (ht : if tested then ∃ s, below = s :: σ' else below = σ') :
    Meets (Plan.Fits · (.value :: σ')) mild (planChoice count tested stack) := by
  unfold planChoice
  refine Meets.bind (popBranches_fits count hf hd none) ?_
  rintro ⟨chosen, stack⟩ hf
  have hrest : Meets (Fits · σ') mild (popTested tested stack) := by
    unfold popTested
    cases tested with
    | false =>
      cases ht
      exact hf
    | true =>
      obtain ⟨s, rfl⟩ := ht
      exact Meets.bind (popOperand_fits hf) fun _ h => h.2
  dsimp only
  refine Meets.bind hrest fun rest hr => ?_
  cases chosen with
  | some o => exact ⟨σ', rfl, hr⟩
  | none => exact Fits.value _ hr

theorem planFlag_fits {s : Shape} {flag : Value → List Operand → Except EvalError Bool}
    (hf : Fits stack (s :: .value :: σ))
    (hflag : ∀ v below, Fits below σ → Meets (fun _ => True) mild (flag v below)) :
    Meets (Plan.Fits · (s :: .value :: σ)) mild (planFlag stack flag) := by
  unfold planFlag
  refine Meets.bind (popOperand_fits hf) ?_
  rintro ⟨value, stack⟩ ⟨hv, hf⟩
  refine Meets.bind (popValue_fits hf) ?_
  rintro ⟨condition, stack⟩ hf
  refine Meets.bind (hflag condition stack hf) fun holds _ => ?_
  have hbelow : Fits (.value (.bool holds) :: stack) (.value :: σ) := .value _ hf
  cases hv with
  | value v _ => exact Fits.value v hbelow
  | thunk code _ => exact Fits.thunk code hbelow
  | object fields _ => exact Fits.object fields hbelow

theorem planMember_fits (lang : Language Value) (name : String) (hf : Fits stack (.value :: σ)) :
    Meets (Plan.Fits · (.value :: σ)) (fun e => ¬e.Malformed) (planMember lang name stack) := by
  unfold planMember
  split
  · exact id
  · split
    · exact id
    · exact Meets.bind (popValue_fits hf) fun r hr => Fits.value _ hr

theorem planProperty_fits (key : String) (hf : Fits stack (.value :: .object :: σ)) :
    Meets (Plan.Fits · (.object :: σ)) (fun e => ¬e.Malformed) (planProperty key stack) := by
  unfold planProperty
  split
  · exact id
  · refine Meets.bind (popValue_fits hf) ?_
    rintro ⟨v, stack⟩ hf
    cases hf with
    | object fields hf => exact Fits.object _ hf

theorem planBinary_fits {lang : Language Value} {op : String} (hf : Fits stack σ)
    (hp : planned (.binary op) σ = some σ') (he : (Instruction.binary op).called? lang ≠ some none) :
    Meets (Plan.Fits · σ') (fun e => ¬e.Malformed) (planBinary lang op stack) := by
  unfold planBinary
  by_cases hop : op ∈ Instruction.connectives
  · simp only [planned, hop, if_true] at hp
    match σ, hp with
    | s :: .value :: below, hp =>
      cases hp
      split
      · exact planConnective_fits op hf
      · split
        · exact planAssignment_fits lang hf
        · simp_all [Instruction.connectives]
  · simp only [planned, Instruction.called?, hop, if_false] at hp he
    have hne : ¬(op = "and" ∨ op = "or") ∧ op ≠ "=" := by
      simpa [Instruction.connectives, not_or, and_assoc] using hop
    rw [if_neg hne.1, if_neg hne.2]
    exact planOperator_fits hf hp fun h => he (congrArg some h)

theorem planTernary_fits {lang : Language Value} {op : String} (hf : Fits stack σ)
    (hp : planned (.ternary op) σ = some σ')
    (he : (Instruction.ternary op).called? lang ≠ some none) :
    Meets (Plan.Fits · σ') (fun e => ¬e.Malformed) (planTernary lang op stack) := by
  unfold planTernary
  by_cases hop : op = "?"
  · simp only [planned, hop, if_true] at hp ⊢
    match σ, hp with
    | s :: t :: .value :: below, hp =>
      cases hp
      exact planConditional_fits hf
  · simp only [planned, Instruction.called?, hop, if_false] at hp he ⊢
    exact planOperator_fits hf hp fun h => he (congrArg some h)

/-- On a stack with the shapes it wants, an instruction asks for something, and leaves the shapes
it promises. -/
theorem plan_fits {lang : Language Value} {scope : Bindings} {i : Instruction Value}
    (hf : Fits stack σ) (hp : planned i σ = some σ') (he : i.called? lang ≠ some none)
    (hlookup : ∀ name, i = .variable name →
      Meets (fun _ => True) (fun e => ¬e.Malformed) (lookup lang scope name)) :
    Meets (Plan.Fits · σ') (fun e => ¬e.Malformed) (plan lang scope i stack) := by
  cases i with
  | literal v =>
    cases hp
    exact Fits.value _ hf
  | target name =>
    cases hp
    exact Fits.value _ hf
  | undefined =>
    cases hp
    exact Fits.value _ hf
  | group body =>
    cases hp
    exact Fits.thunk _ hf
  | «variable» name =>
    cases hp
    exact Meets.bind (hlookup name rfl) fun v _ => Fits.value v hf
  | unary op => exact planOperator_fits hf hp fun h => he (congrArg some h)
  | binary op => exact planBinary_fits hf hp he
  | ternary op => exact planTernary_fits hf hp he
  | call argc => exact planCall_fits hf hp
  | define paramc =>
    match σ, hp with
    | .thunk :: below, hp => exact planDefinition_fits hf hp
  | member name =>
    match σ, hp with
    | .value :: below, hp =>
      cases hp
      exact planMember_fits lang name hf
  | endStatement =>
    match σ, hp with
    | s :: below, hp =>
      cases hp
      exact Meets.bind (popOperand_fits hf) fun r hr => hr.2
  | array count =>
    obtain ⟨below, hb, rfl⟩ := dropValues_map hp
    exact Meets.bind (popValues_fits count hf hb []) fun r hr => Fits.value _ hr
  | whenCond k =>
    match σ, hp with
    | s :: .value :: below, hp =>
      cases hp
      unfold plan
      exact planFlag_fits hf fun _ _ _ => trivial
  | whenMatch k =>
    match σ, hp with
    | s :: .value :: below, hp =>
      simp only [planned] at hp
      split at hp
      · next hk =>
        cases hp
        unfold plan
        refine planFlag_fits hf fun v stack hb => ?_
        have hlt : 2 * k < stack.length := hb.length_eq ▸ hk
        rw [List.getElem?_eq_getElem hlt]
        cases stack[2 * k] with
        | value _ => exact trivial
        | thunk _ => exact trivial
      · cases hp
  | caseElse =>
    match σ, hp with
    | s :: below, hp =>
      cases hp
      cases hf with
      | value v hf => exact Fits.value v (.value _ hf)
      | thunk code hf => exact Fits.thunk code (.value _ hf)
      | object fields hf => exact Fits.object fields (.value _ hf)
  | caseMatch count =>
    simp only [planned] at hp
    split at hp
    · next s below hd =>
      cases hp
      exact planChoice_fits hf hd ⟨s, rfl⟩
    · cases hp
  | caseCond count =>
    obtain ⟨below, hd, rfl⟩ := Option.map_eq_some_iff.mp hp
    exact planChoice_fits hf hd rfl
  | objectStart =>
    cases hp
    exact Fits.object _ hf
  | property key =>
    match σ, hp with
    | .value :: .object :: below, hp =>
      cases hp
      exact planProperty_fits key hf
  | objectEnd =>
    match σ, hp with
    | .object :: below, hp =>
      cases hp
      cases hf with
      | object fields hf => exact Fits.value _ hf

end

end Machine

end Formula
