import Formula.Proofs.Values.Flow

/-!
# What plans are made of

The operands that an instruction leaves, and what it asks for, are made of values and programs that
are on the stack, in scope or in the instruction itself. So they have whatever property those have
and containers inherit; obeying a guard is one.
-/

namespace Formula

section

variable (V : Value → Prop) (T : Program Value → Prop)

/-- An operand made of values and programs with given properties. -/
def Operand.Made : Operand → Prop
  | .value v => V v
  | .thunk code => T code

def Stack.Made (stack : List Operand) : Prop := ∀ o ∈ stack, o.Made V T

def Machine.Plan.Made : Machine.Plan → Prop
  | .next stack => Stack.Made V T stack
  | .resolve o _ stack => o.Made V T ∧ Stack.Made V T stack
  | .call f args stack => V (.function f) ∧ (∀ v ∈ args, V v) ∧ Stack.Made V T stack
  | .define _ _ body stack => T body ∧ Stack.Made V T stack

/-- The needed operands are values, or the run waits where runs may wait. -/
def Machine.Forced.Made (waits : Prop) : Machine.Forced → Prop
  | .ready stack => Stack.Made V T stack
  | .suspended _ _ _ _ => waits

/-- An instruction leads to a stack again, or to a run that waits where runs may wait. -/
def Machine.Step.Made (waits : Prop) : Machine.Step → Prop
  | .next stack => Stack.Made V T stack
  | .await _ _ _ => waits

/-- What an instruction holds, and the functions it names in a language, have the properties. -/
structure Instruction.Made (lang : Language Value) (i : Instruction Value) : Prop where
  literal : ∀ v, i = .literal v → V v
  group : ∀ body, i = .group body → T body
  natives : ∀ f ∈ i.natives lang, V (.function (.native f))

end

variable {V : Value → Prop} {T : Program Value → Prop} {lang : Language Value}

namespace Stack.Made

variable {o : Operand} {stack : List Operand}

theorem cons (ho : o.Made V T) (hs : Stack.Made V T stack) : Stack.Made V T (o :: stack) :=
  List.forall_mem_cons.mpr ⟨ho, hs⟩

theorem head (h : Stack.Made V T (o :: stack)) : o.Made V T := h o (List.mem_cons_self ..)

theorem tail (h : Stack.Made V T (o :: stack)) : Stack.Made V T stack :=
  fun p hp => h p (List.mem_cons_of_mem _ hp)

theorem set (h : Stack.Made V T stack) (d : Nat) (ho : o.Made V T) :
    Stack.Made V T (stack.set d o) := by
  intro p hp
  rcases List.mem_or_eq_of_mem_set hp with hp | hp
  · exact h p hp
  · exact hp ▸ ho

end Stack.Made

namespace Machine

section

variable {stack : List Operand}

/-! ### Taking operands off -/

theorem popValues_made (n : Nat) {stack : List Operand} {acc : List Value}
    (hs : Stack.Made V T stack) (hacc : ∀ v ∈ acc, V v) :
    Meets (fun r => (∀ v ∈ r.1, V v) ∧ Stack.Made V T r.2) (fun _ => True)
      (popValues n stack acc) := by
  induction n generalizing stack acc with
  | zero => exact ⟨hacc, hs⟩
  | succ n ih =>
    cases stack with
    | nil => exact trivial
    | cons o stack =>
      cases o with
      | value v =>
        have hv : V v := hs.head
        exact ih hs.tail (List.forall_mem_cons.mpr ⟨hv, hacc⟩)
      | thunk _ => exact trivial

theorem popValue_made (hs : Stack.Made V T stack) :
    Meets (fun r => V r.1 ∧ Stack.Made V T r.2) (fun _ => True) (popValue stack) := by
  cases stack with
  | nil => exact trivial
  | cons o stack =>
    cases o with
    | value v =>
      have hv : V v := hs.head
      exact ⟨hv, hs.tail⟩
    | thunk _ => exact trivial

theorem popOperand_made (hs : Stack.Made V T stack) :
    Meets (fun r => r.1.Made V T ∧ Stack.Made V T r.2) (fun _ => True)
      (popOperand stack) := by
  cases stack with
  | nil => exact trivial
  | cons o stack => exact ⟨hs.head, hs.tail⟩

theorem popBranches_made (n : Nat) {stack : List Operand} {chosen : Option Operand}
    (hs : Stack.Made V T stack) (hc : ∀ o ∈ chosen, o.Made V T) :
    Meets (fun r => (∀ o ∈ r.1, o.Made V T) ∧ Stack.Made V T r.2) (fun _ => True)
      (popBranches n stack chosen) := by
  induction n generalizing stack chosen with
  | zero => exact ⟨hc, hs⟩
  | succ n ih =>
    match stack, hs with
    | [], _ | [_], _ | _ :: .thunk _ :: _, _ => exact trivial
    | o :: .value flag :: stack, hs =>
      refine ih hs.tail.tail ?_
      split
      · intro p hp
        cases hp
        exact hs.head
      · exact hc

theorem popTested_made (tested : Bool) (hs : Stack.Made V T stack) :
    Meets (Stack.Made V T) (fun _ => True) (popTested tested stack) := by
  unfold popTested
  split
  · exact Meets.bind (popOperand_made hs) fun _ h => h.2
  · exact hs

/-! ### Instructions -/

theorem planOperator_made (op : String) {entry : Option Native} (n : Nat)
    (hs : Stack.Made V T stack) (he : ∀ f ∈ entry, V (.function (.native f))) :
    Meets (Plan.Made V T) (fun _ => True) (planOperator op entry n stack) := by
  unfold planOperator
  have hf : Meets (fun f => V (.function f)) (fun _ => True) (operator op entry) := by
    cases entry with
    | none => exact trivial
    | some f => exact he f rfl
  refine Meets.bind hf fun f hf => ?_
  refine Meets.bind (popValues_made n hs fun v hv => (List.not_mem_nil hv).elim) ?_
  rintro ⟨args, rest⟩ ⟨hargs, hrest⟩
  exact ⟨hf, hargs, hrest⟩

theorem planConnective_made (hP : Value.Fieldwise V) (op : String) (hs : Stack.Made V T stack) :
    Meets (Plan.Made V T) (fun _ => True) (planConnective op stack) := by
  unfold planConnective
  refine Meets.bind (popOperand_made hs) ?_
  rintro ⟨right, stack⟩ ⟨hright, hs⟩
  refine Meets.bind (popValue_made hs) ?_
  rintro ⟨left, stack⟩ ⟨_, hs⟩
  dsimp only
  split
  · exact Stack.Made.cons (hP.bool _) hs
  · exact ⟨hright, hs⟩

theorem planAssignment_made (hs : Stack.Made V T stack) :
    Meets (Plan.Made V T) (fun _ => True) (planAssignment lang stack) := by
  unfold planAssignment
  refine Meets.bind (popOperand_made hs) ?_
  rintro ⟨right, stack⟩ ⟨hright, hs⟩
  refine Meets.bind (popValue_made hs) ?_
  rintro ⟨target, stack⟩ ⟨_, hs⟩
  dsimp only
  split
  · exact trivial
  · exact ⟨hright, hs⟩

theorem planConditional_made (hs : Stack.Made V T stack) :
    Meets (Plan.Made V T) (fun _ => True) (planConditional stack) := by
  unfold planConditional
  refine Meets.bind (popOperand_made hs) ?_
  rintro ⟨no, stack⟩ ⟨hno, hs⟩
  refine Meets.bind (popOperand_made hs) ?_
  rintro ⟨yes, stack⟩ ⟨hyes, hs⟩
  refine Meets.bind (popValue_made hs) ?_
  rintro ⟨test, stack⟩ ⟨_, hs⟩
  refine ⟨?_, hs⟩
  split
  · exact hyes
  · exact hno

theorem planCall_made (argc : Nat) (hs : Stack.Made V T stack) :
    Meets (Plan.Made V T) (fun _ => True) (planCall argc stack) := by
  unfold planCall
  refine Meets.bind (popValues_made argc hs fun v hv => (List.not_mem_nil hv).elim) ?_
  rintro ⟨args, stack⟩ ⟨hargs, hs⟩
  refine Meets.bind (popValue_made hs) ?_
  rintro ⟨callee, stack⟩ ⟨hcallee, hs⟩
  cases callee with
  | function f => exact ⟨hcallee, hargs, hs⟩
  | _ => exact trivial

theorem planDefinition_made (paramc : Nat) (hs : Stack.Made V T stack) :
    Meets (Plan.Made V T) (fun _ => True) (planDefinition paramc stack) := by
  match stack, hs with
  | [], _ | .value _ :: _, _ => exact trivial
  | .thunk body :: stack, hs =>
    have hbody : T body := hs.head
    refine Meets.bind (popValues_made paramc hs.tail fun v hv => (List.not_mem_nil hv).elim) ?_
    rintro ⟨params, stack⟩ ⟨_, hs⟩
    refine Meets.bind (popValue_made hs) ?_
    rintro ⟨name, stack⟩ ⟨_, hs⟩
    exact ⟨hbody, hs⟩

theorem planChoice_made (hP : Value.Fieldwise V) (count : Nat) (tested : Bool) (hs : Stack.Made V T stack) :
    Meets (Plan.Made V T) (fun _ => True) (planChoice count tested stack) := by
  unfold planChoice
  refine Meets.bind (popBranches_made count hs fun o ho => by cases ho) ?_
  rintro ⟨chosen, stack⟩ ⟨hchosen, hs⟩
  dsimp only
  refine Meets.bind (popTested_made tested hs) fun below hb => ?_
  cases chosen with
  | some o => exact ⟨hchosen o rfl, hb⟩
  | none => exact Stack.Made.cons hP.undefined hb

theorem planFlag_made (hP : Value.Fieldwise V) (flag : Value → List Operand → Except EvalError Bool)
    (hs : Stack.Made V T stack) :
    Meets (Plan.Made V T) (fun _ => True) (planFlag stack flag) := by
  unfold planFlag
  refine Meets.bind (popOperand_made hs) ?_
  rintro ⟨value, stack⟩ ⟨hvalue, hs⟩
  refine Meets.bind (popValue_made hs) ?_
  rintro ⟨condition, stack⟩ ⟨_, hs⟩
  refine Meets.bind (Meets.any _) fun holds _ => ?_
  have hbool : (Operand.value (.bool holds)).Made V T := hP.bool holds
  exact Stack.Made.cons hvalue (Stack.Made.cons hbool hs)

theorem planMember_made (hP : Value.Fieldwise V) (name : String) (hs : Stack.Made V T stack) :
    Meets (Plan.Made V T) (fun _ => True) (planMember lang name stack) := by
  unfold planMember
  split
  · exact trivial
  · split
    · exact trivial
    · refine Meets.bind (popValue_made hs) ?_
      rintro ⟨base, stack⟩ ⟨hbase, hs⟩
      exact Stack.Made.cons (hP.toHereditary.member hbase name) hs

theorem planProperty_made (hP : Value.Fieldwise V) (key : String) (hs : Stack.Made V T stack) :
    Meets (Plan.Made V T) (fun _ => True) (planProperty key stack) := by
  unfold planProperty
  split
  · exact trivial
  · next hkey =>
    refine Meets.bind (popValue_made hs) ?_
    rintro ⟨v, stack⟩ ⟨hv, hs⟩
    dsimp only
    split
    · have hobject : V (.object _) := hs.head
      exact Stack.Made.cons (hP.insert hobject (Bool.eq_false_iff.mpr hkey) hv) hs.tail
    · exact trivial

end

/-- A plan is made of what the instruction, the stack and the language hold, and of what the name
that is read stands for. -/
theorem plan_made_of_read (hP : Value.Fieldwise V) {scope : Bindings} {i : Instruction Value}
    {stack : List Operand}
    (hread : ∀ name, i = .variable name → Meets V (fun _ => True) (lookup lang scope name))
    (hi : i.Made V T lang) (hs : Stack.Made V T stack) :
    Meets (Plan.Made V T) (fun _ => True) (plan lang scope i stack) := by
  have hn : ∀ f ∈ i.natives lang, V (.function (.native f)) := hi.natives
  cases i with
  | literal v => exact Stack.Made.cons (hi.literal v rfl) hs
  | target name => exact Stack.Made.cons (hP.string name) hs
  | undefined => exact Stack.Made.cons hP.undefined hs
  | group body => exact Stack.Made.cons (hi.group body rfl) hs
  | «variable» name =>
    exact Meets.bind (hread name rfl) fun v hv => Stack.Made.cons hv hs
  | unary op => exact planOperator_made op 1 hs fun f hf => hn f (Option.mem_toList.mpr hf)
  | binary op =>
    unfold plan planBinary
    dsimp only
    split
    · exact planConnective_made hP op hs
    · split
      · exact planAssignment_made hs
      · refine planOperator_made op 2 hs fun f hf => hn f ?_
        simp_all [Instruction.natives, Instruction.called?, Instruction.connectives]
  | ternary op =>
    unfold plan planTernary
    dsimp only
    split
    · exact planConditional_made hs
    · refine planOperator_made op 3 hs fun f hf => hn f ?_
      simp_all [Instruction.natives, Instruction.called?]
  | call argc => exact planCall_made argc hs
  | define paramc => exact planDefinition_made paramc hs
  | member name => exact planMember_made hP name hs
  | endStatement => exact Meets.bind (popOperand_made hs) fun _ h => h.2
  | array count =>
    refine Meets.bind (popValues_made count hs fun v hv => (List.not_mem_nil hv).elim) ?_
    rintro ⟨items, stack⟩ ⟨hitems, hs⟩
    exact Stack.Made.cons (hP.array hitems) hs
  | whenCond _ =>
    unfold plan
    exact planFlag_made hP _ hs
  | whenMatch k =>
    unfold plan
    exact planFlag_made hP _ hs
  | caseElse =>
    refine Meets.bind (popOperand_made hs) ?_
    rintro ⟨value, stack⟩ ⟨hvalue, hs⟩
    have hbool : (Operand.value (.bool true)).Made V T := hP.bool true
    exact Stack.Made.cons hvalue (Stack.Made.cons hbool hs)
  | caseMatch count => exact planChoice_made hP count true hs
  | caseCond count => exact planChoice_made hP count false hs
  | objectStart => exact Stack.Made.cons hP.empty hs
  | property key => exact planProperty_made hP key hs
  | objectEnd => exact hs

/-- A plan is made of what the instruction, the stack, the scope and the language hold. -/
theorem plan_made (hP : Value.Fieldwise V) {scope : Bindings} {i : Instruction Value}
    {stack : List Operand} (hresolve : ∀ name v, lang.resolve? name = some (.value v) → V v)
    (hscope : ∀ p ∈ scope, V p.2) (hi : i.Made V T lang) (hs : Stack.Made V T stack) :
    Meets (Plan.Made V T) (fun _ => True) (plan lang scope i stack) := by
  refine plan_made_of_read hP (fun name hname => ?_) hi hs
  subst hname
  exact (lookup_made hresolve hscope hi.natives).weaken fun _ _ => trivial

end Machine

/-! ### Guards -/

variable {g : Guard}

/-- Programs that obey a guard and may be run on a stack of their own. -/
def Program.Obeys (g : Guard) (lang : Language Value) (code : Program Value) : Prop :=
  g.body lang code ∧ ∀ i ∈ code, i.Obeys g lang

def Operand.Obeys (g : Guard) (lang : Language Value) : Operand → Prop
  | .value v => v.Obeys g
  | .thunk code => Program.Obeys g lang code

/-- Every operand of a stack obeys a guard. -/
def Stack.Obeys (g : Guard) (lang : Language Value) (stack : List Operand) : Prop :=
  ∀ o ∈ stack, o.Obeys g lang

def Frame.Obeys (g : Guard) (lang : Language Value) : Frame → Prop
  | .fill _ stack code | .push stack code =>
    Stack.Obeys g lang stack ∧ ∀ i ∈ code, i.Obeys g lang
  | .truth | .assign _ => True

namespace Stack.Obeys

variable {o : Operand} {stack : List Operand}

theorem cons (ho : o.Obeys g lang) (hs : Stack.Obeys g lang stack) :
    Stack.Obeys g lang (o :: stack) := List.forall_mem_cons.mpr ⟨ho, hs⟩

theorem head (h : Stack.Obeys g lang (o :: stack)) : o.Obeys g lang := h o (List.mem_cons_self ..)

theorem tail (h : Stack.Obeys g lang (o :: stack)) : Stack.Obeys g lang stack :=
  fun p hp => h p (List.mem_cons_of_mem _ hp)

theorem set (h : Stack.Obeys g lang stack) (d : Nat) (ho : o.Obeys g lang) :
    Stack.Obeys g lang (stack.set d o) := by
  intro p hp
  rcases List.mem_or_eq_of_mem_set hp with hp | hp
  · exact h p hp
  · exact hp ▸ ho

end Stack.Obeys

/-- The parts of a plan obey a guard. -/
def Machine.Plan.Obeys (g : Guard) (lang : Language Value) : Machine.Plan → Prop
  | .next stack => Stack.Obeys g lang stack
  | .resolve o _ stack => o.Obeys g lang ∧ Stack.Obeys g lang stack
  | .call f args stack => f.Obeys g ∧ (∀ v ∈ args, v.Obeys g) ∧ Stack.Obeys g lang stack
  | .define _ _ body stack => Program.Obeys g lang body ∧ Stack.Obeys g lang stack

theorem Operand.obeys_iff {o : Operand} :
    o.Obeys g lang ↔ o.Made (Value.Obeys g) (Program.Obeys g lang) := by
  cases o with
  | value v => exact Iff.rfl
  | thunk code => exact Iff.rfl

theorem Stack.obeys_iff {stack : List Operand} :
    Stack.Obeys g lang stack ↔ Stack.Made (Value.Obeys g) (Program.Obeys g lang) stack :=
  forall₂_congr fun _ _ => Operand.obeys_iff

theorem Instruction.Obeys.made {i : Instruction Value} (h : i.Obeys g lang) :
    i.Made (Value.Obeys g) (Program.Obeys g lang) lang where
  literal := by
    rintro v rfl
    exact h.ofLiteral
  group := by
    rintro body rfl
    exact h.ofGroup
  natives f hf := .function (.native (h.natives f hf))

theorem Machine.Plan.Made.obeys {p : Machine.Plan}
    (h : p.Made (Value.Obeys g) (Program.Obeys g lang)) : p.Obeys g lang := by
  cases p with
  | next stack => exact Stack.obeys_iff.mpr h
  | resolve o use stack => exact ⟨Operand.obeys_iff.mpr h.1, Stack.obeys_iff.mpr h.2⟩
  | call f args stack => exact ⟨h.1.ofFunction, h.2.1, Stack.obeys_iff.mpr h.2.2⟩
  | define name params body stack => exact ⟨h.1, Stack.obeys_iff.mpr h.2⟩

theorem Machine.plan_obeys {scope : Bindings} {i : Instruction Value} {stack : List Operand}
    (hlang : lang.Obeys g) (hscope : Bindings.Obeys g scope) (hi : i.Obeys g lang)
    (hs : Stack.Obeys g lang stack) :
    Meets (Plan.Obeys g lang) (fun _ => True) (plan lang scope i stack) :=
  (plan_made (Value.Obeys.partwise g).fieldwise (fun _ _ => hlang.resolve) hscope hi.made
    (Stack.obeys_iff.mp hs)).mono fun _ => Plan.Made.obeys

end Formula
