import Formula.Proofs.Tree.Instructions

/-!
# Case blocks

The branches of a case block lie on the stack as their values, not yet evaluated, above flags. The
machine goes through them from the last to the first; the tree evaluator keeps the first branch
whose condition holds.
-/

namespace Formula

namespace Tree

/-- What branches leave on the stack, the last one on top. -/
def branchOperands : List (Bool × Expr) → List Operand
  | [] => []
  | (flag, e) :: rest => branchOperands rest ++ [.thunk e.compile, .value (.bool flag)]

/-- The value of the first branch whose flag holds. -/
def pick : List (Bool × Expr) → Option Expr
  | [] => none
  | (flag, e) :: rest => if flag then some e else pick rest

theorem branchOperands_length (bs : List (Bool × Expr)) :
    (branchOperands bs).length = 2 * bs.length := by
  induction bs with
  | nil => rfl
  | cons b bs ih =>
    rw [branchOperands, List.length_append, ih]
    simp only [List.length_cons, List.length_nil]
    omega

theorem branchOperands_append (bs cs : List (Bool × Expr)) :
    branchOperands (bs ++ cs) = branchOperands cs ++ branchOperands bs := by
  induction bs with
  | nil => rw [List.nil_append, branchOperands, List.append_nil]
  | cons b bs ih => rw [List.cons_append, branchOperands, ih, branchOperands, List.append_assoc]

theorem branchOperands_concat (bs : List (Bool × Expr)) (flag : Bool) (e : Expr)
    (stack : List Operand) : branchOperands (bs ++ [(flag, e)]) ++ stack =
      .thunk e.compile :: .value (.bool flag) :: (branchOperands bs ++ stack) := by
  rw [branchOperands_append, List.append_assoc]
  rfl

theorem pick_append (bs cs : List (Bool × Expr)) : pick (bs ++ cs) = (pick bs).or (pick cs) := by
  induction bs with
  | nil => rfl
  | cons b bs ih =>
    rw [List.cons_append, pick, pick, ih]
    cases b.1 with
    | true => rfl
    | false => rfl

/-- The operand below the branches. -/
theorem below_branches (bs : List (Bool × Expr)) (o : Operand) (stack : List Operand) :
    (branchOperands bs ++ o :: stack)[2 * bs.length]? = some o := by
  have hlength := branchOperands_length bs
  rw [List.getElem?_append_right (Nat.le_of_eq hlength), hlength, Nat.sub_self]
  rfl

theorem set_below_branches (bs : List (Bool × Expr)) (o new : Operand) (stack : List Operand) :
    (branchOperands bs ++ o :: stack).set (2 * bs.length) new =
      branchOperands bs ++ new :: stack := by
  have hlength := branchOperands_length bs
  rw [List.set_append_right _ _ (Nat.le_of_eq hlength), hlength, Nat.sub_self]
  rfl

/-- Popping branches finds the first one whose flag holds. -/
theorem popBranches_branches (bs : List (Bool × Expr)) (n : Nat) (stack : List Operand)
    (chosen : Option Operand) :
    Machine.popBranches (bs.length + n) (branchOperands bs ++ stack) chosen =
      Machine.popBranches n stack (((pick bs).map fun e => .thunk e.compile).or chosen) := by
  induction bs generalizing n stack chosen with
  | nil =>
    rw [List.length_nil, Nat.zero_add]
    rfl
  | cons b bs ih =>
    obtain ⟨flag, e⟩ := b
    have hlength : ((flag, e) :: bs).length + n = bs.length + (n + 1) := by
      simp only [List.length_cons]
      omega
    rw [hlength, branchOperands, List.append_assoc, ih]
    cases flag with
    | true => rfl
    | false => rfl

open Eval TreeEval

section

variable {g : Guard} {inner : Formula.Engine} {tree : Engine} {order : Order}
  {lang : Language Value} {depth : Nat} {rest : Program Value} {stack : List Operand}

/-- What the value for the rest adds to the branches. -/
def otherBranch (other : Option Expr) : List (Bool × Expr) := other.toList.map fun e => (true, e)

theorem run_other (other : Option Expr) (bs : List (Bool × Expr)) :
    Machine.run inner lang depth (Expr.compileOther other ++ rest) (branchOperands bs ++ stack) =
      Machine.run inner lang depth rest (branchOperands (bs ++ otherBranch other) ++ stack) := by
  cases other with
  | none => rw [otherBranch, Option.toList_none, List.map_nil, List.append_nil]; rfl
  | some e =>
    rw [otherBranch, Option.toList_some, List.map_cons, List.map_nil, branchOperands_concat,
      Expr.compileOther, List.cons_append, Machine.run_group]
    exact Machine.run_next rest rfl (fun _ => rfl) rfl

theorem pick_other (bs : List (Bool × Expr)) (other : Option Expr) :
    pick (bs ++ otherBranch other) = (pick bs).or other := by
  rw [pick_append]
  cases other with
  | none => rfl
  | some e => rfl

theorem otherBranch_length (other : Option Expr) :
    (otherBranch other).length = Expr.otherCount other := by
  cases other with
  | none => rfl
  | some e => rfl

theorem otherBranch_suitable {other : Option Expr} (h : ∀ e ∈ other, Suitable g lang order e) :
    ∀ b ∈ otherBranch other, Suitable g lang order b.2 := by
  cases other with
  | none => exact List.forall_mem_nil _
  | some e => exact List.forall_mem_singleton.mpr (h e rfl)

theorem suitable_option {other : Option Expr}
    (hall : Expr.AllOption (fun i => i.isStructural = false ∧ i.Obeys g lang) other)
    (hord : order = .asWritten → Expr.orderedOption other = true) :
    ∀ e ∈ other, Suitable g lang order e := by
  cases other with
  | none => exact fun a h => (Option.not_mem_none a h).elim
  | some e =>
    intro a ha
    cases ha
    exact ⟨hall, hord⟩

/-- A value that is picked among suitable ones is suitable. -/
theorem pick_suitable {bs : List (Bool × Expr)} (h : ∀ b ∈ bs, Suitable g lang order b.2) :
    ∀ e ∈ pick bs, Suitable g lang order e := by
  induction bs with
  | nil => exact fun a h => (Option.not_mem_none a h).elim
  | cons b bs ih =>
    obtain ⟨hb, hbs⟩ := List.forall_mem_cons.mp h
    rw [pick]
    split
    · intro e he
      cases he
      exact hb
    · exact ih hbs

/-! ### Branches -/

theorem agree_whenCond (hin : Mirrored g inner tree) (hlang : lang.Obeys g)
    (hadmits : Expr.Admits g lang) {n : Nat} {v : Program Value} {o : Late}
    (ho : o.Good g lang order) {k : Value → TreeEval Value}
    (h : ∀ c, Ready g c → Agree g
      (Machine.run inner lang depth rest (.thunk v :: .value (.bool c.truthy) :: stack)) (k c)) :
    Agree g (Machine.run inner lang depth (.whenCond n :: rest) (.thunk v :: o.operand :: stack))
      (force tree order lang depth o >>= k) := by
  rw [Machine.run_cons]
  refine agree_force (d := 1) hin hlang hadmits rfl ho fun c hc => ?_
  have hplan : ∀ scope, Machine.plan lang scope (.whenCond n) (.thunk v :: .value c :: stack) =
      .ok (.next (.thunk v :: .value (.bool c.truthy) :: stack)) := fun _ => rfl
  exact agree_next hplan rfl (h c hc)

theorem agree_whenMatch (hin : Mirrored g inner tree) (hlang : lang.Obeys g)
    (hadmits : Expr.Admits g lang) {bs : List (Bool × Expr)} {v : Program Value} {t o : Late}
    (ht : t.Good g lang order) (ho : o.Good g lang order) {k : Value → Value → TreeEval Value}
    (h : ∀ tested c, Ready g tested → Ready g c → Agree g
      (Machine.run inner lang depth rest (.thunk v :: .value (.bool (tested.equal c)) ::
        (branchOperands bs ++ .value tested :: stack))) (k tested c)) :
    Agree g (Machine.run inner lang depth (.whenMatch bs.length :: rest)
        (.thunk v :: o.operand :: (branchOperands bs ++ t.operand :: stack)))
      (force tree order lang depth t >>= fun tested =>
        force tree order lang depth o >>= fun c => k tested c) := by
  have hbelow : (.thunk v :: o.operand ::
      (branchOperands bs ++ t.operand :: stack))[2 * bs.length + 2]? = some t.operand :=
    below_branches bs t.operand stack
  rw [Machine.run_cons]
  refine agree_force (d := 2 * bs.length + 2) hin hlang hadmits hbelow ht fun tested htested => ?_
  rw [List.set_cons_succ, List.set_cons_succ, set_below_branches]
  refine agree_force (d := 1) hin hlang hadmits rfl ho fun c hc => ?_
  have hplan : ∀ scope, Machine.plan lang scope (.whenMatch bs.length)
      (.thunk v :: .value c :: (branchOperands bs ++ .value tested :: stack)) =
      .ok (.next (.thunk v :: .value (.bool (tested.equal c)) ::
        (branchOperands bs ++ .value tested :: stack))) := by
    intro scope
    have htop := below_branches bs (.value tested) stack
    simp only [Machine.plan, Machine.planFlag, Machine.popOperand, Machine.popValue, bind,
      Except.bind, htop]
    rfl
  exact agree_next hplan rfl (h tested c htested hc)

/-- The end of a case block: the value chosen among all branches, or nothing. -/
theorem agree_choose (hin : Mirrored g inner tree) (hlang : lang.Obeys g)
    (hadmits : Expr.Admits g lang) {i : Instruction Value} {below : List Operand}
    {chosen : Option Expr}
    (hp : ∀ scope, Machine.plan lang scope i below =
      .ok (match chosen with
        | some e => .resolve (.thunk e.compile) .keep stack
        | none => .next (.value .undefined :: stack)))
    (hchosen : ∀ e ∈ chosen, Suitable g lang order e) {k : Value → TreeEval Value}
    (h : ∀ v, Ready g v →
      Agree g (Machine.run inner lang depth rest (.value v :: stack)) (k v)) :
    Agree g (Machine.force inner lang depth [] below >>= Machine.afterForce inner lang depth i rest)
      (choose tree order lang depth chosen >>= k) := by
  cases chosen with
  | none => exact agree_next hp rfl (h .undefined ⟨.undefined, rfl⟩)
  | some e =>
    refine agree_plan hp (agree_lazily hin hlang hadmits (hchosen e rfl) .keep fun v hv => ?_)
    have hkeep : (Machine.Use.keep.apply v >>= fun u =>
        Machine.afterStep inner lang depth rest (.next (.value u :: stack))) =
        Machine.run inner lang depth rest (.value v :: stack) :=
      Machine.afterStep_value hv.2 rest stack
    rw [hkeep]
    exact h v hv

theorem plan_caseCond {bs : List (Bool × Expr)} {n : Nat} (hn : bs.length = n) (scope : Bindings) :
    Machine.plan lang scope (.caseCond n) (branchOperands bs ++ stack) =
      .ok (match pick bs with
        | some e => .resolve (.thunk e.compile) .keep stack
        | none => .next (.value .undefined :: stack)) := by
  have hpop := popBranches_branches bs 0 stack none
  rw [Nat.add_zero, hn] at hpop
  rw [Machine.plan, Machine.planChoice, hpop]
  cases pick bs with
  | none => rfl
  | some e => rfl

theorem plan_caseMatch {bs : List (Bool × Expr)} {n : Nat} (hn : bs.length = n) (o : Operand)
    (scope : Bindings) :
    Machine.plan lang scope (.caseMatch n) (branchOperands bs ++ o :: stack) =
      .ok (match pick bs with
        | some e => .resolve (.thunk e.compile) .keep stack
        | none => .next (.value .undefined :: stack)) := by
  have hpop := popBranches_branches bs 0 (o :: stack) none
  rw [Nat.add_zero, hn] at hpop
  rw [Machine.plan, Machine.planChoice, hpop]
  cases pick bs with
  | none => rfl
  | some e => rfl

end

end Tree

end Formula
