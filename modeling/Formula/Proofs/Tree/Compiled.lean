import Formula.Proofs.Tree.Cases
import Formula.Proofs.Tree.Operators

/-!
# Compiled expressions

The program of an expression leaves one operand above what the stack holds, as the tree evaluator
does in the expression's turn; then the rest of the program goes on as the rest of the evaluation
does. The induction follows the expression, and the rest of both sides is arbitrary.
-/

namespace Formula

namespace Tree

open Eval TreeEval

section

variable {g : Guard} {inner : Formula.Engine} {tree : Engine} {order : Order}
  {lang : Language Value} {depth : Nat} {rest : Program Value} {stack : List Operand}

/-- The rest of a program goes on with a pushed operand as the rest of an evaluation does. -/
def Pushes (g : Guard) (inner : Formula.Engine) (lang : Language Value) (depth : Nat)
    (order : Order) (rest : Program Value) (stack : List Operand) (k : Late → TreeEval Value) :
    Prop :=
  ∀ o : Late, o.Good g lang order →
    Agree g (Machine.run inner lang depth rest (o.operand :: stack)) (k o)

theorem Pushes.value {k : Late → TreeEval Value} (h : Pushes g inner lang depth order rest stack k)
    (v : Value) (hv : Ready g v) :
    Agree g (Machine.run inner lang depth rest (.value v :: stack)) (k (.known v)) :=
  h (.known v) hv

/-- What is asked of parts that are operands among others. -/
theorem ordered_operand {e : Expr} {b c : Bool} (he : order = .asWritten → c = true)
    (hc : c = ((!e.isSequence && e.ordered) && b)) :
    (order = .asWritten → e.isSequence = false) ∧ (order = .asWritten → e.ordered = true) ∧
      (order = .asWritten → b = true) := by
  subst hc
  refine ⟨fun h => ?_, fun h => ?_, fun h => ?_⟩ <;>
    · have hall := he h
      simp only [Bool.and_eq_true, Bool.not_eq_true'] at hall
      simp only [hall]

/-- The program of an expression pushes what the tree evaluator has in the expression's turn. -/
def Compiles (g : Guard) (inner : Formula.Engine) (tree : Engine) (order : Order)
    (lang : Language Value) (depth : Nat) (e : Expr) : Prop :=
  ∀ {rest : Program Value} {stack : List Operand} {k : Late → TreeEval Value},
    Pushes g inner lang depth order rest stack k →
    Agree g (Machine.run inner lang depth (e.compile ++ rest) stack)
      (late e (eval tree order lang depth e) >>= k)

/-- The programs of operands push them one after the other. -/
def ItemsCompile (g : Guard) (inner : Formula.Engine) (tree : Engine) (order : Order)
    (lang : Language Value) (depth : Nat) (es : List Expr) : Prop :=
  ∀ {rest : Program Value} {stack : List Operand} {k : List Late → TreeEval Value},
    (∀ os : List Late, os.length = es.length → (∀ o ∈ os, o.Good g lang order) →
      Agree g (Machine.run inner lang depth rest (os.reverse.map Late.operand ++ stack)) (k os)) →
    Agree g (Machine.run inner lang depth (Expr.compileItems es ++ rest) stack)
      (evalItems tree order lang depth es >>= k)

/-- The programs of fields put them into the object below. -/
def FieldsCompile (g : Guard) (inner : Formula.Engine) (tree : Engine) (order : Order)
    (lang : Language Value) (depth : Nat) (fields : List (String × Expr)) : Prop :=
  ∀ {acc : Record Value} {rest : Program Value} {stack : List Operand}
    {k : Value → TreeEval Value}, Bindings.Obeys g acc →
    (∀ all : Record Value, Bindings.Obeys g all →
      Agree g (Machine.run inner lang depth rest (.value (.object all) :: stack))
        (k (.object all))) →
    Agree g (Machine.run inner lang depth (Expr.compileFields fields ++ rest)
        (.value (.object acc) :: stack))
      (evalFields tree order lang depth acc fields >>= k)

/-- The programs of branches push their values above flags, after the branches `bs`. -/
def ConditionsCompile (g : Guard) (inner : Formula.Engine) (tree : Engine) (order : Order)
    (lang : Language Value) (depth : Nat) (branches : List (Expr × Expr)) : Prop :=
  ∀ {n : Nat} {bs : List (Bool × Expr)} {rest : Program Value} {stack : List Operand}
    {k : Option Expr → TreeEval Value},
    (∀ b ∈ bs, Suitable g lang order b.2) →
    (∀ all : List (Bool × Expr), all.length = bs.length + branches.length →
      (∀ b ∈ all, Suitable g lang order b.2) →
      Agree g (Machine.run inner lang depth rest (branchOperands all ++ stack)) (k (pick all))) →
    Agree g (Machine.run inner lang depth
        (Expr.compileBranches .whenCond n branches ++ rest) (branchOperands bs ++ stack))
      (evalConditions tree order lang depth (pick bs) branches >>= k)

/-- The programs of branches that are compared with a tested value below. -/
def MatchesCompile (g : Guard) (inner : Formula.Engine) (tree : Engine) (order : Order)
    (lang : Language Value) (depth : Nat) (branches : List (Expr × Expr)) : Prop :=
  ∀ {t : Late} {bs : List (Bool × Expr)} {rest : Program Value} {stack : List Operand}
    {k : Option Expr → TreeEval Value},
    t.Good g lang order → (∀ b ∈ bs, Suitable g lang order b.2) →
    (∀ (all : List (Bool × Expr)) (tested : Operand),
      all.length = bs.length + branches.length → (∀ b ∈ all, Suitable g lang order b.2) →
      Agree g (Machine.run inner lang depth rest (branchOperands all ++ tested :: stack))
        (k (pick all))) →
    Agree g (Machine.run inner lang depth (Expr.compileBranches .whenMatch bs.length branches ++ rest)
        (branchOperands bs ++ t.operand :: stack))
      (evalMatches tree order lang depth t (pick bs) branches >>= k)

theorem compiles_object {fields : List (String × Expr)}
    (hfields : FieldsCompile g inner tree order lang depth fields) :
    Compiles g inner tree order lang depth (.object fields) := by
  intro rest stack k hk
  have hstart : Machine.run inner lang depth ((Expr.object fields).compile ++ rest) stack =
      Machine.run inner lang depth (Expr.compileFields fields ++ (.objectEnd :: rest))
        (.value (.object []) :: stack) := by
    rw [Expr.compile, List.cons_append, List.append_assoc]
    exact Machine.run_next _ rfl (fun _ => rfl) rfl
  refine agree_known rfl ?_
  rw [eval, hstart]
  refine hfields (List.forall_mem_nil _) fun all hall => ?_
  rw [Machine.run_next rest rfl (fun _ => rfl) rfl]
  exact hk.value _ ⟨.object hall, rfl⟩

theorem items_compile_cons {e : Expr} {es : List Expr}
    (hall : Expr.AllItems (fun i => i.isStructural = false ∧ i.Obeys g lang) (e :: es))
    (hord : order = .asWritten → Expr.orderedItems (e :: es) = true)
    (he : Suitable g lang order e → Compiles g inner tree order lang depth e)
    (hes : (order = .asWritten → Expr.orderedItems es = true) →
      ItemsCompile g inner tree order lang depth es) :
    ItemsCompile g inner tree order lang depth (e :: es) := by
  intro rest stack k hk
  obtain ⟨hseq, heord, hesord⟩ := ordered_operand hord rfl
  rw [evalItems, Expr.compileItems, List.append_assoc, operand_eq hseq, bind_assoc]
  refine he ⟨hall.1, heord⟩ fun o ho => ?_
  rw [bind_assoc]
  refine hes hesord fun os hos hgood => ?_
  have hrest := hk (o :: os) (congrArg (· + 1) hos) (List.forall_mem_cons.mpr ⟨ho, hgood⟩)
  rwa [List.reverse_cons, List.map_append, List.append_assoc] at hrest

theorem compiles_literal {v : Value} (h : Suitable g lang order (.literal v)) :
    Compiles g inner tree order lang depth (.literal v) := by
  intro rest stack k hk
  refine agree_known rfl ?_
  rw [eval, Expr.compile, List.singleton_append]
  exact agree_literal h.obeys.2.ofLiteral hk.value

theorem compiles_undefined : Compiles g inner tree order lang depth .undefined := by
  intro rest stack k hk
  refine agree_known rfl ?_
  rw [eval, Expr.compile, List.singleton_append, Machine.run_next rest rfl (fun _ => rfl) rfl]
  exact hk.value .undefined ⟨.undefined, rfl⟩

theorem compiles_variable {name : String} (hlang : lang.Obeys g)
    (h : Suitable g lang order (.variable name)) :
    Compiles g inner tree order lang depth (.variable name) := by
  intro rest stack k hk
  refine agree_known rfl ?_
  rw [eval, Expr.compile, List.singleton_append, bind_assoc]
  simp only [bind_assoc]
  exact agree_variable hlang h.obeys.2 hk.value

theorem compiles_define {name : String} {params : List String} {body : Expr}
    (hlang : lang.Obeys g) (hadmits : Expr.Admits g lang)
    (h : Suitable g lang order (.define name params body)) :
    Compiles g inner tree order lang depth (.define name params body) := by
  intro rest stack k hk
  have hbody : body.Obeys g lang := h.obeys
  refine agree_known rfl ?_
  rw [eval]
  exact agree_define hlang hadmits hbody hk.value

theorem compiles_sequence {a b : Expr} (h : Suitable g lang order (.sequence a b)) :
    Compiles g inner tree order lang depth (.sequence a b) := by
  intro rest stack k hk
  have hord : order = .asWritten → a.ordered = true ∧ b.ordered = true := fun hw =>
    Bool.and_eq_true_iff.mp (h.ordered hw)
  have ha : Suitable g lang order a := ⟨h.obeys.1, fun hw => (hord hw).1⟩
  have hb : Suitable g lang order b := ⟨h.obeys.2, fun hw => (hord hw).2⟩
  have hfirst : ∀ c ∈ some a, Suitable g lang order c := by
    intro c hc
    cases hc
    exact ha
  rw [Expr.compile, List.singleton_append, Machine.run_group]
  exact hk (.later (some a) b) ⟨hfirst, hb⟩

theorem compiles_closed {a : Expr} (h : Suitable g lang order (.closed a)) :
    Compiles g inner tree order lang depth (.closed a) := by
  intro rest stack k hk
  have ha : Suitable g lang order a := ⟨h.obeys, h.ordered⟩
  rw [Expr.compile, List.singleton_append, Machine.run_group]
  exact hk (.later none a) ⟨(fun a h => (Option.not_mem_none a h).elim), ha⟩

theorem items_compile_nil : ItemsCompile g inner tree order lang depth [] := by
  intro rest stack k hk
  rw [evalItems]
  exact hk [] rfl (List.forall_mem_nil _)

theorem fields_compile_nil : FieldsCompile g inner tree order lang depth [] := by
  intro acc rest stack k hacc hk
  rw [evalFields]
  exact hk acc hacc

theorem conditions_compile_nil : ConditionsCompile g inner tree order lang depth [] := by
  intro n bs rest stack k hbs hk
  rw [evalConditions]
  exact hk bs rfl hbs

theorem matches_compile_nil : MatchesCompile g inner tree order lang depth [] := by
  intro t bs rest stack k _ hbs hk
  rw [evalMatches]
  exact hk bs t.operand rfl hbs

section

variable (hin : Mirrored g inner tree) (hlang : lang.Obeys g) (hadmits : Expr.Admits g lang)

include hin hlang hadmits

theorem compiles_unary {op : String} {e : Expr} (h : Suitable g lang order (.unary op e))
    (he : Suitable g lang order e → Compiles g inner tree order lang depth e) :
    Compiles g inner tree order lang depth (.unary op e) := by
  intro rest stack k hk
  refine agree_known rfl ?_
  rw [eval, Expr.compile, List.append_assoc, bind_assoc, eval_bind]
  refine he ⟨h.obeys.2, h.ordered⟩ fun o ho => ?_
  rw [List.singleton_append, Machine.run_cons]
  refine agree_force (d := 0) hin hlang hadmits rfl ho fun v hv => ?_
  exact agree_operator hin (fun _ _ => rfl) h.obeys.1.2.natives_unary rfl
    (List.forall_mem_singleton.mpr hv.1) hk.value

theorem compiles_binary {op : String} {l r : Expr} (h : Suitable g lang order (.binary op l r))
    (hl : Suitable g lang order l → Compiles g inner tree order lang depth l)
    (hr : Suitable g lang order r → Compiles g inner tree order lang depth r) :
    Compiles g inner tree order lang depth (.binary op l r) := by
  intro rest stack k hk
  obtain ⟨⟨hplain, hi⟩, hlobeys, hrobeys⟩ := h.obeys
  have hop : op ∉ Instruction.connectives := by simpa [Instruction.isStructural] using hplain
  obtain ⟨hlseq, hlord, hrest⟩ := ordered_operand h.ordered rfl
  obtain ⟨hrseq, hrord, _⟩ := ordered_operand hrest (Bool.and_true _).symm
  refine agree_known rfl ?_
  rw [eval, Expr.compile, List.append_assoc, operand_eq hlseq, bind_assoc]
  refine hl ⟨hlobeys, hlord⟩ fun o ho => ?_
  rw [List.append_assoc, operand_eq hrseq, bind_assoc]
  refine hr ⟨hrobeys, hrord⟩ fun p hp => ?_
  rw [List.singleton_append, Machine.run_cons, Machine.needed_binary hop, bind_assoc]
  refine agree_force (d := 1) hin hlang hadmits rfl ho fun a ha => ?_
  rw [bind_assoc]
  refine agree_force (d := 0) hin hlang hadmits rfl hp fun b hb => ?_
  have hargs : ∀ v ∈ [a, b], v.Obeys g :=
    List.forall_mem_cons.mpr ⟨ha.1, List.forall_mem_singleton.mpr hb.1⟩
  exact agree_operator hin (fun scope below => Machine.plan_binary hop scope below)
    (hi.natives_binary hop) rfl hargs hk.value

theorem compiles_connective {c : Connective} {l r : Expr}
    (h : Suitable g lang order (.connective c l r))
    (hl : Suitable g lang order l → Compiles g inner tree order lang depth l) :
    Compiles g inner tree order lang depth (.connective c l r) := by
  intro rest stack k hk
  have hord : order = .asWritten → l.ordered = true ∧ r.ordered = true := fun hw =>
    Bool.and_eq_true_iff.mp (h.ordered hw)
  have hr : Suitable g lang order r := ⟨h.obeys.2, fun hw => (hord hw).2⟩
  refine agree_known rfl ?_
  rw [eval, Expr.compile, List.append_assoc, bind_assoc, eval_bind]
  refine hl ⟨h.obeys.1, fun hw => (hord hw).1⟩ fun o ho => ?_
  rw [List.cons_append, Machine.run_group, List.singleton_append]
  exact agree_connective hin hlang hadmits hr ho hk.value

theorem compiles_conditional {t y n : Expr} (h : Suitable g lang order (.conditional t y n))
    (ht : Suitable g lang order t → Compiles g inner tree order lang depth t) :
    Compiles g inner tree order lang depth (.conditional t y n) := by
  intro rest stack k hk
  have hord : order = .asWritten → t.ordered = true ∧ y.ordered = true ∧ n.ordered = true := by
    intro hw
    obtain ⟨htest, hbranches⟩ := Bool.and_eq_true_iff.mp (h.ordered hw)
    exact ⟨htest, Bool.and_eq_true_iff.mp hbranches⟩
  have hy : Suitable g lang order y := ⟨h.obeys.2.1, fun hw => (hord hw).2.1⟩
  have hn : Suitable g lang order n := ⟨h.obeys.2.2, fun hw => (hord hw).2.2⟩
  refine agree_known rfl ?_
  rw [eval, Expr.compile, List.append_assoc, bind_assoc, eval_bind]
  refine ht ⟨h.obeys.1, fun hw => (hord hw).1⟩ fun o ho => ?_
  rw [List.cons_append, Machine.run_group, List.cons_append, Machine.run_group,
    List.singleton_append]
  exact agree_conditional hin hlang hadmits hy hn ho hk.value

theorem compiles_assign {root : String} {members : List String} {v : Expr}
    (h : Suitable g lang order (.assign root members v)) :
    Compiles g inner tree order lang depth (.assign root members v) := by
  intro rest stack k hk
  have hv : Suitable g lang order v := ⟨h.obeys, h.ordered⟩
  have hcompile : (Expr.assign root members v).compile ++ rest =
      .target (Expr.path root members) :: .group v.compile :: .binary "=" :: rest := by
    rw [Expr.compile]
    rfl
  refine agree_known rfl ?_
  rw [eval, hcompile, Machine.run_target, Machine.run_group]
  exact agree_assign hin hlang hadmits hv hk.value

theorem compiles_call {f : Expr} {args : List Expr} (h : Suitable g lang order (.call f args))
    (hf : Suitable g lang order f → Compiles g inner tree order lang depth f)
    (hargs : (order = .asWritten → Expr.orderedItems args = true) →
      ItemsCompile g inner tree order lang depth args) :
    Compiles g inner tree order lang depth (.call f args) := by
  intro rest stack k hk
  obtain ⟨hfseq, hford, hord⟩ := ordered_operand h.ordered rfl
  refine agree_known rfl ?_
  rw [eval, Expr.compile, List.append_assoc, operand_eq hfseq, bind_assoc]
  refine hf ⟨h.obeys.1, hford⟩ fun o ho => ?_
  rw [List.append_assoc, bind_assoc]
  refine hargs hord fun os hos hgood => ?_
  rw [List.singleton_append, ← hos, bind_assoc]
  simp only [bind_assoc]
  exact agree_invoke hin hlang hadmits ho hgood hk.value

theorem compiles_member {e : Expr} {name : String} (h : Suitable g lang order (.member e name))
    (he : Suitable g lang order e → Compiles g inner tree order lang depth e) :
    Compiles g inner tree order lang depth (.member e name) := by
  intro rest stack k hk
  refine agree_known rfl ?_
  rw [eval, Expr.compile, List.append_assoc, bind_assoc, eval_bind]
  refine he ⟨h.obeys, h.ordered⟩ fun o ho => ?_
  rw [List.singleton_append]
  exact agree_member hin hlang hadmits ho hk.value

theorem compiles_array {items : List Expr}
    (hitems : ItemsCompile g inner tree order lang depth items) :
    Compiles g inner tree order lang depth (.array items) := by
  intro rest stack k hk
  refine agree_known rfl ?_
  rw [eval, Expr.compile, List.append_assoc, bind_assoc]
  refine hitems fun os hos hgood => ?_
  rw [List.singleton_append, ← hos, bind_assoc]
  exact agree_items hin hlang hadmits hgood hk.value

theorem fields_compile_cons {key : String} {e : Expr} {fields : List (String × Expr)}
    (h : Expr.AllFields (fun i => i.isStructural = false ∧ i.Obeys g lang) ((key, e) :: fields))
    (hord : order = .asWritten → Expr.orderedFields ((key, e) :: fields) = true)
    (he : Suitable g lang order e → Compiles g inner tree order lang depth e)
    (hfields : (order = .asWritten → Expr.orderedFields fields = true) →
      FieldsCompile g inner tree order lang depth fields) :
    FieldsCompile g inner tree order lang depth ((key, e) :: fields) := by
  intro acc rest stack k hacc hk
  have hord : order = .asWritten → e.ordered = true ∧ Expr.orderedFields fields = true :=
    fun hw => Bool.and_eq_true_iff.mp (hord hw)
  rw [evalFields, Expr.compileFields, List.append_assoc, bind_assoc, eval_bind]
  refine he ⟨h.1, fun hw => (hord hw).1⟩ fun o ho => ?_
  refine agree_field hin hlang hadmits ho fun v hv => ?_
  exact hfields (fun hw => (hord hw).2) (Bindings.Obeys.insert hacc key hv.1) hk

theorem conditions_compile_cons {c v : Expr} {branches : List (Expr × Expr)}
    (h : Expr.AllBranches (fun i => i.isStructural = false ∧ i.Obeys g lang) ((c, v) :: branches))
    (hord : order = .asWritten → Expr.orderedBranches ((c, v) :: branches) = true)
    (hc : Suitable g lang order c → Compiles g inner tree order lang depth c)
    (hbranches : (order = .asWritten → Expr.orderedBranches branches = true) →
      ConditionsCompile g inner tree order lang depth branches) :
    ConditionsCompile g inner tree order lang depth ((c, v) :: branches) := by
  intro n bs rest stack k hbs hk
  obtain ⟨_, hcord, hrest⟩ := ordered_operand hord rfl
  have hord : order = .asWritten → v.ordered = true ∧ Expr.orderedBranches branches = true :=
    fun hw => Bool.and_eq_true_iff.mp (hrest hw)
  have hv : Suitable g lang order v := ⟨h.2.1, fun hw => (hord hw).1⟩
  rw [evalConditions, Expr.compileBranches, List.append_assoc, bind_assoc, eval_bind]
  refine hc ⟨h.1, hcord⟩ fun o ho => ?_
  rw [List.cons_append, Machine.run_group, List.cons_append]
  refine agree_whenCond hin hlang hadmits ho fun test _ => ?_
  have hpick : pick (bs ++ [(test.truthy, v)]) =
      (pick bs).or (if test.truthy then some v else none) := pick_append _ _
  have hall : ∀ b ∈ bs ++ [(test.truthy, v)], Suitable g lang order b.2 :=
    List.forall_mem_append.mpr ⟨hbs, List.forall_mem_singleton.mpr hv⟩
  rw [← hpick, ← branchOperands_concat]
  refine hbranches (fun hw => (hord hw).2) hall fun all hlength hsuit => hk all ?_ hsuit
  rw [hlength, List.length_append]
  simp only [List.length_cons, List.length_nil]
  omega

theorem matches_compile_cons {c v : Expr} {branches : List (Expr × Expr)}
    (h : Expr.AllBranches (fun i => i.isStructural = false ∧ i.Obeys g lang) ((c, v) :: branches))
    (hord : order = .asWritten → Expr.orderedBranches ((c, v) :: branches) = true)
    (hc : Suitable g lang order c → Compiles g inner tree order lang depth c)
    (hbranches : (order = .asWritten → Expr.orderedBranches branches = true) →
      MatchesCompile g inner tree order lang depth branches) :
    MatchesCompile g inner tree order lang depth ((c, v) :: branches) := by
  intro t bs rest stack k ht hbs hk
  obtain ⟨hseq, hcord, hrest⟩ := ordered_operand hord rfl
  have hord : order = .asWritten → v.ordered = true ∧ Expr.orderedBranches branches = true :=
    fun hw => Bool.and_eq_true_iff.mp (hrest hw)
  have hv : Suitable g lang order v := ⟨h.2.1, fun hw => (hord hw).1⟩
  rw [evalMatches, Expr.compileBranches, List.append_assoc, bind_assoc, operand_eq hseq]
  refine hc ⟨h.1, hcord⟩ fun o ho => ?_
  rw [List.cons_append, Machine.run_group, List.cons_append]
  simp only [bind_assoc]
  refine agree_whenMatch hin hlang hadmits ht ho fun tested test htested _ => ?_
  have hpick : pick (bs ++ [(tested.equal test, v)]) =
      (pick bs).or (if tested.equal test then some v else none) := pick_append _ _
  have hall : ∀ b ∈ bs ++ [(tested.equal test, v)], Suitable g lang order b.2 :=
    List.forall_mem_append.mpr ⟨hbs, List.forall_mem_singleton.mpr hv⟩
  have hcount : (bs ++ [(tested.equal test, v)]).length = bs.length + 1 := by
    rw [List.length_append]
    rfl
  rw [← hpick, ← branchOperands_concat, ← hcount]
  refine @hbranches (fun hw => (hord hw).2) (.known tested) _ _ _ _ htested hall ?_
  intro all below hlength hsuit
  refine hk all below ?_ hsuit
  rw [hlength, hcount, List.length_cons]
  omega

theorem compiles_case {branches : List (Expr × Expr)} {other : Option Expr}
    (h : Suitable g lang order (.case none branches other))
    (hbranches : (order = .asWritten → Expr.orderedBranches branches = true) →
      ConditionsCompile g inner tree order lang depth branches) :
    Compiles g inner tree order lang depth (.case none branches other) := by
  intro rest stack k hk
  have hord : order = .asWritten → Expr.orderedBranches branches = true ∧
      Expr.orderedOption other = true := fun hw => Bool.and_eq_true_iff.mp (h.ordered hw)
  have hother := suitable_option h.obeys.2.2 fun hw => (hord hw).2
  refine agree_known rfl ?_
  rw [eval, Expr.compile, List.append_assoc, bind_assoc]
  refine @hbranches (fun hw => (hord hw).1) 0 [] _ stack _ (List.forall_mem_nil _) ?_
  intro all hlength hsuit
  have hcount : (all ++ otherBranch other).length =
      branches.length + Expr.otherCount other := by
    rw [List.length_append, hlength, otherBranch_length, List.length_nil, Nat.zero_add]
  have hall := List.forall_mem_append.mpr ⟨hsuit, otherBranch_suitable hother⟩
  rw [List.append_assoc, run_other, List.singleton_append, Machine.run_cons, ← pick_other]
  exact agree_choose hin hlang hadmits (fun scope => plan_caseCond hcount scope)
    (pick_suitable hall) hk.value

theorem compiles_case_tested {t : Expr} {branches : List (Expr × Expr)} {other : Option Expr}
    (h : Suitable g lang order (.case (some t) branches other))
    (ht : Suitable g lang order t → Compiles g inner tree order lang depth t)
    (hbranches : (order = .asWritten → Expr.orderedBranches branches = true) →
      MatchesCompile g inner tree order lang depth branches) :
    Compiles g inner tree order lang depth (.case (some t) branches other) := by
  intro rest stack k hk
  obtain ⟨hseq, htord, hrest⟩ := ordered_operand h.ordered rfl
  have hord : order = .asWritten → Expr.orderedBranches branches = true ∧
      Expr.orderedOption other = true := fun hw => Bool.and_eq_true_iff.mp (hrest hw)
  have hother := suitable_option h.obeys.2.2 fun hw => (hord hw).2
  refine agree_known rfl ?_
  rw [eval, Expr.compile, List.append_assoc, operand_eq hseq, bind_assoc]
  refine ht ⟨h.obeys.1, htord⟩ fun o ho => ?_
  rw [List.append_assoc, bind_assoc]
  refine @hbranches (fun hw => (hord hw).1) o [] _ stack _ ho (List.forall_mem_nil _) ?_
  intro all tested hlength hsuit
  have hcount : (all ++ otherBranch other).length =
      branches.length + Expr.otherCount other := by
    rw [List.length_append, hlength, otherBranch_length, List.length_nil, Nat.zero_add]
  have hall := List.forall_mem_append.mpr ⟨hsuit, otherBranch_suitable hother⟩
  rw [List.append_assoc, run_other, List.singleton_append, Machine.run_cons, ← pick_other]
  exact agree_choose hin hlang hadmits (fun scope => plan_caseMatch hcount tested scope)
    (pick_suitable hall) hk.value

-- the lists of operands need the section's hypotheses through the expressions in them
set_option linter.unusedSectionVars false in
mutual

theorem compiles : (e : Expr) → Suitable g lang order e → Compiles g inner tree order lang depth e
  | .literal _, h => compiles_literal h
  | .undefined, _ => compiles_undefined
  | .variable _, h => compiles_variable hlang h
  | .unary _ e, h => compiles_unary hin hlang hadmits h (compiles e)
  | .binary _ l r, h => compiles_binary hin hlang hadmits h (compiles l) (compiles r)
  | .connective _ l _, h => compiles_connective hin hlang hadmits h (compiles l)
  | .conditional t _ _, h => compiles_conditional hin hlang hadmits h (compiles t)
  | .assign _ _ _, h => compiles_assign hin hlang hadmits h
  | .define _ _ _, h => compiles_define hlang hadmits h
  | .call f args, h =>
    compiles_call hin hlang hadmits h (compiles f) (items_compile args h.obeys.2)
  | .member e _, h => compiles_member hin hlang hadmits h (compiles e)
  | .array items, h => compiles_array hin hlang hadmits (items_compile items h.obeys h.ordered)
  | .object fields, h => compiles_object (fields_compile fields h.obeys h.ordered)
  | .case none branches _, h =>
    compiles_case hin hlang hadmits h (conditions_compile branches h.obeys.2.1)
  | .case (some t) branches _, h =>
    compiles_case_tested hin hlang hadmits h (compiles t) (matches_compile branches h.obeys.2.1)
  | .sequence _ _, h => compiles_sequence h
  | .closed _, h => compiles_closed h

theorem items_compile : (es : List Expr) →
    Expr.AllItems (fun i => i.isStructural = false ∧ i.Obeys g lang) es →
    (order = .asWritten → Expr.orderedItems es = true) →
    ItemsCompile g inner tree order lang depth es
  | [], _, _ => items_compile_nil
  | e :: es, h, hord => items_compile_cons h hord (compiles e) (items_compile es h.2)

theorem fields_compile : (fields : List (String × Expr)) →
    Expr.AllFields (fun i => i.isStructural = false ∧ i.Obeys g lang) fields →
    (order = .asWritten → Expr.orderedFields fields = true) →
    FieldsCompile g inner tree order lang depth fields
  | [], _, _ => fields_compile_nil
  | (_, e) :: fields, h, hord =>
    fields_compile_cons hin hlang hadmits h hord (compiles e) (fields_compile fields h.2)

theorem conditions_compile : (branches : List (Expr × Expr)) →
    Expr.AllBranches (fun i => i.isStructural = false ∧ i.Obeys g lang) branches →
    (order = .asWritten → Expr.orderedBranches branches = true) →
    ConditionsCompile g inner tree order lang depth branches
  | [], _, _ => conditions_compile_nil
  | (c, _) :: branches, h, hord =>
    conditions_compile_cons hin hlang hadmits h hord (compiles c)
      (conditions_compile branches h.2.2)

theorem matches_compile : (branches : List (Expr × Expr)) →
    Expr.AllBranches (fun i => i.isStructural = false ∧ i.Obeys g lang) branches →
    (order = .asWritten → Expr.orderedBranches branches = true) →
    MatchesCompile g inner tree order lang depth branches
  | [], _, _ => matches_compile_nil
  | (c, _) :: branches, h, hord =>
    matches_compile_cons hin hlang hadmits h hord (compiles c) (matches_compile branches h.2.2)

end

end

end

end Tree

end Formula
