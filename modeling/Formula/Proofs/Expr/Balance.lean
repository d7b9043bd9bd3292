import Formula.Proofs.Machine.Shape

/-!
# Compiled programs are balanced

The program of an expression leaves the operands below it alone and adds one: a program not yet
run for a sequence of statements, a value for anything else.
-/

namespace Formula

namespace Machine

/-! ### The effects of single instructions -/

theorem needed_connective (c : Connective) : needed (.binary c.symbol) = [1] := by
  cases c <;> decide

theorem needed_binary {op : String} (hop : op ∉ Instruction.connectives) :
    needed (.binary op) = [1, 0] := by
  simp only [Instruction.connectives, List.mem_cons, List.not_mem_nil, or_false, not_or] at hop
  simp only [needed, hop, if_false, or_false]

theorem plan_binary {lang : Language Value} {op : String} (hop : op ∉ Instruction.connectives)
    (scope : Bindings) (stack : List Operand) : plan lang scope (.binary op) stack =
      planOperator op (lang.binaryOp? op) 2 stack := by
  simp only [Instruction.connectives, List.mem_cons, List.not_mem_nil, or_false, not_or] at hop
  simp only [plan, planBinary, hop, if_false, or_false]

theorem forced_range (n : Nat) (σ : List Shape) (h : n ≤ σ.length) :
    forced (List.range n).reverse σ = List.replicate n .value ++ σ.drop n := by
  unfold forced
  induction n generalizing σ with
  | zero => rfl
  | succ n ih =>
    have hlt : n < σ.length := h
    rw [List.range_succ, List.reverse_append, List.reverse_singleton, List.singleton_append,
      List.foldl_cons, ih _ (by rw [List.length_set]; omega), List.drop_set,
      if_neg (Nat.lt_irrefl n), Nat.sub_self, List.drop_eq_getElem_cons hlt, List.set_cons_zero,
      List.replicate_succ', List.append_assoc, List.singleton_append]

theorem dropValues_replicate (n : Nat) (σ : List Shape) :
    dropValues n (List.replicate n .value ++ σ) = some σ := by
  induction n with
  | zero => rfl
  | succ n ih => exact ih

attribute [local simp] effect needed forced planned dropValues

variable {σ : List Shape} {s t : Shape}

theorem effect_eq {i : Instruction Value} (ds : List Nat) (hn : needed i = ds)
    (hin : ∀ d ∈ ds, d < σ.length) : effect i σ = planned i (forced ds σ) := by
  subst hn
  exact if_pos hin

theorem effect_push {i : Instruction Value} (hn : needed i = [])
    (hp : planned i σ = some (.value :: σ)) : effect i σ = some (.value :: σ) := by
  rw [effect_eq [] hn fun d hd => (List.not_mem_nil hd).elim]
  exact hp

theorem effect_unary (op : String) : effect (.unary op) (s :: σ) = some (.value :: σ) := by
  simp

theorem effect_binary {op : String} (hop : op ∉ Instruction.connectives) :
    effect (.binary op) (s :: t :: σ) = some (.value :: σ) := by
  have hne : op ≠ "and" ∧ op ≠ "or" ∧ op ≠ "=" := by
    simpa [Instruction.connectives, not_or] using hop
  simp [hop, hne]

theorem effect_connective (c : Connective) :
    effect (.binary c.symbol) (s :: t :: σ) = some (.value :: σ) := by
  cases c <;> simp [Connective.symbol, Instruction.connectives]

theorem effect_assign : effect (.binary "=") (s :: .value :: σ) = some (.value :: σ) := by
  simp [Instruction.connectives]

theorem effect_conditional {u : Shape} :
    effect (.ternary "?") (s :: t :: u :: σ) = some (.value :: σ) := by
  simp

theorem effect_member (name : String) : effect (.member name) (s :: σ) = some (.value :: σ) := by
  simp

theorem effect_endStatement : effect .endStatement (s :: σ) = some σ := by
  simp

theorem effect_property (key : String) :
    effect (.property key) (s :: .object :: σ) = some (.object :: σ) := by
  simp

theorem effect_objectEnd : effect .objectEnd (.object :: σ) = some (.value :: σ) := by
  simp

theorem effect_caseElse : effect .caseElse (s :: σ) = some (s :: .value :: σ) := by
  simp

/-- The operands at the depths that an instruction with `n` operands needs. -/
theorem below_range {n : Nat} {args : List Shape} (h : args.length = n) :
    ∀ d ∈ (List.range n).reverse, d < (args ++ σ).length := by
  intro d hd
  have hlt : d < n := List.mem_range.mp (List.mem_reverse.mp hd)
  rw [List.length_append]
  omega

theorem effect_array (args : List Shape) :
    effect (.array args.length) (args ++ σ) = some (.value :: σ) := by
  rw [effect_eq (List.range args.length).reverse rfl (below_range rfl), planned,
    forced_range _ _ (by rw [List.length_append]; omega), List.drop_left, dropValues_replicate]
  rfl

theorem effect_call (args : List Shape) :
    effect (.call args.length) (args ++ s :: σ) = some (.value :: σ) := by
  have hsplit : args ++ s :: σ = (args ++ [s]) ++ σ := by
    rw [List.append_assoc, List.singleton_append]
  have hlength : (args ++ [s]).length = args.length + 1 := List.length_append
  rw [hsplit, effect_eq (List.range (args.length + 1)).reverse rfl (below_range hlength), planned,
    forced_range _ _ (by rw [List.length_append]; omega), ← hlength, List.drop_left, hlength,
    dropValues_replicate]
  rfl

theorem effects_targets (names : List String) (rest : Program Value) (σ : List Shape) :
    effects (names.map .target ++ rest) σ =
      effects rest (List.replicate names.length .value ++ σ) := by
  induction names generalizing σ with
  | nil => rfl
  | cons name names ih =>
    have htarget : effect (.target name) σ = some (.value :: σ) := effect_push rfl rfl
    rw [List.map_cons, List.cons_append, effects, htarget, Option.bind_some, ih,
      List.length_cons, List.replicate_succ', List.append_assoc, List.singleton_append]

theorem effect_define (n : Nat) :
    effect (.define n) (.thunk :: (List.replicate n .value ++ .value :: σ)) =
      some (.value :: σ) := by
  have hone : List.replicate n Shape.value ++ .value :: σ =
      List.replicate (n + 1) .value ++ σ := by
    rw [List.replicate_succ', List.append_assoc, List.singleton_append]
  rw [effect_eq [] rfl fun d hd => (List.not_mem_nil hd).elim, forced, List.foldl_nil, planned,
    hone, dropValues_replicate]
  rfl

/-! ### Branches -/

/-- The shapes above `σ` once `n` branches are on the stack. -/
def branchShapes : Nat → List Shape → List Shape
  | 0, σ => σ
  | n + 1, σ => .thunk :: .value :: branchShapes n σ

theorem length_branchShapes (n : Nat) (σ : List Shape) :
    (branchShapes n σ).length = 2 * n + σ.length := by
  induction n with
  | zero => exact (Nat.zero_add _).symm
  | succ n ih =>
    simp only [branchShapes, List.length_cons, ih]
    omega

theorem dropBranches_branchShapes (n : Nat) (σ : List Shape) :
    dropBranches n (branchShapes n σ) = some σ := by
  induction n with
  | zero => rfl
  | succ n ih => exact ih

theorem set_branchShapes (n : Nat) (σ : List Shape) (s t : Shape) :
    (branchShapes n (s :: σ)).set (2 * n) t = branchShapes n (t :: σ) := by
  induction n with
  | zero => rfl
  | succ n ih =>
    have h : 2 * (n + 1) = 2 * n + 1 + 1 := by omega
    rw [h]
    simp only [branchShapes, List.set_cons_succ, ih]

theorem effect_whenCond (k : Nat) :
    effect (.whenCond k) (.thunk :: s :: branchShapes k σ) = some (branchShapes (k + 1) σ) := by
  simp [branchShapes]

theorem effect_whenMatch (k : Nat) :
    effect (.whenMatch k) (.thunk :: s :: branchShapes k (t :: σ)) =
      some (branchShapes (k + 1) (.value :: σ)) := by
  have hlength := length_branchShapes k (t :: σ)
  have hneed : ∀ d ∈ needed (.whenMatch k),
      d < (Shape.thunk :: s :: branchShapes k (t :: σ)).length := by
    intro d hd
    simp only [needed, List.mem_cons, List.not_mem_nil, or_false] at hd
    simp only [List.length_cons] at hlength ⊢
    omega
  have hforced : forced (needed (.whenMatch k)) (.thunk :: s :: branchShapes k (t :: σ)) =
      .thunk :: .value :: branchShapes k (.value :: σ) := by
    simp only [forced, needed, List.foldl_cons, List.foldl_nil, List.set_cons_succ,
      set_branchShapes, List.set_cons_zero]
  have hbelow : 2 * k < (branchShapes k (.value :: σ)).length := by
    rw [length_branchShapes, List.length_cons]
    omega
  rw [effect_eq _ rfl hneed, hforced]
  simp only [planned, if_pos hbelow, branchShapes]

theorem effect_caseCond (n : Nat) :
    effect (.caseCond n) (branchShapes n σ) = some (.value :: σ) := by
  simp [dropBranches_branchShapes]

theorem effect_caseMatch (n : Nat) :
    effect (.caseMatch n) (branchShapes n (s :: σ)) = some (.value :: σ) := by
  simp [dropBranches_branchShapes]

end Machine

namespace Expr

/-- What the program of an expression leaves. -/
def shape : Expr → Shape
  | .sequence _ _ | .closed _ => .thunk
  | _ => .value

section

open Machine

theorem effects_compileOther (other : Option Expr) (k : Nat) (σ : List Shape) :
    effects (compileOther other) (branchShapes k σ) =
      some (branchShapes (k + otherCount other) σ) := by
  cases other with
  | none => rfl
  | some e =>
    have he : ∀ σ, effect (.group (compile e)) σ = some (.thunk :: σ) := fun _ => rfl
    rw [compileOther, effects, he, Option.bind_some, effects, effect_caseElse]
    rfl

mutual

theorem effects_compile : (e : Expr) → e.All (fun i => i.isStructural = false) →
    (σ : List Shape) → effects (compile e) σ = some (e.shape :: σ)
  | .literal _, _, _ => by rw [compile, effects, effect_push rfl rfl]; rfl
  | .undefined, _, _ => by rw [compile, effects, effect_push rfl rfl]; rfl
  | .variable _, _, _ => by rw [compile, effects, effect_push rfl rfl]; rfl
  | .unary op e, he, σ => by
    rw [compile, effects_append, effects_compile e he.2, Option.bind_some, effects, effect_unary]
    rfl
  | .binary op l r, he, σ => by
    have hop : op ∉ Instruction.connectives := by
      simpa [Instruction.isStructural] using he.1
    rw [compile, effects_append, effects_compile l he.2.1, Option.bind_some, effects_append,
      effects_compile r he.2.2, Option.bind_some, effects, effect_binary hop]
    rfl
  | .connective c l r, he, σ => by
    have hg : effect (.group (compile r)) (l.shape :: σ) = some (.thunk :: l.shape :: σ) := rfl
    rw [compile, effects_append, effects_compile l he.1, Option.bind_some, effects, hg,
      Option.bind_some, effects, effect_connective]
    rfl
  | .conditional t y n, he, σ => by
    have hy : effect (.group (compile y)) (t.shape :: σ) = some (.thunk :: t.shape :: σ) := rfl
    have hn : effect (.group (compile n)) (.thunk :: t.shape :: σ) =
        some (.thunk :: .thunk :: t.shape :: σ) := rfl
    rw [compile, effects_append, effects_compile t he.1, Option.bind_some, effects, hy,
      Option.bind_some, effects, hn, Option.bind_some, effects, effect_conditional]
    rfl
  | .assign root members v, _, σ => by
    have ht : effect (.target (path root members)) σ = some (.value :: σ) := rfl
    have hv : effect (.group (compile v)) (.value :: σ) = some (.thunk :: .value :: σ) := rfl
    rw [compile, effects, ht, Option.bind_some, effects, hv, Option.bind_some, effects,
      effect_assign]
    rfl
  | .define name params body, _, σ => by
    have ht : effect (.target name) σ = some (.value :: σ) := rfl
    have hb : ∀ σ, effect (.group (compile body)) σ = some (.thunk :: σ) := fun _ => rfl
    rw [compile, effects, ht, Option.bind_some, effects_targets, effects, hb, Option.bind_some,
      effects, effect_define]
    rfl
  | .call f args, he, σ => by
    have hc := effect_call (σ := σ) (s := f.shape) (args.map shape).reverse
    rw [List.length_reverse, List.length_map] at hc
    rw [compile, effects_append, effects_compile f he.1, Option.bind_some, effects_append,
      effects_compileItems args he.2, Option.bind_some, effects, hc]
    rfl
  | .member e name, he, σ => by
    rw [compile, effects_append, effects_compile e he, Option.bind_some, effects, effect_member]
    rfl
  | .array items, he, σ => by
    have ha := effect_array (σ := σ) (items.map shape).reverse
    rw [List.length_reverse, List.length_map] at ha
    rw [compile, effects_append, effects_compileItems items he, Option.bind_some, effects, ha]
    rfl
  | .object fields, he, σ => by
    have ho : effect .objectStart σ = some (.object :: σ) := rfl
    rw [compile, effects, ho, Option.bind_some, effects_append, effects_compileFields fields he,
      Option.bind_some, effects, effect_objectEnd]
    rfl
  | .case none branches other, he, σ => by
    have hb := effects_whenCond branches he.2.1 0 σ
    have ho := effects_compileOther other branches.length σ
    rw [branchShapes, Nat.zero_add] at hb
    rw [compile, effects_append, hb, Option.bind_some, effects_append, ho, Option.bind_some,
      effects, effect_caseCond]
    rfl
  | .case (some t) branches other, he, σ => by
    obtain ⟨u, hb⟩ := effects_whenMatch branches he.2.1 0 σ t.shape
    have ho := effects_compileOther other branches.length (u :: σ)
    rw [branchShapes, Nat.zero_add] at hb
    rw [compile, effects_append, effects_compile t he.1, Option.bind_some, effects_append, hb,
      Option.bind_some, effects_append, ho, Option.bind_some, effects, effect_caseMatch]
    rfl
  | .sequence _ _, _, _ => rfl
  | .closed _, _, _ => rfl

theorem effects_compileItems : (es : List Expr) → AllItems (fun i => i.isStructural = false) es →
    (σ : List Shape) → effects (compileItems es) σ = some ((es.map shape).reverse ++ σ)
  | [], _, _ => rfl
  | e :: rest, he, σ => by
    rw [compileItems, effects_append, effects_compile e he.1, Option.bind_some,
      effects_compileItems rest he.2, List.map_cons, List.reverse_cons, List.append_assoc,
      List.singleton_append]

theorem effects_compileFields : (fields : List (String × Expr)) →
    AllFields (fun i => i.isStructural = false) fields →
    (σ : List Shape) → effects (compileFields fields) (.object :: σ) = some (.object :: σ)
  | [], _, _ => rfl
  | (key, e) :: rest, he, σ => by
    rw [compileFields, effects_append, effects_compile e he.1, Option.bind_some, effects,
      effect_property, Option.bind_some, effects_compileFields rest he.2]

theorem effects_whenCond : (branches : List (Expr × Expr)) →
    AllBranches (fun i => i.isStructural = false) branches → (k : Nat) → (σ : List Shape) →
    effects (compileBranches .whenCond k branches) (branchShapes k σ) =
      some (branchShapes (k + branches.length) σ)
  | [], _, _, _ => rfl
  | (c, v) :: rest, he, k, σ => by
    have hv : ∀ σ, effect (.group (compile v)) σ = some (.thunk :: σ) := fun _ => rfl
    rw [compileBranches, effects_append, effects_compile c he.1, Option.bind_some, effects, hv,
      Option.bind_some, effects, effect_whenCond, Option.bind_some,
      effects_whenCond rest he.2.2 (k + 1) σ, List.length_cons, Nat.add_right_comm, Nat.add_assoc]

theorem effects_whenMatch : (branches : List (Expr × Expr)) →
    AllBranches (fun i => i.isStructural = false) branches → (k : Nat) → (σ : List Shape) →
    (s : Shape) → ∃ t, effects (compileBranches .whenMatch k branches) (branchShapes k (s :: σ)) =
      some (branchShapes (k + branches.length) (t :: σ))
  | [], _, _, _, s => ⟨s, rfl⟩
  | (c, v) :: rest, he, k, σ, s => by
    have hv : ∀ σ, effect (.group (compile v)) σ = some (.thunk :: σ) := fun _ => rfl
    obtain ⟨t, ht⟩ := effects_whenMatch rest he.2.2 (k + 1) σ .value
    refine ⟨t, ?_⟩
    rw [compileBranches, effects_append, effects_compile c he.1, Option.bind_some, effects, hv,
      Option.bind_some, effects, effect_whenMatch, Option.bind_some, ht, List.length_cons,
      Nat.add_right_comm, Nat.add_assoc]

end

/-- The program of a part leaves one operand on a stack of its own. -/
theorem part_balanced {first : Option Expr} {last : Expr}
    (hf : ∀ a ∈ first, a.All fun i => i.isStructural = false)
    (hl : last.All fun i => i.isStructural = false) : Balanced (part first last) := by
  refine ⟨last.shape, ?_⟩
  cases first with
  | none => exact effects_compile last hl []
  | some a =>
    rw [part, effects_append, effects_compile a (hf a rfl), Option.bind_some, effects,
      effect_endStatement, Option.bind_some, effects_compile last hl]

end

end Expr

end Formula
