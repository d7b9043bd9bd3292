import Formula.Proofs.Machine.Steps
import Formula.Proofs.Tree.Agreement

/-!
# Instructions and syntax

What one instruction does with the operands on top of the stack is what the evaluator does at the
syntax the instruction was compiled from, whatever the rest of the program and of the evaluation
is. Operands are brought to values in the same order on both sides.
-/

namespace Formula

namespace Tree

open Eval TreeEval

/-- What an operand is on the stack of the machine. -/
def Late.operand : Late → Operand
  | .known v => .value v
  | .later first last => .thunk (Expr.part first last)

/-- An expression that obeys the guard, and whose operands the order evaluates in the machine's
order: no sequence stands among them unless sequences come last. -/
structure Suitable (g : Guard) (lang : Language Value) (order : Order) (e : Expr) : Prop where
  obeys : e.Obeys g lang
  ordered : order = .asWritten → e.ordered = true

def Late.Good (g : Guard) (lang : Language Value) (order : Order) : Late → Prop
  | .known v => Ready g v
  | .later first last => (∀ a ∈ first, Suitable g lang order a) ∧ Suitable g lang order last

/-- An engine of the machine that does what one for trees does. -/
structure Mirrored (g : Guard) (inner : Formula.Engine) (tree : Engine) : Prop where
  sound : inner.Sound g
  part : ∀ {order lang depth first last}, lang.Obeys g →
    (∀ a ∈ first, Suitable g lang order a) → Suitable g lang order last →
    Agree g (inner.enter lang depth (Expr.part first last))
      (tree.part order lang depth first last)
  call : ∀ {depth f args}, f.Obeys g → (∀ v ∈ args, v.Obeys g) →
    Mirrors g (inner.call depth f args) (lift (tree.call depth f args))

section

variable {g : Guard} {inner : Formula.Engine} {tree : Engine} {order : Order}
  {lang : Language Value} {depth : Nat} {rest : Program Value} {stack : List Operand}

theorem agree_fail (e : EvalError) (k : Value → TreeEval Value) :
    Agree g (Eval.fail e) (TreeEval.fail e >>= k) :=
  fun _ _ _ he => ⟨congrArg _ he, fun _ hv => by cases hv⟩

/-- A value is pushed: the run waits if it is deferred. -/
theorem agree_push {v : Value} (hv : v.Obeys g) {k : Value → TreeEval Value}
    (h : Ready g v → Agree g (Machine.run inner lang depth rest (.value v :: stack)) (k v)) :
    Agree g (Machine.afterStep inner lang depth rest (.next (.value v :: stack)))
      (check v >>= k) := by
  cases v with
  | deferred id => exact fun _ _ _ he => ⟨congrArg _ he, fun _ hv => by cases hv⟩
  | _ => exact h ⟨hv, rfl⟩

/-- An operand is brought to a value. -/
theorem agree_force (hin : Mirrored g inner tree) (hlang : lang.Obeys g)
    (hadmits : Expr.Admits g lang) {i : Instruction Value} {d : Nat} {ds : List Nat} {o : Late}
    (hd : stack[d]? = some o.operand) (ho : o.Good g lang order) {k : Value → TreeEval Value}
    (h : ∀ v, Ready g v → Agree g
      (Machine.force inner lang depth ds (stack.set d (.value v)) >>=
        Machine.afterForce inner lang depth i rest) (k v)) :
    Agree g (Machine.force inner lang depth (d :: ds) stack >>=
      Machine.afterForce inner lang depth i rest)
      (force tree order lang depth o >>= k) := by
  cases o with
  | known v =>
    have hsame : stack.set d (.value v) = stack := by
      obtain ⟨hlt, hv⟩ := List.getElem?_eq_some_iff.mp hd
      show stack.set d (Late.known v).operand = stack
      rw [← hv, List.set_getElem_self]
    have hforce : Machine.force inner lang depth (d :: ds) stack =
        Machine.force inner lang depth ds stack := by
      rw [Machine.force, hd]
      cases v with
      | deferred id => cases ho.2
      | _ => rfl
    rw [hforce, force, pure_bind]
    have hrest := h v ho
    rwa [hsame] at hrest
  | later first last =>
    have hcode : Program.Obeys g lang (Expr.part first last) :=
      Expr.part_obeys hadmits (fun a ha => (ho.1 a ha).obeys) ho.2.obeys
    rw [Machine.force_thunk hd, bind_assoc]
    refine Agree.bind (hin.part hlang ho.1 ho.2) (hin.sound.enter hlang hcode) ?_ h
    exact fun frames on => ⟨_, rfl⟩

/-- All of several operands are brought to values, from the first to the last. -/
theorem agree_forceAll (hin : Mirrored g inner tree) (hlang : lang.Obeys g)
    (hadmits : Expr.Admits g lang) {i : Instruction Value} {os : List Late}
    (hos : ∀ o ∈ os, o.Good g lang order) {k : List Value → TreeEval Value}
    (h : ∀ vs, vs.length = os.length → (∀ v ∈ vs, Ready g v) → Agree g
      (Machine.force inner lang depth [] (vs.reverse.map .value ++ stack) >>=
        Machine.afterForce inner lang depth i rest) (k vs)) :
    Agree g (Machine.force inner lang depth (List.range os.length).reverse
        (os.reverse.map Late.operand ++ stack) >>= Machine.afterForce inner lang depth i rest)
      (forceAll tree order lang depth os >>= k) := by
  induction os generalizing stack k with
  | nil => exact h [] rfl fun _ hv => (List.not_mem_nil hv).elim
  | cons o os ih =>
    obtain ⟨ho, hos⟩ := List.forall_mem_cons.mp hos
    have hdepths : (List.range (o :: os).length).reverse =
        os.length :: (List.range os.length).reverse := by
      rw [List.length_cons, List.range_succ, List.reverse_append]
      rfl
    have hstack : (o :: os).reverse.map Late.operand ++ stack =
        os.reverse.map Late.operand ++ o.operand :: stack := by
      rw [List.reverse_cons, List.map_append, List.append_assoc]
      rfl
    have hlength : (os.reverse.map Late.operand).length = os.length := by
      rw [List.length_map, List.length_reverse]
    have htop : (os.reverse.map Late.operand ++ o.operand :: stack)[os.length]? =
        some o.operand := by
      rw [List.getElem?_append_right (Nat.le_of_eq hlength), hlength, Nat.sub_self]
      rfl
    have hall : forceAll tree order lang depth (o :: os) >>= k =
        force tree order lang depth o >>= fun v =>
          forceAll tree order lang depth os >>= fun vs => k (v :: vs) := by
      simp only [forceAll, bind_assoc, pure_bind]
    rw [hdepths, hstack, hall]
    refine agree_force hin hlang hadmits htop ho fun v hv => ?_
    have hset : (os.reverse.map Late.operand ++ o.operand :: stack).set os.length (.value v) =
        os.reverse.map Late.operand ++ .value v :: stack := by
      rw [List.set_append_right _ _ (Nat.le_of_eq hlength), hlength, Nat.sub_self]
      rfl
    rw [hset]
    refine ih hos fun vs hvs hready => ?_
    have hrest := h (v :: vs) (congrArg (· + 1) hvs) (List.forall_mem_cons.mpr ⟨hv, hready⟩)
    rwa [List.reverse_cons, List.map_append, List.append_assoc] at hrest

/-- An instruction whose needed operands are values has a plan. -/
theorem agree_plan {i : Instruction Value} {p : Machine.Plan}
    (hp : ∀ scope, Machine.plan lang scope i stack = .ok p) {t : TreeEval Value}
    (h : Agree g (Machine.perform inner lang depth p >>= Machine.afterStep inner lang depth rest)
      t) :
    Agree g (Machine.force inner lang depth [] stack >>= Machine.afterForce inner lang depth i rest)
      t := by
  have hstep : Machine.force inner lang depth [] stack >>=
      Machine.afterForce inner lang depth i rest =
        Machine.step inner lang depth i stack >>= Machine.afterStep inner lang depth rest := rfl
  rw [hstep, Machine.step_eq hp]
  exact h

theorem agree_next {i : Instruction Value} {new : List Operand}
    (hp : ∀ scope, Machine.plan lang scope i stack = .ok (.next new))
    (hafter : Machine.afterStep inner lang depth rest (.next new) =
      Machine.run inner lang depth rest new) {t : TreeEval Value}
    (h : Agree g (Machine.run inner lang depth rest new) t) :
    Agree g (Machine.force inner lang depth [] stack >>= Machine.afterForce inner lang depth i rest)
      t := by
  have hperform : Machine.perform inner lang depth (.next new) >>=
      Machine.afterStep inner lang depth rest = Machine.run inner lang depth rest new := hafter
  refine agree_plan hp ?_
  rw [hperform]
  exact h

theorem agree_plan_fail {i : Instruction Value} {e : EvalError}
    (hp : ∀ scope, Machine.plan lang scope i stack = .error e) (k : Value → TreeEval Value) :
    Agree g (Machine.force inner lang depth [] stack >>= Machine.afterForce inner lang depth i rest)
      (TreeEval.fail e >>= k) := by
  have hstep : Machine.force inner lang depth [] stack >>=
      Machine.afterForce inner lang depth i rest =
        Machine.step inner lang depth i stack >>= Machine.afterStep inner lang depth rest := rfl
  rw [hstep, Machine.step_fail hp]
  exact agree_fail e k

/-! ### Calls -/

theorem agree_call (hin : Mirrored g inner tree) {f : Function Value} (hf : f.Obeys g)
    {args : List Value} (hargs : ∀ v ∈ args, v.Obeys g) {k : Value → TreeEval Value}
    (h : ∀ v, Ready g v →
      Agree g (Machine.run inner lang depth rest (.value v :: stack)) (k v)) :
    Agree g (Machine.perform inner lang depth (.call f args stack) >>=
      Machine.afterStep inner lang depth rest)
      (lift (tree.call depth f args) >>= fun v => check v >>= k) := by
  have hperform : Machine.perform inner lang depth (.call f args stack) >>=
      Machine.afterStep inner lang depth rest =
        inner.call depth f args >>= fun v =>
          Machine.afterStep inner lang depth rest (.next (.value v :: stack)) := by
    rw [Machine.perform, bind_assoc]
    rfl
  rw [hperform]
  exact Mirrors.agree (hin.call hf hargs) (hin.sound.call hf hargs) fun v hv =>
    agree_push hv fun hready => h v hready

theorem agree_operator (hin : Mirrored g inner tree) {i : Instruction Value} {op : String}
    {entry : Option Native} {args : List Value} {n : Nat}
    (hp : ∀ scope below, Machine.plan lang scope i below = Machine.planOperator op entry n below)
    (hentry : ∀ f ∈ entry, g.native f) (hn : args.length = n) (hargs : ∀ v ∈ args, v.Obeys g)
    {k : Value → TreeEval Value}
    (h : ∀ v, Ready g v →
      Agree g (Machine.run inner lang depth rest (.value v :: stack)) (k v)) :
    Agree g (Machine.force inner lang depth [] (args.reverse.map .value ++ stack) >>=
      Machine.afterForce inner lang depth i rest)
      (apply tree depth op entry args >>= k) := by
  have hpop : Machine.popValues n (args.reverse.map .value ++ stack) [] = .ok (args, stack) :=
    hn ▸ Machine.popValues_reverse args stack
  cases entry with
  | none => exact agree_plan_fail (fun scope => by rw [hp]; rfl) k
  | some f =>
    have happly : apply tree depth op (some f) args >>= k =
        lift (tree.call depth (.native f) args) >>= fun v => check v >>= k := by
      have : apply tree depth op (some f) args =
          lift (tree.call depth (.native f) args) >>= check := rfl
      rw [this, bind_assoc]
    have hplan : ∀ scope, Machine.plan lang scope i (args.reverse.map .value ++ stack) =
        .ok (.call (.native f) args stack) := by
      intro scope
      rw [hp, Machine.planOperator, hpop]
      rfl
    rw [happly]
    exact agree_plan hplan (agree_call hin (.native (hentry f rfl)) hargs h)

/-! ### Lazily evaluated expressions -/

theorem agree_lazily (hin : Mirrored g inner tree) (hlang : lang.Obeys g)
    (hadmits : Expr.Admits g lang) {e : Expr} (he : Suitable g lang order e) (use : Machine.Use)
    {k : Value → TreeEval Value}
    (h : ∀ v, Ready g v → Agree g (use.apply v >>= fun u =>
      Machine.afterStep inner lang depth rest (.next (.value u :: stack))) (k v)) :
    Agree g (Machine.perform inner lang depth (.resolve (.thunk e.compile) use stack) >>=
      Machine.afterStep inner lang depth rest)
      (lazily tree order lang depth e >>= k) := by
  have hnone : ∀ a ∈ (none : Option Expr), Suitable g lang order a :=
    fun a h => (Option.not_mem_none a h).elim
  have hcode : Program.Obeys g lang (Expr.part none e) :=
    Expr.part_obeys hadmits (fun a h => (hnone a h).obeys) he.obeys
  rw [Machine.perform_thunk]
  refine Agree.bind (hin.part hlang hnone he) (hin.sound.enter hlang hcode) ?_ h
  exact fun frames on => ⟨_, rfl⟩

end

end Tree

end Formula
