import Formula.Expr
import Formula.Proofs.Machine.Plan

/-!
# Expressions part by part

`Expr.All p` says that `p` holds of the literals, variables and operators of an expression, at any
depth. If they obey a guard, so does every instruction that the expression compiles to.
-/

namespace Formula

namespace Expr

/-- The program of a part that is run on a stack of its own: an expression, after a statement
whose value is dropped if there is one. -/
def part : Option Expr → Expr → Program Value
  | none, e => compile e
  | some a, e => compile a ++ .endStatement :: compile e

mutual

def All (p : Instruction Value → Prop) : Expr → Prop
  | .literal v => p (.literal v)
  | .undefined => True
  | .variable name => p (.variable name)
  | .unary op e => p (.unary op) ∧ All p e
  | .binary op l r => p (.binary op) ∧ All p l ∧ All p r
  | .connective _ l r => All p l ∧ All p r
  | .conditional t y n => All p t ∧ All p y ∧ All p n
  | .assign _ _ v => All p v
  | .define _ _ body => All p body
  | .call f args => All p f ∧ AllItems p args
  | .member e _ => All p e
  | .array items => AllItems p items
  | .object fields => AllFields p fields
  | .case tested branches other =>
    AllOption p tested ∧ AllBranches p branches ∧ AllOption p other
  | .sequence a b => All p a ∧ All p b
  | .closed a => All p a

def AllItems (p : Instruction Value → Prop) : List Expr → Prop
  | [] => True
  | e :: rest => All p e ∧ AllItems p rest

def AllFields (p : Instruction Value → Prop) : List (String × Expr) → Prop
  | [] => True
  | (_, e) :: rest => All p e ∧ AllFields p rest

def AllBranches (p : Instruction Value → Prop) : List (Expr × Expr) → Prop
  | [] => True
  | (c, v) :: rest => All p c ∧ All p v ∧ AllBranches p rest

def AllOption (p : Instruction Value → Prop) : Option Expr → Prop
  | none => True
  | some e => All p e

end

section

variable {p q r : Instruction Value → Prop}

mutual

/-- What holds of every part for two reasons. -/
theorem All.combine (h : ∀ i, p i → q i → r i) : (e : Expr) → e.All p → e.All q → e.All r
  | .literal _, hp, hq | .variable _, hp, hq => h _ hp hq
  | .undefined, _, _ => trivial
  | .unary _ e, hp, hq => ⟨h _ hp.1 hq.1, All.combine h e hp.2 hq.2⟩
  | .binary _ a b, hp, hq =>
    ⟨h _ hp.1 hq.1, All.combine h a hp.2.1 hq.2.1, All.combine h b hp.2.2 hq.2.2⟩
  | .connective _ a b, hp, hq | .sequence a b, hp, hq =>
    ⟨All.combine h a hp.1 hq.1, All.combine h b hp.2 hq.2⟩
  | .conditional t y n, hp, hq =>
    ⟨All.combine h t hp.1 hq.1, All.combine h y hp.2.1 hq.2.1, All.combine h n hp.2.2 hq.2.2⟩
  | .assign _ _ e, hp, hq | .define _ _ e, hp, hq | .member e _, hp, hq | .closed e, hp, hq =>
    All.combine h e hp hq
  | .call f args, hp, hq => ⟨All.combine h f hp.1 hq.1, AllItems.combine h args hp.2 hq.2⟩
  | .array items, hp, hq => AllItems.combine h items hp hq
  | .object fields, hp, hq => AllFields.combine h fields hp hq
  | .case tested branches other, hp, hq =>
    ⟨AllOption.combine h tested hp.1 hq.1, AllBranches.combine h branches hp.2.1 hq.2.1,
      AllOption.combine h other hp.2.2 hq.2.2⟩

theorem AllItems.combine (h : ∀ i, p i → q i → r i) :
    (es : List Expr) → AllItems p es → AllItems q es → AllItems r es
  | [], _, _ => trivial
  | e :: rest, hp, hq => ⟨All.combine h e hp.1 hq.1, AllItems.combine h rest hp.2 hq.2⟩

theorem AllFields.combine (h : ∀ i, p i → q i → r i) :
    (fields : List (String × Expr)) → AllFields p fields → AllFields q fields →
      AllFields r fields
  | [], _, _ => trivial
  | (_, e) :: rest, hp, hq => ⟨All.combine h e hp.1 hq.1, AllFields.combine h rest hp.2 hq.2⟩

theorem AllBranches.combine (h : ∀ i, p i → q i → r i) :
    (branches : List (Expr × Expr)) → AllBranches p branches → AllBranches q branches →
      AllBranches r branches
  | [], _, _ => trivial
  | (c, v) :: rest, hp, hq =>
    ⟨All.combine h c hp.1 hq.1, All.combine h v hp.2.1 hq.2.1,
      AllBranches.combine h rest hp.2.2 hq.2.2⟩

theorem AllOption.combine (h : ∀ i, p i → q i → r i) :
    (other : Option Expr) → AllOption p other → AllOption q other → AllOption r other
  | none, _, _ => trivial
  | some e, hp, hq => All.combine h e hp hq

end

theorem All.mono (h : ∀ i, p i → q i) (e : Expr) (he : e.All p) : e.All q :=
  All.combine (fun i hp _ => h i hp) e he he

mutual

/-- What holds of every instruction holds of every part. -/
theorem All.of_forall (h : ∀ i, p i) : (e : Expr) → e.All p
  | .literal _ | .variable _ => h _
  | .undefined => trivial
  | .unary _ e => ⟨h _, All.of_forall h e⟩
  | .binary _ a b => ⟨h _, All.of_forall h a, All.of_forall h b⟩
  | .connective _ a b | .sequence a b => ⟨All.of_forall h a, All.of_forall h b⟩
  | .conditional t y n => ⟨All.of_forall h t, All.of_forall h y, All.of_forall h n⟩
  | .assign _ _ e | .define _ _ e | .member e _ | .closed e => All.of_forall h e
  | .call f args => ⟨All.of_forall h f, AllItems.of_forall h args⟩
  | .array items => AllItems.of_forall h items
  | .object fields => AllFields.of_forall h fields
  | .case tested branches other =>
    ⟨AllOption.of_forall h tested, AllBranches.of_forall h branches, AllOption.of_forall h other⟩

theorem AllItems.of_forall (h : ∀ i, p i) : (es : List Expr) → AllItems p es
  | [] => trivial
  | e :: rest => ⟨All.of_forall h e, AllItems.of_forall h rest⟩

theorem AllFields.of_forall (h : ∀ i, p i) : (fields : List (String × Expr)) → AllFields p fields
  | [] => trivial
  | (_, e) :: rest => ⟨All.of_forall h e, AllFields.of_forall h rest⟩

theorem AllBranches.of_forall (h : ∀ i, p i) :
    (branches : List (Expr × Expr)) → AllBranches p branches
  | [] => trivial
  | (c, v) :: rest => ⟨All.of_forall h c, All.of_forall h v, AllBranches.of_forall h rest⟩

theorem AllOption.of_forall (h : ∀ i, p i) : (other : Option Expr) → AllOption p other
  | none => trivial
  | some e => All.of_forall h e

end

/-! ### Decision -/

mutual

/-- Whether something holds of every part can be computed. -/
def decideAll (p : Instruction Value → Prop) [DecidablePred p] : (e : Expr) → Decidable (e.All p)
  | .literal v => inferInstanceAs (Decidable (p (.literal v)))
  | .undefined => isTrue trivial
  | .variable name => inferInstanceAs (Decidable (p (.variable name)))
  | .unary op e =>
    have := decideAll p e
    inferInstanceAs (Decidable (p (.unary op) ∧ e.All p))
  | .binary op a b =>
    have := decideAll p a
    have := decideAll p b
    inferInstanceAs (Decidable (p (.binary op) ∧ a.All p ∧ b.All p))
  | .connective _ a b | .sequence a b =>
    have := decideAll p a
    have := decideAll p b
    inferInstanceAs (Decidable (a.All p ∧ b.All p))
  | .conditional t y n =>
    have := decideAll p t
    have := decideAll p y
    have := decideAll p n
    inferInstanceAs (Decidable (t.All p ∧ y.All p ∧ n.All p))
  | .assign _ _ e | .define _ _ e | .member e _ | .closed e => decideAll p e
  | .call f args =>
    have := decideAll p f
    have := decideItems p args
    inferInstanceAs (Decidable (f.All p ∧ AllItems p args))
  | .array items => decideItems p items
  | .object fields => decideFields p fields
  | .case tested branches other =>
    have := decideOption p tested
    have := decideBranches p branches
    have := decideOption p other
    inferInstanceAs (Decidable (AllOption p tested ∧ AllBranches p branches ∧ AllOption p other))

def decideItems (p : Instruction Value → Prop) [DecidablePred p] :
    (es : List Expr) → Decidable (AllItems p es)
  | [] => isTrue trivial
  | e :: rest =>
    have := decideAll p e
    have := decideItems p rest
    inferInstanceAs (Decidable (e.All p ∧ AllItems p rest))

def decideFields (p : Instruction Value → Prop) [DecidablePred p] :
    (fields : List (String × Expr)) → Decidable (AllFields p fields)
  | [] => isTrue trivial
  | (_, e) :: rest =>
    have := decideAll p e
    have := decideFields p rest
    inferInstanceAs (Decidable (e.All p ∧ AllFields p rest))

def decideBranches (p : Instruction Value → Prop) [DecidablePred p] :
    (branches : List (Expr × Expr)) → Decidable (AllBranches p branches)
  | [] => isTrue trivial
  | (c, v) :: rest =>
    have := decideAll p c
    have := decideAll p v
    have := decideBranches p rest
    inferInstanceAs (Decidable (c.All p ∧ v.All p ∧ AllBranches p rest))

def decideOption (p : Instruction Value → Prop) [DecidablePred p] :
    (other : Option Expr) → Decidable (AllOption p other)
  | none => isTrue trivial
  | some e => decideAll p e

end

instance (p : Instruction Value → Prop) [DecidablePred p] (e : Expr) : Decidable (e.All p) :=
  decideAll p e

/-! ### Substitution -/

mutual

theorem substitute_all (name : String) {new : Expr} (hnew : new.All p) :
    (e : Expr) → e.All p → (substitute name new e).All p
  | .literal _, he => he
  | .undefined, _ => trivial
  | .variable n, he => by
    unfold substitute
    split
    · exact hnew
    · exact he
  | .unary _ e, he => ⟨he.1, substitute_all name hnew e he.2⟩
  | .binary _ l r, he =>
    ⟨he.1, substitute_all name hnew l he.2.1, substitute_all name hnew r he.2.2⟩
  | .connective _ l r, he => ⟨substitute_all name hnew l he.1, substitute_all name hnew r he.2⟩
  | .conditional t y n, he =>
    ⟨substitute_all name hnew t he.1, substitute_all name hnew y he.2.1,
      substitute_all name hnew n he.2.2⟩
  | .assign _ _ v, he => substitute_all name hnew v he
  | .define _ _ body, he => substitute_all name hnew body he
  | .call f args, he =>
    ⟨substitute_all name hnew f he.1, substituteItems_all name hnew args he.2⟩
  | .member e _, he => substitute_all name hnew e he
  | .array items, he => substituteItems_all name hnew items he
  | .object fields, he => substituteFields_all name hnew fields he
  | .case tested branches other, he =>
    ⟨substituteOption_all name hnew tested he.1, substituteBranches_all name hnew branches he.2.1,
      substituteOption_all name hnew other he.2.2⟩
  | .sequence a b, he => ⟨substitute_all name hnew a he.1, substitute_all name hnew b he.2⟩
  | .closed a, he => substitute_all name hnew a he

theorem substituteItems_all (name : String) {new : Expr} (hnew : new.All p) :
    (es : List Expr) → AllItems p es → AllItems p (substituteItems name new es)
  | [], _ => trivial
  | e :: rest, he => ⟨substitute_all name hnew e he.1, substituteItems_all name hnew rest he.2⟩

theorem substituteFields_all (name : String) {new : Expr} (hnew : new.All p) :
    (fields : List (String × Expr)) → AllFields p fields →
      AllFields p (substituteFields name new fields)
  | [], _ => trivial
  | (_, e) :: rest, he =>
    ⟨substitute_all name hnew e he.1, substituteFields_all name hnew rest he.2⟩

theorem substituteBranches_all (name : String) {new : Expr} (hnew : new.All p) :
    (branches : List (Expr × Expr)) → AllBranches p branches →
      AllBranches p (substituteBranches name new branches)
  | [], _ => trivial
  | (c, v) :: rest, he =>
    ⟨substitute_all name hnew c he.1, substitute_all name hnew v he.2.1,
      substituteBranches_all name hnew rest he.2.2⟩

theorem substituteOption_all (name : String) {new : Expr} (hnew : new.All p) :
    (other : Option Expr) → AllOption p other → AllOption p (substituteOption name new other)
  | none, _ => trivial
  | some e, he => substitute_all name hnew e he

end

end

/-! ### Compilation -/

/-- What an expression is made of obeys a guard; the operators are not those that the machine
gives a meaning. -/
def Obeys (g : Guard) (lang : Language Value) (e : Expr) : Prop :=
  e.All fun i => i.isStructural = false ∧ i.Obeys g lang

/-- The parts that a guard is asked about obey it whenever what they are made of does. -/
def Admits (g : Guard) (lang : Language Value) : Prop :=
  ∀ first last, (∀ a ∈ first, Obeys g lang a) → Obeys g lang last →
    g.body lang (part first last)

/-- A property that the instructions of programs have when the literals, variables and operators of
expressions have it. -/
structure Compiled (p : Instruction Value → Prop) : Prop where
  structural : ∀ {i}, i.isStructural = true → p i
  group : ∀ {first last}, (∀ a ∈ first, a.All fun i => i.isStructural = false ∧ p i) →
    (last.All fun i => i.isStructural = false ∧ p i) → (∀ i ∈ part first last, p i) →
      p (.group (part first last))

section

variable {p : Instruction Value → Prop}

theorem Compiled.part (hp : Compiled p) (first : Option Expr) {last : Expr}
    (hf : ∀ a ∈ first,
      (a.All fun i => i.isStructural = false ∧ p i) ∧ ∀ i ∈ compile a, p i)
    (hl : last.All fun i => i.isStructural = false ∧ p i) (hcode : ∀ i ∈ compile last, p i) :
    p (.group (part first last)) := by
  refine hp.group (fun a ha => (hf a ha).1) hl ?_
  cases first with
  | none => exact hcode
  | some a =>
    have hend : p .endStatement := hp.structural rfl
    exact List.forall_mem_append.mpr ⟨(hf a rfl).2, List.forall_mem_cons.mpr ⟨hend, hcode⟩⟩

/-- The program of an expression alone, as a part. -/
theorem Compiled.alone (hp : Compiled p) {e : Expr}
    (he : e.All fun i => i.isStructural = false ∧ p i) (hcode : ∀ i ∈ compile e, p i) :
    p (.group (compile e)) := hp.part none (fun a ha => by cases ha) he hcode

theorem Compiled.targets (hp : Compiled p) (names : List String) :
    ∀ i ∈ names.map (Instruction.target (α := Value)), p i := by
  intro i hi
  obtain ⟨name, _, rfl⟩ := List.mem_map.mp hi
  exact hp.structural rfl

mutual

/-- What every part of an expression has, every instruction of its program has. -/
theorem compile_all (hp : Compiled p) :
    (e : Expr) → e.All (fun i => i.isStructural = false ∧ p i) → ∀ i ∈ compile e, p i
  | .literal _, he => List.forall_mem_singleton.mpr he.2
  | .undefined, _ => List.forall_mem_singleton.mpr (hp.structural rfl)
  | .variable _, he => List.forall_mem_singleton.mpr he.2
  | .unary op e, he => by
    simp only [compile, List.forall_mem_append, List.forall_mem_singleton]
    exact ⟨compile_all hp e he.2, he.1.2⟩
  | .binary op l r, he => by
    simp only [compile, List.forall_mem_append, List.forall_mem_singleton]
    exact ⟨compile_all hp l he.2.1, compile_all hp r he.2.2, he.1.2⟩
  | .connective c l r, he => by
    have hg := hp.alone he.2 (compile_all hp r he.2)
    have hc : p (.binary c.symbol) :=
      hp.structural (by cases c <;> rfl)
    simp only [compile, List.forall_mem_append, List.forall_mem_cons, List.not_mem_nil,
      false_imp_iff, implies_true, and_true]
    exact ⟨compile_all hp l he.1, hg, hc⟩
  | .conditional t y n, he => by
    have hy := hp.alone he.2.1 (compile_all hp y he.2.1)
    have hn := hp.alone he.2.2 (compile_all hp n he.2.2)
    simp only [compile, List.forall_mem_append, List.forall_mem_cons, List.not_mem_nil,
      false_imp_iff, implies_true, and_true]
    exact ⟨compile_all hp t he.1, hy, hn, hp.structural rfl⟩
  | .assign root members v, he => by
    have hv := hp.alone (e := v) he (compile_all hp v he)
    simp only [compile, List.forall_mem_cons, List.not_mem_nil, false_imp_iff, implies_true,
      and_true]
    exact ⟨hp.structural rfl, hv, hp.structural rfl⟩
  | .define name params body, he => by
    have hbody := hp.alone (e := body) he (compile_all hp body he)
    simp only [compile, List.forall_mem_append, List.forall_mem_cons, List.not_mem_nil,
      false_imp_iff, implies_true, and_true]
    exact ⟨hp.structural rfl, hp.targets params, hbody, hp.structural rfl⟩
  | .call f args, he => by
    simp only [compile, List.forall_mem_append, List.forall_mem_singleton]
    exact ⟨compile_all hp f he.1, compileItems_all hp args he.2, hp.structural rfl⟩
  | .member e name, he => by
    simp only [compile, List.forall_mem_append, List.forall_mem_singleton]
    exact ⟨compile_all hp e he, hp.structural rfl⟩
  | .array items, he => by
    simp only [compile, List.forall_mem_append, List.forall_mem_singleton]
    exact ⟨compileItems_all hp items he, hp.structural rfl⟩
  | .object fields, he => by
    simp only [compile, List.forall_mem_append, List.forall_mem_cons, List.not_mem_nil,
      false_imp_iff, implies_true, and_true]
    exact ⟨hp.structural rfl, compileFields_all hp fields he, hp.structural rfl⟩
  | .case none branches other, he => by
    simp only [compile, List.forall_mem_append, List.forall_mem_singleton]
    exact ⟨compileBranches_all hp (fun _ => rfl) 0 branches he.2.1,
      compileOther_all hp other he.2.2, hp.structural rfl⟩
  | .case (some t) branches other, he => by
    simp only [compile, List.forall_mem_append, List.forall_mem_singleton]
    exact ⟨compile_all hp t he.1, compileBranches_all hp (fun _ => rfl) 0 branches he.2.1,
      compileOther_all hp other he.2.2, hp.structural rfl⟩
  | .sequence a b, he => by
    refine List.forall_mem_singleton.mpr (hp.part (some a) ?_ he.2 ?_)
    · intro _ ha
      cases ha
      exact ⟨he.1, compile_all hp a he.1⟩
    · exact compile_all hp b he.2
  | .closed a, he => List.forall_mem_singleton.mpr (hp.alone he (compile_all hp a he))

theorem compileItems_all (hp : Compiled p) :
    (es : List Expr) → AllItems (fun i => i.isStructural = false ∧ p i) es →
      ∀ i ∈ compileItems es, p i
  | [], _ => fun i hi => by cases hi
  | e :: rest, he => by
    simp only [compileItems, List.forall_mem_append]
    exact ⟨compile_all hp e he.1, compileItems_all hp rest he.2⟩

theorem compileFields_all (hp : Compiled p) :
    (fields : List (String × Expr)) →
      AllFields (fun i => i.isStructural = false ∧ p i) fields →
      ∀ i ∈ compileFields fields, p i
  | [], _ => fun i hi => by cases hi
  | (key, e) :: rest, he => by
    simp only [compileFields, List.forall_mem_append, List.forall_mem_cons]
    exact ⟨compile_all hp e he.1, hp.structural rfl, compileFields_all hp rest he.2⟩

theorem compileBranches_all (hp : Compiled p) {branch : Nat → Instruction Value}
    (hbranch : ∀ k, (branch k).isStructural = true) (k : Nat) :
    (branches : List (Expr × Expr)) →
      AllBranches (fun i => i.isStructural = false ∧ p i) branches →
      ∀ i ∈ compileBranches branch k branches, p i
  | [], _ => fun i hi => by cases hi
  | (c, v) :: rest, he => by
    have hv := hp.alone he.2.1 (compile_all hp v he.2.1)
    simp only [compileBranches, List.forall_mem_append, List.forall_mem_cons]
    exact ⟨compile_all hp c he.1, hv, hp.structural (hbranch k),
      compileBranches_all hp hbranch (k + 1) rest he.2.2⟩

theorem compileOther_all (hp : Compiled p) :
    (other : Option Expr) →
      AllOption (fun i => i.isStructural = false ∧ p i) other →
      ∀ i ∈ compileOther other, p i
  | none, _ => fun i hi => by cases hi
  | some e, he => by
    have hg := hp.alone he (compile_all hp e he)
    simp only [compileOther, List.forall_mem_cons, List.not_mem_nil, false_imp_iff, implies_true,
      and_true]
    exact ⟨hg, hp.structural rfl⟩

end

end

section

variable {g : Guard} {lang : Language Value}

theorem compiled_obeys (hb : Admits g lang) : Compiled fun i => i.Obeys g lang where
  structural := .ofStructural
  group hf hl hcode := .group (hb _ _ hf hl) hcode

/-- The program of an expression alone, as a part. -/
theorem alone_obeys {e : Expr} (hb : Admits g lang) (he : e.Obeys g lang)
    (hcode : ∀ i ∈ compile e, i.Obeys g lang) : (Instruction.group (compile e)).Obeys g lang :=
  (compiled_obeys hb).alone he hcode

/-- Every instruction of the program of an expression obeys the guard that the expression obeys. -/
theorem compile_obeys (hb : Admits g lang) (e : Expr) (he : e.Obeys g lang) :
    ∀ i ∈ compile e, i.Obeys g lang := compile_all (compiled_obeys hb) e he

/-- The program of a part obeys the guard that what it is made of obeys. -/
theorem part_obeys (hb : Admits g lang) {first : Option Expr} {last : Expr}
    (hf : ∀ a ∈ first, a.Obeys g lang) (hl : last.Obeys g lang) :
    Program.Obeys g lang (part first last) :=
  ((compiled_obeys hb).part first (fun a ha => ⟨hf a ha, compile_obeys hb a (hf a ha)⟩) hl
    (compile_obeys hb last hl)).ofGroup

/-! ### Back from programs -/

mutual

/-- An expression obeys the guard that its instructions obey. -/
theorem obeys_of_compile :
    (e : Expr) → e.All (fun i => i.isStructural = false) → (∀ i ∈ compile e, i.Obeys g lang) →
      e.Obeys g lang
  | .literal _, he, h => ⟨he, List.forall_mem_singleton.mp h⟩
  | .undefined, _, _ => trivial
  | .variable _, he, h => ⟨he, List.forall_mem_singleton.mp h⟩
  | .unary _ e, he, h => by
    simp only [compile, List.forall_mem_append, List.forall_mem_singleton] at h
    exact ⟨⟨he.1, h.2⟩, obeys_of_compile e he.2 h.1⟩
  | .binary _ l r, he, h => by
    simp only [compile, List.forall_mem_append, List.forall_mem_singleton] at h
    exact ⟨⟨he.1, h.2.2⟩, obeys_of_compile l he.2.1 h.1, obeys_of_compile r he.2.2 h.2.1⟩
  | .connective _ l r, he, h => by
    simp only [compile, List.forall_mem_append, List.forall_mem_cons] at h
    exact ⟨obeys_of_compile l he.1 h.1, obeys_of_compile r he.2 h.2.1.ofGroup.2⟩
  | .conditional t y n, he, h => by
    simp only [compile, List.forall_mem_append, List.forall_mem_cons] at h
    exact ⟨obeys_of_compile t he.1 h.1, obeys_of_compile y he.2.1 h.2.1.ofGroup.2,
      obeys_of_compile n he.2.2 h.2.2.1.ofGroup.2⟩
  | .assign _ _ v, he, h => by
    simp only [compile, List.forall_mem_cons] at h
    exact obeys_of_compile v he h.2.1.ofGroup.2
  | .define _ _ body, he, h => by
    simp only [compile, List.forall_mem_append, List.forall_mem_cons] at h
    exact obeys_of_compile body he h.2.2.1.ofGroup.2
  | .call f args, he, h => by
    simp only [compile, List.forall_mem_append, List.forall_mem_singleton] at h
    exact ⟨obeys_of_compile f he.1 h.1, obeys_of_compileItems args he.2 h.2.1⟩
  | .member e _, he, h => by
    simp only [compile, List.forall_mem_append] at h
    exact obeys_of_compile e he h.1
  | .array items, he, h => by
    simp only [compile, List.forall_mem_append] at h
    exact obeys_of_compileItems items he h.1
  | .object fields, he, h => by
    simp only [compile, List.forall_mem_append, List.forall_mem_cons] at h
    exact obeys_of_compileFields fields he h.2.1
  | .case none branches other, he, h => by
    simp only [compile, List.forall_mem_append, List.forall_mem_singleton] at h
    exact ⟨trivial, obeys_of_compileBranches branches he.2.1 h.1,
      obeys_of_compileOther other he.2.2 h.2.1⟩
  | .case (some t) branches other, he, h => by
    simp only [compile, List.forall_mem_append, List.forall_mem_singleton] at h
    exact ⟨obeys_of_compile t he.1 h.1, obeys_of_compileBranches branches he.2.1 h.2.1,
      obeys_of_compileOther other he.2.2 h.2.2.1⟩
  | .sequence a b, he, h => by
    have hcode := (List.forall_mem_singleton.mp h).ofGroup.2
    simp only [List.forall_mem_append, List.forall_mem_cons] at hcode
    exact ⟨obeys_of_compile a he.1 hcode.1, obeys_of_compile b he.2 hcode.2.2⟩
  | .closed a, he, h => obeys_of_compile a he (List.forall_mem_singleton.mp h).ofGroup.2

theorem obeys_of_compileItems :
    (es : List Expr) → AllItems (fun i => i.isStructural = false) es →
      (∀ i ∈ compileItems es, i.Obeys g lang) →
      AllItems (fun i => i.isStructural = false ∧ i.Obeys g lang) es
  | [], _, _ => trivial
  | e :: rest, he, h => by
    simp only [compileItems, List.forall_mem_append] at h
    exact ⟨obeys_of_compile e he.1 h.1, obeys_of_compileItems rest he.2 h.2⟩

theorem obeys_of_compileFields :
    (fields : List (String × Expr)) → AllFields (fun i => i.isStructural = false) fields →
      (∀ i ∈ compileFields fields, i.Obeys g lang) →
      AllFields (fun i => i.isStructural = false ∧ i.Obeys g lang) fields
  | [], _, _ => trivial
  | (_, e) :: rest, he, h => by
    simp only [compileFields, List.forall_mem_append, List.forall_mem_cons] at h
    exact ⟨obeys_of_compile e he.1 h.1, obeys_of_compileFields rest he.2 h.2.2⟩

theorem obeys_of_compileBranches {branch : Nat → Instruction Value} {k : Nat} :
    (branches : List (Expr × Expr)) → AllBranches (fun i => i.isStructural = false) branches →
      (∀ i ∈ compileBranches branch k branches, i.Obeys g lang) →
      AllBranches (fun i => i.isStructural = false ∧ i.Obeys g lang) branches
  | [], _, _ => trivial
  | (c, v) :: rest, he, h => by
    simp only [compileBranches, List.forall_mem_append, List.forall_mem_cons] at h
    exact ⟨obeys_of_compile c he.1 h.1, obeys_of_compile v he.2.1 h.2.1.ofGroup.2,
      obeys_of_compileBranches rest he.2.2 h.2.2.2⟩

theorem obeys_of_compileOther :
    (other : Option Expr) → AllOption (fun i => i.isStructural = false) other →
      (∀ i ∈ compileOther other, i.Obeys g lang) →
      AllOption (fun i => i.isStructural = false ∧ i.Obeys g lang) other
  | none, _, _ => trivial
  | some e, he, h => by
    simp only [compileOther, List.forall_mem_cons] at h
    exact obeys_of_compile e he h.1.ofGroup.2

end

/-- What a part is made of obeys the guard that its instructions obey. -/
theorem obeys_of_part {first : Option Expr} {last : Expr}
    (hf : ∀ a ∈ first, a.All fun i => i.isStructural = false)
    (hl : last.All fun i => i.isStructural = false)
    (h : ∀ i ∈ part first last, i.Obeys g lang) :
    (∀ a ∈ first, a.Obeys g lang) ∧ last.Obeys g lang := by
  cases first with
  | none => exact ⟨(fun _ ha => nomatch ha), obeys_of_compile last hl h⟩
  | some a =>
    simp only [part, List.forall_mem_append, List.forall_mem_cons] at h
    refine ⟨fun b hb => ?_, obeys_of_compile last hl h.2.2⟩
    cases hb
    exact obeys_of_compile a (hf a rfl) h.1

end

end Expr

end Formula
