import Formula.Proofs.Expr.Every
import Formula.Proofs.Expr.Ordered
import Formula.Proofs.Scope.Mentioned
import Formula.Proofs.Scope.Touched

/-!
# Dotted names

With members, the names of a program are its chains: a variable with all the members that are read
from it, one after the other. A chain is complete at the next instruction that does not continue it,
and a nested program does not complete it. So a member of what statements in parentheses give is
taken for a member of the variable that was read before them; without such members the names are the
chains, and the paths, functions and parameters that are bound.
-/

namespace Formula

namespace Expr

/-- The dotted name of a variable with members read from it, one after the other. -/
def chain? : Expr → Option String
  | .variable name => some name
  | .member e name => (chain? e).map (· ++ "." ++ name)
  | _ => none

mutual

/-- The chains of an expression that are part of no longer one, and the names that it binds. -/
def chains : Expr → List String
  | .literal _ | .undefined => []
  | .variable name => [name]
  | .member e name =>
    match chain? (.member e name) with
    | some chain => [chain]
    | none => chains e
  | .unary _ e | .closed e => chains e
  | .binary _ l r | .connective _ l r | .sequence l r => chains l ++ chains r
  | .conditional t y n => chains t ++ (chains y ++ chains n)
  | .assign root members v => path root members :: chains v
  | .define name params body => name :: (params ++ chains body)
  | .call f args => chains f ++ chainsItems args
  | .array items => chainsItems items
  | .object fields => chainsFields fields
  | .case (some t) branches other => chains t ++ (chainsBranches branches ++ chainsOption other)
  | .case none branches other => chainsBranches branches ++ chainsOption other

def chainsItems : List Expr → List String
  | [] => []
  | e :: rest => chains e ++ chainsItems rest

def chainsFields : List (String × Expr) → List String
  | [] => []
  | (_, e) :: rest => chains e ++ chainsFields rest

def chainsBranches : List (Expr × Expr) → List String
  | [] => []
  | (c, v) :: rest => chains c ++ (chains v ++ chainsBranches rest)

def chainsOption : Option Expr → List String
  | none => []
  | some e => chains e

end

/-- Whether an expression reads a member of what statements in parentheses give. -/
def readsStatements : Expr → Bool
  | .member base _ => base.isSequence
  | _ => false

end Expr

/-! ### Collecting -/

namespace Symbols

theorem ofInstructions_append (members : Bool) (a b : Program Value)
    (state : Option String × Names) :
    ofInstructions members (a ++ b) state =
      ofInstructions members b (ofInstructions members a state) := by
  induction a generalizing state with
  | nil => rfl
  | cons i rest ih => exact ih (ofInstruction members i state)

/-- Code that adds certain names to those collected, whichever these are. -/
def Collects (code : Program Value) (ns : List String) : Prop :=
  ∀ state n, n ∈ collected (ofInstructions true code state) ↔ n ∈ collected state ∨ n ∈ ns

/-- An instruction that completes the name under construction and does nothing else. -/
def Completes (i : Instruction Value) : Prop :=
  ∀ members state, ofInstruction members i state = (none, collected state)

namespace Collects

variable {a b : Program Value} {ns ms : List String} {i : Instruction Value} {name : String}

theorem nil : Collects [] [] := fun _ _ => by simp [ofInstructions]

theorem append (ha : Collects a ns) (hb : Collects b ms) : Collects (a ++ b) (ns ++ ms) := by
  intro state n
  rw [ofInstructions_append, hb, ha, List.mem_append, or_assoc]

theorem completes (hi : Completes i) : Collects [i] [] := by
  intro state n
  rw [ofInstructions, hi, ofInstructions, mem_collected]
  simp

theorem snoc (ha : Collects a ns) (hi : Completes i) : Collects (a ++ [i]) ns := by
  simpa using ha.append (completes hi)

theorem cons (hb : Collects b ns) (hi : Collects [i] ms) : Collects (i :: b) (ms ++ ns) :=
  hi.append hb

theorem named (hi : i = .variable name ∨ i = .target name) : Collects [i] [name] := by
  rintro ⟨pending, names⟩ n
  have hstate : ofInstruction true i (pending, names) = (some name, complete pending names) := by
    rcases hi with rfl | rfl <;> simp [ofInstruction]
  rw [ofInstructions, hstate, ofInstructions, mem_collected, List.mem_singleton, Option.some.injEq,
    eq_comm]
  rfl

/-- A nested program adds its names before the one under construction. -/
theorem group (ha : Collects a ns) : Collects [.group a] ns := by
  rintro ⟨pending, names⟩ n
  have hstate : ofInstructions true [.group a] (pending, names) =
      (pending, collected (ofInstructions true a (none, names))) := rfl
  rw [hstate, mem_collected, ha, mem_collected, mem_collected]
  simp [or_right_comm]

end Collects

theorem collects_targets (params : List String) : Collects (params.map .target) params := by
  induction params with
  | nil => exact .nil
  | cons p params ih => exact ih.cons (.named (.inr rfl))

end Symbols

namespace Expr

open Symbols

/-! ### Chains -/

/-- A chain is under construction behind its program. -/
theorem ofInstructions_chain {e : Expr} {chain : String} (h : e.chain? = some chain)
    (state : Option String × Names) :
    ofInstructions true e.compile state = (some chain, collected state) := by
  fun_induction chain? e generalizing chain with
  | case1 name =>
    cases h
    simp [compile, ofInstructions, ofInstruction, collected]
  | case2 e name ih =>
    obtain ⟨front, hfront, rfl⟩ := Option.map_eq_some_iff.mp h
    rw [compile, ofInstructions_append, ih hfront]
    rfl
  | case3 => cases h

/-- Most programs end in an instruction that completes the name under construction. -/
theorem compile_completes {e : Expr} (hvariable : ∀ name, e ≠ .variable name)
    (hmember : ∀ base name, e ≠ .member base name) (hseq : e.isSequence = false) :
    ∃ i code, e.compile = code ++ [i] ∧ Completes i := by
  cases e with
  | «variable» name => exact (hvariable name rfl).elim
  | member base name => exact (hmember base name rfl).elim
  | sequence _ _ | closed _ => cases hseq
  | literal v => exact ⟨.literal v, [], rfl, fun _ _ => rfl⟩
  | undefined => exact ⟨.undefined, [], rfl, fun _ _ => rfl⟩
  | unary op e => exact ⟨.unary op, _, rfl, fun _ _ => rfl⟩
  | binary op l r => exact ⟨.binary op, _, (List.append_assoc ..).symm, fun _ _ => rfl⟩
  | connective c l r =>
    exact ⟨.binary c.symbol, l.compile ++ [.group r.compile], by simp [compile], fun _ _ => rfl⟩
  | conditional t y n =>
    exact ⟨.ternary "?", t.compile ++ [.group y.compile, .group n.compile], by simp [compile],
      fun _ _ => rfl⟩
  | assign root members v =>
    exact ⟨.binary "=", [.target (path root members), .group v.compile], rfl, fun _ _ => rfl⟩
  | define name params body =>
    exact ⟨.define params.length, .target name :: (params.map .target ++ [.group body.compile]),
      by simp [compile], fun _ _ => rfl⟩
  | call f args => exact ⟨.call args.length, _, (List.append_assoc ..).symm, fun _ _ => rfl⟩
  | array items => exact ⟨.array items.length, _, rfl, fun _ _ => rfl⟩
  | object fields => exact ⟨.objectEnd, .objectStart :: compileFields fields, rfl, fun _ _ => rfl⟩
  | case tested branches other =>
    cases tested with
    | none =>
      exact ⟨.caseCond (branches.length + otherCount other), _, (List.append_assoc ..).symm,
        fun _ _ => rfl⟩
    | some t =>
      exact ⟨.caseMatch (branches.length + otherCount other),
        t.compile ++ (compileBranches .whenMatch 0 branches ++ compileOther other),
        by simp [compile], fun _ _ => rfl⟩

/-- No name is under construction behind the program of an expression that is no chain. -/
theorem ofInstructions_complete {e : Expr} (he : e.Every fun e => e.readsStatements = false)
    (hchain : e.chain? = none) (hseq : e.isSequence = false) (state : Option String × Names) :
    (ofInstructions true e.compile state).1 = none := by
  fun_induction chain? e with
  | case1 name => cases hchain
  | case2 e name ih =>
    rcases hafter : ofInstructions true e.compile state with ⟨pending, names⟩
    have hnone := ih he.2 (Option.map_eq_none_iff.mp hchain) he.here
    rw [hafter] at hnone
    obtain rfl : pending = none := hnone
    rw [compile, ofInstructions_append, hafter]
    rfl
  | case3 e hvariable hmember =>
    obtain ⟨i, code, hcode, hi⟩ := compile_completes hvariable hmember hseq
    rw [hcode, ofInstructions_append, ofInstructions, hi]
    rfl

theorem collects_member {e : Expr} {name : String}
    (he : (e.member name).Every fun e => e.readsStatements = false)
    (hbase : Collects e.compile e.chains) :
    Collects (e.member name).compile (e.member name).chains := by
  intro state n
  rw [chains]
  cases hchain : (e.member name).chain? with
  | some chain =>
    rw [ofInstructions_chain hchain, mem_collected]
    simp [eq_comm]
  | none =>
    have hnone := ofInstructions_complete he.2 (Option.map_eq_none_iff.mp hchain) he.here state
    have hcollects := hbase state n
    rcases hafter : ofInstructions true e.compile state with ⟨pending, names⟩
    rw [hafter] at hnone hcollects
    obtain rfl : pending = none := hnone
    rw [compile, ofInstructions_append, hafter]
    exact hcollects

mutual

/-- The program of an expression that reads no member of statements has the chains of the
expression. -/
theorem collects_compile : (e : Expr) → (e.Every fun e => e.readsStatements = false) →
    Collects e.compile e.chains
  | .literal _, _ | .undefined, _ => .completes fun _ _ => rfl
  | .variable _, _ => .named (.inl rfl)
  | .member e _, h => collects_member h (collects_compile e h.2)
  | .unary _ e, h => (collects_compile e h.2).snoc fun _ _ => rfl
  | .closed e, h => (collects_compile e h.2).group
  | .binary _ l r, h =>
    (collects_compile l h.2.1).append ((collects_compile r h.2.2).snoc fun _ _ => rfl)
  | .connective _ l r, h =>
    (collects_compile l h.2.1).append ((collects_compile r h.2.2).group.snoc fun _ _ => rfl)
  | .sequence a b, h => by
    have hrest := (collects_compile b h.2.2).cons (.completes (i := .endStatement) fun _ _ => rfl)
    exact ((collects_compile a h.2.1).append hrest).group
  | .conditional t y n, h => by
    have hno := (collects_compile n h.2.2.2).group.snoc (i := .ternary "?") fun _ _ => rfl
    exact (collects_compile t h.2.1).append (hno.cons (collects_compile y h.2.2.1).group)
  | .assign root members v, h =>
    ((collects_compile v h.2).group.snoc (i := .binary "=") fun _ _ => rfl).cons (.named (.inr rfl))
  | .define name params body, h =>
    ((collects_targets params).append
      ((collects_compile body h.2).group.snoc fun _ _ => rfl)).cons (.named (.inr rfl))
  | .call f args, h =>
    (collects_compile f h.2.1).append ((collects_items args h.2.2).snoc fun _ _ => rfl)
  | .array items, h => (collects_items items h.2).snoc fun _ _ => rfl
  | .object fields, h =>
    ((collects_fields fields h.2).snoc fun _ _ => rfl).cons
      (.completes (i := .objectStart) fun _ _ => rfl)
  | .case (some t) branches other, h =>
    (collects_compile t h.2.1).append
      ((collects_branches .whenMatch (fun _ _ _ => rfl) 0 branches h.2.2.1).append
        ((collects_option other h.2.2.2).snoc fun _ _ => rfl))
  | .case none branches other, h =>
    (collects_branches .whenCond (fun _ _ _ => rfl) 0 branches h.2.2.1).append
      ((collects_option other h.2.2.2).snoc fun _ _ => rfl)

theorem collects_items : (es : List Expr) → EveryItem (fun e => e.readsStatements = false) es →
    Collects (compileItems es) (chainsItems es)
  | [], _ => .nil
  | e :: rest, h => (collects_compile e h.1).append (collects_items rest h.2)

theorem collects_fields : (fields : List (String × Expr)) →
    EveryField (fun e => e.readsStatements = false) fields →
      Collects (compileFields fields) (chainsFields fields)
  | [], _ => .nil
  | (key, e) :: rest, h =>
    (collects_compile e h.1).append
      ((collects_fields rest h.2).cons (.completes (i := .property key) fun _ _ => rfl))

theorem collects_branches (branch : Nat → Instruction Value) (hbranch : ∀ k, Completes (branch k)) :
    (k : Nat) → (branches : List (Expr × Expr)) →
      EveryBranch (fun e => e.readsStatements = false) branches →
        Collects (compileBranches branch k branches) (chainsBranches branches)
  | _, [], _ => .nil
  | k, (c, v) :: rest, h =>
    (collects_compile c h.1).append
      (((collects_branches branch hbranch (k + 1) rest h.2.2).cons (.completes (hbranch k))).cons
        (collects_compile v h.2.1).group)

theorem collects_option : (other : Option Expr) →
    EveryOption (fun e => e.readsStatements = false) other →
      Collects (compileOther other) (chainsOption other)
  | none, _ => .nil
  | some e, h => (collects_compile e h).group.snoc (i := .caseElse) fun _ _ => rfl

end

end Expr

/-! ### The names of a program -/

namespace Symbols

theorem nodup_complete {pending : Option String} {names : Names} (h : names.Nodup) :
    (complete pending names).Nodup := by
  cases pending with
  | none => exact h
  | some name => exact nodup_add h name

mutual

/-- No name is collected twice. -/
theorem nodup_ofInstruction (members : Bool) :
    (i : Instruction Value) → (state : Option String × Names) → state.2.Nodup →
      (ofInstruction members i state).2.Nodup
  | .variable name, (pending, names), h | .target name, (pending, names), h => by
    rw [ofInstruction]
    split
    · next hnew =>
      have hname : name ∉ names := by simp_all
      rw [← add_of_notMem hname]
      exact nodup_add h name
    · exact nodup_complete h
  | .member _, (pending, names), h => by
    cases members with
    | false => exact nodup_complete h
    | true => cases pending <;> exact h
  | .group body, (_, names), h => nodup_complete (nodup_ofInstructions members body (none, names) h)
  | .literal _, _, h | .unary _, _, h | .binary _, _, h | .ternary _, _, h | .call _, _, h
  | .define _, _, h | .endStatement, _, h | .array _, _, h | .undefined, _, h | .caseMatch _, _, h
  | .caseCond _, _, h | .whenCond _, _, h | .whenMatch _, _, h | .caseElse, _, h
  | .objectStart, _, h | .property _, _, h | .objectEnd, _, h => nodup_complete h

theorem nodup_ofInstructions (members : Bool) :
    (code : List (Instruction Value)) → (state : Option String × Names) → state.2.Nodup →
      (ofInstructions members code state).2.Nodup
  | [], _, h => h
  | i :: rest, state, h =>
    nodup_ofInstructions members rest _ (nodup_ofInstruction members i state h)

end

end Symbols

namespace Expr

open Symbols

theorem symbols_nodup (e : Expr) (members : Bool) : (e.symbols members).Nodup :=
  nodup_complete (nodup_ofInstructions members e.compile (none, []) List.nodup_nil)

/-- With members, the names of an expression that reads no member of statements are its chains and
the names that it binds, each once. -/
theorem symbols_chains {e : Expr} (he : e.Every fun e => e.readsStatements = false) :
    (e.symbols true).Nodup ∧ ∀ n, n ∈ e.symbols true ↔ n ∈ e.chains := by
  refine ⟨symbols_nodup e true, fun n => (collects_compile e he (none, []) n).trans ?_⟩
  simp [mem_collected]

/-- Chains of different lengths from one variable, and a member of a call. -/
theorem calls_chains : ∃ e, parseExpr (.ofOptions 0 {}) "x.y ? f(x.y.z).w : (x = y; 'a')" = .ok e ∧
    ∀ n, n ∈ e.symbols true ↔ n ∈ ["x.y", "f", "x.y.z", "x", "y"] := by
  obtain ⟨e, he, hfacts⟩ := exists_ok_of_map (show (parseExpr (.ofOptions 0 {})
    "x.y ? f(x.y.z).w : (x = y; 'a')").toOption.map (fun e =>
      (decide (e.Every fun e => e.readsStatements = false), e.chains)) =
        some (true, ["x.y", "f", "x.y.z", "x", "y"]) by decide +kernel)
  obtain ⟨hreads, hchains⟩ := Prod.mk.inj hfacts
  refine ⟨e, he, fun n => ?_⟩
  rw [(symbols_chains (of_decide_eq_true hreads)).2 n, hchains]

/-- A member of statements in parentheses is taken for one of the variable before them. -/
theorem member_of_statements : ∃ e, parseExpr (.ofOptions 0 {}) "x + (a; b).c" = .ok e ∧
    ¬ ∀ n, n ∈ e.symbols true ↔ n ∈ e.chains := by
  obtain ⟨e, he, hnames⟩ := exists_ok_of_map (show (parseExpr (.ofOptions 0 {})
    "x + (a; b).c").toOption.map (fun e => (e.symbols true, e.chains)) =
      some (["a", "b", "x.c"], ["x", "a", "b"]) by decide +kernel)
  obtain ⟨hsymbols, hchains⟩ := Prod.mk.inj hnames
  refine ⟨e, he, fun h => ?_⟩
  rw [hsymbols, hchains] at h
  exact absurd ((h "x.c").mp (by simp)) (by simp)

end Expr

end Formula
