import Formula.Expr.Parser
import Formula.Expr.Symbols
import Formula.Proofs.Outcome
import Formula.Standard
import Mathlib.Data.List.Induction
import Mathlib.Data.List.Nodup

/-!
# The names a program mentions

`Expr.mentions` reads an expression from left to right and lists where it mentions a name: where it
reads a variable, assigns to one or to a member below it, or binds a function and its parameters.
Without members, the names of a program are these, each where it appears first. A member that is
assigned is mentioned by its whole path, though, and not by the variable at the root of the path.
-/

namespace Formula

/-- A place where a program mentions a name. -/
inductive Mention where
  | read (name : String)
  /-- an assignment to a variable, or to what some members below it lead to -/
  | assigned (root : String) (members : List String)
  /-- a function that is defined, or one of its parameters -/
  | bound (name : String)

namespace Mention

/-- The name as the program has it: what is assigned has its whole path for a name. -/
def name : Mention → String
  | read n | bound n => n
  | assigned root members => Expr.path root members

/-- The variable at the root of the name. -/
def root : Mention → String
  | read n | bound n => n
  | assigned root _ => root

end Mention

namespace Expr

mutual

/-- The places where an expression mentions a name, from left to right. -/
def mentions : Expr → List Mention
  | .literal _ | .undefined => []
  | .variable name => [.read name]
  | .unary _ e | .member e _ | .closed e => mentions e
  | .binary _ l r | .connective _ l r | .sequence l r => mentions l ++ mentions r
  | .conditional t y n => mentions t ++ (mentions y ++ mentions n)
  | .assign root members v => .assigned root members :: mentions v
  | .define name params body => .bound name :: (params.map .bound ++ mentions body)
  | .call f args => mentions f ++ mentionsItems args
  | .array items => mentionsItems items
  | .object fields => mentionsFields fields
  | .case (some t) branches other =>
    mentions t ++ (mentionsBranches branches ++ mentionsOption other)
  | .case none branches other => mentionsBranches branches ++ mentionsOption other

def mentionsItems : List Expr → List Mention
  | [] => []
  | e :: rest => mentions e ++ mentionsItems rest

def mentionsFields : List (String × Expr) → List Mention
  | [] => []
  | (_, e) :: rest => mentions e ++ mentionsFields rest

def mentionsBranches : List (Expr × Expr) → List Mention
  | [] => []
  | (c, v) :: rest => mentions c ++ (mentions v ++ mentionsBranches rest)

def mentionsOption : Option Expr → List Mention
  | none => []
  | some e => mentions e

end

end Expr

/-! ### Names of code -/

namespace Symbols

theorem add_of_mem {names : Names} {n : String} (h : n ∈ names) : add names n = names :=
  if_pos (List.contains_iff_mem.mpr h)

theorem add_of_notMem {names : Names} {n : String} (h : n ∉ names) : add names n = names ++ [n] :=
  if_neg (by rwa [List.contains_iff_mem])

theorem mem_add {names : Names} {m n : String} : m ∈ add names n ↔ m ∈ names ∨ m = n := by
  by_cases h : n ∈ names
  · rw [add_of_mem h]
    exact ⟨.inl, fun hm => hm.elim id fun heq => heq ▸ h⟩
  · rw [add_of_notMem h, List.mem_append, List.mem_singleton]

theorem nodup_add {names : Names} (h : names.Nodup) (n : String) : (add names n).Nodup := by
  by_cases hn : n ∈ names
  · rwa [add_of_mem hn]
  · rw [add_of_notMem hn]
    exact List.Nodup.append h (List.nodup_singleton n) (by simpa using hn)

/-- Adding names one after the other leaves each where it appears first. -/
theorem foldl_add (ns : List String) : ns.foldl add [] = ns.eraseDups := by
  induction ns using List.reverseRecOn with
  | nil => rfl
  | append_singleton ns n ih =>
    rw [List.foldl_append, List.foldl_cons, List.foldl_nil, ih, List.eraseDups_append]
    by_cases h : n ∈ ns
    · rw [add_of_mem (List.mem_eraseDups.mpr h)]
      simp [List.removeAll, h]
    · rw [add_of_notMem (by rwa [List.mem_eraseDups])]
      simp [List.removeAll, h, List.eraseDups_cons]

mutual

/-- The names that an instruction has, those in a nested program in place. -/
def mentioned : Instruction Value → List String
  | .variable name | .target name => [name]
  | .group body => mentionedIn body
  | _ => []

def mentionedIn : List (Instruction Value) → List String
  | [] => []
  | i :: rest => mentioned i ++ mentionedIn rest

end

theorem mentionedIn_append (a b : Program Value) :
    mentionedIn (a ++ b) = mentionedIn a ++ mentionedIn b := by
  induction a with
  | nil => rfl
  | cons i rest ih => rw [List.cons_append, mentionedIn, ih, mentionedIn, List.append_assoc]

/-- Whether the name under construction is among the names so far. -/
def Known (state : Option String × Names) : Prop := ∀ n ∈ state.1, n ∈ state.2

theorem complete_known {pending : Option String} {names : Names} (h : Known (pending, names)) :
    complete pending names = names := by
  cases pending with
  | none => rfl
  | some n => exact add_of_mem (h n rfl)

mutual

/-- Without members, an instruction adds its names to those so far. -/
theorem ofInstruction_adds :
    (i : Instruction Value) → (state : Option String × Names) → Known state →
      Known (ofInstruction false i state) ∧
        (ofInstruction false i state).2 = (mentioned i).foldl add state.2
  | .variable name, (pending, names), h | .target name, (pending, names), h => by
    by_cases hname : name ∈ names
    · simp [ofInstruction, hname, complete_known h, mentioned, add_of_mem, Known]
    · have hknown : Known (pending, names ++ [name]) := fun n hn =>
        List.mem_append_left _ (h n hn)
      simpa [ofInstruction, hname, mentioned, add_of_notMem] using hknown
  | .group body, (pending, names), h => by
    obtain ⟨hknown, hnames⟩ := ofInstructions_adds body (none, names) (by simp [Known])
    have hsubset : ∀ ns names : List String, ∀ n ∈ names, n ∈ ns.foldl add names := by
      intro ns
      induction ns with
      | nil => exact fun _ _ hn => hn
      | cons m ns ih => exact fun names n hn => ih _ n (mem_add.mpr (.inl hn))
    have hgroup : ofInstruction false (.group body) (pending, names) =
        (pending, (mentionedIn body).foldl add names) :=
      congrArg (pending, ·) ((complete_known hknown).trans hnames)
    rw [hgroup]
    exact ⟨fun n hn => hsubset _ _ n (h n hn), rfl⟩
  | .member _, (pending, names), h => by
    simp [ofInstruction, complete_known h, mentioned, Known]
  | .literal _, (pending, names), h | .unary _, (pending, names), h
  | .binary _, (pending, names), h | .ternary _, (pending, names), h
  | .call _, (pending, names), h | .define _, (pending, names), h
  | .endStatement, (pending, names), h | .array _, (pending, names), h
  | .undefined, (pending, names), h | .caseMatch _, (pending, names), h
  | .caseCond _, (pending, names), h | .whenCond _, (pending, names), h
  | .whenMatch _, (pending, names), h | .caseElse, (pending, names), h
  | .objectStart, (pending, names), h | .property _, (pending, names), h
  | .objectEnd, (pending, names), h => by
    simp [ofInstruction, complete_known h, mentioned, Known]

theorem ofInstructions_adds :
    (code : List (Instruction Value)) → (state : Option String × Names) → Known state →
      Known (ofInstructions false code state) ∧
        (ofInstructions false code state).2 = (mentionedIn code).foldl add state.2
  | [], _, h => ⟨h, rfl⟩
  | i :: rest, state, h => by
    obtain ⟨hknown, hnames⟩ := ofInstruction_adds i state h
    rw [ofInstructions, mentionedIn, List.foldl_append, ← hnames]
    exact ofInstructions_adds rest _ hknown

end

end Symbols

/-! ### Names of expressions -/

namespace Expr

open Symbols

mutual

/-- The program of an expression has the names that the expression mentions, in order. -/
theorem mentionedIn_compile : (e : Expr) → mentionedIn e.compile = e.mentions.map Mention.name
  | .literal _ | .undefined => rfl
  | .variable _ => rfl
  | .unary _ e | .member e _ => by
    simp [compile, mentionedIn_append, mentionedIn, mentioned, mentions, mentionedIn_compile e]
  | .closed e => by
    simp [compile, mentionedIn, mentioned, mentions, mentionedIn_compile e]
  | .binary _ l r | .connective _ l r | .sequence l r => by
    simp [compile, mentionedIn_append, mentionedIn, mentioned, mentions, mentionedIn_compile l,
      mentionedIn_compile r]
  | .conditional t y n => by
    simp [compile, mentionedIn_append, mentionedIn, mentioned, mentions, mentionedIn_compile t,
      mentionedIn_compile y, mentionedIn_compile n]
  | .assign root members v => by
    simp [compile, mentionedIn, mentioned, mentions, Mention.name, mentionedIn_compile v]
  | .define name params body => by
    have hparams : mentionedIn (params.map .target) = params := by
      induction params with
      | nil => rfl
      | cons p params ih => exact congrArg (p :: ·) ih
    simp [compile, mentionedIn_append, mentionedIn, mentioned, mentions, Mention.name, hparams,
      mentionedIn_compile body, Function.comp_def]
  | .call f args => by
    simp [compile, mentionedIn_append, mentionedIn, mentioned, mentions, mentionedIn_compile f,
      mentionedIn_items args]
  | .array items => by
    simp [compile, mentionedIn_append, mentionedIn, mentioned, mentions, mentionedIn_items items]
  | .object fields => by
    simp [compile, mentionedIn_append, mentionedIn, mentioned, mentions,
      mentionedIn_fields fields]
  | .case (some t) branches other => by
    simp [compile, mentionedIn_append, mentionedIn, mentioned, mentions, mentionedIn_compile t,
      mentionedIn_branches .whenMatch (fun _ => rfl) 0 branches, mentionedIn_option other]
  | .case none branches other => by
    simp [compile, mentionedIn_append, mentionedIn, mentioned, mentions,
      mentionedIn_branches .whenCond (fun _ => rfl) 0 branches, mentionedIn_option other]

theorem mentionedIn_items : (es : List Expr) →
    mentionedIn (compileItems es) = (mentionsItems es).map Mention.name
  | [] => rfl
  | e :: rest => by
    simp [compileItems, mentionedIn_append, mentionsItems, mentionedIn_compile e,
      mentionedIn_items rest]

theorem mentionedIn_fields : (fields : List (String × Expr)) →
    mentionedIn (compileFields fields) = (mentionsFields fields).map Mention.name
  | [] => rfl
  | (_, e) :: rest => by
    simp [compileFields, mentionedIn_append, mentionedIn, mentioned, mentionsFields,
      mentionedIn_compile e, mentionedIn_fields rest]

theorem mentionedIn_branches (branch : Nat → Instruction Value)
    (hbranch : ∀ k, mentioned (branch k) = []) :
    (k : Nat) → (branches : List (Expr × Expr)) →
      mentionedIn (compileBranches branch k branches) = (mentionsBranches branches).map Mention.name
  | _, [] => rfl
  | k, (c, v) :: rest => by
    simp [compileBranches, mentionedIn_append, mentionedIn, mentioned, mentionsBranches, hbranch,
      mentionedIn_compile c, mentionedIn_compile v,
      mentionedIn_branches branch hbranch (k + 1) rest]

theorem mentionedIn_option : (other : Option Expr) →
    mentionedIn (compileOther other) = (mentionsOption other).map Mention.name
  | none => rfl
  | some e => by
    simp [compileOther, mentionedIn, mentioned, mentionsOption, mentionedIn_compile e]

end

/-- Without members, the names of an expression are those that it mentions from left to right, each
where it appears first. -/
theorem symbols_mentioned (e : Expr) :
    e.symbols false = (e.mentions.map Mention.name).eraseDups := by
  obtain ⟨hknown, hnames⟩ := ofInstructions_adds e.compile (none, []) (by simp [Known])
  have hprogram : e.symbols false = (ofInstructions false e.compile (none, [])).2 :=
    complete_known hknown
  rw [hprogram, hnames, foldl_add, mentionedIn_compile]

/-- They are the variables at the roots as long as no member is assigned. -/
theorem symbols_roots {e : Expr}
    (h : ∀ root members, Mention.assigned root members ∈ e.mentions → members = []) :
    e.symbols false = (e.mentions.map Mention.root).eraseDups := by
  have hroot : ∀ m ∈ e.mentions, m.name = m.root := by
    intro m hm
    cases m with
    | read n | bound n => rfl
    | assigned root members =>
      obtain rfl := h root members hm
      rfl
  rw [symbols_mentioned, List.map_congr_left hroot]

/-- A member that is assigned is named by its path, unlike one that is read. -/
theorem assigned_not_root : ∃ e, parseExpr (.ofOptions 0 {}) "a.b.c = 1" = .ok e ∧
    e.symbols false ≠ (e.mentions.map Mention.root).eraseDups := by
  obtain ⟨e, he, hnames⟩ := exists_ok_of_map (show (parseExpr (.ofOptions 0 {})
    "a.b.c = 1").toOption.map (fun e =>
      (e.symbols false, (e.mentions.map Mention.root).eraseDups)) = some (["a.b.c"], ["a"]) by
    decide +kernel)
  obtain ⟨hsymbols, hroots⟩ := Prod.mk.inj hnames
  refine ⟨e, he, ?_⟩
  rw [hsymbols, hroots]
  decide

end Expr

end Formula
