import Formula.Proofs.Expr.Ordered
import Formula.Proofs.Language.Extended

/-!
# Reading programs back

A program that was compiled from an expression can be read back: its instructions are run on
pieces of syntax instead of operands. The expression found compiles to the same program; it may
differ from the original one in how the path of an assignment is split into members.
-/

namespace Formula

/-- What a place of the stack stands for while a program is read. -/
inductive Piece where
  | whole (e : Expr)
  /-- a program not yet run: a sequence of statements, or part of what encloses it -/
  | apart (first : Option Expr) (last : Expr)
  | name (s : String)
  | branch (condition value : Expr)
  | otherwise (value : Expr)
  /-- the fields of an object, the last one first -/
  | fields (fs : List (String × Expr))
  /-- a statement whose value is dropped -/
  | statement (e : Expr)

namespace Piece

/-- The expression that a piece stands for where an operand is wanted. -/
def expr : Piece → Expr
  | whole e => e
  | apart (some a) b => .sequence a b
  | apart none a => .closed a
  | _ => .undefined

/-- The names of the top `n` pieces, the topmost last, and the pieces below. -/
def popNames : Nat → List Piece → List String → Option (List String × List Piece)
  | 0, ps, acc => some (acc, ps)
  | n + 1, name s :: ps, acc => popNames n ps (s :: acc)
  | _ + 1, _, _ => none

/-- The expressions of the top `n` pieces, the topmost last, and the pieces below. -/
def popExprs : Nat → List Piece → List Expr → Option (List Expr × List Piece)
  | 0, ps, acc => some (acc, ps)
  | n + 1, p :: ps, acc => popExprs n ps (p.expr :: acc)
  | _ + 1, _, _ => none

/-- The top `n` branches, the topmost last, and the pieces below. -/
def popBranches :
    Nat → List Piece → List (Expr × Expr) → Option (List (Expr × Expr) × List Piece)
  | 0, ps, acc => some (acc, ps)
  | n + 1, branch c v :: ps, acc => popBranches n ps ((c, v) :: acc)
  | _ + 1, _, _ => none

/-- The value for the rest and the branches of a case block of `n`, and the pieces below. -/
def popCases (n : Nat) (ps : List Piece) :
    Option (Option Expr × List (Expr × Expr) × List Piece) :=
  match n, ps with
  | n + 1, otherwise v :: ps => do some (some v, ← popBranches n ps [])
  | n, ps => do some (none, ← popBranches n ps [])

/-- The connective of a symbol. -/
def connective? (op : String) : Option Connective :=
  if op = "and" then some .both else if op = "or" then some .either else none

/-- What an instruction that holds no program makes of the pieces. -/
def consume : Instruction Value → List Piece → Option (List Piece)
  | .literal v, ps => some (whole (.literal v) :: ps)
  | .undefined, ps => some (whole .undefined :: ps)
  | .variable n, ps => some (whole (.variable n) :: ps)
  | .target n, ps => some (name n :: ps)
  | .unary op, p :: ps => some (whole (.unary op p.expr) :: ps)
  | .binary op, r :: l :: ps =>
    match l, r, connective? op with
    | name n, apart none v, none => some (whole (.assign n [] v) :: ps)
    | l, apart none r, some c => some (whole (.connective c l.expr r) :: ps)
    | l, r, _ => some (whole (.binary op l.expr r.expr) :: ps)
  | .ternary _, apart none n :: apart none y :: t :: ps =>
    some (whole (.conditional t.expr y n) :: ps)
  | .call argc, ps => do
    match ← popExprs (argc + 1) ps [] with
    | (f :: args, ps) => some (whole (.call f args) :: ps)
    | _ => none
  | .define paramc, apart none body :: ps => do
    match ← popNames (paramc + 1) ps [] with
    | (n :: params, ps) => some (whole (.define n params body) :: ps)
    | _ => none
  | .member n, p :: ps => some (whole (.member p.expr n) :: ps)
  | .endStatement, p :: ps => some (statement p.expr :: ps)
  | .array count, ps => do
    let (items, ps) ← popExprs count ps []
    some (whole (.array items) :: ps)
  | .whenCond _, apart none v :: c :: ps => some (branch c.expr v :: ps)
  | .whenMatch _, apart none v :: c :: ps => some (branch c.expr v :: ps)
  | .caseElse, apart none v :: ps => some (otherwise v :: ps)
  | .caseCond count, ps => do
    let (other, branches, ps) ← popCases count ps
    some (whole (.case none branches other) :: ps)
  | .caseMatch count, ps => do
    match ← popCases count ps with
    | (other, branches, t :: ps) => some (whole (.case (some t.expr) branches other) :: ps)
    | _ => none
  | .objectStart, ps => some (fields [] :: ps)
  | .property key, p :: fields fs :: ps => some (fields ((key, p.expr) :: fs) :: ps)
  | .objectEnd, fields fs :: ps => some (whole (.object fs.reverse) :: ps)
  | _, _ => none

/-- The part that the pieces of a whole program make up. -/
def part? : List Piece → Option (Option Expr × Expr)
  | [p] => some (none, p.expr)
  | [p, statement a] => some (some a, p.expr)
  | _ => none

end Piece

mutual

/-- Reads one instruction. -/
def Instruction.read : Instruction Value → List Piece → Option (List Piece)
  | .group body, ps => do
    let (first, last) ← Piece.part? (← Program.read body [])
    some (.apart first last :: ps)
  | i, ps => Piece.consume i ps

/-- Reads code, onto the pieces read before. -/
def Program.read : List (Instruction Value) → List Piece → Option (List Piece)
  | [], ps => some ps
  | i :: rest, ps => do Program.read rest (← Instruction.read i ps)

end

/-- The part that a program was compiled from. -/
def Program.part? (code : Program Value) : Option (Option Expr × Expr) := do
  Piece.part? (← Program.read code [])

/-! ### What is read of compiled code -/

namespace Piece

theorem popExprs_append (qs ps : List Piece) (acc : List Expr) :
    popExprs qs.length (qs ++ ps) acc = some ((qs.map Piece.expr).reverse ++ acc, ps) := by
  induction qs generalizing acc with
  | nil => rfl
  | cons q qs ih =>
    rw [List.length_cons, List.cons_append, popExprs, ih, List.map_cons, List.reverse_cons,
      List.append_assoc, List.singleton_append]

theorem popNames_append (names : List String) (ps : List Piece) (acc : List String) :
    popNames names.length (names.map name ++ ps) acc = some (names.reverse ++ acc, ps) := by
  induction names generalizing acc with
  | nil => rfl
  | cons n names ih =>
    rw [List.length_cons, List.map_cons, List.cons_append, popNames, ih, List.reverse_cons,
      List.append_assoc, List.singleton_append]

theorem popBranches_append (bs : List (Expr × Expr)) (ps : List Piece)
    (acc : List (Expr × Expr)) :
    popBranches bs.length (bs.map (fun b => branch b.1 b.2) ++ ps) acc =
      some (bs.reverse ++ acc, ps) := by
  induction bs generalizing acc with
  | nil => rfl
  | cons b bs ih =>
    rw [List.length_cons, List.map_cons, List.cons_append, popBranches, ih, List.reverse_cons,
      List.append_assoc, List.singleton_append]

end Piece

namespace Program

theorem read_cons {i : Instruction Value} {rest : Program Value} {ps qs : List Piece}
    (h : Instruction.read i ps = some qs) : read (i :: rest) ps = read rest qs := by
  rw [read, h]
  rfl

end Program

namespace Expr

open Program

/-- What is read of the program of an expression: a piece that stands for an operand and compiles
to the same program. -/
structure Reads (e : Expr) (p : Piece) : Prop where
  regular : p.expr.Regular
  compile : p.expr.compile = e.compile
  isSequence : p.expr.isSequence = e.isSequence
  ordered : p.expr.ordered = e.ordered
  operand : ∀ n, p ≠ .name n
  read : ∀ rest ps, read (e.compile ++ rest) ps = read rest (p :: ps)

/-- What is read of the programs of expressions one after the other. -/
structure ItemsRead (es : List Expr) (qs : List Piece) : Prop where
  regular : AllItems (fun i => i.isStructural = false) (qs.map Piece.expr)
  compile : compileItems (qs.map Piece.expr) = compileItems es
  ordered : orderedItems (qs.map Piece.expr) = orderedItems es
  length : qs.length = es.length
  read : ∀ rest ps, read (compileItems es ++ rest) ps = read rest (qs.reverse ++ ps)

structure FieldsRead (fs gs : List (String × Expr)) : Prop where
  regular : AllFields (fun i => i.isStructural = false) gs
  compile : compileFields gs = compileFields fs
  ordered : orderedFields gs = orderedFields fs
  read : ∀ rest acc ps, read (compileFields fs ++ rest) (.fields acc :: ps) =
    read rest (.fields (gs.reverse ++ acc) :: ps)

structure BranchesRead (bs cs : List (Expr × Expr)) : Prop where
  regular : AllBranches (fun i => i.isStructural = false) cs
  compile : ∀ branch k, compileBranches branch k cs = compileBranches branch k bs
  ordered : orderedBranches cs = orderedBranches bs
  length : cs.length = bs.length
  read : ∀ branch k rest ps,
    (∀ k v c ps, Instruction.read (branch k) (.apart none v :: c :: ps) =
      some (.branch c.expr v :: ps)) →
    read (compileBranches branch k bs ++ rest) ps =
      read rest ((cs.map fun b => .branch b.1 b.2).reverse ++ ps)

structure OtherRead (other new : Option Expr) : Prop where
  regular : AllOption (fun i => i.isStructural = false) new
  compile : compileOther new = compileOther other
  ordered : orderedOption new = orderedOption other
  count : otherCount new = otherCount other
  read : ∀ rest ps, read (compileOther other ++ rest) ps =
    read rest ((new.toList.map .otherwise) ++ ps)

theorem Reads.whole {e new : Expr} (hr : new.Regular) (hc : new.compile = e.compile)
    (hs : new.isSequence = e.isSequence) (ho : new.ordered = e.ordered) (hread : ∀ rest ps,
      Program.read (e.compile ++ rest) ps = Program.read rest (.whole new :: ps)) :
    e.Reads (.whole new) := ⟨hr, hc, hs, ho, (fun n h => by cases h), hread⟩

/-- A program on its own is read as a part without a first statement. -/
theorem Reads.group {e : Expr} {p : Piece} (h : e.Reads p) (ps : List Piece) :
    Instruction.read (.group e.compile) ps = some (.apart none p.expr :: ps) := by
  have hbody : Program.read e.compile [] = some [p] := by
    have := h.read [] []
    rwa [List.append_nil] at this
  simp only [Instruction.read, hbody, Piece.part?, Option.bind_eq_bind, Option.bind_some]

theorem read_eq {i : Instruction Value} (hi : ∀ body, i ≠ .group body) (ps : List Piece) :
    Instruction.read i ps = Piece.consume i ps := by
  cases i with
  | group body => exact (hi body rfl).elim
  | _ => rfl

attribute [local simp] Piece.consume

theorem read_target (name : String) (ps : List Piece) :
    Instruction.read (.target name) ps = some (.name name :: ps) := rfl

theorem read_property (key : String) (p : Piece) (fs : List (String × Expr)) (ps : List Piece) :
    Instruction.read (.property key) (p :: .fields fs :: ps) =
      some (.fields ((key, p.expr) :: fs) :: ps) := rfl

theorem read_connective (c : Connective) (p : Piece) (r : Expr)
    (ps : List Piece) : Instruction.read (.binary c.symbol) (.apart none r :: p :: ps) =
      some (.whole (.connective c p.expr r) :: ps) := by
  have hc : Piece.connective? c.symbol = some c := by
    cases c <;> decide
  rw [read_eq (by nofun)]
  simp [hc]

theorem read_binary {op : String} (hop : op ∉ Instruction.connectives) (l r : Piece)
    (hl : ∀ n, l ≠ .name n) (ps : List Piece) :
    Instruction.read (.binary op) (r :: l :: ps) =
      some (.whole (.binary op l.expr r.expr) :: ps) := by
  have hne : op ≠ "and" ∧ op ≠ "or" := by
    simp only [Instruction.connectives, List.mem_cons, not_or] at hop
    exact ⟨hop.1, hop.2.1⟩
  have hc : Piece.connective? op = none := by
    simp only [Piece.connective?, hne.1, hne.2, if_false]
  rw [read_eq (by nofun)]
  simp only [Piece.consume, hc]
  split
  · exact (hl _ rfl).elim
  · next h => cases h
  · rfl

theorem read_targets (names : List String) (rest : Program Value) (ps : List Piece) :
    read (names.map .target ++ rest) ps = read rest ((names.map .name).reverse ++ ps) := by
  induction names generalizing ps with
  | nil => rfl
  | cons n names ih =>
    rw [List.map_cons, List.cons_append, read_cons (read_target n ps), ih, List.map_cons,
      List.reverse_cons, List.append_assoc, List.singleton_append]

theorem read_define (name : String) (params : List String) (body : Expr) (ps : List Piece) :
    Instruction.read (.define params.length)
      (.apart none body :: ((params.map .name).reverse ++ .name name :: ps)) =
      some (.whole (.define name params body) :: ps) := by
  have hpop := Piece.popNames_append (name :: params).reverse ps []
  rw [List.length_reverse, List.length_cons, List.map_reverse, List.map_cons, List.reverse_cons,
    List.append_assoc, List.singleton_append, List.reverse_reverse, List.append_nil] at hpop
  rw [read_eq (by nofun)]
  simp [hpop]

theorem read_call (p : Piece) (qs ps : List Piece) :
    Instruction.read (.call qs.length) (qs.reverse ++ p :: ps) =
      some (.whole (.call p.expr (qs.map Piece.expr)) :: ps) := by
  have hpop := Piece.popExprs_append (p :: qs).reverse ps []
  rw [List.length_reverse, List.length_cons, List.map_reverse, List.map_cons, List.reverse_cons,
    List.append_assoc, List.singleton_append, List.reverse_reverse, List.append_nil] at hpop
  rw [read_eq (by nofun)]
  simp [hpop]

theorem read_array (qs ps : List Piece) :
    Instruction.read (.array qs.length) (qs.reverse ++ ps) =
      some (.whole (.array (qs.map Piece.expr)) :: ps) := by
  have hpop := Piece.popExprs_append qs.reverse ps []
  rw [List.length_reverse, List.map_reverse, List.reverse_reverse, List.append_nil] at hpop
  rw [read_eq (by nofun)]
  simp [hpop]

theorem read_objectStart (ps : List Piece) :
    Instruction.read .objectStart ps = some (.fields [] :: ps) := rfl

theorem read_objectEnd (fs : List (String × Expr)) (ps : List Piece) :
    Instruction.read .objectEnd (.fields fs.reverse :: ps) =
      some (.whole (.object fs) :: ps) := by
  rw [read_eq (by nofun)]
  simp

theorem read_sequence {a b : Expr} {p q : Piece} (hp : a.Reads p) (hq : b.Reads q)
    (ps : List Piece) :
    Instruction.read (.group (a.compile ++ .endStatement :: b.compile)) ps =
      some (.apart (some p.expr) q.expr :: ps) := by
  have hend : Instruction.read .endStatement [p] = some [.statement p.expr] := rfl
  have hbody : Program.read (a.compile ++ .endStatement :: b.compile) [] =
      some [q, .statement p.expr] := by
    have hlast := hq.read [] [.statement p.expr]
    rw [List.append_nil] at hlast
    rw [hp.read, read_cons hend, hlast]
    rfl
  simp only [Instruction.read, hbody, Piece.part?, Option.bind_eq_bind, Option.bind_some]

theorem popCases_read {other new : Option Expr} {bs cs : List (Expr × Expr)}
    (ho : OtherRead other new) (hb : BranchesRead bs cs) (ps : List Piece) :
    Piece.popCases (bs.length + otherCount other)
      (new.toList.map .otherwise ++ ((cs.map fun b => .branch b.1 b.2).reverse ++ ps)) =
      some (new, cs, ps) := by
  have hpop := Piece.popBranches_append cs.reverse ps []
  rw [List.length_reverse, List.map_reverse, List.reverse_reverse, List.append_nil] at hpop
  rw [← ho.count, ← hb.length]
  cases new with
  | some v =>
    simp only [otherCount, Option.toList_some, List.map_cons, List.map_nil, List.singleton_append,
      Piece.popCases, hpop, Option.bind_eq_bind, Option.bind_some]
  | none =>
    simp only [otherCount, Option.toList_none, List.map_nil, List.nil_append, Nat.add_zero]
    rw [← List.map_reverse] at hpop ⊢
    unfold Piece.popCases
    split
    · next n v below hlength htop =>
      -- a branch is on top, unless there is none
      cases hr : cs.reverse with
      | nil =>
        rw [List.reverse_eq_nil_iff.mp hr] at hlength
        cases hlength
      | cons b rest =>
        rw [hr] at htop
        cases htop
    · rw [hpop]
      rfl

theorem read_caseCond {other new : Option Expr} {bs cs : List (Expr × Expr)}
    (ho : OtherRead other new) (hb : BranchesRead bs cs) (ps : List Piece) :
    Instruction.read (.caseCond (bs.length + otherCount other))
      (new.toList.map .otherwise ++ ((cs.map fun b => .branch b.1 b.2).reverse ++ ps)) =
      some (.whole (.case none cs new) :: ps) := by
  rw [read_eq (by nofun)]
  simp [popCases_read ho hb]

theorem read_caseMatch {other new : Option Expr} {bs cs : List (Expr × Expr)}
    (ho : OtherRead other new) (hb : BranchesRead bs cs) (p : Piece) (ps : List Piece) :
    Instruction.read (.caseMatch (bs.length + otherCount other))
      (new.toList.map .otherwise ++ ((cs.map fun b => .branch b.1 b.2).reverse ++ p :: ps)) =
      some (.whole (.case (some p.expr) cs new) :: ps) := by
  rw [read_eq (by nofun)]
  simp [popCases_read ho hb]

mutual

theorem read_compile : (e : Expr) → e.Regular → ∃ p, e.Reads p
  | .literal v, he => ⟨.whole (.literal v), .whole he rfl rfl rfl fun _ _ => rfl⟩
  | .undefined, he => ⟨.whole .undefined, .whole he rfl rfl rfl fun _ _ => rfl⟩
  | .variable n, he => ⟨.whole (.variable n), .whole he rfl rfl rfl fun _ _ => rfl⟩
  | .unary op e, he => by
    obtain ⟨p, hp⟩ := read_compile e he.2
    refine ⟨.whole (.unary op p.expr), .whole ⟨he.1, hp.regular⟩ ?_ rfl ?_ ?_⟩
    · simp only [compile, hp.compile]
    · simp only [ordered, hp.ordered]
    · intro rest ps
      rw [compile, List.append_assoc, hp.read]
      rfl
  | .binary op l r, he => by
    obtain ⟨p, hp⟩ := read_compile l he.2.1
    obtain ⟨q, hq⟩ := read_compile r he.2.2
    have hop : op ∉ Instruction.connectives := by
      simpa [Instruction.isStructural] using he.1
    refine ⟨.whole (.binary op p.expr q.expr),
      .whole ⟨he.1, hp.regular, hq.regular⟩ ?_ rfl ?_ ?_⟩
    · simp only [compile, hp.compile, hq.compile]
    · simp only [ordered, hp.isSequence, hp.ordered, hq.isSequence, hq.ordered]
    · intro rest ps
      rw [compile, List.append_assoc, hp.read, List.append_assoc, hq.read, List.singleton_append,
        read_cons (read_binary hop p q hp.operand ps)]
  | .connective c l r, he => by
    obtain ⟨p, hp⟩ := read_compile l he.1
    obtain ⟨q, hq⟩ := read_compile r he.2
    refine ⟨.whole (.connective c p.expr q.expr), .whole ⟨hp.regular, hq.regular⟩ ?_ rfl ?_ ?_⟩
    · simp only [compile, hp.compile, hq.compile]
    · simp only [ordered, hp.ordered, hq.ordered]
    · intro rest ps
      rw [compile, List.append_assoc, hp.read, List.cons_append, read_cons (hq.group _)]
      exact read_cons (read_connective c p q.expr ps)
  | .conditional t y n, he => by
    obtain ⟨p, hp⟩ := read_compile t he.1
    obtain ⟨q, hq⟩ := read_compile y he.2.1
    obtain ⟨r, hr⟩ := read_compile n he.2.2
    refine ⟨.whole (.conditional p.expr q.expr r.expr),
      .whole ⟨hp.regular, hq.regular, hr.regular⟩ ?_ rfl ?_ ?_⟩
    · simp only [compile, hp.compile, hq.compile, hr.compile]
    · simp only [ordered, hp.ordered, hq.ordered, hr.ordered]
    · intro rest ps
      rw [compile, List.append_assoc, hp.read, List.cons_append, read_cons (hq.group _),
        List.cons_append, read_cons (hr.group _)]
      rfl
  | .assign root members v, he => by
    obtain ⟨p, hp⟩ := read_compile v he
    refine ⟨.whole (.assign (path root members) [] p.expr), .whole hp.regular ?_ rfl ?_ ?_⟩
    · simp only [compile, hp.compile]
      rfl
    · simp only [ordered, hp.ordered]
    · intro rest ps
      rw [compile, List.cons_append, List.cons_append, List.cons_append,
        read_cons (read_target (path root members) ps), read_cons (hp.group _)]
      rfl
  | .define name params body, he => by
    obtain ⟨p, hp⟩ := read_compile body he
    refine ⟨.whole (.define name params p.expr), .whole hp.regular ?_ rfl ?_ ?_⟩
    · simp only [compile, hp.compile]
    · simp only [ordered, hp.ordered]
    · intro rest ps
      rw [compile, List.cons_append, read_cons (read_target name ps), List.append_assoc,
        read_targets, List.cons_append, read_cons (hp.group _), List.singleton_append,
        read_cons (read_define name params p.expr ps)]
  | .call f args, he => by
    obtain ⟨p, hp⟩ := read_compile f he.1
    obtain ⟨qs, hqs⟩ := read_compileItems args he.2
    refine ⟨.whole (.call p.expr (qs.map Piece.expr)),
      .whole ⟨hp.regular, hqs.regular⟩ ?_ rfl ?_ ?_⟩
    · simp only [compile, hp.compile, hqs.compile, List.length_map, hqs.length]
    · simp only [ordered, hp.isSequence, hp.ordered, hqs.ordered]
    · intro rest ps
      rw [compile, List.append_assoc, hp.read, List.append_assoc, hqs.read,
        List.singleton_append, ← hqs.length, read_cons (read_call p qs ps)]
  | .member e n, he => by
    obtain ⟨p, hp⟩ := read_compile e he
    refine ⟨.whole (.member p.expr n), .whole hp.regular ?_ rfl ?_ ?_⟩
    · simp only [compile, hp.compile]
    · simp only [ordered, hp.ordered]
    · intro rest ps
      rw [compile, List.append_assoc, hp.read]
      rfl
  | .array items, he => by
    obtain ⟨qs, hqs⟩ := read_compileItems items he
    refine ⟨.whole (.array (qs.map Piece.expr)), .whole hqs.regular ?_ rfl ?_ ?_⟩
    · simp only [compile, hqs.compile, List.length_map, hqs.length]
    · simp only [ordered, hqs.ordered]
    · intro rest ps
      rw [compile, List.append_assoc, hqs.read, List.singleton_append, ← hqs.length,
        read_cons (read_array qs ps)]
  | .object fields, he => by
    obtain ⟨gs, hgs⟩ := read_compileFields fields he
    refine ⟨.whole (.object gs), .whole hgs.regular ?_ rfl ?_ ?_⟩
    · simp only [compile, hgs.compile]
    · simp only [ordered, hgs.ordered]
    · intro rest ps
      rw [compile, List.cons_append, read_cons (read_objectStart ps), List.append_assoc, hgs.read,
        List.append_nil, List.singleton_append, read_cons (read_objectEnd gs ps)]
  | .case none branches other, he => by
    obtain ⟨cs, hcs⟩ := read_compileBranches branches he.2.1
    obtain ⟨new, hnew⟩ := read_compileOther other he.2.2
    refine ⟨.whole (.case none cs new),
      .whole ⟨trivial, hcs.regular, hnew.regular⟩ ?_ rfl ?_ ?_⟩
    · simp only [compile, hcs.compile, hcs.length, hnew.compile, hnew.count]
    · simp only [ordered, hcs.ordered, hnew.ordered]
    · intro rest ps
      have hread := read_caseCond hnew hcs ps
      rw [compile, List.append_assoc, hcs.read _ _ _ _ (fun _ _ _ _ => rfl), List.append_assoc,
        hnew.read, List.singleton_append, read_cons hread]
  | .case (some t) branches other, he => by
    obtain ⟨p, hp⟩ := read_compile t he.1
    obtain ⟨cs, hcs⟩ := read_compileBranches branches he.2.1
    obtain ⟨new, hnew⟩ := read_compileOther other he.2.2
    refine ⟨.whole (.case (some p.expr) cs new),
      .whole ⟨hp.regular, hcs.regular, hnew.regular⟩ ?_ rfl ?_ ?_⟩
    · simp only [compile, hp.compile, hcs.compile, hcs.length, hnew.compile, hnew.count]
    · simp only [ordered, hp.isSequence, hp.ordered, hcs.ordered, hnew.ordered]
    · intro rest ps
      have hread := read_caseMatch hnew hcs p ps
      rw [compile, List.append_assoc, hp.read, List.append_assoc,
        hcs.read _ _ _ _ (fun _ _ _ _ => rfl), List.append_assoc, hnew.read,
        List.singleton_append, read_cons hread]
  | .sequence a b, he => by
    obtain ⟨p, hp⟩ := read_compile a he.1
    obtain ⟨q, hq⟩ := read_compile b he.2
    refine ⟨.apart (some p.expr) q.expr, ⟨hp.regular, hq.regular⟩, ?_, rfl, ?_,
      (fun n h => by cases h), ?_⟩
    · show [Instruction.group (p.expr.compile ++ .endStatement :: q.expr.compile)] = _
      rw [hp.compile, hq.compile]
      rfl
    · show (p.expr.ordered && q.expr.ordered) = _
      rw [hp.ordered, hq.ordered]
      rfl
    · intro rest ps
      rw [compile, List.singleton_append, read_cons (read_sequence hp hq ps)]
  | .closed a, he => by
    obtain ⟨p, hp⟩ := read_compile a he
    refine ⟨.apart none p.expr, hp.regular, ?_, rfl, ?_, (fun n h => by cases h), ?_⟩
    · show [Instruction.group p.expr.compile] = [.group a.compile]
      rw [hp.compile]
    · show p.expr.ordered = _
      rw [hp.ordered]
      rfl
    · intro rest ps
      rw [compile, List.singleton_append, read_cons (hp.group _)]

theorem read_compileItems : (es : List Expr) → AllItems (fun i => i.isStructural = false) es →
    ∃ qs, ItemsRead es qs
  | [], _ => ⟨[], ⟨trivial, rfl, rfl, rfl, fun _ _ => rfl⟩⟩
  | e :: rest, he => by
    obtain ⟨q, hq⟩ := read_compile e he.1
    obtain ⟨qs, hqs⟩ := read_compileItems rest he.2
    refine ⟨q :: qs, ⟨⟨hq.regular, hqs.regular⟩, ?_, ?_, congrArg (· + 1) hqs.length, ?_⟩⟩
    · simp only [List.map_cons, compileItems, hq.compile, hqs.compile]
    · simp only [List.map_cons, orderedItems, hq.isSequence, hq.ordered, hqs.ordered]
    · intro code ps
      rw [compileItems, List.append_assoc, hq.read, hqs.read, List.reverse_cons, List.append_assoc,
        List.singleton_append]

theorem read_compileFields : (fs : List (String × Expr)) →
    AllFields (fun i => i.isStructural = false) fs → ∃ gs, FieldsRead fs gs
  | [], _ => ⟨[], ⟨trivial, rfl, rfl, fun _ _ _ => rfl⟩⟩
  | (key, e) :: rest, he => by
    obtain ⟨q, hq⟩ := read_compile e he.1
    obtain ⟨gs, hgs⟩ := read_compileFields rest he.2
    refine ⟨(key, q.expr) :: gs, ⟨⟨hq.regular, hgs.regular⟩, ?_, ?_, ?_⟩⟩
    · simp only [compileFields, hq.compile, hgs.compile]
    · simp only [orderedFields, hq.ordered, hgs.ordered]
    · intro code acc ps
      rw [compileFields, List.append_assoc, hq.read, List.cons_append,
        read_cons (read_property key q acc ps), hgs.read, List.reverse_cons,
        List.append_assoc, List.singleton_append]

theorem read_compileBranches : (bs : List (Expr × Expr)) →
    AllBranches (fun i => i.isStructural = false) bs → ∃ cs, BranchesRead bs cs
  | [], _ => ⟨[], ⟨trivial, fun _ _ => rfl, rfl, rfl, fun _ _ _ _ _ => rfl⟩⟩
  | (c, v) :: rest, he => by
    obtain ⟨p, hp⟩ := read_compile c he.1
    obtain ⟨q, hq⟩ := read_compile v he.2.1
    obtain ⟨cs, hcs⟩ := read_compileBranches rest he.2.2
    refine ⟨(p.expr, q.expr) :: cs, ⟨⟨hp.regular, hq.regular, hcs.regular⟩, ?_, ?_,
      congrArg (· + 1) hcs.length, ?_⟩⟩
    · intro branch k
      simp only [compileBranches, hp.compile, hq.compile, hcs.compile]
    · simp only [orderedBranches, hp.isSequence, hp.ordered, hq.ordered, hcs.ordered]
    · intro branch k code ps hbranch
      rw [compileBranches, List.append_assoc, hp.read, List.cons_append, read_cons (hq.group _),
        List.cons_append, read_cons (hbranch k _ _ _), hcs.read _ _ _ _ hbranch, List.map_cons,
        List.reverse_cons, List.append_assoc, List.singleton_append]

theorem read_compileOther : (other : Option Expr) →
    AllOption (fun i => i.isStructural = false) other → ∃ new, OtherRead other new
  | none, _ => ⟨none, ⟨trivial, rfl, rfl, rfl, fun _ _ => rfl⟩⟩
  | some e, he => by
    obtain ⟨p, hp⟩ := read_compile e he
    refine ⟨some p.expr, ⟨hp.regular, ?_, ?_, rfl, ?_⟩⟩
    · simp only [compileOther, hp.compile]
    · simp only [orderedOption, hp.ordered]
    · intro code ps
      rw [compileOther, List.cons_append, read_cons (hp.group _)]
      rfl

end

end Expr

/-- A program compiled from a part is read as a part that it is also compiled from. No sequence
stands among operands of the one unless it does in the other. -/
theorem Program.part?_part {first : Option Expr} {last : Expr}
    (hf : ∀ a ∈ first, a.Regular) (hl : last.Regular) :
    ∃ first' last', Program.part? (Expr.part first last) = some (first', last') ∧
      (∀ a ∈ first', a.Regular) ∧ last'.Regular ∧
      Expr.part first' last' = Expr.part first last ∧
      Expr.orderedOption first' = Expr.orderedOption first ∧ last'.ordered = last.ordered := by
  obtain ⟨q, hq⟩ := Expr.read_compile last hl
  cases first with
  | none =>
    have hread := hq.read [] []
    rw [List.append_nil] at hread
    refine ⟨none, q.expr, ?_, (fun a h => (Option.not_mem_none a h).elim), hq.regular,
      hq.compile, rfl, hq.ordered⟩
    simp only [Program.part?, Expr.part, hread, Program.read, Piece.part?, Option.bind_eq_bind,
      Option.bind_some]
  | some a =>
    obtain ⟨p, hp⟩ := Expr.read_compile a (hf a rfl)
    have hend : Instruction.read .endStatement [p] = some [.statement p.expr] := rfl
    have hlast := hq.read [] [.statement p.expr]
    rw [List.append_nil] at hlast
    refine ⟨some p.expr, q.expr, ?_, ?_, hq.regular, ?_, hp.ordered, hq.ordered⟩
    · rw [Program.part?, Expr.part, hp.read, Program.read_cons hend, hlast]
      rfl
    · intro b hb
      cases hb
      exact hp.regular
    · simp only [Expr.part, hp.compile, hq.compile]

end Formula
