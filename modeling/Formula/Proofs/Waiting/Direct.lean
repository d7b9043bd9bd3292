import Formula.Proofs.Expr.Parsed

/-!
# Programs without traversals

The functions of the standard tables that call their arguments have names of their own. A program
that mentions none of them reaches no such function by a name; what the host, the constants and
the variables hold is up to them.
-/

namespace Formula

/-- The native functions that do not call their arguments. -/
def Guard.direct : Guard where
  native f := ∀ t, f.action ≠ .traversal t
  body _ _ := True
  total := False

/-- The names of the functions that call their arguments. -/
def Operation.traversals : List String := ["map", "filter", "fold"]

/-- Whether an instruction reads a variable of one of some names. -/
def Instruction.mentions (names : List String) : Instruction Value → Bool
  | .variable name => names.contains name
  | _ => false

/-- An expression that mentions no traversal. -/
def Expr.Direct (e : Expr) : Prop := e.All fun i => i.mentions Operation.traversals = false

instance (e : Expr) : Decidable e.Direct :=
  inferInstanceAs (Decidable (e.All fun i => i.mentions Operation.traversals = false))

namespace Language

theorem natives_direct {id : Nat} {table : List (String × Operation)} {p : String × Native}
    (h : p ∈ natives id (operations table)) : Guard.direct.native p.2 := by
  intro t ht
  obtain ⟨q, _, hq⟩ := List.mem_map.mp (mem_natives h)
  have haction : Action.operation q.2 = p.2.action := congrArg Prod.snd hq
  rw [ht] at haction
  cases haction

/-- The tables of a language in which only traversals call their arguments. -/
structure Direct (lang : Language Value) : Prop where
  unary : ∀ p ∈ lang.unary, Guard.direct.native p.2
  binary : ∀ p ∈ lang.binary, Guard.direct.native p.2
  ternary : ∀ p ∈ lang.ternary, Guard.direct.native p.2
  functions : ∀ p ∈ lang.functions, p.1 ∉ Operation.traversals → Guard.direct.native p.2

theorem functionTable_direct : ∀ p ∈ Operation.functionTable, p.1 ∉ Operation.traversals →
    ∀ t, p.2 ≠ .traversal t := by
  have htable : ∀ p ∈ Operation.functionTable, p.1 ∉ Operation.traversals →
      ∀ t ∈ [Traversal.map, .filter, .fold], p.2 ≠ .traversal t := by
    decide
  intro p hp hname t
  refine htable p hp hname t ?_
  cases t <;> decide

/-- Functions that the host adds do not call their arguments themselves. -/
theorem Extended.direct {g : Guard} {lang : Language Value} (h : lang.Extended g) :
    lang.Direct := by
  induction h with
  | standard id options =>
    refine ⟨fun p hp => ?_, fun p hp => ?_, fun p hp => ?_, fun p hp hname t ht => ?_⟩ <;>
      simp only [ofOptions, Language.standard] at hp
    · exact natives_direct hp
    · exact natives_direct hp
    · exact natives_direct hp
    have hmem := mem_natives hp
    rw [ht] at hmem
    exact functionTable_direct _ hmem hname t rfl
  | add table name id key _ ih =>
    have hnew : Guard.direct.native ⟨id, name, .host key⟩ := fun t h => by cases h
    have hinsert : ∀ {r : List (String × Native)}, (∀ p ∈ r, Guard.direct.native p.2) →
        ∀ p ∈ Record.insert r name ⟨id, name, .host key⟩, Guard.direct.native p.2 := by
      intro r hr p hp
      rcases Record.mem_insert hp with rfl | hp
      · exact hnew
      · exact hr p hp
    cases table with
    | unary => exact ⟨hinsert ih.unary, ih.binary, ih.ternary, ih.functions⟩
    | binary => exact ⟨ih.unary, hinsert ih.binary, ih.ternary, ih.functions⟩
    | ternary => exact ⟨ih.unary, ih.binary, hinsert ih.ternary, ih.functions⟩
    | functions =>
      refine ⟨ih.unary, ih.binary, ih.ternary, fun p hp hname => ?_⟩
      rcases Record.mem_insert hp with rfl | hp
      · exact hnew
      · exact ih.functions p hp hname
  | constant _ _ _ ih => exact ⟨ih.unary, ih.binary, ih.ternary, ih.functions⟩
  | resolver _ _ ih => exact ⟨ih.unary, ih.binary, ih.ternary, ih.functions⟩

end Language

end Formula
