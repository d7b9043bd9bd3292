import Formula.Proofs.Machine.Sound
import Formula.Standard

/-!
# Extended languages

A language is configured by options, and by adding functions of the host, constants and
resolutions to the standard tables. Entries can be replaced but not removed, so whatever the
grammar names stays in its table.
-/

namespace Formula

namespace Record

variable {α : Type}

theorem get?_insert_isSome {r : Record α} {name : String} (key : String) (v : α)
    (h : (get? r name).isSome) : (get? (insert r key v) name).isSome := by
  by_cases hk : name = key
  · rw [hk, get?_insert_self]
    rfl
  · rw [get?_insert_of_ne r v hk]
    exact h

theorem mem_ofPairs {pairs : List (String × α)} {p : String × α} (h : p ∈ ofPairs pairs) :
    p ∈ pairs := by
  have hfold : ∀ (pairs : List (String × α)) (r : Record α),
      p ∈ pairs.foldl (fun r q => insert r q.1 q.2) r → p ∈ r ∨ p ∈ pairs := by
    intro pairs
    induction pairs with
    | nil => exact fun r hr => Or.inl hr
    | cons q rest ih =>
      intro r hr
      rcases ih _ hr with hr | hr
      · rcases mem_insert hr with rfl | hr
        · exact Or.inr (List.mem_cons_self ..)
        · exact Or.inl hr
      · exact Or.inr (List.mem_cons_of_mem _ hr)
  exact (hfold pairs [] h).resolve_left (List.not_mem_nil)

theorem get?_ofPairs_isSome {pairs : List (String × α)} {name : String}
    (h : name ∈ pairs.map Prod.fst) : (get? (ofPairs pairs) name).isSome := by
  have hfold : ∀ (pairs : List (String × α)) (r : Record α),
      (get? r name).isSome ∨ name ∈ pairs.map Prod.fst →
        (get? (pairs.foldl (fun r p => insert r p.1 p.2) r) name).isSome := by
    intro pairs
    induction pairs with
    | nil =>
      intro r hr
      exact hr.resolve_right (List.not_mem_nil)
    | cons p rest ih =>
      intro r hr
      refine ih _ ?_
      rcases hr with hr | hr
      · exact Or.inl (get?_insert_isSome p.1 p.2 hr)
      · rcases List.mem_cons.mp hr with hr | hr
        · subst hr
          exact Or.inl (by rw [get?_insert_self]; rfl)
        · exact Or.inr hr
  exact hfold pairs [] (Or.inr h)

end Record

namespace Language

theorem mem_natives {id : Nat} {table : List (String × Action)} {p : String × Native}
    (h : p ∈ natives id table) : (p.1, p.2.action) ∈ table := by
  obtain ⟨q, hq, rfl⟩ := List.mem_map.mp (Record.mem_ofPairs h)
  exact List.fst_mem_of_mem_zipIdx hq

theorem natives_isSome {id : Nat} {table : List (String × Action)} {name : String}
    (h : name ∈ table.map Prod.fst) : (Record.get? (natives id table) name).isSome := by
  refine Record.get?_ofPairs_isSome ?_
  obtain ⟨p, hp, rfl⟩ := List.mem_map.mp h
  obtain ⟨i, hi⟩ := List.mem_iff_getElem?.mp hp
  refine List.mem_map.mpr ⟨(p.1, ⟨id + i, p.1, p.2⟩), List.mem_map.mpr ⟨(p, i), ?_, rfl⟩, rfl⟩
  exact List.mem_zipIdx_iff_getElem?.mpr hi

/-- What a name of a table does, if the table has the name once. -/
theorem natives_get? {id : Nat} {table : List (String × Action)} {name : String} {action : Action}
    (hmem : name ∈ table.map Prod.fst) (honly : ∀ p ∈ table, p.1 = name → p.2 = action) :
    ∃ f, Record.get? (natives id table) name = some f ∧ f.action = action := by
  obtain ⟨f, hf⟩ := Option.isSome_iff_exists.mp (@natives_isSome id _ _ hmem)
  exact ⟨f, hf, honly _ (mem_natives (Record.mem_of_get? hf)) rfl⟩

theorem operations_names (table : List (String × Operation)) :
    (operations table).map Prod.fst = table.map Prod.fst := by
  simp only [operations, List.map_map]
  rfl

theorem unaryOp?_standard (id : Nat) (options : Options) (op : String) :
    (ofOptions id options).unaryOp? op =
      Record.get? (natives id (operations Operation.unaryTable)) op := by
  simp only [unaryOp?, ofOptions, Language.standard]

theorem binaryOp?_standard (id : Nat) (options : Options) (op : String) :
    (ofOptions id options).binaryOp? op =
      Record.get? (natives (id + Operation.unaryTable.length)
        (operations Operation.binaryTable)) op := by
  simp only [binaryOp?, ofOptions, Language.standard]

theorem function?_standard (id : Nat) (options : Options) (name : String) :
    (ofOptions id options).function? name =
      Record.get? (natives (id + Operation.unaryTable.length + Operation.binaryTable.length +
        Operation.ternaryTable.length) Operation.functionTable) name := by
  simp only [function?, ofOptions, Language.standard]

/-- A language with the standard operators, in which operators need not be the standard ones. -/
structure Complete (lang : Language Value) : Prop where
  unary : ∀ op ∈ Operation.unaryTable.map Prod.fst, (lang.unaryOp? op).isSome
  binary : ∀ op ∈ Operation.binaryTable.map Prod.fst, (lang.binaryOp? op).isSome

/-- The languages that configuration gives; constants and resolutions obey a guard. -/
inductive Extended (g : Guard) : Language Value → Prop
  | standard (id : Nat) (options : Options) : Extended g (.ofOptions id options)
  | add {lang : Language Value} (table : Table) (name : String) (id : Nat) (key : String) :
      Extended g lang → Extended g (lang.add table name id key)
  | constant {lang : Language Value} (name : String) {v : Value} :
      v.Obeys g → Extended g lang → Extended g (lang.addConstant name v)
  | resolver {lang : Language Value} {resolver : List (String × Resolution Value)} :
      (∀ name v, (name, .value v) ∈ resolver → v.Obeys g) → Extended g lang →
      Extended g { lang with resolver }

namespace Extended

variable {g : Guard} {lang : Language Value}

theorem complete (h : Extended g lang) : lang.Complete := by
  induction h with
  | standard id options =>
    constructor
    · intro op hop
      rw [← operations_names] at hop
      rw [unaryOp?_standard]
      exact natives_isSome hop
    · intro op hop
      rw [← operations_names] at hop
      rw [binaryOp?_standard]
      exact natives_isSome hop
  | add table name id key _ ih =>
    cases table with
    | unary => exact ⟨fun op hop => Record.get?_insert_isSome _ _ (ih.unary op hop), ih.binary⟩
    | binary => exact ⟨ih.unary, fun op hop => Record.get?_insert_isSome _ _ (ih.binary op hop)⟩
    | ternary => exact ⟨ih.unary, ih.binary⟩
    | functions => exact ⟨ih.unary, ih.binary⟩
  | constant _ _ _ ih => exact ⟨ih.unary, ih.binary⟩
  | resolver _ _ ih => exact ⟨ih.unary, ih.binary⟩

theorem constants (h : Extended g lang) : Bindings.Obeys g lang.constants := by
  induction h with
  | standard id options =>
    intro p hp
    simp only [ofOptions, Language.standard, standardConstants, List.mem_cons, List.not_mem_nil,
      or_false] at hp
    rcases hp with rfl | rfl | rfl | rfl
    · exact .number _
    · exact .number _
    · exact .bool _
    · exact .bool _
  | add table _ _ _ _ ih =>
    cases table with
    | unary | binary | ternary | functions => exact ih
  | constant name hv _ ih => exact ih.insert name hv
  | resolver _ _ ih => exact ih

theorem obeys (h : Extended g lang) : lang.Obeys g := by
  have hresolver : ∀ name v, (name, .value v) ∈ lang.resolver → v.Obeys g := by
    induction h with
    | standard id options => exact fun name v hv => (List.not_mem_nil hv).elim
    | add table _ _ _ _ ih =>
      cases table with
      | unary | binary | ternary | functions => exact ih
    | constant _ _ _ ih => exact ih
    | resolver hv _ _ => exact hv
  exact .mk fun name v hv => hresolver name v (Record.mem_of_get? hv)

end Extended

end Language

/-! ### Sound programs -/

namespace Expr

/-- Expressions whose operators are not those that the machine gives a meaning. -/
def Regular (e : Expr) : Prop := e.All fun i => i.isStructural = false

end Expr

namespace Guard

/-- Programs are compiled from expressions; operators may have to be in their tables. -/
def code (total : Prop) : Guard where
  native _ := True
  body _ code := ∃ first last,
    (∀ a ∈ first, a.Regular) ∧ last.Regular ∧ code = Expr.part first last
  total := total

/-- Programs are compiled from expressions, and every operator is in its table. -/
abbrev sound : Guard := code True

theorem code_lawful (c : Prop) : (code c).Lawful := by
  rintro _ lang _ ⟨first, last, hf, hl, rfl⟩
  exact Expr.part_balanced hf hl

end Guard

namespace Expr

variable {c : Prop} {lang : Language Value}

theorem Obeys.regular {g : Guard} {e : Expr} (h : e.Obeys g lang) : e.Regular :=
  All.mono (fun _ hi => hi.1) e h

theorem admits_code (c : Prop) (lang : Language Value) : Admits (.code c) lang :=
  fun first last hf hl => ⟨first, last, fun a ha => (hf a ha).regular, hl.regular, rfl⟩

theorem compile_sound {e : Expr} (he : e.Obeys (.code c) lang) :
    Program.Obeys (.code c) lang e.compile :=
  have hcode := compile_obeys (admits_code c lang) e he
  (alone_obeys (admits_code c lang) he hcode).ofGroup

end Expr

end Formula
