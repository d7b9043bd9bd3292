import Formula.Proofs.Expr.Every
import Formula.Proofs.Machine.Yielding

/-!
# Parts that need not be run

Some parts of an expression are run only where their values are wanted: the right operands of
connectives, the branches of conditionals and case blocks, and the bodies of functions. All other
parts are run whenever the expression is. So an expression is barren, which means that no run gets
past it to a value, if one of those is: the operands of an operator, of a call or of an array, what
is tested, what is assigned, and statements.
-/

namespace Formula

open Machine

namespace Expr

mutual

/-- The parts of an expression, at any depth, that need not be run when it is. What a case block
tests is one if nothing is compared with it. -/
def delayed : Expr → List Expr
  | .literal _ | .undefined | .variable _ => []
  | .unary _ e | .member e _ | .closed e | .assign _ _ e => delayed e
  | .binary _ l r | .sequence l r => delayed l ++ delayed r
  | .connective _ l r => delayed l ++ r :: delayed r
  | .conditional t y n => delayed t ++ (y :: delayed y ++ n :: delayed n)
  | .define _ _ body => body :: delayed body
  | .call f args => delayed f ++ delayedItems args
  | .array items => delayedItems items
  | .object fields => delayedFields fields
  | .case tested branches other =>
    delayedOption (!branches.isEmpty) tested ++
      (delayedBranches branches ++ delayedOption false other)

def delayedItems : List Expr → List Expr
  | [] => []
  | e :: rest => delayed e ++ delayedItems rest

def delayedFields : List (String × Expr) → List Expr
  | [] => []
  | (_, e) :: rest => delayed e ++ delayedFields rest

def delayedBranches : List (Expr × Expr) → List Expr
  | [] => []
  | (c, v) :: rest => delayed c ++ (v :: delayed v ++ delayedBranches rest)

def delayedOption (run : Bool) : Option Expr → List Expr
  | none => []
  | some e => if run then delayed e else e :: delayed e

end

/-! ### Expressions that write free names -/

/-- An expression that, itself, binds no name that is bound. -/
def Sparing (b : Bindings) : Expr → Prop
  | .assign root members _ => b.Free (Bindings.root (path root members))
  | .define name params _ => b.Free name ∧ ∀ p ∈ params, b.Free p
  | _ => True

section

variable {b : Bindings}

mutual

theorem written_free : (e : Expr) → e.Every (Sparing b) → ∀ n ∈ e.written, b.Free n
  | .literal _, _ | .undefined, _ | .variable _, _ => List.forall_mem_nil _
  | .unary _ e, h | .member e _, h | .closed e, h => written_free e h.2
  | .binary _ l r, h | .connective _ l r, h | .sequence l r, h =>
    List.forall_mem_append.mpr ⟨written_free l h.2.1, written_free r h.2.2⟩
  | .conditional t y n, h =>
    List.forall_mem_append.mpr ⟨written_free t h.2.1,
      List.forall_mem_append.mpr ⟨written_free y h.2.2.1, written_free n h.2.2.2⟩⟩
  | .assign _ _ v, h => List.forall_mem_cons.mpr ⟨h.1, written_free v h.2⟩
  | .define _ _ _, h => List.forall_mem_singleton.mpr h.1.1
  | .call f args, h =>
    List.forall_mem_append.mpr ⟨written_free f h.2.1, writtenItems_free args h.2.2⟩
  | .array items, h => writtenItems_free items h.2
  | .object fields, h => writtenFields_free fields h.2
  | .case tested branches other, h =>
    List.forall_mem_append.mpr ⟨writtenOption_free tested h.2.1,
      List.forall_mem_append.mpr ⟨writtenBranches_free branches h.2.2.1,
        writtenOption_free other h.2.2.2⟩⟩

theorem writtenItems_free : (es : List Expr) → EveryItem (Sparing b) es →
    ∀ n ∈ writtenItems es, b.Free n
  | [], _ => List.forall_mem_nil _
  | e :: rest, h => List.forall_mem_append.mpr ⟨written_free e h.1, writtenItems_free rest h.2⟩

theorem writtenFields_free : (fields : List (String × Expr)) → EveryField (Sparing b) fields →
    ∀ n ∈ writtenFields fields, b.Free n
  | [], _ => List.forall_mem_nil _
  | (_, e) :: rest, h =>
    List.forall_mem_append.mpr ⟨written_free e h.1, writtenFields_free rest h.2⟩

theorem writtenBranches_free : (branches : List (Expr × Expr)) →
    EveryBranch (Sparing b) branches → ∀ n ∈ writtenBranches branches, b.Free n
  | [], _ => List.forall_mem_nil _
  | (c, v) :: rest, h =>
    List.forall_mem_append.mpr ⟨written_free c h.1,
      List.forall_mem_append.mpr ⟨written_free v h.2.1, writtenBranches_free rest h.2.2⟩⟩

theorem writtenOption_free : (other : Option Expr) → EveryOption (Sparing b) other →
    ∀ n ∈ writtenOption other, b.Free n
  | none, _ => List.forall_mem_nil _
  | some e, h => written_free e h

end

/-- An expression as the grammar makes it, in which no bound name is bound again. -/
structure Modest (b : Bindings) (e : Expr) : Prop where
  regular : e.Regular
  sparing : e.Every (Sparing b)

/-- Expressions as the grammar makes them, in which no bound name is bound again. -/
structure ModestItems (b : Bindings) (es : List Expr) : Prop where
  regular : AllItems (fun i => i.isStructural = false) es
  sparing : EveryItem (Sparing b) es

theorem Modest.writes {e : Expr} (h : e.Modest b) : Program.Writes b.Free e.compile :=
  compile_writes e h.regular (written_free e h.sparing)

theorem ModestItems.writes {es : List Expr} (h : ModestItems b es) :
    Program.Writes b.Free (compileItems es) :=
  compileItems_writes es h.regular (writtenItems_free es h.sparing)

end

section

variable {hosts : Hosts} {lang : Language Value} {waits : Prop} {b : Bindings} {e l r : Expr}

/-- The program of an expression leaves one operand. -/
theorem Modest.brings (h : e.Modest b) :
    Brings hosts lang waits b e.compile fun os => os.length = 1 :=
  (Brings.of_effects h.writes (effects_compile e h.regular [])).mono fun _ hf => hf.length_eq

theorem ModestItems.brings {es : List Expr} (h : ModestItems b es) :
    Brings hosts lang waits b (compileItems es) fun os => os.length = es.length := by
  refine (Brings.of_effects h.writes (effects_compileItems es h.regular [])).mono fun os hf => ?_
  rw [hf.length_eq, List.append_nil, List.length_reverse, List.length_map]

variable (hosts lang waits b) in
/-- An expression that no run gets past to a value: if a run gets past it at all, then it has left a
program that gives no value. -/
def Barren (e : Expr) : Prop :=
  Brings hosts lang waits b e.compile (Machine.Barren hosts lang waits b)

variable (hosts lang waits b) in
/-- Operands that are pushed one after the other, of which one is a program that gives no value. -/
def BarrenItems (es : List Expr) : Prop :=
  Brings hosts lang waits b (compileItems es) fun os => ∃ d < es.length, ∃ body,
    os[d]? = some (.thunk body) ∧ Futile hosts lang waits b body

/-! ### Operands -/

/-- An operand that was brought before another one. -/
theorem getElem?_before {os : List Operand} {o : Operand} {k : Nat} (h : os.length = k) :
    (os ++ [o])[k]? = some o := by
  rw [List.getElem?_append_right (Nat.le_of_eq h), h, Nat.sub_self]
  rfl

theorem barren_unary {op : String} (h : e.Barren hosts lang waits b) :
    (Expr.unary op e).Barren hosts lang waits b := by
  refine (Brings.needed h fun os hos => ?_).mono fun _ hno => hno.elim
  obtain ⟨body, rfl, hbody⟩ := hos
  exact ⟨0, by simp [needed], body, rfl, hbody⟩

theorem barren_member {name : String} (h : e.Barren hosts lang waits b) :
    (Expr.member e name).Barren hosts lang waits b := by
  refine (Brings.needed h fun os hos => ?_).mono fun _ hno => hno.elim
  obtain ⟨body, rfl, hbody⟩ := hos
  exact ⟨0, by simp [needed], body, rfl, hbody⟩

theorem barren_left {op : String} (hop : op ∉ Instruction.connectives)
    (h : l.Barren hosts lang waits b) (hr : r.Modest b) :
    (Expr.binary op l r).Barren hosts lang waits b := by
  have hnever : Brings hosts lang waits b ((l.compile ++ r.compile) ++ [.binary op])
      fun _ => False := by
    refine (Brings.append h hr.brings).needed fun os hos => ?_
    obtain ⟨_, os₂, rfl, ⟨body, rfl, hbody⟩, hlength⟩ := hos
    exact ⟨1, by simp [needed_binary hop], body, getElem?_before hlength, hbody⟩
  rw [List.append_assoc] at hnever
  exact hnever.mono fun _ hno => hno.elim

theorem barren_right {op : String} (hop : op ∉ Instruction.connectives) (hl : l.Modest b)
    (h : r.Barren hosts lang waits b) : (Expr.binary op l r).Barren hosts lang waits b := by
  have hnever : Brings hosts lang waits b (r.compile ++ [.binary op]) fun _ => False := by
    refine Brings.needed h fun os hos => ?_
    obtain ⟨body, rfl, hbody⟩ := hos
    exact ⟨0, by simp [needed_binary hop], body, rfl, hbody⟩
  exact (Brings.never_after hl.writes hnever).mono fun _ hno => hno.elim

theorem barren_connective {c : Connective} (h : l.Barren hosts lang waits b) (hr : r.Modest b) :
    (Expr.connective c l r).Barren hosts lang waits b := by
  have hnever : Brings hosts lang waits b ((l.compile ++ [.group r.compile]) ++ [.binary c.symbol])
      fun _ => False := by
    refine (Brings.append h (Brings.group hr.writes)).needed fun os hos => ?_
    obtain ⟨_, _, rfl, ⟨body, rfl, hbody⟩, rfl⟩ := hos
    exact ⟨1, by simp [needed_connective], body, rfl, hbody⟩
  rw [List.append_assoc] at hnever
  exact hnever.mono fun _ hno => hno.elim

theorem barren_conditional {t y n : Expr} (h : t.Barren hosts lang waits b) (hy : y.Modest b)
    (hn : n.Modest b) : (Expr.conditional t y n).Barren hosts lang waits b := by
  have hnever : Brings hosts lang waits b
      ((t.compile ++ ([.group y.compile] ++ [.group n.compile])) ++ [.ternary "?"])
      fun _ => False := by
    refine (Brings.append h (Brings.append (Brings.group hy.writes)
      (Brings.group hn.writes))).needed fun os hos => ?_
    obtain ⟨_, _, rfl, ⟨body, rfl, hbody⟩, _, _, rfl, rfl, rfl⟩ := hos
    exact ⟨2, by simp [needed], body, rfl, hbody⟩
  rw [List.append_assoc] at hnever
  exact hnever.mono fun _ hno => hno.elim

theorem barrenItems_head {es : List Expr} (h : e.Barren hosts lang waits b)
    (hes : ModestItems b es) : BarrenItems hosts lang waits b (e :: es) := by
  refine (Brings.append h hes.brings).mono fun os hos => ?_
  obtain ⟨_, os₂, rfl, ⟨body, rfl, hbody⟩, hlength⟩ := hos
  exact ⟨es.length, Nat.lt_succ_self _, body, getElem?_before hlength, hbody⟩

theorem barrenItems_tail {es : List Expr} (he : e.Modest b)
    (h : BarrenItems hosts lang waits b es) : BarrenItems hosts lang waits b (e :: es) := by
  refine (Brings.append he.brings h).mono fun os hos => ?_
  obtain ⟨os₁, os₂, rfl, -, d, hd, body, hget, hbody⟩ := hos
  refine ⟨d, Nat.lt_succ_of_lt hd, body, ?_, hbody⟩
  rw [List.getElem?_append_left (List.getElem?_eq_some_iff.mp hget).1, hget]

theorem barren_array {items : List Expr} (h : BarrenItems hosts lang waits b items) :
    (Expr.array items).Barren hosts lang waits b := by
  refine (Brings.needed h fun os hos => ?_).mono fun _ hno => hno.elim
  obtain ⟨d, hd, body, hget, hbody⟩ := hos
  exact ⟨d, by simpa [needed] using hd, body, hget, hbody⟩

theorem barren_callee {f : Expr} {args : List Expr} (h : f.Barren hosts lang waits b)
    (hargs : ModestItems b args) : (Expr.call f args).Barren hosts lang waits b := by
  have hnever : Brings hosts lang waits b ((f.compile ++ compileItems args) ++ [.call args.length])
      fun _ => False := by
    refine (Brings.append h hargs.brings).needed fun os hos => ?_
    obtain ⟨_, os₂, rfl, ⟨body, rfl, hbody⟩, hlength⟩ := hos
    exact ⟨args.length, by simp [needed], body, getElem?_before hlength, hbody⟩
  rw [List.append_assoc] at hnever
  exact hnever.mono fun _ hno => hno.elim

theorem barren_arguments {f : Expr} {args : List Expr} (hf : f.Modest b)
    (h : BarrenItems hosts lang waits b args) : (Expr.call f args).Barren hosts lang waits b := by
  have hnever : Brings hosts lang waits b (compileItems args ++ [.call args.length])
      fun _ => False := by
    refine Brings.needed h fun os hos => ?_
    obtain ⟨d, hd, body, hget, hbody⟩ := hos
    exact ⟨d, by simpa [needed] using Nat.lt_succ_of_lt hd, body, hget, hbody⟩
  exact (Brings.never_after hf.writes hnever).mono fun _ hno => hno.elim

/-! ### Statements -/

theorem barren_assign {root : String} {members : List String}
    (hroot : b.Free (Bindings.root (path root members))) (he : e.Modest b)
    (h : e.Barren hosts lang waits b) : (Expr.assign root members e).Barren hosts lang waits b := by
  intro rest stack w hs hrun
  exact ((yields_assignment hroot he.writes hs hrun).1 (Brings.futile h)).elim

/-- A group whose program gives no value. -/
theorem brings_futile {code : Program Value} (hcode : Program.Writes b.Free code)
    (h : Futile hosts lang waits b code) :
    Brings hosts lang waits b [.group code] (Machine.Barren hosts lang waits b) :=
  (Brings.group hcode).mono fun _ hos => ⟨code, hos, h⟩

theorem barren_closed (he : e.Modest b) (h : e.Barren hosts lang waits b) :
    (Expr.closed e).Barren hosts lang waits b := brings_futile he.writes (Brings.futile h)

theorem statement_writes (hl : l.Modest b) :
    Program.Writes b.Free (l.compile ++ [.endStatement]) :=
  hl.writes.concat rfl fun _ h => by cases h

theorem sequence_writes (hl : l.Modest b) (hr : r.Modest b) :
    Program.Writes b.Free (l.compile ++ .endStatement :: r.compile) :=
  hl.writes.append (.step rfl (fun _ h => by cases h) hr.writes)

theorem barren_first (hl : l.Modest b) (hr : r.Modest b) (h : l.Barren hosts lang waits b) :
    (Expr.sequence l r).Barren hosts lang waits b := by
  have hnever : Brings hosts lang waits b (l.compile ++ [.endStatement]) fun _ => False := by
    refine Brings.needed h fun os hos => ?_
    obtain ⟨body, rfl, hbody⟩ := hos
    exact ⟨0, by simp [needed], body, rfl, hbody⟩
  have hbarren : Brings hosts lang waits b ((l.compile ++ [.endStatement]) ++ r.compile)
      (Machine.Barren hosts lang waits b) := hnever.never
  rw [List.append_assoc] at hbarren
  exact brings_futile (sequence_writes hl hr) hbarren.futile

theorem barren_rest (hl : l.Modest b) (hr : r.Modest b) (h : r.Barren hosts lang waits b) :
    (Expr.sequence l r).Barren hosts lang waits b := by
  -- the first statement leaves nothing
  have heffects : effects (l.compile ++ [.endStatement]) [] = some [] := by
    rw [effects_append, effects_compile l hl.regular, Option.bind_some]
    rfl
  have hbarren : Brings hosts lang waits b ((l.compile ++ [.endStatement]) ++ r.compile)
      (Machine.Barren hosts lang waits b) := by
    have hfirst : Brings hosts lang waits b (l.compile ++ [.endStatement]) (Fits · []) :=
      .of_effects (statement_writes hl) heffects
    refine (Brings.append hfirst h).mono fun os hos => ?_
    obtain ⟨os₁, _, rfl, hf, body, rfl, hbody⟩ := hos
    obtain rfl := List.length_eq_zero_iff.mp hf.length_eq
    exact ⟨body, rfl, hbody⟩
  rw [List.append_assoc] at hbarren
  exact brings_futile (sequence_writes hl hr) hbarren.futile

/-! ### Objects -/

theorem never_field {key : String} {fields : List (String × Expr)}
    (h : e.Barren hosts lang waits b) :
    Brings hosts lang waits b (compileFields ((key, e) :: fields)) fun _ => False := by
  have hnever : Brings hosts lang waits b (e.compile ++ [.property key]) fun _ => False := by
    refine Brings.needed h fun os hos => ?_
    obtain ⟨body, rfl, hbody⟩ := hos
    exact ⟨0, by simp [needed], body, rfl, hbody⟩
  have hall : Brings hosts lang waits b ((e.compile ++ [.property key]) ++ compileFields fields)
      fun _ => False := hnever.never
  rwa [List.append_assoc] at hall

theorem never_fields {key : String} {fields : List (String × Expr)} (he : e.Modest b)
    (h : Brings hosts lang waits b (compileFields fields) fun _ => False) :
    Brings hosts lang waits b (compileFields ((key, e) :: fields)) fun _ => False := by
  have hfield : Program.Writes b.Free (e.compile ++ [.property key]) :=
    he.writes.concat rfl fun _ h => by cases h
  have hall := Brings.never_after hfield h
  rwa [List.append_assoc] at hall

theorem barren_object {fields : List (String × Expr)}
    (h : Brings hosts lang waits b (compileFields fields) fun _ => False) :
    (Expr.object fields).Barren hosts lang waits b := by
  have hstart : Program.Writes b.Free [.objectStart] := .step rfl (fun _ h => by cases h) .nil
  have hnever : Brings hosts lang waits b (compileFields fields ++ [.objectEnd])
      fun _ => False := h.never
  exact (Brings.never_after hstart hnever).mono fun _ hno => hno.elim

/-! ### Case blocks -/

/-- The instruction of a branch: it needs the condition, below the value. -/
structure IsBranch (branch : Nat → Instruction Value) : Prop where
  needed : ∀ k, 1 ∈ needed (branch k)
  writes : ∀ k, (branch k).writes = false
  code : ∀ k body, branch k ≠ .group body

theorem isBranch_whenCond : IsBranch .whenCond :=
  ⟨fun _ => by simp [needed], fun _ => rfl, fun _ _ h => by cases h⟩

theorem isBranch_whenMatch : IsBranch .whenMatch :=
  ⟨fun _ => by simp [needed], fun _ => rfl, fun _ _ h => by cases h⟩

variable {branch : Nat → Instruction Value} {k : Nat} {c v : Expr} {branches : List (Expr × Expr)}

theorem never_condition (hbranch : IsBranch branch) (h : c.Barren hosts lang waits b)
    (hv : v.Modest b) :
    Brings hosts lang waits b (compileBranches branch k ((c, v) :: branches)) fun _ => False := by
  have hnever : Brings hosts lang waits b ((c.compile ++ [.group v.compile]) ++ [branch k])
      fun _ => False := by
    refine (Brings.append h (Brings.group hv.writes)).needed fun os hos => ?_
    obtain ⟨_, _, rfl, ⟨body, rfl, hbody⟩, rfl⟩ := hos
    exact ⟨1, hbranch.needed k, body, rfl, hbody⟩
  have hall : Brings hosts lang waits b (((c.compile ++ [.group v.compile]) ++ [branch k]) ++
      compileBranches branch (k + 1) branches) fun _ => False := hnever.never
  rwa [List.append_assoc, List.append_assoc] at hall

theorem never_branches (hbranch : IsBranch branch) (hc : c.Modest b) (hv : v.Modest b)
    (h : Brings hosts lang waits b (compileBranches branch (k + 1) branches) fun _ => False) :
    Brings hosts lang waits b (compileBranches branch k ((c, v) :: branches)) fun _ => False := by
  have hfirst : Program.Writes b.Free (c.compile ++ [.group v.compile, branch k]) :=
    hc.writes.append (.group hv.writes (.step (hbranch.writes k) (hbranch.code k) .nil))
  have hall := Brings.never_after hfirst h
  rwa [List.append_assoc] at hall

theorem barren_conditions {other : Option Expr}
    (h : Brings hosts lang waits b (compileBranches .whenCond 0 branches) fun _ => False) :
    (Expr.case none branches other).Barren hosts lang waits b := h.never

theorem barren_matches {t : Expr} {other : Option Expr} (ht : t.Modest b)
    (h : Brings hosts lang waits b (compileBranches .whenMatch 0 branches) fun _ => False) :
    (Expr.case (some t) branches other).Barren hosts lang waits b := by
  have hnever : Brings hosts lang waits b (compileBranches .whenMatch 0 branches ++
      (compileOther other ++ [.caseMatch (branches.length + otherCount other)]))
      fun _ => False := h.never
  exact (Brings.never_after ht.writes hnever).mono fun _ hno => hno.elim

/-- What is tested is needed by the first comparison. -/
theorem barren_tested {t : Expr} {other : Option Expr} (h : t.Barren hosts lang waits b)
    (hc : c.Modest b) (hv : v.Modest b) :
    (Expr.case (some t) ((c, v) :: branches) other).Barren hosts lang waits b := by
  have hnever : Brings hosts lang waits b
      ((t.compile ++ (c.compile ++ [.group v.compile])) ++ [.whenMatch 0]) fun _ => False := by
    refine (Brings.append h (Brings.append hc.brings (Brings.group hv.writes))).needed
      fun os hos => ?_
    obtain ⟨_, _, rfl, ⟨body, rfl, hbody⟩, os₁, _, rfl, hlength, rfl⟩ := hos
    exact ⟨2, by simp [needed], body, getElem?_before (congrArg (· + 1) hlength), hbody⟩
  have hall : Brings hosts lang waits b (((t.compile ++ (c.compile ++ [.group v.compile])) ++
      [.whenMatch 0]) ++ (compileBranches .whenMatch 1 branches ++ (compileOther other ++
        [.caseMatch (((c, v) :: branches).length + otherCount other)])))
      (Machine.Barren hosts lang waits b) := hnever.never
  simpa only [Barren, compile, compileBranches, List.append_assoc, List.cons_append,
    List.nil_append, Nat.zero_add] using hall

end

end Expr

end Formula
