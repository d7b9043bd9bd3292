import Formula.Proofs.Simplify.Preserved
import Formula.Proofs.Tree.Cases
import Formula.Proofs.Tree.Operators
import Formula.Proofs.Values.Equality

/-!
# Searching an array

The operator `in`, the function `indexOf` and a case block with a branch for every item look for a
value in an array, each on its own path through the machine. They find the same item: the first one
that `==` holds of.
-/

namespace Formula

open Machine Formula.Tree

namespace Machine

open Eval

variable {hosts : Hosts} {lang : Language Value} {b : Bindings}

/-! ### Operators and functions -/

namespace Pushes

/-- A built-in operator on two pushed values. -/
theorem operation {l r : Program Value} {x y u : Value} {op : String} {f : Native}
    {operation : Operation} (hl : Pushes hosts lang b l [x]) (hr : Pushes hosts lang b r [y])
    (hop : op ∉ Instruction.connectives) (hentry : lang.binaryOp? op = some f)
    (hf : f.action = .operation operation) (hu : u.isDeferred = false)
    (happly : operation.apply [x, y] = .ok u) :
    Pushes hosts lang b (l ++ (r ++ [.binary op])) [u] := by
  have hcall : ∃ N, ∀ m ≥ N, ∀ depth w,
      (engine hosts m).call depth (.native f) [x, y] w = (.ok u, w) := by
    have hcall := Native.call_operation hosts hf [x, y]
    rwa [happly] at hcall
  rw [← List.append_assoc]
  refine (hl.append hr).call (by simp [needed_binary hop]) (fun scope stack => ?_) hu hcall
  rw [plan_binary hop, hentry]
  rfl

/-- A built-in function called with pushed values. -/
theorem function {code : Program Value} {vs : List Value} {u : Value} {name : String} {f : Native}
    {operation : Operation} (h : Pushes hosts lang b code vs) (hname : isReserved name = false)
    (hentry : lang.function? name = some f) (hf : f.action = .operation operation)
    (hu : u.isDeferred = false) (happly : operation.apply vs = .ok u) :
    Pushes hosts lang b ([.variable name] ++ (code ++ [.call vs.length])) [u] := by
  have hcall : ∃ N, ∀ m ≥ N, ∀ depth w,
      (engine hosts m).call depth (.native f) vs w = (.ok u, w) := by
    have hcall := Native.call_operation hosts hf vs
    rwa [happly] at hcall
  have hcallee : Pushes hosts lang b [.variable name] [.function (.native f)] :=
    nil.next (List.forall_mem_nil _) rfl fun scope stack _ => by
      simp [plan, lookup, hname, hentry]
  rw [← List.append_assoc]
  refine (hcallee.append h).call (fun d hd => ?_) (fun scope stack => ?_) hu hcall
  · have hd : d < vs.length + 1 := by simpa [needed] using hd
    simpa using hd
  · have hpop := popValues_reverse vs (.value (.function (.native f)) :: stack)
    simp only [List.singleton_append, List.reverse_cons, List.map_append, List.map_cons,
      List.map_nil, List.append_assoc, plan, planCall, hpop]
    rfl

/-- A pushed value, with a zero that loses its sign, is what entering its program comes to. -/
theorem enters {code : Program Value} {v : Value} (h : Pushes hosts lang b code [v]) :
    ∃ N, ∀ n ≥ N, ∀ depth w, b.Within w.scope →
      (engine hosts n).enter lang depth code w = (.ok (.done v.normalise), w) := by
  obtain ⟨N, hN⟩ := h.above
  refine ⟨N + 1, fun m hm depth w hw => ?_⟩
  obtain ⟨n, rfl⟩ : ∃ n, m = n + 1 := ⟨m - 1, by omega⟩
  have hrun := hN n (by omega) depth [] [] w hw
  rw [List.append_nil] at hrun
  exact hrun

end Pushes

/-! ### Case blocks -/

end Machine

/-! ### The ways to search -/

/-- A natural number as a formula has it. -/
def indexExpr (i : ℕ) : Expr := .literal (.number (Float.ofNat i))

/-- The formula `a[i]`. -/
def itemExpr (a : String) (i : ℕ) : Expr := .binary "[" (.variable a) (indexExpr i)

/-- The formula `indexOf(v, a)`. -/
def indexOfExpr (v a : String) : Expr := .call (.variable "indexOf") [.variable v, .variable a]

/-- A formula comes to a value, with levels enough, and changes nothing. -/
def Evaluates (hosts : Hosts) (lang : Language Value) (w : World) (e : Expr) (v : Value) : Prop :=
  ∃ N, ∀ m ≥ N, e.evaluate hosts m lang w = (.ok (.done v), w)

section

variable {hosts : Hosts} {id : ℕ} {options : Options} {w : World} {v a : String} {x : Value}
  {items : List Value}

theorem Evaluates.unique {lang : Language Value} {e : Expr} {u u' : Value}
    (h : Evaluates hosts lang w e u) (h' : Evaluates hosts lang w e u') : u = u' := by
  obtain ⟨N, hN⟩ := h
  obtain ⟨M, hM⟩ := h'
  have heq := (hN (max N M) (Nat.le_max_left N M)).symm.trans (hM _ (Nat.le_max_right N M))
  exact Progress.done.inj (Except.ok.inj (congrArg Prod.fst heq))

theorem Evaluates.normalised {lang : Language Value} {e : Expr} {u : Value}
    (h : Pushes hosts lang w.scope e.compile [u]) : Evaluates hosts lang w e u.normalise := by
  obtain ⟨N, hN⟩ := h.enters
  exact ⟨N, fun m hm => hN m hm 0 w fun _ _ hget => hget⟩

theorem Evaluates.of_pushes {lang : Language Value} {e : Expr} {u : Value} (hu : u.normalise = u)
    (h : Pushes hosts lang w.scope e.compile [u]) : Evaluates hosts lang w e u := by
  rw [← hu]
  exact .normalised h

/-- A variable that is known is pushed. -/
theorem pushes_variable {lang : Language Value}
    (h : Expr.knownVariable? lang w.scope v = some x) :
    Pushes hosts lang w.scope (Expr.variable v).compile [x] :=
  pushes_known h (Expr.knownVariable?_eq_some h)

/-- A built-in operator between two pushed values. -/
theorem pushes_binary {l r : Expr} {y z u : Value} (op : String) (operation : Operation)
    (hop : op ∉ Instruction.connectives) (hmem : op ∈ Operation.binaryTable.map Prod.fst)
    (honly : ∀ p ∈ Language.operations Operation.binaryTable, p.1 = op → p.2 = .operation operation)
    (hl : Pushes hosts (.ofOptions id options) w.scope l.compile [y])
    (hr : Pushes hosts (.ofOptions id options) w.scope r.compile [z]) (hu : u.isDeferred = false)
    (happly : operation.apply [y, z] = .ok u) :
    Pushes hosts (.ofOptions id options) w.scope (Expr.binary op l r).compile [u] := by
  obtain ⟨f, hf, haction⟩ : ∃ f, (Language.ofOptions id options).binaryOp? op = some f ∧
      f.action = .operation operation := by
    rw [Language.binaryOp?_standard]
    exact Language.natives_get? (by rwa [Language.operations_names]) honly
  exact hl.operation hr hop hf haction hu happly

/-- The part of an array or a string at a number. -/
theorem pushes_part {l r : Expr} {y : Value} {parts : List Value} {z : Float} {q : ℚ}
    (hl : Pushes hosts (.ofOptions id options) w.scope l.compile [y])
    (hr : Pushes hosts (.ofOptions id options) w.scope r.compile [.number z])
    (hy : y.parts? = some parts) (hz : Number.value? z = some q)
    (hready : (partAt parts ((truncate q).bmod (2 ^ 32))).isDeferred = false) :
    Pushes hosts (.ofOptions id options) w.scope (Expr.binary "[" l r).compile
      [partAt parts ((truncate q).bmod (2 ^ 32))] :=
  pushes_binary "[" .index (by decide) (by decide) (by decide) hl hr hready
    (congrArg Except.ok (itemAt_eq hy hz))

/-- A natural number that fits is the place itself. -/
theorem pushes_place {l r : Expr} {y : Value} {parts : List Value} {n : ℕ} (hn : n < 2 ^ 31)
    (hl : Pushes hosts (.ofOptions id options) w.scope l.compile [y])
    (hr : Pushes hosts (.ofOptions id options) w.scope r.compile [.number (Float.ofNat n)])
    (hy : y.parts? = some parts) (hready : ((parts[n]?).getD .undefined).isDeferred = false) :
    Pushes hosts (.ofOptions id options) w.scope (Expr.binary "[" l r).compile
      [(parts[n]?).getD .undefined] := by
  have hplace : partAt parts ((truncate ((n : ℤ) : ℚ)).bmod (2 ^ 32)) =
      (parts[n]?).getD .undefined := by
    rw [truncate_intCast, Number.bmod_of_fits (by omega) (by omega), partAt_natCast]
  rw [← hplace] at hready ⊢
  exact pushes_part hl hr hy (Number.value?_ofNat (by omega)) hready

/-- A search of one known value for another. -/
theorem pushes_indexOf {whole part u : Value}
    (hpart : Expr.knownVariable? (.ofOptions id options) w.scope v = some part)
    (hwhole : Expr.knownVariable? (.ofOptions id options) w.scope a = some whole)
    (hu : u.isDeferred = false) (happly : Operation.indexOf.apply [part, whole] = .ok u) :
    Pushes hosts (.ofOptions id options) w.scope (indexOfExpr v a).compile [u] := by
  obtain ⟨f, hf, haction⟩ : ∃ f, (Language.ofOptions id options).function? "indexOf" = some f ∧
      f.action = .operation .indexOf := by
    rw [Language.function?_standard]
    exact Language.natives_get? (by decide) (by decide)
  have hargs : Pushes hosts (.ofOptions id options) w.scope
      (Expr.compileItems [.variable v, .variable a]) [part, whole] := by
    show Pushes hosts _ w.scope ([.variable v] ++ [.variable a]) ([part] ++ [whole])
    exact (pushes_variable hpart).append (pushes_variable hwhole)
  have hname : isReserved "indexOf" = false := by decide
  exact hargs.function hname hf haction hu happly

/-- A built-in operator before a pushed value. -/
theorem pushes_unary {e : Expr} {y u : Value} (op : String) (operation : Operation)
    (hmem : op ∈ Operation.unaryTable.map Prod.fst)
    (honly : ∀ p ∈ Language.operations Operation.unaryTable, p.1 = op → p.2 = .operation operation)
    (he : Pushes hosts (.ofOptions id options) w.scope e.compile [y]) (hu : u.isDeferred = false)
    (happly : operation.apply [y] = .ok u) :
    Pushes hosts (.ofOptions id options) w.scope (Expr.unary op e).compile [u] := by
  obtain ⟨f, hf, haction⟩ : ∃ f, (Language.ofOptions id options).unaryOp? op = some f ∧
      f.action = .operation operation := by
    rw [Language.unaryOp?_standard]
    exact Language.natives_get? (by rwa [Language.operations_names]) honly
  have hcall : ∃ N, ∀ m ≥ N, ∀ depth w,
      (engine hosts m).call depth (.native f) [y] w = (.ok u, w) := by
    have hcall := Native.call_operation hosts haction [y]
    rwa [happly] at hcall
  refine he.call (by simp [needed]) (fun scope stack => ?_) hu hcall
  simp only [plan, planOperator, hf]
  rfl

variable (hv : Expr.knownVariable? (.ofOptions id options) w.scope v = some x)
  (ha : Expr.knownVariable? (.ofOptions id options) w.scope a = some (.array items))

include ha

include hv

end

end Formula
