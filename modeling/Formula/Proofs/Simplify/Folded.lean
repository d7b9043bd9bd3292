import Formula.Evaluation
import Formula.Proofs.Expr.Every
import Formula.Proofs.Expr.Parsed
import Formula.Proofs.Simplify.Runs

/-!
# Simplified expressions

The program of a simplified expression is similar to that of the expression: what has become known
is pushed by both programs, and everything else stands in the same places. So a program that assigns
no variable that was known and defines nothing, and its simplified form, do the same wherever the
variables that were known have the values they had. What is known is not deferred; this takes that no
member that is read of a known value is.
-/

namespace Formula

open Waiting

namespace Expr

mutual

/-- Whether an expression assigns or defines anything. -/
def assigns : Expr → Bool
  | .assign _ _ _ | .define _ _ _ => true
  | .literal _ | .undefined | .variable _ => false
  | .unary _ e | .member e _ | .closed e => assigns e
  | .binary _ l r | .connective _ l r | .sequence l r => assigns l || assigns r
  | .conditional t y n => assigns t || assigns y || assigns n
  | .call f args => assigns f || assignsItems args
  | .array items => assignsItems items
  | .object fields => assignsFields fields
  | .case tested branches other =>
    assignsOption tested || assignsBranches branches || assignsOption other

def assignsItems : List Expr → Bool
  | [] => false
  | e :: rest => assigns e || assignsItems rest

def assignsFields : List (String × Expr) → Bool
  | [] => false
  | (_, e) :: rest => assigns e || assignsFields rest

def assignsBranches : List (Expr × Expr) → Bool
  | [] => false
  | (c, v) :: rest => assigns c || assigns v || assignsBranches rest

def assignsOption : Option Expr → Bool
  | none => false
  | some e => assigns e

end

/-- Whether an expression itself is an assignment or a definition. -/
def isRebinding : Expr → Bool
  | .assign _ _ _ | .define _ _ _ => true
  | _ => false

section

variable {q : Expr → Prop}

mutual

/-- An expression that assigns and defines nothing is one in which nothing does. -/
theorem assigns_every (hq : ∀ e : Expr, e.isRebinding = false → q e) :
    (e : Expr) → e.assigns = false → e.Every q
  | .literal v, _ => hq _ rfl
  | .undefined, _ => hq _ rfl
  | .variable name, _ => hq _ rfl
  | .unary op e, h => ⟨hq _ rfl, assigns_every hq e h⟩
  | .member e name, h => ⟨hq _ rfl, assigns_every hq e h⟩
  | .closed e, h => ⟨hq _ rfl, assigns_every hq e h⟩
  | .binary op l r, h => by
    obtain ⟨hl, hr⟩ := Bool.or_eq_false_iff.mp h
    exact ⟨hq _ rfl, assigns_every hq l hl, assigns_every hq r hr⟩
  | .connective c l r, h => by
    obtain ⟨hl, hr⟩ := Bool.or_eq_false_iff.mp h
    exact ⟨hq _ rfl, assigns_every hq l hl, assigns_every hq r hr⟩
  | .sequence l r, h => by
    obtain ⟨hl, hr⟩ := Bool.or_eq_false_iff.mp h
    exact ⟨hq _ rfl, assigns_every hq l hl, assigns_every hq r hr⟩
  | .conditional t y n, h => by
    simp only [assigns, Bool.or_eq_false_iff] at h
    exact ⟨hq _ rfl, assigns_every hq t h.1.1, assigns_every hq y h.1.2, assigns_every hq n h.2⟩
  | .assign _ _ _, h => by cases h
  | .define _ _ _, h => by cases h
  | .call f args, h => by
    obtain ⟨hf, hargs⟩ := Bool.or_eq_false_iff.mp h
    exact ⟨hq _ rfl, assigns_every hq f hf, assignsItems_every hq args hargs⟩
  | .array items, h => ⟨hq _ rfl, assignsItems_every hq items h⟩
  | .object fields, h => ⟨hq _ rfl, assignsFields_every hq fields h⟩
  | .case tested branches other, h => by
    simp only [assigns, Bool.or_eq_false_iff] at h
    exact ⟨hq _ rfl, assignsOption_every hq tested h.1.1, assignsBranches_every hq branches h.1.2,
      assignsOption_every hq other h.2⟩

theorem assignsItems_every (hq : ∀ e : Expr, e.isRebinding = false → q e) :
    (es : List Expr) → assignsItems es = false → EveryItem q es
  | [], _ => trivial
  | e :: rest, h => by
    obtain ⟨he, hrest⟩ := Bool.or_eq_false_iff.mp h
    exact ⟨assigns_every hq e he, assignsItems_every hq rest hrest⟩

theorem assignsFields_every (hq : ∀ e : Expr, e.isRebinding = false → q e) :
    (fields : List (String × Expr)) → assignsFields fields = false → EveryField q fields
  | [], _ => trivial
  | (_, e) :: rest, h => by
    obtain ⟨he, hrest⟩ := Bool.or_eq_false_iff.mp h
    exact ⟨assigns_every hq e he, assignsFields_every hq rest hrest⟩

theorem assignsBranches_every (hq : ∀ e : Expr, e.isRebinding = false → q e) :
    (branches : List (Expr × Expr)) → assignsBranches branches = false → EveryBranch q branches
  | [], _ => trivial
  | (c, v) :: rest, h => by
    simp only [assignsBranches, Bool.or_eq_false_iff] at h
    exact ⟨assigns_every hq c h.1.1, assigns_every hq v h.1.2, assignsBranches_every hq rest h.2⟩

theorem assignsOption_every (hq : ∀ e : Expr, e.isRebinding = false → q e) :
    (other : Option Expr) → assignsOption other = false → EveryOption q other
  | none, _ => trivial
  | some e, h => assigns_every hq e h

end

end

/-- A literal or an operator as the grammar puts it into expressions, with constants in which
nothing is deferred. -/
def Plain (i : Instruction Value) : Prop :=
  i.isStructural = false ∧ ∀ v, i = .literal v → v.Settled

/-- What folding an expression with some variables in scope takes for known: values of some
kind, on which the operators are pure, and for variables the values they have in `b`. -/
structure Knowledge (P : Value → Prop) (hosts : Hosts) (lang : Language Value)
    (seen b : Bindings) : Prop where
  hereditary : Value.Hereditary P
  settled : ∀ v : Value, v.Settled → P v
  operators : lang.PureOperatorsOn P hosts
  «variable» : ∀ name v, knownVariable? lang seen name = some v →
    Record.get? b name = some v ∧ P v

/-- An expression that defines nothing, assigns no variable in `b`, and reads no deferred member of
a value of some kind; what is in it does not count. -/
def Preserving (P : Value → Prop) (b : Bindings) : Expr → Prop
  | .assign root members _ => Record.get? b (Bindings.root (path root members)) = none
  | .define _ _ _ => False
  | .member _ name => ∀ v, P v → v.isDeferred = false → (v.member name).isDeferred = false
  | _ => True

end Expr

namespace Machine

/-- Code that can stand for other code before all similar programs. -/
def Replaces (hosts : Hosts) (lang : Language Value) (b : Bindings) (code code' : Program Value) :
    Prop := ∀ rest rest', Similar hosts lang b rest rest' →
      Similar hosts lang b (code ++ rest) (code' ++ rest')

namespace Replaces

variable {hosts : Hosts} {lang : Language Value} {b : Bindings} {code code' : Program Value}

theorem nil : Replaces hosts lang b [] [] := fun _ _ h => h

theorem append {more more' : Program Value} (h : Replaces hosts lang b code code')
    (h' : Replaces hosts lang b more more') :
    Replaces hosts lang b (code ++ more) (code' ++ more') := by
  intro rest rest' hrest
  rw [List.append_assoc, List.append_assoc]
  exact h _ _ (h' _ _ hrest)

theorem same {i : Instruction Value} (hgroup : i.isGroup = false) (hrebinds : i.rebinds = false) :
    Replaces hosts lang b [i] [i] := fun _ _ h => .same hgroup hrebinds h

theorem push {vs : List Value} (h : Pushes hosts lang b code vs)
    (h' : Pushes hosts lang b code' vs) : Replaces hosts lang b code code' :=
  fun _ _ hrest => .push h h' hrest

theorem similar (h : Replaces hosts lang b code code') : Similar hosts lang b code code' := by
  have hwhole := h [] [] .nil
  rwa [List.append_nil, List.append_nil] at hwhole

theorem group (h : Replaces hosts lang b code code') :
    Replaces hosts lang b [.group code] [.group code'] := fun _ _ hrest => .group h.similar hrest

theorem cons {i : Instruction Value} (hgroup : i.isGroup = false) (hrebinds : i.rebinds = false)
    (h : Replaces hosts lang b code code') : Replaces hosts lang b (i :: code) (i :: code') :=
  fun rest rest' hrest => .same hgroup hrebinds (h rest rest' hrest)

end Replaces

end Machine

open Eval Machine

section

variable (P : Value → Prop) (hosts : Hosts) (lang : Language Value) (seen b : Bindings)

/-- What an expression has been folded to: a value of some kind that it pushes, or code that stands
for it. -/
def Expr.FoldsTo (e : Expr) : Folded → Prop
  | .known v => Pushes hosts lang b e.compile [v] ∧ P v
  | .code e' => Replaces hosts lang b e.compile e'.compile

/-- An evaluation that finds something good where some variables are in scope, and leaves them. -/
def Finds {α : Type} (good : α → Prop) (x : Eval α) : Prop :=
  ∀ w a w₁, w.scope = seen → x w = (.ok a, w₁) → w₁.scope = seen ∧ good a

end

variable {P : Value → Prop} {hosts : Hosts} {lang : Language Value} {seen b : Bindings}

namespace Finds

variable {α β : Type} {good : α → Prop} {good' : β → Prop}

theorem pure {a : α} (h : good a) : Finds b good (Pure.pure a) := by
  intro w a w₁ hw hx
  cases hx
  exact ⟨hw, h⟩

theorem scope : Finds b (fun scope => scope = b) Eval.scope := by
  intro w a w₁ hw hx
  cases hx
  exact ⟨hw, hw⟩

theorem bind {x : Eval α} {f : α → Eval β} (hx : Finds b good x)
    (hf : ∀ a, good a → Finds b good' (f a)) : Finds b good' (x >>= f) := by
  intro w c w₁ hw h
  obtain ⟨a, w', hxw, hfw⟩ := bind_eq_ok h
  obtain ⟨hw', ha⟩ := hx w a w' hw hxw
  exact hf a ha w' c w₁ hw' hfw

end Finds

theorem Expr.FoldsTo.replaces {e : Expr} {f : Folded} (h : e.FoldsTo P hosts lang b f) :
    Replaces hosts lang b e.compile f.expr.compile := by
  cases f with
  | known v => exact .push h.1 (.literal (h.1.ready v (List.mem_singleton_self v)))
  | code e' => exact h

/-- A variable that is known is pushed, wherever it has the value. -/
theorem pushes_known {name : String} {v : Value}
    (h : Expr.knownVariable? lang seen name = some v) (hget : Record.get? b name = some v) :
    Pushes hosts lang b [.variable name] [v] := by
  unfold Expr.knownVariable? at h
  split at h
  · cases h
  next hfree =>
  have hv : v.isDeferred = false := by
    split at h
    · cases h
    · cases h
    · next hdeferred =>
      cases v with
      | deferred id => exact (hdeferred id h).elim
      | _ => rfl
  simp only [Bool.or_eq_true, Bool.and_eq_true, not_or, not_and, Bool.not_eq_true] at hfree
  obtain ⟨⟨hreserved, hfunction⟩, hunary⟩ := hfree
  refine Pushes.nil.next (List.forall_mem_nil _) hv fun scope stack hscope => ?_
  have hoperator : (if lang.isOperatorEnabled name then lang.unaryOp? name else none) = none := by
    cases hop : lang.unaryOp? name with
    | none => simp
    | some f => simp [hunary (by simp [hop])]
  have hlookup : lookup lang scope name = .ok v := by
    simp [lookup, hreserved, hoperator, hscope name v hget,
      Option.not_isSome_iff_eq_none.mp (Bool.eq_false_iff.mp hfunction)]
  simp only [plan, hlookup]
  rfl

/-- Folding an operator on values that are pushed. -/
theorem foldOperator_finds {fuel : Nat} {e : Expr} (code : Program Value)
    (i : Instruction Value) {op : String} {entry : Option Native} {args : List Value}
    {restored : Expr}
    (he : e.compile = code ++ [i]) (hcode : Pushes hosts lang b code args) (hargs : ∀ v ∈ args, P v)
    (hpure : ∀ f, entry = some f → f.PureOn P hosts) (hneeded : ∀ d ∈ needed i, d < args.length)
    (hplan : ∀ f, entry = some f → ∀ scope stack,
      plan lang scope i (args.reverse.map .value ++ stack) = .ok (.call (.native f) args stack))
    (hrestored : Replaces hosts lang b (code ++ [i]) restored.compile) :
    Finds seen (e.FoldsTo P hosts lang b)
      (Expr.foldOperator ((engine hosts fuel).call 0) op entry args restored) := by
  intro w a w₁ hw hx
  cases entry with
  | none => cases hx
  | some f =>
    obtain ⟨v, w', hcall, hx⟩ := bind_eq_ok (x := (engine hosts fuel).call 0 (.native f) args) hx
    have hscope := engine_restores hosts fuel 0 (.native f) args w
    rw [hcall] at hscope
    have hw' : w'.scope = seen := hscope.trans hw
    obtain ⟨r, hr, N, hN⟩ := hpure f rfl args hargs
    -- the call that has been made is the one that purity describes, with fewer levels
    have hresult : (.ok v, w') = (result r, w) := by
      rw [← hN _ (Nat.le_max_right fuel N) 0 w, ← hcall]
      refine ((engine_below hosts (Nat.le_max_left fuel N)).call 0 _ args w ?_).symm
      simp [hcall]
    obtain rfl : r = .ok v := by
      cases r with
      | error _ => cases hresult
      | ok u =>
        cases hresult
        rfl
    have hknown : v.isDeferred = false → e.FoldsTo P hosts lang b (.known v) := by
      intro hv
      refine ⟨?_, hr v rfl⟩
      rw [he]
      exact hcode.call hneeded (hplan f rfl) hv ⟨N, hN⟩
    have hkept : e.FoldsTo P hosts lang b (.code restored) := by
      show Replaces hosts lang b e.compile restored.compile
      rw [he]
      exact hrestored
    split at hx
    · cases hx
      exact ⟨hw', hkept⟩
    · cases hx
      exact ⟨hw', hkept⟩
    · next hdeferred =>
      cases hx
      refine ⟨hw', hknown ?_⟩
      cases v with
      | deferred id => exact (hdeferred id rfl).elim
      | _ => rfl

theorem pushes_items {es : List Expr} {fs : List Folded}
    (h : List.Forall₂ (fun e f => e.FoldsTo P hosts lang b f) es fs) {values : List Value}
    (hvalues : fs.mapM Folded.value? = some values) :
    Pushes hosts lang b (Expr.compileItems es) values ∧ (∀ v ∈ values, P v) ∧
      values.length = es.length := by
  induction h generalizing values with
  | nil =>
    cases hvalues
    exact ⟨.nil, List.forall_mem_nil _, rfl⟩
  | @cons e f es fs he _ ih =>
    cases f with
    | code e' => cases hvalues
    | known v =>
      obtain ⟨vs, hvs, rfl⟩ : ∃ vs, fs.mapM Folded.value? = some vs ∧ v :: vs = values := by
        simpa [List.mapM_cons, Folded.value?, Option.bind_eq_some_iff] using hvalues
      obtain ⟨hpushes, hvalues, hlength⟩ := ih hvs
      exact ⟨Pushes.append he.1 hpushes, List.forall_mem_cons.mpr ⟨he.2, hvalues⟩,
        congrArg (· + 1) hlength⟩

theorem replaces_items {es : List Expr} {fs : List Folded}
    (h : List.Forall₂ (fun e f => e.FoldsTo P hosts lang b f) es fs) :
    Replaces hosts lang b (Expr.compileItems es) (Expr.compileItems (fs.map Folded.expr)) := by
  induction h with
  | nil => exact .nil
  | cons he _ ih => exact he.replaces.append ih

/-- What branches have been folded to: as many, with programs that stand for theirs. -/
def BranchesFoldTo (hosts : Hosts) (lang : Language Value) (b : Bindings)
    (branches branches' : List (Expr × Expr)) : Prop :=
  branches'.length = branches.length ∧ ∀ k,
    Replaces hosts lang b (Expr.compileBranches .whenCond k branches)
        (Expr.compileBranches .whenCond k branches') ∧
      Replaces hosts lang b (Expr.compileBranches .whenMatch k branches)
        (Expr.compileBranches .whenMatch k branches')

abbrev OptionFoldsTo (hosts : Hosts) (lang : Language Value) (b : Bindings) :
    Option Expr → Option Expr → Prop :=
  Option.Rel fun e e' => Replaces hosts lang b e.compile e'.compile

theorem replaces_other {other other' : Option Expr}
    (h : OptionFoldsTo hosts lang b other other') :
    Replaces hosts lang b (Expr.compileOther other) (Expr.compileOther other') ∧
      Expr.otherCount other' = Expr.otherCount other := by
  cases h with
  | none => exact ⟨.nil, rfl⟩
  | some he => exact ⟨he.group.append (.same rfl rfl), rfl⟩

theorem BranchesFoldTo.cons {c c' v v' : Expr} {rest rest' : List (Expr × Expr)}
    (hc : Replaces hosts lang b c.compile c'.compile)
    (hv : Replaces hosts lang b v.compile v'.compile)
    (hrest : BranchesFoldTo hosts lang b rest rest') :
    BranchesFoldTo hosts lang b ((c, v) :: rest) ((c', v') :: rest') := by
  refine ⟨congrArg (· + 1) hrest.1, fun k => ⟨?_, ?_⟩⟩
  · exact hc.append (hv.group.append (.cons rfl rfl (hrest.2 (k + 1)).1))
  · exact hc.append (hv.group.append (.cons rfl rfl (hrest.2 (k + 1)).2))

theorem replaces_case {tested tested' other other' : Option Expr}
    {branches branches' : List (Expr × Expr)}
    (htested : OptionFoldsTo hosts lang b tested tested')
    (hbranches : BranchesFoldTo hosts lang b branches branches')
    (hother : OptionFoldsTo hosts lang b other other') :
    Replaces hosts lang b (Expr.case tested branches other).compile
      (Expr.case tested' branches' other').compile := by
  obtain ⟨hreplaces, hcount⟩ := replaces_other hother
  -- whether a value is tested decides which instructions the branches are compiled to
  cases htested with
  | none =>
    refine (hbranches.2 0).1.append (hreplaces.append ?_)
    rw [hbranches.1, hcount]
    exact .same rfl rfl
  | some ht =>
    refine ht.append ((hbranches.2 0).2.append (hreplaces.append ?_))
    rw [hbranches.1, hcount]
    exact .same rfl rfl

theorem replaces_array {es es' : List Expr} (hlength : es'.length = es.length)
    (h : Replaces hosts lang b (Expr.compileItems es) (Expr.compileItems es')) :
    Replaces hosts lang b (Expr.array es).compile (Expr.array es').compile := by
  refine h.append ?_
  rw [hlength]
  exact .same rfl rfl

theorem replaces_call {f f' : Expr} {es es' : List Expr} (hlength : es'.length = es.length)
    (hf : Replaces hosts lang b f.compile f'.compile)
    (h : Replaces hosts lang b (Expr.compileItems es) (Expr.compileItems es')) :
    Replaces hosts lang b (Expr.call f es).compile (Expr.call f' es').compile := by
  refine hf.append (h.append ?_)
  rw [hlength]
  exact .same rfl rfl

namespace Expr

section

variable {fuel : Nat}

mutual

/-- An expression in which nothing that is known changes is folded to what it pushes, or to code that
stands for it. -/
theorem fold_finds (hk : Knowledge P hosts lang seen b) : (e : Expr) →
    e.All Plain → e.Every (Preserving P b) →
    Finds seen (e.FoldsTo P hosts lang b) (fold ((engine hosts fuel).call 0) lang e)
  | .literal v, he, _ => by
    have hv : v.Settled := he.2 v rfl
    cases v with
    | function f => exact .pure (.same rfl rfl)
    | _ => exact .pure ⟨.literal hv.isDeferred, hk.settled _ hv⟩
  | .undefined, _, _ => .pure (.same rfl rfl)
  | .variable name, _, _ => by
    unfold fold
    refine Finds.scope.bind fun scope' hscope => ?_
    subst hscope
    split
    · next v hv =>
      obtain ⟨hget, hP⟩ := hk.variable name v hv
      exact .pure ⟨pushes_known hv hget, hP⟩
    · exact .pure (.same rfl rfl)
  | .unary op e, he, hq => by
    unfold fold
    refine (fold_finds hk e he.2 hq.2).bind fun f hf => ?_
    have hsame : Replaces hosts lang b (compile (.unary op e)) (compile (.unary op f.expr)) :=
      hf.replaces.append (.same rfl rfl)
    cases f with
    | code e' => exact .pure hsame
    | known v =>
      refine foldOperator_finds (compile e) (.unary op) rfl hf.1
        (List.forall_mem_singleton.mpr hf.2) (hk.operators.unary op) ?_ ?_ hsame
      · simp [needed]
      · intro f hentry scope stack
        simp only [plan, hentry, planOperator]
        rfl
  | .binary op l r, he, hq => by
    unfold fold
    have hop : op ∉ Instruction.connectives := by
      simpa [Instruction.isStructural] using he.1.1
    have hassigns : op ≠ "=" := fun h => hop (h ▸ by decide)
    refine (fold_finds hk l he.2.1 hq.2.1).bind fun l' hl => ?_
    refine (fold_finds hk r he.2.2 hq.2.2).bind fun r' hr => ?_
    have hsame : Replaces hosts lang b (compile (.binary op l r))
        (compile (.binary op l'.expr r'.expr)) :=
      hl.replaces.append (hr.replaces.append (.same rfl (by simp [Instruction.rebinds, hassigns])))
    split
    · next x y =>
      refine foldOperator_finds (compile l ++ compile r) (.binary op) ?_
        (Pushes.append hl.1 hr.1) (List.forall_mem_cons.mpr ⟨hl.2, List.forall_mem_singleton.mpr hr.2⟩)
        (hk.operators.binary op) ?_ ?_ ?_
      · rw [compile, List.append_assoc]
      · simp [needed_binary hop]
      · intro f hentry scope stack
        rw [plan_binary hop, hentry]
        rfl
      · rw [List.append_assoc]
        exact hsame
    · exact .pure hsame
  | .connective c l r, he, hq => by
    unfold fold
    refine (fold_finds hk l he.1 hq.2.1).bind fun l' hl => ?_
    refine (fold_finds hk r he.2 hq.2.2).bind fun r' hr => ?_
    have hc : (Instruction.binary c.symbol).rebinds = false := by cases c <;> rfl
    exact .pure (hl.replaces.append (hr.replaces.group.append (.same rfl hc)))
  | .conditional t y n, he, hq => by
    unfold fold
    refine (fold_finds hk t he.1 hq.2.1).bind fun t' ht => ?_
    refine (fold_finds hk y he.2.1 hq.2.2.1).bind fun y' hy => ?_
    refine (fold_finds hk n he.2.2 hq.2.2.2).bind fun n' hn => ?_
    exact .pure (ht.replaces.append
      (hy.replaces.group.append (hn.replaces.group.append (.same rfl rfl))))
  | .assign root members v, he, hq => by
    unfold fold
    refine (fold_finds hk v he hq.2).bind fun f hf => .pure fun rest rest' hrest => ?_
    exact .assign hq.1 hf.replaces.similar hrest
  | .define _ _ _, _, hq => hq.1.elim
  | .call f args, he, hq => by
    unfold fold
    refine (fold_finds hk f he.1 hq.2.1).bind fun f' hf => ?_
    refine (foldItems_finds hk args he.2 hq.2.2).bind fun args' hargs => ?_
    have hlength : (args'.map Folded.expr).length = args.length := by
      rw [List.length_map, hargs.length_eq]
    exact .pure (replaces_call hlength hf.replaces (replaces_items hargs))
  | .member e name, he, hq => by
    unfold fold
    refine (fold_finds hk e he hq.2).bind fun f hf => ?_
    have hsame : Replaces hosts lang b (compile (.member e name))
        (compile (.member f.expr name)) := hf.replaces.append (.same rfl rfl)
    cases f with
    | code e' => exact .pure hsame
    | known v =>
      dsimp only
      split
      · next hok =>
        simp only [Bool.and_eq_true, Bool.not_eq_true'] at hok
        have hv : v.isDeferred = false := hf.1.ready v (List.mem_singleton_self v)
        exact .pure ⟨Pushes.member hf.1 hok.1 hok.2 (hq.1 v hf.2 hv), hk.hereditary.member hf.2 name⟩
      · exact .pure hsame
  | .array items, he, hq => by
    unfold fold
    refine (foldItems_finds hk items he hq.2).bind fun fs hfs => ?_
    split
    · next values hvalues =>
      obtain ⟨hpushes, hP, hlength⟩ := pushes_items hfs hvalues
      refine .pure ⟨?_, hk.hereditary.array hP⟩
      show Pushes hosts lang b (compileItems items ++ [.array items.length]) [.array values]
      rw [← hlength]
      exact hpushes.array
    · have hlength : (fs.map Folded.expr).length = items.length := by
        rw [List.length_map, hfs.length_eq]
      exact .pure (replaces_array hlength (replaces_items hfs))
  | .object fields, he, hq => by
    unfold fold
    refine (foldFields_finds hk fields he hq.2).bind fun fields' hfields => ?_
    exact .pure (.cons rfl rfl (hfields.append (.same rfl rfl)))
  | .case tested branches other, he, hq => by
    unfold fold
    refine (foldOption_finds hk tested he.1 hq.2.1).bind fun tested' htested => ?_
    refine (foldBranches_finds hk branches he.2.1 hq.2.2.1).bind fun branches' hbranches => ?_
    exact (foldOption_finds hk other he.2.2 hq.2.2.2).bind fun other' hother =>
      .pure (replaces_case htested hbranches hother)
  | .sequence l r, he, hq => by
    unfold fold
    refine (fold_finds hk l he.1 hq.2.1).bind fun l' hl => ?_
    refine (fold_finds hk r he.2 hq.2.2).bind fun r' hr => ?_
    exact .pure (hl.replaces.append (.cons rfl rfl hr.replaces)).group
  | .closed e, he, hq => by
    unfold fold
    exact (fold_finds hk e he hq.2).bind fun f hf => .pure hf.replaces.group

theorem foldItems_finds (hk : Knowledge P hosts lang seen b) :
    (es : List Expr) → AllItems Plain es → EveryItem (Preserving P b) es →
    Finds seen (List.Forall₂ (fun e f => e.FoldsTo P hosts lang b f) es)
      (foldItems ((engine hosts fuel).call 0) lang es)
  | [], _, _ => .pure .nil
  | e :: rest, he, hq => by
    unfold foldItems
    refine (fold_finds hk e he.1 hq.1).bind fun f hf => ?_
    exact (foldItems_finds hk rest he.2 hq.2).bind fun fs hfs => .pure (.cons hf hfs)

theorem foldFields_finds (hk : Knowledge P hosts lang seen b) :
    (fields : List (String × Expr)) → AllFields Plain fields →
    EveryField (Preserving P b) fields →
    Finds seen (fun fields' => Replaces hosts lang b (compileFields fields) (compileFields fields'))
      (foldFields ((engine hosts fuel).call 0) lang fields)
  | [], _, _ => .pure .nil
  | (key, e) :: rest, he, hq => by
    unfold foldFields
    refine (fold_finds hk e he.1 hq.1).bind fun f hf => ?_
    exact (foldFields_finds hk rest he.2 hq.2).bind fun fields' hfields =>
      .pure (hf.replaces.append (.cons rfl rfl hfields))

theorem foldBranches_finds (hk : Knowledge P hosts lang seen b) :
    (branches : List (Expr × Expr)) → AllBranches Plain branches →
    EveryBranch (Preserving P b) branches →
    Finds seen (BranchesFoldTo hosts lang b branches)
      (foldBranches ((engine hosts fuel).call 0) lang branches)
  | [], _, _ => .pure ⟨rfl, fun _ => ⟨.nil, .nil⟩⟩
  | (c, v) :: rest, he, hq => by
    unfold foldBranches
    refine (fold_finds hk c he.1 hq.1).bind fun c' hc => ?_
    refine (fold_finds hk v he.2.1 hq.2.1).bind fun v' hv => ?_
    exact (foldBranches_finds hk rest he.2.2 hq.2.2).bind fun rest' hrest =>
      .pure (.cons hc.replaces hv.replaces hrest)

theorem foldOption_finds (hk : Knowledge P hosts lang seen b) :
    (other : Option Expr) → AllOption Plain other → EveryOption (Preserving P b) other →
    Finds seen (OptionFoldsTo hosts lang b other)
      (foldOption ((engine hosts fuel).call 0) lang other)
  | none, _, _ => .pure .none
  | some e, he, hq => by
    unfold foldOption
    exact (fold_finds hk e he hq).bind fun f hf => .pure (.some hf.replaces)

end

end

end Expr

end Formula
