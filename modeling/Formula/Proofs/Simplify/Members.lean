import Formula.Proofs.Simplify.Preserved

/-!
# Simplifying where data holds values that are not known

What simplifying takes for known is not deferred itself, though it may hold what is. It leaves a
deferred variable in place, and an operator whose result is deferred, but it takes every member it
reads of known data for known. So a program and its simplified form come to the same as long as no
member the program reads is deferred in the data, and to something else where one is.
-/

namespace Formula

open Eval Machine Waiting

/-! ### Members that are known -/

namespace Value

section

variable (names : List String)

mutual

/-- Whether no member with one of some names is deferred, at any depth of a value. -/
def isKnownAt : Value → Bool
  | .array items => itemsKnownAt items
  | .object fields => fieldsKnownAt fields
  | _ => true

def itemsKnownAt : List Value → Bool
  | [] => true
  | v :: rest => isKnownAt v && itemsKnownAt rest

def fieldsKnownAt : List (String × Value) → Bool
  | [] => true
  | (key, v) :: rest =>
    !(names.contains key && v.isDeferred) && isKnownAt v && fieldsKnownAt rest

end

/-- A value in which no member with one of some names is deferred. -/
def KnownAt (v : Value) : Prop := v.isKnownAt names = true

end

variable {names : List String}

theorem itemsKnownAt_iff (items : List Value) :
    itemsKnownAt names items = true ↔ ∀ v ∈ items, v.KnownAt names := by
  induction items with
  | nil => simp [itemsKnownAt]
  | cons v rest ih => simp [itemsKnownAt, ih, KnownAt]

theorem fieldsKnownAt_iff (fields : List (String × Value)) :
    fieldsKnownAt names fields = true ↔
      ∀ p ∈ fields, (p.1 ∈ names → p.2.isDeferred = false) ∧ p.2.KnownAt names := by
  induction fields with
  | nil => simp [fieldsKnownAt]
  | cons p rest ih =>
    obtain ⟨key, v⟩ := p
    rw [fieldsKnownAt, List.forall_mem_cons, ← ih]
    simp [KnownAt, imp_iff_not_or]

theorem knownAt_hereditary (names : List String) : Hereditary (KnownAt names) where
  undefined := rfl
  bool _ := rfl
  number _ := rfl
  string _ := rfl
  array h := (itemsKnownAt_iff _).mpr h
  items h := (itemsKnownAt_iff _).mp h
  fields h p hp := ((fieldsKnownAt_iff _).mp h p hp).2

theorem KnownAt.member {v : Value} (h : v.KnownAt names) {name : String} (hname : name ∈ names) :
    (v.member name).isDeferred = false := by
  cases v with
  | object fields =>
    simp only [Value.member]
    cases hget : Record.get? fields name with
    | none => rfl
    | some u => exact ((fieldsKnownAt_iff _).mp h _ (Record.mem_of_get? hget)).1 hname
  | array items | string s =>
    simp only [Value.member]
    split <;> rfl
  | _ => rfl

example : let v : Value := .object [("d", .deferred 0)]
    v.isKnownAt ["items"] = true ∧ v.isKnownAt ["d"] = false := by
  decide +kernel

mutual

theorem Settled.isKnownAt : (v : Value) → v.Settled → v.isKnownAt names = true
  | .array items, h => itemsSettled_knownAt items h
  | .object fields, h => fieldsSettled_knownAt fields h
  | .undefined, _ | .null, _ | .bool _, _ | .number _, _ | .string _, _ | .function _, _
  | .deferred _, _ => rfl

theorem itemsSettled_knownAt : (items : List Value) → itemsSettled items = true →
    itemsKnownAt names items = true
  | [], _ => rfl
  | v :: rest, h => by
    obtain ⟨hv, hrest⟩ := Bool.and_eq_true_iff.mp h
    exact Bool.and_eq_true_iff.mpr ⟨Settled.isKnownAt v hv, itemsSettled_knownAt rest hrest⟩

theorem fieldsSettled_knownAt : (fields : List (String × Value)) → fieldsSettled fields = true →
    fieldsKnownAt names fields = true
  | [], _ => rfl
  | (_, v) :: rest, h => by
    obtain ⟨hv, hrest⟩ := Bool.and_eq_true_iff.mp h
    have hdeferred : v.isDeferred = false := Settled.isDeferred hv
    simp [fieldsKnownAt, hdeferred, Settled.isKnownAt v hv, fieldsSettled_knownAt rest hrest]

end

end Value

/-! ### Programs that read no deferred member -/

/-- Whether the member that an expression reads, if it reads one, has one of some names. -/
def Expr.readsWithin (names : List String) : Expr → Bool
  | .member _ name => names.contains name
  | _ => true

variable {hosts : Hosts} {lang : Language Value} {e q : Expr} {fuel : Nat} {w w' w₁ : World}

/-- More levels change nothing in a program that settles. -/
theorem Expr.settles_below (hosts : Hosts) (lang : Language Value) (e : Expr) {n m : Nat}
    (h : n ≤ m) : Below (e.evaluate hosts n lang >>= Progress.settle hosts n lang)
      (e.evaluate hosts m lang >>= Progress.settle hosts m lang) := by
  obtain ⟨_, hsettle, hdrive⟩ := waiting_below hosts h n m h
  refine .bind ((engine_below hosts h).enter lang 0 e.compile) fun p => ?_
  cases p with
  | done v => exact hsettle v
  | waiting frames on => exact hdrive ⟨lang, frames, on⟩

/-- A program without assignments and definitions and its simplified form come to the same, at once
and after waiting, also where data in scope holds deferred values, if the program reads members with
some names only, under which nothing is deferred. -/
theorem evaluate_simplified_unsettled {names : List String} {source : String}
    (hlang : lang.Complete) (hconstants : lang.constants = standardConstants)
    (hpure : lang.PureOperatorsOn (Value.KnownAt names) hosts)
    (he : parseExpr lang source = .ok e) (hassigns : e.assigns = false)
    (hreads : e.Every fun e => e.readsWithin names = true) (hb : ∀ p ∈ w.scope, p.2.KnownAt names)
    (hq : e.simplify hosts fuel lang w = (.ok q, w₁))
    (hw : Bindings.Within w.scope w'.scope) (r : Except EvalError Value) (w₂ : World) :
    ((∃ N, ∀ m ≥ N, e.evaluate hosts m lang w' = (ended r, w₂)) ↔
      ∃ N, ∀ m ≥ N, q.evaluate hosts m lang w' = (ended r, w₂)) ∧
    ((∃ N, ∀ m ≥ N, (e.evaluate hosts m lang >>= Progress.settle hosts m lang) w' =
        (result r, w₂)) ↔
      ∃ N, ∀ m ≥ N, (q.evaluate hosts m lang >>= Progress.settle hosts m lang) w' =
        (result r, w₂)) := by
  have hk : Expr.Knowledge (Value.KnownAt names) hosts lang w.scope w.scope :=
    ⟨Value.knownAt_hereditary names, Value.Settled.isKnownAt, hpure, fun name v hv =>
      ⟨Expr.knownVariable?_eq_some hv, hb _ (Record.mem_of_get? (Expr.knownVariable?_eq_some hv))⟩⟩
  have hrebinds : e.Every fun e => e.isRebinding = false :=
    Expr.assigns_every (fun _ h => h) e hassigns
  have hpreserving : e.Every (Expr.Preserving (Value.KnownAt names) w.scope) := by
    refine Expr.Every.combine (fun e hrebinding hreads => ?_) e hrebinds hreads
    have hrebinding := hrebinding.here
    have hreads := hreads.here
    cases e with
    | assign _ _ _ | define _ _ _ => cases hrebinding
    | member base name => exact fun v hv _ => hv.member (List.contains_iff_mem.mp hreads)
    | _ => exact trivial
  have hsimilar := (Expr.fold_similar hk (parseExpr_plain hlang hconstants he) hpreserving hq).2
  exact hsimilar.preserves hw r w₂

/-! ### Members that are deferred -/

/-- A variable with a member that is deferred, and a member that holds a deferred item. -/
def pendingWorld : World :=
  { World.start [("o", .object [("d", .deferred 0), ("items", .array [.deferred 0])])] 100 with
    deferreds := #[.promised (.value (.string "a"))] }

abbrev nullHosts : Hosts := fun _ _ => ⟨[], .value .null⟩

def itemSource : String := "o.items[0] || 'b'"

/-- A deferred item of a known member is waited for after simplifying as before. -/
theorem item_simplified : ∃ e q w₁, parseExpr (Language.ofOptions 0 {}) itemSource = .ok e ∧
    e.simplify nullHosts 9 (Language.ofOptions 0 {}) pendingWorld = (.ok q, w₁) ∧
    ∃ v w₂, v.text = "ab" ∧ ∃ N, ∀ m ≥ N,
      (q.evaluate nullHosts m (Language.ofOptions 0 {}) >>=
        Progress.settle nullHosts m (Language.ofOptions 0 {})) pendingWorld =
          (result (.ok v), w₂) := by
  have hshown : (parseExpr (Language.ofOptions 0 {}) itemSource).toOption.map (fun e =>
      (e.assigns, decide (e.Every fun e => e.readsWithin ["items"] = true),
        (e.simplify nullHosts 9 (Language.ofOptions 0 {}) pendingWorld).1.isOk,
        settledText nullHosts 9 (Language.ofOptions 0 {}) pendingWorld e)) =
      some (false, true, true, some "ab") := by
    decide +kernel
  obtain ⟨e, he, hall⟩ := exists_ok_of_map hshown
  obtain ⟨hassigns, hall⟩ := Prod.mk.inj hall
  obtain ⟨hreads, hall⟩ := Prod.mk.inj hall
  obtain ⟨hsimplifies, hsettles⟩ := Prod.mk.inj hall
  rcases hq : e.simplify nullHosts 9 (Language.ofOptions 0 {}) pendingWorld with ⟨_ | q, w₁⟩ <;>
    rw [hq] at hsimplifies
  · cases hsimplifies
  unfold settledText at hsettles
  rcases hrun : (e.evaluate nullHosts 9 (Language.ofOptions 0 {}) >>=
    Progress.settle nullHosts 9 (Language.ofOptions 0 {})) pendingWorld with ⟨_ | v, w₂⟩ <;>
    rw [hrun] at hsettles
  · cases hsettles
  have hcomplete : (Language.ofOptions 0 {}).Complete :=
    Language.Extended.complete (g := .direct) (.standard 0 {})
  have hscope : ∀ p ∈ pendingWorld.scope, p.2.KnownAt ["items"] := by
    simp [pendingWorld, World.start, Value.KnownAt, Value.isKnownAt, Value.fieldsKnownAt,
      Value.itemsKnownAt, Value.isDeferred]
  have hruns : ∃ N, ∀ m ≥ N, (e.evaluate nullHosts m (Language.ofOptions 0 {}) >>=
      Progress.settle nullHosts m (Language.ofOptions 0 {})) pendingWorld =
        (result (.ok v), w₂) := by
    refine ⟨9, fun m hm => ?_⟩
    rw [← show _ = (result (.ok v), w₂) from hrun]
    exact Expr.settles_below nullHosts _ e hm pendingWorld fun h => by
      cases (congrArg Prod.fst hrun).symm.trans h
  exact ⟨e, q, w₁, he, hq, v, w₂, Option.some.inj hsettles,
    (evaluate_simplified_unsettled hcomplete rfl
      (.standard (Value.knownAt_hereditary _) nullHosts 0 {}) he hassigns
      (of_decide_eq_true hreads) hscope hq (fun _ _ h => h) (.ok v) w₂).2.mp hruns⟩

def memberSource : String := "o.d || 'b'"

/-- A member that is deferred is waited for; simplified, the operator is applied to it at once. -/
theorem member_not_preserved :
    (parseExpr (Language.ofOptions 0 {}) memberSource).toOption.map (fun e =>
      settledText nullHosts 9 (Language.ofOptions 0 {}) pendingWorld e) = some (some "ab") ∧
    (parseExpr (Language.ofOptions 0 {}) memberSource).toOption.map (fun e =>
      (e.simplify nullHosts 9 (Language.ofOptions 0 {}) pendingWorld).1.toOption.map fun q =>
        settledText nullHosts 9 (Language.ofOptions 0 {}) pendingWorld q) =
          some (some (some "undefined")) := by
  decide +kernel

end Formula
