import Formula.Proofs.Depth.Threshold
import Formula.Proofs.Expr.Folding
import Formula.Proofs.Simplify.Preserved

/-!
# Simplifying in stages

What is known of the variables may come in parts. What the first part makes known is written into
the expression as literals, and these are known again when the second part comes. So with operators
that give data for data whatever is in scope, simplifying with one part and then with the other
comes to what simplifying with both at once comes to.
-/

namespace Formula

open Machine

/-! ### Scopes -/

/-- Whether the variables hold data: nothing in them is a function or deferred. -/
def Bindings.IsData (b : Bindings) : Prop := ∀ name v, Record.get? b name = some v → v.Data

namespace Bindings

theorem isData_of_forall {b : Bindings} (h : ∀ p ∈ b, p.2.Data) : b.IsData :=
  fun _ _ hget => h _ (Record.mem_of_get? hget)

/-- Whether variables are those of two scopes together; of a name in both the first counts. -/
def IsUnion (b b₁ b₂ : Bindings) : Prop :=
  ∀ name, Record.get? b name = (Record.get? b₁ name).or (Record.get? b₂ name)

/-- Whether the names in both of two scopes have the same values. -/
def Agree (b₁ b₂ : Bindings) : Prop :=
  ∀ name v₁ v₂, Record.get? b₁ name = some v₁ → Record.get? b₂ name = some v₂ → v₁ = v₂

variable {b b₁ b₂ : Bindings}

theorem IsUnion.isData (h : b.IsUnion b₁ b₂) (h₁ : b₁.IsData) (h₂ : b₂.IsData) : b.IsData := by
  intro name v hv
  rw [h name, Option.or_eq_some_iff] at hv
  exact hv.elim (h₁ name v) fun hv => h₂ name v hv.2

theorem IsUnion.symm (h : b.IsUnion b₁ b₂) (hagree : Agree b₁ b₂) : b.IsUnion b₂ b₁ := by
  intro name
  rw [h name]
  cases hget₁ : Record.get? b₁ name with
  | none => simp
  | some v₁ =>
    cases hget₂ : Record.get? b₂ name with
    | none => rfl
    | some v₂ => simp [hagree name v₁ v₂ hget₁ hget₂]

theorem IsUnion.self (b : Bindings) : b.IsUnion b b := by
  intro name
  cases Record.get? b name <;> rfl

theorem IsUnion.append (b₁ b₂ : Bindings) : IsUnion (b₁ ++ b₂) b₁ b₂ := by
  intro name
  induction b₁ with
  | nil => rfl
  | cons p rest ih =>
    simp only [List.cons_append, Record.get?]
    split
    · rfl
    · exact ih

example : Record.get? ([("a", 1)] ++ [("a", 2), ("b", 3)]) "a" = some 1 := by decide +kernel

end Bindings

/-! ### Evaluations that depend on the scope alone -/

namespace Eval

variable {α β : Type} {b : Bindings}

/-- An evaluation that comes to a result wherever some variables are in scope, and changes
nothing. -/
def ComesTo (b : Bindings) (x : Eval α) (a : α) : Prop := ∀ w : World, w.scope = b → x w = (.ok a, w)

/-- An evaluation that comes to good results only, and to the same wherever the variables are. -/
def Steady (good : α → Prop) (x : Eval α) : Prop :=
  ∀ w a w', Bindings.IsData w.scope → x w = (.ok a, w') → good a ∧ ComesTo w.scope x a

namespace ComesTo

variable {x : Eval α} {f : α → Eval β} {a a' : α} {c : β} {good : α → Prop}

theorem pure (a : α) : ComesTo b (Pure.pure a) a := fun _ _ => rfl

theorem scope : ComesTo b Eval.scope b := by
  rintro w rfl
  rfl

theorem bind (hx : ComesTo b x a) (hf : ComesTo b (f a) c) : ComesTo b (x >>= f) c := by
  intro w hw
  rw [bind_of_ok (hx w hw)]
  exact hf w hw

theorem unique (h : ComesTo b x a) (h' : ComesTo b x a') : a = a' := by
  have heq := (h (World.start b 0) rfl).symm.trans (h' (World.start b 0) rfl)
  exact Except.ok.inj (congrArg Prod.fst heq)

/-- What comes to a result in sequence comes to one on the way. -/
theorem of_bind (hb : b.IsData) (hx : Steady good x) (h : ComesTo b (x >>= f) c) :
    ∃ a, good a ∧ ComesTo b x a ∧ ComesTo b (f a) c := by
  obtain ⟨a, w', hxa, -⟩ := bind_eq_ok (h (World.start b 0) rfl)
  obtain ⟨ha, hcomes⟩ := hx _ a w' hb hxa
  refine ⟨a, ha, hcomes, fun w hw => ?_⟩
  rw [← h w hw, bind_of_ok (hcomes w hw)]

end ComesTo

theorem Steady.pure {good : α → Prop} {a : α} (h : good a) : Steady good (Pure.pure a) := by
  intro w a' w' _ hx
  cases hx
  exact ⟨h, .pure a⟩

theorem Steady.bind {good : α → Prop} {good' : β → Prop} {x : Eval α} {f : α → Eval β}
    (hx : Steady good x) (hf : ∀ a, good a → Steady good' (f a)) : Steady good' (x >>= f) := by
  intro w c w'' hw h
  obtain ⟨a, w', hxa, hfa⟩ := bind_eq_ok h
  obtain ⟨ha, hcomes⟩ := hx w a w' hw hxa
  obtain rfl : w = w' := congrArg Prod.snd ((hcomes w rfl).symm.trans hxa)
  obtain ⟨hc, hcomes'⟩ := hf a ha w c w'' hw hfa
  exact ⟨hc, hcomes.bind hcomes'⟩

def Judgement.steady : Judgement where
  holds good x := ∀ n, Steady good (x n)
  pure h _ := .pure h
  bind hx hf n := (hx n).bind fun a ha => hf a ha n

end Eval

namespace Folded

/-- A form with one operand: something else when that is known. -/
def whenKnown (put : Expr → Expr) (apply : Value → Eval Folded) : Folded → Eval Folded
  | known v => apply v
  | code e => return code (put e)

/-- A form with two operands: something else when both are known. -/
def whenBothKnown (put : Expr → Expr → Expr) (apply : Value → Value → Eval Folded) :
    Folded → Folded → Eval Folded
  | known v, known v' => apply v v'
  | l, r => return code (put l.expr r.expr)

/-- What a list of items is folded to: a value, if all of them are known. -/
def ofItems (fs : List Folded) : Folded :=
  match fs.mapM Folded.value? with
  | some vs => known (.array vs)
  | none => code (.array (fs.map Folded.expr))

end Folded

open Eval

/-! ### Standard operators -/

theorem Value.data_hereditary : Value.Hereditary Value.Data where
  undefined := .undefined
  bool := .bool
  number := .number
  string := .string
  array := .array
  items h := by cases h with | array h => exact h
  fields h := by cases h with | object h => exact h

section

variable {hosts : Hosts} {id : Nat} {options : Options} {fuel : Nat} {b b' : Bindings}

/-- A standard operator that gives something for data gives data, and the same in every world. -/
theorem applied_standard {op : String} {entry : Option Native} {args : List Value}
    (hentry : ∀ f, entry = some f → ∃ operation, f.action = .operation operation)
    (hargs : ∀ v ∈ args, v.Data) {w w' : World} {u : Value}
    (h : applied ((engine hosts fuel).call 0) op entry args w = (.ok u, w')) :
    u.Data ∧ ∀ w₂, applied ((engine hosts fuel).call 0) op entry args w₂ = (.ok u, w₂) := by
  cases entry with
  | none => cases h
  | some f =>
    obtain ⟨operation, hf⟩ := hentry f rfl
    cases fuel with
    | zero => cases h
    | succ n =>
      have hcall : applied ((engine hosts (n + 1)).call 0) op (some f) args =
          Eval.ofExcept (operation.apply args) :=
        Native.call_operation_succ hosts hf n 0 args
      rw [hcall] at h ⊢
      cases hresult : operation.apply args with
      | error e =>
        rw [hresult] at h
        cases h
      | ok v =>
        rw [hresult] at h
        cases h
        exact ⟨(operation.apply_hereditary Value.data_hereditary hargs).result hresult,
          fun _ => rfl⟩

end

namespace Expr

/-- Whether a literal is data. -/
def Written (i : Instruction Value) : Prop := ∀ v, i = .literal v → v.Data

theorem folds_steady (hosts : Hosts) (id : Nat) (options : Options) :
    Folds .steady Value.Data Written Written (fun n => (engine hosts n).call 0)
      (.ofOptions id options) where
  hereditary := Value.data_hereditary
  known h := h _ rfl
  literal hv _ h := by cases h; exact hv
  «variable» {name} _ _ w a w' hw hx := by
    cases hx
    refine ⟨fun r hr => ?_, .scope⟩
    cases r with
    | none => exact fun _ h => by cases h
    | some v => exact hw name v (knownVariable?_eq_some hr)
  unary {op} _ := by
    refine ⟨fun _ h => (by cases h), fun {v} hv n w u w' _ hu => ?_⟩
    obtain ⟨hdata, hall⟩ := applied_standard (fun f hf => Language.operation_standard (.inl hf))
      (List.forall_mem_singleton.mpr hv) hu
    exact ⟨hdata, fun w₂ _ => hall w₂⟩
  binary {op} _ := by
    refine ⟨fun _ h => (by cases h), fun {v v'} hv hv' n w u w' _ hu => ?_⟩
    obtain ⟨hdata, hall⟩ := applied_standard (fun f hf => Language.operation_standard (.inr hf))
      (by simp [hv, hv']) hu
    exact ⟨hdata, fun w₂ _ => hall w₂⟩

section

variable (hosts : Hosts) (fuel id : Nat) (options : Options) (b b₁ b₂ : Bindings)

/-- Folding with the standard operators. -/
abbrev folding (e : Expr) : Eval Folded :=
  fold ((engine hosts fuel).call 0) (.ofOptions id options) e

/-- Folding with the first variables and then with the second ones comes to something; what is known
by then was known. -/
def Staged (e : Expr) (f : Folded) : Prop :=
  ∃ f₁, ComesTo b₁ (folding hosts fuel id options e) f₁ ∧
    ComesTo b₂ (folding hosts fuel id options f₁.expr) f ∧ ∀ v, f₁ = .known v → f = .known v

/-- Folding in two stages comes to what folding with all variables comes to. -/
def Stages (e : Expr) : Prop :=
  ∀ f, ComesTo b (folding hosts fuel id options e) f → Staged hosts fuel id options b₁ b₂ e f

end

section

variable {hosts : Hosts} {fuel id : Nat} {options : Options} {b b₁ b₂ : Bindings}

theorem folding_steady {e : Expr} (he : e.All Written) :
    Steady (Folded.Made Value.Data Written) (folding hosts fuel id options e) :=
  fold_judged (folds_steady hosts id options) e he fuel

theorem items_steady {es : List Expr} (he : AllItems Written es) :
    Steady (fun fs => ∀ f ∈ fs, Folded.Made Value.Data Written f)
      (foldItems ((engine hosts fuel).call 0) (.ofOptions id options) es) :=
  foldItems_judged (folds_steady hosts id options) es he fuel

theorem fields_steady {fields : List (String × Expr)} (he : AllFields Written fields) :
    Steady (AllFields Written)
      (foldFields ((engine hosts fuel).call 0) (.ofOptions id options) fields) :=
  foldFields_judged (folds_steady hosts id options) fields he fuel

theorem branches_steady {branches : List (Expr × Expr)} (he : AllBranches Written branches) :
    Steady (AllBranches Written)
      (foldBranches ((engine hosts fuel).call 0) (.ofOptions id options) branches) :=
  foldBranches_judged (folds_steady hosts id options) branches he fuel

theorem option_steady {other : Option Expr} (he : AllOption Written other) :
    Steady (AllOption Written)
      (foldOption ((engine hosts fuel).call 0) (.ofOptions id options) other) :=
  foldOption_judged (folds_steady hosts id options) other he fuel

theorem folding_literal {v : Value} (hv : v.Data) :
    ComesTo b (folding hosts fuel id options (.literal v)) (.known v) := by
  cases hv <;> exact .pure _

theorem Staged.code (e₁ : Expr) {e : Expr} {f : Folded}
    (h₁ : ComesTo b₁ (folding hosts fuel id options e) (.code e₁))
    (h₂ : ComesTo b₂ (folding hosts fuel id options e₁) f) :
    Staged hosts fuel id options b₁ b₂ e f :=
  ⟨.code e₁, h₁, h₂, fun _ h => by cases h⟩

theorem Staged.known {e : Expr} {v : Value} (hv : v.Data)
    (h₁ : ComesTo b₁ (folding hosts fuel id options e) (.known v)) :
    Staged hosts fuel id options b₁ b₂ e (.known v) :=
  ⟨.known v, h₁, folding_literal hv, fun _ h => by cases h; rfl⟩

/-! ### Variables -/

theorem knownVariable?_data {lang : Language Value} (hb : b.IsData) (name : String) :
    knownVariable? lang b name =
      if isReserved name || (lang.function? name).isSome
          || ((lang.unaryOp? name).isSome && lang.isOperatorEnabled name) then none
      else Record.get? b name := by
  unfold knownVariable?
  split
  · rfl
  · cases hget : Record.get? b name with
    | none => rfl
    | some v => cases hb name v hget <;> rfl

/-- What is known with all variables is known with the first ones or else with the second ones. -/
theorem knownVariable?_union (lang : Language Value) (h : b.IsUnion b₁ b₂) (h₁ : b₁.IsData)
    (h₂ : b₂.IsData) (name : String) :
    knownVariable? lang b name =
      (knownVariable? lang b₁ name).or (knownVariable? lang b₂ name) := by
  rw [knownVariable?_data (h.isData h₁ h₂), knownVariable?_data h₁, knownVariable?_data h₂, h name]
  split <;> rfl

/-! ### Forms with known operands -/

/-- Whether a form on known operands comes to the same whatever the variables are: to data, or to
itself. -/
def Even (x : Eval Folded) (written : Expr) : Prop :=
  ∀ b f, ComesTo b x f →
    (∀ b', ComesTo b' x f) ∧ ((∃ u, f = .known u ∧ u.Data) ∨ f = .code written)

theorem even_code (e : Expr) : Even (Pure.pure (.code e)) e := by
  intro b f h
  obtain rfl := h.unique (.pure _)
  exact ⟨fun _ => .pure _, .inr rfl⟩

theorem even_known {u : Value} (hu : u.Data) (e : Expr) : Even (Pure.pure (.known u)) e := by
  intro b f h
  obtain rfl := h.unique (.pure _)
  exact ⟨fun _ => .pure _, .inl ⟨u, rfl, hu⟩⟩

theorem even_operator {op : String} {entry : Option Native} {args : List Value} {restored : Expr}
    (hentry : ∀ f, entry = some f → ∃ operation, f.action = .operation operation)
    (hargs : ∀ v ∈ args, v.Data) :
    Even (foldOperator ((engine hosts fuel).call 0) op entry args restored) restored := by
  intro b f h
  simp only [foldOperator_eq] at h ⊢
  obtain ⟨u, w', hu, hf⟩ := bind_eq_ok (h (World.start b 0) rfl)
  obtain ⟨hdata, hall⟩ := applied_standard hentry hargs hu
  have hknown : Folded.ofValue restored u = .known u := by cases hdata <;> rfl
  rw [hknown] at hf
  cases hf
  refine ⟨fun b' w _ => ?_, .inl ⟨u, rfl, hdata⟩⟩
  rw [bind_of_ok (hall w), hknown]
  rfl

theorem operand_staged (put : Expr → Expr) (apply : Value → Eval Folded)
    (hfold : ∀ e, folding hosts fuel id options (put e) =
      folding hosts fuel id options e >>= Folded.whenKnown put apply)
    (happly : ∀ v, v.Data → Even (apply v) (put (.literal v))) (hb : b.IsData) (e : Expr)
    (he : e.All Written)
    (ih : Stages hosts fuel id options b b₁ b₂ e) :
    Stages hosts fuel id options b b₁ b₂ (put e) := by
  intro f h
  rw [hfold] at h
  obtain ⟨f₀, hmade, hf₀, h⟩ := h.of_bind hb (folding_steady he)
  obtain ⟨f₁, hfirst, hsecond, hknown⟩ := ih f₀ hf₀
  cases f₁ with
  | known v =>
    -- the operand is known in the first stage already, so the form is done there
    obtain rfl := hknown v rfl
    obtain ⟨hall, ⟨u, rfl, hu⟩ | rfl⟩ := happly v hmade b f h
    · exact .known hu (by rw [hfold]; exact hfirst.bind (hall b₁))
    · refine .code (put (.literal v)) ?_ ?_
      · rw [hfold]
        exact hfirst.bind (hall b₁)
      · rw [hfold]
        exact (folding_literal hmade).bind (hall b₂)
  | code e₁ =>
    have hall : ComesTo b₂ (f₀.whenKnown put apply) f := by
      cases f₀ with
      | known v => exact (happly v hmade b f h).1 b₂
      | code e₀ =>
        obtain rfl := h.unique (.pure _)
        exact .pure _
    refine .code (put e₁) ?_ ?_
    · rw [hfold]
      exact hfirst.bind (.pure _)
    · rw [hfold]
      exact hsecond.bind hall

/-- A form that stays when its operand is known. -/
theorem operand_kept (put : Expr → Expr)
    (hfold : ∀ e, folding hosts fuel id options (put e) =
      folding hosts fuel id options e >>= fun f => Pure.pure (.code (put f.expr)))
    (hb : b.IsData) (e : Expr) (he : e.All Written)
    (ih : Stages hosts fuel id options b b₁ b₂ e) :
    Stages hosts fuel id options b b₁ b₂ (put e) := by
  refine operand_staged put (fun v => Pure.pure (.code (put (.literal v)))) (fun e => ?_)
    (fun _ _ => even_code _) hb e he ih
  rw [hfold]
  refine congrArg _ (funext fun f => ?_)
  cases f <;> rfl

theorem whenBothKnown_of_code (put : Expr → Expr → Expr) (apply : Value → Value → Eval Folded)
    {l r : Folded} (h : ∀ v v', ¬ (l = .known v ∧ r = .known v')) :
    l.whenBothKnown put apply r = Pure.pure (.code (put l.expr r.expr)) := by
  cases l with
  | code e => rfl
  | known v =>
    cases r with
    | code e => rfl
    | known v' => exact absurd ⟨rfl, rfl⟩ (h v v')

theorem operands_staged (put : Expr → Expr → Expr) (apply : Value → Value → Eval Folded)
    (hfold : ∀ l r, folding hosts fuel id options (put l r) =
      folding hosts fuel id options l >>= fun l => folding hosts fuel id options r >>=
        l.whenBothKnown put apply)
    (happly : ∀ v v', v.Data → v'.Data → Even (apply v v') (put (.literal v) (.literal v')))
    (hb : b.IsData) (l r : Expr) (hl : l.All Written) (hr : r.All Written)
    (ihl : Stages hosts fuel id options b b₁ b₂ l)
    (ihr : Stages hosts fuel id options b b₁ b₂ r) :
    Stages hosts fuel id options b b₁ b₂ (put l r) := by
  intro f h
  rw [hfold] at h
  obtain ⟨l₀, hmadel, hl₀, h⟩ := h.of_bind hb (folding_steady hl)
  obtain ⟨r₀, hmader, hr₀, h⟩ := h.of_bind hb (folding_steady hr)
  obtain ⟨l₁, hfirstl, hsecondl, hknownl⟩ := ihl l₀ hl₀
  obtain ⟨r₁, hfirstr, hsecondr, hknownr⟩ := ihr r₀ hr₀
  have hrest : ∀ b', ComesTo b' (l₀.whenBothKnown put apply r₀) f := by
    intro b'
    by_cases hboth : ∃ v v', l₀ = .known v ∧ r₀ = .known v'
    · obtain ⟨v, v', rfl, rfl⟩ := hboth
      exact (happly v v' hmadel hmader b f h).1 b'
    · rw [whenBothKnown_of_code put apply fun v v' hv => hboth ⟨v, v', hv⟩] at h ⊢
      obtain rfl := h.unique (.pure _)
      exact .pure _
  have hsecond : ComesTo b₂ (folding hosts fuel id options (put l₁.expr r₁.expr)) f := by
    rw [hfold]
    exact hsecondl.bind (hsecondr.bind (hrest b₂))
  by_cases hboth : ∃ v v', l₁ = .known v ∧ r₁ = .known v'
  · obtain ⟨v, v', rfl, rfl⟩ := hboth
    obtain rfl := hknownl v rfl
    obtain rfl := hknownr v' rfl
    have hfirst : ComesTo b₁ (folding hosts fuel id options (put l r)) f := by
      rw [hfold]
      exact hfirstl.bind (hfirstr.bind (hrest b₁))
    obtain ⟨-, ⟨u, rfl, hu⟩ | rfl⟩ := happly v v' hmadel hmader b f h
    · exact .known hu hfirst
    · exact .code _ hfirst hsecond
  · -- the first stage leaves the form, also where one operand is known by then
    refine .code _ ?_ hsecond
    rw [hfold]
    refine hfirstl.bind (hfirstr.bind ?_)
    rw [whenBothKnown_of_code put apply fun v v' hv => hboth ⟨v, v', hv⟩]
    exact .pure _

/-- A form that stays when its operands are known. -/
theorem operands_kept (put : Expr → Expr → Expr)
    (hfold : ∀ l r, folding hosts fuel id options (put l r) =
      folding hosts fuel id options l >>= fun l => folding hosts fuel id options r >>= fun r =>
        Pure.pure (.code (put l.expr r.expr)))
    (hb : b.IsData) (l r : Expr) (hl : l.All Written) (hr : r.All Written)
    (ihl : Stages hosts fuel id options b b₁ b₂ l)
    (ihr : Stages hosts fuel id options b b₁ b₂ r) :
    Stages hosts fuel id options b b₁ b₂ (put l r) := by
  refine operands_staged put (fun v v' => Pure.pure (.code (put (.literal v) (.literal v'))))
    (fun l r => ?_) (fun _ _ _ _ => even_code _) hb l r hl hr ihl ihr
  rw [hfold]
  refine congrArg _ (funext fun l => congrArg _ (funext fun r => ?_))
  cases l <;> cases r <;> rfl

/-! ### Parts in order -/

/-- What is known in a folded expression is known in another one. -/
def Kept (f₁ f : Folded) : Prop := ∀ v, f₁ = .known v → f = .known v

theorem values_kept {fs₁ fs : List Folded} {vs : List Value} (h : List.Forall₂ Kept fs₁ fs)
    (hvs : fs₁.mapM Folded.value? = some vs) : fs = fs₁ := by
  induction h generalizing vs with
  | nil => rfl
  | @cons f₁ f rest₁ rest hkept _ ih =>
    cases f₁ with
    | code e => cases hvs
    | known v =>
      obtain ⟨rest', hrest, -⟩ : ∃ us, rest₁.mapM Folded.value? = some us ∧ v :: us = vs := by
        simpa [List.mapM_cons, Folded.value?, Option.bind_eq_some_iff] using hvs
      rw [hkept v rfl, ih hrest]

section

variable (hosts : Hosts) (fuel id : Nat) (options : Options) (b₁ b₂ : Bindings)

/-- Folding parts with the first variables and then with the second ones; what is known by then was
known. -/
def StagedItems (es : List Expr) (fs : List Folded) : Prop :=
  ∃ fs₁, ComesTo b₁ (foldItems ((engine hosts fuel).call 0) (.ofOptions id options) es) fs₁ ∧
    ComesTo b₂ (foldItems ((engine hosts fuel).call 0) (.ofOptions id options)
      (fs₁.map Folded.expr)) fs ∧ List.Forall₂ Kept fs₁ fs

/-- Folding parts in place with the first variables and then with the second ones. -/
def StagedParts {α : Type} (fold : α → Eval α) (parts parts' : α) : Prop :=
  ∃ parts₁, ComesTo b₁ (fold parts) parts₁ ∧ ComesTo b₂ (fold parts₁) parts'

end

theorem folding_array (es : List Expr) : folding hosts fuel id options (.array es) =
    foldItems ((engine hosts fuel).call 0) (.ofOptions id options) es >>= fun fs =>
      Pure.pure (.ofItems fs) := by
  rw [folding, fold]
  refine congrArg _ (funext fun fs => ?_)
  rw [Folded.ofItems]
  cases fs.mapM Folded.value? <;> rfl

theorem array_staged {es : List Expr} {fs : List Folded}
    (hmade : ∀ f ∈ fs, f.Made Value.Data Written)
    (h : StagedItems hosts fuel id options b₁ b₂ es fs) :
    Staged hosts fuel id options b₁ b₂ (.array es) (.ofItems fs) := by
  obtain ⟨fs₁, hfirst, hsecond, hkept⟩ := h
  have hfirst' : ComesTo b₁ (folding hosts fuel id options (.array es)) (.ofItems fs₁) := by
    rw [folding_array]
    exact hfirst.bind (.pure _)
  cases hvalues : fs₁.mapM Folded.value? with
  | some vs =>
    obtain rfl := values_kept hkept hvalues
    rw [Folded.ofItems, hvalues] at hfirst' ⊢
    exact .known (Value.data_hereditary.array (values_made hmade hvalues)) hfirst'
  | none =>
    rw [Folded.ofItems, hvalues] at hfirst'
    refine .code _ hfirst' ?_
    rw [folding_array]
    exact hsecond.bind (.pure _)

section

variable (hunion : b.IsUnion b₁ b₂) (h₁ : b₁.IsData) (h₂ : b₂.IsData)

include hunion h₁ h₂

theorem variable_staged {name : String} {f : Folded}
    (h : ComesTo b (folding hosts fuel id options (.variable name)) f) :
    Staged hosts fuel id options b₁ b₂ (.variable name) f := by
  have hread : ∀ {b' : Bindings} {r : Option Value},
      knownVariable? (.ofOptions id options) b' name = r →
        ComesTo b' (folding hosts fuel id options (.variable name))
          (r.elim (.code (.variable name)) .known) := by
    intro b' r hr
    rw [folding, fold]
    refine ComesTo.scope.bind ?_
    rw [hr]
    cases r <;> exact .pure _
  have hknown := knownVariable?_union (.ofOptions id options) hunion h₁ h₂ name
  cases hfirst : knownVariable? (.ofOptions id options) b₁ name with
  | some v =>
    rw [hfirst, Option.some_or] at hknown
    obtain rfl := h.unique (hread hknown)
    exact .known (h₁ name v (knownVariable?_eq_some hfirst)) (hread hfirst)
  | none =>
    rw [hfirst, Option.none_or] at hknown
    obtain rfl := h.unique (hread hknown)
    exact .code _ (hread hfirst) (hread rfl)

mutual

/-- Folding with all variables comes to what folding in two stages comes to: by induction on the
expression. -/
theorem fold_staged : (e : Expr) → e.All Written → ∀ f,
    ComesTo b (folding hosts fuel id options e) f → Staged hosts fuel id options b₁ b₂ e f
  | .literal v, he, f, h => by
    have hv : v.Data := he v rfl
    obtain rfl := h.unique (folding_literal hv)
    exact .known hv (folding_literal hv)
  | .undefined, _, f, h => by
    obtain rfl := h.unique (.pure _)
    exact .code _ (.pure _) (.pure _)
  | .variable name, _, f, h => variable_staged hunion h₁ h₂ h
  | .unary op e, he, f, h =>
    operand_staged (.unary op)
      (fun v => foldOperator ((engine hosts fuel).call 0) op
        ((Language.ofOptions id options).unaryOp? op) [v] (.unary op (.literal v)))
      (fun e => by
        rw [folding, fold]
        refine congrArg _ (funext fun f => ?_)
        cases f <;> rfl)
      (fun v hv => even_operator (fun f hf => Language.operation_standard (.inl hf))
        (List.forall_mem_singleton.mpr hv))
      (hunion.isData h₁ h₂) e he.2 (fold_staged e he.2) f h
  | .member e name, he, f, h =>
    operand_staged (.member · name)
      (fun v => if options.memberAccess && !isReserved name then return .known (v.member name)
        else return .code (.member (.literal v) name))
      (fun e => by
        rw [folding, fold]
        refine congrArg _ (funext fun f => ?_)
        cases f <;> rfl)
      (fun v hv => by
        split
        · exact even_known (Value.data_hereditary.member hv name) _
        · exact even_code _)
      (hunion.isData h₁ h₂) e he (fold_staged e he) f h
  | .assign root members e, he, f, h =>
    operand_kept (.assign root members) (fun e => by rw [folding, fold]) (hunion.isData h₁ h₂) e he
      (fold_staged e he) f h
  | .define name params e, he, f, h =>
    operand_kept (.define name params) (fun e => by rw [folding, fold]) (hunion.isData h₁ h₂) e he
      (fold_staged e he) f h
  | .closed e, he, f, h =>
    operand_kept .closed (fun e => by rw [folding, fold]) (hunion.isData h₁ h₂) e he
      (fold_staged e he) f h
  | .binary op l r, he, f, h =>
    operands_staged (.binary op)
      (fun v v' => foldOperator ((engine hosts fuel).call 0) op
        ((Language.ofOptions id options).binaryOp? op) [v, v']
        (.binary op (.literal v) (.literal v')))
      (fun l r => by
        rw [folding, fold]
        refine congrArg _ (funext fun l => congrArg _ (funext fun r => ?_))
        cases l <;> cases r <;> rfl)
      (fun v v' hv hv' => even_operator (fun f hf => Language.operation_standard (.inr hf))
        (by simp [hv, hv']))
      (hunion.isData h₁ h₂) l r he.2.1 he.2.2 (fold_staged l he.2.1) (fold_staged r he.2.2) f h
  | .connective c l r, he, f, h =>
    operands_kept (.connective c) (fun l r => by rw [folding, fold]) (hunion.isData h₁ h₂) l r he.1
      he.2 (fold_staged l he.1) (fold_staged r he.2) f h
  | .sequence l r, he, f, h =>
    operands_kept .sequence (fun l r => by rw [folding, fold]) (hunion.isData h₁ h₂) l r he.1 he.2
      (fold_staged l he.1) (fold_staged r he.2) f h
  | .conditional t y n, he, f, h => by
    have hb := hunion.isData h₁ h₂
    rw [folding, fold] at h
    obtain ⟨t₀, -, ht, h⟩ := h.of_bind hb (folding_steady he.1)
    obtain ⟨y₀, -, hy, h⟩ := h.of_bind hb (folding_steady he.2.1)
    obtain ⟨n₀, -, hn, h⟩ := h.of_bind hb (folding_steady he.2.2)
    obtain rfl := h.unique (.pure _)
    obtain ⟨t₁, ht₁, ht₂, -⟩ := fold_staged t he.1 t₀ ht
    obtain ⟨y₁, hy₁, hy₂, -⟩ := fold_staged y he.2.1 y₀ hy
    obtain ⟨n₁, hn₁, hn₂, -⟩ := fold_staged n he.2.2 n₀ hn
    refine .code (.conditional t₁.expr y₁.expr n₁.expr) ?_ ?_ <;> rw [folding, fold]
    · exact ht₁.bind (hy₁.bind (hn₁.bind (.pure _)))
    · exact ht₂.bind (hy₂.bind (hn₂.bind (.pure _)))
  | .call callee args, he, f, h => by
    have hb := hunion.isData h₁ h₂
    rw [folding, fold] at h
    obtain ⟨c₀, -, hc, h⟩ := h.of_bind hb (folding_steady he.1)
    obtain ⟨as₀, -, has, h⟩ := h.of_bind hb (items_steady he.2)
    obtain rfl := h.unique (.pure _)
    obtain ⟨c₁, hc₁, hc₂, -⟩ := fold_staged callee he.1 c₀ hc
    obtain ⟨as₁, has₁, has₂, -⟩ := foldItems_staged args he.2 as₀ has
    refine .code (.call c₁.expr (as₁.map Folded.expr)) ?_ ?_ <;> rw [folding, fold]
    · exact hc₁.bind (has₁.bind (.pure _))
    · exact hc₂.bind (has₂.bind (.pure _))
  | .array items, he, f, h => by
    have hb := hunion.isData h₁ h₂
    rw [folding_array] at h
    obtain ⟨fs₀, hmade, hfs, h⟩ := h.of_bind hb (items_steady he)
    obtain rfl := h.unique (.pure _)
    exact array_staged hmade (foldItems_staged items he fs₀ hfs)
  | .object fields, he, f, h => by
    rw [folding, fold] at h
    obtain ⟨fs₀, -, hfs, h⟩ := h.of_bind (hunion.isData h₁ h₂) (fields_steady he)
    obtain rfl := h.unique (.pure _)
    obtain ⟨fs₁, hfirst, hsecond⟩ := foldFields_staged fields he fs₀ hfs
    refine .code (.object fs₁) ?_ ?_ <;> rw [folding, fold]
    · exact hfirst.bind (.pure _)
    · exact hsecond.bind (.pure _)
  | .case tested branches other, he, f, h => by
    have hb := hunion.isData h₁ h₂
    rw [folding, fold] at h
    obtain ⟨t₀, -, ht, h⟩ := h.of_bind hb (option_steady he.1)
    obtain ⟨bs₀, -, hbs, h⟩ := h.of_bind hb (branches_steady he.2.1)
    obtain ⟨o₀, -, ho, h⟩ := h.of_bind hb (option_steady he.2.2)
    obtain rfl := h.unique (.pure _)
    obtain ⟨t₁, ht₁, ht₂⟩ := foldOption_staged tested he.1 t₀ ht
    obtain ⟨bs₁, hbs₁, hbs₂⟩ := foldBranches_staged branches he.2.1 bs₀ hbs
    obtain ⟨o₁, ho₁, ho₂⟩ := foldOption_staged other he.2.2 o₀ ho
    refine .code (.case t₁ bs₁ o₁) ?_ ?_ <;> rw [folding, fold]
    · exact ht₁.bind (hbs₁.bind (ho₁.bind (.pure _)))
    · exact ht₂.bind (hbs₂.bind (ho₂.bind (.pure _)))

theorem foldItems_staged : (es : List Expr) → AllItems Written es → ∀ fs,
    ComesTo b (foldItems ((engine hosts fuel).call 0) (.ofOptions id options) es) fs →
      StagedItems hosts fuel id options b₁ b₂ es fs
  | [], _, fs, h => by
    obtain rfl := h.unique (.pure _)
    exact ⟨[], .pure _, .pure _, .nil⟩
  | e :: rest, he, fs, h => by
    have hb := hunion.isData h₁ h₂
    rw [foldItems] at h
    obtain ⟨f₀, -, hf, h⟩ := h.of_bind hb (folding_steady he.1)
    obtain ⟨fs₀, -, hfs, h⟩ := h.of_bind hb (items_steady he.2)
    obtain rfl := h.unique (.pure _)
    obtain ⟨f₁, hf₁, hf₂, hkept⟩ := fold_staged e he.1 f₀ hf
    obtain ⟨fs₁, hfs₁, hfs₂, hrest⟩ := foldItems_staged rest he.2 fs₀ hfs
    refine ⟨f₁ :: fs₁, ?_, ?_, .cons hkept hrest⟩
    · rw [foldItems]
      exact hf₁.bind (hfs₁.bind (.pure _))
    · rw [List.map_cons, foldItems]
      exact hf₂.bind (hfs₂.bind (.pure _))

theorem foldFields_staged : (fields : List (String × Expr)) → AllFields Written fields → ∀ fs,
    ComesTo b (foldFields ((engine hosts fuel).call 0) (.ofOptions id options) fields) fs →
      StagedParts b₁ b₂ (foldFields ((engine hosts fuel).call 0) (.ofOptions id options)) fields fs
  | [], _, fs, h => by
    obtain rfl := h.unique (.pure _)
    exact ⟨[], .pure _, .pure _⟩
  | (key, e) :: rest, he, fs, h => by
    have hb := hunion.isData h₁ h₂
    rw [foldFields] at h
    obtain ⟨f₀, -, hf, h⟩ := h.of_bind hb (folding_steady he.1)
    obtain ⟨fs₀, -, hfs, h⟩ := h.of_bind hb (fields_steady he.2)
    obtain rfl := h.unique (.pure _)
    obtain ⟨f₁, hf₁, hf₂, -⟩ := fold_staged e he.1 f₀ hf
    obtain ⟨fs₁, hfs₁, hfs₂⟩ := foldFields_staged rest he.2 fs₀ hfs
    refine ⟨(key, f₁.expr) :: fs₁, ?_, ?_⟩ <;> rw [foldFields]
    · exact hf₁.bind (hfs₁.bind (.pure _))
    · exact hf₂.bind (hfs₂.bind (.pure _))

theorem foldBranches_staged : (branches : List (Expr × Expr)) → AllBranches Written branches →
    ∀ bs, ComesTo b (foldBranches ((engine hosts fuel).call 0) (.ofOptions id options) branches)
      bs → StagedParts b₁ b₂ (foldBranches ((engine hosts fuel).call 0) (.ofOptions id options))
        branches bs
  | [], _, bs, h => by
    obtain rfl := h.unique (.pure _)
    exact ⟨[], .pure _, .pure _⟩
  | (c, v) :: rest, he, bs, h => by
    have hb := hunion.isData h₁ h₂
    rw [foldBranches] at h
    obtain ⟨c₀, -, hc, h⟩ := h.of_bind hb (folding_steady he.1)
    obtain ⟨v₀, -, hv, h⟩ := h.of_bind hb (folding_steady he.2.1)
    obtain ⟨bs₀, -, hbs, h⟩ := h.of_bind hb (branches_steady he.2.2)
    obtain rfl := h.unique (.pure _)
    obtain ⟨c₁, hc₁, hc₂, -⟩ := fold_staged c he.1 c₀ hc
    obtain ⟨v₁, hv₁, hv₂, -⟩ := fold_staged v he.2.1 v₀ hv
    obtain ⟨bs₁, hbs₁, hbs₂⟩ := foldBranches_staged rest he.2.2 bs₀ hbs
    refine ⟨(c₁.expr, v₁.expr) :: bs₁, ?_, ?_⟩ <;> rw [foldBranches]
    · exact hc₁.bind (hv₁.bind (hbs₁.bind (.pure _)))
    · exact hc₂.bind (hv₂.bind (hbs₂.bind (.pure _)))

theorem foldOption_staged : (other : Option Expr) → AllOption Written other → ∀ o,
    ComesTo b (foldOption ((engine hosts fuel).call 0) (.ofOptions id options) other) o →
      StagedParts b₁ b₂ (foldOption ((engine hosts fuel).call 0) (.ofOptions id options)) other o
  | none, _, o, h => by
    obtain rfl := h.unique (.pure _)
    exact ⟨none, .pure _, .pure _⟩
  | some e, he, o, h => by
    rw [foldOption] at h
    obtain ⟨f₀, -, hf, h⟩ := h.of_bind (hunion.isData h₁ h₂) (folding_steady he)
    obtain rfl := h.unique (.pure _)
    obtain ⟨f₁, hf₁, hf₂, -⟩ := fold_staged e he f₀ hf
    refine ⟨some f₁.expr, ?_, ?_⟩ <;> rw [foldOption]
    · exact hf₁.bind (.pure _)
    · exact hf₂.bind (.pure _)

end

end

/-! ### Simplifying -/

theorem simplify_comesTo {e : Expr} {f : Folded}
    (h : ComesTo b (folding hosts fuel id options e) f) :
    ComesTo b (e.simplify hosts fuel (.ofOptions id options)) f.expr :=
  h.bind (.pure _)

theorem Staged.simplify {e : Expr} {f : Folded} (h : Staged hosts fuel id options b₁ b₂ e f) :
    ∃ q₁, ComesTo b₁ (e.simplify hosts fuel (.ofOptions id options)) q₁ ∧
      ComesTo b₂ (q₁.simplify hosts fuel (.ofOptions id options)) f.expr := by
  obtain ⟨f₁, hfirst, hsecond, -⟩ := h
  exact ⟨f₁.expr, simplify_comesTo hfirst, simplify_comesTo hsecond⟩

end

end Expr

theorem parseExpr_written {id : Nat} {options : Options} {source : String} {e : Expr}
    (he : parseExpr (.ofOptions id options) source = .ok e) : e.All Expr.Written := by
  have hemits : (Language.ofOptions id options).Emits fun i =>
      i.isStructural = false ∧ Expr.Written i :=
    Language.emits_made Value.data_hereditary Language.constants_data
      (fun hv _ h => by cases h; exact hv) fun hne _ v h => absurd h (hne v)
  have hcomplete : (Language.ofOptions id options).Complete :=
    Language.Extended.complete (g := .sound) (.standard id options)
  exact Expr.All.mono (fun _ h => h.2) e (parseExpr_all hcomplete hemits he)

/-- When a formula is simplified with all variables, so it is with some of them, and what this
leaves, simplified with the other ones, is the same. It is the same in which order they come, and
simplifying it again changes nothing. -/
theorem simplify_staged {hosts : Hosts} {fuel id : Nat} {options : Options} {source : String}
    {e q : Expr} {b b₁ b₂ : Bindings} {w w' : World}
    (he : parseExpr (.ofOptions id options) source = .ok e) (h₁ : b₁.IsData) (h₂ : b₂.IsData)
    (hagree : b₁.Agree b₂) (hunion : b.IsUnion b₁ b₂) (hw : w.scope = b)
    (hq : e.simplify hosts fuel (.ofOptions id options) w = (.ok q, w')) :
    (∃ q₁, ComesTo b₁ (e.simplify hosts fuel (.ofOptions id options)) q₁ ∧
      ComesTo b₂ (q₁.simplify hosts fuel (.ofOptions id options)) q) ∧
    (∃ q₂, ComesTo b₂ (e.simplify hosts fuel (.ofOptions id options)) q₂ ∧
      ComesTo b₁ (q₂.simplify hosts fuel (.ofOptions id options)) q) ∧
    ComesTo b (q.simplify hosts fuel (.ofOptions id options)) q := by
  subst hw
  have hb : Bindings.IsData w.scope := hunion.isData h₁ h₂
  have hwritten := parseExpr_written he
  obtain ⟨f, w₁, hf, hexpr⟩ := bind_eq_ok hq
  cases hexpr
  obtain ⟨-, hcomes⟩ := Expr.folding_steady hwritten w f w' hb hf
  refine ⟨(Expr.fold_staged hunion h₁ h₂ e hwritten f hcomes).simplify,
    (Expr.fold_staged (hunion.symm hagree) h₂ h₁ e hwritten f hcomes).simplify, ?_⟩
  -- a scope is the union of itself with itself
  obtain ⟨f₁, hfirst, hsecond, -⟩ :=
    Expr.fold_staged (.self w.scope) hb hb e hwritten f hcomes
  obtain rfl := hfirst.unique hcomes
  exact Expr.simplify_comesTo hsecond

/-- A formula of which one part is known from some variables, one from the other ones, one only from
both, and one not at all. -/
def stagesSource : String := "[a.d, b, a.d || b || c, f(x || a.d)]"

def stagesFirst : Bindings := [("a", .object [("d", .string "x")]), ("c", .string "z")]

def stagesSecond : Bindings := [("b", .string "y"), ("c", .string "z")]

theorem stages_staged : ∃ e q w',
    parseExpr (.ofOptions 0 {}) stagesSource = .ok e ∧
    e.simplify (fun _ _ => ⟨[], .value .null⟩) 9 (.ofOptions 0 {})
      (World.start (stagesFirst ++ stagesSecond) 100) = (.ok q, w') ∧
    ∃ q₁, ComesTo stagesFirst
        (e.simplify (fun _ _ => ⟨[], .value .null⟩) 9 (.ofOptions 0 {})) q₁ ∧
      ComesTo stagesSecond
        (q₁.simplify (fun _ _ => ⟨[], .value .null⟩) 9 (.ofOptions 0 {})) q := by
  have hsimplifies : (parseExpr (.ofOptions 0 {}) stagesSource).toOption.map (fun e =>
      (e.simplify (fun _ _ => ⟨[], .value .null⟩) 9 (.ofOptions 0 {})
        (World.start (stagesFirst ++ stagesSecond) 100)).1.isOk) = some true := by
    decide +kernel
  have hfirst : stagesFirst.IsData := Bindings.isData_of_forall <| by
    simp only [stagesFirst, List.forall_mem_cons]
    exact ⟨.object (by simp [Value.Data.string]), .string _, by simp⟩
  have hsecond : stagesSecond.IsData := Bindings.isData_of_forall <| by
    simp [stagesSecond, Value.Data.string]
  have hagree : stagesFirst.Agree stagesSecond := by
    intro name v₁ v₂ hget₁ hget₂
    simp only [stagesFirst, stagesSecond, Record.get?] at hget₁ hget₂
    grind
  have hunion := Bindings.IsUnion.append stagesFirst stagesSecond
  cases he : parseExpr (.ofOptions 0 {}) stagesSource with
  | error _ =>
    rw [he] at hsimplifies
    cases hsimplifies
  | ok e =>
    rcases hq : e.simplify (fun _ _ => ⟨[], .value .null⟩) 9 (.ofOptions 0 {})
      (World.start (stagesFirst ++ stagesSecond) 100) with ⟨_ | q, w'⟩ <;>
      rw [he, Except.toOption, Option.map_some, hq] at hsimplifies
    · cases hsimplifies
    · exact ⟨e, q, w', rfl, hq, (simplify_staged he hfirst hsecond hagree hunion rfl hq).1⟩

end Formula
