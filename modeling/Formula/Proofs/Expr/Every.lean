import Formula.Expr

/-!
# Expressions and those in them

`Expr.Every q` says that `q` holds of an expression and of every expression in it.
-/

namespace Formula.Expr

mutual

def Every (q : Expr → Prop) : Expr → Prop
  | .literal v => q (.literal v)
  | .undefined => q .undefined
  | .variable name => q (.variable name)
  | .unary op e => q (.unary op e) ∧ Every q e
  | .binary op l r => q (.binary op l r) ∧ Every q l ∧ Every q r
  | .connective c l r => q (.connective c l r) ∧ Every q l ∧ Every q r
  | .conditional t y n => q (.conditional t y n) ∧ Every q t ∧ Every q y ∧ Every q n
  | .assign root members v => q (.assign root members v) ∧ Every q v
  | .define name params body => q (.define name params body) ∧ Every q body
  | .call f args => q (.call f args) ∧ Every q f ∧ EveryItem q args
  | .member e name => q (.member e name) ∧ Every q e
  | .array items => q (.array items) ∧ EveryItem q items
  | .object fields => q (.object fields) ∧ EveryField q fields
  | .case tested branches other =>
    q (.case tested branches other) ∧ EveryOption q tested ∧ EveryBranch q branches ∧
      EveryOption q other
  | .sequence a b => q (.sequence a b) ∧ Every q a ∧ Every q b
  | .closed a => q (.closed a) ∧ Every q a

def EveryItem (q : Expr → Prop) : List Expr → Prop
  | [] => True
  | e :: rest => Every q e ∧ EveryItem q rest

def EveryField (q : Expr → Prop) : List (String × Expr) → Prop
  | [] => True
  | (_, e) :: rest => Every q e ∧ EveryField q rest

def EveryBranch (q : Expr → Prop) : List (Expr × Expr) → Prop
  | [] => True
  | (c, v) :: rest => Every q c ∧ Every q v ∧ EveryBranch q rest

def EveryOption (q : Expr → Prop) : Option Expr → Prop
  | none => True
  | some e => Every q e

end

section

variable {p q r : Expr → Prop}

theorem Every.here {e : Expr} (h : e.Every q) : q e := by
  cases e <;> first | exact h | exact h.1

mutual

/-- What follows everywhere from two things that hold everywhere below. -/
theorem Every.combine (h : ∀ e : Expr, e.Every p → e.Every q → r e) :
    (e : Expr) → e.Every p → e.Every q → e.Every r
  | .literal _, hp, hq | .undefined, hp, hq | .variable _, hp, hq => h _ hp hq
  | .unary op e, hp, hq => ⟨h (.unary op e) hp hq, Every.combine h e hp.2 hq.2⟩
  | .assign root members e, hp, hq =>
    ⟨h (.assign root members e) hp hq, Every.combine h e hp.2 hq.2⟩
  | .define name params e, hp, hq =>
    ⟨h (.define name params e) hp hq, Every.combine h e hp.2 hq.2⟩
  | .member e name, hp, hq => ⟨h (.member e name) hp hq, Every.combine h e hp.2 hq.2⟩
  | .closed e, hp, hq => ⟨h (.closed e) hp hq, Every.combine h e hp.2 hq.2⟩
  | .binary op a b, hp, hq =>
    ⟨h (.binary op a b) hp hq, Every.combine h a hp.2.1 hq.2.1, Every.combine h b hp.2.2 hq.2.2⟩
  | .connective c a b, hp, hq =>
    ⟨h (.connective c a b) hp hq, Every.combine h a hp.2.1 hq.2.1,
      Every.combine h b hp.2.2 hq.2.2⟩
  | .sequence a b, hp, hq =>
    ⟨h (.sequence a b) hp hq, Every.combine h a hp.2.1 hq.2.1, Every.combine h b hp.2.2 hq.2.2⟩
  | .conditional t y n, hp, hq =>
    ⟨h (.conditional t y n) hp hq, Every.combine h t hp.2.1 hq.2.1,
      Every.combine h y hp.2.2.1 hq.2.2.1, Every.combine h n hp.2.2.2 hq.2.2.2⟩
  | .call f args, hp, hq =>
    ⟨h (.call f args) hp hq, Every.combine h f hp.2.1 hq.2.1,
      EveryItem.combine h args hp.2.2 hq.2.2⟩
  | .array items, hp, hq => ⟨h (.array items) hp hq, EveryItem.combine h items hp.2 hq.2⟩
  | .object fields, hp, hq => ⟨h (.object fields) hp hq, EveryField.combine h fields hp.2 hq.2⟩
  | .case tested branches other, hp, hq =>
    ⟨h (.case tested branches other) hp hq, EveryOption.combine h tested hp.2.1 hq.2.1,
      EveryBranch.combine h branches hp.2.2.1 hq.2.2.1,
      EveryOption.combine h other hp.2.2.2 hq.2.2.2⟩

theorem EveryItem.combine (h : ∀ e : Expr, e.Every p → e.Every q → r e) :
    (es : List Expr) → EveryItem p es → EveryItem q es → EveryItem r es
  | [], _, _ => trivial
  | e :: rest, hp, hq => ⟨Every.combine h e hp.1 hq.1, EveryItem.combine h rest hp.2 hq.2⟩

theorem EveryField.combine (h : ∀ e : Expr, e.Every p → e.Every q → r e) :
    (fields : List (String × Expr)) → EveryField p fields → EveryField q fields →
      EveryField r fields
  | [], _, _ => trivial
  | (_, e) :: rest, hp, hq => ⟨Every.combine h e hp.1 hq.1, EveryField.combine h rest hp.2 hq.2⟩

theorem EveryBranch.combine (h : ∀ e : Expr, e.Every p → e.Every q → r e) :
    (branches : List (Expr × Expr)) → EveryBranch p branches → EveryBranch q branches →
      EveryBranch r branches
  | [], _, _ => trivial
  | (c, v) :: rest, hp, hq =>
    ⟨Every.combine h c hp.1 hq.1, Every.combine h v hp.2.1 hq.2.1,
      EveryBranch.combine h rest hp.2.2 hq.2.2⟩

theorem EveryOption.combine (h : ∀ e : Expr, e.Every p → e.Every q → r e) :
    (other : Option Expr) → EveryOption p other → EveryOption q other → EveryOption r other
  | none, _, _ => trivial
  | some e, hp, hq => Every.combine h e hp hq

end

theorem Every.mono (h : ∀ e : Expr, e.Every p → q e) (e : Expr) (he : e.Every p) : e.Every q :=
  Every.combine (fun e hp _ => h e hp) e he he

theorem everyItem_iff {es : List Expr} : EveryItem q es ↔ ∀ e ∈ es, e.Every q := by
  induction es with
  | nil => exact ⟨fun _ _ h => (List.not_mem_nil h).elim, fun _ => trivial⟩
  | cons e rest ih => rw [EveryItem, ih, List.forall_mem_cons]

theorem everyField_iff {fields : List (String × Expr)} :
    EveryField q fields ↔ ∀ f ∈ fields, f.2.Every q := by
  induction fields with
  | nil => exact ⟨fun _ _ h => (List.not_mem_nil h).elim, fun _ => trivial⟩
  | cons f rest ih =>
    obtain ⟨key, e⟩ := f
    rw [EveryField, ih, List.forall_mem_cons]

theorem everyBranch_iff {branches : List (Expr × Expr)} :
    EveryBranch q branches ↔ ∀ b ∈ branches, b.1.Every q ∧ b.2.Every q := by
  induction branches with
  | nil => exact ⟨fun _ _ h => (List.not_mem_nil h).elim, fun _ => trivial⟩
  | cons b rest ih =>
    obtain ⟨c, v⟩ := b
    rw [EveryBranch, ih, List.forall_mem_cons, and_assoc]

theorem everyOption_iff {other : Option Expr} : EveryOption q other ↔ ∀ e ∈ other, e.Every q := by
  cases other with
  | none => exact ⟨fun _ _ h => (by cases h), fun _ => trivial⟩
  | some e =>
    refine ⟨fun he x hx => ?_, fun h => h e rfl⟩
    cases hx
    exact he

end

/-! ### Decision -/

mutual

/-- Whether something holds everywhere in an expression can be computed. -/
def decideEvery (q : Expr → Prop) [DecidablePred q] : (e : Expr) → Decidable (e.Every q)
  | .literal v => inferInstanceAs (Decidable (q (.literal v)))
  | .undefined => inferInstanceAs (Decidable (q .undefined))
  | .variable name => inferInstanceAs (Decidable (q (.variable name)))
  | .unary op e =>
    have := decideEvery q e
    inferInstanceAs (Decidable (q (.unary op e) ∧ e.Every q))
  | .binary op a b =>
    have := decideEvery q a
    have := decideEvery q b
    inferInstanceAs (Decidable (q (.binary op a b) ∧ a.Every q ∧ b.Every q))
  | .connective c a b =>
    have := decideEvery q a
    have := decideEvery q b
    inferInstanceAs (Decidable (q (.connective c a b) ∧ a.Every q ∧ b.Every q))
  | .conditional t y n =>
    have := decideEvery q t
    have := decideEvery q y
    have := decideEvery q n
    inferInstanceAs (Decidable (q (.conditional t y n) ∧ t.Every q ∧ y.Every q ∧ n.Every q))
  | .assign root members e =>
    have := decideEvery q e
    inferInstanceAs (Decidable (q (.assign root members e) ∧ e.Every q))
  | .define name params e =>
    have := decideEvery q e
    inferInstanceAs (Decidable (q (.define name params e) ∧ e.Every q))
  | .call f args =>
    have := decideEvery q f
    have := decideEveryItem q args
    inferInstanceAs (Decidable (q (.call f args) ∧ f.Every q ∧ EveryItem q args))
  | .member e name =>
    have := decideEvery q e
    inferInstanceAs (Decidable (q (.member e name) ∧ e.Every q))
  | .array items =>
    have := decideEveryItem q items
    inferInstanceAs (Decidable (q (.array items) ∧ EveryItem q items))
  | .object fields =>
    have := decideEveryField q fields
    inferInstanceAs (Decidable (q (.object fields) ∧ EveryField q fields))
  | .case tested branches other =>
    have := decideEveryOption q tested
    have := decideEveryBranch q branches
    have := decideEveryOption q other
    inferInstanceAs (Decidable (q (.case tested branches other) ∧ EveryOption q tested ∧
      EveryBranch q branches ∧ EveryOption q other))
  | .sequence a b =>
    have := decideEvery q a
    have := decideEvery q b
    inferInstanceAs (Decidable (q (.sequence a b) ∧ a.Every q ∧ b.Every q))
  | .closed e =>
    have := decideEvery q e
    inferInstanceAs (Decidable (q (.closed e) ∧ e.Every q))

def decideEveryItem (q : Expr → Prop) [DecidablePred q] : (es : List Expr) → Decidable (EveryItem q es)
  | [] => isTrue trivial
  | e :: rest =>
    have := decideEvery q e
    have := decideEveryItem q rest
    inferInstanceAs (Decidable (e.Every q ∧ EveryItem q rest))

def decideEveryField (q : Expr → Prop) [DecidablePred q] :
    (fields : List (String × Expr)) → Decidable (EveryField q fields)
  | [] => isTrue trivial
  | (_, e) :: rest =>
    have := decideEvery q e
    have := decideEveryField q rest
    inferInstanceAs (Decidable (e.Every q ∧ EveryField q rest))

def decideEveryBranch (q : Expr → Prop) [DecidablePred q] :
    (branches : List (Expr × Expr)) → Decidable (EveryBranch q branches)
  | [] => isTrue trivial
  | (c, v) :: rest =>
    have := decideEvery q c
    have := decideEvery q v
    have := decideEveryBranch q rest
    inferInstanceAs (Decidable (c.Every q ∧ v.Every q ∧ EveryBranch q rest))

def decideEveryOption (q : Expr → Prop) [DecidablePred q] :
    (other : Option Expr) → Decidable (EveryOption q other)
  | none => isTrue trivial
  | some e => decideEvery q e

end

instance (q : Expr → Prop) [DecidablePred q] : DecidablePred (Every q) := decideEvery q

end Formula.Expr
