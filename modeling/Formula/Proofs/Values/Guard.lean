import Formula.Machine

/-!
# What values are made of

A guard says which native functions, programs and instructions may occur. A value obeys it when
all that it holds does, at any depth: items, fields, and functions with their code, their captured
variables and their language. What the machine builds out of values that obey a guard obeys it.
-/

namespace Formula

structure Guard where
  native : Native → Prop
  /-- programs that are run on a stack of their own -/
  body : Language Value → Program Value → Prop
  /-- whether operators must be in their tables -/
  total : Prop

namespace Instruction

/-- The operators of two operands that the machine itself gives a meaning. -/
def connectives : List String := ["and", "or", "="]

/-- The entry of a table whose function an operator calls. -/
def called? (lang : Language Value) : Instruction Value → Option (Option Native)
  | .unary op => some (lang.unaryOp? op)
  | .binary op => if op ∈ connectives then none else some (lang.binaryOp? op)
  | .ternary op => if op = "?" then none else some (lang.ternaryOp? op)
  | _ => none

/-- The entries of the tables that an instruction can reach by a name. -/
def natives (lang : Language Value) (i : Instruction Value) : List Native :=
  match i with
  | .variable name => (lang.function? name).toList ++ (lang.unaryOp? name).toList
  | i => ((i.called? lang).getD none).toList

end Instruction

mutual

inductive Value.Obeys (g : Guard) : Value → Prop
  | undefined : Value.Obeys g .undefined
  | null : Value.Obeys g .null
  | bool (b : Bool) : Value.Obeys g (.bool b)
  | number (x : Float) : Value.Obeys g (.number x)
  | string (s : String) : Value.Obeys g (.string s)
  | array {items : List Value} : (∀ v ∈ items, Value.Obeys g v) → Value.Obeys g (.array items)
  | object {fields : List (String × Value)} :
      (∀ p ∈ fields, Value.Obeys g p.2) → Value.Obeys g (.object fields)
  | function {f : Function Value} : Function.Obeys g f → Value.Obeys g (.function f)
  | deferred (id : Nat) : Value.Obeys g (.deferred id)

inductive Function.Obeys (g : Guard) : Function Value → Prop
  | native {f : Native} : g.native f → Function.Obeys g (.native f)
  | defined {c : Closure Value} : Closure.Obeys g c → Function.Obeys g (.defined c)
  | prepared {c : Closure Value} : Closure.Obeys g c → Function.Obeys g (.prepared c)

inductive Closure.Obeys (g : Guard) : Closure Value → Prop
  | mk {c : Closure Value} : g.body c.language c.body →
      (∀ i ∈ c.body, Instruction.Obeys g c.language i) → (∀ p ∈ c.captured, Value.Obeys g p.2) →
      Language.Obeys g c.language → Closure.Obeys g c

inductive Instruction.Obeys (g : Guard) : Language Value → Instruction Value → Prop
  | literal {lang : Language Value} {v : Value} :
      Value.Obeys g v → Instruction.Obeys g lang (.literal v)
  | group {lang : Language Value} {body : Program Value} :
      g.body lang body → (∀ i ∈ body, Instruction.Obeys g lang i) →
      Instruction.Obeys g lang (.group body)
  | plain {lang : Language Value} {i : Instruction Value} :
      (∀ v, i ≠ .literal v) → (∀ body, i ≠ .group body) →
      (g.total → i.called? lang ≠ some none) → (∀ f ∈ i.natives lang, g.native f) →
      Instruction.Obeys g lang i

/-- What the resolver of a language gives. -/
inductive Language.Obeys (g : Guard) : Language Value → Prop
  | mk {lang : Language Value} :
      (∀ name v, lang.resolve? name = some (.value v) → Value.Obeys g v) → Language.Obeys g lang

end

namespace Instruction

variable {g : Guard} {lang : Language Value}

theorem Obeys.entry {i : Instruction Value} (h : i.Obeys g lang) (ht : g.total) :
    i.called? lang ≠ some none := by
  cases h with
  | literal _ => intro he; cases he
  | group _ _ => intro he; cases he
  | plain _ _ he _ => exact he ht

theorem Obeys.natives {i : Instruction Value} (h : i.Obeys g lang) :
    ∀ f ∈ i.natives lang, g.native f := by
  cases h with
  | literal _ => intro f hf; simp [Instruction.natives, called?] at hf
  | group _ _ => intro f hf; simp [Instruction.natives, called?] at hf
  | plain _ _ _ hn => exact hn

theorem Obeys.natives_unary {op : String} (h : (Instruction.unary op).Obeys g lang) :
    ∀ f ∈ lang.unaryOp? op, g.native f := by
  intro f hf
  refine h.natives f ?_
  simpa [Instruction.natives, called?] using hf

theorem Obeys.natives_binary {op : String} (h : (Instruction.binary op).Obeys g lang)
    (hop : op ∉ connectives) : ∀ f ∈ lang.binaryOp? op, g.native f := by
  intro f hf
  refine h.natives f ?_
  simpa [Instruction.natives, called?, hop] using hf

theorem Obeys.ofLiteral {v : Value} (h : (Instruction.literal v).Obeys g lang) : v.Obeys g := by
  cases h with
  | literal hv => exact hv
  | plain hl _ _ _ => exact (hl v rfl).elim

theorem Obeys.ofGroup {body : Program Value} (h : (Instruction.group body).Obeys g lang) :
    g.body lang body ∧ ∀ i ∈ body, i.Obeys g lang := by
  cases h with
  | group hb hi => exact ⟨hb, hi⟩
  | plain _ hg _ _ => exact (hg body rfl).elim

/-- Whether an instruction neither holds a value nor names an entry of a table. -/
def isStructural : Instruction Value → Bool
  | .literal _ | .group _ | .variable _ | .unary _ => false
  | .binary op => op ∈ connectives
  | .ternary op => op = "?"
  | _ => true

theorem Obeys.ofStructural {i : Instruction Value} (h : i.isStructural = true) :
    i.Obeys g lang := by
  have he : i.called? lang = none := by
    cases i <;> simp_all [isStructural, called?]
  refine .plain ?_ ?_ (fun _ => by simp [he]) ?_
  · rintro v rfl
    cases h
  · rintro body rfl
    cases h
  · cases i with
    | «variable» name => cases h
    | _ => simp [Instruction.natives, he]

end Instruction

/-! ### Containers -/

/-- A property that data has when its parts do, and whose parts have it. -/
structure Value.Hereditary (P : Value → Prop) : Prop where
  undefined : P .undefined
  bool : ∀ b, P (.bool b)
  number : ∀ x, P (.number x)
  string : ∀ s, P (.string s)
  array : ∀ {items : List Value}, (∀ v ∈ items, P v) → P (.array items)
  items : ∀ {items : List Value}, P (.array items) → ∀ v ∈ items, P v
  fields : ∀ {fields : List (String × Value)}, P (.object fields) → ∀ p ∈ fields, P p.2

/-- A property that objects have when they are built field by field, of names that are not reserved. -/
structure Value.Fieldwise (P : Value → Prop) : Prop extends Value.Hereditary P where
  empty : P (.object [])
  insert : ∀ {fields : List (String × Value)} {name : String} {v : Value}, P (.object fields) →
    isReserved name = false → P v → P (.object (Record.insert fields name v))

/-- A property that data has exactly when its parts have it. -/
structure Value.Partwise (P : Value → Prop) : Prop extends Value.Hereditary P where
  object : ∀ {fields : List (String × Value)}, (∀ p ∈ fields, P p.2) → P (.object fields)

namespace Bindings

def Obeys (g : Guard) (b : List (String × Value)) : Prop := ∀ p ∈ b, p.2.Obeys g

end Bindings

namespace Record

variable {α : Type}

theorem mem_of_get? {r : Record α} {name : String} {v : α} (h : get? r name = some v) :
    (name, v) ∈ r := by
  induction r with
  | nil => simp at h
  | cons p rest ih =>
    obtain ⟨k, w⟩ := p
    by_cases hk : k = name
    · simp only [get?, hk, if_true, Option.some.injEq] at h
      subst hk h
      exact List.mem_cons_self ..
    · simp only [get?, hk, if_false] at h
      exact List.mem_cons_of_mem _ (ih h)

theorem mem_insert {r : Record α} {name : String} {v : α} {p : String × α}
    (h : p ∈ insert r name v) : p = (name, v) ∨ p ∈ r := by
  induction r with
  | nil =>
    simp only [insert, List.mem_singleton] at h
    exact Or.inl h
  | cons q rest ih =>
    obtain ⟨k, w⟩ := q
    simp only [insert] at h
    split at h
    · rcases List.mem_cons.mp h with h | h
      · exact Or.inl h
      · exact Or.inr (List.mem_cons_of_mem _ h)
    · split at h
      · rcases List.mem_cons.mp h with h | h
        · exact Or.inl h
        · exact Or.inr h
      · rcases List.mem_cons.mp h with h | h
        · exact Or.inr (h ▸ List.mem_cons_self ..)
        · rcases ih h with h | h
          · exact Or.inl h
          · exact Or.inr (List.mem_cons_of_mem _ h)

theorem forall_insert {P : α → Prop} {r : Record α} {v : α} (hr : ∀ p ∈ r, P p.2) (name : String)
    (hv : P v) : ∀ p ∈ insert r name v, P p.2 := by
  intro p hp
  rcases mem_insert hp with rfl | hp
  · exact hv
  · exact hr p hp

theorem forall_update {P : α → Prop} {r pairs : Record α} (hr : ∀ p ∈ r, P p.2)
    (hp : ∀ p ∈ pairs, P p.2) : ∀ p ∈ update r pairs, P p.2 := by
  unfold update
  induction pairs generalizing r with
  | nil => exact hr
  | cons p rest ih =>
    exact ih (forall_insert hr p.1 (hp p (List.mem_cons_self ..)))
      fun q hq => hp q (List.mem_cons_of_mem _ hq)

end Record

theorem Value.Partwise.fieldwise {P : Value → Prop} (hP : Partwise P) : Fieldwise P where
  toHereditary := hP.toHereditary
  empty := hP.object fun p hp => (List.not_mem_nil hp).elim
  insert hfields _ hv := hP.object (Record.forall_insert (hP.fields hfields) _ hv)

theorem Value.Hereditary.member {P : Value → Prop} (hP : Hereditary P) {v : Value} (h : P v)
    (name : String) : P (v.member name) := by
  cases v with
  | object fields =>
    simp only [Value.member]
    cases hn : Record.get? fields name with
    | none => exact hP.undefined
    | some w => exact hP.fields h _ (Record.mem_of_get? hn)
  | array items =>
    simp only [Value.member]
    split
    · exact hP.number _
    · exact hP.undefined
  | string s =>
    simp only [Value.member]
    split
    · exact hP.number _
    · exact hP.undefined
  | _ => exact hP.undefined

theorem Value.Hereditary.normalise {P : Value → Prop} (hP : Hereditary P) {v : Value} (h : P v) :
    P v.normalise := by
  cases v with
  | number x =>
    simp only [Value.normalise]
    split
    · exact hP.number _
    · exact hP.number _
  | _ => exact h

section

variable {g : Guard}

theorem Bindings.Obeys.insert {b : List (String × Value)} {v : Value} (hb : Bindings.Obeys g b)
    (name : String) (hv : v.Obeys g) : Bindings.Obeys g (Record.insert b name v) :=
  Record.forall_insert hb name hv

theorem Bindings.Obeys.get? {b : List (String × Value)} {name : String} {v : Value}
    (hb : Bindings.Obeys g b) (h : Record.get? b name = some v) : v.Obeys g :=
  hb _ (Record.mem_of_get? h)

theorem Bindings.Obeys.update {b pairs : List (String × Value)} (hb : Bindings.Obeys g b)
    (hp : ∀ p ∈ pairs, p.2.Obeys g) : Bindings.Obeys g (Record.update b pairs) :=
  Record.forall_update hb hp

theorem Value.Obeys.items {items : List Value} (h : (Value.array items).Obeys g) :
    ∀ v ∈ items, v.Obeys g := by
  cases h with
  | array hi => exact hi

theorem Value.Obeys.fields {fields : List (String × Value)} (h : (Value.object fields).Obeys g) :
    Bindings.Obeys g fields := by
  cases h with
  | object hf => exact hf

theorem Value.Obeys.ofFunction {f : Function Value} (h : (Value.function f).Obeys g) :
    f.Obeys g := by
  cases h with
  | function hf => exact hf

theorem Value.Obeys.partwise (g : Guard) : Partwise (Value.Obeys g) where
  undefined := .undefined
  bool := .bool
  number := .number
  string := .string
  array := .array
  items h := h.items
  object := .object
  fields h := h.fields

theorem Value.Obeys.hereditary (g : Guard) : Hereditary (Value.Obeys g) :=
  (partwise g).toHereditary

theorem Value.Obeys.member {v : Value} (h : v.Obeys g) (name : String) :
    (v.member name).Obeys g := (hereditary g).member h name

theorem Value.Obeys.normalise {v : Value} (h : v.Obeys g) : v.normalise.Obeys g :=
  (hereditary g).normalise h

end

end Formula
