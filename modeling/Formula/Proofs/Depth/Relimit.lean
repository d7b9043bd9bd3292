import Formula.Proofs.Values.Internal

/-!
# Values under another limit

The limit of the call depth is stored in the languages of functions. Setting it throughout a value
changes nothing that an operation sees: numbers, texts, equality and the identity of functions stay.
-/

namespace Formula

mutual

/-- The value with a limit of the call depth in the languages of all its functions. -/
def Value.relimit (d : Nat) : Value → Value
  | .undefined => .undefined
  | .null => .null
  | .bool b => .bool b
  | .number x => .number x
  | .string s => .string s
  | .array items => .array (Value.relimitItems d items)
  | .object fields => .object (Value.relimitFields d fields)
  | .function f => .function (f.relimit d)
  | .deferred id => .deferred id

def Value.relimitItems (d : Nat) : List Value → List Value
  | [] => []
  | v :: rest => v.relimit d :: Value.relimitItems d rest

def Value.relimitFields (d : Nat) : List (String × Value) → List (String × Value)
  | [] => []
  | (name, v) :: rest => (name, v.relimit d) :: Value.relimitFields d rest

def Function.relimit (d : Nat) : Function Value → Function Value
  | .native f => .native f
  | .defined c => .defined (c.relimit d)
  | .prepared c => .prepared (c.relimit d)

def Closure.relimit (d : Nat) : Closure Value → Closure Value
  | ⟨id, name, params, body, captured, lang⟩ =>
    ⟨id, name, params, Instruction.relimitCode d body, Value.relimitFields d captured,
      lang.relimit d⟩

def Instruction.relimit (d : Nat) : Instruction Value → Instruction Value
  | .literal v => .literal (v.relimit d)
  | .group body => .group (Instruction.relimitCode d body)
  | i => i

def Instruction.relimitCode (d : Nat) : List (Instruction Value) → List (Instruction Value)
  | [] => []
  | i :: rest => i.relimit d :: Instruction.relimitCode d rest

def Language.relimit (d : Nat) : Language Value → Language Value
  | ⟨options, unary, binary, ternary, functions, constants, resolver⟩ =>
    ⟨{ options with maxCallDepth := d }, unary, binary, ternary, functions, constants,
      Language.relimitResolver d resolver⟩

def Language.relimitResolver (d : Nat) :
    List (String × Resolution Value) → List (String × Resolution Value)
  | [] => []
  | (name, .alias other) :: rest => (name, .alias other) :: Language.relimitResolver d rest
  | (name, .value v) :: rest => (name, .value (v.relimit d)) :: Language.relimitResolver d rest

end

/-- Variables or fields under another limit. -/
abbrev Bindings.relimit (d : Nat) (b : List (String × Value)) : List (String × Value) :=
  b.map (Prod.map id (Value.relimit d))

variable {d : Nat}

namespace Value

theorem relimitItems_eq (items : List Value) : relimitItems d items = items.map (relimit d) := by
  induction items with
  | nil => rfl
  | cons v rest ih => rw [relimitItems, ih, List.map_cons]

theorem relimitFields_eq (fields : List (String × Value)) :
    relimitFields d fields = Bindings.relimit d fields := by
  induction fields with
  | nil => rfl
  | cons p rest ih =>
    rw [relimitFields, ih]
    rfl

attribute [local simp] relimit

@[simp] theorem relimit_undefined : undefined.relimit d = .undefined := by simp

@[simp] theorem relimit_null : null.relimit d = .null := by simp

@[simp] theorem relimit_bool (b : Bool) : (bool b).relimit d = .bool b := by simp

@[simp] theorem relimit_number (x : Float) : (number x).relimit d = .number x := by simp

@[simp] theorem relimit_string (s : String) : (string s).relimit d = .string s := by simp

@[simp] theorem relimit_function (f : Function Value) :
    (function f).relimit d = .function (f.relimit d) := by simp

@[simp] theorem relimit_deferred (id : Nat) : (deferred id).relimit d = .deferred id := by simp

@[simp] theorem relimit_array (items : List Value) :
    (array items).relimit d = .array (items.map (relimit d)) := by
  simp [relimitItems_eq]

@[simp] theorem relimit_object (fields : List (String × Value)) :
    (object fields).relimit d = .object (Bindings.relimit d fields) := by
  simp [relimitFields_eq]

end Value

theorem Instruction.relimitCode_eq (code : Program Value) :
    relimitCode d code = code.map (Instruction.relimit d) := by
  induction code with
  | nil => rfl
  | cons i rest ih => rw [relimitCode, ih, List.map_cons]

theorem Closure.relimit_eq (c : Closure Value) :
    c.relimit d = { c with
      body := c.body.map (Instruction.relimit d)
      captured := Bindings.relimit d c.captured
      language := c.language.relimit d } := by
  obtain ⟨id, name, params, body, captured, lang⟩ := c
  rw [Closure.relimit, Instruction.relimitCode_eq, Value.relimitFields_eq]

namespace Closure

variable (c : Closure Value)

@[simp] theorem relimit_name : (c.relimit d).name = c.name := by rw [relimit_eq]

@[simp] theorem relimit_params : (c.relimit d).params = c.params := by rw [relimit_eq]

@[simp] theorem relimit_captured :
    (c.relimit d).captured = Bindings.relimit d c.captured := by rw [relimit_eq]

@[simp] theorem relimit_language : (c.relimit d).language = c.language.relimit d := by
  rw [relimit_eq]

end Closure

def Resolution.relimit (d : Nat) : Resolution Value → Resolution Value
  | .alias name => .alias name
  | .value v => .value (v.relimit d)

namespace Language

theorem relimitResolver_eq (resolver : List (String × Resolution Value)) :
    relimitResolver d resolver = resolver.map (Prod.map id (Resolution.relimit d)) := by
  induction resolver with
  | nil => rfl
  | cons p rest ih =>
    rcases p with ⟨name, other | v⟩ <;>
    · rw [relimitResolver, ih]
      rfl

theorem relimit_eq (lang : Language Value) :
    lang.relimit d = { lang with
      options := { lang.options with maxCallDepth := d }
      resolver := lang.resolver.map (Prod.map id (Resolution.relimit d)) } := by
  obtain ⟨options, unary, binary, ternary, functions, constants, resolver⟩ := lang
  rw [Language.relimit, relimitResolver_eq]

end Language

namespace Function

variable (f g : Function Value)

@[simp] theorem relimit_name : (f.relimit d).name = f.name := by
  cases f with
  | native f => rfl
  | defined c | prepared c => simp only [relimit, name, Closure.relimit_eq]

@[simp] theorem relimit_same : (f.relimit d).same (g.relimit d) = f.same g := by
  cases f <;> cases g <;> simp only [relimit, same, Closure.relimit_eq]

end Function

/-! ### What is seen of a value -/

namespace Value

mutual

@[simp] theorem relimit_text : (v : Value) → (v.relimit d).text = v.text
  | .array items => by rw [relimit_array, text, text, relimit_itemTexts items]
  | .object fields => by rw [relimit_object, text, text]
  | .function f => by rw [relimit, text, text, Function.relimit_name]
  | .undefined | .null | .bool _ | .number _ | .string _ | .deferred _ => by rw [relimit]

@[simp] theorem relimit_itemTexts :
    (items : List Value) → itemTexts (items.map (relimit d)) = itemTexts items
  | [] => rfl
  | v :: rest => by
    have ht := relimit_text v
    have hrest := relimit_itemTexts rest
    cases v with
    | undefined | null => simp only [List.map_cons, relimit, itemTexts, hrest]
    | array items =>
      rw [relimit_array] at ht
      simp only [List.map_cons, relimit_array, itemTexts, hrest, ht]
    | object fields =>
      rw [relimit_object] at ht
      simp only [List.map_cons, relimit_object, itemTexts, hrest, ht]
    | _ =>
      rw [relimit] at ht
      simp only [List.map_cons, relimit, itemTexts, hrest, ht]

end

variable (v : Value)

@[simp] theorem relimit_truthy : (v.relimit d).truthy = v.truthy := by
  cases v <;> simp only [relimit, truthy]

@[simp] theorem relimit_isUndefined : (v.relimit d).isUndefined = v.isUndefined := by
  cases v <;> simp only [relimit, isUndefined]

@[simp] theorem relimit_toNumber : (v.relimit d).toNumber = v.toNumber := by
  cases v with
  | array items =>
    rw [relimit_array]
    match items with
    | [] => rfl
    | [item] => rw [List.map_cons, List.map_nil, toNumber, toNumber, relimit_text]
    | _ :: _ :: _ => rfl
  | _ => simp only [relimit, toNumber]

@[simp] theorem relimit_primitive : (v.relimit d).primitive = v.primitive := by
  have ht := relimit_text (d := d) v
  cases v with
  | array items =>
    rw [relimit_array] at ht ⊢
    rw [primitive, primitive, ht]
  | object fields =>
    rw [relimit_object] at ht ⊢
    rw [primitive, primitive, ht]
  | function f =>
    rw [relimit] at ht ⊢
    rw [primitive, primitive, ht]
  | _ => rw [relimit]

theorem relimit_normalise : (v.relimit d).normalise = v.normalise.relimit d := by
  cases v with
  | number x =>
    simp only [relimit, normalise]
    split <;> rw [relimit]
  | _ => simp only [relimit, normalise]

mutual

@[simp] theorem relimit_equal : (a b : Value) → (a.relimit d).equal (b.relimit d) = a.equal b
  | .array as, b => by
    cases b with
    | array bs => rw [relimit_array, relimit_array, equal, equal, relimit_equalItems as bs]
    | _ => simp only [relimit, equal]
  | .object as, b => by
    cases b with
    | object bs => rw [relimit_object, relimit_object, equal, equal, relimit_equalFields as bs]
    | _ => simp only [relimit, equal]
  | .function f, b => by
    cases b with
    | function g => rw [relimit, relimit, equal, equal, Function.relimit_same]
    | _ => simp only [relimit, equal]
  | .undefined, b | .null, b | .bool _, b | .number _, b | .string _, b | .deferred _, b => by
    cases b with
    | _ => simp only [relimit, equal]

theorem relimit_equalItems : (as bs : List Value) →
    equalItems (as.map (relimit d)) (bs.map (relimit d)) = equalItems as bs
  | [], [] | [], _ :: _ | _ :: _, [] => rfl
  | a :: as, b :: bs => by
    rw [List.map_cons, List.map_cons, equalItems, equalItems, relimit_equal a b,
      relimit_equalItems as bs]

theorem relimit_equalFields : (as bs : List (String × Value)) →
    equalFields (Bindings.relimit d as) (Bindings.relimit d bs) = equalFields as bs
  | [], [] | [], _ :: _ | _ :: _, [] => rfl
  | (k, a) :: as, (l, b) :: bs => by
    have ha := relimit_equal a b
    have hrest := relimit_equalFields as bs
    simp only [Bindings.relimit, List.map_cons, Prod.map, id, equalFields] at hrest ⊢
    rw [ha, hrest]

end

end Value

/-! ### Records -/

namespace Record

variable {α β : Type} (f : α → β)

theorem get?_map (r : Record α) (name : String) :
    get? (r.map (Prod.map id f)) name = (get? r name).map f := by
  induction r with
  | nil => rfl
  | cons p rest ih =>
    simp only [List.map_cons, Prod.map, id, get?]
    split
    · rfl
    · exact ih

theorem insert_map (r : Record α) (name : String) (v : α) :
    insert (r.map (Prod.map id f)) name (f v) = (insert r name v).map (Prod.map id f) := by
  induction r with
  | nil => rfl
  | cons p rest ih =>
    simp only [List.map_cons, Prod.map, id, insert]
    split
    · rfl
    · split
      · rfl
      · rw [ih]
        rfl

theorem update_map (r pairs : Record α) :
    update (r.map (Prod.map id f)) (pairs.map (Prod.map id f)) =
      (update r pairs).map (Prod.map id f) := by
  unfold update
  induction pairs generalizing r with
  | nil => rfl
  | cons p rest ih =>
    rw [List.map_cons, List.foldl_cons, List.foldl_cons, ← ih, ← insert_map]
    rfl

end Record

theorem Value.relimit_member (v : Value) (name : String) :
    (v.relimit d).member name = (v.member name).relimit d := by
  cases v with
  | object fields =>
    rw [relimit_object, member, member, Bindings.relimit, Record.get?_map]
    cases Record.get? fields name with
    | none => exact relimit_undefined.symm
    | some w => rfl
  | array items =>
    rw [relimit_array, member, member, List.length_map]
    split <;> rw [relimit]
  | string s =>
    simp only [relimit, member]
    split <;> rw [relimit]
  | _ => simp only [relimit, member]

/-! ### Operations -/

namespace Operation

variable (args : List Value)

@[simp] theorem arg_relimit (i : Nat) :
    arg (args.map (Value.relimit d)) i = (arg args i).relimit d := by
  unfold arg
  rw [List.getElem?_map]
  cases args[i]? with
  | none => exact Value.relimit_undefined.symm
  | some v => rfl

theorem onNumber_relimit (f : Float → Float) :
    onNumber f (args.map (Value.relimit d)) = (onNumber f args).relimit d := by
  have heq : ∀ args, onNumber f args =
      if (arg args 0).isUndefined then .undefined else .number (f (arg args 0).toNumber) := by
    intro args
    unfold onNumber
    cases arg args 0 <;> rfl
  rw [heq, heq, arg_relimit, Value.relimit_isUndefined, Value.relimit_toNumber]
  split <;> simp

theorem onNumbers_relimit (f : Float → Float → Float) :
    onNumbers f (args.map (Value.relimit d)) = (onNumbers f args).relimit d := by
  have heq : ∀ args, onNumbers f args =
      if (arg args 0).isUndefined || (arg args 1).isUndefined then .undefined
      else .number (f (arg args 0).toNumber (arg args 1).toNumber) := by
    intro args
    unfold onNumbers
    cases arg args 0 <;> cases arg args 1 <;> rfl
  rw [heq, heq]
  simp only [arg_relimit, Value.relimit_isUndefined, Value.relimit_toNumber]
  split <;> simp

theorem ordered_relimit (orders : List Ordering) :
    ordered orders (args.map (Value.relimit d)) = (ordered orders args).relimit d := by
  have hcompare : ∀ a b : Value, compare? (a.relimit d) (b.relimit d) = compare? a b := by
    intro a b
    unfold compare?
    rw [Value.relimit_primitive, Value.relimit_primitive]
  unfold ordered
  rw [arg_relimit, arg_relimit, hcompare]
  split <;> simp

theorem addition_relimit :
    addition (args.map (Value.relimit d)) = (addition args).relimit d := by
  have hx := Value.relimit_toNumber (d := d) (arg args 0)
  have hy := Value.relimit_toNumber (d := d) (arg args 1)
  unfold addition
  rw [arg_relimit, arg_relimit]
  revert hx hy
  cases arg args 0 with
  | undefined => simp
  | string s =>
    cases arg args 1 with
    | string t =>
      simp only [Value.relimit_string]
      split <;> simp
    | _ => simp +contextual
  | _ =>
    cases arg args 1 with
    | _ => simp +contextual

theorem concatenation_relimit :
    concatenation (args.map (Value.relimit d)) = (concatenation args).relimit d := by
  unfold concatenation
  rw [arg_relimit, arg_relimit]
  cases arg args 0 with
  | array as =>
    cases arg args 1 with
    | _ => simp
  | string s =>
    cases arg args 1 with
    | _ => simp
  | _ => simp

theorem itemAt_relimit : itemAt (args.map (Value.relimit d)) = (itemAt args).relimit d := by
  unfold itemAt
  dsimp only
  rw [arg_relimit, arg_relimit, Value.relimit_toNumber]
  generalize Number.toInt32 (arg args 1).toNumber = i
  cases arg args 0 with
  | array items =>
    simp only [Value.relimit_array, List.getElem?_map]
    split
    · exact Value.relimit_undefined.symm
    · cases items[i.toNat]? with
      | none => exact Value.relimit_undefined.symm
      | some v => rfl
  | string s =>
    simp only [Value.relimit_string]
    split
    · exact Value.relimit_undefined.symm
    · split <;> simp
  | object fields =>
    simp only [Value.relimit_object, Record.get?_map]
    cases Record.get? fields (toString i) with
    | none => exact Value.relimit_undefined.symm
    | some v => rfl
  | _ => simp

@[simp] theorem contains_relimit (whole part : Value) :
    contains (whole.relimit d) (part.relimit d) = contains whole part := by
  cases whole with
  | array items => simp [contains, List.any_map, Function.comp_def]
  | _ => simp [contains]

theorem coalescence_relimit :
    coalescence (args.map (Value.relimit d)) = (coalescence args).relimit d := by
  have hx := Value.relimit_toNumber (d := d) (arg args 0)
  unfold coalescence
  rw [arg_relimit, arg_relimit]
  revert hx
  cases arg args 0 with
  | undefined | null => simp
  | number x =>
    simp only [Value.relimit_number]
    split <;> simp
  | bool _ | string _ | deferred _ =>
    simp only [Value.relimit_bool, Value.relimit_string, Value.relimit_deferred]
    split <;> simp
  | array _ | object _ | function _ =>
    intro hx
    simp only [Value.relimit_array, Value.relimit_object, Value.relimit_function] at hx ⊢
    rw [hx]
    split <;> simp

theorem conversion_relimit :
    conversion (args.map (Value.relimit d)) = (conversion args).map (Value.relimit d) := by
  have ht := Value.relimit_text (d := d) (arg args 1)
  have hx := Value.relimit_toNumber (d := d) (arg args 0)
  unfold conversion
  rw [arg_relimit, arg_relimit]
  revert ht hx
  cases arg args 1 with
  | string type =>
    cases arg args 0 with
    | undefined => simp [Except.map]
    | _ =>
      simp +contextual only [Value.relimit, Value.truthy]
      intros
      split_ifs <;> simp [Except.map]
  | _ =>
    cases arg args 0 with
    | _ => simp +contextual [Except.map]

theorem lengthOf_relimit : lengthOf (args.map (Value.relimit d)) = (lengthOf args).relimit d := by
  have ht := Value.relimit_text (d := d) (arg args 0)
  unfold lengthOf
  rw [arg_relimit]
  revert ht
  cases arg args 0 with
  | _ => simp +contextual

theorem firstIndex_relimit :
    firstIndex (args.map (Value.relimit d)) = (firstIndex args).map (Value.relimit d) := by
  unfold firstIndex
  rw [arg_relimit, arg_relimit]
  cases arg args 1 with
  | array items =>
    simp only [Value.relimit_array, List.findIdx?_map, Function.comp_def, Value.relimit_equal]
    split <;> simp [Except.map]
  | string s =>
    simp only [Value.relimit_string, Value.relimit_text]
    split <;> simp [Except.map]
  | _ => simp [Except.map]

theorem joined_relimit :
    joined (args.map (Value.relimit d)) = (joined args).map (Value.relimit d) := by
  have ht := Value.relimit_text (d := d) (arg args 0)
  unfold joined
  rw [arg_relimit, arg_relimit]
  revert ht
  cases arg args 0 with
  | undefined => simp [Except.map]
  | _ =>
    cases arg args 1 with
    | _ => simp +contextual [Except.map]

theorem spread_relimit : spread (args.map (Value.relimit d)) =
    (spread args).map (Value.relimit d) := by
  match args with
  | [] | _ :: _ :: _ => simp [spread]
  | [v] =>
    cases v with
    | _ => simp [spread]

theorem numbers_relimit : (args.map (Value.relimit d)).map Value.toNumber =
    args.map Value.toNumber := by
  simp [Function.comp_def]

theorem anyUndefined_relimit : (args.map (Value.relimit d)).any Value.isUndefined =
    args.any Value.isUndefined := by
  simp [Function.comp_def]

theorem extreme_relimit (start : Float) (better : Float → Float → Bool) :
    extreme start better (args.map (Value.relimit d)) =
      (extreme start better args).relimit d := by
  unfold extreme
  dsimp only
  rw [spread_relimit, anyUndefined_relimit, numbers_relimit]
  split
  · exact Value.relimit_undefined.symm
  · split <;> simp

theorem vectorLength_relimit :
    vectorLength (args.map (Value.relimit d)) = (vectorLength args).relimit d := by
  unfold vectorLength
  rw [anyUndefined_relimit, numbers_relimit]
  split <;> simp

theorem rounding_relimit :
    rounding (args.map (Value.relimit d)) = (rounding args).relimit d := by
  have heq : ∀ args, rounding args =
      if (arg args 0).isUndefined then .undefined
      else if (arg args 1).isUndefined || (arg args 1).toNumber == 0.0 then
        .number (Number.round (arg args 0).toNumber)
      else .number (Number.roundTo (arg args 0).toNumber (arg args 1).toNumber) := by
    intro args
    unfold rounding
    cases arg args 0 <;> cases arg args 1 <;> rfl
  rw [heq, heq]
  simp only [arg_relimit, Value.relimit_isUndefined, Value.relimit_toNumber]
  split_ifs <;> simp

theorem total_relimit : total (args.map (Value.relimit d)) =
    (total args).map (Value.relimit d) := by
  unfold total
  rw [arg_relimit]
  cases arg args 0 with
  | array items =>
    simp only [Value.relimit_array, anyUndefined_relimit, List.foldl_map, Value.relimit_toNumber]
    split <;> simp [Except.map]
  | _ => simp [Except.map]

/-- An operation on values under another limit gives its result under that limit. -/
theorem apply_relimit (op : Operation) :
    op.apply (args.map (Value.relimit d)) = (op.apply args).map (Value.relimit d) := by
  cases op with
  | convert => exact conversion_relimit args
  | indexOf => exact firstIndex_relimit args
  | join => exact joined_relimit args
  | sum => exact total_relimit args
  | length => exact congrArg Except.ok (lengthOf_relimit args)
  | add => exact congrArg Except.ok (addition_relimit args)
  | concatenate => exact congrArg Except.ok (concatenation_relimit args)
  | index => exact congrArg Except.ok (itemAt_relimit args)
  | coalesce => exact congrArg Except.ok (coalescence_relimit args)
  | hypot => exact congrArg Except.ok (vectorLength_relimit args)
  | maximum | minimum => exact congrArg Except.ok (extreme_relimit args _ _)
  | roundTo => exact congrArg Except.ok (rounding_relimit args)
  | greater | less | atLeast | atMost => exact congrArg Except.ok (ordered_relimit args _)
  | subtract | multiply | divide | remainder | power | atan2 =>
    exact congrArg Except.ok (onNumbers_relimit args _)
  | choose =>
    simp only [apply, arg_relimit, Value.relimit_truthy, Except.map]
    split <;> rfl
  | negation | equal | unequal | conjunction | disjunction | membership =>
    simp [apply, Except.map]
  | _ => exact congrArg Except.ok (onNumber_relimit args _)

end Operation

/-! ### Values that have the limit already -/

theorem List.map_eq_self {α : Type} {f : α → α} {xs : List α} (h : ∀ x ∈ xs, f x = x) :
    xs.map f = xs := (List.map_congr_left h).trans (List.map_id' xs)

theorem Record.map_eq_self {α : Type} {f : α → α} {r : Record α} (h : ∀ p ∈ r, f p.2 = p.2) :
    r.map (Prod.map id f) = r :=
  List.map_eq_self fun p hp => Prod.ext rfl (h p hp)

theorem Instruction.relimit_of_plain {i : Instruction Value} (hl : ∀ v, i ≠ .literal v)
    (hg : ∀ body, i ≠ .group body) : i.relimit d = i := by
  cases i with
  | literal v => exact (hl v rfl).elim
  | group body => exact (hg body rfl).elim
  | _ =>
    rw [relimit] <;>
    · intro _ h
      cases h

section

variable {waits : Prop} {depths : Nat → Prop}

mutual

theorem Value.Internal.relimit_self (hd : ∀ n, depths n → n = d) {v : Value} :
    v.Internal waits depths → v.relimit d = v
  | .undefined => Value.relimit_undefined
  | .null => Value.relimit_null
  | .bool b => Value.relimit_bool b
  | .number x => Value.relimit_number x
  | .string s => Value.relimit_string s
  | .array hitems => by
    rw [Value.relimit_array, List.map_eq_self fun v hv => (hitems v hv).relimit_self hd]
  | .object hfields => by
    rw [Value.relimit_object, Bindings.relimit,
      Record.map_eq_self fun p hp => (hfields p hp).relimit_self hd]
  | .native _ => by rw [Value.relimit_function, Function.relimit]
  | .defined hbody hcaptured hlang => by
    rw [Value.relimit_function, Function.relimit, Closure.relimit_eq,
      List.map_eq_self fun i hi => (hbody i hi).relimit_self hd,
      Bindings.relimit, Record.map_eq_self fun p hp => (hcaptured p hp).relimit_self hd,
      hlang.relimit_self hd]
  | .deferred id _ => Value.relimit_deferred id

theorem Instruction.Internal.relimit_self (hd : ∀ n, depths n → n = d) {i : Instruction Value} :
    i.Internal waits depths → i.relimit d = i
  | .literal hv => by rw [Instruction.relimit, hv.relimit_self hd]
  | .group hbody => by
    rw [Instruction.relimit, Instruction.relimitCode_eq,
      List.map_eq_self fun i hi => (hbody i hi).relimit_self hd]
  | .plain hl hg => Instruction.relimit_of_plain hl hg

theorem Language.Internal.relimit_self (hd : ∀ n, depths n → n = d) {lang : Language Value} :
    lang.Internal waits depths → lang.relimit d = lang
  | .mk _ hdepth hresolver => by
    have hentries : ∀ p ∈ lang.resolver, p.2.relimit d = p.2 := by
      rintro ⟨name, other | v⟩ hp
      · rfl
      · exact congrArg Resolution.value ((hresolver name v hp).relimit_self hd)
    rw [Language.relimit_eq, Record.map_eq_self hentries, ← hd _ hdepth]

end

end

end Formula
