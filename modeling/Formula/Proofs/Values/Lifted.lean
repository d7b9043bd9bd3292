import Formula.Operation.Apply
import Formula.Proofs.Outcome
import Mathlib.Data.List.Forall2

/-!
# Values with other functions

A relation of functions is lifted to values: two values are the same, but where the one holds a
function, the other may hold a related one. If related functions have the same name and the same
identity, the two values look the same: they have the same number, text and truth, they are equal to
the same values, and every operation does the same with them.
-/

namespace Formula

/-! ### The relation -/

mutual

/-- Values that are the same but for their functions, which are related. -/
inductive Value.Lifted (F : Function Value → Function Value → Prop) : Value → Value → Prop
  | undefined : Value.Lifted F .undefined .undefined
  | null : Value.Lifted F .null .null
  | bool (b : Bool) : Value.Lifted F (.bool b) (.bool b)
  | number (x : Float) : Value.Lifted F (.number x) (.number x)
  | string (s : String) : Value.Lifted F (.string s) (.string s)
  | array {items items' : List Value} :
      List.Forall₂ (Value.Lifted F) items items' → Value.Lifted F (.array items) (.array items')
  | object {fields fields' : List (String × Value)} :
      List.Forall₂ (Field.Lifted F) fields fields' →
      Value.Lifted F (.object fields) (.object fields')
  | function {f f' : Function Value} : F f f' → Value.Lifted F (.function f) (.function f')
  | deferred (id : Nat) : Value.Lifted F (.deferred id) (.deferred id)

/-- Fields of one name with values that are the same but for their functions. -/
inductive Field.Lifted (F : Function Value → Function Value → Prop) :
    String × Value → String × Value → Prop
  | mk (name : String) {v v' : Value} : Value.Lifted F v v' → Field.Lifted F (name, v) (name, v')

end

/-- A relation of functions that cannot be told apart by name or identity. -/
structure Function.Congruent (F : Function Value → Function Value → Prop) : Prop where
  native : ∀ f : Native, F (.native f) (.native f)
  name : ∀ {f f' : Function Value}, F f f' → f'.name = f.name
  same : ∀ {f f' g g' : Function Value}, F f f' → F g g' → f'.same g' = f.same g

abbrev Values.Lifted (F : Function Value → Function Value → Prop) :
    List Value → List Value → Prop := List.Forall₂ (Value.Lifted F)

abbrev Fields.Lifted (F : Function Value → Function Value → Prop) :
    List (String × Value) → List (String × Value) → Prop := List.Forall₂ (Field.Lifted F)

variable {F : Function Value → Function Value → Prop}

/-! ### Lists of related things -/

section

variable {α β : Type} {R : α → β → Prop} {xs : List α} {ys : List β}

theorem forall₂_getElem? (h : List.Forall₂ R xs ys) (i : Nat) : Option.Rel R xs[i]? ys[i]? := by
  induction h generalizing i with
  | nil => exact .none
  | cons hx _ ih =>
    cases i with
    | zero => exact .some hx
    | succ i => exact ih i

theorem forall₂_set (h : List.Forall₂ R xs ys) (i : Nat) {x : α} {y : β} (hxy : R x y) :
    List.Forall₂ R (xs.set i x) (ys.set i y) := by
  induction h generalizing i with
  | nil => exact .nil
  | cons hx hrest ih =>
    cases i with
    | zero => exact .cons hxy hrest
    | succ i => exact .cons hx (ih i)

/-- What an option holds, or something else in its place. -/
theorem rel_getD {o : Option α} {o' : Option β} (h : Option.Rel R o o') {x : α} {y : β}
    (hxy : R x y) : R (o.getD x) (o'.getD y) := by
  cases h with
  | none => exact hxy
  | some h => exact h

end

/-! ### Reflexivity -/

/-- A relation in which a function is related to itself, if the values it has captured are. -/
structure Function.Reflexive (F : Function Value → Function Value → Prop) : Prop where
  native : ∀ f : Native, F (.native f) (.native f)
  defined : ∀ c : Closure Value, Fields.Lifted F c.captured c.captured → F (.defined c) (.defined c)
  prepared : ∀ c : Closure Value, Fields.Lifted F c.captured c.captured →
    F (.prepared c) (.prepared c)

mutual

theorem Function.Reflexive.refl (hF : Function.Reflexive F) : (f : Function Value) → F f f
  | .native f => hF.native f
  | .defined ⟨id, name, params, body, captured, lang⟩ =>
    hF.defined ⟨id, name, params, body, captured, lang⟩ (hF.fields captured)
  | .prepared ⟨id, name, params, body, captured, lang⟩ =>
    hF.prepared ⟨id, name, params, body, captured, lang⟩ (hF.fields captured)

theorem Function.Reflexive.value (hF : Function.Reflexive F) : (v : Value) → v.Lifted F v
  | .undefined => .undefined
  | .null => .null
  | .bool b => .bool b
  | .number x => .number x
  | .string s => .string s
  | .array items => .array (hF.items items)
  | .object fields => .object (hF.fields fields)
  | .function f => .function (hF.refl f)
  | .deferred id => .deferred id

theorem Function.Reflexive.items (hF : Function.Reflexive F) :
    (items : List Value) → Values.Lifted F items items
  | [] => .nil
  | v :: rest => .cons (hF.value v) (hF.items rest)

theorem Function.Reflexive.fields (hF : Function.Reflexive F) :
    (fields : List (String × Value)) → Fields.Lifted F fields fields
  | [] => .nil
  | (name, v) :: rest => .cons (.mk name (hF.value v)) (hF.fields rest)

end

theorem Value.Lifted.refl (hF : ∀ f, F f f) (v : Value) : v.Lifted F v :=
  Function.Reflexive.value ⟨fun _ => hF _, fun _ _ => hF _, fun _ _ => hF _⟩ v

namespace Value

mutual

theorem Lifted.mono {G : Function Value → Function Value → Prop} (hFG : ∀ f f', F f f' → G f f') :
    (v : Value) → {v' : Value} → v.Lifted F v' → v.Lifted G v'
  | .array items, _, .array h => .array (lifted_mono_items hFG items h)
  | .object fields, _, .object h => .object (lifted_mono_fields hFG fields h)
  | .function _, _, .function h => .function (hFG _ _ h)
  | .undefined, _, .undefined => .undefined
  | .null, _, .null => .null
  | .bool _, _, .bool b => .bool b
  | .number _, _, .number x => .number x
  | .string _, _, .string s => .string s
  | .deferred _, _, .deferred id => .deferred id

theorem lifted_mono_items {G : Function Value → Function Value → Prop}
    (hFG : ∀ f f', F f f' → G f f') : (items : List Value) → {items' : List Value} →
      Values.Lifted F items items' → Values.Lifted G items items'
  | [], _, .nil => .nil
  | v :: rest, _, .cons h hrest => .cons (Lifted.mono hFG v h) (lifted_mono_items hFG rest hrest)

theorem lifted_mono_fields {G : Function Value → Function Value → Prop}
    (hFG : ∀ f f', F f f' → G f f') : (fields : List (String × Value)) →
      {fields' : List (String × Value)} → Fields.Lifted F fields fields' →
        Fields.Lifted G fields fields'
  | [], _, .nil => .nil
  | (_, v) :: rest, _, .cons (.mk name h) hrest =>
    .cons (.mk name (Lifted.mono hFG v h)) (lifted_mono_fields hFG rest hrest)

end

/-! ### What is seen of a value -/

namespace Lifted

variable {v v' : Value}

theorem truthy (h : v.Lifted F v') : v'.truthy = v.truthy := by
  cases h with
  | _ => rfl

theorem isUndefined (h : v.Lifted F v') : v'.isUndefined = v.isUndefined := by
  cases h with
  | _ => rfl

theorem isDeferred (h : v.Lifted F v') : v'.isDeferred = v.isDeferred := by
  cases h with
  | _ => rfl

theorem normalise (h : v.Lifted F v') : v.normalise.Lifted F v'.normalise := by
  cases h with
  | number x =>
    rw [Value.normalise]
    split <;> exact .number _
  | undefined => exact .undefined
  | null => exact .null
  | bool b => exact .bool b
  | string s => exact .string s
  | array h => exact .array h
  | object h => exact .object h
  | function h => exact .function h
  | deferred id => exact .deferred id

end Lifted

mutual

theorem text_lifted (hF : Function.Congruent F) : (v : Value) → {v' : Value} → v.Lifted F v' →
    v'.text = v.text
  | .array items, _, .array h => by rw [text, text, itemTexts_lifted hF items h]
  | .object _, _, .object _ => by rw [text, text]
  | .function _, _, .function h => by rw [text, text, hF.name h]
  | .undefined, _, .undefined | .null, _, .null | .bool _, _, .bool _ | .number _, _, .number _
  | .string _, _, .string _ | .deferred _, _, .deferred _ => rfl

theorem itemTexts_lifted (hF : Function.Congruent F) : (items : List Value) → {items' : List Value} →
    Values.Lifted F items items' → itemTexts items' = itemTexts items
  | [], _, .nil => rfl
  | v :: rest, _, .cons h hrest => by
    have ht := text_lifted hF v h
    have hrest := itemTexts_lifted hF rest hrest
    cases h with
    | undefined | null => rw [itemTexts, itemTexts, hrest]
    | _ => rw [itemTexts, itemTexts, hrest, ht] <;> nofun

end

mutual

theorem equal_lifted (hF : Function.Congruent F) : (a : Value) → {a' b b' : Value} →
    a.Lifted F a' → b.Lifted F b' → a'.equal b' = a.equal b
  | .array as, _, _, _, .array ha, hb => by
    cases hb with
    | array hb => rw [equal, equal, equalItems_lifted hF as ha hb]
    | _ => simp only [equal]
  | .object as, _, _, _, .object ha, hb => by
    cases hb with
    | object hb => rw [equal, equal, equalFields_lifted hF as ha hb]
    | _ => simp only [equal]
  | .function _, _, _, _, .function ha, hb => by
    cases hb with
    | function hb => rw [equal, equal, hF.same ha hb]
    | _ => simp only [equal]
  | .undefined, _, _, _, .undefined, hb | .null, _, _, _, .null, hb | .bool _, _, _, _, .bool _, hb
  | .number _, _, _, _, .number _, hb | .string _, _, _, _, .string _, hb
  | .deferred _, _, _, _, .deferred _, hb => by
    cases hb with
    | _ => simp only [equal]

theorem equalItems_lifted (hF : Function.Congruent F) : (as : List Value) →
    {as' bs bs' : List Value} → Values.Lifted F as as' → Values.Lifted F bs bs' →
      equalItems as' bs' = equalItems as bs
  | [], _, _, _, .nil, .nil | [], _, _, _, .nil, .cons _ _ | _ :: _, _, _, _, .cons _ _, .nil => rfl
  | a :: as, _, _, _, .cons ha has, .cons hb hbs => by
    rw [equalItems, equalItems, equal_lifted hF a ha hb, equalItems_lifted hF as has hbs]

theorem equalFields_lifted (hF : Function.Congruent F) : (as : List (String × Value)) →
    {as' bs bs' : List (String × Value)} → Fields.Lifted F as as' → Fields.Lifted F bs bs' →
      equalFields as' bs' = equalFields as bs
  | [], _, _, _, .nil, .nil | [], _, _, _, .nil, .cons _ _ | _ :: _, _, _, _, .cons _ _, .nil => rfl
  | (_, a) :: as, _, _, _, .cons (.mk _ ha) has, .cons (.mk _ hb) hbs => by
    rw [equalFields, equalFields, equal_lifted hF a ha hb, equalFields_lifted hF as has hbs]

end

namespace Lifted

section

variable (hF : Function.Congruent F) {v v' : Value}

include hF

theorem text (h : v.Lifted F v') : v'.text = v.text := text_lifted hF v h

theorem equal {u u' : Value} (h : v.Lifted F v') (hu : u.Lifted F u') : v'.equal u' = v.equal u :=
  equal_lifted hF v h hu

theorem toNumber (h : v.Lifted F v') : v'.toNumber = v.toNumber := by
  cases h with
  | array h =>
    match h with
    | .nil => rfl
    | .cons hv .nil => rw [Value.toNumber, Value.toNumber, hv.text hF]
    | .cons _ (.cons _ _) => rfl
  | _ => rfl

theorem primitive (h : v.Lifted F v') : v'.primitive = v.primitive := by
  have ht := h.text hF
  cases h with
  | array _ | object _ | function _ => rw [Value.primitive, Value.primitive, ht]
  | _ => rfl

end

end Lifted

end Value

/-! ### Records -/

namespace Fields.Lifted

variable {fields fields' : List (String × Value)}

theorem get? (h : Fields.Lifted F fields fields') (name : String) :
    Option.Rel (Value.Lifted F) (Record.get? fields name) (Record.get? fields' name) := by
  induction h with
  | nil => exact .none
  | cons hp _ ih =>
    cases hp with
    | mk key hv =>
      rw [Record.get?, Record.get?]
      split
      · exact .some hv
      · exact ih

theorem insert (h : Fields.Lifted F fields fields') (name : String) {v v' : Value}
    (hv : v.Lifted F v') :
    Fields.Lifted F (Record.insert fields name v) (Record.insert fields' name v') := by
  induction h with
  | nil => exact .cons (.mk name hv) .nil
  | cons hp hrest ih =>
    cases hp with
    | mk key hw =>
      rw [Record.insert, Record.insert]
      split
      · exact .cons (.mk name hv) hrest
      · split
        · exact .cons (.mk name hv) (.cons (.mk key hw) hrest)
        · exact .cons (.mk key hw) ih

end Fields.Lifted

theorem Value.Lifted.member {v v' : Value} (h : v.Lifted F v') (name : String) :
    (v.member name).Lifted F (v'.member name) := by
  cases h with
  | object h => exact rel_getD (Fields.Lifted.get? h name) .undefined
  | array h =>
    rw [Value.member, Value.member, h.length_eq]
    split
    · exact .number _
    · exact .undefined
  | string s =>
    rw [Value.member]
    split
    · exact .number _
    · exact .undefined
  | _ => exact .undefined

/-! ### Assignments -/

namespace Bindings

theorem fields?_lifted {v v' : Value} (h : v.Lifted F v') :
    Option.Rel (Fields.Lifted F) (fields? v) (fields? v') := by
  cases h with
  | undefined => exact .some .nil
  | object h => exact .some h
  | _ => exact .none

theorem assignInto_lifted (whole : String) {v v' : Value} (hv : v.Lifted F v') (path : List String) :
    ∀ (name : String) {target target' : Value}, target.Lifted F target' →
      Alike (Value.Lifted F) (assignInto whole v name target path)
        (assignInto whole v' name target' path) := by
  induction path with
  | nil =>
    intro name target target' ht
    have hfields := fields?_lifted ht
    unfold assignInto
    generalize fields? target = o, fields? target' = o' at hfields
    cases hfields with
    | none => exact .error _
    | some h => exact .ok (.object h)
  | cons next path ih =>
    intro name target target' ht
    have hfields := fields?_lifted ht
    unfold assignInto
    generalize fields? target = o, fields? target' = o' at hfields
    cases hfields with
    | none => exact .error _
    | some h =>
      cases path with
      | nil => exact .ok (.object (Fields.Lifted.insert h next hv))
      | cons after path =>
        exact (ih next (rel_getD (Fields.Lifted.get? h next) (.object .nil))).bind fun _ _ hchild =>
          .ok (.object (Fields.Lifted.insert h next hchild))

end Bindings

/-! ### Operations -/

namespace Operation

variable {args args' : List Value}

theorem arg_lifted (h : Values.Lifted F args args') (i : Nat) :
    (arg args i).Lifted F (arg args' i) := rel_getD (forall₂_getElem? h i) .undefined

theorem anyUndefined_lifted (h : Values.Lifted F args args') :
    args'.any Value.isUndefined = args.any Value.isUndefined := by
  induction h with
  | nil => rfl
  | cons hv _ ih => rw [List.any_cons, List.any_cons, hv.isUndefined, ih]

theorem spread_lifted (h : Values.Lifted F args args') :
    Values.Lifted F (spread args) (spread args') := by
  cases h with
  | nil => exact .nil
  | cons hv hrest =>
    cases hrest with
    | nil =>
      have hsingle := List.Forall₂.cons hv .nil
      cases hv with
      | array hitems => exact hitems
      | _ => exact hsingle
    | cons hw hrest =>
      have hall := List.Forall₂.cons hv (.cons hw hrest)
      cases hv with
      | _ => exact hall

theorem concatenation_lifted (h : Values.Lifted F args args') :
    (concatenation args).Lifted F (concatenation args') := by
  have h0 := arg_lifted h 0
  have h1 := arg_lifted h 1
  unfold concatenation
  generalize arg args 0 = a, arg args 1 = b, arg args' 0 = a', arg args' 1 = b' at h0 h1
  cases h0 with
  | array has =>
    cases h1 with
    | array hbs => exact .array (List.rel_append has hbs)
    | _ => exact .undefined
  | string s =>
    cases h1 with
    | string t => exact .string _
    | _ => exact .undefined
  | _ => exact .undefined

theorem contains_lifted (hF : Function.Congruent F) {whole whole' part part' : Value}
    (hw : whole.Lifted F whole') (hp : part.Lifted F part') :
    contains whole' part' = contains whole part := by
  cases hw with
  | array hitems =>
    simp only [contains]
    induction hitems with
    | nil => rfl
    | cons hv _ ih => rw [List.any_cons, List.any_cons, hv.equal hF hp, ih]
  | string s => rw [contains, contains, hp.text hF]
  | _ => rfl

section

variable (hF : Function.Congruent F) (h : Values.Lifted F args args')

include hF h

theorem numbers_lifted : args'.map Value.toNumber = args.map Value.toNumber := by
  induction h with
  | nil => rfl
  | cons hv _ ih => rw [List.map_cons, List.map_cons, hv.toNumber hF, ih]

theorem onNumber_lifted (f : Float → Float) :
    (onNumber f args).Lifted F (onNumber f args') := by
  have heq : ∀ args, onNumber f args =
      if (arg args 0).isUndefined then .undefined else .number (f (arg args 0).toNumber) := by
    intro args
    unfold onNumber
    cases arg args 0 <;> rfl
  have h0 := arg_lifted h 0
  rw [heq, heq, h0.isUndefined, h0.toNumber hF]
  split
  · exact .undefined
  · exact .number _

theorem onNumbers_lifted (f : Float → Float → Float) :
    (onNumbers f args).Lifted F (onNumbers f args') := by
  have heq : ∀ args, onNumbers f args =
      if (arg args 0).isUndefined || (arg args 1).isUndefined then .undefined
      else .number (f (arg args 0).toNumber (arg args 1).toNumber) := by
    intro args
    unfold onNumbers
    cases arg args 0 <;> cases arg args 1 <;> rfl
  have h0 := arg_lifted h 0
  have h1 := arg_lifted h 1
  rw [heq, heq, h0.isUndefined, h1.isUndefined, h0.toNumber hF, h1.toNumber hF]
  split
  · exact .undefined
  · exact .number _

theorem ordered_lifted (orders : List Ordering) :
    (ordered orders args).Lifted F (ordered orders args') := by
  have hcompare : compare? (arg args' 0) (arg args' 1) = compare? (arg args 0) (arg args 1) := by
    unfold compare?
    rw [(arg_lifted h 0).primitive hF, (arg_lifted h 1).primitive hF]
  unfold ordered
  rw [hcompare]
  split
  · exact .bool _
  · exact .bool _

theorem addition_lifted : (addition args).Lifted F (addition args') := by
  have h0 := arg_lifted h 0
  have h1 := arg_lifted h 1
  have hsum : ((Value.number ((arg args 0).toNumber + (arg args 1).toNumber)).Lifted F
      (.number ((arg args' 0).toNumber + (arg args' 1).toNumber))) := by
    rw [h0.toNumber hF, h1.toNumber hF]
    exact .number _
  unfold addition
  generalize arg args 0 = a, arg args 1 = b, arg args' 0 = a', arg args' 1 = b' at h0 h1 hsum
  cases h0 with
  | undefined => exact .undefined
  | string s =>
    cases h1 with
    | undefined => exact .undefined
    | string t =>
      dsimp only
      split
      · exact .string _
      · exact .number _
    | _ => exact hsum
  | _ =>
    cases h1 with
    | undefined => exact .undefined
    | _ => exact hsum

theorem itemAt_lifted : (itemAt args).Lifted F (itemAt args') := by
  have h0 := arg_lifted h 0
  unfold itemAt
  rw [(arg_lifted h 1).toNumber hF]
  dsimp only
  generalize Number.toInt32 (arg args 1).toNumber = i
  generalize arg args 0 = a, arg args' 0 = a' at h0
  cases h0 with
  | array hitems =>
    dsimp only
    split
    · exact .undefined
    · exact arg_lifted hitems _
  | string s =>
    dsimp only
    split
    · exact .undefined
    · split
      · exact .string _
      · exact .undefined
  | object hfields => exact rel_getD (Fields.Lifted.get? hfields _) .undefined
  | _ => exact .undefined

theorem coalescence_lifted : (coalescence args).Lifted F (coalescence args') := by
  have h0 := arg_lifted h 0
  have h1 := arg_lifted h 1
  have hchoice : (if (arg args 0).toNumber.isNaN then arg args 1 else arg args 0).Lifted F
      (if (arg args' 0).toNumber.isNaN then arg args' 1 else arg args' 0) := by
    rw [h0.toNumber hF]
    split
    · exact h1
    · exact h0
  unfold coalescence
  generalize arg args 0 = a, arg args' 0 = a' at h0 hchoice
  cases h0 with
  | undefined | null => exact h1
  | number x =>
    dsimp only
    split
    · exact h1
    · exact .number x
  | _ => exact hchoice

theorem conversion_lifted : Alike (Value.Lifted F) (conversion args) (conversion args') := by
  have h0 := arg_lifted h 0
  have h1 := arg_lifted h 1
  unfold conversion
  generalize arg args 0 = a, arg args 1 = b, arg args' 0 = a', arg args' 1 = b' at h0 h1
  have hconverted (type : String) : Alike (Value.Lifted F)
      (if isWord type "boolean" then .ok (.bool a.truthy)
        else if isWord type "int" || isWord type "integer" then
          .ok (.number (Number.round a.toNumber))
        else if isWord type "number" then .ok (.number a.toNumber)
        else .error (EvalError.unknownType type))
      (if isWord type "boolean" then .ok (.bool a'.truthy)
        else if isWord type "int" || isWord type "integer" then
          .ok (.number (Number.round a'.toNumber))
        else if isWord type "number" then .ok (.number a'.toNumber)
        else .error (.unknownType type)) := by
    rw [h0.truthy, h0.toNumber hF]
    split
    · exact .ok (.bool _)
    · split
      · exact .ok (.number _)
      · split
        · exact .ok (.number _)
        · exact .error _
  have hrefused : Alike (Value.Lifted F) (.error (EvalError.unknownType b.text))
      (.error (.unknownType b'.text)) := by
    rw [h1.text hF]
    exact .error _
  cases h0 with
  | undefined => exact .ok .undefined
  | _ =>
    cases h1 with
    | undefined => exact .ok .undefined
    | string type => exact hconverted type
    | _ => exact hrefused

theorem lengthOf_lifted : (lengthOf args).Lifted F (lengthOf args') := by
  have h0 := arg_lifted h 0
  have ht := h0.text hF
  unfold lengthOf
  generalize arg args 0 = a, arg args' 0 = a' at h0 ht
  cases h0 with
  | undefined => exact .undefined
  | array hitems =>
    dsimp only
    rw [hitems.length_eq]
    exact .number _
  | _ =>
    dsimp only
    rw [ht]
    exact .number _

theorem firstIndex_lifted : Alike (Value.Lifted F) (firstIndex args) (firstIndex args') := by
  have h0 := arg_lifted h 0
  have h1 := arg_lifted h 1
  have hfind : ∀ {items items' : List Value}, Values.Lifted F items items' →
      items'.findIdx? (·.equal (arg args' 0)) = items.findIdx? (·.equal (arg args 0)) := by
    intro items items' hitems
    induction hitems with
    | nil => rfl
    | cons hv _ ih => rw [List.findIdx?_cons, List.findIdx?_cons, hv.equal hF h0, ih]
  unfold firstIndex
  rw [h0.text hF]
  generalize arg args 1 = b, arg args' 1 = b' at h1
  cases h1 with
  | undefined => exact .ok .undefined
  | array hitems =>
    dsimp only
    rw [hfind hitems]
    split
    · exact .ok (.number _)
    · exact .ok (.number _)
  | string s =>
    dsimp only
    split
    · exact .ok (.number _)
    · exact .ok (.number _)
  | _ => exact .error _

theorem joined_lifted : Alike (Value.Lifted F) (joined args) (joined args') := by
  have h0 := arg_lifted h 0
  have h1 := arg_lifted h 1
  have ht := h0.text hF
  unfold joined
  generalize arg args 0 = a, arg args 1 = b, arg args' 0 = a', arg args' 1 = b' at h0 h1 ht
  cases h0 with
  | undefined => exact .ok .undefined
  | _ =>
    cases h1 with
    | undefined => exact .ok .undefined
    | array hitems =>
      dsimp only
      rw [ht, Value.itemTexts_lifted hF _ hitems]
      exact .ok (.string _)
    | _ => exact .error _

theorem extreme_lifted (start : Float) (better : Float → Float → Bool) :
    (extreme start better args).Lifted F (extreme start better args') := by
  have hs := spread_lifted h
  unfold extreme
  dsimp only
  rw [anyUndefined_lifted hs, numbers_lifted hF hs]
  split
  · exact .undefined
  · split
    · exact .number _
    · exact .number _

theorem vectorLength_lifted : (vectorLength args).Lifted F (vectorLength args') := by
  unfold vectorLength
  rw [anyUndefined_lifted h, numbers_lifted hF h]
  split
  · exact .undefined
  · exact .number _

theorem rounding_lifted : (rounding args).Lifted F (rounding args') := by
  have heq : ∀ args, rounding args =
      if (arg args 0).isUndefined then .undefined
      else if (arg args 1).isUndefined || (arg args 1).toNumber == 0.0 then
        .number (Number.round (arg args 0).toNumber)
      else .number (Number.roundTo (arg args 0).toNumber (arg args 1).toNumber) := by
    intro args
    unfold rounding
    cases arg args 0 <;> cases arg args 1 <;> rfl
  have h0 := arg_lifted h 0
  have h1 := arg_lifted h 1
  rw [heq, heq, h0.isUndefined, h1.isUndefined, h0.toNumber hF, h1.toNumber hF]
  split
  · exact .undefined
  · split
    · exact .number _
    · exact .number _

theorem total_lifted : Alike (Value.Lifted F) (total args) (total args') := by
  have hsum : ∀ items : List Value, items.foldl (fun n v => n + v.toNumber) 0.0 =
      (items.map Value.toNumber).foldl (· + ·) 0.0 := fun _ => List.foldl_map.symm
  have h0 := arg_lifted h 0
  unfold total
  generalize arg args 0 = a, arg args' 0 = a' at h0
  cases h0 with
  | undefined => exact .ok .undefined
  | array hitems =>
    dsimp only
    rw [anyUndefined_lifted hitems]
    split
    · exact .ok .undefined
    · rw [hsum, hsum, numbers_lifted hF hitems]
      exact .ok (.number _)
  | _ => exact .error _

/-- An operation does the same with values that are the same but for their functions. -/
theorem apply_lifted (op : Operation) :
    Alike (Value.Lifted F) (op.apply args) (op.apply args') := by
  have h0 := arg_lifted h 0
  have h1 := arg_lifted h 1
  cases op with
  | convert => exact conversion_lifted hF h
  | indexOf => exact firstIndex_lifted hF h
  | join => exact joined_lifted hF h
  | sum => exact total_lifted hF h
  | length => exact .ok (lengthOf_lifted hF h)
  | add => exact .ok (addition_lifted hF h)
  | concatenate => exact .ok (concatenation_lifted h)
  | index => exact .ok (itemAt_lifted hF h)
  | coalesce => exact .ok (coalescence_lifted hF h)
  | hypot => exact .ok (vectorLength_lifted hF h)
  | maximum | minimum => exact .ok (extreme_lifted hF h _ _)
  | roundTo => exact .ok (rounding_lifted hF h)
  | greater | less | atLeast | atMost => exact .ok (ordered_lifted hF h _)
  | subtract | multiply | divide | remainder | power | atan2 => exact .ok (onNumbers_lifted hF h _)
  | choose =>
    simp only [apply, h0.truthy]
    split
    · exact .ok h1
    · exact .ok (arg_lifted h 2)
  | negation | conjunction | disjunction =>
    simp only [apply, h0.truthy, h1.truthy]
    exact .ok (.bool _)
  | equal | unequal =>
    simp only [apply, h0.equal hF h1]
    exact .ok (.bool _)
  | membership =>
    simp only [apply, contains_lifted hF h1 h0]
    exact .ok (.bool _)
  | _ => exact .ok (onNumber_lifted hF h _)

end

end Operation

end Formula
