import Formula.Proofs.Numbers.Negation
import Formula.Proofs.Printed.Reread
import Formula.Proofs.Simplify.Pushes

/-!
# Literals of values

The literal of a value is a formula for an equal value, whatever the variables are: of all values
but null, functions and deferred ones, if their numbers are finite and none of their keys is
reserved. A negative number is written as the opposite of one without a sign, and the fields of
an object are set one after the other.
-/

open Formula.Lexer Formula.Parser

namespace Formula

namespace Value

mutual

/-- Whether the literal of a value is a formula for it. Keys stand in ascending order, as in every
object. -/
def isWritable : Value → Bool
  | .undefined | .bool _ | .string _ => true
  | .number x => (Number.decode? x).isSome
  | .array items => itemsWritable items
  | .object fields => fieldsWritable fields
  | .null | .function _ | .deferred _ => false

def itemsWritable : List Value → Bool
  | [] => true
  | v :: rest => isWritable v && itemsWritable rest

def fieldsWritable : List (String × Value) → Bool
  | [] => true
  | (key, v) :: rest =>
    !isReserved key && rest.all (fun p => decide (key < p.1)) && isWritable v && fieldsWritable rest

end

mutual

/-- Whether no number in a value is a zero with a sign, which is written without it. -/
def isExact : Value → Bool
  | .number x => !Number.signBit x || x != 0.0
  | .array items => itemsExact items
  | .object fields => fieldsExact fields
  | _ => true

def itemsExact : List Value → Bool
  | [] => true
  | v :: rest => isExact v && itemsExact rest

def fieldsExact : List (String × Value) → Bool
  | [] => true
  | (_, v) :: rest => isExact v && fieldsExact rest

end

/-- The expression that the text of a finite number stands for. -/
def numberExpr (x : Float) : Expr :=
  match Number.decode? x with
  | some ⟨negative, m, _⟩ =>
    if m = 0 then .literal (.number 0.0)
    else if negative then .unary "-" (.literal (.number (-x)))
    else .literal (.number x)
  | none => .literal (.number x)

mutual

/-- The expression that the literal of a value stands for. -/
def expr : Value → Expr
  | .undefined => .undefined
  | .number x => numberExpr x
  | .array items => .array (itemExprs items)
  | .object fields => .object (fieldExprs fields)
  | v => .literal v

def itemExprs : List Value → List Expr
  | [] => []
  | v :: rest => expr v :: itemExprs rest

def fieldExprs : List (String × Value) → List (String × Expr)
  | [] => []
  | (key, v) :: rest => (key, expr v) :: fieldExprs rest

end

variable {lang : Language Value} {x : Float}

/-- The cases of a finite number: a zero, a number without a sign, or a negative number. -/
theorem numberExpr_cases (hx : (Number.decode? x).isSome) :
    (numberExpr x = .literal (.number 0.0) ∧ Number.text x = Number.text 0.0 ∧
      (0.0 == x) = true ∧ ((Value.number x).isExact = true → x = 0.0)) ∨
    (x == x) = true ∧ (x == 0.0) = false ∧
      ((numberExpr x = .literal (.number x) ∧ Number.Unsigned x) ∨
        numberExpr x = .unary "-" (.literal (.number (-x))) ∧ x < 0.0 ∧ Number.Unsigned (-x) ∧
          (Number.text x).toList = '-' :: (Number.text (-x)).toList ∧ -(-x) = x) := by
  obtain ⟨⟨negative, m, e⟩, hdecode⟩ := Option.isSome_iff_exists.mp hx
  unfold numberExpr
  rw [hdecode]
  dsimp only
  by_cases hm : m = 0
  · subst hm
    obtain ⟨htext, hequal⟩ := Number.zero_parts hdecode
    refine .inl ⟨rfl, htext, hequal, fun hexact => ?_⟩
    rw [Rounding.eq_zero hdecode] at hexact ⊢
    cases negative with
    | false => rfl
    | true => exact absurd hexact (by decide)
  · rw [if_neg hm]
    refine .inr ⟨Number.beq_self hdecode hm, Number.beq_zero hdecode hm, ?_⟩
    cases negative with
    | false => exact .inl ⟨rfl, ⟨m, e, hdecode⟩⟩
    | true => exact .inr ⟨rfl, Number.negative_parts hdecode hm⟩

/-! ### Reading literals -/

theorem legible_number (hx : Number.Unsigned x) :
    Legible lang endsNumber (Number.text x).toList
      fun ks => Stated lang ks (.literal (.number x)) :=
  ⟨_, (atomic_number x).spelled.stated, Expr.yields_number hx⟩

theorem legible_text (hlang : lang.Writes) (hx : (Number.decode? x).isSome) :
    Legible lang endsNumber (Number.text x).toList fun ks => Stated lang ks (numberExpr x) := by
  rcases numberExpr_cases hx with
    ⟨hexpr, htext, -⟩ | ⟨-, -, ⟨hexpr, hunsigned⟩ | ⟨hexpr, -, hunsigned, htext, -⟩⟩
  · rw [hexpr, htext]
    exact legible_number ⟨0, -1074, by decide⟩
  · rw [hexpr]
    exact legible_number hunsigned
  · rw [hexpr, htext]
    refine ⟨_, stated_sign (.inl rfl) (hlang.sign "-" (by decide)) (atomic_number _).spelled,
      fun rest ls hrest hlex => ?_⟩
    exact (begins_sign (by decide) (hlang.enabled "-" (by decide))).lexes
      (Expr.yields_number hunsigned rest ls hrest hlex)

theorem text_leaf :
    Expr.undefined.text = Value.undefined.literal.toList ∧
    (∀ b, (Expr.literal (.bool b)).text = (Value.bool b).literal.toList) ∧
    ∀ s, (Expr.literal (.string s)).text = (Value.string s).literal.toList := by
  refine ⟨?_, fun b => ?_, fun s => ?_⟩
  · simp only [Expr.text, Expr.render, literal, text]
  · simp only [Expr.text, Expr.render, Expr.literalText, literal, text]
  · simp only [Expr.text, Expr.render, Expr.literalText, literal]

theorem literal_array (items : List Value) : (Value.array items).literal.toList =
    '[' :: ([',', ' '].intercalate ((itemLiterals items).map String.toList) ++ [']']) := by
  simp [literal, String.toList_intercalate]

theorem literal_object (fields : List (String × Value)) : (Value.object fields).literal.toList =
    Expr.braced ((fieldLiterals fields).map String.toList) := by
  cases fields with
  | nil => rfl
  | cons f fs =>
    change _ = '\x7b' :: ' ' ::
      ([',', ' '].intercalate ((fieldLiterals (f :: fs)).map String.toList) ++ [' ', '\x7d'])
    simp [literal, String.toList_intercalate]

mutual

/-- The literal of a value is read as the expression it stands for. -/
theorem legible_literal (hlang : lang.Writes) : (v : Value) → v.isWritable = true →
    Legible lang endsNumber v.literal.toList fun ks => Stated lang ks v.expr
  | .undefined, _ => text_leaf.1 ▸ Expr.legible_of_readAs (Expr.reread_undefined hlang)
  | .bool b, _ => text_leaf.2.1 b ▸ Expr.legible_of_readAs (Expr.reread_bool hlang b)
  | .string s, _ => text_leaf.2.2 s ▸ Expr.legible_of_readAs (Expr.reread_string s)
  | .number _, h => legible_text hlang h
  | .array items, h => by
    obtain ⟨ks, ⟨-, -, hks⟩, htext⟩ := Expr.legible_array hlang (legible_itemLiterals hlang items h)
    rw [literal_array]
    exact ⟨ks, hks.spelled.stated, htext.mono fun c hc => (Bool.and_eq_true_iff.mp hc).1⟩
  | .object fields, h => by
    obtain ⟨ks, ⟨-, -, hks⟩, htext⟩ := Expr.legible_object (legible_fieldLiterals hlang fields h)
    rw [literal_object]
    exact ⟨ks, hks.spelled.stated, htext.mono fun c hc => (Bool.and_eq_true_iff.mp hc).1⟩

theorem legible_itemLiterals (hlang : lang.Writes) : (items : List Value) →
    itemsWritable items = true →
    List.Forall₂ (fun t a => Legible lang endsNumber t fun ks => Stated lang ks a)
      ((itemLiterals items).map String.toList) (itemExprs items)
  | [], _ => .nil
  | v :: rest, h => by
    obtain ⟨hv, hrest⟩ := Bool.and_eq_true_iff.mp h
    exact .cons (legible_literal hlang v hv) (legible_itemLiterals hlang rest hrest)

theorem legible_fieldLiterals (hlang : lang.Writes) : (fields : List (String × Value)) →
    fieldsWritable fields = true →
    List.Forall₂ (fun t a => Legible lang endsNumber t fun ks => SpelledField lang ks a)
      ((fieldLiterals fields).map String.toList) (fieldExprs fields)
  | [], _ => .nil
  | (key, v) :: rest, h => by
    obtain ⟨hhere, hrest⟩ := Bool.and_eq_true_iff.mp h
    obtain ⟨-, hv⟩ := Bool.and_eq_true_iff.mp hhere
    have hshape : (quote key ++ ": " ++ literal v).toList =
        (quote key).toList ++ ':' :: ' ' :: (literal v).toList := by
      simp
    refine .cons ?_ (legible_fieldLiterals hlang rest hrest)
    rw [hshape]
    exact Expr.legible_keyed hlang (Expr.yields_quoted lang key) rfl rfl (legible_literal hlang v hv)

end

/-- The literal of a value parses to the expression it stands for. -/
theorem parseExpr_literal (hlang : lang.Writes) {v : Value} (h : v.isWritable = true) :
    parseExpr lang v.literal = .ok v.expr :=
  Expr.parseExpr_of_legible (legible_literal hlang v h)

/-! ### Evaluating literals -/

open Machine Formula.Expr

variable {hosts : Hosts}

/-- In such a language a minus before an operand is the built-in operation. -/
def Negates (lang : Language Value) : Prop :=
  ∃ f, lang.unaryOp? "-" = some f ∧ f.action = .operation .negate

theorem negates_standard (id : Nat) (options : Options) : Negates (.ofOptions id options) := by
  unfold Negates
  rw [Language.unaryOp?_standard]
  exact Language.natives_get? (by rw [Language.operations_names]; decide) (by decide)

theorem pushes_opposite (hlang : Negates lang) (x : Float) :
    Pushes hosts lang [] (compile (.unary "-" (.literal (.number x)))) [.number (-x)] := by
  obtain ⟨f, hf, haction⟩ := hlang
  have hcall : ∃ N, ∀ m ≥ N, ∀ depth w,
      (engine hosts m).call depth (.native f) [.number x] w = (.ok (.number (-x)), w) :=
    Native.call_operation hosts haction [.number x]
  refine (Pushes.literal (v := .number x) rfl).call (by simp [needed]) (fun scope stack => ?_) rfl
    hcall
  simp [plan, planOperator, hf, operator, popValues]
  rfl

theorem pushes_number (hlang : Negates lang) (hx : (Number.decode? x).isSome) :
    ∃ u, Pushes hosts lang [] (numberExpr x).compile [u] ∧ u.equal (.number x) = true ∧
      u.normalise = u ∧ ((Value.number x).isExact = true → u = .number x) := by
  rcases numberExpr_cases hx with
    ⟨hexpr, -, hzero, hexact⟩ | ⟨hself, hzero, ⟨hexpr, -⟩ | ⟨hexpr, -, -, -, hopposite⟩⟩
  · rw [hexpr]
    exact ⟨.number 0.0, .literal rfl, hzero, rfl, fun h => congrArg Value.number (hexact h).symm⟩
  · rw [hexpr]
    exact ⟨.number x, .literal rfl, hself, by simp only [normalise, hzero]; rfl, fun _ => rfl⟩
  · rw [hexpr]
    have hpushes : Pushes hosts lang [] _ _ := pushes_opposite hlang (-x)
    rw [hopposite] at hpushes
    exact ⟨.number x, hpushes, hself, by simp only [normalise, hzero]; rfl, fun _ => rfl⟩

theorem insert_last {α : Type} {r : Record α} {key : String} (h : ∀ p ∈ r, p.1 < key) (v : α) :
    Record.insert r key v = r ++ [(key, v)] := by
  induction r with
  | nil => rfl
  | cons p rest ih =>
    obtain ⟨k, w⟩ := p
    obtain ⟨hk, hrest⟩ := List.forall_mem_cons.mp h
    rw [Record.insert, if_neg (ne_of_lt hk), if_neg (lt_asymm hk), ih hrest]
    rfl

theorem length_itemExprs (items : List Value) : (itemExprs items).length = items.length := by
  induction items with
  | nil => rfl
  | cons v rest ih => exact congrArg (· + 1) ih

mutual

/-- What the literal of a value stands for pushes an equal value, and does nothing else; it pushes
the value itself if no sign of a zero is lost. -/
theorem pushes_expr (hlang : Negates lang) : (v : Value) → v.isWritable = true →
    ∃ u, Pushes hosts lang [] v.expr.compile [u] ∧ u.equal v = true ∧ u.normalise = u ∧
      (v.isExact = true → u = v)
  | .undefined, _ => ⟨.undefined, .undefined, rfl, rfl, fun _ => rfl⟩
  | .bool b, _ => ⟨.bool b, .literal rfl, by simp [equal], rfl, fun _ => rfl⟩
  | .string s, _ => ⟨.string s, .literal rfl, by simp [equal], rfl, fun _ => rfl⟩
  | .number _, h => pushes_number hlang h
  | .array items, h => by
    obtain ⟨us, hus, hequal, hlength, hexact⟩ := pushes_itemExprs hlang items h
    refine ⟨.array us, ?_, by simpa [equal] using hequal, rfl, fun h => ?_⟩
    · rw [expr, compile, length_itemExprs, ← hlength]
      exact hus.array
    · rw [hexact h]
  | .object fields, h => by
    obtain ⟨us, hus, hequal, hexact⟩ := pushes_fieldExprs hlang fields h [] (by simp) .objectStart
    refine ⟨.object us, ?_, by simpa [equal] using hequal, rfl, fun h => ?_⟩
    · rw [expr, compile]
      exact hus.objectEnd
    · rw [hexact h]

theorem pushes_itemExprs (hlang : Negates lang) : (items : List Value) →
    itemsWritable items = true →
    ∃ us, Pushes hosts lang [] (compileItems (itemExprs items)) us ∧
      equalItems us items = true ∧ us.length = items.length ∧
        (itemsExact items = true → us = items)
  | [], _ => ⟨[], .nil, rfl, rfl, fun _ => rfl⟩
  | v :: rest, h => by
    obtain ⟨hv, hrest⟩ := Bool.and_eq_true_iff.mp h
    obtain ⟨u, hu, hequal, -, hexact⟩ := pushes_expr hlang v hv
    obtain ⟨us, hus, hequals, hlength, hexacts⟩ := pushes_itemExprs hlang rest hrest
    refine ⟨u :: us, hu.append hus, by simp [equalItems, hequal, hequals], by simp [hlength],
      fun h => ?_⟩
    obtain ⟨hhere, hlater⟩ := Bool.and_eq_true_iff.mp h
    rw [hexact hhere, hexacts hlater]

theorem pushes_fieldExprs (hlang : Negates lang) : (fields : List (String × Value)) →
    fieldsWritable fields = true → (done : List (String × Value)) →
    (∀ p ∈ done, ∀ q ∈ fields, p.1 < q.1) → {code : Program Value} →
    Pushes hosts lang [] code [.object done] →
    ∃ us, Pushes hosts lang [] (code ++ compileFields (fieldExprs fields)) [.object (done ++ us)] ∧
      equalFields us fields = true ∧ (fieldsExact fields = true → us = fields)
  | [], _, done, _, code, hcode =>
    ⟨[], by simpa [fieldExprs, compileFields] using hcode, rfl, fun _ => rfl⟩
  | (key, v) :: rest, h, done, hdone, code, hcode => by
    simp only [fieldsWritable, Bool.and_eq_true, Bool.not_eq_true', List.all_eq_true,
      decide_eq_true_eq] at h
    obtain ⟨⟨⟨hkey, habove⟩, hv⟩, hrest⟩ := h
    obtain ⟨u, hu, hequal, -, hexact⟩ := pushes_expr hlang v hv
    have hfield := (hcode.append hu).property hkey
    rw [insert_last fun p hp => hdone p hp (key, v) (by simp)] at hfield
    obtain ⟨us, hus, hequals, hexacts⟩ := pushes_fieldExprs hlang rest hrest (done ++ [(key, u)]) (by
      intro p hp q hq
      rcases List.mem_append.mp hp with hp | hp
      · exact hdone p hp q (List.mem_cons_of_mem _ hq)
      · obtain rfl := List.mem_singleton.mp hp
        exact habove q hq) hfield
    refine ⟨(key, u) :: us, ?_, by simp [equalFields, hequal, hequals], fun h => ?_⟩
    · simpa [fieldExprs, compileFields] using hus
    · obtain ⟨hhere, hlater⟩ := Bool.and_eq_true_iff.mp h
      rw [hexact hhere, hexacts hlater]

end

end Value

open Value

/-- The literal of a value parses, and what it parses to evaluates to an equal value wherever it is
evaluated, and changes nothing. -/
theorem evaluate_literal (id : Nat) (hosts : Hosts) {v : Value} (h : v.isWritable = true) :
    ∃ e, parseExpr (.ofOptions id {}) v.literal = .ok e ∧
      ∃ u, u.equal v = true ∧ ∃ N, ∀ n ≥ N, ∀ w,
        e.evaluate hosts n (.ofOptions id {}) w = (.ok (.done u), w) := by
  obtain ⟨u, hpushes, hequal, hnormal, -⟩ := pushes_expr (negates_standard id {}) v h
  obtain ⟨N, hN⟩ := hpushes.above
  refine ⟨v.expr, parseExpr_literal (Language.writes_default id) h, u, hequal, N + 1,
    fun n hn w => ?_⟩
  obtain ⟨n, rfl⟩ : ∃ m, n = m + 1 := ⟨n - 1, by omega⟩
  have hrun := hN n (by omega) 0 [] [] w fun _ _ hget => by cases hget
  rw [List.append_nil] at hrun
  change Machine.run (Machine.engine hosts n) _ 0 v.expr.compile [] w = _
  rw [hrun]
  change (Except.ok (Progress.done u.normalise), w) = _
  rw [hnormal]

/-- An object with a word as a key, a negative number, a zero with a sign and a line separator. -/
def quotedValue : Value :=
  .object [("E", .array [.number (-1.5e-7), .number (-0.0), .undefined]), ("a b", .object []),
    ("then", .string "'\"\\\u2028")]

theorem quoted_literal : quotedValue.isWritable = true ∧
    ∃ e, parseExpr (.ofOptions 0 {}) quotedValue.literal = .ok e ∧
      ∃ u, u.equal quotedValue = true ∧ ∃ N, ∀ n ≥ N, ∀ w,
        e.evaluate (fun _ _ => ⟨[], .value .undefined⟩) n (.ofOptions 0 {}) w =
          (.ok (.done u), w) := by
  have hwritable : quotedValue.isWritable = true := by decide
  exact ⟨hwritable, evaluate_literal 0 _ hwritable⟩

end Formula
