import Formula.Proofs.Printed.Stream

/-!
# Tokens of expressions

Lists of token kinds that the rules read as a certain expression, wherever they stand: as an atom,
or as the start of a call whose links follow. One lemma for each form of expression says how its
tokens are made of those of its parts.
-/

namespace Formula.Parser

/-- Kinds of token that start an operand and are no operators. -/
def opensOperand : TokenKind → Bool
  | .leftParen | .leftBracket | .leftBrace | .name _ | .number _ | .string _ | .constant _
  | .undefined | .keyword .caseWord => true
  | _ => false

variable {lang : Language Value} {ks ls : List TokenKind} {e e' : Expr}

/-- Tokens that are read as an atom. -/
structure Atomic (lang : Language Value) (ks : List TokenKind) (e : Expr) : Prop where
  opens : ∃ k tail, ks = k :: tail ∧ opensOperand k = true
  atom : ∀ k rest, Reads (atom lang) (32 * ks.length) ks e (k :: rest)

/-- Tokens that are read as the start of a call. -/
structure Spelled (lang : Language Value) (ks : List TokenKind) (e : Expr) : Prop where
  opens : ∃ k tail, ks = k :: tail ∧ opensOperand k = true
  call : ∀ {n more a k rest}, Reads (fun fuel => links lang fuel e) n more a (k :: rest) →
    Reads (call lang) (n + 32 * ks.length + 1) (ks ++ more) a (k :: rest)

/-- Tokens that are read as a statement before a closing token. -/
structure Stated (lang : Language Value) (ks : List TokenKind) (e : Expr) : Prop where
  opens : ∃ k tail, ks = k :: tail ∧ isRightParen k = false ∧ isRightBracket k = false
  statements : ∀ {k rest}, closes k = true → isSemicolon k = false →
    Reads (statements lang) (32 * ks.length + 25) ks e (k :: rest)

theorem not_prefix_of_opens {k : TokenKind} (h : opensOperand k = true) :
    isPrefixOperator lang k = false := by
  cases k with
  | op op => cases h
  | _ => rfl

theorem Atomic.spelled (h : Atomic lang ks e) : Spelled lang ks e := by
  refine ⟨h.opens, fun {n more a k rest} hlinks => .of_succ fun fuel hf ts hts => ?_⟩
  obtain ⟨first, tail, rfl, hfirst⟩ := h.opens
  rw [List.append_assoc] at hts
  obtain ⟨ts₁, h₁, hts₁⟩ : ∃ ts', Parser.atom lang fuel ts = .ok (e, ts') ∧
      ts'.Shows (more ++ k :: rest) := by
    obtain ⟨k', rest', hmore⟩ : ∃ k' rest', more ++ k :: rest = k' :: rest' := by
      cases more <;> exact ⟨_, _, rfl⟩
    rw [hmore] at hts ⊢
    exact h.atom k' rest' fuel (by omega) ts hts
  obtain ⟨ts₂, h₂, hts₂⟩ := hlinks fuel (by omega) ts₁ hts₁
  have hkind : ts.kind = first := hts.kind
  refine ⟨ts₂, ?_, hts₂⟩
  simp only [Parser.call, hkind, not_prefix_of_opens hfirst, Bool.false_eq_true, if_false, h₁,
    ok_bind, h₂]

namespace Spelled

variable {k : TokenKind} {rest : List TokenKind}

theorem postfixed (h : Spelled lang ks e) (hlinks : links? k = false) (hmark : k.isOp "!" = false) :
    Reads (postfixed lang) (32 * ks.length + 3) ks e (k :: rest) := by
  have hcall : Reads (Parser.call lang) (1 + 32 * ks.length + 1) (ks ++ []) e (k :: rest) :=
    h.call (links_stop lang hlinks e)
  rw [List.append_nil] at hcall
  exact (postfixed_of_call hcall (by omega) hmark).mono (by omega)

theorem power (h : Spelled lang ks e) (hlinks : links? k = false) (hmark : k.isOp "!" = false)
    (hpower : k.isOp "^" = false) : Reads (power lang) (32 * ks.length + 4) ks e (k :: rest) :=
  power_of_postfixed (h.postfixed hlinks hmark) (by omega) hpower

theorem factor (h : Spelled lang ks e) (hlinks : links? k = false) (hmark : k.isOp "!" = false)
    (hpower : k.isOp "^" = false) : Reads (factor lang) (32 * ks.length + 5) ks e (k :: rest) := by
  have hread : Reads (Parser.power lang) (32 * ks.length + 4) ks e (k :: rest) :=
    h.power hlinks hmark hpower
  obtain ⟨first, tail, rfl, hfirst⟩ := h.opens
  exact factor_of_power hread (not_prefix_of_opens hfirst)

/-- An operand before an operator of its tier or at its end. -/
theorem operand (h : Spelled lang ks e) (hlinks : links? k = false) (hmark : k.isOp "!" = false)
    (hpower : k.isOp "^" = false) (t : Tier)
    (hk : ∀ t' : Tier, t'.slack < t.slack → t'.continues k = false) :
    Reads (fun fuel => operand lang fuel t) (32 * ks.length + 6 + 2 * t.slack) ks e (k :: rest) :=
  operand_of_factor (h.factor hlinks hmark hpower) t hk

theorem tier (h : Spelled lang ks e) (hk : closes k = true) (t : Tier) :
    Reads (fun fuel => tier lang fuel t) (32 * ks.length + 7 + 2 * t.slack) ks e (k :: rest) :=
  Reads.mono (tier_of_operand (h.operand (links?_of_closes hk) (isOp_of_closes hk (by decide))
    (isOp_of_closes hk (by decide)) t fun t' _ => continues_of_closes hk t') (by omega)
    (continues_of_closes hk t)) (by omega)

theorem assignment (h : Spelled lang ks e) (hk : closes k = true) :
    Reads (assignment lang) (32 * ks.length + 24) ks e (k :: rest) :=
  assignment_of_tier (h.tier hk .conversion) (by omega) hk

theorem stated (h : Spelled lang ks e) : Stated lang ks e where
  opens := by
    obtain ⟨first, tail, rfl, hfirst⟩ := h.opens
    refine ⟨first, tail, rfl, ?_⟩
    cases first <;> first | exact ⟨rfl, rfl⟩ | cases hfirst
  statements hk hsemi := statements_of_assignment (h.assignment hk) hsemi

end Spelled

/-! ### Leaves -/

theorem Atomic.leaf {k : TokenKind} (hk : opensOperand k = true)
    (h : ∀ fuel ts, Tokens.kind ts = k → Parser.atom lang (fuel + 1) ts = do .ok (e, ← ts.advance)) :
    Atomic lang [k] e := by
  refine ⟨⟨k, [], rfl, hk⟩, fun k' rest => Reads.mono (n := 1) (.of_succ fun fuel _ ts hts => ?_)
    (by simp)⟩
  obtain ⟨ts₁, h₁, hts₁⟩ := hts.advance (by simp)
  exact ⟨ts₁, by simp only [h fuel ts hts.kind, h₁, ok_bind], hts₁⟩

section

attribute [local simp] atom

theorem atomic_name (n : String) : Atomic lang [.name n] (.variable n) :=
  .leaf rfl fun _ _ h => by simp [h]

theorem atomic_number (x : Float) : Atomic lang [.number x] (.literal (.number x)) :=
  .leaf rfl fun _ _ h => by simp [h]

theorem atomic_string (s : String) : Atomic lang [.string s] (.literal (.string s)) :=
  .leaf rfl fun _ _ h => by simp [h]

theorem atomic_constant {n : String} {v : Value} (hv : lang.constant? n = some v) :
    Atomic lang [.constant n] (.literal v) :=
  .leaf rfl fun _ _ h => by simp [h, hv]

theorem atomic_undefined : Atomic lang [.undefined] .undefined :=
  .leaf rfl fun _ _ h => by simp [h]

end

/-! ### Parentheses -/

def inParens (ks : List TokenKind) : List TokenKind := .leftParen :: (ks ++ [.rightParen])

theorem length_inParens (ks : List TokenKind) : (inParens ks).length = ks.length + 2 := by
  simp [inParens]

/-- Statements in parentheses are an atom. -/
theorem atomic_statements {n : Nat}
    (h : ∀ k rest, Reads (statements lang) n ks e (.rightParen :: k :: rest))
    (hn : n < 32 * (ks.length + 2)) : Atomic lang (inParens ks) e := by
  refine ⟨⟨_, _, rfl, rfl⟩, fun k rest => Reads.mono (n := n + 1)
    (.of_succ fun fuel hf ts hts => ?_) (by rw [length_inParens]; omega)⟩
  simp only [inParens, List.cons_append, List.append_assoc, List.nil_append] at hts
  obtain ⟨ts₁, h₁, hts₁⟩ := hts.advance (by simp)
  obtain ⟨ts₂, h₂, hts₂⟩ := h k rest fuel hf ts₁ hts₁
  obtain ⟨ts₃, h₃, hts₃⟩ := hts₂.expect isRightParen ")" rfl (by simp)
  have hkind : ts.kind = .leftParen := hts.kind
  exact ⟨ts₃, by simp only [atom, hkind, h₁, h₂, h₃, ok_bind], hts₃⟩

theorem atomic_assignment {n : Nat}
    (h : ∀ rest, Reads (assignment lang) n ks e (.rightParen :: rest))
    (hn : n + 1 < 32 * (ks.length + 2)) : Atomic lang (inParens ks) e :=
  atomic_statements (fun k rest => statements_of_assignment (h (k :: rest)) rfl) hn

theorem atomic_tier {n : Nat} {t : Tier}
    (h : ∀ rest, Reads (fun fuel => tier lang fuel t) n ks e (.rightParen :: rest)) (hpos : 0 < n)
    (hn : n + 18 < 32 * (ks.length + 2)) : Atomic lang (inParens ks) e :=
  atomic_assignment (fun rest => assignment_of_tier (h rest) hpos rfl) hn

theorem atomic_factor {n : Nat} (h : ∀ rest, Reads (factor lang) n ks e (.rightParen :: rest))
    (hn : n + 20 < 32 * (ks.length + 2)) : Atomic lang (inParens ks) e :=
  atomic_tier (t := .conversion) (fun rest => tier_of_operand
    (operand_of_factor (h rest) .conversion fun _ h => absurd h (Nat.not_lt_zero _)) (by omega) rfl)
    (by omega) (by simp only [Tier.slack]; omega)

theorem atomic_paren (h : Spelled lang ks e) : Atomic lang (inParens ks) e :=
  atomic_assignment (fun _ => h.assignment rfl) (by omega)

/-! ### Prefix and postfix operators -/

section

variable {op : String}

theorem factor_sign (hsign : op = "-" ∨ op = "+") (hop : (lang.unaryOp? op).isSome = true)
    (h : Spelled lang ks e) {k : TokenKind} (hk : closes k = true) (rest : List TokenKind) :
    Reads (factor lang) (32 * ks.length + 6) (.op op :: ks) (.unary op e) (k :: rest) := by
  refine .of_succ fun fuel hf ts hts => ?_
  have hkind : ts.kind = .op op := hts.kind
  obtain ⟨ts₁, h₁, hts₁⟩ := Tokens.Shows.advance hts (by simp)
  obtain ⟨ts₂, h₂, hts₂⟩ := h.factor (links?_of_closes hk) (isOp_of_closes hk (by decide))
    (isOp_of_closes hk (by decide)) fuel hf ts₁ hts₁
  have hprefix : isPrefixOperator lang (.op op) = true := by
    rcases hsign with rfl | rfl <;> simp [isPrefixOperator, hop]
  have hunnamed : (op != "-" && op != "+") = false := by
    rcases hsign with rfl | rfl <;> rfl
  refine ⟨ts₂, ?_, hts₂⟩
  simp only [factor, hkind, hprefix, if_true, h₁, ok_bind, TokenKind.text, hunnamed,
    Bool.false_and, Bool.false_eq_true, if_false, h₂]

theorem atomic_sign (hsign : op = "-" ∨ op = "+") (hop : (lang.unaryOp? op).isSome = true)
    (h : Spelled lang ks e) : Atomic lang (inParens (.op op :: ks)) (.unary op e) :=
  atomic_factor (factor_sign hsign hop h rfl) (by simp; omega)

/-- An operand with its sign is a statement also without parentheses. -/
theorem stated_sign (hsign : op = "-" ∨ op = "+") (hop : (lang.unaryOp? op).isSome = true)
    (h : Spelled lang ks e) : Stated lang (.op op :: ks) (.unary op e) where
  opens := ⟨_, _, rfl, rfl, rfl⟩
  statements {k rest} hk hsemi := by
    have hoperand := operand_of_factor (factor_sign hsign hop h hk rest) .conversion
      fun t' _ => continues_of_closes hk t'
    have htier := tier_of_operand hoperand (by omega) (continues_of_closes hk _)
    exact (statements_of_assignment (assignment_of_tier htier (by omega) hk) hsemi).mono
      (by simp only [Tier.slack, List.length_cons]; omega)

/-- The operators written before their operand that are names. -/
structure Named (lang : Language Value) (op : String) : Prop where
  known : (lang.unaryOp? op).isSome = true
  named : (op != "-" && op != "+") = true
  ne_mark : op ≠ "!"

theorem Named.prefixed (hop : Named lang op) : isPrefixOperator lang (.op op) = true := by
  simp [isPrefixOperator, hop.known, hop.ne_mark]

/-- A named operator before a parenthesis has an atom as its operand. -/
theorem call_named (hop : Named lang op) (h : Atomic lang ks e) (k : TokenKind)
    (rest : List TokenKind) :
    Reads (call lang) (32 * ks.length + 1) (.op op :: ks) (.unary op e) (k :: rest) := by
  refine .of_succ fun fuel hf ts hts => ?_
  have hkind : ts.kind = .op op := hts.kind
  obtain ⟨ts₁, h₁, hts₁⟩ := Tokens.Shows.advance hts (by simp)
  obtain ⟨ts₂, h₂, hts₂⟩ := h.atom k rest fuel hf ts₁ hts₁
  refine ⟨ts₂, ?_, hts₂⟩
  simp only [call, hkind, hop.prefixed, if_true, h₁, ok_bind, TokenKind.text, h₂]

theorem factor_named_paren {tail : List TokenKind} (hop : Named lang op)
    (h : Atomic lang (.leftParen :: tail) e) (rest : List TokenKind) :
    Reads (factor lang) (32 * (tail.length + 1) + 4) (.op op :: .leftParen :: tail) (.unary op e)
      (.rightParen :: rest) := by
  have hpower := power_of_postfixed (postfixed_of_call (call_named hop h .rightParen rest)
    (by omega) rfl) (by omega) rfl
  refine .of_succ fun fuel hf ts hts => ?_
  have hkind : ts.kind = .op op := hts.kind
  obtain ⟨ts₁, h₁, hts₁⟩ := Tokens.Shows.advance hts (by simp)
  have hkind₁ : ts₁.kind = .leftParen := hts₁.kind
  obtain ⟨ts₂, h₂, hts₂⟩ := hpower fuel (by rw [List.length_cons]; omega) ts hts
  refine ⟨ts₂, ?_, hts₂⟩
  simp only [factor, hkind, hop.prefixed, if_true, h₁, ok_bind, TokenKind.text, hop.named, hkind₁,
    isLeftParen, Bool.and_self, h₂]

theorem factor_named_other {k : TokenKind} {tail : List TokenKind} (hop : Named lang op)
    (h : Spelled lang (k :: tail) e) (hk : isLeftParen k = false) (rest : List TokenKind) :
    Reads (factor lang) (32 * (tail.length + 1) + 6) (.op op :: k :: tail) (.unary op e)
      (.rightParen :: rest) := by
  refine .of_succ fun fuel hf ts hts => ?_
  have hkind : ts.kind = .op op := hts.kind
  obtain ⟨ts₁, h₁, hts₁⟩ := Tokens.Shows.advance hts (by simp)
  have hkind₁ : ts₁.kind = k := hts₁.kind
  obtain ⟨ts₂, h₂, hts₂⟩ := h.factor rfl rfl rfl fuel hf ts₁ hts₁
  have hends : endsOperand k = false := by
    obtain ⟨first, tail', heq, hfirst⟩ := h.opens
    cases heq
    cases k <;> first | rfl | cases hfirst
  refine ⟨ts₂, ?_, hts₂⟩
  simp only [factor, hkind, hop.prefixed, if_true, h₁, ok_bind, TokenKind.text, hop.named, hkind₁,
    hk, Bool.and_false, Bool.false_eq_true, if_false, hends, h₂]

/-- A named operator with an operand that is an atom or does not start with a parenthesis. -/
theorem atomic_named (hop : Named lang op) (h : Spelled lang ks e)
    (hatomic : ks.head? = some .leftParen → Atomic lang ks e) :
    Atomic lang (inParens (.op op :: ks)) (.unary op e) := by
  obtain ⟨k, tail, rfl, hk⟩ := h.opens
  by_cases hparen : isLeftParen k = true
  · obtain rfl : k = .leftParen := by
      cases k <;> first | rfl | cases hparen
    exact atomic_factor (factor_named_paren hop (hatomic rfl)) (by simp; omega)
  · exact atomic_factor (factor_named_other hop h (Bool.not_eq_true _ ▸ hparen)) (by simp; omega)

theorem postfixed_mark (h : Spelled lang ks e) (k : TokenKind) (rest : List TokenKind)
    (hk : k.isOp "!" = false) :
    Reads (postfixed lang) (32 * ks.length + 4) (ks ++ [.op "!"]) (.unary "!" e) (k :: rest) := by
  have hcall : Reads (call lang) (1 + 32 * ks.length + 1) (ks ++ []) e (.op "!" :: k :: rest) :=
    h.call (links_stop lang rfl e)
  rw [List.append_nil] at hcall
  refine .of_succ fun fuel hf ts hts => ?_
  rw [List.append_assoc] at hts
  obtain ⟨ts₁, h₁, hts₁⟩ := hcall fuel (by omega) ts hts
  obtain ⟨fuel, rfl⟩ : ∃ f, fuel = f + 1 := ⟨fuel - 1, by omega⟩
  have hkind₁ : ts₁.kind = .op "!" := hts₁.kind
  obtain ⟨ts₂, h₂, hts₂⟩ := hts₁.advance (by simp)
  obtain ⟨ts₃, h₃, hts₃⟩ := marks_stop lang hk (.unary "!" e) fuel (by omega) ts₂ hts₂
  refine ⟨ts₃, ?_, hts₃⟩
  simp only [postfixed, h₁, ok_bind, marks, Tokens.isOp, hkind₁, TokenKind.isOp, beq_self_eq_true,
    if_true, h₂, h₃]

theorem atomic_mark (h : Spelled lang ks e) :
    Atomic lang (inParens (ks ++ [.op "!"])) (.unary "!" e) := by
  refine atomic_factor (n := 32 * ks.length + 6) (fun rest => ?_) (by simp; omega)
  have hpower := power_of_postfixed (postfixed_mark h .rightParen rest rfl) (by omega) rfl
  obtain ⟨first, tail, rfl, hfirst⟩ := h.opens
  exact factor_of_power hpower (not_prefix_of_opens hfirst)

end

/-! ### Operators between operands -/

/-- An operator that no call, mark or power goes on with. -/
def isInfix (op : String) : Bool := op != "." && op != "!" && op != "^"

theorem Spelled.left (h : Spelled lang ks e) {op : String} (hop : isInfix op = true) (t : Tier)
    (hk : ∀ t' : Tier, t'.slack < t.slack → t'.continues (.op op) = false)
    (rest : List TokenKind) :
    Reads (fun fuel => Parser.operand lang fuel t) (32 * ks.length + 6 + 2 * t.slack) ks e
      (.op op :: rest) := by
  simp only [isInfix, Bool.and_eq_true, bne_iff_ne, ne_eq] at hop
  obtain ⟨⟨hpoint, hmark⟩, hpower⟩ := hop
  exact h.operand (by simpa [links?] using hpoint) (by simpa [TokenKind.isOp] using hmark)
    (by simpa [TokenKind.isOp] using hpower) t hk

theorem operators_apart {t t' : Tier} {op : String} (hop : op ∈ t.operators)
    (ht : t'.slack < t.slack) : t'.continues (.op op) = false := by
  revert op
  cases t <;> cases t' <;> first | exact absurd ht (by decide) | decide

theorem isInfix_of_operators {t : Tier} {op : String} (hop : op ∈ t.operators) : isInfix op = true := by
  revert op
  cases t <;> decide

/-- Two operands with an operator of a tier between them. -/
theorem tier_binary {t : Tier} {op : String} (hop : op ∈ t.operators) (h : Spelled lang ks e)
    (h' : Spelled lang ls e') (rest : List TokenKind) :
    Reads (fun fuel => tier lang fuel t) (32 * (ks.length + ls.length) + 2 * t.slack + 8)
      (ks ++ .op op :: ls) (.binary op e e') (.rightParen :: rest) := by
  refine .of_succ fun fuel hf ts hts => ?_
  rw [List.append_assoc] at hts
  obtain ⟨ts₁, h₁, hts₁⟩ := h.left (isInfix_of_operators hop) t (fun _ => operators_apart hop) _ fuel
    (by omega) ts hts
  have hkind₁ : ts₁.kind = .op op := hts₁.kind
  obtain ⟨fuel, rfl⟩ : ∃ f, fuel = f + 1 := ⟨fuel - 1, by omega⟩
  obtain ⟨ts₂, h₂, hts₂⟩ := Tokens.Shows.advance hts₁ (by simp)
  obtain ⟨ts₃, h₃, hts₃⟩ := h'.operand (k := .rightParen) rfl rfl rfl t
    (fun t' _ => continues_of_closes rfl t') fuel (by omega) ts₂ hts₂
  obtain ⟨ts₄, h₄, hts₄⟩ := chain_stop lang (t := t) (continues_of_closes rfl t) (.binary op e e')
    fuel (by omega) ts₃ hts₃
  refine ⟨ts₄, ?_, hts₄⟩
  simp only [tier, h₁, ok_bind, chain, Tokens.anyOf?, hkind₁, List.contains_iff_mem, hop, if_true,
    h₂, h₃, h₄]

theorem atomic_binary {t : Tier} {op : String} (hop : op ∈ t.operators) (h : Spelled lang ks e)
    (h' : Spelled lang ls e') :
    Atomic lang (inParens (ks ++ .op op :: ls)) (.binary op e e') := by
  refine atomic_tier (tier_binary hop h h') (by omega) ?_
  have hslack : t.slack ≤ 8 := by cases t <;> decide
  simp only [List.length_append, List.length_cons]
  omega

theorem atomic_power (h : Spelled lang ks e) (h' : Spelled lang ls e') :
    Atomic lang (inParens (ks ++ .op "^" :: ls)) (.binary "^" e e') := by
  refine atomic_factor (n := 32 * (ks.length + ls.length) + 8) (fun rest => ?_) (by simp; omega)
  have hpower : Reads (power lang) (32 * (ks.length + ls.length) + 7) (ks ++ .op "^" :: ls)
      (.binary "^" e e') (.rightParen :: rest) := by
    refine .of_succ fun fuel hf ts hts => ?_
    rw [List.append_assoc] at hts
    obtain ⟨ts₁, h₁, hts₁⟩ := h.postfixed (k := .op "^") rfl rfl fuel (by omega) ts hts
    have hkind₁ : ts₁.kind = .op "^" := hts₁.kind
    obtain ⟨fuel, rfl⟩ : ∃ f, fuel = f + 1 := ⟨fuel - 1, by omega⟩
    obtain ⟨ts₂, h₂, hts₂⟩ := Tokens.Shows.advance hts₁ (by simp)
    obtain ⟨ts₃, h₃, hts₃⟩ := h'.factor (k := .rightParen) rfl rfl rfl fuel (by omega)
      ts₂ hts₂
    obtain ⟨ts₄, h₄, hts₄⟩ := powers_stop lang rfl (.binary "^" e e') fuel (by omega) ts₃ hts₃
    refine ⟨ts₄, ?_, hts₄⟩
    simp only [power, h₁, ok_bind, powers, Tokens.isOp, hkind₁, TokenKind.isOp, beq_self_eq_true,
      if_true, h₂, h₃, h₄]
  obtain ⟨first, tail, rfl, hfirst⟩ := h.opens
  exact factor_of_power hpower (not_prefix_of_opens hfirst)

/-- The tier of a connective. -/
def connectiveTier : Connective → Tier
  | .either => .disjunction
  | .both => .conjunction

theorem atomic_connective (c : Connective) (h : Spelled lang ks e) (h' : Spelled lang ls e') :
    Atomic lang (inParens (ks ++ .op c.symbol :: ls)) (.connective c e e') := by
  have hslack : (connectiveTier c).slack ≤ 6 := by cases c <;> decide
  refine atomic_tier (t := connectiveTier c)
    (n := 32 * (ks.length + ls.length) + 2 * (connectiveTier c).slack + 8) (fun rest => ?_) (by omega)
    (by simp only [List.length_append, List.length_cons]; omega)
  refine .of_succ fun fuel hf ts hts => ?_
  rw [List.append_assoc] at hts
  have hapart : ∀ t' : Tier, t'.slack < (connectiveTier c).slack →
      t'.continues (.op c.symbol) = false := by
    cases c <;> intro t' ht' <;> cases t' <;> first | exact absurd ht' (by decide) | decide
  obtain ⟨ts₁, h₁, hts₁⟩ := h.left (by cases c <;> decide) (connectiveTier c) hapart _ fuel
    (by omega) ts hts
  have hkind₁ : ts₁.kind = .op c.symbol := hts₁.kind
  obtain ⟨fuel, rfl⟩ : ∃ f, fuel = f + 1 := ⟨fuel - 1, by omega⟩
  obtain ⟨ts₂, h₂, hts₂⟩ := Tokens.Shows.advance hts₁ (by simp)
  obtain ⟨ts₃, h₃, hts₃⟩ := h'.operand (k := .rightParen) rfl rfl rfl
    (connectiveTier c) (fun t' _ => continues_of_closes rfl t') fuel (by omega) ts₂ hts₂
  obtain ⟨ts₄, h₄, hts₄⟩ := chain_stop lang (t := connectiveTier c) (continues_of_closes rfl _)
    (.connective c e e') fuel (by omega) ts₃ hts₃
  refine ⟨ts₄, ?_, hts₄⟩
  have hnone : ts₁.anyOf? (connectiveTier c).operators = none :=
    anyOf?_eq_none (by cases c <;> rfl)
  cases c <;>
    simp only [connectiveTier] at h₁ h₃ h₄ hnone <;>
    simp only [tier, connectiveTier, h₁, ok_bind, chain, hnone, Tier.connective?, Tokens.isOp, hkind₁,
      TokenKind.isOp, beq_self_eq_true, if_true, h₂, h₃, h₄]

section

variable {ms : List TokenKind} {e'' : Expr}

theorem atomic_conditional (h : Spelled lang ks e) (h' : Spelled lang ls e')
    (h'' : Spelled lang ms e'') :
    Atomic lang (inParens (ks ++ .op "?" :: (ls ++ .op ":" :: ms))) (.conditional e e' e'') := by
  refine atomic_tier (t := .conditional) (n := 32 * (ks.length + ls.length + ms.length) + 26)
    (fun rest => .of_succ fun fuel hf ts hts => ?_) (by omega) (by simp; omega)
  simp only [List.append_assoc, List.cons_append] at hts
  obtain ⟨ts₁, h₁, hts₁⟩ := h.left (show isInfix "?" = true by decide) .conditional
    (fun t' ht' => by cases t' <;> first | exact absurd ht' (by decide) | decide) _ fuel
    (by simp only [Tier.slack]; omega) ts hts
  have hkind₁ : ts₁.kind = .op "?" := hts₁.kind
  obtain ⟨fuel, rfl⟩ : ∃ f, fuel = f + 1 := ⟨fuel - 1, by omega⟩
  obtain ⟨ts₂, h₂, hts₂⟩ := hts₁.advance (by simp)
  obtain ⟨ts₃, h₃, hts₃⟩ := h'.tier (k := .op ":") rfl .coalescing fuel
    (by simp only [Tier.slack]; omega) ts₂ hts₂
  obtain ⟨ts₄, h₄, hts₄⟩ := hts₃.expect (·.isOp ":") ":" rfl (by simp)
  obtain ⟨ts₅, h₅, hts₅⟩ := h''.tier (k := .rightParen) rfl .coalescing fuel
    (by simp only [Tier.slack]; omega) ts₄ hts₄
  obtain ⟨ts₆, h₆, hts₆⟩ := chain_stop lang (t := .conditional) (continues_of_closes rfl _)
    (.conditional e e' e'') fuel (by omega) ts₅ hts₅
  refine ⟨ts₆, ?_, hts₆⟩
  have hnone : ts₁.anyOf? (Tier.operators .conditional) = none := anyOf?_eq_none rfl
  have hquestion : ts₁.isOp "?" = true := by
    rw [Tokens.isOp, hkind₁]
    rfl
  simp only [tier, h₁, ok_bind, chain, hnone, hquestion, if_true, h₂, h₃, h₄, h₅, h₆]

end

/-! ### Assignments and sequences -/

/-- What stands left of the sign of an assignment. -/
theorem Spelled.target (h : Spelled lang ks e) (rest : List TokenKind) :
    Reads (fun fuel => Parser.tier lang fuel .coalescing) (32 * ks.length + 23) ks e
      (.op "=" :: rest) :=
  Reads.mono (tier_of_operand (h.left (show isInfix "=" = true by decide) .coalescing
    (fun t' _ => by cases t' <;> decide) rest) (by omega) (by decide))
    (by simp only [Tier.slack]; omega)

theorem atomic_assign {root : String} {members : List String} (h : Spelled lang ks e)
    (htarget : e.target? = some (.path root members)) (h' : Spelled lang ls e') :
    Atomic lang (inParens (ks ++ .op "=" :: ls)) (.assign root members e') := by
  refine atomic_assignment (n := 32 * (ks.length + ls.length) + 25)
    (fun rest => .of_succ fun fuel hf ts hts => ?_) (by simp; omega)
  rw [List.append_assoc] at hts
  obtain ⟨ts₁, h₁, hts₁⟩ := h.target _ fuel (by omega) ts hts
  have hkind₁ : ts₁.kind = .op "=" := hts₁.kind
  obtain ⟨ts₂, h₂, hts₂⟩ := Tokens.Shows.advance hts₁ (by simp)
  obtain ⟨ts₃, h₃, hts₃⟩ := h'.assignment (k := .rightParen) rfl fuel (by omega) ts₂
    hts₂
  refine ⟨ts₃, ?_, hts₃⟩
  have hcall : e.isCall = false := by
    cases e with
    | call f args =>
      simp only [Expr.target?] at htarget
      split at htarget <;> cases htarget
    | _ => rfl
  simp only [assignment, h₁, ok_bind, Tokens.isOp, hkind₁, TokenKind.isOp, beq_self_eq_true,
    if_true, h₂, hcall, Bool.false_and, Bool.false_eq_true, if_false, htarget, h₃]

theorem atomic_define {name : String} {params : List String} (h : Spelled lang ks e)
    (htarget : e.target? = some (.function name params)) (h' : Spelled lang ls e')
    (hpermitted : lang.isOperatorEnabled "()=" = true) :
    Atomic lang (inParens (ks ++ .op "=" :: ls)) (.define name params e') := by
  refine atomic_assignment (n := 32 * (ks.length + ls.length) + 25)
    (fun rest => .of_succ fun fuel hf ts hts => ?_) (by simp; omega)
  rw [List.append_assoc] at hts
  obtain ⟨ts₁, h₁, hts₁⟩ := h.target _ fuel (by omega) ts hts
  have hkind₁ : ts₁.kind = .op "=" := hts₁.kind
  obtain ⟨ts₂, h₂, hts₂⟩ := Tokens.Shows.advance hts₁ (by simp)
  obtain ⟨ts₃, h₃, hts₃⟩ := h'.assignment (k := .rightParen) rfl fuel (by omega) ts₂
    hts₂
  refine ⟨ts₃, ?_, hts₃⟩
  simp only [assignment, h₁, ok_bind, Tokens.isOp, hkind₁, TokenKind.isOp, beq_self_eq_true,
    if_true, h₂, hpermitted, Bool.not_true, Bool.and_false, Bool.false_eq_true, if_false, htarget,
    h₃]

theorem atomic_sequence (h : Spelled lang ks e) (h' : Spelled lang ls e') :
    Atomic lang (inParens (ks ++ .semicolon :: ls)) (.sequence e e') := by
  refine atomic_statements (n := 32 * (ks.length + ls.length) + 26)
    (fun k rest => .of_succ fun fuel hf ts hts => ?_) (by simp; omega)
  rw [List.append_assoc] at hts
  obtain ⟨ts₁, h₁, hts₁⟩ := h.assignment (k := .semicolon) rfl fuel (by omega) ts hts
  have hkind₁ : ts₁.kind = .semicolon := hts₁.kind
  obtain ⟨ts₂, h₂, hts₂⟩ := Tokens.Shows.advance hts₁ (by simp)
  obtain ⟨ts₃, h₃, hts₃⟩ := h'.stated.statements (k := .rightParen) rfl rfl fuel
    (by omega) ts₂ hts₂
  refine ⟨ts₃, ?_, hts₃⟩
  have hmore : endsStatements ts₂.kind = false := by
    obtain ⟨first, tail, rfl, hfirst⟩ := h'.opens
    rw [Tokens.Shows.kind hts₂]
    cases first <;> first | rfl | cases hfirst
  simp only [statements, h₁, ok_bind, hkind₁, isSemicolon, if_true, h₂, hmore, Bool.false_eq_true,
    if_false, h₃]

/-! ### Links -/

theorem Spelled.member {k : TokenKind} {name : String} (h : Spelled lang ks e)
    (hk : memberName? k = some name) :
    Spelled lang (ks ++ [.op ".", k]) (.member e name) := by
  obtain ⟨first, tail, rfl, hfirst⟩ := h.opens
  refine ⟨⟨first, tail ++ [.op ".", k], rfl, hfirst⟩, fun {n more a k' rest} hlinks => ?_⟩
  have hlink : Reads (fun fuel => links lang fuel e) (n + 1) (.op "." :: k :: more) a
      (k' :: rest) := by
    refine .of_succ fun fuel hf ts hts => ?_
    have hkind : ts.kind = .op "." := hts.kind
    obtain ⟨ts₁, h₁, hts₁⟩ := Tokens.Shows.advance hts (by simp)
    have hkind₁ : ts₁.kind = k := hts₁.kind
    obtain ⟨ts₂, h₂, hts₂⟩ := Tokens.Shows.advance hts₁ (by simp)
    obtain ⟨ts₃, h₃, hts₃⟩ := hlinks fuel hf ts₂ hts₂
    refine ⟨ts₃, ?_, hts₃⟩
    simp only [links, hkind, isLeftParen, Bool.false_eq_true, if_false, Tokens.isOp, TokenKind.isOp,
      beq_self_eq_true, if_true, h₁, ok_bind, memberName, hkind₁, hk, h₂, h₃]
  have := h.call hlink
  rw [List.append_assoc]
  exact this.mono (by simp; omega)

theorem Spelled.index (h : Spelled lang ks e) (h' : Spelled lang ls e') :
    Spelled lang (ks ++ .leftBracket :: (ls ++ [.rightBracket])) (.binary "[" e e') := by
  obtain ⟨first, tail, rfl, hfirst⟩ := h.opens
  refine ⟨⟨first, _, rfl, hfirst⟩, fun {n more a k' rest} hlinks => ?_⟩
  have hlink : Reads (fun fuel => links lang fuel e) (n + 32 * ls.length + 26)
      (.leftBracket :: (ls ++ [.rightBracket]) ++ more) a (k' :: rest) := by
    refine .of_succ fun fuel hf ts hts => ?_
    simp only [List.cons_append, List.append_assoc, List.nil_append] at hts
    have hkind : ts.kind = .leftBracket := hts.kind
    obtain ⟨ts₁, h₁, hts₁⟩ := hts.advance (by simp)
    obtain ⟨ts₂, h₂, hts₂⟩ := h'.stated.statements (k := .rightBracket) rfl rfl fuel (by omega) ts₁ hts₁
    obtain ⟨ts₃, h₃, hts₃⟩ := hts₂.expect isRightBracket "]" rfl (by simp)
    obtain ⟨ts₄, h₄, hts₄⟩ := hlinks fuel (by omega) ts₃ hts₃
    refine ⟨ts₄, ?_, hts₄⟩
    simp only [links, hkind, isLeftParen, Bool.false_eq_true, if_false, Tokens.isOp, TokenKind.isOp,
      isLeftBracket, if_true, h₁, ok_bind, h₂, h₃, h₄]
  have := h.call hlink
  rw [List.append_assoc]
  exact this.mono (by simp; omega)

end Formula.Parser
