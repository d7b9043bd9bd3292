import Formula.Expr.Render
import Formula.Proofs.Expr.Every
import Formula.Proofs.Printed.Blocks
import Formula.Proofs.Printed.Words

/-!
# Texts of expressions

The text of an expression is read as tokens of that expression, whatever text it stands before, as
long as that text does not go on with its last name or number. One lemma for each form of
expression makes its text and its tokens of those of its parts.
-/

open Formula.Lexer Formula.Parser

namespace Formula

/-! ### Texts before texts -/

/-- Before such a character a name ends. -/
def endsName (c : Char) : Bool := !isNamePart c

/-- Before such a character a number ends. -/
def endsNumber (c : Char) : Bool := !isNamePart c && c != '.'

/-- A text of tokens of certain kinds before a text that starts with a suitable character. -/
def Yields (lang : Language Value) (ends : Char → Bool) (cs : List Char) (ks : List TokenKind) :
    Prop :=
  ∀ rest ls, (∀ c ∈ rest.head?, ends c = true) → Lexes lang rest ls →
    Lexes lang (cs ++ rest) (ks ++ ls)

/-- A text of tokens of which something holds. -/
def Legible (lang : Language Value) (ends : Char → Bool) (cs : List Char)
    (Q : List TokenKind → Prop) : Prop :=
  ∃ ks, Q ks ∧ Yields lang ends cs ks

def enclosed (cs : List Char) : List Char := '(' :: (cs ++ [')'])

/-- Two operands with an operator and blanks between them. -/
def spaced (left : List Char) (op : String) (right : List Char) : List Char :=
  left ++ ' ' :: (op.toList ++ ' ' :: right)

theorem head_ends {ends : Char → Bool} {c : Char} (h : ends c = true) (rest : List Char) :
    ∀ d ∈ (c :: rest).head?, ends d = true := by
  intro d hd
  cases hd
  exact h

variable {lang : Language Value} {ends ends' : Char → Bool} {cs ds : List Char}
  {ks ls : List TokenKind}

namespace Yields

theorem mono (h : Yields lang ends cs ks) (hends : ∀ c, ends' c = true → ends c = true) :
    Yields lang ends' cs ks :=
  fun rest ls hrest => h rest ls fun c hc => hends c (hrest c hc)

theorem token {k : TokenKind}
    (h : ∀ rest, (∀ c ∈ rest.head?, ends c = true) → Begins lang (cs ++ rest) k rest) :
    Yields lang ends cs [k] :=
  fun rest _ hrest hlex => (h rest hrest).lexes hlex

theorem punctuation {c : Char} {k : TokenKind} (hk : punctuation? c = some k)
    (henabled : ∀ op ∈ bracketOperator? k, lang.isOperatorEnabled op = true) :
    Yields lang ends [c] [k] :=
  token fun _ _ => begins_punctuation hk henabled

/-- A text before a text that starts with a suitable character. -/
theorem append {d : Char} (h : Yields lang ends cs ks) (hd : ends d = true)
    (h' : Yields lang ends' (d :: ds) ls) : Yields lang ends' (cs ++ d :: ds) (ks ++ ls) := by
  intro rest ms hrest hlex
  rw [List.append_assoc, List.append_assoc]
  exact h _ _ (head_ends hd _) (h' rest ms hrest hlex)

theorem blank (h : Yields lang ends cs ks) : Yields lang ends (' ' :: cs) ks :=
  fun rest ls hrest hlex => (h rest ls hrest hlex).blank

theorem enclosed (ends' : Char → Bool) (h : Yields lang ends cs ks) (hends : ends ')' = true) :
    Yields lang ends' (enclosed cs) (inParens ks) := by
  have hright : Yields lang ends' [')'] [.rightParen] := punctuation rfl fun _ h => by cases h
  have hleft : Yields lang (fun _ => true) ['('] [.leftParen] :=
    punctuation rfl fun _ h => by cases h
  intro rest ls hrest hlex
  simp only [Formula.enclosed, inParens, List.cons_append, List.append_assoc, List.nil_append]
  exact hleft _ _ (fun _ _ => rfl) (h _ _ (head_ends hends _) (hright rest ls hrest hlex))

end Yields

/-- The operators that stand between blanks: symbols, and words that are enabled. -/
def IsInfix (lang : Language Value) (op : String) : Prop :=
  op ∈ operatorSymbols ∨ op ∈ ["and", "or", "in", "as"] ∧ lang.isOperatorEnabled op = true

namespace Language.Writes

variable (hlang : lang.Writes)
include hlang

theorem infixed {op : String} (hop : IsInfix lang op) (h : Yields lang ends cs ks) :
    Yields lang ends (op.toList ++ ' ' :: cs) (.op op :: ks) := by
  intro rest ls hrest hlex
  have hcs := (h rest ls hrest hlex).blank
  rw [List.append_assoc, List.cons_append]
  rcases hop with hop | ⟨hop, henabled⟩
  · exact (begins_symbol hop (hlang.enabled op (List.mem_append_left _ hop))).lexes hcs
  · have hwords : ∀ op ∈ ["and", "or", "in", "as"], isIdentifier op = true := by decide
    have hname := begins_name lang (hwords op hop) fun c
      (hc : c ∈ (' ' :: (cs ++ rest)).head?) => by cases hc; rfl
    rw [hlang.word op hop henabled] at hname
    exact hname.lexes hcs

theorem spaced {op : String} (hop : IsInfix lang op)
    (h : Yields lang ends cs ks) (hends : ends ' ' = true) (h' : Yields lang ends' ds ls) :
    Yields lang ends' (spaced cs op ds) (ks ++ .op op :: ls) :=
  h.append hends (hlang.infixed hop h').blank

end Language.Writes

/-! ### Kinds of expression -/

namespace Expr

/-- The characters of the text of an expression. -/
def text (e : Expr) : List Char := (e.render .formula).toList

/-- Calls, members and indices. -/
def isChain : Expr → Bool
  | .call _ _ | .member _ _ => true
  | .binary op _ _ => op == "["
  | _ => false

/-- Whether the text of an expression starts with a parenthesis. -/
def opensParen : Expr → Bool
  | .unary _ _ | .connective _ _ _ | .conditional _ _ _ | .assign _ _ _ | .define _ _ _
  | .sequence _ _ | .closed _ => true
  | .binary op l _ => op != "[" || opensParen l
  | .call f _ => opensParen f
  | .member e _ => opensParen e
  | _ => false

def isNumber : Expr → Bool
  | .literal (.number _) => true
  | _ => false

/-- The characters before which the text of an expression ends. -/
def endsAt (e : Expr) : Char → Bool := if e.isNumber then endsNumber else endsName

/-- The characters that stand behind an expression in a longer one. -/
def delimiters : List Char := [' ', ',', ';', '!', '(', ')', '[', ']']

theorem delimiters_end : ∀ c ∈ delimiters, endsNumber c = true :=
  List.all_eq_true.mp (by decide)

theorem endsAt_of_endsNumber (e : Expr) {c : Char} (h : endsNumber c = true) :
    e.endsAt c = true := by
  unfold endsAt
  split
  · exact h
  · exact (Bool.and_eq_true_iff.mp h).1

/-- The text of an expression ends before a delimiter. -/
theorem endsAt_delimiter (e : Expr) {c : Char} (h : c ∈ delimiters) : e.endsAt c = true :=
  e.endsAt_of_endsNumber (delimiters_end c h)

/-- Tokens that are read as an expression: as an atom or, of a chain, as the start of a call. -/
structure Form (lang : Language Value) (e : Expr) (ks : List TokenKind) : Prop where
  spelled : Spelled lang ks e
  atomic : e.isChain = false → Atomic lang ks e
  paren : ks.head? = some .leftParen → e.opensParen = true

/-- An expression whose text is read as another one. -/
def ReadAs (lang : Language Value) (e e' : Expr) : Prop :=
  Legible lang e.endsAt e.text (e'.Form lang)

/-- An expression whose text is read as itself. -/
abbrev Reread (lang : Language Value) (e : Expr) : Prop := e.ReadAs lang e

variable {e e' l l' r r' : Expr}

theorem Form.ofAtomic (h : Atomic lang ks e) (hparen : ks.head? = some .leftParen → e.opensParen = true) :
    e.Form lang ks :=
  ⟨h.spelled, fun _ => h, hparen⟩

theorem ReadAs.spelled (h : e.ReadAs lang e') :
    Legible lang e.endsAt e.text fun ks => Spelled lang ks e' := by
  obtain ⟨ks, hks, htext⟩ := h
  exact ⟨ks, hks.spelled, htext⟩

/-- An expression in parentheses of its own. -/
theorem readAs_enclosed (h : Atomic lang (inParens ks) e') (hparen : e'.opensParen = true)
    (htext : e.text = enclosed cs) (hcs : Yields lang ends cs ks) (hends : ends ')' = true) :
    e.ReadAs lang e' :=
  ⟨inParens ks, .ofAtomic h fun _ => hparen, htext ▸ hcs.enclosed _ hends⟩

/-- An expression of one token. -/
theorem reread_token {k : TokenKind} (h : Atomic lang [k] e) (hk : isLeftParen k = false)
    (hcs : Yields lang e.endsAt e.text [k]) : e.Reread lang := by
  refine ⟨[k], .ofAtomic h fun hparen => ?_, hcs⟩
  obtain rfl : k = .leftParen := by simpa using hparen
  cases hk

/-! ### Leaves -/

theorem yields_name (lang : Language Value) {name : String} (h : isIdentifier name = true) :
    Yields lang endsName name.toList [nameKind lang name] :=
  .token fun _ hrest => begins_name lang h fun c hc => by simpa [endsName] using hrest c hc

/-- A name that is read as a variable. -/
def IsPlain (lang : Language Value) (name : String) : Prop :=
  isIdentifier name = true ∧ nameKind lang name = .name name

theorem reread_variable {name : String} (h : IsPlain lang name) :
    (Expr.variable name).Reread lang := by
  refine reread_token (atomic_name name) rfl ?_
  have := yields_name lang h.1
  rwa [h.2] at this

theorem reread_undefined (hlang : lang.Writes) : undefined.Reread lang := by
  refine reread_token atomic_undefined rfl ?_
  have := yields_name lang (show isIdentifier "undefined" = true by decide)
  rwa [hlang.undefined] at this

theorem yields_number {x : Float} (hx : Number.Unsigned x) :
    Yields lang endsNumber (Number.text x).toList [.number x] :=
  .token fun _ hrest => begins_number hx fun c hc => by simpa [endsNumber] using hrest c hc

theorem reread_number {x : Float} (hx : Number.Unsigned x) :
    (literal (.number x)).Reread lang := by
  refine reread_token (atomic_number x) rfl ?_
  have htext : (literal (.number x)).text = (Number.text x).toList := by
    simp only [text, render, literalText, if_neg hx.not_neg]
  rw [htext]
  exact yields_number hx

theorem reread_string (s : String) : (literal (.string s)).Reread lang := by
  refine reread_token (atomic_string s) rfl ?_
  exact .token fun _ _ => begins_string s

theorem reread_bool (hlang : lang.Writes) (b : Bool) : (literal (.bool b)).Reread lang := by
  obtain ⟨hkind, hvalue⟩ := hlang.truth b
  refine reread_token (atomic_constant hvalue) rfl ?_
  have := yields_name lang (show isIdentifier (truthName b) = true by cases b <;> decide)
  rwa [hkind] at this

/-! ### Operators -/

attribute [local simp] text render Dialect.unary Dialect.between Dialect.connective
  Dialect.separator enclosed spaced

theorem formula_binary (op left right : String) : Dialect.formula.binary op left right =
    if op = "[" then left ++ "[" ++ right ++ "]" else Dialect.between left op right := rfl

/-- The operators of two operands are indices, powers, and those of the tiers. -/
theorem tier_of_binary {op : String} (h : op ∈ Operation.binaryTable.map Prod.fst)
    (hne : op ∉ Instruction.connectives) : op = "[" ∨ op = "^" ∨ ∃ t : Tier, op ∈ t.operators := by
  simp only [Operation.binaryTable, List.map_cons, List.map_nil, List.mem_cons, List.not_mem_nil,
    or_false] at h
  have hof : ∀ t : Tier, op ∈ t.operators → op = "[" ∨ op = "^" ∨ ∃ t : Tier, op ∈ t.operators :=
    fun t ht => .inr (.inr ⟨t, ht⟩)
  rcases h with rfl | rfl | rfl | rfl | rfl | rfl | rfl | rfl | rfl | rfl | rfl | rfl | rfl | rfl |
    rfl | rfl | rfl | rfl | rfl
  · exact hof .additive (by decide)
  · exact hof .additive (by decide)
  · exact hof .multiplicative (by decide)
  · exact hof .multiplicative (by decide)
  · exact hof .multiplicative (by decide)
  · exact .inr (.inl rfl)
  · exact hof .additive (by decide)
  · exact hof .comparison (by decide)
  · exact hof .comparison (by decide)
  · exact hof .comparison (by decide)
  · exact hof .comparison (by decide)
  · exact hof .comparison (by decide)
  · exact hof .comparison (by decide)
  · exact .inl rfl
  · exact absurd (by decide) hne
  · exact absurd (by decide) hne
  · exact hof .membership (by decide)
  · exact hof .coalescing (by decide)
  · exact hof .conversion (by decide)

theorem isInfix_of_tier {op : String} {t : Tier} (h : op ∈ t.operators)
    (henabled : lang.isOperatorEnabled op = true) : IsInfix lang op := by
  have hwritten : ∀ op ∈ t.operators, op ∈ operatorSymbols ∨ op ∈ ["and", "or", "in", "as"] := by
    cases t <;> decide
  exact (hwritten op h).imp_right fun hword => ⟨hword, henabled⟩

section

variable (hlang : lang.Writes)
include hlang

theorem readAs_unary_sign {op : String} (hop : op = "-" ∨ op = "+") (he : e.ReadAs lang e') :
    (unary op e).ReadAs lang (unary op e') := by
  obtain ⟨ks, hks, htext⟩ := he
  have hknown := hlang.sign op (by rcases hop with rfl | rfl <;> decide)
  have henabled := hlang.enabled op (by rcases hop with rfl | rfl <;> decide)
  have htoken : Yields lang e.endsAt (op.toList ++ e.text) (.op op :: ks) := by
    intro rest ls hrest hlex
    rw [List.append_assoc]
    exact (begins_sign (by rcases hop with rfl | rfl <;> decide) henabled).lexes
      (htext rest ls hrest hlex)
  exact readAs_enclosed (atomic_sign hop hknown hks.spelled) rfl
    (by rcases hop with rfl | rfl <;> simp) htoken (endsAt_delimiter e (by decide))

theorem readAs_unary_mark (he : e.ReadAs lang e') : (unary "!" e).ReadAs lang (unary "!" e') := by
  obtain ⟨ks, hks, htext⟩ := he
  refine ⟨inParens (ks ++ [.op "!"]), .ofAtomic (atomic_mark hks.spelled) fun _ => rfl, ?_⟩
  have hshape : (unary "!" e).text = '(' :: (e.text ++ ['!', ')']) := by
    simp
  rw [hshape]
  intro rest ls hrest hlex
  simp only [inParens, List.cons_append, List.append_assoc, List.nil_append]
  have hright : Lexes lang (')' :: rest) (.rightParen :: ls) :=
    (begins_punctuation rfl fun _ h => by cases h).lexes hlex
  have hmark := (begins_mark rest (hlang.enabled "!" (by decide))).lexes hright
  exact (begins_punctuation rfl fun _ h => by cases h).lexes
    (htext _ _ (head_ends (endsAt_delimiter e (by decide)) _) hmark)

theorem readAs_unary_named {op : String} (hknown : (lang.unaryOp? op).isSome)
    (hop : op ∉ ["-", "+", "!"]) (he : e.ReadAs lang e')
    (hbase : e'.isChain = true → e'.opensParen = false) : (unary op e).ReadAs lang (unary op e') := by
  obtain ⟨ks, hks, htext⟩ := he
  obtain ⟨hname, hkind⟩ := hlang.named op hknown hop
  simp only [List.mem_cons, List.not_mem_nil, or_false, not_or] at hop
  obtain ⟨hminus, hplus, hmark⟩ := hop
  have hnamed : Named lang op := ⟨hknown, by simp [hminus, hplus], hmark⟩
  have hatomic : ks.head? = some .leftParen → Atomic lang ks e' := fun hparen => by
    refine hks.atomic (Bool.eq_false_iff.mpr fun hchain => ?_)
    have := hbase hchain
    rw [hks.paren hparen] at this
    cases this
  have htoken : Yields lang e.endsAt (op.toList ++ ' ' :: e.text) (.op op :: ks) := by
    have hyields := yields_name lang hname
    rw [hkind] at hyields
    exact hyields.append rfl htext.blank
  exact readAs_enclosed (atomic_named hnamed hks.spelled hatomic) rfl
    (by simp [hminus, hplus, hmark]) htoken (endsAt_delimiter e (by decide))

theorem readAs_infix {op : String} {t : Tier} (hop : op ∈ t.operators)
    (henabled : lang.isOperatorEnabled op = true) (hl : l.ReadAs lang l') (hr : r.ReadAs lang r') :
    (binary op l r).ReadAs lang (binary op l' r') := by
  obtain ⟨ks, hks, hltext⟩ := hl
  obtain ⟨ls, hls, hrtext⟩ := hr
  have hne : op ≠ "[" := by
    rintro rfl
    revert hop
    cases t <;> decide
  have hyields := hlang.spaced (isInfix_of_tier hop henabled) hltext (endsAt_delimiter l (by decide))
    hrtext
  have htext : (binary op l r).text = enclosed (spaced l.text op r.text) := by
    simp [formula_binary, hne]
  have hparen : (binary op l' r').opensParen = true := by simp [opensParen, hne]
  exact readAs_enclosed (atomic_binary hop hks.spelled hls.spelled) hparen htext hyields
    (endsAt_delimiter r (by decide))

theorem readAs_power (hl : l.ReadAs lang l') (hr : r.ReadAs lang r') :
    (binary "^" l r).ReadAs lang (binary "^" l' r') := by
  obtain ⟨ks, hks, hltext⟩ := hl
  obtain ⟨ls, hls, hrtext⟩ := hr
  exact readAs_enclosed (atomic_power hks.spelled hls.spelled) rfl
    (by simp [formula_binary])
    (hlang.spaced (.inl (by decide)) hltext (endsAt_delimiter l (by decide)) hrtext)
    (endsAt_delimiter r (by decide))

theorem readAs_connective (c : Connective) (hl : l.ReadAs lang l') (hr : r.ReadAs lang r') :
    (connective c l r).ReadAs lang (connective c l' r') := by
  obtain ⟨ks, hks, hltext⟩ := hl
  obtain ⟨ls, hls, hrtext⟩ := hr
  exact readAs_enclosed (atomic_connective c hks.spelled (atomic_paren hls.spelled).spelled) rfl
    (by simp)
    (hlang.spaced (.inr ⟨by cases c <;> decide, hlang.connective c⟩) hltext
      (endsAt_delimiter l (by decide)) (hrtext.enclosed endsName (endsAt_delimiter r (by decide))))
    rfl

theorem readAs_conditional {t t' y y' n n' : Expr} (ht : t.ReadAs lang t') (hy : y.ReadAs lang y')
    (hn : n.ReadAs lang n') : (conditional t y n).ReadAs lang (conditional t' y' n') := by
  obtain ⟨ks, hks, httext⟩ := ht
  obtain ⟨ls, hls, hytext⟩ := hy
  obtain ⟨ms, hms, hntext⟩ := hn
  have hbranches := hlang.spaced (show IsInfix lang ":" from .inl (by decide))
    (hytext.enclosed endsName (endsAt_delimiter y (by decide))) rfl
    (hntext.enclosed endsName (endsAt_delimiter n (by decide)))
  exact readAs_enclosed (atomic_conditional hks.spelled (atomic_paren hls.spelled).spelled
      (atomic_paren hms.spelled).spelled) rfl
    (by simp)
    (hlang.spaced (.inl (by decide)) httext (endsAt_delimiter t (by decide)) hbranches) rfl

omit hlang in
/-- A sequence, of statements that are written as they stand before a semicolon or a parenthesis. -/
theorem readAs_statements (hl : Legible lang l.endsAt l.text fun ks => Spelled lang ks l')
    (hr : Legible lang r.endsAt r.text fun ks => Spelled lang ks r') :
    (sequence l r).ReadAs lang (sequence l' r') := by
  obtain ⟨ks, hks, hltext⟩ := hl
  obtain ⟨ls, hls, hrtext⟩ := hr
  have hsemicolon : Yields lang r.endsAt (';' :: r.text) (.semicolon :: ls) :=
    fun rest ms hrest hlex =>
      (begins_punctuation rfl fun _ h => by cases h).lexes (hrtext rest ms hrest hlex)
  exact readAs_enclosed (atomic_sequence hks hls) rfl (by simp)
    (hltext.append (endsAt_delimiter l (by decide)) hsemicolon) (endsAt_delimiter r (by decide))

omit hlang in
theorem readAs_sequence (hl : l.ReadAs lang l') (hr : r.ReadAs lang r') :
    (sequence l r).ReadAs lang (sequence l' r') := readAs_statements hl.spelled hr.spelled

end

/-! ### Lists -/

section

variable {α : Type} {R : List TokenKind → α → Prop} {ts : List (List Char)} {as : List α}

/-- Texts with commas and blanks between them. -/
theorem legible_listed
    (h : List.Forall₂ (fun t a => Legible lang endsNumber t fun ks => R ks a) ts as) :
    Legible lang endsNumber ([',', ' '].intercalate ts)
      fun ks => ∃ kss, ks = listed kss ∧ List.Forall₂ R kss as := by
  induction h with
  | nil => exact ⟨[], ⟨[], rfl, .nil⟩, fun _ _ _ hlex => hlex⟩
  | @cons t a ts as h hrest ih =>
    obtain ⟨ks, hks, htext⟩ := h
    cases hrest with
    | nil =>
      refine ⟨ks, ⟨[ks], listed_singleton.symm, .cons hks .nil⟩, ?_⟩
      rwa [List.intercalate_singleton]
    | @cons t' a' ts as h' hrest =>
      obtain ⟨_, ⟨kss, rfl, hkss⟩, hmore⟩ := ih
      cases hkss with
      | @cons ls _ kss _ hls hkss =>
        refine ⟨_, ⟨ks :: ls :: kss, rfl, .cons hks (.cons hls hkss)⟩, ?_⟩
        have hcomma : Yields lang endsNumber (',' :: ' ' :: [',', ' '].intercalate (t' :: ts))
            (.comma :: listed (ls :: kss)) := fun rest ms hends hlex =>
          (begins_punctuation rfl fun _ h => by cases h).lexes (hmore rest ms hends hlex).blank
        rw [listed_cons, List.intercalate_cons_cons, List.append_assoc]
        exact htext.append (by decide) hcomma

/-- Texts with a blank before each of them. -/
theorem legible_blanks
    (h : List.Forall₂ (fun t a => Legible lang endsNumber t fun ks => R ks a) ts as) :
    Legible lang endsNumber (ts.flatMap (' ' :: ·))
      fun ks => ∃ kss : List (List TokenKind), ks = kss.flatten ∧ List.Forall₂ R kss as := by
  induction h with
  | nil => exact ⟨[], ⟨[], rfl, .nil⟩, fun _ _ _ hlex => hlex⟩
  | @cons t a ts as h hrest ih =>
    obtain ⟨ks, hks, htext⟩ := h
    obtain ⟨_, ⟨kss, rfl, hkss⟩, hmore⟩ := ih
    refine ⟨_, ⟨ks :: kss, rfl, .cons hks hkss⟩, fun rest ls hends hlex => ?_⟩
    rw [List.flatMap_cons, List.flatten_cons, List.append_assoc, List.append_assoc]
    refine (htext _ _ (fun c hc => ?_) (hmore rest ls hends hlex)).blank
    cases ts with
    | nil => exact hends c hc
    | cons t' ts =>
      cases hc
      decide

end

/-! ### Links -/

theorem identifier_head {name : String} (h : isIdentifier name = true) :
    ∃ c more, name.toList = c :: more ∧ isDecimalDigit c = false := by
  rcases Bool.or_eq_true_iff.mp h with h | h
  · obtain ⟨hstart, -⟩ := Bool.and_eq_true_iff.mp h
    cases hname : name.toList with
    | nil =>
      rw [hname] at hstart
      cases hstart
    | cons c more =>
      rw [hname] at hstart
      exact ⟨c, more, rfl, (plain_of_start hstart).digit⟩
  · unfold isSigiled at h
    split at h
    · next more heq => exact ⟨'$', _, heq, by decide⟩
    · next more _ heq => exact ⟨'$', _, heq, by decide⟩
    · cases h

theorem ofName?_text {name : String} {k : Keyword} (h : Keyword.ofName? name = some k) :
    k.text = name := by
  unfold Keyword.ofName? at h
  split at h <;> cases h <;> rfl

/-- An identifier stands for itself after a point and as a key. -/
theorem memberName?_nameKind (lang : Language Value) (name : String) :
    memberName? (nameKind lang name) = some name := by
  unfold nameKind
  split
  · next hword =>
    have hparts := (Bool.and_eq_true_iff.mp hword).2
    unfold classify
    dsimp only
    split
    · simp only [memberName?, hparts, if_true]
    · split
      · next k hk => rw [memberName?, ofName?_text hk]
      · split
        · next hundefined =>
          rw [hundefined]
          rfl
        · split <;> rfl
  · rfl

theorem keyName?_of_memberName? {k : TokenKind} {name : String} (h : memberName? k = some name) :
    keyName? k = some name := by
  cases k with
  | string s => cases h
  | _ =>
    simp only [keyName?]
    exact h

/-- What a chain starts with is what its first part starts with. -/
theorem head?_append_of_opens (h : Spelled lang ks e) (more : List TokenKind) :
    (ks ++ more).head? = ks.head? := by
  obtain ⟨k, tail, rfl, -⟩ := h.opens
  rfl

section

variable (hlang : lang.Writes)
include hlang

theorem readAs_member {name : String} (hname : isIdentifier name = true)
    (he : e.ReadAs lang e') (hpoint : e.isNumber = false) : (member e name).ReadAs lang (member e' name) := by
  obtain ⟨ks, hks, htext⟩ := he
  refine ⟨ks ++ [.op ".", nameKind lang name],
    ⟨hks.spelled.member (memberName?_nameKind lang _), fun h => (by cases h), fun hparen => ?_⟩, ?_⟩
  · rw [head?_append_of_opens hks.spelled] at hparen
    exact hks.paren hparen
  · have hshape : (member e name).text = e.text ++ '.' :: name.toList := by
      simp
    have hends : e.endsAt '.' = true := by
      rw [endsAt, hpoint]
      decide
    obtain ⟨c, more, hcons, hc⟩ := identifier_head hname
    have hpointed : Yields lang endsName ('.' :: name.toList) [.op ".", nameKind lang name] := by
      intro rest ls hrest hlex
      have hlex' := yields_name lang hname rest ls hrest hlex
      rw [List.cons_append]
      rw [hcons] at hlex' ⊢
      exact (begins_point hc (hlang.enabled "." (by decide))).lexes hlex'
    rw [hshape]
    exact htext.append hends hpointed

theorem readAs_index (hl : l.ReadAs lang l') (hr : r.ReadAs lang r') :
    (binary "[" l r).ReadAs lang (binary "[" l' r') := by
  obtain ⟨ks, hks, hltext⟩ := hl
  obtain ⟨ls, hls, hrtext⟩ := hr
  refine ⟨ks ++ .leftBracket :: (ls ++ [.rightBracket]),
    ⟨hks.spelled.index hls.spelled, fun h => (by cases h), fun hparen => ?_⟩, ?_⟩
  · rw [head?_append_of_opens hks.spelled] at hparen
    simp only [opensParen, hks.paren hparen, Bool.or_true]
  · have hshape : (binary "[" l r).text = l.text ++ '[' :: (r.text ++ [']']) := by
      simp [formula_binary]
    have hright : Yields lang endsName [']'] [.rightBracket] :=
      .punctuation rfl fun op h => by cases h; exact hlang.enabled "]" (by decide)
    have hindex : Yields lang endsName ('[' :: (r.text ++ [']']))
        (.leftBracket :: (ls ++ [.rightBracket])) := fun rest ms hrest hlex =>
      (begins_punctuation rfl fun op h => by cases h; exact hlang.enabled "[" (by decide)).lexes
        (hrtext.append (endsAt_delimiter r (by decide)) hright rest ms hrest hlex)
    rw [hshape]
    exact hltext.append (endsAt_delimiter l (by decide)) hindex

omit hlang in
theorem readAs_call {args args' : List Expr} (he : e.ReadAs lang e')
    (hargs : List.Forall₂ (fun t a => Legible lang endsNumber t fun ks => Stated lang ks a)
      ((renderItems .formula args).map String.toList) args') : (call e args).ReadAs lang (call e' args') := by
  obtain ⟨ks, hks, htext⟩ := he
  obtain ⟨_, ⟨kss, rfl, hkss⟩, hlisted⟩ := legible_listed hargs
  refine ⟨ks ++ inParens (listed kss),
    ⟨hks.spelled.arguments hkss, fun h => (by cases h), fun hparen => ?_⟩, ?_⟩
  · rw [head?_append_of_opens hks.spelled] at hparen
    exact hks.paren hparen
  · have hshape : (call e args).text = e.text ++
        enclosed ([',', ' '].intercalate ((renderItems .formula args).map String.toList)) := by
      simp [String.toList_intercalate]
    rw [hshape]
    exact htext.append (endsAt_delimiter e (by decide)) (hlisted.enclosed _ (by decide))

/-! ### Arrays and objects -/

/-- The texts of items between brackets. -/
theorem legible_array {ts : List (List Char)} {items : List Expr}
    (h : List.Forall₂ (fun t a => Legible lang endsNumber t fun ks => Stated lang ks a) ts items) :
    Legible lang endsName ('[' :: ([',', ' '].intercalate ts ++ [']']))
      fun ks => ∃ tail, ks = .leftBracket :: tail ∧ Atomic lang ks (.array items) := by
  obtain ⟨_, ⟨kss, rfl, hkss⟩, hlisted⟩ := legible_listed h
  refine ⟨_, ⟨_, rfl, atomic_array hkss⟩, fun rest ls hrest hlex => ?_⟩
  have hright : Yields lang endsName [']'] [.rightBracket] :=
    .punctuation rfl fun op h => by cases h; exact hlang.enabled "]" (by decide)
  exact (begins_punctuation rfl fun op h => by cases h; exact hlang.enabled "[" (by decide)).lexes
    (hlisted.append (by decide) hright rest ls hrest hlex)

theorem readAs_array {items items' : List Expr}
    (hitems : List.Forall₂ (fun t a => Legible lang endsNumber t fun ks => Stated lang ks a)
      ((renderItems .formula items).map String.toList) items') :
    (array items).ReadAs lang (array items') := by
  obtain ⟨_, ⟨tail, rfl, hatomic⟩, htext⟩ := legible_array hlang hitems
  refine ⟨_, .ofAtomic hatomic fun h => (by cases h), ?_⟩
  have hshape : (array items).text =
      '[' :: ([',', ' '].intercalate ((renderItems .formula items).map String.toList) ++ [']']) := by
    simp [String.toList_intercalate]
  rwa [hshape]

/-- The text of a key and of a value with a colon between them. -/
theorem legible_keyed {k : TokenKind} {key : String} {t : List Char}
    (hcs : Yields lang ends cs [k]) (hends : ends ':' = true) (hk : keyName? k = some key)
    (he : Legible lang endsNumber t fun ks => Stated lang ks e) :
    Legible lang endsNumber (cs ++ ':' :: ' ' :: t) fun ks => SpelledField lang ks (key, e) := by
  obtain ⟨ks, hks, htext⟩ := he
  have hvalue : Yields lang endsNumber (':' :: ' ' :: t) (.op ":" :: ks) :=
    hlang.infixed (show IsInfix lang ":" from .inl (by decide)) htext
  exact ⟨_, ⟨k, ks, rfl, hk, hks⟩, hcs.append hends hvalue⟩

omit hlang in
theorem yields_quoted (lang : Language Value) (s : String) :
    Yields lang (fun _ => true) (Value.quote s).toList [.string s] :=
  .token fun _ _ => begins_string s

theorem legible_field {key : String} (hkey : isPlainKey key = true → isIdentifier key = true)
    (he : Legible lang endsNumber e.text fun ks => Stated lang ks e') :
    Legible lang endsNumber (keyText key ++ ": " ++ e.render .formula).toList
      fun ks => SpelledField lang ks (key, e') := by
  have hshape : (keyText key ++ ": " ++ e.render .formula).toList =
      (keyText key).toList ++ ':' :: ' ' :: e.text := by
    simp
  rw [hshape]
  unfold keyText
  split
  · next hplain =>
    exact legible_keyed hlang (yields_name lang (hkey hplain)) (by decide)
      (keyName?_of_memberName? (memberName?_nameKind lang _)) he
  · exact legible_keyed hlang (yields_quoted lang key) rfl rfl he

/-- Texts between braces, with blanks inside them unless there are none. -/
def braced : List (List Char) → List Char
  | [] => ['\x7b', '\x7d']
  | t :: ts => '\x7b' :: ' ' :: ([',', ' '].intercalate (t :: ts) ++ [' ', '\x7d'])

omit hlang in
theorem legible_object {ts : List (List Char)} {fields : List (String × Expr)}
    (h : List.Forall₂ (fun t a => Legible lang endsNumber t fun ks => SpelledField lang ks a)
      ts fields) :
    Legible lang endsName (braced ts)
      fun ks => ∃ tail, ks = .leftBrace :: tail ∧ Atomic lang ks (.object fields) := by
  obtain ⟨_, ⟨kss, rfl, hkss⟩, hlisted⟩ := legible_listed h
  refine ⟨_, ⟨_, rfl, atomic_object hkss⟩, ?_⟩
  have hright : Yields lang endsName ['\x7d'] [.rightBrace] :=
    .punctuation rfl fun _ h => by cases h
  cases h with
  | nil =>
    cases hkss
    exact fun rest ls hrest hlex => (begins_punctuation rfl fun _ h => by cases h).lexes
      (hright rest ls hrest hlex)
  | cons _ _ =>
    exact fun rest ls hrest hlex =>
      (begins_punctuation rfl fun _ h => by cases h).lexes
        (hlisted.append (by decide) hright.blank rest ls hrest hlex).blank

omit hlang in
theorem readAs_object {fields fields' : List (String × Expr)}
    (hfields : List.Forall₂ (fun t a => Legible lang endsNumber t fun ks => SpelledField lang ks a)
      ((renderFields .formula fields).map String.toList) fields') :
    (object fields).ReadAs lang (object fields') := by
  obtain ⟨_, ⟨tail, rfl, hatomic⟩, htext⟩ := legible_object hfields
  refine ⟨_, .ofAtomic hatomic fun h => (by cases h), ?_⟩
  have hshape :
      (object fields).text = braced ((renderFields .formula fields).map String.toList) := by
    cases fields with
    | nil => rfl
    | cons f fs =>
      change _ = '\x7b' :: ' ' ::
        ([',', ' '].intercalate ((renderFields .formula (f :: fs)).map String.toList) ++ [' ', '\x7d'])
      simp [String.toList_intercalate]
  rwa [hshape]

/-! ### Case blocks -/

theorem yields_word (w : Keyword) (h : Yields lang ends cs ks) :
    Yields lang ends (w.text.toList ++ ' ' :: cs) (.keyword w :: ks) := by
  have hword := yields_name lang (show isIdentifier w.text = true by cases w <;> decide)
  rw [hlang.keyword w] at hword
  exact hword.append (by decide) h.blank

theorem legible_tested {tested tested' : Option Expr}
    (h : Option.Rel (ReadAs lang) tested tested') :
    Legible lang endsNumber (renderTested .formula tested).toList
      fun ks => ∃ tks, ks = .keyword .caseWord :: tks ∧ SpelledTested lang tks tested' := by
  cases h with
  | none =>
    have hword := yields_name lang (show isIdentifier Keyword.caseWord.text = true by decide)
    rw [hlang.keyword .caseWord] at hword
    exact ⟨_, ⟨[], rfl, .none⟩, hword.mono fun c hc => (Bool.and_eq_true_iff.mp hc).1⟩
  | @some e _ he =>
    obtain ⟨ks, hks, htext⟩ := he
    refine ⟨_, ⟨ks, rfl, .some hks.spelled⟩, ?_⟩
    have hshape : (renderTested .formula (some e)).toList =
        Keyword.caseWord.text.toList ++ ' ' :: e.text := by simp [renderTested, Keyword.text]
    rw [hshape]
    exact yields_word hlang .caseWord (htext.mono fun _ => e.endsAt_of_endsNumber)

theorem legible_branch {c c' v v' : Expr} (hc : c.ReadAs lang c') (hv : v.ReadAs lang v') :
    Legible lang endsNumber ("when " ++ c.render .formula ++ " then " ++ v.render .formula).toList
      fun ks => SpelledBranch lang ks (c', v') := by
  obtain ⟨ks, hks, hctext⟩ := hc
  obtain ⟨ls, hls, hvtext⟩ := hv
  refine ⟨_, ⟨ks, ls, rfl, hks.spelled, hls.spelled⟩, ?_⟩
  have hshape : ("when " ++ c.render .formula ++ " then " ++ v.render .formula).toList =
      Keyword.whenWord.text.toList ++ ' ' ::
        (c.text ++ ' ' :: (Keyword.thenWord.text.toList ++ ' ' :: v.text)) := by
    simp [Keyword.text]
  rw [hshape]
  have hthen := yields_word hlang .thenWord (hvtext.mono fun _ => v.endsAt_of_endsNumber)
  exact yields_word hlang .whenWord (hctext.append (c.endsAt_delimiter (by decide)) hthen.blank)

theorem legible_other {other other' : Option Expr} (h : Option.Rel (ReadAs lang) other other') :
    Legible lang endsNumber (((renderOther .formula other).map String.toList).flatMap (' ' :: ·))
      fun ks => SpelledOther lang ks other' := by
  cases h with
  | none => exact ⟨[], .none, fun _ _ _ hlex => hlex⟩
  | @some e _ he =>
    obtain ⟨ks, hks, htext⟩ := he
    refine ⟨_, .some hks.spelled, ?_⟩
    have hshape : ((renderOther .formula (some e)).map String.toList).flatMap (' ' :: ·) =
        ' ' :: (Keyword.elseWord.text.toList ++ ' ' :: e.text) := by
      simp [Keyword.text, renderOther]
    rw [hshape]
    exact (yields_word hlang .elseWord (htext.mono fun _ => e.endsAt_of_endsNumber)).blank

omit hlang in
theorem intercalate_cons (sep x : List Char) (xs : List (List Char)) :
    sep.intercalate (x :: xs) = x ++ xs.flatMap (sep ++ ·) := by
  induction xs generalizing x with
  | nil => simp [List.intercalate_singleton]
  | cons y ys ih =>
    rw [List.intercalate_cons_cons, ih y, List.flatMap_cons, List.append_assoc, List.append_assoc]

omit hlang in
/-- A text before others that start with blanks. -/
theorem yields_append_blanks {ts : List (List Char)} (h : Yields lang endsNumber cs ks)
    (h' : Yields lang ends (ts.flatMap (' ' :: ·) ++ ' ' :: ds) ls) :
    Yields lang ends (cs ++ (ts.flatMap (' ' :: ·) ++ ' ' :: ds)) (ks ++ ls) := by
  cases ts with
  | nil => exact h.append (by decide) h'
  | cons t ts => exact h.append (by decide) h'

theorem readAs_case {tested tested' other other' : Option Expr}
    {branches branches' : List (Expr × Expr)} (ht : Option.Rel (ReadAs lang) tested tested')
    (ho : Option.Rel (ReadAs lang) other other')
    (hbranches : List.Forall₂
      (fun t a => Legible lang endsNumber t fun ks => SpelledBranch lang ks a)
      ((renderBranches .formula branches).map String.toList) branches') :
    (case tested branches other).ReadAs lang (case tested' branches' other') := by
  obtain ⟨_, ⟨tks, rfl, htks⟩, httext⟩ := legible_tested hlang ht
  obtain ⟨_, ⟨kss, rfl, hkss⟩, hbtext⟩ := legible_blanks hbranches
  obtain ⟨os, hos, hotext⟩ := legible_other hlang ho
  refine ⟨_, .ofAtomic (atomic_case htks hkss hos) fun h => (by cases h), ?_⟩
  have hend := yields_name lang (show isIdentifier Keyword.endWord.text = true by decide)
  rw [hlang.keyword .endWord] at hend
  have hblocks := yields_append_blanks hbtext (hotext.append (by decide) hend.blank)
  rw [← List.append_assoc, ← List.flatMap_append] at hblocks
  have hall := yields_append_blanks httext hblocks
  have hshape : (case tested branches other).text = (renderTested .formula tested).toList ++
      (((renderBranches .formula branches).map String.toList ++
        (renderOther .formula other).map String.toList).flatMap (' ' :: ·) ++
          ' ' :: Keyword.endWord.text.toList) := by
    simp only [text, render, String.toList_intercalate, List.map_cons, List.map_append,
      List.map_nil]
    rw [show " ".toList = [' '] from rfl, intercalate_cons, ← List.append_assoc, List.flatMap_append]
    rfl
  rw [hshape]
  exact hall

end

end Expr

end Formula
