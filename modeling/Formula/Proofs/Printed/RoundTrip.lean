import Formula.Proofs.Expr.Parsed
import Formula.Proofs.Printed.Lexical
import Formula.Proofs.Printed.Reread

/-!
# Parsing, printing and parsing again

What the parser builds has the names, numbers and operators of its tokens. So a parsed expression
is read back from its text if what the text leaves open does not matter for it: which names are
variables, and what stands before links, after named operators and for keys.
-/

open Formula.Lexer Formula.Parser

namespace Formula

/-! ### Parsed expressions -/

namespace Expr

variable {lang : Language Value}

/-- What holds of an expression that the parser built, besides its parts. -/
def Grammatical (lang : Language Value) : Expr → Prop
  | .literal v =>
    (∃ x, v = .number x ∧ Number.signBit x = false) ∨ (∃ s, v = .string s) ∨
      ∃ n, lang.constant? n = some v
  | .unary op _ => (lang.unaryOp? op).isSome
  | .binary op _ _ =>
    op ∈ Operation.binaryTable.map Prod.fst ∧ op ∉ Instruction.connectives ∧
      lang.isOperatorEnabled op = true
  | .assign _ members _ => ∀ m ∈ members, isIdentifier m = true
  | .member _ name => isIdentifier name = true
  | _ => True

theorem memberName?_identifier {k : TokenKind} {name : String} (hk : Lexical lang k)
    (h : memberName? k = some name) : isIdentifier name = true := by
  unfold memberName? at h
  split at h
  · cases h
    exact hk
  · cases h
    exact hk.1
  · next w =>
    cases h
    cases w <;> decide
  · split at h
    · next hparts =>
      cases h
      exact hk.2 hparts
    · cases h
  · cases h
    decide
  · cases h

/-- The members of a target are those of the expression it stands for. -/
theorem memberPath?_members {e : Expr} {more members : List String} {root : String}
    (he : e.Every (Grammatical lang)) (hmore : ∀ m ∈ more, isIdentifier m = true)
    (h : memberPath? e more = some (root, members)) : ∀ m ∈ members, isIdentifier m = true := by
  fun_induction memberPath? e more with
  | case1 name more =>
    cases h
    exact hmore
  | case2 base name more ih =>
    exact ih he.2 (List.forall_mem_cons.mpr ⟨he.1, hmore⟩) h
  | case3 => cases h

theorem target?_members {e : Expr} {members : List String} {root : String}
    (he : e.Every (Grammatical lang)) (h : e.target? = some (.path root members)) :
    ∀ m ∈ members, isIdentifier m = true := by
  cases e with
  | «variable» name =>
    cases h
    exact fun _ h => (List.not_mem_nil h).elim
  | member base name =>
    have hpath : memberPath? base [name] = some (root, members) := by
      simp only [target?, Option.map_eq_some_iff] at h
      obtain ⟨⟨r, ms⟩, hp, heq⟩ := h
      cases heq
      exact hp
    exact memberPath?_members he.2 (List.forall_mem_singleton.mpr he.1) hpath
  | call f args =>
    simp only [target?] at h
    split at h <;> cases h
  | _ => cases h

theorem grammar_grammatical (lang : Language Value) :
    Grammar lang (Lexical lang) (Every (Grammatical lang)) where
  name _ := trivial
  operator _ _ := trivial
  word _ := trivial
  constant {n} hn := by
    obtain ⟨v, hv⟩ := Option.isSome_iff_exists.mp hn.2
    rw [hv]
    exact .inr (.inr ⟨n, hv⟩)
  number hx := .inl ⟨_, rfl, hx⟩
  string s := .inr (.inl ⟨s, rfl⟩)
  undefined := trivial
  unary hop _ he := ⟨hop, he⟩
  binary {op} _ _ hop hne hgood hl hr := by
    refine ⟨⟨hop, hne, hgood.1.resolve_left ?_⟩, hl, hr⟩
    rintro rfl
    exact absurd hop (by decide)
  index hgood hl hr :=
    ⟨⟨by simp [Operation.binaryTable], by simp [Instruction.connectives], hgood⟩, hl, hr⟩
  connective _ hl hr := ⟨trivial, hl, hr⟩
  conditional _ ht hy hn := ⟨trivial, ht, hy, hn⟩
  assign _ htarget he hv := ⟨target?_members he htarget, hv⟩
  define _ _ _ hbody := ⟨trivial, hbody⟩
  call hf hargs := ⟨trivial, hf, everyItem_iff.mpr hargs⟩
  member hk hname he := ⟨memberName?_identifier hk hname, he⟩
  array _ hitems := ⟨trivial, everyItem_iff.mpr hitems⟩
  object hfields := ⟨trivial, everyField_iff.mpr hfields⟩
  case ht hb ho :=
    ⟨trivial, everyOption_iff.mpr ht, everyBranch_iff.mpr hb, everyOption_iff.mpr ho⟩
  sequence ha hb := ⟨trivial, ha, hb⟩
  closed ha := ⟨trivial, ha⟩

theorem parseExpr_grammatical (hlang : lang.Complete) {source : String} {e : Expr}
    (h : parseExpr lang source = .ok e) : e.Every (Grammatical lang) :=
  parseExpr_keeps hlang (grammar_grammatical lang) (tokensFrom_lexical _ _ _) h

/-! ### Expressions whose text is unambiguous -/

/-- Whether a name is read as a variable. -/
def isVariableName (lang : Language Value) (name : String) : Bool :=
  isIdentifier name &&
    match nameKind lang name with
    | .name _ => true
    | _ => false

theorem isPlain_of_isVariableName {name : String} (h : isVariableName lang name = true) :
    IsPlain lang name := by
  obtain ⟨hname, hkind⟩ := Bool.and_eq_true_iff.mp h
  refine ⟨hname, ?_⟩
  split at hkind
  · next n hn =>
    have := memberName?_nameKind lang name
    rw [hn] at this ⊢
    exact congrArg TokenKind.name (Option.some.inj this)
  · cases hkind

/-- What the text of an expression leaves to its surroundings: names stand for variables, no number
stands before a point, no chain that starts with a parenthesis stands after a named operator, keys
without quotes are identifiers, and no statement is closed by a semicolon. -/
def isUnambiguous (lang : Language Value) : Expr → Bool
  | .literal (.number x) => (Number.decode? x).isSome
  | .variable name => isVariableName lang name
  | .unary op e => ["-", "+", "!"].contains op || !e.isChain || !e.opensParen
  | .assign root _ _ => isVariableName lang root
  | .define name params _ => isVariableName lang name && params.all (isVariableName lang)
  | .member e _ => !e.isNumber
  | .object fields => fields.all fun f => !isPlainKey f.1 || isIdentifier f.1
  | .closed _ => false
  | _ => true

theorem constant_cases {id : Nat} {options : Options} {n : String} {v : Value}
    (h : (Language.ofOptions id options).constant? n = some v) :
    (∃ x, v = .number x ∧ Number.signBit x = false) ∨ ∃ b, v = .bool b := by
  have hmem : (n, v) ∈ standardConstants := Record.mem_of_get? h
  simp only [standardConstants, List.mem_cons, List.not_mem_nil, or_false, Prod.mk.injEq] at hmem
  rcases hmem with ⟨-, rfl⟩ | ⟨-, rfl⟩ | ⟨-, rfl⟩ | ⟨-, rfl⟩
  · exact .inl ⟨_, rfl, by decide⟩
  · exact .inl ⟨_, rfl, by decide⟩
  · exact .inr ⟨_, rfl⟩
  · exact .inr ⟨_, rfl⟩

/-- Parsed and unambiguous expressions are read back. -/
theorem readable_of_unambiguous {id : Nat} {options : Options} {e : Expr}
    (hlang : (Language.ofOptions id options).Writes)
    (hgrammar : Grammatical (.ofOptions id options) e)
    (h : isUnambiguous (.ofOptions id options) e = true) :
    Readable (.ofOptions id options) literal e := by
  cases e with
  | literal v =>
    have hnumber : ∀ x, v = .number x → Number.signBit x = false → Number.Unsigned x := by
      rintro x rfl hx
      exact Number.unsigned_iff.mpr ⟨h, hx⟩
    refine reread_literal hlang ?_
    rcases hgrammar with ⟨x, hv, hx⟩ | hs | ⟨n, hn⟩
    · exact .inl ⟨x, hv, hnumber x hv hx⟩
    · exact .inr (.inl hs)
    · rcases constant_cases hn with ⟨x, hv, hx⟩ | hb
      · exact .inl ⟨x, hv, hnumber x hv hx⟩
      · exact .inr (.inr hb)
  | «variable» name => exact isPlain_of_isVariableName h
  | unary op e =>
    refine ⟨hgrammar, fun hop hchain => ?_⟩
    rw [mapLiterals_literal] at hchain ⊢
    simpa [isUnambiguous, hop, hchain] using h
  | binary op l r => exact hgrammar
  | assign root members v => exact ⟨isPlain_of_isVariableName h, hgrammar⟩
  | define name params body =>
    obtain ⟨hname, hparams⟩ := Bool.and_eq_true_iff.mp h
    exact ⟨isPlain_of_isVariableName hname, fun p hp =>
      isPlain_of_isVariableName (List.all_eq_true.mp hparams p hp)⟩
  | member e name =>
    exact ⟨hgrammar, by simpa [isUnambiguous] using h⟩
  | object fields =>
    intro f hf hplain
    have := List.all_eq_true.mp h f hf
    simpa [hplain] using this
  | closed e => cases h
  | _ => trivial

theorem reread_unambiguous {id : Nat} {e : Expr} (hgrammar : e.Every (Grammatical (.ofOptions id {})))
    (he : e.Every (isUnambiguous (.ofOptions id {}) ·)) : e.Reread (.ofOptions id {}) := by
  have hlang := Language.writes_default id
  exact reread hlang
    (Every.combine (fun e hp hq => readable_of_unambiguous hlang hp.here hq.here) e hgrammar he)

theorem parseExpr_reread {id : Nat} {source : String} {e : Expr}
    (h : parseExpr (.ofOptions id {}) source = .ok e)
    (he : e.Every (isUnambiguous (.ofOptions id {}) ·)) : e.Reread (.ofOptions id {}) :=
  reread_unambiguous
    (parseExpr_grammatical (Language.Extended.standard (g := .sound) id {}).complete h) he

/-! ### Chains of a variable -/

/-- What the innermost call, member or index of a chain is of. -/
def base : Expr → Expr
  | .call f _ => base f
  | .member e _ => base e
  | .binary op l r => if op = "[" then base l else .binary op l r
  | e => e

def isVariable : Expr → Bool
  | .variable _ => true
  | _ => false

/-- Expressions whose names, numbers and keys are written as they are meant, and in which calls,
members and indices are of a variable in the end. -/
def isBasic (lang : Language Value) : Expr → Bool
  | .literal (.number x) => (Number.decode? x).isSome
  | .variable name => isVariableName lang name
  | .binary op l _ => op != "[" || l.base.isVariable
  | .assign root _ _ => isVariableName lang root
  | .define name params _ => isVariableName lang name && params.all (isVariableName lang)
  | .call f _ => f.base.isVariable
  | .member e _ => e.base.isVariable
  | .object fields => fields.all fun f => isIdentifier f.1
  | .closed _ => false
  | _ => true

theorem opensParen_of_base : (e : Expr) → e.base.isVariable = true → e.opensParen = false
  | .call f _, h => opensParen_of_base f h
  | .member e _, h => opensParen_of_base e h
  | .binary op l r, h => by
    by_cases hop : op = "["
    · subst hop
      exact opensParen_of_base l h
    · rw [base, if_neg hop] at h
      cases h
  | .variable _, _ => rfl

theorem chain_base {e : Expr} (he : isBasic lang e = true) (hchain : e.isChain = true) :
    e.base.isVariable = true := by
  cases e with
  | call f args => exact he
  | member e name => exact he
  | binary op l r =>
    obtain rfl : op = "[" := eq_of_beq hchain
    exact he
  | _ => cases hchain

theorem unambiguous_of_basic {e : Expr} (h : e.Every (isBasic lang ·)) :
    isUnambiguous lang e = true := by
  have hhere : isBasic lang e = true := h.here
  cases e with
  | literal v => cases v <;> exact hhere
  | unary op e =>
    cases hchain : e.isChain with
    | false => simp [isUnambiguous, hchain]
    | true =>
      have hbase := chain_base h.2.here hchain
      simp [isUnambiguous, opensParen_of_base e hbase]
  | member e name =>
    cases e with
    | literal v => cases hhere
    | _ => rfl
  | object fields =>
    refine List.all_eq_true.mpr fun f hf => ?_
    simp [List.all_eq_true.mp hhere f hf]
  | «variable» _ | assign _ _ _ | define _ _ _ | closed _ => exact hhere
  | _ => rfl

end Expr

/-! ### Round trips -/

variable {id : Nat} {source : String} {e : Expr}

/-- The text of a parsed expression in which calls, members and indices are of variables parses to
the same expression: the program and the text that are made of it are the same again. -/
theorem parseExpr_render (h : parseExpr (.ofOptions id {}) source = .ok e)
    (he : e.Every (Expr.isBasic (.ofOptions id {}) ·)) :
    parseExpr (.ofOptions id {}) (e.render .formula) = .ok e :=
  Expr.parseExpr_of_legible (Expr.legible_of_readAs
    (Expr.parseExpr_reread h (Expr.Every.mono (fun _ => Expr.unambiguous_of_basic) e he)))

/-- A definition with a sequence in its body, a chain, a case block and operators of every kind. -/
def mixedSource : String :=
  "f(x) = x.a[0]! ^ -2 ?? (y = 1.5; sqrt y); case f(z) when 'b' then [{c: E}] else not z end"

theorem mixed_render : ∃ e, parseExpr (.ofOptions 0 {}) mixedSource = .ok e ∧
    parseExpr (.ofOptions 0 {}) (e.render .formula) = .ok e := by
  have hbasic : (parseExpr (.ofOptions 0 {}) mixedSource).toOption.map (fun e =>
      decide (e.Every (Expr.isBasic (.ofOptions 0 {}) ·))) = some true := by
    decide +kernel
  cases he : parseExpr (.ofOptions 0 {}) mixedSource with
  | error _ =>
    rw [he] at hbasic
    cases hbasic
  | ok e =>
    rw [he] at hbasic
    exact ⟨e, rfl, parseExpr_render he (of_decide_eq_true (Option.some.inj hbasic))⟩

end Formula
