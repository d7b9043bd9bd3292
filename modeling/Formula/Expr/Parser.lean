import Formula.Expr
import Formula.Expr.Error
import Formula.Stop
import Formula.Token.Lexer

/-!
# Parsing

A recursive descent over the tokens with one token of lookahead. Operators of two operands stand
on tiers, the loosest first; below them come prefix operators, powers, postfix operators, calls
with members and indices, and atoms. A lexical fault counts only when the parser would look at it:
a token is accepted after the one behind it has been read.

Every rule takes `fuel`, which its calls lower by one. Between two tokens fewer than thirty-two
rules are entered.
-/

namespace Formula

namespace Parser

/-! ### The token stream -/

/-- The token to be looked at, those behind it, and the fault that follows the last of them. -/
structure Tokens where
  next : Token
  later : List Token
  fault : Option LexicalError

/-- A rule gives a result, fails, or lacks fuel. -/
abbrev Parse := Except (Stop ParseError)

/-- Ends a rule with a parse error. -/
def fail {α : Type} (e : ParseError) : Parse α := .error (.error e)

namespace Tokens

/-- The kind of the token to be looked at. -/
def kind (ts : Tokens) : TokenKind := ts.next.kind

/-- Goes to the next token; the end of the text is never left. -/
def advance (ts : Tokens) : Parse Tokens :=
  match ts.later with
  | t :: rest => .ok { ts with next := t, later := rest }
  | [] =>
    match ts.fault with
    | some e => fail (.lexical e)
    | none => .ok ts

/-- Passes a token of a certain kind. -/
def expect (ts : Tokens) (wanted : TokenKind → Bool) (what : String) : Parse Tokens :=
  if wanted ts.kind then ts.advance else fail (.expected ts.next what)

def isOp (ts : Tokens) (op : String) : Bool := ts.kind.isOp op

def isKeyword (ts : Tokens) (k : Keyword) : Bool := ts.kind.isKeyword k

/-- The operator at hand if it is one of a list. -/
def anyOf? (ts : Tokens) (ops : List String) : Option String :=
  match ts.kind with
  | .op op => if ops.contains op then some op else none
  | _ => none

end Tokens

def isLeftParen : TokenKind → Bool
  | .leftParen => true
  | _ => false

def isRightParen : TokenKind → Bool
  | .rightParen => true
  | _ => false

def isLeftBracket : TokenKind → Bool
  | .leftBracket => true
  | _ => false

def isRightBracket : TokenKind → Bool
  | .rightBracket => true
  | _ => false

def isRightBrace : TokenKind → Bool
  | .rightBrace => true
  | _ => false

def isComma : TokenKind → Bool
  | .comma => true
  | _ => false

def isSemicolon : TokenKind → Bool
  | .semicolon => true
  | _ => false

def isEnd : TokenKind → Bool
  | .eof => true
  | _ => false

/-- What a statement may stop at after its semicolon. -/
def endsStatements (k : TokenKind) : Bool := isEnd k || isRightParen k

/-- What cannot follow a named operator that has an operand. -/
def endsOperand (k : TokenKind) : Bool := isSemicolon k || isComma k || isRightParen k || isEnd k

/-- The words that may follow the start of a case block. -/
def isBranchWord : TokenKind → Bool
  | .keyword .whenWord | .keyword .elseWord | .keyword .endWord => true
  | _ => false

/-! ### Tiers of operators -/

/-- The operators of two operands by how tightly they bind, the loosest first. -/
inductive Tier where
  | coalescing
  | conditional
  | disjunction
  | conjunction
  | membership
  | comparison
  | additive
  | multiplicative
  | conversion
deriving DecidableEq, Repr

/-- The next tighter tier; there is none above conversions. -/
def Tier.tighter? : Tier → Option Tier
  | .coalescing => some .conditional
  | .conditional => some .disjunction
  | .disjunction => some .conjunction
  | .conjunction => some .membership
  | .membership => some .comparison
  | .comparison => some .additive
  | .additive => some .multiplicative
  | .multiplicative => some .conversion
  | .conversion => none

/-- The operators of a tier that take a left and a right operand and nothing else. -/
def Tier.operators : Tier → List String
  | .coalescing => ["??"]
  | .conditional => []
  | .disjunction => []
  | .conjunction => []
  | .membership => ["in"]
  | .comparison => ["==", "!=", "<", "<=", ">=", ">"]
  | .additive => ["+", "-", "||"]
  | .multiplicative => ["*", "/", "%"]
  | .conversion => ["as"]

/-- The connective of a tier. -/
def Tier.connective? : Tier → Option Connective
  | .disjunction => some .either
  | .conjunction => some .both
  | _ => none

/-! ### Names -/

/-- Whether a token is an operator written before its operand. -/
def isPrefixOperator (lang : Language Value) : TokenKind → Bool
  | .op op => op != "!" && (lang.unaryOp? op).isSome
  | _ => false

/-- The name that a token stands for after a point or as a key. -/
def memberName? : TokenKind → Option String
  | .name n => some n
  | .constant n => some n
  | .keyword k => some k.text
  | .op op => if op.toList.all Lexer.isNamePart then some op else none
  | .undefined => some "undefined"
  | _ => none

/-- Reads the name of a member. -/
def memberName (ts : Tokens) : Parse (String × Tokens) :=
  match memberName? ts.kind with
  | some name => do .ok (name, ← ts.advance)
  | none => fail (.expected ts.next "name")

/-- Reads the key of a field: a string or the name of a member. -/
def key (ts : Tokens) : Parse (String × Tokens) :=
  match ts.kind with
  | .string s => do .ok (s, ← ts.advance)
  | _ => memberName ts

/-! ### Rules -/

mutual

/-- Statements with semicolons between them. The last one may be followed by a semicolon where the
text or a parenthesis ends. -/
def statements (lang : Language Value) : Nat → Tokens → Parse (Expr × Tokens)
  | 0, _ => .error .exhausted
  | fuel + 1, ts => do
    let (e, ts) ← assignment lang fuel ts
    if isSemicolon ts.kind then
      let ts ← ts.advance
      if endsStatements ts.kind then .ok (.closed e, ts)
      else
        let (rest, ts) ← statements lang fuel ts
        .ok (.sequence e rest, ts)
    else .ok (e, ts)

/-- An expression, or an assignment or definition with the expression as its target. -/
def assignment (lang : Language Value) : Nat → Tokens → Parse (Expr × Tokens)
  | 0, _ => .error .exhausted
  | fuel + 1, ts => do
    let (e, ts) ← tier lang fuel .coalescing ts
    if ts.isOp "=" then
      let equals := ts.next
      let ts ← ts.advance
      if e.isCall && !lang.isOperatorEnabled "()=" then fail (.definitionNotPermitted equals)
      else
        match e.target? with
        | none => fail (.invalidTarget equals)
        | some (.path root members) =>
          let (v, ts) ← assignment lang fuel ts
          .ok (.assign root members v, ts)
        | some (.function name params) =>
          let (body, ts) ← assignment lang fuel ts
          .ok (.define name params body, ts)
    else .ok (e, ts)

/-- An operand of a tier and the operators of the tier after it. -/
def tier (lang : Language Value) : Nat → Tier → Tokens → Parse (Expr × Tokens)
  | 0, _, _ => .error .exhausted
  | fuel + 1, t, ts => do
    let (e, ts) ← operand lang fuel t ts
    chain lang fuel t e ts

/-- An operand of a tier: an expression of the next tier, or a factor above the last one. -/
def operand (lang : Language Value) : Nat → Tier → Tokens → Parse (Expr × Tokens)
  | 0, _, _ => .error .exhausted
  | fuel + 1, t, ts =>
    match t.tighter? with
    | some t => tier lang fuel t ts
    | none => factor lang fuel ts

/-- The operators of a tier after the expression `e`, from left to right. -/
def chain (lang : Language Value) : Nat → Tier → Expr → Tokens → Parse (Expr × Tokens)
  | 0, _, _, _ => .error .exhausted
  | fuel + 1, t, e, ts =>
    match ts.anyOf? t.operators with
    | some op => do
      let ts ← ts.advance
      let (r, ts) ← operand lang fuel t ts
      chain lang fuel t (.binary op e r) ts
    | none =>
      match t with
      | .conditional =>
        if ts.isOp "?" then do
          let ts ← ts.advance
          let (yes, ts) ← tier lang fuel .coalescing ts
          let ts ← ts.expect (·.isOp ":") ":"
          let (no, ts) ← tier lang fuel .coalescing ts
          chain lang fuel t (.conditional e yes no) ts
        else .ok (e, ts)
      | .membership =>
        if ts.isOp "not" then do
          let after ← ts.advance
          if after.isOp "in" then
            let ts ← after.advance
            let (r, ts) ← operand lang fuel t ts
            chain lang fuel t (.unary "not" (.binary "in" e r)) ts
          else .ok (e, ts)
        else .ok (e, ts)
      | t =>
        match t.connective? with
        | some c =>
          if ts.isOp c.symbol then do
            let ts ← ts.advance
            let (r, ts) ← operand lang fuel t ts
            chain lang fuel t (.connective c e r) ts
          else .ok (e, ts)
        | none => .ok (e, ts)

/-- A factor: prefix operators before a power. A named operator before a parenthesis binds like a
call, and one without an operand stands for itself. -/
def factor (lang : Language Value) : Nat → Tokens → Parse (Expr × Tokens)
  | 0, _ => .error .exhausted
  | fuel + 1, ts =>
    if isPrefixOperator lang ts.kind then do
      let op := ts.kind.text
      let after ← ts.advance
      let named := op != "-" && op != "+"
      if named && isLeftParen after.kind then power lang fuel ts
      else if named && endsOperand after.kind then atom lang fuel ts
      else
        let (e, ts) ← factor lang fuel after
        .ok (.unary op e, ts)
    else power lang fuel ts

/-- A postfix expression raised to powers; the exponent is a factor. -/
def power (lang : Language Value) : Nat → Tokens → Parse (Expr × Tokens)
  | 0, _ => .error .exhausted
  | fuel + 1, ts => do
    let (e, ts) ← postfixed lang fuel ts
    powers lang fuel e ts

def powers (lang : Language Value) : Nat → Expr → Tokens → Parse (Expr × Tokens)
  | 0, _, _ => .error .exhausted
  | fuel + 1, e, ts =>
    if ts.isOp "^" then do
      let ts ← ts.advance
      let (r, ts) ← factor lang fuel ts
      powers lang fuel (.binary "^" e r) ts
    else .ok (e, ts)

/-- A call with exclamation marks after it. -/
def postfixed (lang : Language Value) : Nat → Tokens → Parse (Expr × Tokens)
  | 0, _ => .error .exhausted
  | fuel + 1, ts => do
    let (e, ts) ← call lang fuel ts
    marks lang fuel e ts

def marks (lang : Language Value) : Nat → Expr → Tokens → Parse (Expr × Tokens)
  | 0, _, _ => .error .exhausted
  | fuel + 1, e, ts =>
    if ts.isOp "!" then do
      let ts ← ts.advance
      marks lang fuel (.unary "!" e) ts
    else .ok (e, ts)

/-- A prefix operator with an atom, or an atom with arguments, members and indices after it. -/
def call (lang : Language Value) : Nat → Tokens → Parse (Expr × Tokens)
  | 0, _ => .error .exhausted
  | fuel + 1, ts =>
    if isPrefixOperator lang ts.kind then do
      let op := ts.kind.text
      let ts ← ts.advance
      let (e, ts) ← atom lang fuel ts
      .ok (.unary op e, ts)
    else do
      let (e, ts) ← atom lang fuel ts
      links lang fuel e ts

/-- Arguments, members and indices after the expression `e`. -/
def links (lang : Language Value) : Nat → Expr → Tokens → Parse (Expr × Tokens)
  | 0, _, _ => .error .exhausted
  | fuel + 1, e, ts =>
    if isLeftParen ts.kind then do
      let ts ← ts.advance
      if isRightParen ts.kind then
        let ts ← ts.advance
        links lang fuel (.call e []) ts
      else
        let (args, ts) ← arguments lang fuel [] ts
        links lang fuel (.call e args) ts
    else if ts.isOp "." then do
      let ts ← ts.advance
      let (name, ts) ← memberName ts
      links lang fuel (.member e name) ts
    else if isLeftBracket ts.kind then do
      let ts ← ts.advance
      let (i, ts) ← statements lang fuel ts
      let ts ← ts.expect isRightBracket "]"
      links lang fuel (.binary "[" e i) ts
    else .ok (e, ts)

/-- At least one argument up to the closing parenthesis; `acc` holds those so far in reverse. -/
def arguments (lang : Language Value) : Nat → List Expr → Tokens → Parse (List Expr × Tokens)
  | 0, _, _ => .error .exhausted
  | fuel + 1, acc, ts => do
    let (e, ts) ← statements lang fuel ts
    if isComma ts.kind then
      let ts ← ts.advance
      arguments lang fuel (e :: acc) ts
    else
      let ts ← ts.expect isRightParen ")"
      .ok ((e :: acc).reverse, ts)

/-- The items of an array up to its closing bracket, a comma after the last one allowed. -/
def items (lang : Language Value) : Nat → List Expr → Tokens → Parse (List Expr × Tokens)
  | 0, _, _ => .error .exhausted
  | fuel + 1, acc, ts =>
    if isRightBracket ts.kind then do
      let ts ← ts.advance
      .ok (acc.reverse, ts)
    else do
      let (e, ts) ← statements lang fuel ts
      if isComma ts.kind then
        let ts ← ts.advance
        items lang fuel (e :: acc) ts
      else
        let ts ← ts.expect isRightBracket "]"
        .ok ((e :: acc).reverse, ts)

/-- The fields of an object up to its closing brace, a comma after the last one allowed. -/
def fields (lang : Language Value) :
    Nat → List (String × Expr) → Tokens → Parse (List (String × Expr) × Tokens)
  | 0, _, _ => .error .exhausted
  | fuel + 1, acc, ts =>
    if isRightBrace ts.kind then do
      let ts ← ts.advance
      .ok (acc.reverse, ts)
    else do
      let (name, ts) ← key ts
      let ts ← ts.expect (·.isOp ":") ":"
      let (e, ts) ← statements lang fuel ts
      if isComma ts.kind then
        let ts ← ts.advance
        fields lang fuel ((name, e) :: acc) ts
      else
        let ts ← ts.expect isRightBrace "\x7d"
        .ok (((name, e) :: acc).reverse, ts)

/-- A case block after its first word. -/
def caseBlock (lang : Language Value) : Nat → Tokens → Parse (Expr × Tokens)
  | 0, _ => .error .exhausted
  | fuel + 1, ts =>
    if isBranchWord ts.kind then branches lang fuel none [] ts
    else if ts.isKeyword .thenWord then fail (.invalidCase ts.next)
    else do
      let (tested, ts) ← assignment lang fuel ts
      if isBranchWord ts.kind then branches lang fuel (some tested) [] ts
      else fail (.invalidCase ts.next)

/-- The branches of a case block up to its last word; `acc` holds those so far in reverse. -/
def branches (lang : Language Value) :
    Nat → Option Expr → List (Expr × Expr) → Tokens → Parse (Expr × Tokens)
  | 0, _, _, _ => .error .exhausted
  | fuel + 1, tested, acc, ts =>
    if ts.isKeyword .whenWord then do
      let ts ← ts.advance
      let (c, ts) ← assignment lang fuel ts
      if ts.isKeyword .thenWord then
        let ts ← ts.advance
        let (v, ts) ← assignment lang fuel ts
        branches lang fuel tested ((c, v) :: acc) ts
      else fail (.caseMissingThen ts.next)
    else if ts.isKeyword .elseWord then do
      let ts ← ts.advance
      let (v, ts) ← assignment lang fuel ts
      if ts.isKeyword .endWord then
        let ts ← ts.advance
        .ok (.case tested acc.reverse (some v), ts)
      else fail (.invalidCase ts.next)
    else if ts.isKeyword .endWord then do
      let ts ← ts.advance
      .ok (.case tested acc.reverse none, ts)
    else fail (.invalidCase ts.next)

/-- A name, a literal, an array, an object, a case block, or statements in parentheses. -/
def atom (lang : Language Value) : Nat → Tokens → Parse (Expr × Tokens)
  | 0, _ => .error .exhausted
  | fuel + 1, ts =>
    match ts.kind with
    | .name n => do .ok (.variable n, ← ts.advance)
    | .op op =>
      if (lang.unaryOp? op).isSome then do .ok (.variable op, ← ts.advance)
      else fail (.unexpected ts.next)
    | .constant n => do .ok (.literal ((lang.constant? n).getD .undefined), ← ts.advance)
    | .number x => do .ok (.literal (.number x), ← ts.advance)
    | .string s => do .ok (.literal (.string s), ← ts.advance)
    | .undefined => do .ok (.undefined, ← ts.advance)
    | .leftParen => do
      let ts ← ts.advance
      let (e, ts) ← statements lang fuel ts
      let ts ← ts.expect isRightParen ")"
      .ok (e, ts)
    | .leftBracket => do
      let ts ← ts.advance
      let (es, ts) ← items lang fuel [] ts
      .ok (.array es, ts)
    | .leftBrace => do
      let ts ← ts.advance
      let (fs, ts) ← fields lang fuel [] ts
      .ok (.object fs, ts)
    | .keyword .caseWord => do
      let ts ← ts.advance
      caseBlock lang fuel ts
    | .keyword k => do .ok (.variable k.text, ← ts.advance)
    | _ => fail (.unexpected ts.next)

end

/-! ### Whole texts -/

/-- The stream of the tokens of a text; the first of them may be the fault. -/
def Tokens.ofLexed (lexed : Lexer.Lexed) : Parse Tokens :=
  match lexed.tokens with
  | t :: rest => .ok ⟨t, rest, lexed.fault⟩
  | [] =>
    match lexed.fault with
    | some e => fail (.lexical e)
    | none => .error .exhausted

/-- The fuel that is enough for a number of tokens. -/
def enough (tokens : Nat) : Nat := 32 * (tokens + 1)

/-- The expression of all the tokens. -/
def whole (lang : Language Value) (lexed : Lexer.Lexed) : Parse Expr := do
  let ts ← Tokens.ofLexed lexed
  let (e, ts) ← statements lang (enough lexed.tokens.length) ts
  let _ ← ts.expect isEnd "EOF"
  .ok e

end Parser

/-- Parses a source text in a language. -/
def parseExpr (lang : Language Value) (source : String) : Except ParseError Expr :=
  match Parser.whole lang (lex lang source) with
  | .ok e => .ok e
  | .error (.error e) => .error e
  | .error .exhausted => .error (.unexpected ⟨⟨.first, .first⟩, .eof⟩)

end Formula
