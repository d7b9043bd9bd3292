import Formula.Token
import Formula.Token.Error
import Formula.Value
import Formula.Number.Numeral

/-!
# Reading tokens

A text is read from left to right. Blanks and comments separate tokens; a comment that is not
closed reaches to the end. At each place the kinds of token are tried in a fixed order, each
taking as much as it can: numbers, strings, punctuation, operators, names. Identifiers and digits
are ASCII only.
-/

namespace Formula

namespace Lexer

/-! ### Blanks and comments -/

def isBlank (c : Char) : Bool := c == ' ' || c == '\t' || c == '\r' || c == '\n'

/-- Skips blanks and comments; `inside` says whether the text starts within a comment. -/
def skipTrivia : (inside : Bool) → Position → List Char → Position × List Char
  | false, p, '/' :: '*' :: rest => skipTrivia true ((p.next '/').next '*') rest
  | false, p, c :: rest => if isBlank c then skipTrivia false (p.next c) rest else (p, c :: rest)
  | true, p, '*' :: '/' :: rest => skipTrivia false ((p.next '*').next '/') rest
  | true, p, c :: rest => skipTrivia true (p.next c) rest
  | _, p, [] => (p, [])

/-! ### Characters of names -/

def isLetter (c : Char) : Bool := ('a' ≤ c && c ≤ 'z') || ('A' ≤ c && c ≤ 'Z')

def isNamePart (c : Char) : Bool := isLetter c || isDecimalDigit c || c == '_'

def isNameStart (c : Char) : Bool := isLetter c || c == '_'

/-- Whether the text goes on with a character of a class. -/
def startsWith (p : Char → Bool) : List Char → Bool
  | c :: _ => p c
  | [] => false

/-! ### Numbers -/

/-- What a reader found: the characters of the token, its kind, and the text after it. -/
structure Lexeme where
  taken : List Char
  kind : TokenKind
  rest : List Char

/-- The outcome of a reader that does not know where it is: what it found, the text of a malformed
number or name, or what is wrong with a string. -/
inductive Scan where
  | found (l : Lexeme)
  | badNumber (text : List Char)
  | badString (message : String)
  | badName (text : List Char)

def isHexDigit (c : Char) : Bool := (digitValue? 16 c).isSome

def isBinaryDigit (c : Char) : Bool := c == '0' || c == '1'

/-- A number of a radix after its mark. -/
def scanRadix (radix : Nat) (mark : List Char) (isDigit : Char → Bool) (cs : List Char) : Scan :=
  let digits := cs.takeWhile isDigit
  if digits.isEmpty then .badNumber mark
  else
    .found ⟨mark ++ digits, .number (Number.ofRadix radix (digits.filterMap (digitValue? radix))),
      cs.dropWhile isDigit⟩

/-- The digits of a number before its power of ten, with what follows. -/
def scanMantissa? (cs : List Char) : Option (List Char × List Char) :=
  let whole := cs.takeWhile isDecimalDigit
  let rest := cs.dropWhile isDecimalDigit
  if whole.isEmpty then
    match cs with
    | '.' :: more =>
      let fraction := more.takeWhile isDecimalDigit
      if fraction.isEmpty then none else some ('.' :: fraction, more.dropWhile isDecimalDigit)
    | _ => none
  else
    match rest with
    | '.' :: more =>
      some (whole ++ '.' :: more.takeWhile isDecimalDigit, more.dropWhile isDecimalDigit)
    | _ => some (whole, rest)

/-- The sign and the digits of a power of ten after its mark, with what follows. -/
def scanPower? (cs : List Char) : Option (List Char × List Char) :=
  let (sign, ds) : List Char × List Char :=
    match cs with
    | '+' :: ds => (['+'], ds)
    | '-' :: ds => (['-'], ds)
    | ds => ([], ds)
  let digits := ds.takeWhile isDecimalDigit
  if digits.isEmpty then none else some (sign ++ digits, ds.dropWhile isDecimalDigit)

/-- The characters of a number as its token. -/
def numberLexeme (text rest : List Char) : Scan :=
  let x := Number.parseChars text
  if x.isNaN then .badNumber text else .found ⟨text, .number x, rest⟩

/-- A number, if the text starts with one. -/
def scanNumber? (cs : List Char) : Option Scan :=
  match cs with
  | '0' :: 'x' :: rest => some (scanRadix 16 ['0', 'x'] isHexDigit rest)
  | '0' :: 'b' :: rest => some (scanRadix 2 ['0', 'b'] isBinaryDigit rest)
  | _ =>
    match scanMantissa? cs with
    | none => none
    | some (mantissa, e :: rest) =>
      if Numeral.isExponentMark e then
        match scanPower? rest with
        | some (power, rest) => some (numberLexeme (mantissa ++ e :: power) rest)
        | none => some (.badNumber (mantissa ++ [e]))
      else some (numberLexeme mantissa (e :: rest))
    | some (mantissa, []) => some (numberLexeme mantissa [])

/-! ### Strings -/

/-- The character of a one-letter escape. -/
def shortEscape? : Char → Option Char
  | '\'' => some '\''
  | '"' => some '"'
  | '\\' => some '\\'
  | '/' => some '/'
  | 'b' => some '\x08'
  | 'f' => some '\x0c'
  | 'n' => some '\n'
  | 'r' => some '\r'
  | 't' => some '\t'
  | _ => none

/-- The value of four hexadecimal digits. -/
def hex4? (a b c d : Char) : Option Nat :=
  match digitValue? 16 a, digitValue? 16 b, digitValue? 16 c, digitValue? 16 d with
  | some a, some b, some c, some d => some (((a * 16 + b) * 16 + c) * 16 + d)
  | _, _, _, _ => none

/-- The character of a code; codes that are no characters become the replacement character. -/
def charOfCode (n : Nat) : Char := if n.isValidChar then Char.ofNat n else '\uFFFD'

def unterminated : String := "Unterminated string literal"

/-- Reads a string after its opening quote. `taken` and `acc` hold the characters read and the
characters meant, both in reverse. -/
def scanString (quote : Char) : List Char → (taken acc : List Char) → Scan
  | [], _, _ => .badString unterminated
  | c :: rest, taken, acc =>
    if c = quote then .found ⟨(c :: taken).reverse, .string (String.ofList acc.reverse), rest⟩
    else if c = '\\' then
      match rest with
      | 'u' :: a :: b :: d :: e :: rest =>
        match hex4? a b d e with
        | some n =>
          scanString quote rest (e :: d :: b :: a :: 'u' :: c :: taken) (charOfCode n :: acc)
        | none => .badString ("Illegal escape sequence: \\u" ++ String.ofList [a, b, d, e])
      | 'u' :: short => .badString ("Illegal escape sequence: \\u" ++ String.ofList short)
      | x :: rest =>
        match shortEscape? x with
        | some ch => scanString quote rest (x :: c :: taken) (ch :: acc)
        | none => .badString ("Illegal escape sequence: \\" ++ String.ofList [x])
      | [] => .badString unterminated
    else scanString quote rest (c :: taken) (c :: acc)

/-- A string, if the text starts with a quote. -/
def scanString? : List Char → Option Scan
  | c :: rest => if c = '"' ∨ c = '\'' then some (scanString c rest [c] []) else none
  | [] => none

/-! ### Punctuation, operators and names -/

def punctuation? : Char → Option TokenKind
  | ',' => some .comma
  | ';' => some .semicolon
  | '(' => some .leftParen
  | ')' => some .rightParen
  | '\x7b' => some .leftBrace
  | '\x7d' => some .rightBrace
  | '[' => some .leftBracket
  | ']' => some .rightBracket
  | _ => none

/-- The operator at the start of a text, as written and as meant, with what follows. -/
def operator? : List Char → Option (List Char × String × List Char)
  | '>' :: '=' :: rest => some (['>', '='], ">=", rest)
  | '<' :: '=' :: rest => some (['<', '='], "<=", rest)
  | '=' :: '=' :: rest => some (['=', '='], "==", rest)
  | '!' :: '=' :: rest => some (['!', '='], "!=", rest)
  | '|' :: '|' :: rest => some (['|', '|'], "||", rest)
  | '?' :: '?' :: rest => some (['?', '?'], "??", rest)
  | c :: rest =>
    if "+-*/%^!<>=?:.".toList.contains c then some ([c], String.ofList [c], rest)
    else if c = '∙' ∨ c = '•' then some ([c], "*", rest)
    else none
  | [] => none

/-- A name that starts with one or two dollar signs, then a letter. -/
def scanSigil (cs : List Char) : Scan :=
  let sigil : List Char := if cs.take 2 = ['$', '$'] then ['$', '$'] else ['$']
  let rest := cs.drop sigil.length
  if startsWith isLetter rest then
    let name := sigil ++ rest.takeWhile isNamePart
    .found ⟨name, .name (String.ofList name), rest.dropWhile isNamePart⟩
  else
    let after := cs.drop 1
    .badName ('$' :: if startsWith isNameStart after then after.takeWhile isNamePart else [])

/-- The words that are operators in every language. -/
def wordOperators : List String := ["and", "or", "not", "in", "as"]

/-- What a name stands for: an enabled word or named operator, a keyword, a constant or a
variable. -/
def classify (lang : Language Value) (name : String) : TokenKind :=
  let named := wordOperators.contains name || (lang.unaryOp? name).isSome
  if named && lang.isOperatorEnabled name then .op name
  else
    match Keyword.ofName? name with
    | some k => .keyword k
    | none =>
      if name = "undefined" then .undefined
      else if (lang.constant? name).isSome then .constant name
      else .name name

/-! ### Tokens -/

/-- The operator that must be enabled for a kind of punctuation. -/
def bracketOperator? : TokenKind → Option String
  | .leftBracket => some "["
  | .rightBracket => some "]"
  | _ => none

/-- Refuses a disabled operator. -/
def requireEnabled (lang : Language Value) (range : Range) (op : String) :
    Except LexicalError Unit :=
  if lang.isOperatorEnabled op then .ok () else .error (.disabledOperator range op (category op))

/-- A token of one character at a position. -/
def single (p : Position) : Range := ⟨p, ⟨p.line, p.column + 1⟩⟩

/-- Gives a reader's outcome its place. -/
def place (p : Position) : Scan → Except LexicalError (Token × List Char)
  | .found l => .ok (⟨⟨p, p.after l.taken⟩, l.kind⟩, l.rest)
  | .badNumber text => .error (.invalidNumber ⟨p, p.after text⟩ (String.ofList text))
  | .badString message => .error (.invalidString (single p) message)
  | .badName text => .error (.invalidName ⟨p, p.after text⟩ (String.ofList text))

/-- The token at a position of a text that is not at its end. -/
def tokenAt (lang : Language Value) (p : Position) (c : Char) (rest : List Char) :
    Except LexicalError (Token × List Char) :=
  match scanNumber? (c :: rest) with
  | some s => place p s
  | none =>
    match scanString? (c :: rest) with
    | some s => place p s
    | none =>
      match punctuation? c with
      | some kind => do
        let range := single p
        match bracketOperator? kind with
        | some op => requireEnabled lang range op
        | none => pure ()
        .ok (⟨range, kind⟩, rest)
      | none =>
        match operator? (c :: rest) with
        | some (taken, op, rest) => do
          let range : Range := ⟨p, p.after taken⟩
          if op != ":" then requireEnabled lang range op
          .ok (⟨range, .op op⟩, rest)
        | none =>
          if c = '$' then place p (scanSigil (c :: rest))
          else if isNameStart c then
            let name := (c :: rest).takeWhile isNamePart
            let kind := classify lang (String.ofList name)
            place p (.found ⟨name, kind, (c :: rest).dropWhile isNamePart⟩)
          else .error (.unknownCharacter (single p) c)

/-- The tokens of a text up to its end or up to the first place where none can be read. -/
structure Lexed where
  tokens : List Token
  fault : Option LexicalError

/-- Reads the tokens from a position on. Every token takes a character, so the length of the text
is enough `fuel`. -/
def tokensFrom (lang : Language Value) : (fuel : Nat) → Position → List Char → Lexed
  | 0, p, cs =>
    match skipTrivia false p cs with
    | (p, []) => ⟨[⟨⟨p, p⟩, .eof⟩], none⟩
    | (p, c :: _) => ⟨[], some (.unknownCharacter (single p) c)⟩
  | fuel + 1, p, cs =>
    match skipTrivia false p cs with
    | (p, []) => ⟨[⟨⟨p, p⟩, .eof⟩], none⟩
    | (p, c :: rest) =>
      match tokenAt lang p c rest with
      | .error e => ⟨[], some e⟩
      | .ok (t, rest) =>
        let lexed := tokensFrom lang fuel t.range.stop rest
        ⟨t :: lexed.tokens, lexed.fault⟩

end Lexer

/-- The tokens of a source text in a language; the last one is the end of the text unless there is
a fault. -/
def lex (lang : Language Value) (source : String) : Lexer.Lexed :=
  Lexer.tokensFrom lang source.toList.length .first source.toList

/-- All tokens of a source text, the end included. -/
def tokenize (lang : Language Value) (source : String) : Except LexicalError (List Token) :=
  let lexed := lex lang source
  match lexed.fault with
  | some e => .error e
  | none => .ok lexed.tokens

end Formula
