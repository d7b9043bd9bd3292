import Formula.Text.Position
import Formula.Text.Quoted
import Formula.Number.Text

/-!
# Tokens

The smallest units of a formula, each with its place in the text.
-/

namespace Formula

/-- The words of a case block. -/
inductive Keyword where
  | caseWord
  | whenWord
  | thenWord
  | elseWord
  | endWord
deriving DecidableEq, Repr

namespace Keyword

def ofName? : String → Option Keyword
  | "case" => some caseWord
  | "when" => some whenWord
  | "then" => some thenWord
  | "else" => some elseWord
  | "end" => some endWord
  | _ => none

def text : Keyword → String
  | caseWord => "case"
  | whenWord => "when"
  | thenWord => "then"
  | elseWord => "else"
  | endWord => "end"

end Keyword

inductive TokenKind where
  | comma
  | constant (name : String)
  | eof
  | keyword (k : Keyword)
  | leftBrace
  | leftBracket
  | leftParen
  | name (name : String)
  | number (x : Float)
  | op (op : String)
  | rightBrace
  | rightBracket
  | rightParen
  | semicolon
  | string (s : String)
  | undefined

namespace TokenKind

/-- How a token is named in messages. -/
def text : TokenKind → String
  | comma => ","
  | constant c => c
  | eof => "EOF"
  | keyword k => k.text
  | leftBrace => "\x7b"
  | leftBracket => "["
  | leftParen => "("
  | .name n => n
  | number x => Number.text x
  | op o => o
  | rightBrace => "\x7d"
  | rightBracket => "]"
  | rightParen => ")"
  | semicolon => ";"
  | string s => Text.quoted s
  | undefined => "undefined"

def isOp (k : TokenKind) (o : String) : Bool :=
  match k with
  | op p => p == o
  | _ => false

def isKeyword (k : TokenKind) (w : Keyword) : Bool :=
  match k with
  | keyword v => v == w
  | _ => false

end TokenKind

structure Token where
  range : Range
  kind : TokenKind

namespace Token

def isEof (t : Token) : Bool :=
  match t.kind with
  | .eof => true
  | _ => false

end Token

end Formula
