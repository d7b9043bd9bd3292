import Formula.Text.Position

/-!
# Lexical errors

What can be wrong where a token should start, with the range of text it concerns.
-/

namespace Formula

/-- A place in the text where no token can be read, and why. -/
inductive LexicalError where
  | unknownCharacter (range : Range) (c : Char)
  | invalidNumber (range : Range) (text : String)
  | invalidString (range : Range) (message : String)
  | invalidName (range : Range) (text : String)
  | disabledOperator (range : Range) (op category : String)
deriving DecidableEq, Repr

namespace LexicalError

def range : LexicalError → Range
  | unknownCharacter r _ | invalidNumber r _ | invalidString r _ | invalidName r _ => r
  | disabledOperator r _ _ => r

def message (e : LexicalError) : String :=
  "parse error " ++ e.range.start.text ++ ": " ++
    match e with
    | unknownCharacter _ c => "Unknown character \"" ++ String.ofList [c] ++ "\""
    | invalidNumber _ text => "Invalid number \"" ++ text ++ "\""
    | invalidString _ message => message
    | invalidName _ text => "Invalid variable name \"" ++ text ++ "\""
    | disabledOperator _ op cat => "operator \"" ++ op ++ "\" is disabled (" ++ cat ++ ")"

def help? : LexicalError → Option String
  | unknownCharacter _ _ => some "Remove the character or quote it inside a string."
  | invalidNumber _ _ => some "Check the digits, decimal point and exponent of the number."
  | invalidString _ _ => some "Close the string and use only supported escape sequences."
  | invalidName _ _ => some "A \x60$\x60 must be followed by a letter."
  | disabledOperator _ _ cat =>
    some ("Enable the '" ++ cat ++ "' operator category to use this operator.")

end LexicalError

end Formula
