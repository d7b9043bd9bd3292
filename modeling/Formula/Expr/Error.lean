import Formula.Token
import Formula.Token.Error

/-!
# Parse errors

Why a text is no formula: a lexical error, or a token that does not fit.
-/

namespace Formula

/-- Why the tokens of a text form no formula. -/
inductive ParseError where
  | lexical (e : LexicalError)
  | expected (found : Token) (what : String)
  | unexpected (found : Token)
  | invalidTarget (equals : Token)
  | definitionNotPermitted (equals : Token)
  | invalidCase (found : Token)
  | caseMissingThen (found : Token)

namespace ParseError

def range : ParseError → Range
  | lexical e => e.range
  | expected t _ | unexpected t | invalidTarget t => t.range
  | definitionNotPermitted t | invalidCase t => t.range
  | caseMissingThen t => t.range

def message (e : ParseError) : String :=
  match e with
  | lexical e => e.message
  | expected t what => located t ("Expected " ++ what)
  | unexpected t =>
    located t ("unexpected " ++ if t.isEof then "EOF" else "\"" ++ t.kind.text ++ "\"")
  | invalidTarget t => located t "invalid assignment target"
  | definitionNotPermitted t => located t "function definition is not permitted"
  | invalidCase t => located t "invalid case block"
  | caseMissingThen t => located t "case block missing when/then"
where
  located (t : Token) (what : String) : String :=
    "parse error " ++ t.range.start.text ++ ": " ++ what

def help? : ParseError → Option String
  | lexical e => e.help?
  | expected _ what => some ("Insert '" ++ what ++ "' or remove the tokens before it.")
  | unexpected t =>
    some (if t.isEof then "Input ended unexpectedly. Make sure all expressions are complete."
      else "Check for syntax errors or misplaced tokens.")
  | invalidTarget _ => some "Only variables, members and \x60name(params)\x60 can be assigned to."
  | definitionNotPermitted _ => some "Enable the 'fndef' operator category to define functions."
  | invalidCase _ | caseMissingThen _ =>
    some "A case block is \x60case [value] when cond then result ... [else result] end\x60."

end ParseError

end Formula
