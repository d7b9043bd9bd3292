import Formula.Proofs.Tokens.Spelled

/-!
# String literals

Between two quotes every character can be written as it is, unless it is the quote or a backslash,
by a short escape, or by the four hexadecimal digits of its code. However the characters of a string
are written, and whatever follows the second quote, the lexer reads one token with that string, and
goes on exactly behind the quote.
-/

namespace Formula.Lexer

/-! ### Ways to write a character -/

/-- The letters of the short escapes, each with the character that is meant. -/
def shortEscapes : List (Char × Char) :=
  [('\'', '\''), ('"', '"'), ('\\', '\\'), ('/', '/'), ('b', '\x08'), ('f', '\x0c'), ('n', '\n'),
    ('r', '\r'), ('t', '\t')]

/-- A hexadecimal digit, a letter in either case, and its value. -/
def HexDigit (d : Char) (value : ℕ) : Prop :=
  "0123456789abcdef".toList[value]? = some d ∨ "0123456789ABCDEF".toList[value]? = some d

/-- The ways to write a character between quotes of a kind. -/
inductive Denotes (quote c : Char) : List Char → Prop
  | raw : c ≠ quote → c ≠ '\\' → Denotes quote c [c]
  | short {letter : Char} : (letter, c) ∈ shortEscapes → Denotes quote c ['\\', letter]
  | code {d₃ d₂ d₁ d₀ : Char} {v₃ v₂ v₁ v₀ : ℕ} :
      HexDigit d₃ v₃ → HexDigit d₂ v₂ → HexDigit d₁ v₁ → HexDigit d₀ v₀ →
      c.toNat = v₃ * 16 ^ 3 + v₂ * 16 ^ 2 + v₁ * 16 + v₀ →
      Denotes quote c ['\\', 'u', d₃, d₂, d₁, d₀]

theorem shortEscape?_of_mem : ∀ p ∈ shortEscapes, shortEscape? p.1 = some p.2 := by
  decide

theorem digitValue?_small : ∀ v < 16,
    "0123456789abcdef".toList[v]?.bind (digitValue? 16) = some v := by
  decide

theorem digitValue?_large : ∀ v < 16,
    "0123456789ABCDEF".toList[v]?.bind (digitValue? 16) = some v := by
  decide

theorem HexDigit.value_lt {d : Char} {v : ℕ} (h : HexDigit d v) : v < 16 := by
  rcases h with h | h <;> exact (List.getElem?_eq_some_iff.mp h).1

theorem HexDigit.digitValue?_eq {d : Char} {v : ℕ} (h : HexDigit d v) :
    digitValue? 16 d = some v := by
  have hv := h.value_lt
  rcases h with h | h
  · have hdigit := digitValue?_small v hv
    rwa [h] at hdigit
  · have hdigit := digitValue?_large v hv
    rwa [h] at hdigit

variable {quote : Char}

/-- A way to write a character, before a way to write others. -/
theorem Denotes.spells {c : Char} {piece written meant : List Char} (h : Denotes quote c piece)
    (hrest : Spells quote written meant) : Spells quote (piece ++ written) (c :: meant) := by
  cases h with
  | raw hquote hslash => exact .raw hquote hslash hrest
  | short hletter => exact .short (shortEscape?_of_mem _ hletter) hrest
  | @code d₃ d₂ d₁ d₀ v₃ v₂ v₁ v₀ h₃ h₂ h₁ h₀ hcode =>
    have hhex : hex4? d₃ d₂ d₁ d₀ = some c.toNat := by
      unfold hex4?
      rw [h₃.digitValue?_eq, h₂.digitValue?_eq, h₁.digitValue?_eq, h₀.digitValue?_eq]
      exact congrArg some (by omega)
    have hspells := Spells.code hhex hrest
    rwa [charOfCode_toNat] at hspells

theorem spells_of_denotes {cs : List Char} {pieces : List (List Char)}
    (h : List.Forall₂ (Denotes quote) cs pieces) : Spells quote pieces.flatten cs := by
  induction h with
  | nil => exact .nil
  | cons hpiece _ ih => exact hpiece.spells ih

/-! ### Reading a string -/

/-- A string literal: a quote, the characters as they are written, and the quote again. -/
def literal (quote : Char) (pieces : List (List Char)) : List Char :=
  quote :: (pieces.flatten ++ [quote])

theorem literal_append (pieces : List (List Char)) (rest : List Char) :
    literal quote pieces ++ rest = quote :: (pieces.flatten ++ quote :: rest) := by
  simp [literal]

variable {lang : Language Value} {s : String} {pieces : List (List Char)}

theorem scanString?_literal (hquote : quote = '"' ∨ quote = '\'')
    (h : List.Forall₂ (Denotes quote) s.toList pieces) (rest : List Char) :
    scanString? (literal quote pieces ++ rest) =
      some (.found ⟨literal quote pieces, .string s, rest⟩) := by
  have hslash : quote ≠ '\\' := by
    rcases hquote with rfl | rfl <;> decide
  have hscan := scanString_spells hslash (spells_of_denotes h) rest [quote] []
  rw [List.reverse_nil, List.nil_append, String.ofList_toList] at hscan
  rw [literal_append, scanString?, if_pos hquote, hscan]
  rfl

theorem tokenAt_literal (hquote : quote = '"' ∨ quote = '\'')
    (h : List.Forall₂ (Denotes quote) s.toList pieces) (p : Position) (rest : List Char) :
    tokenAt lang p quote (pieces.flatten ++ quote :: rest) =
      .ok (⟨⟨p, p.after (literal quote pieces)⟩, .string s⟩, rest) := by
  have hnumber : scanNumber? (quote :: (pieces.flatten ++ quote :: rest)) = none := by
    rcases hquote with rfl | rfl <;> exact scanNumber?_eq_none rfl fun hpoint => by cases hpoint
  have hstring := scanString?_literal hquote h rest
  rw [literal_append] at hstring
  unfold tokenAt
  rw [hnumber, hstring]
  rfl

/-- However the characters of a string are written between two quotes, the lexer takes the string
and its quotes as one token; what follows is left as it is, and has the tokens that come next. -/
theorem string_next (hquote : quote = '"' ∨ quote = '\'')
    (h : List.Forall₂ (Denotes quote) s.toList pieces) (p : Position) (rest : List Char) :
    let token : Token := ⟨⟨p, p.after (literal quote pieces)⟩, .string s⟩
    tokenAt lang p quote (pieces.flatten ++ quote :: rest) = .ok (token, rest) ∧
      ∀ fuel, tokensFrom lang (fuel + 1) p (literal quote pieces ++ rest) =
        ⟨token :: (tokensFrom lang fuel token.range.stop rest).tokens,
          (tokensFrom lang fuel token.range.stop rest).fault⟩ := by
  intro token
  have htoken : tokenAt lang p quote _ = .ok (token, rest) := tokenAt_literal hquote h p rest
  refine ⟨htoken, fun fuel => ?_⟩
  have hbare : skipTrivia false p (quote :: (pieces.flatten ++ quote :: rest)) =
      (p, quote :: (pieces.flatten ++ quote :: rest)) := by
    rcases hquote with rfl | rfl <;> exact bare_of_ne rfl (by decide) p
  rw [literal_append, tokensFrom, hbare]
  dsimp only
  rw [htoken]

/-- The quote itself by a short escape, a letter by its code with a digit behind it, a line break and
the other quote as they are. -/
def mixedPieces : List (List Char) :=
  [['\\', '\''], ['\\', 'u', '0', '0', 'E', '9'], ['1'], ['\n'], ['"']]

theorem mixedPieces_denote : List.Forall₂ (Denotes '\'') "'é1\n\"".toList mixedPieces := by
  refine .cons (.short (by decide)) (.cons ?_ ?_)
  · exact .code (.inl rfl : HexDigit _ 0) (.inl rfl : HexDigit _ 0) (.inr rfl : HexDigit _ 14)
      (.inl rfl : HexDigit _ 9) (by decide)
  · exact .cons (.raw (by decide) (by decide)) (.cons (.raw (by decide) (by decide))
      (.cons (.raw (by decide) (by decide)) .nil))

theorem mixed_string_next :
    List.Forall₂ (Denotes '\'') "'é1\n\"".toList mixedPieces ∧
      literal '\'' mixedPieces ++ "'a'".toList = "'\\'\\u00E91\n\"''a'".toList ∧
      tokenAt (.ofOptions 0 {}) .first '\'' "\\'\\u00E91\n\"''a'".toList =
        .ok (⟨⟨⟨1, 1⟩, ⟨2, 3⟩⟩, .string "'é1\n\""⟩, "'a'".toList) := by
  refine ⟨mixedPieces_denote, by decide, ?_⟩
  exact (string_next (.inr rfl) mixedPieces_denote .first "'a'".toList).1

end Formula.Lexer
