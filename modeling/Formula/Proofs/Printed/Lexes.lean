import Formula.Proofs.Numbers.Signs
import Formula.Token.Lexer
import Formula.Value.Text

/-!
# Texts and their tokens

A text begins with a token when the lexer takes it there, whatever stands behind. One lemma for
each kind of token says how it is written and which characters may follow it: names and numbers go
on with letters and digits, a number also with a point, and every other token ends by itself.
-/

namespace Formula.Lexer

variable {lang : Language Value} {cs rest : List Char} {k : TokenKind} {ks : List TokenKind}

/-- A text of tokens of certain kinds up to its end. -/
def Lexes (lang : Language Value) (cs : List Char) (ks : List TokenKind) : Prop :=
  ∀ fuel, cs.length ≤ fuel → ∀ p,
    (tokensFrom lang fuel p cs).fault = none ∧
      (tokensFrom lang fuel p cs).tokens.map Token.kind = ks

/-- A text that has a token of a certain kind at its start, before the rest. -/
structure Begins (lang : Language Value) (cs : List Char) (k : TokenKind) (rest : List Char) :
    Prop where
  bare : ∀ p, skipTrivia false p cs = (p, cs)
  token : ∃ c more, cs = c :: more ∧ rest.length ≤ more.length ∧
    ∀ p, ∃ t, tokenAt lang p c more = .ok (t, rest) ∧ t.kind = k

theorem Lexes.nil : Lexes lang [] [.eof] := by
  intro fuel _ p
  cases fuel <;> exact ⟨rfl, rfl⟩

theorem Begins.lexes (h : Begins lang cs k rest) (hrest : Lexes lang rest ks) :
    Lexes lang cs (k :: ks) := by
  intro fuel hf p
  obtain ⟨c, more, rfl, hlength, htoken⟩ := h.token
  obtain ⟨t, ht, hk⟩ := htoken p
  simp only [List.length_cons] at hf
  obtain ⟨fuel, rfl⟩ : ∃ f, fuel = f + 1 := ⟨fuel - 1, by omega⟩
  obtain ⟨hfault, hkinds⟩ := hrest fuel (by omega) t.range.stop
  have hstep : tokensFrom lang (fuel + 1) p (c :: more) =
      ⟨t :: (tokensFrom lang fuel t.range.stop rest).tokens,
        (tokensFrom lang fuel t.range.stop rest).fault⟩ := by
    rw [tokensFrom, h.bare p]
    simp only [ht]
  rw [hstep]
  exact ⟨hfault, by simp only [List.map_cons, hkinds, hk]⟩

theorem Lexes.blank (h : Lexes lang cs ks) : Lexes lang (' ' :: cs) ks := by
  intro fuel hf p
  have hskip : skipTrivia false p (' ' :: cs) = skipTrivia false (p.next ' ') cs := rfl
  have hstep : tokensFrom lang fuel p (' ' :: cs) = tokensFrom lang fuel (p.next ' ') cs := by
    cases fuel <;> simp only [tokensFrom, hskip]
  rw [hstep]
  exact h fuel (Nat.le_of_succ_le hf) _

/-! ### First characters -/

theorem bare_of_ne {c : Char} (hblank : isBlank c = false) (hslash : c ≠ '/') (p : Position) :
    skipTrivia false p (c :: rest) = (p, c :: rest) := by
  unfold skipTrivia
  split
  · next heq =>
    cases heq
    exact (hslash rfl).elim
  · next heq =>
    cases heq
    rw [if_neg (by rw [hblank]; decide)]
  all_goals contradiction

theorem scanNumber?_eq_none {c : Char} (hdigit : isDecimalDigit c = false)
    (hpoint : c = '.' → ∀ d ∈ rest.head?, isDecimalDigit d = false) :
    scanNumber? (c :: rest) = none := by
  have hmantissa : scanMantissa? (c :: rest) = none := by
    unfold scanMantissa?
    simp only [List.takeWhile_cons, hdigit, Bool.false_eq_true, if_false, List.isEmpty_nil, if_true]
    split
    · next more heq =>
      obtain ⟨rfl, rfl⟩ := List.cons.inj heq
      have hfraction : rest.takeWhile isDecimalDigit = [] := by
        cases rest with
        | nil => rfl
        | cons d rest => simp [hpoint rfl d rfl]
      rw [hfraction]
      rfl
    · rfl
  unfold scanNumber?
  split
  · next heq =>
    cases heq
    exact absurd hdigit (by decide)
  · next heq =>
    cases heq
    exact absurd hdigit (by decide)
  · rw [hmantissa]

/-- A character that starts neither a number nor a string nor a comment, and is no blank. -/
structure Plain (c : Char) : Prop where
  blank : isBlank c = false
  slash : c ≠ '/'
  digit : isDecimalDigit c = false
  point : c ≠ '.'
  double : c ≠ '"'
  single : c ≠ '\''

namespace Plain

variable {c : Char}

theorem scanNumber?_eq (h : Plain c) : scanNumber? (c :: rest) = none :=
  scanNumber?_eq_none h.digit fun hpoint => (h.point hpoint).elim

theorem scanString?_eq (h : Plain c) : scanString? (c :: rest) = none :=
  if_neg fun hquote => hquote.elim h.double h.single

end Plain

/-! ### Punctuation -/

theorem plain_of_punctuation {c : Char} (h : punctuation? c = some k) : Plain c := by
  unfold punctuation? at h
  split at h <;> first | constructor <;> decide | cases h

/-- Punctuation is a token by itself; brackets are operators that have to be enabled. -/
theorem begins_punctuation {c : Char} (h : punctuation? c = some k)
    (henabled : ∀ op ∈ bracketOperator? k, lang.isOperatorEnabled op = true) :
    Begins lang (c :: rest) k rest := by
  have hplain := plain_of_punctuation h
  refine ⟨bare_of_ne hplain.blank hplain.slash, c, rest, rfl, Nat.le_refl _, fun p =>
    ⟨⟨single p, k⟩, ?_, rfl⟩⟩
  simp only [tokenAt, hplain.scanNumber?_eq, hplain.scanString?_eq, h]
  cases hb : bracketOperator? k with
  | none => rfl
  | some op =>
    simp only [requireEnabled, henabled op hb, if_true]
    rfl

/-! ### Operators -/

theorem begins_operator {c : Char} {more taken : List Char} {op : String}
    (hbare : ∀ p, skipTrivia false p (c :: more) = (p, c :: more))
    (hnumber : scanNumber? (c :: more) = none) (hstring : scanString? (c :: more) = none)
    (hpunctuation : punctuation? c = none) (hop : operator? (c :: more) = some (taken, op, rest))
    (hlength : rest.length ≤ more.length) (henabled : op = ":" ∨ lang.isOperatorEnabled op = true) :
    Begins lang (c :: more) (.op op) rest := by
  refine ⟨hbare, c, more, rfl, hlength, fun p => ⟨⟨⟨p, p.after taken⟩, .op op⟩, ?_, rfl⟩⟩
  simp only [tokenAt, hnumber, hstring, hpunctuation, hop]
  cases henabled with
  | inl hcolon =>
    subst hcolon
    rfl
  | inr henabled =>
    simp only [requireEnabled, henabled, if_true]
    split <;> rfl

/-- The operators that are written with blanks around them and are no names. -/
def operatorSymbols : List String :=
  ["??", "==", "!=", "<", "<=", ">=", ">", "+", "-", "||", "*", "/", "%", "^", "=", "?", ":"]

theorem begins_symbol {op : String} (h : op ∈ operatorSymbols)
    (henabled : lang.isOperatorEnabled op = true) :
    Begins lang (op.toList ++ ' ' :: rest) (.op op) (' ' :: rest) := by
  simp only [operatorSymbols, List.mem_cons, List.not_mem_nil, or_false] at h
  rcases h with rfl | rfl | rfl | rfl | rfl | rfl | rfl | rfl | rfl | rfl | rfl | rfl | rfl | rfl |
    rfl | rfl | rfl <;>
  exact begins_operator (fun _ => rfl) rfl rfl rfl rfl (by simp) (.inr henabled)

/-- The signs, the mark and the point end by themselves, if what follows does not join them. -/
theorem begins_sign {op : String} (h : op ∈ ["+", "-"])
    (henabled : lang.isOperatorEnabled op = true) :
    Begins lang (op.toList ++ rest) (.op op) rest := by
  simp only [List.mem_cons, List.not_mem_nil, or_false] at h
  rcases h with rfl | rfl <;>
  exact begins_operator (fun _ => rfl) rfl rfl rfl rfl (by simp) (.inr henabled)

theorem begins_mark (rest : List Char) (henabled : lang.isOperatorEnabled "!" = true) :
    Begins lang ('!' :: ')' :: rest) (.op "!") (')' :: rest) :=
  begins_operator (fun _ => rfl) rfl rfl rfl rfl (by simp) (.inr henabled)

theorem begins_point {c : Char} (hc : isDecimalDigit c = false)
    (henabled : lang.isOperatorEnabled "." = true) :
    Begins lang ('.' :: c :: rest) (.op ".") (c :: rest) := by
  refine begins_operator (fun _ => rfl) (scanNumber?_eq_none rfl fun _ d hd => ?_) rfl rfl rfl
    (by simp) (.inr henabled)
  cases hd
  exact hc

/-! ### Names -/

/-- Names without a sigil. -/
def isWord (cs : List Char) : Bool := startsWith isNameStart cs && cs.all isNamePart

/-- Names with one or two dollar signs before a letter. -/
def isSigiled : List Char → Bool
  | '$' :: '$' :: rest => startsWith isLetter rest && rest.all isNamePart
  | '$' :: rest => startsWith isLetter rest && rest.all isNamePart
  | _ => false

/-- The names that the lexer reads. -/
def isIdentifier (name : String) : Bool := isWord name.toList || isSigiled name.toList

/-- What an identifier is read as. -/
def nameKind (lang : Language Value) (name : String) : TokenKind :=
  if isWord name.toList then classify lang name else .name name

theorem plain_of_start {c : Char} (h : isNameStart c = true) : Plain c := by
  constructor
  · refine Bool.eq_false_iff.mpr fun hblank => ?_
    simp only [isBlank, Bool.or_eq_true, beq_iff_eq] at hblank
    rcases hblank with ((rfl | rfl) | rfl) | rfl <;> revert h <;> decide
  · rintro rfl
    revert h
    decide
  · refine Bool.eq_false_iff.mpr fun hdigit => ?_
    simp only [isDecimalDigit, isNameStart, isLetter, Bool.and_eq_true, Bool.or_eq_true,
      decide_eq_true_eq, beq_iff_eq, Char.le_def] at hdigit h
    obtain ⟨hlow, hhigh⟩ := hdigit
    have h₁ : c.toNat ≤ 57 := hhigh
    rcases h with (h | h) | rfl
    · have h₂ : 97 ≤ c.toNat := h.1
      omega
    · have h₂ : 65 ≤ c.toNat := h.1
      omega
    · revert h₁
      decide
  all_goals
    rintro rfl
    revert h
    decide

theorem punctuation?_eq_none {c : Char} (h : isNameStart c = true) : punctuation? c = none := by
  unfold punctuation?
  split <;> first | rfl | exact absurd h (by decide)

theorem operator?_eq_none {c : Char} (h : isNameStart c = true) : operator? (c :: rest) = none := by
  have hne : ∀ d : Char, isNameStart d = false → c ≠ d := fun d hd hcd => by
    rw [hcd, hd] at h
    cases h
  have hsymbols : "+-*/%^!<>=?:.".toList.contains c = false := by
    refine Bool.eq_false_iff.mpr fun hmem => ?_
    have hall : "+-*/%^!<>=?:.".toList.all (fun d => !isNameStart d) = true := by decide
    have := List.all_eq_true.mp hall c (List.contains_iff_mem.mp hmem)
    rw [h] at this
    cases this
  unfold operator?
  split
  case h_7 c' rest' heq =>
    obtain ⟨rfl, rfl⟩ := List.cons.inj heq
    rw [hsymbols, if_neg (by decide), if_neg]
    exact fun hdot => hdot.elim (hne _ (by decide)) (hne _ (by decide))
  all_goals first | rfl | (next heq => cases heq; exact absurd h (by decide))

theorem begins_word (lang : Language Value) (h : isWord cs = true) (hrest : ∀ c ∈ rest.head?, isNamePart c = false) :
    Begins lang (cs ++ rest) (classify lang (String.ofList cs)) rest := by
  obtain ⟨hstart, hparts⟩ := Bool.and_eq_true_iff.mp h
  cases cs with
  | nil => cases hstart
  | cons c more =>
    have hplain := plain_of_start hstart
    obtain ⟨htake, hdrop⟩ := takeWhile_append (List.all_eq_true.mp hparts) hrest
    refine ⟨bare_of_ne hplain.blank hplain.slash, c, more ++ rest, rfl, by simp, fun p =>
      ⟨⟨⟨p, p.after (c :: more)⟩, classify lang (String.ofList (c :: more))⟩, ?_, rfl⟩⟩
    have hname : isNameStart c = true := hstart
    have hdollar : c ≠ '$' := by
      rintro rfl
      exact absurd hname (by decide)
    rw [List.cons_append] at htake hdrop
    simp only [tokenAt, hplain.scanNumber?_eq, hplain.scanString?_eq, punctuation?_eq_none hname,
      operator?_eq_none hname, hdollar, if_false, hname, if_true, htake, hdrop, place]

theorem begins_sigiled (lang : Language Value) (h : isSigiled cs = true)
    (hrest : ∀ c ∈ rest.head?, isNamePart c = false) :
    Begins lang (cs ++ rest) (.name (String.ofList cs)) rest := by
  obtain ⟨more, rfl⟩ : ∃ more, cs = '$' :: more := by
    unfold isSigiled at h
    split at h
    · exact ⟨_, rfl⟩
    · exact ⟨_, rfl⟩
    · cases h
  have hscan : scanSigil ('$' :: (more ++ rest)) =
      .found ⟨'$' :: more, .name (String.ofList ('$' :: more)), rest⟩ := by
    unfold isSigiled at h
    split at h
    · next name heq =>
      cases heq
      obtain ⟨hstart, hparts⟩ := Bool.and_eq_true_iff.mp h
      obtain ⟨htake, hdrop⟩ := takeWhile_append (List.all_eq_true.mp hparts) hrest
      have hstart' : startsWith isLetter (name ++ rest) = true := by
        cases name with
        | nil => cases hstart
        | cons c name => exact hstart
      simp [scanSigil, hstart', htake, hdrop]
    · next hne heq =>
      cases heq
      obtain ⟨hstart, hparts⟩ := Bool.and_eq_true_iff.mp h
      obtain ⟨htake, hdrop⟩ := takeWhile_append (List.all_eq_true.mp hparts) hrest
      cases more with
      | nil => cases hstart
      | cons c name =>
        have hc : c ≠ '$' := by
          rintro rfl
          exact hne name rfl
        have hstart' : startsWith isLetter (c :: name ++ rest) = true := hstart
        simp only [List.cons_append] at htake hdrop hstart'
        simp [scanSigil, hstart', htake, hdrop, hc]
    · cases h
  refine ⟨fun p => bare_of_ne rfl (by decide) p, '$', more ++ rest, rfl, by simp, fun p =>
    ⟨⟨⟨p, p.after ('$' :: more)⟩, .name (String.ofList ('$' :: more))⟩, ?_, rfl⟩⟩
  have hplain : Plain '$' := by constructor <;> decide
  have hoperator : operator? ('$' :: (more ++ rest)) = none := rfl
  have hpunctuation : punctuation? '$' = none := rfl
  simp only [tokenAt, hplain.scanNumber?_eq, hplain.scanString?_eq, hpunctuation, hoperator,
    if_true, hscan, place]

theorem begins_name (lang : Language Value) {name : String} (h : isIdentifier name = true)
    (hrest : ∀ c ∈ rest.head?, isNamePart c = false) :
    Begins lang (name.toList ++ rest) (nameKind lang name) rest := by
  unfold nameKind
  split
  · next hword => simpa using begins_word lang hword hrest
  · next hword =>
    have hsigiled : isSigiled name.toList = true := by
      simpa [isIdentifier, hword] using h
    simpa using begins_sigiled lang hsigiled hrest

/-! ### Numbers -/

theorem not_isDecimalDigit {c : Char} (h : isNamePart c = false) : isDecimalDigit c = false := by
  simp only [isNamePart, Bool.or_eq_false_iff] at h
  exact h.1.2

section

variable {s : Spelling}

theorem scanMantissa?_chars (h : s.Proper)
    (hrest : ∀ c ∈ rest.head?, isNamePart c = false ∧ c ≠ '.') :
    scanMantissa? (s.chars ++ rest) =
      some (s.mantissa, (s.power.elim [] fun p => 'e' :: Spelling.sign p.1 :: p.2) ++ rest) := by
  generalize hpower : (s.power.elim [] fun p => 'e' :: Spelling.sign p.1 :: p.2) = power
  have hafter : ∀ c ∈ (power ++ rest).head?, isDecimalDigit c = false ∧ c ≠ '.' := fun c hc => by
    cases hp : s.power with
    | none =>
      rw [hp, Option.elim_none] at hpower
      rw [← hpower, List.nil_append] at hc
      exact ⟨not_isDecimalDigit (hrest c hc).1, (hrest c hc).2⟩
    | some p =>
      rw [hp, Option.elim_some] at hpower
      rw [← hpower] at hc
      cases hc
      decide
  have hwhole : s.whole.isEmpty = false := by simpa using h.whole.1
  have hchars : s.chars ++ rest = s.mantissa ++ (power ++ rest) := by
    rw [Spelling.chars, hpower, List.append_assoc]
  rw [hchars]
  unfold Spelling.mantissa scanMantissa?
  cases hf : s.fraction with
  | none =>
    obtain ⟨htake, hdrop⟩ := takeWhile_append h.whole.2 fun c hc => (hafter c hc).1
    simp only [Option.elim_none, List.append_nil, htake, hdrop, hwhole, Bool.false_eq_true, if_false]
    split
    · next more heq =>
      rw [heq] at hafter
      exact ((hafter '.' rfl).2 rfl).elim
    · rfl
  | some f =>
    obtain ⟨htake, hdrop⟩ := takeWhile_append h.whole.2 fun c
      (hc : c ∈ ('.' :: (f ++ (power ++ rest))).head?) => by cases hc; decide
    obtain ⟨htake', hdrop'⟩ := takeWhile_append (h.fraction f hf).2 fun c hc => (hafter c hc).1
    simp only [Option.elim_some, List.append_assoc, List.cons_append, htake, hdrop, hwhole,
      Bool.false_eq_true, if_false, htake', hdrop']

theorem scanPower?_chars (negative : Bool) {ds : List Char} (h : AreDigits ds)
    (hrest : ∀ c ∈ rest.head?, isNamePart c = false) :
    scanPower? (Spelling.sign negative :: (ds ++ rest)) = some (Spelling.sign negative :: ds, rest) := by
  obtain ⟨htake, hdrop⟩ := takeWhile_append h.2 fun c hc => not_isDecimalDigit (hrest c hc)
  have hds : ds.isEmpty = false := by simpa using h.1
  cases negative <;> simp [scanPower?, Spelling.sign, htake, hdrop, hds]

theorem scanNumber?_chars (h : s.Proper)
    (hrest : ∀ c ∈ rest.head?, isNamePart c = false ∧ c ≠ '.') :
    scanNumber? (s.chars ++ rest) = some (numberLexeme s.chars rest) := by
  have hradix : ∀ x more, s.chars ++ rest = '0' :: x :: more → x ≠ 'x' ∧ x ≠ 'b' := by
    intro x more heq
    obtain ⟨c, tail, hchars, -⟩ := Spelling.chars_eq_cons h
    rw [hchars] at heq
    have hx : x ∈ s.chars ∨ isNamePart x = false := by
      cases tail with
      | nil =>
        have htail : rest = x :: more := (List.cons.inj heq).2
        exact .inr (hrest x (by rw [htail]; rfl)).1
      | cons d tail =>
        obtain rfl : d = x := by simpa using (List.cons.inj (List.cons.inj heq).2).1
        exact .inl (by rw [hchars]; simp)
    rcases hx with hx | hx
    · have := Spelling.ne_letter h hx
      constructor <;> rintro rfl <;> exact this (by decide)
    · constructor <;> rintro rfl <;> revert hx <;> decide
  unfold scanNumber?
  split
  · next more heq => exact ((hradix _ _ heq).1 rfl).elim
  · next more heq => exact ((hradix _ _ heq).2 rfl).elim
  · rw [scanMantissa?_chars h hrest]
    have hchars : s.chars = s.mantissa ++ s.power.elim [] fun p => 'e' :: Spelling.sign p.1 :: p.2 :=
      rfl
    cases hp : s.power with
    | none =>
      rw [hp, Option.elim_none, List.append_nil] at hchars
      rw [Option.elim_none, List.nil_append, hchars]
      cases rest with
      | nil => rfl
      | cons c rest =>
        have hmark : Numeral.isExponentMark c = false := by
          have := (hrest c rfl).1
          refine Bool.eq_false_iff.mpr fun hmark => ?_
          simp only [Numeral.isExponentMark, Bool.or_eq_true, beq_iff_eq] at hmark
          rcases hmark with rfl | rfl <;> revert this <;> decide
        simp [hmark]
    | some p =>
      rw [hp, Option.elim_some] at hchars
      have hpower := scanPower?_chars p.1 (h.power p hp) fun c hc => (hrest c hc).1
      have hmark : Numeral.isExponentMark 'e' = true := rfl
      simp only [Option.elim_some, List.cons_append, hmark, if_true, hpower, hchars]

/-- A number that is followed by no part of a number. -/
theorem begins_number {x : Float} (hx : Number.Unsigned x)
    (hrest : ∀ c ∈ rest.head?, isNamePart c = false ∧ c ≠ '.') :
    Begins lang ((Number.text x).toList ++ rest) (.number x) rest := by
  obtain ⟨s, hs, htext, hvalue⟩ := Number.text_spelling hx
  have hparse := Spelling.parseChars_chars hs
  rw [hvalue] at hparse
  obtain ⟨c, more, hchars, hc⟩ := Spelling.chars_eq_cons hs
  have hscan := scanNumber?_chars hs hrest
  rw [htext]
  rw [hchars] at hscan hparse ⊢
  have hbare : isBlank c = false ∧ c ≠ '/' := by
    constructor
    · refine Bool.eq_false_iff.mpr fun hblank => ?_
      simp only [isBlank, Bool.or_eq_true, beq_iff_eq] at hblank
      rcases hblank with ((rfl | rfl) | rfl) | rfl <;> revert hc <;> decide
    · rintro rfl
      exact absurd hc (by decide)
  refine ⟨bare_of_ne hbare.1 hbare.2, c, more ++ rest, rfl, by simp, fun p =>
    ⟨⟨⟨p, p.after (c :: more)⟩, .number x⟩, ?_, rfl⟩⟩
  rw [List.cons_append] at hscan
  simp only [tokenAt, hscan, numberLexeme, hparse, hx.not_isNaN, Bool.false_eq_true, if_false, place]

end

/-! ### Strings -/

/-- How a string literal writes a line separator. -/
def separatorEscape (c : Char) : List Char :=
  if c.toNat = 0x2028 then "\\u2028".toList
  else if c.toNat = 0x2029 then "\\u2029".toList
  else [c]

theorem quote_toList (s : String) :
    (Value.quote s).toList =
      '"' :: (s.toList.flatMap (fun c => (Json.escaped c).flatMap separatorEscape) ++ ['"']) := by
  have hquote : ∀ cs : List Char, ('"' :: (cs ++ ['"'])).flatMap separatorEscape =
      '"' :: (cs.flatMap separatorEscape ++ ['"']) := fun cs => by
    rw [List.flatMap_cons, List.flatMap_append]
    rfl
  change (String.ofList ((Json.quote s).toList.flatMap separatorEscape)).toList = _
  rw [String.toList_ofList, Json.quote, String.toList_ofList, hquote, List.flatMap_assoc]

theorem charOfCode_toNat (c : Char) : charOfCode c.toNat = c := by
  have hvalid : c.toNat.isValidChar := c.valid
  rw [charOfCode, if_pos hvalid, Char.ofNat_toNat]

/-- The digits of the code of a control character are read as that code. -/
theorem control_digits : ∀ n : Fin 32, (Json.hex2 n).flatMap separatorEscape = Json.hex2 n ∧
    hex4? '0' '0' (Nat.digitChar (n / 16)) (Nat.digitChar (n % 16)) = some n.val := by
  decide

theorem scanString_plain {quote c : Char} (hquote : c ≠ quote) (hbackslash : c ≠ '\\')
    (more taken acc : List Char) :
    scanString quote (c :: more) taken acc = scanString quote more (c :: taken) (c :: acc) := by
  rw [scanString.eq_def]
  simp only [hquote, hbackslash, if_false]

theorem scanString_short {quote x c : Char} (hquote : quote ≠ '\\') (h : shortEscape? x = some c)
    (more taken acc : List Char) :
    scanString quote ('\\' :: x :: more) taken acc =
      scanString quote more (x :: '\\' :: taken) (c :: acc) := by
  have hcode : x ≠ 'u' := by
    rintro rfl
    cases h
  rw [scanString.eq_def]
  simp [hquote.symm, hcode, h]

theorem scanString_code {quote a b d e : Char} {n : Nat} (hquote : quote ≠ '\\')
    (h : hex4? a b d e = some n) (more taken acc : List Char) :
    scanString quote ('\\' :: 'u' :: a :: b :: d :: e :: more) taken acc =
      scanString quote more (e :: d :: b :: a :: 'u' :: '\\' :: taken) (charOfCode n :: acc) := by
  rw [scanString.eq_def]
  simp only [hquote.symm, if_false, if_true, h]

/-- A character is read back from the way a literal writes it. -/
theorem scanString_escaped (c : Char) (more taken acc : List Char) :
    ∃ taken', scanString '"' ((Json.escaped c).flatMap separatorEscape ++ more) taken acc =
      scanString '"' more taken' (c :: acc) := by
  have hdouble : '"' ≠ '\\' := by decide
  by_cases hshort : c ∈ ['"', '\\', '\x08', '\x0c', '\n', '\r', '\t']
  · simp only [List.mem_cons, List.not_mem_nil, or_false] at hshort
    rcases hshort with rfl | rfl | rfl | rfl | rfl | rfl | rfl <;> exact ⟨_, rfl⟩
  · simp only [List.mem_cons, List.not_mem_nil, or_false, not_or] at hshort
    obtain ⟨hquote, hbackslash, hb, hf, hn, hr, ht⟩ := hshort
    simp only [Json.escaped, hquote, hbackslash, hb, hf, hn, hr, ht, if_false]
    split
    · next hcontrol =>
      obtain ⟨hdigits, hcode⟩ := control_digits ⟨c.toNat, hcontrol⟩
      have htext : ('\\' :: 'u' :: '0' :: '0' :: Json.hex2 c.toNat).flatMap separatorEscape =
          '\\' :: 'u' :: '0' :: '0' :: Json.hex2 c.toNat :=
        congrArg (['\\', 'u', '0', '0'] ++ ·) hdigits
      have hread := scanString_code hdouble hcode more taken acc
      rw [charOfCode_toNat] at hread
      rw [htext]
      exact ⟨_, hread⟩
    · rw [List.flatMap_cons, List.flatMap_nil, List.append_nil, separatorEscape]
      split
      · next hline =>
        have hcode : hex4? '2' '0' '2' '8' = some 0x2028 := rfl
        have hread := scanString_code hdouble hcode more taken acc
        rw [← hline, charOfCode_toNat] at hread
        exact ⟨_, hread⟩
      · split
        · next hline =>
          have hcode : hex4? '2' '0' '2' '9' = some 0x2029 := rfl
          have hread := scanString_code hdouble hcode more taken acc
          rw [← hline, charOfCode_toNat] at hread
          exact ⟨_, hread⟩
        · exact ⟨_, scanString_plain hquote hbackslash more taken acc⟩

/-- A string is read back from its literal. -/
theorem scanString_quote (rest cs : List Char) (taken acc : List Char) :
    ∃ taken', scanString '"'
        (cs.flatMap (fun c => (Json.escaped c).flatMap separatorEscape) ++ '"' :: rest) taken acc =
      .found ⟨taken', .string (String.ofList (acc.reverse ++ cs)), rest⟩ := by
  induction cs generalizing taken acc with
  | nil =>
    rw [List.flatMap_nil, List.nil_append, List.append_nil, scanString.eq_def]
    exact ⟨_, if_pos rfl⟩
  | cons c cs ih =>
    rw [List.flatMap_cons, List.append_assoc]
    obtain ⟨taken₁, h₁⟩ := scanString_escaped c
      (cs.flatMap (fun c => (Json.escaped c).flatMap separatorEscape) ++ '"' :: rest) taken acc
    obtain ⟨taken₂, h₂⟩ := ih taken₁ (c :: acc)
    refine ⟨taken₂, ?_⟩
    rw [h₁, h₂, List.reverse_cons, List.append_assoc, List.singleton_append]

theorem begins_string (s : String) :
    Begins lang ((Value.quote s).toList ++ rest) (.string s) rest := by
  obtain ⟨taken, hscan⟩ := scanString_quote rest s.toList ['"'] []
  rw [quote_toList]
  simp only [List.reverse_nil, List.nil_append, String.ofList_toList] at hscan
  have htext : ('"' :: (s.toList.flatMap (fun c => (Json.escaped c).flatMap separatorEscape) ++
      ['"'])) ++ rest = '"' :: (s.toList.flatMap (fun c =>
        (Json.escaped c).flatMap separatorEscape) ++ '"' :: rest) := by simp
  rw [htext]
  refine ⟨bare_of_ne rfl (by decide), _, _, rfl, ?_, fun p =>
    ⟨⟨⟨p, p.after taken⟩, .string s⟩, ?_, rfl⟩⟩
  · simp
    omega
  · have hnumber : scanNumber? ('"' :: (s.toList.flatMap (fun c =>
        (Json.escaped c).flatMap separatorEscape) ++ '"' :: rest)) = none :=
      scanNumber?_eq_none rfl fun h => by cases h
    simp only [tokenAt, hnumber, scanString?, true_or, if_true, hscan, place]

end Formula.Lexer
