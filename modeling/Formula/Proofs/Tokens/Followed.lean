import Formula.Proofs.Tokens.Tiles

/-!
# What may follow a token

Where a token ends depends on one character behind it. A blank, a slash or a closing parenthesis
ends every token, so what follows a token may be exchanged for a text that starts with one of these,
with the same character as before, or not at all. One lemma for each reader says that it finds the
same there; `tokenAt_stands` says it of the lexer.
-/

namespace Formula.Lexer

/-- Characters that end the token before them: blanks, the start of a comment, a parenthesis that
closes. -/
def isSeparator (c : Char) : Bool := isBlank c || c == '/' || c == ')'

/-- A token that ends before the one text ends before the other. -/
def EndsLike (x y : List Char) : Prop :=
  y.head? = x.head? ∨ ∀ c ∈ y.head?, isSeparator c = true

theorem separator_cases {c : Char} (h : isSeparator c = true) :
    c = ' ' ∨ c = '\t' ∨ c = '\r' ∨ c = '\n' ∨ c = '/' ∨ c = ')' := by
  simpa [isSeparator, isBlank, or_assoc] using h

/-- No part of a name, of a number or of an operator with two characters separates tokens. -/
theorem separator_joins {c : Char} (h : isSeparator c = true) :
    isNamePart c = false ∧ isDecimalDigit c = false ∧ isHexDigit c = false ∧
      isBinaryDigit c = false ∧ Numeral.isExponentMark c = false ∧ c ≠ '.' := by
  obtain rfl | rfl | rfl | rfl | rfl | rfl := separator_cases h <;> decide

namespace EndsLike

variable {x y t : List Char}

theorem same {c : Char} : EndsLike (c :: x) (c :: y) := .inl rfl

theorem nil : EndsLike x [] := .inr fun _ h => by cases h

theorem separator {c : Char} (h : isSeparator c = true) : EndsLike x (c :: y) :=
  .inr fun _ hc => by cases hc; exact h

/-- What no separator is, and what does not stand behind a token, does not stand there after the
exchange. -/
theorem head {p : Char → Bool} (h : EndsLike x y) (hp : ∀ c, isSeparator c = true → p c = false)
    (hx : ∀ c ∈ x.head?, p c = false) : ∀ c ∈ y.head?, p c = false := by
  obtain hsame | hseparator := h
  · rw [hsame]
    exact hx
  · exact fun c hc => hp c (hseparator c hc)

/-- A run of characters before what follows it. -/
theorem run {p : Char → Bool} {cs : List Char} (hp : ∀ c, isSeparator c = true → p c = false)
    (h : EndsLike (cs.dropWhile p) y) :
    (cs.takeWhile p ++ y).takeWhile p = cs.takeWhile p ∧
      (cs.takeWhile p ++ y).dropWhile p = y := by
  refine takeWhile_append (List.all_eq_true.mp List.all_takeWhile) (h.head hp fun c hc => ?_)
  have hstop := List.head?_dropWhile_not p cs
  rw [hc] at hstop
  exact Bool.eq_false_iff.mpr (by simpa using hstop)

/-- The second character of a text that starts with a token stood there before the exchange. -/
theorem second (h : EndsLike x y) (ht : t ≠ []) {a c : Char} {more : List Char}
    (hc : isSeparator c = false) (hy : t ++ y = a :: c :: more) :
    ∃ more', t ++ x = a :: c :: more' := by
  cases t with
  | nil => exact (ht rfl).elim
  | cons b t =>
    cases t with
    | cons b' t =>
      simp only [List.cons_append, List.cons.injEq] at hy
      obtain ⟨rfl, rfl, -⟩ := hy
      exact ⟨t ++ x, rfl⟩
    | nil =>
      simp only [List.cons_append, List.nil_append, List.cons.injEq] at hy
      obtain ⟨rfl, rfl⟩ := hy
      obtain hsame | hseparator := h
      · cases x with
        | nil => cases hsame
        | cons d x =>
          cases hsame
          exact ⟨x, rfl⟩
      · rw [hseparator c rfl] at hc
        cases hc

end EndsLike

variable {lang : Language Value} {x y : List Char}

/-! ### Numbers -/

theorem scanRadix_exchanged {radix : Nat} {mark cs : List Char} {isDigit : Char → Bool} {l : Lexeme}
    (hdigit : ∀ c, isSeparator c = true → isDigit c = false)
    (h : scanRadix radix mark isDigit cs = .found l) (hy : EndsLike l.rest y) :
    ∃ digits, l.taken = mark ++ digits ∧
      scanRadix radix mark isDigit (digits ++ y) = .found ⟨l.taken, l.kind, y⟩ := by
  unfold scanRadix at h
  dsimp only at h
  split at h
  · cases h
  · next hdigits =>
    cases h
    obtain ⟨htake, hdrop⟩ := EndsLike.run hdigit hy
    refine ⟨_, rfl, ?_⟩
    simp only [scanRadix, htake, hdrop, hdigits, Bool.false_eq_true, if_false]

theorem scanMantissa?_exchanged {cs mantissa : List Char}
    (h : scanMantissa? cs = some (mantissa, x)) (hy : EndsLike x y) :
    scanMantissa? (mantissa ++ y) = some (mantissa, y) := by
  have hdecimal : ∀ c, isSeparator c = true → isDecimalDigit c = false :=
    fun c hc => (separator_joins hc).2.1
  unfold scanMantissa? at h
  dsimp only at h
  split at h
  · split at h
    · next more =>
      split at h
      · cases h
      · next hfraction =>
        cases h
        obtain ⟨htake, hdrop⟩ := EndsLike.run hdecimal hy
        have hpoint : isDecimalDigit '.' = false := by decide
        simp [scanMantissa?, hpoint, htake, hdrop, hfraction]
    · cases h
  · next hwhole =>
    have hall : ∀ c ∈ cs.takeWhile isDecimalDigit, isDecimalDigit c = true :=
      List.all_eq_true.mp List.all_takeWhile
    split at h
    · next more hmore =>
      cases h
      obtain ⟨htake, hdrop⟩ := EndsLike.run hdecimal hy
      obtain ⟨htake', hdrop'⟩ := @takeWhile_append _ _ ('.' :: (more.takeWhile isDecimalDigit ++ y))
        hall fun c hc => by cases hc; decide
      simp only [scanMantissa?, List.append_assoc, List.cons_append, htake', hdrop', hwhole, htake,
        hdrop, Bool.false_eq_true, if_false]
    · next hpoint =>
      cases h
      obtain ⟨htake, hdrop⟩ := EndsLike.run hdecimal hy
      have hends : ∀ c ∈ y.head?, (c == '.') = false := by
        refine hy.head (fun c hc => by simpa using (separator_joins hc).2.2.2.2.2) fun c hc => ?_
        refine beq_false_of_ne ?_
        rintro rfl
        cases hrest : cs.dropWhile isDecimalDigit with
        | nil =>
          rw [hrest] at hc
          cases hc
        | cons d more =>
          rw [hrest] at hc
          cases hc
          exact hpoint more hrest
      simp only [scanMantissa?, htake, hdrop, hwhole, Bool.false_eq_true, if_false]
      split
      · exact absurd (hends '.' rfl) (by decide)
      · rfl

theorem scanPower?_exchanged {cs power : List Char} (h : scanPower? cs = some (power, x))
    (hy : EndsLike x y) : scanPower? (power ++ y) = some (power, y) := by
  have hdecimal : ∀ c, isSeparator c = true → isDecimalDigit c = false :=
    fun c hc => (separator_joins hc).2.1
  unfold scanPower? at h
  split at h
  next sign ds heq =>
  dsimp only at h
  split at h
  · cases h
  · next hdigits =>
    cases h
    obtain ⟨htake, hdrop⟩ := EndsLike.run hdecimal hy
    split at heq <;> cases heq
    · simp [scanPower?, htake, hdrop, hdigits]
    · simp [scanPower?, htake, hdrop, hdigits]
    · -- Without a sign the digits are first, and they are none.
      obtain ⟨d, digits, htaken⟩ := List.exists_cons_of_ne_nil
        (show cs.takeWhile isDecimalDigit ≠ [] by simpa using hdigits)
      have hd : isDecimalDigit d = true :=
        List.all_eq_true.mp List.all_takeWhile d (by rw [htaken]; simp)
      have hplus : d ≠ '+' := by rintro rfl; exact absurd hd (by decide)
      have hminus : d ≠ '-' := by rintro rfl; exact absurd hd (by decide)
      rw [htaken] at htake hdrop ⊢
      simp only [List.cons_append, List.nil_append] at htake hdrop ⊢
      simp [scanPower?, htake, hdrop, hplus, hminus]

theorem numberLexeme_exchanged {text : List Char} {l : Lexeme}
    (h : numberLexeme text x = .found l) :
    l.taken = text ∧ l.rest = x ∧ numberLexeme text y = .found ⟨l.taken, l.kind, y⟩ := by
  unfold numberLexeme at h ⊢
  dsimp only at h ⊢
  split at h
  · cases h
  · next hnan =>
    cases h
    exact ⟨rfl, rfl, if_neg hnan⟩

/-- A number without a power of ten. -/
theorem scanNumber?_mantissa {cs mantissa : List Char} (hx : ∀ more, cs ≠ '0' :: 'x' :: more)
    (hb : ∀ more, cs ≠ '0' :: 'b' :: more) (hread : scanMantissa? cs = some (mantissa, y))
    (hmark : ∀ c ∈ y.head?, Numeral.isExponentMark c = false) :
    scanNumber? cs = some (numberLexeme mantissa y) := by
  unfold scanNumber?
  split
  · next more => exact (hx more rfl).elim
  · next more => exact (hb more rfl).elim
  · rw [hread]
    cases y with
    | nil => rfl
    | cons c y => simp only [hmark c rfl, Bool.false_eq_true, if_false]

/-- A number with a power of ten. -/
theorem scanNumber?_power {cs mantissa rest power : List Char} {e : Char}
    (hx : ∀ more, cs ≠ '0' :: 'x' :: more) (hb : ∀ more, cs ≠ '0' :: 'b' :: more)
    (hread : scanMantissa? cs = some (mantissa, e :: rest))
    (hmark : Numeral.isExponentMark e = true) (hpower : scanPower? rest = some (power, y)) :
    scanNumber? cs = some (numberLexeme (mantissa ++ e :: power) y) := by
  unfold scanNumber?
  split
  · next more => exact (hx more rfl).elim
  · next more => exact (hb more rfl).elim
  · simp only [hread, hmark, if_true, hpower]

theorem scanNumber?_exchanged {cs : List Char} {l : Lexeme} (h : scanNumber? cs = some (.found l))
    (hy : EndsLike l.rest y) : scanNumber? (l.taken ++ y) = some (.found ⟨l.taken, l.kind, y⟩) := by
  obtain ⟨hne, hcs, -⟩ := scanNumber?_takes h
  unfold scanNumber? at h
  split at h
  · obtain ⟨digits, htaken, hscan⟩ :=
      scanRadix_exchanged (fun c hc => (separator_joins hc).2.2.1) (Option.some.inj h) hy
    rw [htaken] at hscan ⊢
    exact congrArg some hscan
  · obtain ⟨digits, htaken, hscan⟩ :=
      scanRadix_exchanged (fun c hc => (separator_joins hc).2.2.2.1) (Option.some.inj h) hy
    rw [htaken] at hscan ⊢
    exact congrArg some hscan
  · next hx hb =>
    -- The mark of a radix would have stood in the old text.
    have hx' : ∀ more, l.taken ++ y ≠ '0' :: 'x' :: more := fun more heq => by
      obtain ⟨more', hmore⟩ := hy.second hne (by decide) heq
      exact hx more' (hcs.trans hmore)
    have hb' : ∀ more, l.taken ++ y ≠ '0' :: 'b' :: more := fun more heq => by
      obtain ⟨more', hmore⟩ := hy.second hne (by decide) heq
      exact hb more' (hcs.trans hmore)
    have hmark' : ∀ x, EndsLike x y → (∀ c ∈ x.head?, Numeral.isExponentMark c = false) →
        ∀ c ∈ y.head?, Numeral.isExponentMark c = false := fun x hxy =>
      hxy.head fun c hc => (separator_joins hc).2.2.2.2.1
    split at h
    · cases h
    · next mantissa e rest hmantissa =>
      split at h
      · next hmark =>
        split at h
        · next power rest' hpower =>
          obtain ⟨htaken, hrest, hlexeme⟩ := numberLexeme_exchanged (y := y) (Option.some.inj h)
          rw [hrest] at hy
          have hread := scanMantissa?_exchanged hmantissa (y := e :: (power ++ y)) .same
          rw [← List.cons_append, ← List.append_assoc, ← htaken, List.cons_append] at hread
          rw [scanNumber?_power hx' hb' hread hmark (scanPower?_exchanged hpower hy), ← htaken, htaken,
            hlexeme, htaken]
        · cases h
      · next hmark =>
        obtain ⟨htaken, hrest, hlexeme⟩ := numberLexeme_exchanged (y := y) (Option.some.inj h)
        rw [hrest] at hy
        have hread := scanMantissa?_exchanged hmantissa hy
        rw [← htaken] at hread
        rw [scanNumber?_mantissa hx' hb' hread (hmark' _ hy fun c hc => ?_), htaken, hlexeme, htaken]
        cases hc
        exact Bool.eq_false_iff.mpr hmark
    · next mantissa hmantissa =>
      obtain ⟨htaken, hrest, hlexeme⟩ := numberLexeme_exchanged (y := y) (Option.some.inj h)
      rw [hrest] at hy
      have hread := scanMantissa?_exchanged hmantissa hy
      rw [← htaken] at hread
      rw [scanNumber?_mantissa hx' hb' hread (hmark' _ hy fun c hc => by cases hc), htaken, hlexeme,
        htaken]

/-- What is no number starts with no digit, and with no point before a digit. -/
theorem scanNumber?_none {c : Char} {rest : List Char} (h : scanNumber? (c :: rest) = none) :
    isDecimalDigit c = false ∧ (c = '.' → ∀ d ∈ rest.head?, isDecimalDigit d = false) := by
  have hmantissa : scanMantissa? (c :: rest) = none := by
    unfold scanNumber? at h
    split at h
    · cases h
    · cases h
    · split at h
      · assumption
      · split at h
        · split at h <;> cases h
        · cases h
      · cases h
  unfold scanMantissa? at hmantissa
  cases hdigit : isDecimalDigit c with
  | true =>
    simp only [List.takeWhile_cons, hdigit, if_true, List.isEmpty_cons, Bool.false_eq_true,
      if_false] at hmantissa
    split at hmantissa <;> cases hmantissa
  | false =>
    refine ⟨rfl, ?_⟩
    rintro rfl d hd
    cases rest with
    | nil => cases hd
    | cons e rest =>
      cases hd
      refine Bool.eq_false_iff.mpr fun hd => ?_
      simp [hdigit, hd] at hmantissa

/-! ### Strings -/

/-- A string that is read from within ends at its quote, whatever follows. -/
theorem scanString_exchanged {quote : Char} (hquote : quote ≠ '\\') {cs taken acc : List Char}
    {l : Lexeme} (h : scanString quote cs taken acc = .found l) :
    ∃ written, l.taken = taken.reverse ++ written ∧
      scanString quote (written ++ y) taken acc = .found ⟨l.taken, l.kind, y⟩ := by
  obtain ⟨written, meant, hspells, -, htaken, hkind⟩ := scanString_found h
  refine ⟨written ++ [quote], htaken, ?_⟩
  rw [htaken, hkind, List.append_assoc, List.singleton_append]
  exact scanString_spells hquote hspells y taken acc

theorem scanString?_exchanged {cs : List Char} {l : Lexeme}
    (h : scanString? cs = some (.found l)) :
    scanString? (l.taken ++ y) = some (.found ⟨l.taken, l.kind, y⟩) := by
  unfold scanString? at h
  split at h
  · next c rest =>
    split at h
    · next hquote =>
      have hslash : c ≠ '\\' := by
        rcases hquote with rfl | rfl <;> decide
      obtain ⟨written, htaken, hread⟩ := scanString_exchanged (y := y) hslash (Option.some.inj h)
      rw [htaken] at hread ⊢
      exact (if_pos hquote).trans (congrArg some hread)
    · cases h
  · cases h

/-! ### Operators and names -/

theorem operator?_exchanged {cs taken : List Char} {op : String}
    (h : operator? cs = some (taken, op, x)) (hy : EndsLike x y) :
    operator? (taken ++ y) = some (taken, op, y) := by
  obtain ⟨hne, hcs, -⟩ := operator?_takes h
  unfold operator? at h
  split at h
  case h_8 => cases h
  case h_7 c rest h₁ h₂ h₃ h₄ h₅ h₆ =>
    -- The second half of an operator would have stood in the old text.
    have hpair : ∀ a b more, isSeparator b = false → taken ++ y = a :: b :: more →
        ∃ more', c :: rest = a :: b :: more' := by
      intro a b more hb heq
      obtain ⟨more', hmore⟩ := hy.second hne hb heq
      exact ⟨more', hcs.trans hmore⟩
    have hsingle : taken = [c] ∧ ∀ rest' : List Char,
        (if "+-*/%^!<>=?:.".toList.contains c then some ([c], String.ofList [c], rest')
          else if c = '∙' ∨ c = '•' then some ([c], "*", rest') else none) =
            some (taken, op, rest') := by
      split at h
      · next hsymbol =>
        cases h
        exact ⟨rfl, fun _ => if_pos hsymbol⟩
      · next hsymbol =>
        split at h
        · next hbullet =>
          cases h
          exact ⟨rfl, fun _ => (if_neg hsymbol).trans (if_pos hbullet)⟩
        · cases h
    obtain ⟨rfl, hsingle⟩ := hsingle
    unfold operator?
    split
    case h_7 heq =>
      obtain ⟨rfl, rfl⟩ := List.cons.inj heq
      exact hsingle y
    case h_8 heq => cases heq
    all_goals
      next heq =>
        obtain ⟨more', hmore⟩ := hpair _ _ _ (by decide) heq
        obtain ⟨rfl, rfl⟩ := List.cons.inj hmore
        first
        | exact (h₁ _ rfl rfl).elim
        | exact (h₂ _ rfl rfl).elim
        | exact (h₃ _ rfl rfl).elim
        | exact (h₄ _ rfl rfl).elim
        | exact (h₅ _ rfl rfl).elim
        | exact (h₆ _ rfl rfl).elim
  all_goals
    cases h
    rfl

theorem operator?_none {c : Char} {rest : List Char} (h : operator? (c :: rest) = none)
    (hc : c = '$' ∨ isNameStart c = true) (rest' : List Char) : operator? (c :: rest') = none := by
  obtain rfl | hstart := hc
  · rfl
  · exact operator?_eq_none hstart

/-- A name after one or two dollar signs. -/
theorem scanSigil_letter {sigil rest : List Char} (hsigil : sigil = ['$'] ∨ sigil = ['$', '$'])
    (hletter : startsWith isLetter rest = true) :
    scanSigil (sigil ++ rest) = .found ⟨sigil ++ rest.takeWhile isNamePart,
      .name (String.ofList (sigil ++ rest.takeWhile isNamePart)), rest.dropWhile isNamePart⟩ := by
  cases rest with
  | nil => cases hletter
  | cons c rest =>
    have hc : isLetter c = true := hletter
    have hdollar : c ≠ '$' := by
      rintro rfl
      exact absurd hc (by decide)
    obtain rfl | rfl := hsigil <;> simp [scanSigil, startsWith, hc, hdollar]

theorem scanSigil_found {cs : List Char} {l : Lexeme} (h : scanSigil cs = .found l) :
    ∃ sigil rest, (sigil = ['$'] ∨ sigil = ['$', '$']) ∧ startsWith isLetter rest = true ∧
      l = ⟨sigil ++ rest.takeWhile isNamePart,
        .name (String.ofList (sigil ++ rest.takeWhile isNamePart)), rest.dropWhile isNamePart⟩ := by
  by_cases htwo : cs.take 2 = ['$', '$']
  · simp only [scanSigil, if_pos htwo] at h
    split at h
    · next hletter =>
      cases h
      exact ⟨_, _, .inr rfl, hletter, rfl⟩
    · cases h
  · simp only [scanSigil, if_neg htwo] at h
    split at h
    · next hletter =>
      cases h
      exact ⟨_, _, .inl rfl, hletter, rfl⟩
    · cases h

/-- A run of a name that starts with a letter still starts with it before another text. -/
theorem startsWith_takeWhile {p q : Char → Bool} {rest : List Char}
    (hpq : ∀ c, q c = true → p c = true) (h : startsWith q rest = true) (y : List Char) :
    startsWith q (rest.takeWhile p ++ y) = true := by
  cases rest with
  | nil => cases h
  | cons c rest =>
    have hc : q c = true := h
    simp [startsWith, hpq c hc, hc]

theorem scanSigil_exchanged {cs : List Char} {l : Lexeme} (h : scanSigil cs = .found l)
    (hy : EndsLike l.rest y) : scanSigil (l.taken ++ y) = .found ⟨l.taken, l.kind, y⟩ := by
  obtain ⟨sigil, rest, hsigil, hletter, rfl⟩ := scanSigil_found h
  obtain ⟨htake, hdrop⟩ := EndsLike.run (fun c hc => (separator_joins hc).1) hy
  have hletter' := startsWith_takeWhile (p := isNamePart) (fun c hc => by simp [isNamePart, hc])
    hletter y
  have hread := scanSigil_letter hsigil hletter'
  rwa [htake, hdrop, ← List.append_assoc] at hread

/-! ### Tokens -/

/-- Where no comment starts and no blank stands, nothing is skipped. -/
structure Bare (cs : List Char) : Prop where
  blank : ∀ c ∈ cs.head?, isBlank c = false
  comment : ∀ more, cs ≠ '/' :: '*' :: more

theorem Bare.skipTrivia {cs : List Char} (h : Bare cs) (p : Position) :
    skipTrivia false p cs = (p, cs) := by
  unfold Lexer.skipTrivia
  split
  · exact (h.comment _ rfl).elim
  · rw [if_neg (by simp [h.blank _ rfl])]
  · contradiction
  · contradiction
  · rfl

/-- What is left when blanks and comments have been skipped. -/
theorem bare_skipTrivia (inside : Bool) (p : Position) (cs : List Char) :
    Bare (skipTrivia inside p cs).2 := by
  fun_induction skipTrivia inside p cs with
  | case1 _ _ ih => exact ih
  | case2 _ _ _ _ _ ih => exact ih
  | case3 p c rest hcomment hblank =>
    refine ⟨fun d hd => ?_, fun more heq => ?_⟩
    · cases hd
      exact Bool.eq_false_iff.mpr hblank
    · obtain ⟨rfl, rfl⟩ := List.cons.inj heq
      exact hcomment more rfl rfl
  | case4 _ _ ih => exact ih
  | case5 _ _ _ _ ih => exact ih
  | case6 =>
    refine ⟨fun d hd => ?_, fun more heq => ?_⟩
    · cases hd
    · cases heq

theorem Bare.exchanged {lexeme : List Char} (h : Bare (lexeme ++ x)) (hne : lexeme ≠ [])
    (hy : EndsLike x y) : Bare (lexeme ++ y) := by
  obtain ⟨c, more, rfl⟩ := List.exists_cons_of_ne_nil hne
  refine ⟨h.blank, fun rest heq => ?_⟩
  obtain ⟨rest', hrest⟩ := hy.second hne (by decide) heq
  exact h.comment rest' hrest

/-- A token that stands at the start of a text, `c` and what follows. Its characters make a token of
the same kind at any place, before any text that ends the token alike. -/
def Stands (lang : Language Value) (p : Position) (c : Char) (rest : List Char) (t : Token)
    (x : List Char) : Prop :=
  ∃ more, rest = more ++ x ∧ t.range = ⟨p, p.after (c :: more)⟩ ∧ ∀ y, EndsLike x y → ∀ q,
    tokenAt lang q c (more ++ y) = .ok (⟨⟨q, q.after (c :: more)⟩, t.kind⟩, y)

/-- What a reader finds stands there, if the reader finds it again. -/
theorem place_stands {p : Position} {c : Char} {rest : List Char} {s : Scan} {t : Token}
    (hs : s.Takes (c :: rest)) (h : place p s = .ok (t, x))
    (hagain : ∀ l, s = .found l → ∀ more, l.taken = c :: more → rest = more ++ l.rest → ∀ y,
      EndsLike l.rest y → ∀ q,
        tokenAt lang q c (more ++ y) = place q (.found ⟨l.taken, l.kind, y⟩)) :
    Stands lang p c rest t x := by
  cases s with
  | found l =>
    obtain ⟨hne, hcs, -⟩ := hs
    cases h
    obtain ⟨d, more, htaken⟩ := List.exists_cons_of_ne_nil hne
    rw [htaken] at hcs
    obtain ⟨rfl, hrest⟩ := List.cons.inj hcs
    refine ⟨more, hrest, by rw [htaken], fun y hy q => ?_⟩
    rw [hagain l rfl more htaken hrest y hy q, place, htaken]
  | _ => cases h

/-- Where no number starts, none starts when the token is followed by another text. -/
theorem scanNumber?_none_exchanged {c : Char} {rest more : List Char}
    (h : scanNumber? (c :: rest) = none) (hrest : rest = more ++ x) (hy : EndsLike x y) :
    scanNumber? (c :: (more ++ y)) = none := by
  obtain ⟨hdigit, hpoint⟩ := scanNumber?_none h
  refine scanNumber?_eq_none hdigit fun hc => ?_
  have hfollows := hpoint hc
  subst hrest
  cases more with
  | nil => exact hy.head (fun c hc => (separator_joins hc).2.1) hfollows
  | cons d more => exact hfollows

/-- Whether a text starts with a string depends on its first character. -/
theorem scanString?_none {c : Char} {rest : List Char} (h : scanString? (c :: rest) = none)
    (rest' : List Char) : scanString? (c :: rest') = none := by
  unfold scanString? at h
  dsimp only at h
  split at h
  · cases h
  · next hquote => exact if_neg hquote

theorem requireEnabled_place {α : Type} {range range' : Range} {op : String}
    {f g : Unit → Except LexicalError α} {a : α}
    (h : (requireEnabled lang range op >>= f) = .ok a) :
    (requireEnabled lang range' op >>= g) = g () := by
  rw [requireEnabled, if_pos (requireEnabled_bind h).1]
  rfl

section

variable {p : Position} {c : Char} {rest : List Char} {t : Token}

/-- Punctuation is a token by itself. -/
theorem punctuation_stands {k : TokenKind} (hstring : scanString? (c :: rest) = none)
    (hpunctuation : punctuation? c = some k) (h : tokenAt lang p c rest = .ok (t, x)) :
    Stands lang p c rest t x := by
  have hnumber : ∀ y, scanNumber? (c :: y) = none := fun y =>
    (plain_of_punctuation hpunctuation).scanNumber?_eq
  have hsingle : ∀ q, single q = ⟨q, q.after [c]⟩ := fun q => by
    simp [single, Position.after, Position.next, (punctuation?_text hpunctuation).2.2]
  have hstands : (⟨single p, k⟩, rest) = (t, x) →
      (∀ y q, tokenAt lang q c y = .ok (⟨single q, k⟩, y)) → Stands lang p c rest t x := by
    rintro ⟨⟩ hagain
    exact ⟨[], rfl, hsingle p, fun y _ q => (hagain y q).trans (by rw [hsingle])⟩
  simp only [tokenAt, hnumber, hstring, hpunctuation] at h
  split at h
  · next op hop =>
    refine hstands (Except.ok.inj (requireEnabled_bind h).2) fun y q => ?_
    simp only [tokenAt, hnumber, scanString?_none hstring, hpunctuation, hop]
    exact requireEnabled_place h
  · next hop =>
    refine hstands (Except.ok.inj h) fun y q => ?_
    simp only [tokenAt, hnumber, scanString?_none hstring, hpunctuation, hop]

theorem operator_stands {found : List Char × String × List Char}
    (hnumber : scanNumber? (c :: rest) = none) (hstring : scanString? (c :: rest) = none)
    (hpunctuation : punctuation? c = none) (hoperator : operator? (c :: rest) = some found)
    (h : tokenAt lang p c rest = .ok (t, x)) : Stands lang p c rest t x := by
  obtain ⟨taken, op, x'⟩ := found
  obtain ⟨hne, hcs, -⟩ := operator?_takes hoperator
  obtain ⟨d, more, rfl⟩ := List.exists_cons_of_ne_nil hne
  obtain ⟨rfl, hrest⟩ := List.cons.inj hcs
  have hread : ∀ y, EndsLike x' y → operator? (c :: (more ++ y)) = some (c :: more, op, y) :=
    fun y hy => operator?_exchanged hoperator hy
  have hstands : (⟨⟨p, p.after (c :: more)⟩, .op op⟩, x') = (t, x) → (∀ y, EndsLike x' y → ∀ q,
      tokenAt lang q c (more ++ y) = .ok (⟨⟨q, q.after (c :: more)⟩, .op op⟩, y)) →
      Stands lang p c rest t x := by
    rintro ⟨⟩ hagain
    exact ⟨more, hrest, rfl, hagain⟩
  simp only [tokenAt, hnumber, hstring, hpunctuation, hoperator] at h
  split at h
  · next hop =>
    refine hstands (Except.ok.inj (requireEnabled_bind h).2) fun y hy q => ?_
    simp only [tokenAt, scanNumber?_none_exchanged hnumber hrest hy, scanString?_none hstring,
      hpunctuation, hread y hy, hop, if_true]
    exact requireEnabled_place h
  · next hop =>
    refine hstands (Except.ok.inj h) fun y hy q => ?_
    simp only [tokenAt, scanNumber?_none_exchanged hnumber hrest hy, scanString?_none hstring,
      hpunctuation, hread y hy, hop]
    rfl

theorem name_stands (hnumber : scanNumber? (c :: rest) = none)
    (hstring : scanString? (c :: rest) = none) (hpunctuation : punctuation? c = none)
    (hoperator : operator? (c :: rest) = none) (h : tokenAt lang p c rest = .ok (t, x)) :
    Stands lang p c rest t x := by
  simp only [tokenAt, hnumber, hstring, hpunctuation, hoperator] at h
  split at h
  · next hdollar =>
    subst hdollar
    refine place_stands (scanSigil_takes rest) h ?_
    rintro l hl more htaken hrest y hy q
    have hread := scanSigil_exchanged hl hy
    rw [htaken, List.cons_append] at hread
    simp only [tokenAt, scanNumber?_none_exchanged hnumber hrest hy, scanString?_none hstring,
      hpunctuation, operator?_none hoperator (.inl rfl), hread, htaken, if_true]
  · next hdollar =>
    split at h
    · next hstart =>
      refine place_stands (scanWord_takes lang rest hstart) h ?_
      rintro l ⟨⟩ more htaken hrest y hy q
      obtain ⟨htake, hdrop⟩ := EndsLike.run (fun c hc => (separator_joins hc).1) hy
      dsimp only at htaken
      rw [htaken, List.cons_append] at htake hdrop
      simp only [tokenAt, scanNumber?_none_exchanged hnumber hrest hy, scanString?_none hstring,
        hpunctuation, operator?_none hoperator (.inr hstart), if_neg hdollar, hstart, if_true,
        htake, hdrop, htaken]
    · cases h

/-- Every token that is found stands there. The readers are tried in order: the ones before find
nothing after the exchange either. -/
theorem tokenAt_stands (h : tokenAt lang p c rest = .ok (t, x)) : Stands lang p c rest t x := by
  cases hnumber : scanNumber? (c :: rest) with
  | some s =>
    simp only [tokenAt, hnumber] at h
    refine place_stands (scanNumber?_takes hnumber) h ?_
    rintro l rfl more htaken - y hy q
    have hread := scanNumber?_exchanged hnumber hy
    rw [htaken, List.cons_append] at hread
    simp only [tokenAt, hread, htaken]
  | none =>
    cases hstring : scanString? (c :: rest) with
    | some s =>
      simp only [tokenAt, hnumber, hstring] at h
      refine place_stands (scanString?_takes hstring) h ?_
      rintro l rfl more htaken hrest y hy q
      have hread := scanString?_exchanged (y := y) hstring
      rw [htaken, List.cons_append] at hread
      simp only [tokenAt, scanNumber?_none_exchanged hnumber hrest hy, hread, htaken]
    | none =>
      cases hpunctuation : punctuation? c with
      | some k => exact punctuation_stands hstring hpunctuation h
      | none =>
        cases hoperator : operator? (c :: rest) with
        | some found => exact operator_stands hnumber hstring hpunctuation hoperator h
        | none => exact name_stands hnumber hstring hpunctuation hoperator h

end

end Formula.Lexer
