import Formula.Proofs.Printed.Legible
import Formula.Proofs.Printed.Lexical

/-!
# How tokens are written

`TokenKind.Spelled` says which characters write a token: its own text for most kinds, a numeral for
a number, and for a string its characters between quotes, each raw or by an escape. What a reader
of the lexer takes off a text is the spelling of the token that it finds.
-/

namespace Formula

namespace Lexer

/-! ### Spellings -/

/-- The ways to write the characters of a string between quotes of a kind. -/
inductive Spells (quote : Char) : (written meant : List Char) → Prop
  | nil : Spells quote [] []
  | raw {c : Char} {written meant : List Char} : c ≠ quote → c ≠ '\\' →
      Spells quote written meant → Spells quote (c :: written) (c :: meant)
  | short {x c : Char} {written meant : List Char} : shortEscape? x = some c →
      Spells quote written meant → Spells quote ('\\' :: x :: written) (c :: meant)
  | code {a b d e : Char} {n : Nat} {written meant : List Char} : hex4? a b d e = some n →
      Spells quote written meant →
      Spells quote ('\\' :: 'u' :: a :: b :: d :: e :: written) (charOfCode n :: meant)

/-- The digits of a decimal number: some before the point, behind it or both. -/
inductive Mantissa : List Char → Prop
  | whole {ds : List Char} : AreDigits ds → Mantissa ds
  | pointed {ds fs : List Char} : (ds ≠ [] ∨ fs ≠ []) → (∀ c ∈ ds, isDecimalDigit c = true) →
      (∀ c ∈ fs, isDecimalDigit c = true) → Mantissa (ds ++ '.' :: fs)

/-- A power of ten, or nothing. -/
inductive Power : List Char → Prop
  | none : Power []
  | some {e : Char} {sign ds : List Char} : Numeral.isExponentMark e = true →
      sign ∈ [[], ['+'], ['-']] → AreDigits ds → Power (e :: (sign ++ ds))

/-- The ways to write a number, with the number that is meant. -/
inductive Numerals : List Char → Float → Prop
  | hexadecimal {ds : List Char} : ds ≠ [] → (∀ c ∈ ds, isHexDigit c = true) →
      Numerals ('0' :: 'x' :: ds) (Number.ofRadix 16 (ds.filterMap (digitValue? 16)))
  | binary {ds : List Char} : ds ≠ [] → (∀ c ∈ ds, isBinaryDigit c = true) →
      Numerals ('0' :: 'b' :: ds) (Number.ofRadix 2 (ds.filterMap (digitValue? 2)))
  | decimal {mantissa power : List Char} : Mantissa mantissa → Power power →
      Numerals (mantissa ++ power) (Number.parseChars (mantissa ++ power))

end Lexer

namespace TokenKind

/-- Whether a kind of token is written as its text. -/
def isPlain : TokenKind → Bool
  | eof | number _ | string _ => false
  | _ => true

/-- The ways to write a token. -/
inductive Spelled : TokenKind → List Char → Prop
  | eof : Spelled .eof []
  | plain {k : TokenKind} : k.isPlain = true → Spelled k k.text.toList
  | bullet {c : Char} : c = '∙' ∨ c = '•' → Spelled (.op "*") [c]
  | number {x : Float} {cs : List Char} : Lexer.Numerals cs x → Spelled (.number x) cs
  | string {s : String} {quote : Char} {written : List Char} : quote = '"' ∨ quote = '\'' →
      Lexer.Spells quote written s.toList → Spelled (.string s) (quote :: (written ++ [quote]))

end TokenKind

namespace Lexer

variable {lang : Language Value}

/-- A reader that takes the spelling of a token off a text, if it finds one. -/
def Scan.Takes (cs : List Char) : Scan → Prop
  | .found l => l.taken ≠ [] ∧ cs = l.taken ++ l.rest ∧ l.kind.Spelled l.taken
  | _ => True

/-! ### Numbers -/

theorem areDigits_takeWhile {cs : List Char} (h : (cs.takeWhile isDecimalDigit).isEmpty = false) :
    AreDigits (cs.takeWhile isDecimalDigit) :=
  ⟨by simpa using h, fun _ hc => List.all_eq_true.mp List.all_takeWhile _ hc⟩

theorem Mantissa.ne_nil {cs : List Char} (h : Mantissa cs) : cs ≠ [] := by
  cases h with
  | whole hds => exact hds.1
  | pointed _ _ _ => simp

theorem scanRadix_takes {radix : Nat} {mark rest : List Char} {isDigit : Char → Bool}
    (hmark : mark ≠ [])
    (hnumeral : ∀ ds : List Char, ds ≠ [] → (∀ c ∈ ds, isDigit c = true) →
      Numerals (mark ++ ds) (Number.ofRadix radix (ds.filterMap (digitValue? radix)))) :
    (scanRadix radix mark isDigit rest).Takes (mark ++ rest) := by
  unfold scanRadix
  dsimp only
  split
  · trivial
  · next hdigits =>
    have hall : ∀ c ∈ rest.takeWhile isDigit, isDigit c = true :=
      List.all_eq_true.mp List.all_takeWhile
    refine ⟨by simp [hmark], ?_, .number (hnumeral _ (by simpa using hdigits) hall)⟩
    rw [List.append_assoc, List.takeWhile_append_dropWhile]

theorem scanMantissa?_takes {cs mantissa rest : List Char}
    (h : scanMantissa? cs = some (mantissa, rest)) : cs = mantissa ++ rest ∧ Mantissa mantissa := by
  have hfraction : ∀ more : List Char, ∀ c ∈ more.takeWhile isDecimalDigit,
      isDecimalDigit c = true := fun more => List.all_eq_true.mp List.all_takeWhile
  have hsplit : cs = cs.takeWhile isDecimalDigit ++ cs.dropWhile isDecimalDigit :=
    List.takeWhile_append_dropWhile.symm
  unfold scanMantissa? at h
  dsimp only at h
  split at h
  · split at h
    · next more _ =>
      split at h
      · cases h
      · next hsome =>
        cases h
        refine ⟨by simp, ?_⟩
        exact @Mantissa.pointed [] _ (.inr (by simpa using hsome)) (by simp) (hfraction more)
    · cases h
  · next hwhole =>
    have hdigits := areDigits_takeWhile (by simpa using hwhole)
    split at h
    · next more hmore =>
      cases h
      rw [hmore] at hsplit
      refine ⟨?_, .pointed (.inl hdigits.1) hdigits.2 (hfraction more)⟩
      rw [List.append_assoc, List.cons_append, List.takeWhile_append_dropWhile]
      exact hsplit
    · cases h
      exact ⟨hsplit, .whole hdigits⟩

theorem scanPower?_takes {cs power rest : List Char} (h : scanPower? cs = some (power, rest)) :
    ∃ sign ds, sign ∈ [[], ['+'], ['-']] ∧ AreDigits ds ∧ power = sign ++ ds ∧
      cs = power ++ rest := by
  have hpower : ∀ sign ds : List Char, sign ∈ [[], ['+'], ['-']] → cs = sign ++ ds →
      (if (ds.takeWhile isDecimalDigit).isEmpty then none
        else some (sign ++ ds.takeWhile isDecimalDigit, ds.dropWhile isDecimalDigit)) =
          some (power, rest) →
      ∃ sign ds, sign ∈ [[], ['+'], ['-']] ∧ AreDigits ds ∧ power = sign ++ ds ∧
        cs = power ++ rest := by
    intro sign ds hsign hcs h
    split at h
    · cases h
    · next hdigits =>
      cases h
      refine ⟨sign, _, hsign, areDigits_takeWhile (by simpa using hdigits), rfl, ?_⟩
      rw [hcs, List.append_assoc, List.takeWhile_append_dropWhile]
  unfold scanPower? at h
  split at h
  next sign ds heq =>
  split at heq <;> cases heq
  · exact hpower ['+'] _ (by simp) rfl h
  · exact hpower ['-'] _ (by simp) rfl h
  · exact hpower [] _ (by simp) rfl h

theorem numberLexeme_takes {mantissa power : List Char} (hmantissa : Mantissa mantissa)
    (hpower : Power power) (rest : List Char) :
    (numberLexeme (mantissa ++ power) rest).Takes (mantissa ++ power ++ rest) := by
  unfold numberLexeme
  dsimp only
  split
  · trivial
  · exact ⟨by simp [hmantissa.ne_nil], rfl, .number (.decimal hmantissa hpower)⟩

theorem scanNumber?_takes {cs : List Char} {s : Scan} (h : scanNumber? cs = some s) :
    s.Takes cs := by
  unfold scanNumber? at h
  split at h
  · cases h
    exact scanRadix_takes (by simp) fun ds hne hall => .hexadecimal hne hall
  · cases h
    exact scanRadix_takes (by simp) fun ds hne hall => .binary hne hall
  · split at h
    · cases h
    · next mantissa e rest hmantissa =>
      obtain ⟨rfl, hproper⟩ := scanMantissa?_takes hmantissa
      split at h
      · next hmark =>
        split at h
        · next power rest hpower =>
          cases h
          obtain ⟨sign, ds, hsign, hds, rfl, rfl⟩ := scanPower?_takes hpower
          have htakes := numberLexeme_takes hproper (.some hmark hsign hds) rest
          rwa [List.append_assoc] at htakes
        · cases h
          trivial
      · cases h
        have htakes := numberLexeme_takes hproper .none (e :: rest)
        rwa [List.append_nil] at htakes
    · next mantissa hmantissa =>
      obtain ⟨rfl, hproper⟩ := scanMantissa?_takes hmantissa
      cases h
      have htakes := numberLexeme_takes hproper .none []
      simpa using htakes

/-! ### Strings -/

/-- A string that is read from within: what is left of its spelling, up to the closing quote. -/
theorem scanString_found {quote : Char} {cs taken acc : List Char} {l : Lexeme}
    (h : scanString quote cs taken acc = .found l) :
    ∃ written meant, Spells quote written meant ∧ cs = written ++ quote :: l.rest ∧
      l.taken = taken.reverse ++ (written ++ [quote]) ∧
      l.kind = .string (String.ofList (acc.reverse ++ meant)) := by
  fun_induction scanString quote cs taken acc with
  | case1 taken acc => cases h
  | case2 rest taken acc =>
    cases h
    exact ⟨[], [], .nil, rfl, by simp, by simp⟩
  | case3 taken acc a b d e rest n hcode hquote ih =>
    obtain ⟨written, meant, hspells, hrest, htaken, hkind⟩ := ih h
    exact ⟨_, _, .code hcode hspells, by simp [hrest], by simp [htaken], by simp [hkind]⟩
  | case6 taken acc x rest _ _ ch hshort hquote ih =>
    obtain ⟨written, meant, hspells, hrest, htaken, hkind⟩ := ih h
    exact ⟨_, _, .short hshort hspells, by simp [hrest], by simp [htaken], by simp [hkind]⟩
  | case9 c rest taken acc hquote hslash ih =>
    obtain ⟨written, meant, hspells, hrest, htaken, hkind⟩ := ih h
    exact ⟨_, _, .raw hquote hslash hspells, by simp [hrest], by simp [htaken], by simp [hkind]⟩
  | _ => cases h

/-- What is left of the spelling of a string is read up to its quote, whatever follows. -/
theorem scanString_spells {quote : Char} (hquote : quote ≠ '\\') {written meant : List Char}
    (h : Spells quote written meant) (rest taken acc : List Char) :
    scanString quote (written ++ quote :: rest) taken acc =
      .found ⟨taken.reverse ++ (written ++ [quote]), .string (String.ofList (acc.reverse ++ meant)),
        rest⟩ := by
  -- `taken` and `acc` grow at their fronts, by what is read in each step
  induction h generalizing taken acc with
  | nil =>
    rw [List.nil_append, scanString.eq_def]
    simp
  | raw hc hslash _ ih =>
    rw [List.cons_append, scanString_plain hc hslash, ih]
    simp
  | short hshort _ ih =>
    rw [List.cons_append, List.cons_append, scanString_short hquote hshort, ih]
    simp
  | code hcode _ ih =>
    simp only [List.cons_append]
    rw [scanString_code hquote hcode, ih]
    simp

theorem scanString?_takes {cs : List Char} {s : Scan} (h : scanString? cs = some s) :
    s.Takes cs := by
  unfold scanString? at h
  split at h
  · next c rest =>
    split at h
    · next hquote =>
      cases h
      cases hscan : scanString c rest [c] [] with
      | found l =>
        obtain ⟨written, meant, hspells, hrest, htaken, hkind⟩ := scanString_found hscan
        have hspelled : l.kind.Spelled l.taken := by
          rw [htaken, hkind]
          exact .string hquote (by simpa using hspells)
        exact ⟨by simp [htaken], by simp [htaken, hrest], hspelled⟩
      | _ => trivial
    · cases h
  · cases h

/-! ### Names -/

theorem spelled_plain {k : TokenKind} {cs : List Char} (hplain : k.isPlain = true)
    (htext : k.text = String.ofList cs) : k.Spelled cs := by
  have hspelled := TokenKind.Spelled.plain hplain
  rwa [htext, String.toList_ofList] at hspelled

theorem scanSigil_takes (more : List Char) : (scanSigil ('$' :: more)).Takes ('$' :: more) := by
  have htakes : ∀ sigil rest : List Char, sigil ≠ [] → sigil ++ rest = '$' :: more →
      Scan.Takes ('$' :: more)
        (.found ⟨sigil ++ rest.takeWhile isNamePart,
          .name (String.ofList (sigil ++ rest.takeWhile isNamePart)),
          rest.dropWhile isNamePart⟩) := by
    intro sigil rest hsigil hrest
    refine ⟨by simp [hsigil], ?_, spelled_plain rfl rfl⟩
    rw [List.append_assoc, List.takeWhile_append_dropWhile, hrest]
  unfold scanSigil
  dsimp only
  split
  · next htwo =>
    have hrest := List.take_append_drop 2 ('$' :: more)
    rw [htwo] at hrest
    split
    · exact htakes ['$', '$'] _ (by simp) hrest
    · trivial
  · split
    · exact htakes ['$'] _ (by simp) rfl
    · trivial

theorem classify_text (lang : Language Value) (name : String) :
    (classify lang name).isPlain = true ∧ (classify lang name).text = name := by
  unfold classify
  dsimp only
  split
  · exact ⟨rfl, rfl⟩
  · split
    · next hkeyword => exact ⟨rfl, Expr.ofName?_text hkeyword⟩
    · split
      · next hundefined => exact ⟨rfl, hundefined.symm⟩
      · split <;> exact ⟨rfl, rfl⟩

theorem scanWord_takes (lang : Language Value) {c : Char} (rest : List Char)
    (h : isNameStart c = true) :
    Scan.Takes (c :: rest) (.found ⟨(c :: rest).takeWhile isNamePart,
      classify lang (String.ofList ((c :: rest).takeWhile isNamePart)),
      (c :: rest).dropWhile isNamePart⟩) := by
  obtain ⟨hplain, htext⟩ :=
    classify_text lang (String.ofList ((c :: rest).takeWhile isNamePart))
  have hpart : isNamePart c = true := by
    simp only [isNameStart, Bool.or_eq_true] at h
    simp only [isNamePart, Bool.or_eq_true]
    exact h.imp_left .inl
  exact ⟨by simp [hpart], List.takeWhile_append_dropWhile.symm, spelled_plain hplain htext⟩

/-! ### Tokens -/

theorem operator?_takes {cs taken rest : List Char} {op : String}
    (h : operator? cs = some (taken, op, rest)) :
    taken ≠ [] ∧ cs = taken ++ rest ∧ (TokenKind.op op).Spelled taken := by
  unfold operator? at h
  split at h
  case h_7 =>
    split at h
    · cases h
      exact ⟨by simp, rfl, spelled_plain rfl rfl⟩
    · split at h
      · next hbullet =>
        cases h
        exact ⟨by simp, rfl, .bullet hbullet⟩
      · cases h
  case h_8 => cases h
  all_goals
    cases h
    exact ⟨by simp, rfl, .plain rfl⟩

/-- A token at a position takes its spelling off a text; its range runs over that. -/
def Taken (p : Position) (cs : List Char) (t : Token) (rest : List Char) : Prop :=
  ∃ lexeme, lexeme ≠ [] ∧ cs = lexeme ++ rest ∧ t.range = ⟨p, p.after lexeme⟩ ∧
    t.kind.Spelled lexeme

theorem place_taken {p : Position} {cs rest : List Char} {s : Scan} {t : Token} (hs : s.Takes cs)
    (h : place p s = .ok (t, rest)) : Taken p cs t rest := by
  cases s with
  | found l =>
    obtain ⟨hne, hcs, hspelled⟩ := hs
    cases h
    exact ⟨l.taken, hne, hcs, rfl, hspelled⟩
  | _ => cases h

theorem punctuation?_text {c : Char} {k : TokenKind} (h : punctuation? c = some k) :
    k.isPlain = true ∧ k.text = String.ofList [c] ∧ c ≠ '\n' := by
  unfold punctuation? at h
  split at h <;> cases h <;> exact ⟨rfl, rfl, by decide⟩

theorem tokenAt_taken {p : Position} {c : Char} {rest rest' : List Char} {t : Token}
    (h : tokenAt lang p c rest = .ok (t, rest')) : Taken p (c :: rest) t rest' := by
  unfold tokenAt at h
  split at h
  · next hscan => exact place_taken (scanNumber?_takes hscan) h
  · split at h
    · next hscan => exact place_taken (scanString?_takes hscan) h
    · split at h
      · next k hpunctuation =>
        obtain ⟨hplain, htext, hline⟩ := punctuation?_text hpunctuation
        have hrange : single p = ⟨p, p.after [c]⟩ := by
          simp [single, Position.after, Position.next, hline]
        have htoken : (⟨single p, k⟩, rest) = (t, rest') := by
          dsimp only at h
          split at h
          · exact Except.ok.inj (requireEnabled_bind h).2
          · exact Except.ok.inj h
        cases htoken
        exact ⟨[c], by simp, rfl, hrange, spelled_plain hplain htext⟩
      · split at h
        · next taken op more hoperator =>
          obtain ⟨hne, hcs, hspelled⟩ := operator?_takes hoperator
          have htoken : (⟨⟨p, p.after taken⟩, .op op⟩, more) = (t, rest') := by
            dsimp only at h
            split at h
            · exact Except.ok.inj (requireEnabled_bind h).2
            · exact Except.ok.inj h
          cases htoken
          exact ⟨taken, hne, hcs, rfl, hspelled⟩
        · split at h
          · next hdollar =>
            subst hdollar
            exact place_taken (scanSigil_takes rest) h
          · split at h
            · next hstart => exact place_taken (scanWord_takes lang rest hstart) h
            · cases h

end Lexer

end Formula
