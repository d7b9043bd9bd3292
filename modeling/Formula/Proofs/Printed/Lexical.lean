import Formula.Proofs.Printed.Lexes

/-!
# What the lexer takes

Names are identifiers, operators are enabled, constants have a value, and numbers have no sign.
-/

namespace Formula.Lexer

variable {lang : Language Value}

/-- What holds of the tokens that the lexer takes. -/
def Lexical (lang : Language Value) : TokenKind → Prop
  | .name n => isIdentifier n = true
  | .constant n => isIdentifier n = true ∧ (lang.constant? n).isSome
  | .number x => Number.signBit x = false
  | .op op =>
    (op = ":" ∨ lang.isOperatorEnabled op = true) ∧
      (op.toList.all isNamePart = true → isIdentifier op = true)
  | .leftBracket => lang.isOperatorEnabled "[" = true
  | _ => True

/-- A reader that takes what the lexer should take, if it takes anything. -/
def Scan.Lexical (lang : Language Value) : Scan → Prop
  | .found l => Lexer.Lexical lang l.kind
  | _ => True

theorem place_lexical {s : Scan} (h : s.Lexical lang) {p : Position} {t : Token} {rest : List Char}
    (ht : place p s = .ok (t, rest)) : Lexical lang t.kind := by
  cases s with
  | found l =>
    cases ht
    exact h
  | _ => cases ht

/-! ### Numbers -/

theorem scanRadix_lexical (radix : Nat) (mark : List Char) (isDigit : Char → Bool) (cs : List Char) :
    (scanRadix radix mark isDigit cs).Lexical lang := by
  unfold scanRadix
  dsimp only
  split
  · trivial
  · exact Number.signBit_ofRadix _ _

theorem numberLexeme_lexical {c : Char} (hc : isDecimalDigit c = true ∨ c = '.')
    (more rest : List Char) : (numberLexeme (c :: more) rest).Lexical lang := by
  have hstart : Text.isBlank c = false ∧ c ≠ '-' := by
    rcases hc with hc | rfl
    · refine ⟨(digit_cases hc).2.2, ?_⟩
      rintro rfl
      exact absurd hc (by decide)
    · decide
  unfold numberLexeme
  dsimp only
  split
  · trivial
  · exact Number.signBit_parseChars hstart.1 hstart.2

/-- A number starts with a digit or a point. -/
theorem scanMantissa?_head {cs mantissa rest : List Char}
    (h : scanMantissa? cs = some (mantissa, rest)) :
    ∃ c more, mantissa = c :: more ∧ (isDecimalDigit c = true ∨ c = '.') := by
  unfold scanMantissa? at h
  dsimp only at h
  split at h
  · split at h
    · split at h
      · cases h
      · cases h
        exact ⟨'.', _, rfl, .inr rfl⟩
    · cases h
  · next hwhole =>
    obtain ⟨c, more, hcons⟩ : ∃ c more, cs.takeWhile isDecimalDigit = c :: more :=
      List.exists_cons_of_ne_nil fun hnil => hwhole (by rw [hnil]; rfl)
    have hc : isDecimalDigit c = true :=
      List.all_eq_true.mp List.all_takeWhile c (by rw [hcons]; exact List.mem_cons_self)
    rw [hcons] at h
    split at h <;> cases h <;> exact ⟨c, _, rfl, .inl hc⟩

theorem scanNumber?_lexical {cs : List Char} {s : Scan} (h : scanNumber? cs = some s) :
    s.Lexical lang := by
  unfold scanNumber? at h
  split at h
  · cases h
    exact scanRadix_lexical _ _ _ _
  · cases h
    exact scanRadix_lexical _ _ _ _
  · split at h
    · cases h
    · next hmantissa =>
      obtain ⟨c, more, rfl, hc⟩ := scanMantissa?_head hmantissa
      split at h
      · split at h
        · cases h
          exact numberLexeme_lexical hc _ _
        · cases h
          trivial
      · cases h
        exact numberLexeme_lexical hc _ _
    · next hmantissa =>
      obtain ⟨c, more, rfl, hc⟩ := scanMantissa?_head hmantissa
      cases h
      exact numberLexeme_lexical hc _ _

/-! ### Strings, operators and names -/

theorem scanString_lexical (quote : Char) (cs taken acc : List Char) :
    (scanString quote cs taken acc).Lexical lang := by
  fun_induction scanString quote cs taken acc <;> trivial

theorem scanString?_lexical {cs : List Char} {s : Scan} (h : scanString? cs = some s) :
    s.Lexical lang := by
  unfold scanString? at h
  split at h
  · split at h
    · cases h
      exact scanString_lexical _ _ _ _
    · cases h
  · cases h

theorem operator?_unnamed {cs taken rest : List Char} {op : String}
    (h : operator? cs = some (taken, op, rest)) : op.toList.all isNamePart = false := by
  have hsymbols : ∀ c ∈ "+-*/%^!<>=?:.".toList, (!isNamePart c) = true :=
    List.all_eq_true.mp (by decide)
  unfold operator? at h
  split at h
  case h_7 =>
    split at h
    · next hc =>
      cases h
      have hc' := Bool.not_eq_true' _ |>.mp (hsymbols _ (List.contains_iff_mem.mp hc))
      simp [hc']
    · split at h
      · cases h
        decide
      · cases h
  case h_8 => cases h
  all_goals
    cases h
    decide

theorem classify_lexical {name : String} (h : isIdentifier name = true) :
    Lexical lang (classify lang name) := by
  unfold classify
  dsimp only
  split
  · next hop => exact ⟨.inr (Bool.and_eq_true_iff.mp hop).2, fun _ => h⟩
  · split
    · trivial
    · split
      · trivial
      · split
        · next hconstant => exact ⟨h, hconstant⟩
        · exact h

/-- A run of name characters that starts with a letter. -/
theorem letters_takeWhile {cs : List Char} (h : startsWith isLetter cs = true) :
    startsWith isLetter (cs.takeWhile isNamePart) = true ∧
      (cs.takeWhile isNamePart).all isNamePart = true := by
  refine ⟨?_, List.all_takeWhile⟩
  cases cs with
  | nil => cases h
  | cons c more =>
    have hletter : isLetter c = true := h
    have hpart : isNamePart c = true := by simp [isNamePart, hletter]
    rw [List.takeWhile_cons, if_pos hpart]
    exact hletter

theorem scanSigil_lexical (more : List Char) : (scanSigil ('$' :: more)).Lexical lang := by
  have hname : ∀ name, isSigiled name = true →
      Lexical lang (.name (String.ofList name)) := fun name h => by
    simp [Lexical, isIdentifier, h]
  by_cases htwo : ∃ more', more = '$' :: more'
  · obtain ⟨more, rfl⟩ := htwo
    simp only [scanSigil, List.take_succ_cons, List.take_zero, if_true]
    split
    · next hstart =>
      obtain ⟨hletter, hparts⟩ := letters_takeWhile hstart
      refine hname _ ?_
      simp only [List.drop_succ_cons, List.drop_zero, List.length_cons, List.length_nil] at hletter hparts ⊢
      simp [isSigiled, hletter, hparts]
    · trivial
  · have htake : ('$' :: more).take 2 ≠ ['$', '$'] := fun h => by
      cases more with
      | nil => cases h
      | cons c more =>
        obtain rfl : c = '$' := by simpa using h
        exact htwo ⟨more, rfl⟩
    simp only [scanSigil, if_neg htake]
    split
    · next hstart =>
      obtain ⟨hletter, hparts⟩ := letters_takeWhile hstart
      refine hname _ ?_
      simp only [List.length_singleton, List.drop_succ_cons, List.drop_zero] at hletter hparts ⊢
      cases hname : more.takeWhile isNamePart with
      | nil =>
        rw [hname] at hletter
        cases hletter
      | cons c name =>
        rw [hname] at hletter hparts
        have hc : c ≠ '$' := by
          rintro rfl
          exact absurd hletter (by simp [startsWith]; decide)
        simp [isSigiled, hc, hletter, hparts]
    · trivial

/-! ### Tokens -/

theorem requireEnabled_bind {α : Type} {range : Range} {op : String}
    {f : Unit → Except LexicalError α} {a : α} (h : (requireEnabled lang range op >>= f) = .ok a) :
    lang.isOperatorEnabled op = true ∧ f () = .ok a := by
  unfold requireEnabled at h
  split at h
  · next henabled => exact ⟨henabled, h⟩
  · cases h

theorem tokenAt_lexical {p : Position} {c : Char} {rest rest' : List Char} {t : Token}
    (h : tokenAt lang p c rest = .ok (t, rest')) : Lexical lang t.kind := by
  unfold tokenAt at h
  split at h
  · next hs => exact place_lexical (scanNumber?_lexical hs) h
  · split at h
    · next hs => exact place_lexical (scanString?_lexical hs) h
    · split at h
      · next kind hkind =>
        unfold punctuation? at hkind
        split at hkind <;> cases hkind
        case h_7 =>
          obtain ⟨henabled, h⟩ := requireEnabled_bind h
          cases h
          exact henabled
        case h_8 =>
          obtain ⟨-, h⟩ := requireEnabled_bind h
          cases h
          trivial
        all_goals
          cases h
          trivial
      · split at h
        · next taken op more hop =>
          have hnamed : op.toList.all isNamePart = true → isIdentifier op = true := fun hparts => by
            rw [operator?_unnamed hop] at hparts
            cases hparts
          by_cases hcolon : op = ":"
          · subst hcolon
            cases h
            exact ⟨.inl rfl, hnamed⟩
          · rw [if_pos (bne_iff_ne.mpr hcolon)] at h
            obtain ⟨henabled, h⟩ := requireEnabled_bind h
            cases h
            exact ⟨.inr henabled, hnamed⟩
        · split at h
          · next hdollar =>
            subst hdollar
            exact place_lexical (scanSigil_lexical rest) h
          · split at h
            · next hstart =>
              refine place_lexical ?_ h
              refine classify_lexical ?_
              have hpart : isNamePart c = true := by
                simp only [isNameStart, Bool.or_eq_true] at hstart
                simp only [isNamePart, Bool.or_eq_true]
                exact hstart.imp_left .inl
              rw [List.takeWhile_cons, if_pos hpart]
              simp [isIdentifier, isWord, startsWith, hstart, hpart, List.all_takeWhile]
            · cases h

/-- All tokens of a text. -/
theorem tokensFrom_lexical (fuel : Nat) (p : Position) (cs : List Char) :
    ∀ t ∈ (tokensFrom lang fuel p cs).tokens, Lexical lang t.kind := by
  induction fuel generalizing p cs with
  | zero =>
    rw [tokensFrom]
    split
    · exact List.forall_mem_singleton.mpr trivial
    · exact fun _ h => (List.not_mem_nil h).elim
  | succ fuel ih =>
    rw [tokensFrom]
    split
    · exact List.forall_mem_singleton.mpr trivial
    · split
      · exact fun _ h => (List.not_mem_nil h).elim
      · next ht => exact List.forall_mem_cons.mpr ⟨tokenAt_lexical ht, ih _ _⟩

end Formula.Lexer
