import Formula.Proofs.Tokens.Followed

/-!
# Other blanks and comments

The tokens of a text do not depend on the blanks and comments around them, as long as there are
some between two tokens where there were some before. `Respaced` relates a text to those that have
its tokens with other gaps; the lexer reads the same kinds of token from all of them.
-/

namespace Formula

namespace Lexer

variable {lang : Language Value} {blanks cs x y : List Char} {ks : List TokenKind}

/-! ### Gaps -/

theorem skipTrivia_comment {body : List Char} (hbody : NoClose body) (rest : List Char)
    (p : Position) :
    skipTrivia true p (body ++ '*' :: '/' :: rest) =
      skipTrivia false (p.after (body ++ ['*', '/'])) rest := by
  induction body generalizing p with
  | nil => rfl
  | cons c body ih =>
    have hbody' : NoClose body := fun h => hbody (h.trans (List.suffix_cons c body).isInfix)
    have hstep : skipTrivia true p (c :: (body ++ '*' :: '/' :: rest)) =
        skipTrivia true (p.next c) (body ++ '*' :: '/' :: rest) := by
      refine skipTrivia.eq_4 p c _ fun tail hc htail => ?_
      -- A star and a slash would close the comment within its body.
      subst hc
      cases body with
      | nil => cases htail
      | cons d body =>
        obtain ⟨rfl, -⟩ := List.cons.inj htail
        exact hbody ⟨[], body, rfl⟩
    rw [List.cons_append, hstep, ih hbody']
    rfl

theorem Trivia.skip (h : Trivia blanks) (hbare : Bare cs) (p : Position) :
    skipTrivia false p (blanks ++ cs) = (p.after blanks, cs) := by
  induction h generalizing p with
  | nil => exact hbare.skipTrivia p
  | @blank c rest hblank _ ih =>
    have hslash : c ≠ '/' := by
      rintro rfl
      exact absurd hblank (by decide)
    rw [List.cons_append, skipTrivia.eq_2 _ _ _ fun _ hc => (hslash hc).elim, if_pos hblank, ih]
    rfl
  | @comment body rest hbody _ ih =>
    have hstart : ('/' :: '*' :: (body ++ '*' :: '/' :: rest)) ++ cs =
        '/' :: '*' :: (body ++ '*' :: '/' :: (rest ++ cs)) := by simp
    rw [hstart, skipTrivia.eq_1, skipTrivia_comment hbody, ih, ← Position.after_append]
    simp [Position.after]

/-- A gap that is not empty separates tokens. -/
theorem Trivia.endsLike (h : Trivia blanks) (hne : blanks ≠ []) : EndsLike x (blanks ++ y) := by
  cases h with
  | nil => exact (hne rfl).elim
  | blank hblank _ => exact .separator (by simp [isSeparator, hblank])
  | comment _ _ => exact .separator rfl

theorem Lexes.gap (h : Lexes lang cs ks) (hgap : Trivia blanks) (hbare : Bare cs) :
    Lexes lang (blanks ++ cs) ks := by
  intro fuel hfuel p
  have hstep : tokensFrom lang fuel p (blanks ++ cs) =
      tokensFrom lang fuel (p.after blanks) cs := by
    cases fuel <;> simp only [tokensFrom, hgap.skip hbare, hbare.skipTrivia]
  rw [hstep]
  exact h fuel (by rw [List.length_append] at hfuel; omega) _

end Lexer

/-! ### Texts with other gaps -/

/-- A text with the tokens that a source has from a byte offset on, with other blanks and comments
around them and with `tail` behind them. Between two tokens is a gap where there was one. -/
inductive Respaced (source tail : List Char) : Nat → List Token → List Char → Prop
  | last {offset : Nat} {gap : List Char} {t : Token} :
      Lexer.Trivia gap → Respaced source tail offset [t] (gap ++ tail)
  | token {offset : Nat} {gap gap' lexeme text : List Char} {t : Token} {rest : List Token} :
      Cuts source offset (t.range.start.offset source) gap → Lexer.Trivia gap' →
      (offset ≠ 0 → (gap' = [] ↔ gap = [])) →
      Cuts source (t.range.start.offset source) (t.range.stop.offset source) lexeme →
      Respaced source tail (t.range.stop.offset source) rest text →
      Respaced source tail offset (t :: rest) (gap' ++ (lexeme ++ text))

namespace Lexer

variable {lang : Language Value} {source tail : List Char} {ks : List TokenKind}

/-- What may stand behind the tokens of a text: it ends the last of them and has tokens of its
own. -/
structure Tail (lang : Language Value) (tail : List Char) (ks : List TokenKind) : Prop where
  separator : ∀ c ∈ tail.head?, isSeparator c = true
  bare : Bare tail
  lexes : Lexes lang tail ks

theorem bare_nil : Bare [] := by
  constructor
  · exact fun _ hc => by cases hc
  · exact fun _ h => by cases h

theorem Tail.nil : Tail lang [] [.eof] := by
  refine ⟨fun _ hc => ?_, bare_nil, .nil⟩
  cases hc

theorem Tail.rightParen : Tail lang [')'] [.rightParen, .eof] := by
  refine ⟨fun c hc => ?_, ⟨fun c hc => ?_, fun _ h => ?_⟩, ?_⟩
  · cases hc
    rfl
  · cases hc
    rfl
  · cases h
  · exact (begins_punctuation rfl fun _ h => by cases h).lexes .nil

theorem Tail.endsLike {blanks x : List Char} (h : Tail lang tail ks) (hgap : Trivia blanks) :
    EndsLike x (blanks ++ tail) := by
  cases blanks with
  | nil => exact .inr h.separator
  | cons c blanks => exact hgap.endsLike (by simp)

/-- The kinds of some tokens are read from a text, with others instead of the end. -/
def ReadsOn (lang : Language Value) (ks : List TokenKind) (tokens : List Token) (text : List Char) :
    Prop :=
  ∃ front, tokens.map Token.kind = front ++ [.eof] ∧ Lexes lang text (front ++ ks)

theorem ReadsOn.last {blanks : List Char} {t : Token} (htail : Tail lang tail ks)
    (hgap : Trivia blanks) (ht : t.kind = .eof) : ReadsOn lang ks [t] (blanks ++ tail) :=
  ⟨[], by simp [ht], htail.lexes.gap hgap htail.bare⟩

theorem ReadsOn.token {p : Position} {c : Char} {rest text x blanks lexeme : List Char} {t : Token}
    {tokens : List Token} (htoken : tokenAt lang p c rest = .ok (t, x)) (hbare : Bare (c :: rest))
    (hlexeme : c :: rest = lexeme ++ x) (hy : EndsLike x text) (hgap : Trivia blanks)
    (h : ReadsOn lang ks tokens text) :
    ReadsOn lang ks (t :: tokens) (blanks ++ (lexeme ++ text)) := by
  obtain ⟨front, hkinds, hlexes⟩ := h
  obtain ⟨more, rfl, -, hagain⟩ := tokenAt_stands htoken
  obtain rfl : c :: more = lexeme := List.append_cancel_right hlexeme
  have hbare' : Bare (c :: more ++ text) := hbare.exchanged (by simp) hy
  have hbegins : Begins lang (c :: more ++ text) t.kind text :=
    ⟨hbare'.skipTrivia, c, more ++ text, rfl, by simp, fun q => ⟨_, hagain text hy q, rfl⟩⟩
  exact ⟨t.kind :: front, by simp [hkinds], (hbegins.lexes hlexes).gap hgap hbare'⟩

/-- Two texts start alike when they go on with the same lexeme, or the second one has a gap. -/
theorem endsLike_gap {x y blanks lexeme : List Char} (hgap : Trivia blanks) (hne : lexeme ≠ [])
    (hx : blanks = [] → ∃ more, x = lexeme ++ more) : EndsLike x (blanks ++ (lexeme ++ y)) := by
  cases blanks with
  | nil =>
    obtain ⟨c, lexeme, rfl⟩ := List.exists_cons_of_ne_nil hne
    obtain ⟨more, rfl⟩ := hx rfl
    exact .same
  | cons c blanks => exact hgap.endsLike (by simp)

/-- The tokens of a source from `cs` on are read from a text with other gaps. What stands there
first ends the token before it as `cs` did. -/
theorem reads_respaced (htail : Tail lang tail ks) (fuel : Nat) (before cs : List Char)
    {text : List Char} (hsource : source = before ++ cs)
    (hfault : (tokensFrom lang fuel (Position.first.after before) cs).fault = none)
    (h : Respaced source tail (byteLength before)
      (tokensFrom lang fuel (Position.first.after before) cs).tokens text) :
    ReadsOn lang ks (tokensFrom lang fuel (Position.first.after before) cs).tokens text ∧
      (before ≠ [] → EndsLike cs text) := by
  have hlast : ∀ {before cs text : List Char} {t : Token}, t.kind = .eof →
      Respaced source tail (byteLength before) [t] text →
      ReadsOn lang ks [t] text ∧ (before ≠ [] → EndsLike cs text) := by
    intro before cs text t ht h
    cases h with
    | last hgap => exact ⟨.last htail hgap ht, fun _ => htail.endsLike hgap⟩
    | token _ _ _ _ hrest => cases hrest
  induction fuel generalizing before cs text with
  | zero =>
    cases hskip : skipTrivia false (Position.first.after before) cs with
    | mk q rest =>
      cases rest with
      | nil =>
        simp only [tokensFrom, hskip] at h ⊢
        exact hlast rfl h
      | cons c rest =>
        simp only [tokensFrom, hskip] at hfault
        cases hfault
  | succ fuel ih =>
    have hpassed := skipTrivia_passed false (Position.first.after before) cs
    have hbare := bare_skipTrivia false (Position.first.after before) cs
    cases hskip : skipTrivia false (Position.first.after before) cs with
    | mk q rest =>
      rw [hskip] at hpassed hbare
      cases rest with
      | nil =>
        simp only [tokensFrom, hskip] at h ⊢
        exact hlast rfl h
      | cons c rest =>
        obtain ⟨old, rfl, rfl, -⟩ := hpassed
        cases htoken : tokenAt lang ((Position.first.after before).after old) c rest with
        | error e =>
          simp only [tokensFrom, hskip, htoken] at hfault
          cases hfault
        | ok found =>
          obtain ⟨⟨range, kind⟩, x⟩ := found
          obtain ⟨lexeme, hne, hlexeme, rfl : range = _, -⟩ := tokenAt_taken htoken
          rw [hlexeme, ← List.append_assoc, ← List.append_assoc] at hsource
          rw [← Position.after_append, ← Position.after_append] at *
          have hstart : (Position.first.after (before ++ old)).offset source =
              byteLength (before ++ old) := by
            rw [hsource, List.append_assoc]
            exact Position.offset_after _ _
          have hstop : (Position.first.after (before ++ old ++ lexeme)).offset source =
              byteLength (before ++ old ++ lexeme) := by
            rw [hsource]
            exact Position.offset_after _ _
          simp only [tokensFrom, hskip, htoken] at hfault h ⊢
          generalize htokens : (tokensFrom lang fuel _ x).tokens = tokens at h ⊢
          cases h with
          | last _ =>
            have htiles := tokensFrom_tiles fuel (before ++ old ++ lexeme) x hsource hfault
            rw [htokens] at htiles
            cases htiles
          | @token _ gap blanks lexeme' text _ _ hold hgap hiff hcuts hrest =>
            dsimp only at hold hcuts hrest
            rw [hstart] at hold hcuts
            rw [hstop] at hcuts hrest
            -- The offsets of the ranges determine the gap and the lexeme.
            obtain rfl : gap = old :=
              hold.unique ⟨before, lexeme ++ x, by simp [hsource], rfl, rfl⟩
            obtain rfl : lexeme' = lexeme :=
              hcuts.unique ⟨before ++ gap, x, by simp [hsource], rfl, rfl⟩
            obtain ⟨hreads, hends⟩ := ih _ x hsource hfault (by rwa [htokens])
            rw [htokens] at hreads
            refine ⟨.token htoken hbare hlexeme (hends (by simp [hne])) hgap hreads,
              fun hbefore => ?_⟩
            refine endsLike_gap hgap hne fun hnil => ⟨x, ?_⟩
            rw [(hiff (mt byteLength_eq_zero.mp hbefore)).mp hnil, hlexeme]
            rfl

end Lexer

/-- The tokens of a text are read from its other spacings, with what `tail` holds behind them. -/
theorem lex_respaced {lang : Language Value} {source : String} {tail text : List Char}
    {ks : List TokenKind} (htail : Lexer.Tail lang tail ks) (hfault : (lex lang source).fault = none)
    (h : Respaced source.toList tail 0 (lex lang source).tokens text) :
    Lexer.ReadsOn lang ks (lex lang source).tokens text :=
  (Lexer.reads_respaced htail source.toList.length [] source.toList (List.nil_append _).symm hfault
    h).1

end Formula
