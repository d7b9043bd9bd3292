import Formula.Proofs.Tokens.Places
import Formula.Proofs.Tokens.Spelled

/-!
# Tokens tile the text

Between the offsets of a token's range stands its spelling, and what stands between the tokens are
blanks and comments. So tokens and gaps follow each other without a break from the start of the
text to its end, where the last token stands.
-/

namespace Formula

/-! ### Blanks and comments -/

namespace Lexer

/-- Whether nothing in a text closes a comment. -/
def NoClose (body : List Char) : Prop := ¬ ['*', '/'] <:+: body

/-- Blanks and comments, each closed where it first can be. -/
inductive Trivia : List Char → Prop
  | nil : Trivia []
  | blank {c : Char} {rest : List Char} : isBlank c = true → Trivia rest → Trivia (c :: rest)
  | comment {body rest : List Char} : NoClose body → Trivia rest →
      Trivia ('/' :: '*' :: (body ++ '*' :: '/' :: rest))

/-- What may stand before the end of a text: the last comment need not be closed. -/
inductive OpenTrivia : List Char → Prop
  | closed {gap : List Char} : Trivia gap → OpenTrivia gap
  | unclosed {gap body : List Char} : Trivia gap → NoClose body →
      OpenTrivia (gap ++ '/' :: '*' :: body)

/-- What may stand before a text that goes on with `rest`. -/
def Gap (gap rest : List Char) : Prop := Trivia gap ∨ rest = [] ∧ OpenTrivia gap

theorem Gap.blank {c : Char} {gap rest : List Char} (hc : isBlank c = true) (h : Gap gap rest) :
    Gap (c :: gap) rest := by
  obtain hgap | ⟨hrest, hgap⟩ := h
  · exact .inl (.blank hc hgap)
  · refine .inr ⟨hrest, ?_⟩
    cases hgap with
    | closed hgap => exact .closed (.blank hc hgap)
    | unclosed hgap hbody => exact .unclosed (.blank hc hgap) hbody

theorem Gap.comment {body gap rest : List Char} (hbody : NoClose body) (h : Gap gap rest) :
    Gap ('/' :: '*' :: (body ++ '*' :: '/' :: gap)) rest := by
  obtain hgap | ⟨hrest, hgap⟩ := h
  · exact .inl (.comment hbody hgap)
  · refine .inr ⟨hrest, ?_⟩
    cases hgap with
    | closed hgap => exact .closed (.comment hbody hgap)
    | @unclosed gap last hgap hlast =>
      have hopen := OpenTrivia.unclosed (.comment hbody hgap) hlast
      simpa using hopen

theorem noClose_cons {c : Char} {body : List Char} (h : NoClose body)
    (hstart : ∀ rest, c :: body ≠ '*' :: '/' :: rest) : NoClose (c :: body) := by
  intro hinfix
  rw [List.infix_cons_iff] at hinfix
  obtain ⟨rest, hrest⟩ | hinfix := hinfix
  · exact hstart rest hrest.symm
  · exact h hinfix

/-- What is passed before a token, from outside of a comment or from within one. -/
def Passed : (inside : Bool) → Position → List Char → Position × List Char → Prop
  | false, p, cs, (q, rest) => ∃ gap, cs = gap ++ rest ∧ q = p.after gap ∧ Gap gap rest
  | true, p, cs, (q, rest) =>
    (rest = [] ∧ q = p.after cs ∧ NoClose cs) ∨
      ∃ body gap, cs = body ++ '*' :: '/' :: (gap ++ rest) ∧
        q = p.after (body ++ '*' :: '/' :: gap) ∧ NoClose body ∧ Gap gap rest

namespace Passed

variable {p : Position} {c : Char} {rest : List Char} {after : Position × List Char}

theorem enter (h : Passed true ((p.next '/').next '*') rest after) :
    Passed false p ('/' :: '*' :: rest) after := by
  obtain ⟨hend, hq, hclose⟩ | ⟨body, gap, rfl, hq, hbody, hgap⟩ := h
  · refine ⟨'/' :: '*' :: rest, by simp [hend], hq, .inr ⟨hend, ?_⟩⟩
    exact .unclosed .nil hclose
  · exact ⟨'/' :: '*' :: (body ++ '*' :: '/' :: gap), by simp, hq, hgap.comment hbody⟩

theorem blank (hc : isBlank c = true) (h : Passed false (p.next c) rest after) :
    Passed false p (c :: rest) after := by
  obtain ⟨gap, rfl, hq, hgap⟩ := h
  exact ⟨c :: gap, rfl, hq, hgap.blank hc⟩

theorem leave (h : Passed false ((p.next '*').next '/') rest after) :
    Passed true p ('*' :: '/' :: rest) after := by
  obtain ⟨gap, rfl, hq, hgap⟩ := h
  exact .inr ⟨[], gap, rfl, hq, by simp [NoClose], hgap⟩

theorem within (hstart : ∀ tail, c :: rest ≠ '*' :: '/' :: tail)
    (h : Passed true (p.next c) rest after) : Passed true p (c :: rest) after := by
  obtain ⟨hend, hq, hclose⟩ | ⟨body, gap, rfl, hq, hbody, hgap⟩ := h
  · exact .inl ⟨hend, hq, noClose_cons hclose hstart⟩
  · refine .inr ⟨c :: body, gap, rfl, hq, noClose_cons hbody fun tail htail => ?_, hgap⟩
    obtain ⟨rfl, rfl⟩ := List.cons.inj htail
    exact hstart _ rfl

end Passed

theorem skipTrivia_passed (inside : Bool) (p : Position) (cs : List Char) :
    Passed inside p cs (skipTrivia inside p cs) := by
  fun_induction skipTrivia inside p cs with
  | case1 p rest ih => exact ih.enter
  | case2 p c rest _ hblank ih => exact ih.blank hblank
  | case3 p c rest _ hblank => exact ⟨[], rfl, rfl, .inl .nil⟩
  | case4 p rest ih => exact ih.leave
  | case5 p c rest hstart ih => exact ih.within (by simpa using hstart)
  | case6 inside p =>
    cases inside with
    | false => exact ⟨[], rfl, rfl, .inl .nil⟩
    | true => exact .inl ⟨rfl, rfl, by simp [NoClose]⟩

end Lexer

/-! ### Tokens -/

/-- From a byte offset on, tokens follow each other with blanks and comments between them: between
the offsets of a token's range stands its spelling, and the last token alone is the end of the
text. -/
inductive Tiles (source : List Char) : Nat → List Token → Prop
  | last {offset : Nat} {gap : List Char} {t : Token} :
      Cuts source offset (t.range.start.offset source) gap → Lexer.OpenTrivia gap →
      t.kind = .eof → t.range.start.offset source = byteLength source →
      t.range.stop.offset source = byteLength source → Tiles source offset [t]
  | token {offset : Nat} {gap lexeme : List Char} {t : Token} {rest : List Token} :
      Cuts source offset (t.range.start.offset source) gap → Lexer.Trivia gap →
      Cuts source (t.range.start.offset source) (t.range.stop.offset source) lexeme →
      t.kind.Spelled lexeme → t.kind ≠ .eof →
      Tiles source (t.range.stop.offset source) rest → Tiles source offset (t :: rest)

namespace Lexer

theorem spelled_ne_eof {k : TokenKind} {cs : List Char} (h : k.Spelled cs) (hne : cs ≠ []) :
    k ≠ .eof := by
  rintro rfl
  cases h with
  | eof => exact hne rfl
  | plain hplain => cases hplain

/-- Where only blanks and comments are left, the end of the text follows. -/
theorem tiles_last {source before cs : List Char} {q : Position} (hsource : source = before ++ cs)
    (hskip : skipTrivia false (Position.first.after before) cs = (q, [])) :
    Tiles source ((Position.first.after before).offset source) [⟨⟨q, q⟩, .eof⟩] := by
  have hpassed := skipTrivia_passed false (Position.first.after before) cs
  rw [hskip] at hpassed
  obtain ⟨gap, hcs, rfl, hgap⟩ := hpassed
  rw [List.append_nil] at hcs
  subst hcs hsource
  rw [← Position.after_append]
  have hend := Position.offset_after (before ++ cs) []
  have hcuts := Position.cuts_after before cs []
  rw [List.append_nil] at hend hcuts
  refine .last hcuts ?_ rfl hend hend
  obtain hgap | ⟨-, hgap⟩ := hgap
  · exact .closed hgap
  · exact hgap

theorem tokensFrom_tiles {lang : Language Value} {source : List Char} (fuel : Nat)
    (before cs : List Char) (hsource : source = before ++ cs)
    (hfault : (tokensFrom lang fuel (Position.first.after before) cs).fault = none) :
    Tiles source ((Position.first.after before).offset source)
      (tokensFrom lang fuel (Position.first.after before) cs).tokens := by
  -- `before` has been read already: positions count from the start of the whole text
  induction fuel generalizing before cs with
  | zero =>
    rw [tokensFrom] at hfault ⊢
    split at hfault
    · next q hskip => exact tiles_last hsource hskip
    · cases hfault
  | succ fuel ih =>
    rw [tokensFrom] at hfault ⊢
    split at hfault
    · next q hskip => exact tiles_last hsource hskip
    · next q c rest hskip =>
      have hpassed := skipTrivia_passed false (Position.first.after before) cs
      rw [hskip] at hpassed
      obtain ⟨gap, rfl, rfl, hgap⟩ := hpassed
      have htrivia : Trivia gap := hgap.resolve_right fun h => by cases h.1
      rw [← Position.after_append] at hfault ⊢
      cases htoken : tokenAt lang (Position.first.after (before ++ gap)) c rest with
      | error e =>
        rw [htoken] at hfault
        cases hfault
      | ok found =>
        obtain ⟨t, rest'⟩ := found
        obtain ⟨lexeme, hne, hlexeme, hrange, hspelled⟩ := tokenAt_taken htoken
        rw [← Position.after_append] at hrange
        rw [htoken] at hfault
        simp only [hrange] at hfault
        rw [hlexeme] at hsource
        have hgapCuts := Position.cuts_after before gap (lexeme ++ rest')
        have hlexemeCuts := Position.cuts_after (before ++ gap) lexeme rest'
        have htail := ih (before ++ gap ++ lexeme) rest' (by simp [hsource]) hfault
        rw [← hsource] at hgapCuts
        rw [List.append_assoc before, ← hsource] at hlexemeCuts
        dsimp only
        refine Tiles.token (?_ : Cuts source _ _ gap) htrivia (?_ : Cuts source _ _ lexeme) hspelled
          (spelled_ne_eof hspelled hne) ?_
        · rw [hrange]
          exact hgapCuts
        · rw [hrange]
          exact hlexemeCuts
        · rw [hrange]
          exact htail

end Lexer

namespace Tiles

variable {source : List Char} {offset : Nat} {tokens : List Token}

theorem le_start (h : Tiles source offset tokens) :
    ∀ t ∈ tokens, offset ≤ t.range.start.offset source := by
  induction h with
  | last hgap => exact List.forall_mem_singleton.mpr hgap.le
  | token hgap _ hlexeme _ _ _ ih =>
    refine List.forall_mem_cons.mpr ⟨hgap.le, fun t ht => ?_⟩
    exact (hgap.le.trans hlexeme.le).trans (ih t ht)

theorem pairwise (h : Tiles source offset tokens) :
    tokens.Pairwise fun t u => t.range.stop.offset source ≤ u.range.start.offset source := by
  induction h with
  | last => exact List.pairwise_singleton ..
  | token _ _ _ _ _ hrest ih => exact List.pairwise_cons.mpr ⟨hrest.le_start, ih⟩

/-- The end of the text is the last token and no other. -/
theorem eof_last (h : Tiles source offset tokens) :
    ∃ front t, tokens = front ++ [t] ∧ t.kind = .eof ∧
      t.range.start.offset source = byteLength source ∧ ∀ u ∈ front, u.kind ≠ .eof := by
  induction h with
  | last _ _ hkind hstart => exact ⟨[], _, rfl, hkind, hstart, by simp⟩
  | token _ _ _ _ hkind _ ih =>
    obtain ⟨front, t, rfl, heof, hstart, hfront⟩ := ih
    exact ⟨_ :: front, t, rfl, heof, hstart, List.forall_mem_cons.mpr ⟨hkind, hfront⟩⟩

end Tiles

/-- The tokens of a text and the blanks and comments between them make up the text: their byte
offsets are found again from lines and columns, stand in order, and have the spelling of the token
between them. -/
theorem tokenize_tiles {lang : Language Value} {source : String} {tokens : List Token}
    (h : tokenize lang source = .ok tokens) :
    Tiles source.toList 0 tokens ∧
      tokens.Pairwise (fun t u =>
        t.range.stop.offset source.toList ≤ u.range.start.offset source.toList) ∧
      ∃ front t, tokens = front ++ [t] ∧ t.kind = .eof ∧
        t.range.start.offset source.toList = source.utf8ByteSize ∧
        ∀ u ∈ front, u.kind ≠ .eof := by
  have hfault : (lex lang source).fault = none ∧ (lex lang source).tokens = tokens := by
    unfold tokenize at h
    dsimp only at h
    split at h
    · cases h
    · next hfault => exact ⟨hfault, Except.ok.inj h⟩
  have htiles : Tiles source.toList 0 tokens := by
    rw [← hfault.2]
    have hall := Lexer.tokensFrom_tiles _ [] source.toList (List.nil_append _).symm hfault.1
    have hstart : (Position.first.after []).offset source.toList = 0 :=
      Position.offset_after [] source.toList
    rw [hstart] at hall
    exact hall
  rw [← byteLength_toList]
  exact ⟨htiles, htiles.pairwise, htiles.eof_last⟩

def multilineSource : String := "/* π */ 'ä\\u00e4\n' ∙\r\n\tcase_1 /* open"

/-- Characters of several bytes, a string over two lines with an escape, and an open comment. -/
theorem multiline_tiles :
    (tokenize (.ofOptions 0 {}) multilineSource).toOption.map (fun tokens => tokens.map fun t =>
      (t.range.start.offset multilineSource.toList, t.range.stop.offset multilineSource.toList)) =
        some [(9, 20), (21, 24), (27, 33), (41, 41)] ∧
    ∃ tokens, tokenize (.ofOptions 0 {}) multilineSource = .ok tokens ∧
      Tiles multilineSource.toList 0 tokens := by
  have hoffsets : (tokenize (.ofOptions 0 {}) multilineSource).toOption.map (fun tokens =>
      tokens.map fun t => (t.range.start.offset multilineSource.toList,
        t.range.stop.offset multilineSource.toList)) =
          some [(9, 20), (21, 24), (27, 33), (41, 41)] := by
    decide +kernel
  refine ⟨hoffsets, ?_⟩
  cases htokens : tokenize (.ofOptions 0 {}) multilineSource with
  | error e =>
    rw [htokens] at hoffsets
    cases hoffsets
  | ok tokens => exact ⟨tokens, rfl, (tokenize_tiles htokens).1⟩

end Formula
