import Formula.Proofs.Parser.Precedence
import Formula.Proofs.Parser.Related
import Formula.Proofs.Tokens.Respaced

/-!
# What the parser makes of other spacings

Other blanks and comments between the tokens of a text change neither the tokens nor what is parsed
of them. So a text may be put between parentheses, unless it ends within a comment: the tokens
stay, and the parenthesis that closes is read behind them.
-/

namespace Formula

variable {lang : Language Value}

/-! ### Faultless texts -/

namespace Lexer

/-- Before a fault no token is the end of the text. -/
theorem tokensFrom_faulty (fuel : Nat) (p : Position) (cs : List Char)
    (hfault : (tokensFrom lang fuel p cs).fault ≠ none) :
    ∀ t ∈ (tokensFrom lang fuel p cs).tokens, t.kind ≠ .eof := by
  induction fuel generalizing p cs with
  | zero =>
    rw [tokensFrom] at hfault ⊢
    split at hfault
    · exact (hfault rfl).elim
    · exact fun t ht => by cases ht
  | succ fuel ih =>
    rw [tokensFrom] at hfault ⊢
    split at hfault
    · exact (hfault rfl).elim
    · next q c rest _ =>
      cases htoken : tokenAt lang q c rest with
      | error e => exact fun t ht => by cases ht
      | ok found =>
        obtain ⟨t, rest'⟩ := found
        rw [htoken] at hfault
        obtain ⟨lexeme, hne, -, -, hspelled⟩ := tokenAt_taken htoken
        exact List.forall_mem_cons.mpr ⟨spelled_ne_eof hspelled hne, ih _ _ hfault⟩

end Lexer

theorem lex_tiles {source : String} (h : (lex lang source).fault = none) :
    Tiles source.toList 0 (lex lang source).tokens := by
  have htiles := Lexer.tokensFrom_tiles _ [] source.toList (List.nil_append _).symm h
  rwa [show (Position.first.after []).offset source.toList = 0 from
    Position.offset_after [] source.toList] at htiles

theorem lex_eof {source : String} (h : (lex lang source).fault = none) :
    ∃ front t, (lex lang source).tokens = front ++ [t] ∧ t.kind = .eof := by
  obtain ⟨front, t, htokens, hend, -⟩ := (lex_tiles h).eof_last
  exact ⟨front, t, htokens, hend⟩

theorem lex_ends (source : String) :
    Parser.Ends (lex lang source).tokens (lex lang source).fault := by
  refine ⟨fun hfault t ht => ?_, Lexer.tokensFrom_faulty _ _ _⟩
  obtain ⟨front, last, htokens, hend⟩ := lex_eof hfault
  rw [htokens, List.getLast?_concat] at ht
  cases ht
  exact hend

/-- Two texts with one fault, if any, whose tokens are related one by one. -/
theorem parseExpr_related {R : Token → Token → Prop} (hR : ∀ t u, R t u → t.kind = u.kind)
    {source source' : String} (hfault : (lex lang source').fault = (lex lang source).fault)
    (htokens : List.Forall₂ R (lex lang source).tokens (lex lang source').tokens) :
    ParsedAlike R (parseExpr lang source) (parseExpr lang source') ∧
      ∀ e, parseExpr lang source = .ok e → (lex lang source).fault = none := by
  have hne : (lex lang source).fault = none → (lex lang source).tokens ≠ [] := fun hfault => by
    obtain ⟨front, t, htokens, -⟩ := lex_eof hfault
    simp [htokens]
  have hlexed' : lex lang source' = ⟨(lex lang source').tokens, (lex lang source).fault⟩ := by
    rw [← hfault]
  unfold parseExpr
  rw [hlexed']
  obtain ⟨e, h, h', hfaultless⟩ | ⟨e, e', h, h', he⟩ :=
    Parser.whole_related hR lang (lex_ends source) hne htokens
  · rw [h, h']
    exact ⟨.ok e, fun _ _ => hfaultless⟩
  · rw [h, h']
    exact ⟨.error he, fun _ hok => by cases hok⟩

/-- What parses has no fault. -/
theorem parseExpr_faultless {source : String} {e : Expr} (h : parseExpr lang source = .ok e) :
    (lex lang source).fault = none :=
  (parseExpr_related (R := Eq) (fun t u htu => by rw [htu]) rfl
    (List.forall₂_same.mpr fun _ _ => rfl)).2 e h

/-! ### Other spacings -/

/-- Tokens at the same place of two lists. -/
def SamePlace (tokens tokens' : List Token) (t u : Token) : Prop :=
  ∃ i : Nat, tokens[i]? = some t ∧ tokens'[i]? = some u

theorem SamePlace.kind {tokens tokens' : List Token} {t u : Token}
    (hkinds : tokens'.map Token.kind = tokens.map Token.kind) (h : SamePlace tokens tokens' t u) :
    t.kind = u.kind := by
  obtain ⟨i, ht, hu⟩ := h
  have hi : (tokens'.map Token.kind)[i]? = (tokens.map Token.kind)[i]? := by rw [hkinds]
  rw [List.getElem?_map, List.getElem?_map, ht, hu] at hi
  exact (Option.some.inj hi).symm

theorem samePlace_all {tokens tokens' : List Token} (hlength : tokens.length = tokens'.length) :
    List.Forall₂ (SamePlace tokens tokens') tokens tokens' := by
  rw [List.forall₂_iff_get]
  refine ⟨hlength, fun i hi hi' => ⟨i, ?_, ?_⟩⟩
  · exact List.getElem?_eq_getElem hi
  · exact List.getElem?_eq_getElem hi'

theorem tokenize_eq_ok {source : String} {tokens : List Token} :
    tokenize lang source = .ok tokens ↔
      (lex lang source).fault = none ∧ (lex lang source).tokens = tokens := by
  unfold tokenize
  dsimp only
  split
  · next hfault => simp [hfault]
  · next hfault => simp [hfault]

/-- A text with other blanks and comments between its tokens, where there are some, and around them
has tokens of the same kinds. It is parsed to the same expression, or fails alike about the token at
the same place. -/
theorem tokenize_respaced {source source' : String} {tokens : List Token}
    (h : tokenize lang source = .ok tokens)
    (hspaced : Respaced source.toList [] 0 tokens source'.toList) :
    ∃ tokens', tokenize lang source' = .ok tokens' ∧
      tokens'.map Token.kind = tokens.map Token.kind ∧
      ParsedAlike (SamePlace tokens tokens') (parseExpr lang source) (parseExpr lang source') := by
  obtain ⟨hfault, rfl⟩ := tokenize_eq_ok.mp h
  obtain ⟨front, hkinds, hlexes⟩ := lex_respaced .nil hfault hspaced
  obtain ⟨hfault', hkinds'⟩ := hlexes _ (Nat.le_refl _) .first
  have hsame : (lex lang source').tokens.map Token.kind = (lex lang source).tokens.map Token.kind :=
    hkinds'.trans hkinds.symm
  have hlength : (lex lang source).tokens.length = (lex lang source').tokens.length := by
    simpa using congrArg List.length hsame.symm
  refine ⟨_, tokenize_eq_ok.mpr ⟨hfault', rfl⟩, hsame, ?_⟩
  exact (parseExpr_related (fun t u => SamePlace.kind hsame) (hfault'.trans hfault.symm)
    (samePlace_all hlength)).1

def crowdedSource : String := "a/**/in [1 ]"

def roomySource : String := "\t/*/ **/a in/***/[1\n]\r"

/-- Comments for blanks and blanks for comments, around a word that is an operator and behind a
number. -/
theorem crowdedSource_respaced : ∃ tokens tokens',
    tokenize (.ofOptions 0 {}) crowdedSource = .ok tokens ∧
    tokenize (.ofOptions 0 {}) roomySource = .ok tokens' ∧
    tokens'.map Token.kind = tokens.map Token.kind ∧
    ParsedAlike (SamePlace tokens tokens') (parseExpr (.ofOptions 0 {}) crowdedSource)
      (parseExpr (.ofOptions 0 {}) roomySource) := by
  have htokens : tokenize (.ofOptions 0 {}) crowdedSource = .ok
      [⟨⟨⟨1, 1⟩, ⟨1, 2⟩⟩, .name "a"⟩, ⟨⟨⟨1, 6⟩, ⟨1, 8⟩⟩, .op "in"⟩,
        ⟨⟨⟨1, 9⟩, ⟨1, 10⟩⟩, .leftBracket⟩,
        ⟨⟨⟨1, 10⟩, ⟨1, 11⟩⟩, .number (Number.parseChars ['1'])⟩,
        ⟨⟨⟨1, 12⟩, ⟨1, 13⟩⟩, .rightBracket⟩, ⟨⟨⟨1, 13⟩, ⟨1, 13⟩⟩, .eof⟩] := rfl
  have hcuts : ∀ {start stop : Nat} (before text rest : List Char),
      crowdedSource.toList = before ++ (text ++ rest) → byteLength before = start →
      byteLength (before ++ text) = stop → Cuts crowdedSource.toList start stop text :=
    fun before text rest h hstart hstop => ⟨before, rest, h, hstart, hstop⟩
  have hcomment : ∀ body : List Char, ¬ ['*', '/'] <:+: body →
      Lexer.Trivia ('/' :: '*' :: (body ++ ['*', '/'])) := fun body h => .comment h .nil
  have hlast := @Respaced.last crowdedSource.toList [] 12 ['\r'] ⟨⟨⟨1, 13⟩, ⟨1, 13⟩⟩, .eof⟩
    (.blank rfl .nil)
  have hright := @Respaced.token _ [] 10 [' '] ['\n'] [']'] _
    ⟨⟨⟨1, 12⟩, ⟨1, 13⟩⟩, .rightBracket⟩ _ (hcuts "a/**/in [1".toList _ [']'] rfl rfl rfl)
    (.blank rfl .nil) (by simp) (hcuts "a/**/in [1 ".toList _ [] rfl rfl rfl) hlast
  have hone := @Respaced.token _ [] 9 [] [] ['1'] _
    ⟨⟨⟨1, 10⟩, ⟨1, 11⟩⟩, .number (Number.parseChars ['1'])⟩ _
    (hcuts "a/**/in [".toList _ "1 ]".toList rfl rfl rfl) .nil (by simp)
    (hcuts "a/**/in [".toList _ " ]".toList rfl rfl rfl) hright
  have hleft := @Respaced.token _ [] 7 [' '] "/***/".toList ['['] _
    ⟨⟨⟨1, 9⟩, ⟨1, 10⟩⟩, .leftBracket⟩ _ (hcuts "a/**/in".toList _ "[1 ]".toList rfl rfl rfl)
    (hcomment ['*'] (by decide)) (by simp) (hcuts "a/**/in ".toList _ "1 ]".toList rfl rfl rfl) hone
  have hin := @Respaced.token _ [] 1 "/**/".toList [' '] "in".toList _
    ⟨⟨⟨1, 6⟩, ⟨1, 8⟩⟩, .op "in"⟩ _ (hcuts ['a'] _ "in [1 ]".toList rfl rfl rfl)
    (.blank rfl .nil) (by simp) (hcuts "a/**/".toList _ " [1 ]".toList rfl rfl rfl) hleft
  have hspaced : Respaced crowdedSource.toList [] 0 _ roomySource.toList :=
    @Respaced.token _ [] 0 [] "\t/*/ **/".toList ['a'] _ ⟨⟨⟨1, 1⟩, ⟨1, 2⟩⟩, .name "a"⟩ _
      (hcuts [] _ crowdedSource.toList rfl rfl rfl)
      (.blank rfl (hcomment "/ *".toList (by decide))) (by simp)
      (hcuts [] _ "/**/in [1 ]".toList rfl rfl rfl) hin
  obtain ⟨tokens', htokens', hkinds, halike⟩ := tokenize_respaced htokens hspaced
  exact ⟨_, tokens', htokens, htokens', hkinds, halike⟩

/-! ### Parentheses -/

/-- The offset where the last token before the end of a text stops. -/
def lastStop (source : List Char) : Nat → List Token → Nat
  | _, t :: u :: rest => lastStop source (t.range.stop.offset source) (u :: rest)
  | offset, _ => offset

/-- Whether behind the last token of a source a comment is opened that is not closed. -/
def Language.EndsInComment (lang : Language Value) (source : String) : Prop :=
  ∃ gap body, Lexer.Trivia gap ∧ Lexer.NoClose body ∧
    Cuts source.toList (lastStop source.toList 0 (lex lang source).tokens)
      (byteLength source.toList) (gap ++ '/' :: '*' :: body)

theorem lastStop_cons {source : List Char} {offset : Nat} {t : Token} {rest : List Token}
    (h : rest ≠ []) :
    lastStop source offset (t :: rest) = lastStop source (t.range.stop.offset source) rest := by
  cases rest with
  | nil => exact (h rfl).elim
  | cons u rest => rfl

/-- What stands from an offset on starts with what stands there up to a later one. -/
theorem Cuts.split {source text cs : List Char} {start stop : Nat}
    (h : Cuts source start stop text) (hall : Cuts source start (byteLength source) cs) :
    ∃ more, cs = text ++ more ∧ Cuts source stop (byteLength source) more := by
  obtain ⟨before, rest, rfl, rfl, rfl⟩ := h
  obtain ⟨before', rest', heq, hstart, hstop⟩ := hall
  obtain ⟨rfl, hrest⟩ := append_inj_of_byteLength heq hstart.symm
  have hend : rest' = [] := by
    rw [heq] at hstop
    simp only [byteLength_append] at hstop
    exact byteLength_eq_zero.mp (by omega)
  subst hend
  rw [List.append_nil] at hrest
  exact ⟨rest, hrest.symm, before ++ text, [], by simp, rfl, by simp⟩

/-- A source with `tail` behind it is one of its own spacings, if its last gap is closed. -/
theorem Tiles.respaced {source tail : List Char} {offset : Nat} {tokens : List Token}
    (h : Tiles source offset tokens)
    (hclosed : ∀ gap, Cuts source (lastStop source offset tokens) (byteLength source) gap →
      Lexer.OpenTrivia gap → Lexer.Trivia gap) :
    ∀ cs, Cuts source offset (byteLength source) cs →
      Respaced source tail offset tokens (cs ++ tail) := by
  induction h with
  | @last offset gap t hgap hopen _ hstart _ =>
    intro cs hcs
    rw [hstart] at hgap
    obtain rfl := hgap.unique hcs
    exact .last (hclosed gap hgap hopen)
  | @token offset gap lexeme t rest hgap htrivia hlexeme _ _ hrest ih =>
    intro cs hcs
    obtain ⟨more, rfl, hmore⟩ := hgap.split hcs
    obtain ⟨more, rfl, hbehind⟩ := hlexeme.split hmore
    have hne : rest ≠ [] := fun hnil => by
      rw [hnil] at hrest
      cases hrest
    rw [lastStop_cons hne] at hclosed
    have hspaced := Respaced.token hgap htrivia (fun _ => Iff.rfl) hlexeme (ih hclosed more hbehind)
    simpa only [List.append_assoc] using hspaced

/-- A text that parses and does not end in a comment parses to the same expression between
parentheses. -/
theorem parseExpr_parentheses {source : String} {e : Expr} (h : parseExpr lang source = .ok e)
    (hclosed : ¬ lang.EndsInComment source) :
    parseExpr lang ("(" ++ source ++ ")") = .ok e := by
  have hfault := parseExpr_faultless h
  have hspaced : Respaced source.toList [')'] 0 (lex lang source).tokens
      (source.toList ++ [')']) := by
    refine (lex_tiles hfault).respaced (fun gap hcuts hopen => ?_) _ ⟨[], [], by simp, rfl, rfl⟩
    cases hopen with
    | closed hgap => exact hgap
    | unclosed hgap hbody => exact (hclosed ⟨_, _, hgap, hbody, hcuts⟩).elim
  obtain ⟨front, hkinds, hlexes⟩ := lex_respaced .rightParen hfault hspaced
  have hsource : lang.Tokenizes source front := ⟨hfault, hkinds⟩
  have hopening : Lexer.Lexes lang ("(" ++ source ++ ")").toList
      (.leftParen :: (front ++ [.rightParen, .eof])) := by
    have hbegins : Lexer.Begins lang ('(' :: (source.toList ++ [')'])) .leftParen
        (source.toList ++ [')']) := Lexer.begins_punctuation rfl fun _ h => by cases h
    simpa using hbegins.lexes hlexes
  have hparens : lang.Tokenizes ("(" ++ source ++ ")") (Parser.inParens front) := by
    obtain ⟨hfault', hkinds'⟩ := hopening _ (Nat.le_refl _) .first
    exact ⟨hfault', hkinds'.trans (by simp [Parser.inParens])⟩
  have hpostfixed := Parser.postfixed_term (⟨_, _, .enclosed hsource h⟩ : Term lang)
    (k := .eof) [] rfl rfl
  have hfactor := Parser.factor_of_power (Parser.power_of_postfixed hpostfixed (by omega) rfl) rfl
  have hoperand := Parser.operand_of_factor hfactor .conversion fun t _ =>
    Parser.continues_of_closes rfl t
  have htier := Parser.tier_of_operand hoperand (by omega) (Parser.continues_of_closes rfl _)
  have hassignment := Parser.assignment_of_tier htier (by omega) rfl
  refine hparens.parses (Parser.statements_of_assignment hassignment rfl) ?_
  simp only [Parser.Tier.slack]
  omega

def openSource : String := "f(x) = not x; /* not */ f(not);\n"

/-- A definition and a call with a semicolon at the end, and an operator that stands for itself. -/
theorem openSource_parentheses : ∃ e, parseExpr (.ofOptions 0 {}) openSource = .ok e ∧
    parseExpr (.ofOptions 0 {}) ("(" ++ openSource ++ ")") = .ok e := by
  have hparses : (parseExpr (.ofOptions 0 {}) openSource).toOption.map (·.compile.length) =
      some 1 := by
    decide +kernel
  obtain ⟨e, he, -⟩ := exists_ok_of_map hparses
  refine ⟨e, he, parseExpr_parentheses he ?_⟩
  rintro ⟨gap, body, -, -, hcuts⟩
  have hgap : Cuts openSource.toList (lastStop openSource.toList 0
      (lex (.ofOptions 0 {}) openSource).tokens) (byteLength openSource.toList) ['\n'] :=
    ⟨"f(x) = not x; /* not */ f(not);".toList, [], rfl, rfl, rfl⟩
  have hlength := congrArg List.length (hcuts.unique hgap)
  simp only [List.length_append, List.length_cons, List.length_nil] at hlength
  omega

end Formula
