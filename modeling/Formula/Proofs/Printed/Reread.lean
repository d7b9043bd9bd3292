import Formula.Proofs.Expr.Literals
import Formula.Proofs.Printed.Legible

/-!
# Reading what is printed

The text of an expression parses to that expression, with the literals that its literals are read
as, if its names, numbers and operators are such as the lexer reads, and what stands before links and
after named operators is read as one unit.
-/

open Formula.Lexer Formula.Parser

namespace Formula.Expr

variable {lang : Language Value}

/-! ### Targets -/

/-- The expression that an assignment has on its left. -/
def pathTarget (root : String) (members : List String) : Expr :=
  members.foldl .member (.variable root)

/-- The expression that a definition has on its left. -/
def functionTarget (name : String) (params : List String) : Expr :=
  .call (.variable name) (params.map .variable)

theorem memberPath?_foldl (members : List String) (e : Expr) (more : List String) :
    memberPath? (members.foldl .member e) more = memberPath? e (members ++ more) := by
  induction members generalizing e with
  | nil => rfl
  | cons m members ih => exact ih (.member e m)

theorem target?_of_memberPath? {e : Expr} {root : String} {members : List String}
    (h : memberPath? e [] = some (root, members)) : e.target? = some (.path root members) := by
  cases e with
  | «variable» name =>
    cases h
    rfl
  | member base name =>
    have hbase : memberPath? base [name] = some (root, members) := h
    simp only [target?, hbase, Option.map_some]
  | _ => cases h

theorem target?_pathTarget (root : String) (members : List String) :
    (pathTarget root members).target? = some (.path root members) := by
  refine target?_of_memberPath? ?_
  rw [pathTarget, memberPath?_foldl, List.append_nil]
  rfl

theorem mapM_variableName? (params : List String) :
    (params.map Expr.variable).mapM variableName? = some params := by
  induction params with
  | nil => rfl
  | cons p params ih => simp [List.mapM_cons, variableName?, ih]

theorem target?_functionTarget (name : String) (params : List String) :
    (functionTarget name params).target? = some (.function name params) := by
  simp only [functionTarget, target?, variableName?, mapM_variableName?]

theorem text_foldl_member (members : List String) (e : Expr) :
    (members.foldl .member e).text = e.text ++ members.flatMap fun m => '.' :: m.toList := by
  induction members generalizing e with
  | nil => simp
  | cons m members ih =>
    have hmember : (Expr.member e m).text = e.text ++ '.' :: m.toList := by
      simp [text, render]
    rw [List.foldl_cons, ih, hmember, List.append_assoc, List.flatMap_cons, List.cons_append]

theorem text_pathTarget (root : String) (members : List String) :
    (path root members).toList = (pathTarget root members).text := by
  have hroot : (Expr.variable root).text = root.toList := by simp [text, render]
  rw [path, String.toList_intercalate, List.map_cons, intercalate_cons, pathTarget,
    text_foldl_member, hroot, List.flatMap_map]
  rfl

theorem renderItems_variables (params : List String) :
    renderItems .formula (params.map Expr.variable) = params := by
  induction params with
  | nil => rfl
  | cons p params ih => simp [renderItems, render, ih]

theorem reread_pathTarget (hlang : lang.Writes) {root : String} {members : List String}
    (hroot : IsPlain lang root) (hmembers : ∀ m ∈ members, isIdentifier m = true) :
    (pathTarget root members).Reread lang := by
  have hfold : ∀ e : Expr, e.Reread lang → e.isNumber = false →
      (members.foldl .member e).Reread lang := by
    induction members with
    | nil => exact fun e he _ => he
    | cons m members ih =>
      obtain ⟨hm, hmembers⟩ := List.forall_mem_cons.mp hmembers
      exact fun e he hnumber => ih hmembers _ (readAs_member hlang hm he hnumber) rfl
  exact hfold _ (reread_variable hroot) rfl

theorem legible_of_spelled {e e' : Expr}
    (h : Legible lang e.endsAt e.text fun ks => Spelled lang ks e') :
    Legible lang endsNumber e.text fun ks => Stated lang ks e' := by
  obtain ⟨ks, hks, htext⟩ := h
  exact ⟨ks, hks.stated, htext.mono fun _ => e.endsAt_of_endsNumber⟩

theorem legible_of_readAs {e e' : Expr} (h : e.ReadAs lang e') :
    Legible lang endsNumber e.text fun ks => Stated lang ks e' := legible_of_spelled h.spelled

theorem reread_functionTarget {name : String} {params : List String}
    (hname : IsPlain lang name) (hparams : ∀ p ∈ params, IsPlain lang p) :
    (functionTarget name params).Reread lang := by
  refine readAs_call (reread_variable hname) ?_
  induction params with
  | nil => exact .nil
  | cons p params ih =>
    obtain ⟨hp, hparams⟩ := List.forall_mem_cons.mp hparams
    exact .cons (legible_of_readAs (reread_variable hp)) (ih hparams)

theorem readAs_assign (hlang : lang.Writes) {root : String} {members : List String} {e e' : Expr}
    (hroot : IsPlain lang root) (hmembers : ∀ m ∈ members, isIdentifier m = true)
    (he : e.ReadAs lang e') : (assign root members e).ReadAs lang (assign root members e') := by
  obtain ⟨ks, hks, htarget⟩ := reread_pathTarget hlang hroot hmembers
  obtain ⟨ls, hls, htext⟩ := he
  have hshape : (assign root members e).text =
      enclosed (spaced (pathTarget root members).text "=" (enclosed e.text)) := by
    rw [← text_pathTarget]
    simp [text, render, enclosed, spaced]
  exact readAs_enclosed (atomic_assign hks.spelled (target?_pathTarget root members)
      (atomic_paren hls.spelled).spelled) rfl hshape
    (hlang.spaced (.inl (by decide)) htarget (endsAt_delimiter _ (by decide))
      (htext.enclosed endsName (endsAt_delimiter e (by decide)))) (by decide)

theorem readAs_define (hlang : lang.Writes) {name : String} {params : List String} {e e' : Expr}
    (hname : IsPlain lang name) (hparams : ∀ p ∈ params, IsPlain lang p)
    (he : e.ReadAs lang e') : (define name params e).ReadAs lang (define name params e') := by
  obtain ⟨ks, hks, htarget⟩ := reread_functionTarget hname hparams
  obtain ⟨ls, hls, htext⟩ := he
  have hshape : (define name params e).text =
      enclosed (spaced (functionTarget name params).text "=" (enclosed e.text)) := by
    simp [text, render, Dialect.definition, functionTarget, renderItems_variables, enclosed, spaced]
  exact readAs_enclosed (atomic_define hks.spelled (target?_functionTarget name params)
      (atomic_paren hls.spelled).spelled (hlang.enabled "()=" (by decide))) rfl hshape
    (hlang.spaced (.inl (by decide)) htarget (endsAt_delimiter _ (by decide))
      (htext.enclosed endsName (endsAt_delimiter e (by decide)))) (by decide)

/-! ### All expressions -/

theorem reread_literal (hlang : lang.Writes) {v : Value}
    (h : (∃ x, v = .number x ∧ Number.Unsigned x) ∨ (∃ s, v = .string s) ∨ ∃ b, v = .bool b) :
    (literal v).Reread lang := by
  rcases h with ⟨x, rfl, hx⟩ | ⟨s, rfl⟩ | ⟨b, rfl⟩
  · exact reread_number hx
  · exact reread_string s
  · exact reread_bool hlang b

section

variable {f : Value → Expr}

/-- What an expression needs, besides its parts, to be read from its text with certain expressions
for its literals. -/
def Readable (lang : Language Value) (f : Value → Expr) : Expr → Prop
  | .literal v => (literal v).ReadAs lang (f v)
  | .variable name => IsPlain lang name
  | .unary op e =>
    (lang.unaryOp? op).isSome ∧
      (op ∉ ["-", "+", "!"] → (e.mapLiterals f).isChain = true →
        (e.mapLiterals f).opensParen = false)
  | .binary op _ _ =>
    op ∈ Operation.binaryTable.map Prod.fst ∧ op ∉ Instruction.connectives ∧
      lang.isOperatorEnabled op = true
  | .assign root members _ => IsPlain lang root ∧ ∀ m ∈ members, isIdentifier m = true
  | .define name params _ => IsPlain lang name ∧ ∀ p ∈ params, IsPlain lang p
  | .member e name => isIdentifier name = true ∧ e.isNumber = false
  | .object fields => ∀ f ∈ fields, isPlainKey f.1 = true → isIdentifier f.1 = true
  | .closed _ => False
  | _ => True

theorem readAs_unary (hlang : lang.Writes) {op : String} {e : Expr}
    (h : Readable lang f (.unary op e)) (he : e.ReadAs lang (e.mapLiterals f)) :
    (unary op e).ReadAs lang ((unary op e).mapLiterals f) := by
  obtain ⟨hknown, hbase⟩ := h
  by_cases hop : op ∈ ["-", "+", "!"]
  · simp only [List.mem_cons, List.not_mem_nil, or_false] at hop
    rcases hop with hop | hop | rfl
    · exact readAs_unary_sign hlang (.inl hop) he
    · exact readAs_unary_sign hlang (.inr hop) he
    · exact readAs_unary_mark hlang he
  · exact readAs_unary_named hlang hknown hop he (hbase hop)

theorem readAs_binary (hlang : lang.Writes) {op : String} {l l' r r' : Expr}
    (h : Readable lang f (.binary op l r)) (hl : l.ReadAs lang l') (hr : r.ReadAs lang r') :
    (binary op l r).ReadAs lang (binary op l' r') := by
  obtain ⟨hop, hne, henabled⟩ := h
  rcases tier_of_binary hop hne with rfl | rfl | ⟨t, ht⟩
  · exact readAs_index hlang hl hr
  · exact readAs_power hlang hl hr
  · exact readAs_infix hlang ht henabled hl hr

mutual

/-- The text of an expression is read as that expression, with others for its literals. -/
theorem readAs (hlang : lang.Writes) : (e : Expr) → e.Every (Readable lang f) →
    e.ReadAs lang (e.mapLiterals f)
  | .literal _, h => h
  | .undefined, _ => reread_undefined hlang
  | .variable _, h => reread_variable h
  | .unary _ e, h => readAs_unary hlang h.1 (readAs hlang e h.2)
  | .binary _ l r, h => readAs_binary hlang h.1 (readAs hlang l h.2.1) (readAs hlang r h.2.2)
  | .connective c l r, h =>
    readAs_connective hlang c (readAs hlang l h.2.1) (readAs hlang r h.2.2)
  | .conditional t y n, h =>
    readAs_conditional hlang (readAs hlang t h.2.1) (readAs hlang y h.2.2.1)
      (readAs hlang n h.2.2.2)
  | .assign _ _ e, h => readAs_assign hlang h.1.1 h.1.2 (readAs hlang e h.2)
  | .define _ _ e, h => readAs_define hlang h.1.1 h.1.2 (readAs hlang e h.2)
  | .call g args, h => readAs_call (readAs hlang g h.2.1) (legible_items hlang args h.2.2)
  | .member e _, h => readAs_member hlang h.1.1 (readAs hlang e h.2) h.1.2
  | .array items, h => readAs_array hlang (legible_items hlang items h.2)
  | .object fields, h => readAs_object (legible_fields hlang fields h.1 h.2)
  | .case tested branches other, h =>
    readAs_case hlang (readAs_option hlang tested h.2.1) (readAs_option hlang other h.2.2.2)
      (legible_branches hlang branches h.2.2.1)
  | .sequence a b, h => readAs_sequence (readAs hlang a h.2.1) (readAs hlang b h.2.2)
  | .closed _, h => h.1.elim

theorem legible_items (hlang : lang.Writes) : (es : List Expr) → EveryItem (Readable lang f) es →
    List.Forall₂ (fun t a => Legible lang endsNumber t fun ks => Stated lang ks a)
      ((renderItems .formula es).map String.toList) (mapItemLiterals f es)
  | [], _ => .nil
  | e :: rest, h => .cons (legible_of_readAs (readAs hlang e h.1)) (legible_items hlang rest h.2)

theorem legible_fields (hlang : lang.Writes) : (fields : List (String × Expr)) →
    (∀ f ∈ fields, isPlainKey f.1 = true → isIdentifier f.1 = true) →
    EveryField (Readable lang f) fields →
    List.Forall₂ (fun t a => Legible lang endsNumber t fun ks => SpelledField lang ks a)
      ((renderFields .formula fields).map String.toList) (mapFieldLiterals f fields)
  | [], _, _ => .nil
  | (_, e) :: rest, hkeys, h =>
    .cons (legible_field hlang (List.forall_mem_cons.mp hkeys).1
      (legible_of_readAs (readAs hlang e h.1)))
      (legible_fields hlang rest (List.forall_mem_cons.mp hkeys).2 h.2)

theorem legible_branches (hlang : lang.Writes) : (branches : List (Expr × Expr)) →
    EveryBranch (Readable lang f) branches →
    List.Forall₂ (fun t a => Legible lang endsNumber t fun ks => SpelledBranch lang ks a)
      ((renderBranches .formula branches).map String.toList) (mapBranchLiterals f branches)
  | [], _ => .nil
  | (c, v) :: rest, h =>
    .cons (legible_branch hlang (readAs hlang c h.1) (readAs hlang v h.2.1))
      (legible_branches hlang rest h.2.2)

theorem readAs_option (hlang : lang.Writes) : (other : Option Expr) →
    EveryOption (Readable lang f) other →
    Option.Rel (ReadAs lang) other (mapOptionLiterals f other)
  | none, _ => .none
  | some e, h => .some (readAs hlang e h)

end

end

/-- The text of an expression whose literals are read as they are is read as that expression. -/
theorem reread (hlang : lang.Writes) {e : Expr} (h : e.Every (Readable lang literal)) :
    e.Reread lang := by
  have hread := readAs hlang e h
  rwa [mapLiterals_literal] at hread

/-! ### Whole texts -/

theorem ofLexed_shows {lexed : Lexed} {ks : List TokenKind} (hfault : lexed.fault = none)
    (hkinds : lexed.tokens.map Token.kind = ks) (hne : ks ≠ []) :
    ∃ ts, Tokens.ofLexed lexed = .ok ts ∧ ts.Shows ks := by
  obtain ⟨tokens, fault⟩ := lexed
  cases tokens with
  | nil => exact (hne hkinds.symm).elim
  | cons t tokens => exact ⟨⟨t, tokens, fault⟩, rfl, hfault, hkinds⟩

theorem expect_end {ts : Tokens} (h : ts.Shows [.eof]) : ts.expect isEnd "EOF" = .ok ts := by
  obtain ⟨next, later, fault⟩ := ts
  obtain ⟨hfault, hkinds⟩ := h
  obtain ⟨hnext, hlater⟩ := List.cons.inj hkinds
  obtain rfl : later = [] := List.map_eq_nil_iff.mp hlater
  obtain rfl : fault = none := hfault
  have hend : isEnd next.kind = true := by
    rw [show next.kind = .eof from hnext]
    rfl
  exact if_pos hend

/-- A text that is read as a statement parses to it. -/
theorem parseExpr_of_legible {source : String} {e : Expr}
    (h : Legible lang endsNumber source.toList fun ks => Stated lang ks e) :
    parseExpr lang source = .ok e := by
  obtain ⟨ks, hks, htext⟩ := h
  have hlexes := htext [] [.eof] (fun _ h => by cases h) .nil
  rw [List.append_nil] at hlexes
  obtain ⟨hfault, hkinds⟩ := hlexes source.toList.length (Nat.le_refl _) .first
  obtain ⟨ts, hts, hshows⟩ := ofLexed_shows hfault hkinds (by simp)
  have hlength := congrArg List.length hkinds
  rw [List.length_map, List.length_append, List.length_singleton] at hlength
  obtain ⟨ts₁, h₁, hshows₁⟩ := hks.statements (k := .eof) rfl rfl
    (enough (ks.length + 1)) (by unfold enough; omega) ts hshows
  have hwhole : whole lang (lex lang source) = .ok e := by
    change whole lang (tokensFrom lang source.toList.length .first source.toList) = .ok e
    simp only [whole, hts, hlength, h₁, expect_end hshows₁, ok_bind]
  rw [parseExpr, hwhole]

end Formula.Expr
