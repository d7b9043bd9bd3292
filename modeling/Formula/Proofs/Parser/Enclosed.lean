import Formula.Proofs.Printed.Reread
import Formula.Proofs.Tokens.Tiles

/-!
# Texts in parentheses

No rule that succeeds tells the end of the text from a parenthesis that closes. So what it reads
before the end it also reads before a parenthesis: `CarriedRules` says so of all rules at two
bounds, and it holds by induction on the lower one. A text that parses to an expression is read as
that expression between parentheses.
-/

namespace Formula.Parser

/-! ### Where a text ends -/

/-- Rules that open an expression fail at the end of a text. -/
structure Barren (lang : Language Value) (ts : Tokens) (fuel : Nat) : Prop where
  statements : Meets (fun _ => False) (fun _ => True) (statements lang fuel ts)
  assignment : Meets (fun _ => False) (fun _ => True) (assignment lang fuel ts)
  tier : ∀ t, Meets (fun _ => False) (fun _ => True) (tier lang fuel t ts)
  operand : ∀ t, Meets (fun _ => False) (fun _ => True) (operand lang fuel t ts)
  factor : Meets (fun _ => False) (fun _ => True) (factor lang fuel ts)
  power : Meets (fun _ => False) (fun _ => True) (power lang fuel ts)
  postfixed : Meets (fun _ => False) (fun _ => True) (postfixed lang fuel ts)
  call : Meets (fun _ => False) (fun _ => True) (call lang fuel ts)
  atom : Meets (fun _ => False) (fun _ => True) (atom lang fuel ts)

theorem barren {lang : Language Value} {ts : Tokens} (hend : ts.kind = .eof) (fuel : Nat) :
    Barren lang ts fuel := by
  induction fuel with
  | zero => constructor <;> intros <;> exact trivial
  | succ fuel ih =>
    have hprefix : isPrefixOperator lang ts.kind = false := by rw [hend]; rfl
    constructor
    case statements => exact ih.assignment.bind fun _ h => h.elim
    case assignment => exact (ih.tier .coalescing).bind fun _ h => h.elim
    case tier => exact fun t => (ih.operand t).bind fun _ h => h.elim
    case operand =>
      intro t
      unfold Parser.operand
      split
      · exact ih.tier _
      · exact ih.factor
    case factor => simpa [Parser.factor, hprefix] using ih.power
    case power => exact ih.postfixed.bind fun _ h => h.elim
    case postfixed => exact ih.call.bind fun _ h => h.elim
    case call =>
      simp only [Parser.call, hprefix, Bool.false_eq_true, if_false]
      exact ih.atom.bind fun _ h => h.elim
    case atom => simp [Parser.atom, hend, Meets, fail]

theorem arguments_barren {lang : Language Value} {ts : Tokens} (hend : ts.kind = .eof) (fuel : Nat)
    (acc : List Expr) : Meets (fun _ => False) (fun _ => True) (arguments lang fuel acc ts) := by
  cases fuel with
  | zero => exact trivial
  | succ fuel => exact (barren hend fuel).statements.bind fun _ h => h.elim

/-! ### Two streams -/

section

variable {back : List TokenKind}

/-- A list of kinds starts with what a text may end at. -/
def Closing : List TokenKind → Prop
  | k :: _ => k = .eof ∨ k = .rightParen
  | [] => False

/-- Faultless streams whose tokens are of the same kinds up to the end of the first one; there the
second one goes on with `back`. -/
def Tokens.Joins (back : List TokenKind) (ts us : Tokens) : Prop :=
  ∃ front : List TokenKind, (∀ k ∈ front, k ≠ .eof) ∧ ts.Shows (front ++ [.eof]) ∧
    us.Shows (front ++ back)

/-- If one rule gives a result, the other gives the same one and leaves the rest of its stream. -/
def Carries {α : Type} (back : List TokenKind) (x y : Parse (α × Tokens)) : Prop :=
  ∀ a ts, x = .ok (a, ts) → ∃ us, y = .ok (a, us) ∧ ts.Joins back us

namespace Carries

variable {α β : Type} {x y : Parse (α × Tokens)} {f g : α × Tokens → Parse (β × Tokens)}

theorem of_fails (h : Meets (fun _ => False) (fun _ => True) x) : Carries back x y :=
  fun _ _ hx => (h.result hx).elim

theorem ok {a : α} {ts us : Tokens} (h : ts.Joins back us) :
    Carries back (.ok (a, ts)) (.ok (a, us)) := by
  rintro a ts ⟨⟩
  exact ⟨us, rfl, h⟩

theorem bind (h : Carries back x y)
    (hf : ∀ a ts us, ts.Joins back us → Carries back (f (a, ts)) (g (a, us))) :
    Carries back (x >>= f) (y >>= g) := by
  cases x with
  | error e => exact fun _ _ hx => by cases hx
  | ok r =>
    obtain ⟨us, rfl, hus⟩ := h r.1 r.2 rfl
    exact hf r.1 r.2 us hus

end Carries

namespace Tokens.Joins

variable {ts us : Tokens}

theorem kind (h : ts.Joins back us) (hback : Closing back) :
    us.kind = ts.kind ∨ ts.kind = .eof ∧ (us.kind = .eof ∨ us.kind = .rightParen) := by
  obtain ⟨front, -, hts, hus⟩ := h
  cases front with
  | nil =>
    cases back with
    | nil => exact hback.elim
    | cons k back => exact .inr ⟨hts.kind, hus.kind ▸ hback⟩
  | cons k front => exact .inl (hus.kind.trans hts.kind.symm)

/-- What does not tell the end of a text from a parenthesis does not tell the streams apart. -/
theorem same {β : Type} (h : ts.Joins back us) (hback : Closing back) (p : TokenKind → β)
    (hp : p .rightParen = p .eof) : p us.kind = p ts.kind := by
  obtain hkind | ⟨hend, hkind | hkind⟩ := h.kind hback
  · rw [hkind]
  · rw [hend, hkind]
  · rw [hend, hkind, hp]

theorem kind_of_ne (h : ts.Joins back us) (hback : Closing back) (hne : ts.kind ≠ .eof) :
    us.kind = ts.kind := by
  obtain hkind | ⟨hend, -⟩ := h.kind hback
  · exact hkind
  · exact (hne hend).elim

theorem anyOf? (h : ts.Joins back us) (hback : Closing back) (ops : List String) :
    us.anyOf? ops = ts.anyOf? ops := by
  unfold Tokens.anyOf?
  obtain hkind | ⟨hend, hkind | hkind⟩ := h.kind hback
  · rw [hkind]
  · rw [hend, hkind]
  · rw [hend, hkind]

theorem advance (h : ts.Joins back us) (hback : Closing back) (hne : ts.kind ≠ .eof) :
    ∃ ts' us', ts.advance = .ok ts' ∧ us.advance = .ok us' ∧ ts'.Joins back us' := by
  obtain ⟨front, hfront, hts, hus⟩ := h
  cases front with
  | nil => exact (hne hts.kind).elim
  | cons k front =>
    have hne' : front ++ back ≠ [] := by
      cases back with
      | nil => exact hback.elim
      | cons k back => simp
    obtain ⟨ts', hts', hshows⟩ := Shows.advance hts (by simp)
    obtain ⟨us', hus', hshows'⟩ := Shows.advance hus hne'
    exact ⟨ts', us', hts', hus', front, (List.forall_mem_cons.mp hfront).2, hshows, hshows'⟩

/-- At the end of the first stream the second one is at what follows. -/
theorem at_end (h : ts.Joins back us) (hend : ts.kind = .eof) :
    ts.Shows [.eof] ∧ us.Shows back := by
  obtain ⟨front, hfront, hts, hus⟩ := h
  cases front with
  | nil => exact ⟨hts, hus⟩
  | cons k front => exact ((List.forall_mem_cons.mp hfront).1 (hts.kind.symm.trans hend)).elim

section

variable {α : Type} {f g : Tokens → Parse (α × Tokens)}

/-- A rule that passes a token which is not the end. -/
theorem bind_advance (h : ts.Joins back us) (hback : Closing back) (hne : ts.kind ≠ .eof)
    (hf : ∀ ts us, ts.Joins back us → Carries back (f ts) (g us)) :
    Carries back (ts.advance >>= f) (us.advance >>= g) := by
  obtain ⟨ts', us', hts, hus, hjoins⟩ := h.advance hback hne
  rw [hts, hus]
  exact hf ts' us' hjoins

theorem bind_expect (h : ts.Joins back us) (hback : Closing back) (wanted : TokenKind → Bool)
    (what : String) (hwanted : wanted .eof = false)
    (hf : ∀ ts us, ts.Joins back us → Carries back (f ts) (g us)) :
    Carries back (ts.expect wanted what >>= f) (us.expect wanted what >>= g) := by
  cases hts : wanted ts.kind with
  | false =>
    have hfails : ts.expect wanted what = fail (.expected ts.next what) := if_neg (by simp [hts])
    rw [hfails]
    exact fun _ _ h => by cases h
  | true =>
    have hne : ts.kind ≠ .eof := fun hend => by simp [hend, hwanted] at hts
    have hus : wanted us.kind = true := by rwa [h.kind_of_ne hback hne]
    have hexpect : ts.expect wanted what = ts.advance := if_pos hts
    have hexpect' : us.expect wanted what = us.advance := if_pos hus
    rw [hexpect, hexpect']
    exact h.bind_advance hback hne hf

variable {x x' y y' : Parse (α × Tokens)}

/-- A rule that looks at the token at hand, for something that is not the end. -/
theorem ite (h : ts.Joins back us) (hback : Closing back) (p : TokenKind → Bool)
    (hp : p .rightParen = false) (hend : p .eof = false)
    (hyes : p ts.kind = true → ts.kind ≠ .eof → Carries back x y)
    (hno : p ts.kind = false → Carries back x' y') :
    Carries back (if p ts.kind = true then x else x') (if p us.kind = true then y else y') := by
  rw [h.same hback p (hp.trans hend.symm)]
  cases hts : p ts.kind with
  | true => exact hyes hts fun heof => by simp [heof, hend] at hts
  | false => exact hno hts

theorem memberName (h : ts.Joins back us) (hback : Closing back) :
    Carries back (memberName ts) (memberName us) := by
  have hname : memberName? us.kind = memberName? ts.kind := h.same hback memberName? rfl
  unfold Parser.memberName
  rw [hname]
  cases hts : memberName? ts.kind with
  | none => exact fun _ _ h => by cases h
  | some name =>
    refine h.bind_advance hback (fun hend => ?_) fun ts us h => .ok h
    rw [hend] at hts
    cases hts

theorem key (h : ts.Joins back us) (hback : Closing back) : Carries back (key ts) (key us) := by
  obtain hkind | ⟨hend, -⟩ := h.kind hback
  · unfold Parser.key
    rw [hkind]
    split
    · next hts => exact h.bind_advance hback (by simp [hts]) fun ts us h => .ok h
    · exact h.memberName hback
  · refine .of_fails ?_
    simp [Parser.key, Parser.memberName, hend, memberName?, Meets, fail]

end

end Tokens.Joins

end

/-! ### Rules -/

/-- What a rule reads of a stream it also reads, with no less fuel, of one that goes on behind its
end. -/
structure CarriedRules (lang : Language Value) (back : List TokenKind) (n m : Nat) : Prop where
  statements : ∀ {ts us : Tokens}, ts.Joins back us →
    Carries back (statements lang n ts) (statements lang m us)
  assignment : ∀ {ts us : Tokens}, ts.Joins back us →
    Carries back (assignment lang n ts) (assignment lang m us)
  tier : ∀ t {ts us : Tokens}, ts.Joins back us → Carries back (tier lang n t ts) (tier lang m t us)
  operand : ∀ t {ts us : Tokens}, ts.Joins back us →
    Carries back (operand lang n t ts) (operand lang m t us)
  chain : ∀ t e {ts us : Tokens}, ts.Joins back us →
    Carries back (chain lang n t e ts) (chain lang m t e us)
  factor : ∀ {ts us : Tokens}, ts.Joins back us → Carries back (factor lang n ts) (factor lang m us)
  power : ∀ {ts us : Tokens}, ts.Joins back us → Carries back (power lang n ts) (power lang m us)
  powers : ∀ e {ts us : Tokens}, ts.Joins back us →
    Carries back (powers lang n e ts) (powers lang m e us)
  postfixed : ∀ {ts us : Tokens}, ts.Joins back us →
    Carries back (postfixed lang n ts) (postfixed lang m us)
  marks : ∀ e {ts us : Tokens}, ts.Joins back us →
    Carries back (marks lang n e ts) (marks lang m e us)
  call : ∀ {ts us : Tokens}, ts.Joins back us → Carries back (call lang n ts) (call lang m us)
  links : ∀ e {ts us : Tokens}, ts.Joins back us →
    Carries back (links lang n e ts) (links lang m e us)
  arguments : ∀ acc {ts us : Tokens}, ts.Joins back us →
    Carries back (arguments lang n acc ts) (arguments lang m acc us)
  items : ∀ acc {ts us : Tokens}, ts.Joins back us →
    Carries back (items lang n acc ts) (items lang m acc us)
  fields : ∀ acc {ts us : Tokens}, ts.Joins back us →
    Carries back (fields lang n acc ts) (fields lang m acc us)
  caseBlock : ∀ {ts us : Tokens}, ts.Joins back us →
    Carries back (caseBlock lang n ts) (caseBlock lang m us)
  branches : ∀ tested acc {ts us : Tokens}, ts.Joins back us →
    Carries back (branches lang n tested acc ts) (branches lang m tested acc us)
  atom : ∀ {ts us : Tokens}, ts.Joins back us → Carries back (atom lang n ts) (atom lang m us)

namespace CarriedRules

variable {lang : Language Value} {back : List TokenKind} {n m : Nat} {ts us : Tokens}

theorem zero : CarriedRules lang back 0 m := by
  constructor <;> intros <;> exact fun _ _ h => by cases h

theorem statements_succ (hback : Closing back) (h : CarriedRules lang back n m)
    (hts : ts.Joins back us) :
    Carries back (Parser.statements lang (n + 1) ts) (Parser.statements lang (m + 1) us) := by
  unfold Parser.statements
  refine (h.assignment hts).bind fun e ts us hts => ?_
  refine hts.ite hback isSemicolon rfl rfl (fun _ hne => ?_) fun _ => .ok hts
  refine hts.bind_advance hback hne fun ts us hts => ?_
  rw [hts.same hback endsStatements rfl]
  split
  · exact .ok hts
  · exact (h.statements hts).bind fun rest ts us hts => .ok hts

theorem assignment_succ (hback : Closing back) (h : CarriedRules lang back n m)
    (hts : ts.Joins back us) :
    Carries back (Parser.assignment lang (n + 1) ts) (Parser.assignment lang (m + 1) us) := by
  unfold Parser.assignment
  refine (h.tier .coalescing hts).bind fun e ts us hts => ?_
  refine hts.ite hback (·.isOp "=") rfl rfl (fun _ hne => ?_) fun _ => .ok hts
  refine hts.bind_advance hback hne fun ts us hts => ?_
  split
  · exact fun _ _ h => by cases h
  · split
    · exact fun _ _ h => by cases h
    · exact (h.assignment hts).bind fun v ts us hts => .ok hts
    · exact (h.assignment hts).bind fun body ts us hts => .ok hts

theorem tier_succ (h : CarriedRules lang back n m) (t : Tier) (hts : ts.Joins back us) :
    Carries back (Parser.tier lang (n + 1) t ts) (Parser.tier lang (m + 1) t us) := by
  unfold Parser.tier
  exact (h.operand t hts).bind fun e ts us hts => h.chain t e hts

theorem operand_succ (h : CarriedRules lang back n m) (t : Tier) (hts : ts.Joins back us) :
    Carries back (Parser.operand lang (n + 1) t ts) (Parser.operand lang (m + 1) t us) := by
  unfold Parser.operand
  split
  · exact h.tier _ hts
  · exact h.factor hts

/-- The operators of a tier that are more than a symbol between two operands. -/
theorem chain_other (hback : Closing back) (h : CarriedRules lang back n m) (t : Tier) (e : Expr)
    (hts : ts.Joins back us) (hnone : ts.anyOf? t.operators = none) :
    Carries back (Parser.chain lang (n + 1) t e ts) (Parser.chain lang (m + 1) t e us) := by
  have hnone' : us.anyOf? t.operators = none := (hts.anyOf? hback _).trans hnone
  simp only [Parser.chain, hnone, hnone']
  split
  · refine hts.ite hback (·.isOp "?") rfl rfl (fun _ hne => ?_) fun _ => .ok hts
    refine hts.bind_advance hback hne fun ts us hts => ?_
    refine (h.tier .coalescing hts).bind fun yes ts us hts => ?_
    refine hts.bind_expect hback _ _ rfl fun ts us hts => ?_
    exact (h.tier .coalescing hts).bind fun no ts us hts => h.chain _ _ hts
  · refine hts.ite hback (·.isOp "not") rfl rfl (fun _ hne => ?_) fun _ => .ok hts
    refine hts.bind_advance hback hne fun after after' hafter => ?_
    refine hafter.ite hback (·.isOp "in") rfl rfl (fun _ hne => ?_) fun _ => .ok hts
    refine hafter.bind_advance hback hne fun ts us hts => ?_
    exact (h.operand _ hts).bind fun r ts us hts => h.chain _ _ hts
  · split
    · next c _ =>
      refine hts.ite hback (·.isOp c.symbol) rfl rfl (fun _ hne => ?_) fun _ => .ok hts
      refine hts.bind_advance hback hne fun ts us hts => ?_
      exact (h.operand _ hts).bind fun r ts us hts => h.chain _ _ hts
    · exact .ok hts

theorem chain_succ (hback : Closing back) (h : CarriedRules lang back n m) (t : Tier) (e : Expr)
    (hts : ts.Joins back us) :
    Carries back (Parser.chain lang (n + 1) t e ts) (Parser.chain lang (m + 1) t e us) := by
  cases hop : ts.anyOf? t.operators with
  | none => exact h.chain_other hback t e hts hop
  | some op =>
    have hop' : us.anyOf? t.operators = some op := (hts.anyOf? hback _).trans hop
    have hne : ts.kind ≠ .eof := fun hend => by simp [Tokens.anyOf?, hend] at hop
    simp only [Parser.chain, hop, hop']
    refine hts.bind_advance hback hne fun ts us hts => ?_
    exact (h.operand t hts).bind fun r ts us hts => h.chain t _ hts

theorem factor_succ (hback : Closing back) (h : CarriedRules lang back n m)
    (hts : ts.Joins back us) :
    Carries back (Parser.factor lang (n + 1) ts) (Parser.factor lang (m + 1) us) := by
  unfold Parser.factor
  refine hts.ite hback (isPrefixOperator lang) rfl rfl (fun _ hne => ?_) fun _ => h.power hts
  rw [hts.kind_of_ne hback hne]
  refine hts.bind_advance hback hne fun after after' hafter => ?_
  rw [hafter.same hback isLeftParen rfl, hafter.same hback endsOperand rfl]
  dsimp only
  split
  · exact h.power hts
  · split
    · exact h.atom hts
    · exact (h.factor hafter).bind fun e ts us hts => .ok hts

theorem power_succ (h : CarriedRules lang back n m) (hts : ts.Joins back us) :
    Carries back (Parser.power lang (n + 1) ts) (Parser.power lang (m + 1) us) := by
  unfold Parser.power
  exact (h.postfixed hts).bind fun e ts us hts => h.powers e hts

theorem powers_succ (hback : Closing back) (h : CarriedRules lang back n m) (e : Expr)
    (hts : ts.Joins back us) :
    Carries back (Parser.powers lang (n + 1) e ts) (Parser.powers lang (m + 1) e us) := by
  unfold Parser.powers
  refine hts.ite hback (·.isOp "^") rfl rfl (fun _ hne => ?_) fun _ => .ok hts
  refine hts.bind_advance hback hne fun ts us hts => ?_
  exact (h.factor hts).bind fun r ts us hts => h.powers _ hts

theorem postfixed_succ (h : CarriedRules lang back n m) (hts : ts.Joins back us) :
    Carries back (Parser.postfixed lang (n + 1) ts) (Parser.postfixed lang (m + 1) us) := by
  unfold Parser.postfixed
  exact (h.call hts).bind fun e ts us hts => h.marks e hts

theorem marks_succ (hback : Closing back) (h : CarriedRules lang back n m) (e : Expr)
    (hts : ts.Joins back us) :
    Carries back (Parser.marks lang (n + 1) e ts) (Parser.marks lang (m + 1) e us) := by
  unfold Parser.marks
  refine hts.ite hback (·.isOp "!") rfl rfl (fun _ hne => ?_) fun _ => .ok hts
  exact hts.bind_advance hback hne fun ts us hts => h.marks _ hts

theorem call_succ (hback : Closing back) (h : CarriedRules lang back n m) (hts : ts.Joins back us) :
    Carries back (Parser.call lang (n + 1) ts) (Parser.call lang (m + 1) us) := by
  unfold Parser.call
  refine hts.ite hback (isPrefixOperator lang) rfl rfl (fun _ hne => ?_) fun _ => ?_
  · rw [hts.kind_of_ne hback hne]
    refine hts.bind_advance hback hne fun ts us hts => ?_
    exact (h.atom hts).bind fun e ts us hts => .ok hts
  · exact (h.atom hts).bind fun e ts us hts => h.links e hts

theorem links_succ (hback : Closing back) (h : CarriedRules lang back n m) (e : Expr)
    (hts : ts.Joins back us) :
    Carries back (Parser.links lang (n + 1) e ts) (Parser.links lang (m + 1) e us) := by
  unfold Parser.links
  refine hts.ite hback isLeftParen rfl rfl (fun _ hne => ?_) fun _ => ?_
  · refine hts.bind_advance hback hne fun ts us hts => ?_
    -- Only here does a rule ask for a parenthesis that closes; at the end of the text it fails.
    by_cases hend : ts.kind = .eof
    · refine .of_fails ?_
      simp only [hend, isRightParen, Bool.false_eq_true, if_false]
      exact (arguments_barren hend n []).bind fun _ h => h.elim
    · rw [hts.kind_of_ne hback hend]
      split
      · exact hts.bind_advance hback hend fun ts us hts => h.links _ hts
      · exact (h.arguments [] hts).bind fun args ts us hts => h.links _ hts
  · refine hts.ite hback (·.isOp ".") rfl rfl (fun _ hne => ?_) fun _ => ?_
    · refine hts.bind_advance hback hne fun ts us hts => ?_
      exact (hts.memberName hback).bind fun name ts us hts => h.links _ hts
    · refine hts.ite hback isLeftBracket rfl rfl (fun _ hne => ?_) fun _ => .ok hts
      refine hts.bind_advance hback hne fun ts us hts => ?_
      refine (h.statements hts).bind fun i ts us hts => ?_
      exact hts.bind_expect hback _ _ rfl fun ts us hts => h.links _ hts

theorem arguments_succ (hback : Closing back) (h : CarriedRules lang back n m) (acc : List Expr)
    (hts : ts.Joins back us) :
    Carries back (Parser.arguments lang (n + 1) acc ts) (Parser.arguments lang (m + 1) acc us) := by
  unfold Parser.arguments
  refine (h.statements hts).bind fun e ts us hts => ?_
  refine hts.ite hback isComma rfl rfl (fun _ hne => ?_) fun _ => ?_
  · exact hts.bind_advance hback hne fun ts us hts => h.arguments _ hts
  · exact hts.bind_expect hback _ _ rfl fun ts us hts => .ok hts

theorem items_succ (hback : Closing back) (h : CarriedRules lang back n m) (acc : List Expr)
    (hts : ts.Joins back us) :
    Carries back (Parser.items lang (n + 1) acc ts) (Parser.items lang (m + 1) acc us) := by
  unfold Parser.items
  refine hts.ite hback isRightBracket rfl rfl (fun _ hne => ?_) fun _ => ?_
  · exact hts.bind_advance hback hne fun ts us hts => .ok hts
  · refine (h.statements hts).bind fun e ts us hts => ?_
    refine hts.ite hback isComma rfl rfl (fun _ hne => ?_) fun _ => ?_
    · exact hts.bind_advance hback hne fun ts us hts => h.items _ hts
    · exact hts.bind_expect hback _ _ rfl fun ts us hts => .ok hts

theorem fields_succ (hback : Closing back) (h : CarriedRules lang back n m)
    (acc : List (String × Expr))
    (hts : ts.Joins back us) :
    Carries back (Parser.fields lang (n + 1) acc ts) (Parser.fields lang (m + 1) acc us) := by
  unfold Parser.fields
  refine hts.ite hback isRightBrace rfl rfl (fun _ hne => ?_) fun _ => ?_
  · exact hts.bind_advance hback hne fun ts us hts => .ok hts
  · refine (hts.key hback).bind fun name ts us hts => ?_
    refine hts.bind_expect hback _ _ rfl fun ts us hts => ?_
    refine (h.statements hts).bind fun e ts us hts => ?_
    refine hts.ite hback isComma rfl rfl (fun _ hne => ?_) fun _ => ?_
    · exact hts.bind_advance hback hne fun ts us hts => h.fields _ hts
    · exact hts.bind_expect hback _ _ rfl fun ts us hts => .ok hts

theorem caseBlock_succ (hback : Closing back) (h : CarriedRules lang back n m)
    (hts : ts.Joins back us) :
    Carries back (Parser.caseBlock lang (n + 1) ts) (Parser.caseBlock lang (m + 1) us) := by
  unfold Parser.caseBlock
  refine hts.ite hback isBranchWord rfl rfl (fun _ _ => h.branches none [] hts) fun _ => ?_
  refine hts.ite hback (·.isKeyword .thenWord) rfl rfl (fun _ _ _ _ h => by cases h) fun _ => ?_
  refine (h.assignment hts).bind fun tested ts us hts => ?_
  exact hts.ite hback isBranchWord rfl rfl (fun _ _ => h.branches (some tested) [] hts)
    fun _ _ _ h => by cases h

theorem branches_succ (hback : Closing back) (h : CarriedRules lang back n m) (tested : Option Expr)
    (acc : List (Expr × Expr)) (hts : ts.Joins back us) :
    Carries back (Parser.branches lang (n + 1) tested acc ts)
      (Parser.branches lang (m + 1) tested acc us) := by
  unfold Parser.branches
  refine hts.ite hback (·.isKeyword .whenWord) rfl rfl (fun _ hne => ?_) fun _ => ?_
  · refine hts.bind_advance hback hne fun ts us hts => ?_
    refine (h.assignment hts).bind fun c ts us hts => ?_
    refine hts.ite hback (·.isKeyword .thenWord) rfl rfl (fun _ hne => ?_)
      fun _ _ _ h => by cases h
    refine hts.bind_advance hback hne fun ts us hts => ?_
    exact (h.assignment hts).bind fun v ts us hts => h.branches _ _ hts
  · refine hts.ite hback (·.isKeyword .elseWord) rfl rfl (fun _ hne => ?_) fun _ => ?_
    · refine hts.bind_advance hback hne fun ts us hts => ?_
      refine (h.assignment hts).bind fun v ts us hts => ?_
      refine hts.ite hback (·.isKeyword .endWord) rfl rfl (fun _ hne => ?_)
        fun _ _ _ h => by cases h
      exact hts.bind_advance hback hne fun ts us hts => .ok hts
    · refine hts.ite hback (·.isKeyword .endWord) rfl rfl (fun _ hne => ?_)
        fun _ _ _ h => by cases h
      exact hts.bind_advance hback hne fun ts us hts => .ok hts

theorem atom_succ (hback : Closing back) (h : CarriedRules lang back n m) (hts : ts.Joins back us) :
    Carries back (Parser.atom lang (n + 1) ts) (Parser.atom lang (m + 1) us) := by
  by_cases hend : ts.kind = .eof
  · exact .of_fails (barren hend _).atom
  · have hkind := hts.kind_of_ne hback hend
    unfold Parser.atom
    rw [hkind]
    split
    · exact hts.bind_advance hback hend fun ts us hts => .ok hts
    · split
      · exact hts.bind_advance hback hend fun ts us hts => .ok hts
      · exact fun _ _ h => by cases h
    · exact hts.bind_advance hback hend fun ts us hts => .ok hts
    · exact hts.bind_advance hback hend fun ts us hts => .ok hts
    · exact hts.bind_advance hback hend fun ts us hts => .ok hts
    · exact hts.bind_advance hback hend fun ts us hts => .ok hts
    · refine hts.bind_advance hback hend fun ts us hts => ?_
      refine (h.statements hts).bind fun e ts us hts => ?_
      exact hts.bind_expect hback _ _ rfl fun ts us hts => .ok hts
    · refine hts.bind_advance hback hend fun ts us hts => ?_
      exact (h.items [] hts).bind fun es ts us hts => .ok hts
    · refine hts.bind_advance hback hend fun ts us hts => ?_
      exact (h.fields [] hts).bind fun fs ts us hts => .ok hts
    · exact hts.bind_advance hback hend fun ts us hts => h.caseBlock hts
    · exact hts.bind_advance hback hend fun ts us hts => .ok hts
    · exact fun _ _ h => by cases h

/-- Every rule at every bound. -/
theorem all (hback : Closing back) (hle : n ≤ m) : CarriedRules lang back n m := by
  induction n generalizing m with
  | zero => exact zero
  | succ n ih =>
    obtain ⟨m, rfl⟩ : ∃ m', m = m' + 1 := ⟨m - 1, by omega⟩
    have ih : CarriedRules lang back n m := ih (by omega)
    exact {
      statements := ih.statements_succ hback
      assignment := ih.assignment_succ hback
      tier := fun t _ _ => ih.tier_succ t
      operand := fun t _ _ => ih.operand_succ t
      chain := fun t e _ _ => ih.chain_succ hback t e
      factor := ih.factor_succ hback
      power := ih.power_succ
      powers := fun e _ _ => ih.powers_succ hback e
      postfixed := ih.postfixed_succ
      marks := fun e _ _ => ih.marks_succ hback e
      call := ih.call_succ hback
      links := fun e _ _ => ih.links_succ hback e
      arguments := fun acc _ _ => ih.arguments_succ hback acc
      items := fun acc _ _ => ih.items_succ hback acc
      fields := fun acc _ _ => ih.fields_succ hback acc
      caseBlock := ih.caseBlock_succ hback
      branches := fun tested acc _ _ => ih.branches_succ hback tested acc
      atom := ih.atom_succ hback }

end CarriedRules

end Parser

/-! ### Whole texts -/

/-- The tokens of a source are of certain kinds, and none of them is a fault. -/
structure Language.Tokenizes (lang : Language Value) (source : String) (ks : List TokenKind) :
    Prop where
  faultless : (lex lang source).fault = none
  kinds : (lex lang source).tokens.map Token.kind = ks ++ [.eof]

namespace Language.Tokenizes

variable {lang : Language Value} {source : String} {ks : List TokenKind}

theorem length (h : lang.Tokenizes source ks) :
    (lex lang source).tokens.length = ks.length + 1 := by
  have hlength := congrArg List.length h.kinds
  rwa [List.length_map, List.length_append, List.length_singleton] at hlength

/-- The end of the text stands behind all other tokens. -/
theorem ne_eof (h : lang.Tokenizes source ks) : ∀ k ∈ ks, k ≠ .eof := by
  have htiles := Lexer.tokensFrom_tiles _ [] source.toList (List.nil_append _).symm h.faultless
  obtain ⟨front, t, htokens, -, -, hfront⟩ := htiles.eof_last
  have hkinds := h.kinds
  rw [show (lex lang source).tokens = front ++ [t] from htokens, List.map_append] at hkinds
  obtain ⟨rfl, -⟩ := List.append_inj' hkinds rfl
  exact List.forall_mem_map.mpr hfront

/-- A source parses to what the rule for statements makes of all its tokens. -/
theorem parses (h : lang.Tokenizes source ks) {e : Expr} {n : Nat}
    (hreads : Parser.Reads (Parser.statements lang) n ks e [.eof])
    (hn : n ≤ 32 * (ks.length + 2)) : parseExpr lang source = .ok e := by
  obtain ⟨ts, hts, hshows⟩ := Expr.ofLexed_shows h.faultless h.kinds (by simp)
  obtain ⟨ts', hstatements, hshows'⟩ := hreads (Parser.enough (ks.length + 1)) hn ts hshows
  have hwhole : Parser.whole lang (lex lang source) = .ok e := by
    simp only [Parser.whole, hts, h.length, hstatements, Expr.expect_end hshows', Parser.ok_bind]
  rw [parseExpr, hwhole]

/-- What a source parses to is read of its tokens between parentheses. -/
theorem enclosed (h : lang.Tokenizes source ks) {e : Expr} (hparse : parseExpr lang source = .ok e)
    (rest : List TokenKind) :
    Parser.Reads (Parser.statements lang) (32 * (ks.length + 2)) ks e (.rightParen :: rest) := by
  intro fuel hfuel us hus
  obtain ⟨ts, hts, hshows⟩ := Expr.ofLexed_shows h.faultless h.kinds (by simp)
  unfold parseExpr Parser.whole at hparse
  simp only [hts, h.length, Parser.ok_bind] at hparse
  cases hread : Parser.statements lang (Parser.enough (ks.length + 1)) ts with
  | error e =>
    rw [hread] at hparse
    cases e <;> cases hparse
  | ok r =>
    obtain ⟨e', ts'⟩ := r
    have hclosing : Parser.Closing (.rightParen :: rest) := .inr rfl
    obtain ⟨us', hreads, hjoins⟩ :=
      (Parser.CarriedRules.all hclosing hfuel).statements ⟨ks, h.ne_eof, hshows, hus⟩ e' ts' hread
    cases hend : Parser.isEnd ts'.kind with
    | false =>
      have hexpect : ts'.expect Parser.isEnd "EOF" = Parser.fail (.expected ts'.next "EOF") :=
        if_neg (by simp [hend])
      rw [hread, Parser.ok_bind, hexpect] at hparse
      cases hparse
    | true =>
      have heof : ts'.kind = .eof := by
        cases hkind : ts'.kind <;> rw [hkind] at hend <;> first | rfl | cases hend
      obtain ⟨hlast, hrest⟩ := hjoins.at_end heof
      rw [hread, Parser.ok_bind, Expr.expect_end hlast] at hparse
      obtain rfl : e' = e := by cases hparse; rfl
      exact ⟨us', hreads, hrest⟩

end Language.Tokenizes

end Formula
