import Formula.Proofs.Printed.Stream
import Mathlib.Data.List.Forall2

/-!
# Streams of the same kinds

The rules look at the kinds of the tokens only. On two streams whose tokens are of the same kinds one
by one they build the same expression, or fail alike about tokens that correspond. `RelatedRules`
says so of all rules at one bound, with the fuel that is enough for the tokens that are left, and
holds by induction on the bound. So no rule lacks fuel.
-/

namespace Formula

/-! ### Outcomes -/

/-- Errors of one sort about related tokens. -/
inductive ParseError.Related (R : Token → Token → Prop) : ParseError → ParseError → Prop
  | lexical (e : LexicalError) : Related R (.lexical e) (.lexical e)
  | expected {t u : Token} (what : String) : R t u → Related R (.expected t what) (.expected u what)
  | unexpected {t u : Token} : R t u → Related R (.unexpected t) (.unexpected u)
  | invalidTarget {t u : Token} : R t u → Related R (.invalidTarget t) (.invalidTarget u)
  | definitionNotPermitted {t u : Token} : R t u →
      Related R (.definitionNotPermitted t) (.definitionNotPermitted u)
  | invalidCase {t u : Token} : R t u → Related R (.invalidCase t) (.invalidCase u)
  | caseMissingThen {t u : Token} : R t u → Related R (.caseMissingThen t) (.caseMissingThen u)

/-- What two texts are parsed to: the same expression, or related errors. -/
inductive ParsedAlike (R : Token → Token → Prop) :
    Except ParseError Expr → Except ParseError Expr → Prop
  | ok (e : Expr) : ParsedAlike R (.ok e) (.ok e)
  | error {e e' : ParseError} : e.Related R e' → ParsedAlike R (.error e) (.error e')

namespace Parser

variable {R : Token → Token → Prop} {fault : Option LexicalError}

/-- A list of tokens that ends with the end of the text, or lacks it because of a fault. -/
structure Ends (tokens : List Token) (fault : Option LexicalError) : Prop where
  eof : fault = none → ∀ t ∈ tokens.getLast?, t.kind = .eof
  faulty : fault ≠ none → ∀ t ∈ tokens, t.kind ≠ .eof

theorem Ends.tail {t u : Token} {rest : List Token} {fault : Option LexicalError}
    (h : Ends (t :: u :: rest) fault) : Ends (u :: rest) fault := by
  refine ⟨fun hfault => ?_, fun hfault => (List.forall_mem_cons.mp (h.faulty hfault)).2⟩
  simpa [List.getLast?_cons_cons] using h.eof hfault

/-- Streams up to one fault whose tokens are related one by one, with at most `n` behind the
first. -/
structure Tokens.Related (R : Token → Token → Prop) (fault : Option LexicalError) (n : Nat)
    (ts us : Tokens) : Prop where
  next : R ts.next us.next
  later : List.Forall₂ R ts.later us.later
  faults : ts.fault = fault ∧ us.fault = fault
  ends : Ends (ts.next :: ts.later) fault
  length : ts.later.length ≤ n

/-- Two runs of a rule that give the same result and leave related streams, or fail alike. Neither
lacks fuel. -/
inductive Agree {α : Type} (R : Token → Token → Prop) (fault : Option LexicalError) (n : Nat) :
    Parse (α × Tokens) → Parse (α × Tokens) → Prop
  | ok {a : α} {ts us : Tokens} : ts.Related R fault n us → Agree R fault n (.ok (a, ts)) (.ok (a, us))
  | fails {e e' : ParseError} : e.Related R e' → Agree R fault n (fail e) (fail e')

namespace Agree

variable {α β : Type} {n m : Nat} {x y : Parse (α × Tokens)} {f g : α × Tokens → Parse (β × Tokens)}

theorem bind (h : Agree R fault n x y)
    (hf : ∀ a ts us, ts.Related R fault n us → Agree R fault m (f (a, ts)) (g (a, us))) :
    Agree R fault m (x >>= f) (y >>= g) := by
  cases h with
  | ok h => exact hf _ _ _ h
  | fails h => exact .fails h

theorem outcome (h : Agree R fault n x y) :
    (∃ a ts us, x = .ok (a, ts) ∧ y = .ok (a, us) ∧ ts.Related R fault n us) ∨
      ∃ e e', x = fail e ∧ y = fail e' ∧ e.Related R e' := by
  cases h with
  | ok h => exact .inl ⟨_, _, _, rfl, rfl, h⟩
  | fails h => exact .inr ⟨_, _, rfl, rfl, h⟩

theorem mono (h : Agree R fault n x y) (hle : n ≤ m) : Agree R fault m x y := by
  cases h with
  | ok h => exact .ok { h with length := Nat.le_trans h.length hle }
  | fails h => exact .fails h

end Agree

namespace Tokens.Related

variable {α : Type} {n m : Nat} {ts us : Tokens} {f g : Tokens → Parse (α × Tokens)}
  {x x' y y' : Parse (α × Tokens)}

theorem mono (h : ts.Related R fault n us) (hle : n ≤ m) : ts.Related R fault m us :=
  { h with length := Nat.le_trans h.length hle }

theorem kind (hR : ∀ t u, R t u → t.kind = u.kind) (h : ts.Related R fault n us) : ts.kind = us.kind :=
  hR _ _ h.next

/-- A rule that passes a token which is not the end. -/
theorem bind_advance (h : ts.Related R fault n us) (hne : ts.kind ≠ .eof)
    (hf : ∀ k, n = k + 1 → ∀ ts us, ts.Related R fault k us → Agree R fault m (f ts) (g us)) :
    Agree R fault m (ts.advance >>= f) (us.advance >>= g) := by
  obtain ⟨next, later, given⟩ := ts
  obtain ⟨next', later', given'⟩ := us
  obtain ⟨hnext, hlater, ⟨rfl : given = fault, rfl : given' = given⟩, hends, hlength⟩ := h
  dsimp only at hlater hends hlength
  cases hlater with
  | nil =>
    cases given' with
    | none => exact (hne (hends.eof rfl next rfl)).elim
    | some e => exact .fails (.lexical e)
  | @cons t u later later' ht hlater =>
    obtain ⟨k, rfl⟩ : ∃ k, n = k + 1 := ⟨n - 1, by simp at hlength; omega⟩
    exact hf k rfl _ _ ⟨ht, hlater, ⟨rfl, rfl⟩, hends.tail, by simpa using hlength⟩

/-- A rule that looks at the token at hand, for something that is not the end. -/
theorem ite (hR : ∀ t u, R t u → t.kind = u.kind) (h : ts.Related R fault n us) (p : TokenKind → Bool)
    (hend : p .eof = false) (hyes : p ts.kind = true → ts.kind ≠ .eof → Agree R fault m x y)
    (hno : p ts.kind = false → Agree R fault m x' y') :
    Agree R fault m (if p ts.kind = true then x else x') (if p us.kind = true then y else y') := by
  rw [← h.kind hR]
  cases hts : p ts.kind with
  | true => exact hyes hts fun heof => by simp [heof, hend] at hts
  | false => exact hno hts

theorem bind_expect (hR : ∀ t u, R t u → t.kind = u.kind) (h : ts.Related R fault n us)
    (wanted : TokenKind → Bool) (what : String) (hwanted : wanted .eof = false)
    (hf : ∀ k, n = k + 1 → ∀ ts us, ts.Related R fault k us → Agree R fault m (f ts) (g us)) :
    Agree R fault m (ts.expect wanted what >>= f) (us.expect wanted what >>= g) := by
  unfold Tokens.expect
  rw [← h.kind hR]
  cases hts : wanted ts.kind with
  | true => exact h.bind_advance (fun heof => by simp [heof, hwanted] at hts) hf
  | false => exact .fails (.expected what h.next)

theorem anyOf? (hR : ∀ t u, R t u → t.kind = u.kind) (h : ts.Related R fault n us) (ops : List String) :
    us.anyOf? ops = ts.anyOf? ops := by
  unfold Tokens.anyOf?
  rw [h.kind hR]

theorem memberName (hR : ∀ t u, R t u → t.kind = u.kind) (h : ts.Related R fault n us) :
    Agree R fault n (memberName ts) (memberName us) := by
  unfold Parser.memberName
  rw [← h.kind hR]
  cases hts : memberName? ts.kind with
  | none => exact .fails (.expected _ h.next)
  | some name =>
    refine h.bind_advance (fun hend => ?_) fun k hk ts us h => .ok (h.mono (by omega))
    rw [hend] at hts
    cases hts

theorem key (hR : ∀ t u, R t u → t.kind = u.kind) (h : ts.Related R fault n us) :
    Agree R fault n (key ts) (key us) := by
  unfold Parser.key
  rw [← h.kind hR]
  split
  · next hts =>
    exact h.bind_advance (by simp [hts]) fun k hk ts us h => .ok (h.mono (by omega))
  · exact h.memberName hR

end Tokens.Related

/-! ### Rules -/

theorem Tier.slack_le (t : Tier) : t.slack ≤ 8 := by cases t <;> decide

/-- On related streams each rule agrees with itself, given the fuel for the tokens that are left. A
rule that enters others on the same token needs more than they. -/
structure RelatedRules (lang : Language Value) (R : Token → Token → Prop)
    (fault : Option LexicalError) (fuel : Nat) : Prop where
  statements : ∀ {n : Nat} {ts us : Tokens}, ts.Related R fault n us → 32 * n + 25 ≤ fuel →
    Agree R fault n (statements lang fuel ts) (statements lang fuel us)
  assignment : ∀ {n : Nat} {ts us : Tokens}, ts.Related R fault n us → 32 * n + 24 ≤ fuel →
    Agree R fault n (assignment lang fuel ts) (assignment lang fuel us)
  tier : ∀ (t : Tier) {n : Nat} {ts us : Tokens}, ts.Related R fault n us →
    32 * n + (7 + 2 * t.slack) ≤ fuel → Agree R fault n (tier lang fuel t ts) (tier lang fuel t us)
  operand : ∀ (t : Tier) {n : Nat} {ts us : Tokens}, ts.Related R fault n us →
    32 * n + (6 + 2 * t.slack) ≤ fuel → Agree R fault n (operand lang fuel t ts) (operand lang fuel t us)
  chain : ∀ (t : Tier) (e : Expr) {n : Nat} {ts us : Tokens}, ts.Related R fault n us →
    32 * n + 1 ≤ fuel → Agree R fault n (chain lang fuel t e ts) (chain lang fuel t e us)
  factor : ∀ {n : Nat} {ts us : Tokens}, ts.Related R fault n us → 32 * n + 5 ≤ fuel →
    Agree R fault n (factor lang fuel ts) (factor lang fuel us)
  power : ∀ {n : Nat} {ts us : Tokens}, ts.Related R fault n us → 32 * n + 4 ≤ fuel →
    Agree R fault n (power lang fuel ts) (power lang fuel us)
  powers : ∀ (e : Expr) {n : Nat} {ts us : Tokens}, ts.Related R fault n us → 32 * n + 1 ≤ fuel →
    Agree R fault n (powers lang fuel e ts) (powers lang fuel e us)
  postfixed : ∀ {n : Nat} {ts us : Tokens}, ts.Related R fault n us → 32 * n + 3 ≤ fuel →
    Agree R fault n (postfixed lang fuel ts) (postfixed lang fuel us)
  marks : ∀ (e : Expr) {n : Nat} {ts us : Tokens}, ts.Related R fault n us → 32 * n + 1 ≤ fuel →
    Agree R fault n (marks lang fuel e ts) (marks lang fuel e us)
  call : ∀ {n : Nat} {ts us : Tokens}, ts.Related R fault n us → 32 * n + 2 ≤ fuel →
    Agree R fault n (call lang fuel ts) (call lang fuel us)
  links : ∀ (e : Expr) {n : Nat} {ts us : Tokens}, ts.Related R fault n us → 32 * n + 1 ≤ fuel →
    Agree R fault n (links lang fuel e ts) (links lang fuel e us)
  arguments : ∀ (acc : List Expr) {n : Nat} {ts us : Tokens}, ts.Related R fault n us →
    32 * n + 26 ≤ fuel → Agree R fault n (arguments lang fuel acc ts) (arguments lang fuel acc us)
  items : ∀ (acc : List Expr) {n : Nat} {ts us : Tokens}, ts.Related R fault n us →
    32 * n + 26 ≤ fuel → Agree R fault n (items lang fuel acc ts) (items lang fuel acc us)
  fields : ∀ (acc : List (String × Expr)) {n : Nat} {ts us : Tokens}, ts.Related R fault n us →
    32 * n + 1 ≤ fuel → Agree R fault n (fields lang fuel acc ts) (fields lang fuel acc us)
  caseBlock : ∀ {n : Nat} {ts us : Tokens}, ts.Related R fault n us → 32 * n + 25 ≤ fuel →
    Agree R fault n (caseBlock lang fuel ts) (caseBlock lang fuel us)
  branches : ∀ (tested : Option Expr) (acc : List (Expr × Expr)) {n : Nat} {ts us : Tokens},
    ts.Related R fault n us → 32 * n + 1 ≤ fuel →
      Agree R fault n (branches lang fuel tested acc ts) (branches lang fuel tested acc us)
  atom : ∀ {n : Nat} {ts us : Tokens}, ts.Related R fault n us → 32 * n + 1 ≤ fuel →
    Agree R fault n (atom lang fuel ts) (atom lang fuel us)

namespace RelatedRules

variable {lang : Language Value} {fuel n : Nat} {ts us : Tokens}

theorem zero : RelatedRules lang R fault 0 := by
  constructor <;> intros <;> omega

theorem statements_succ (hR : ∀ t u, R t u → t.kind = u.kind) (h : RelatedRules lang R fault fuel)
    (hts : ts.Related R fault n us) (hfuel : 32 * n + 25 ≤ fuel + 1) :
    Agree R fault n (Parser.statements lang (fuel + 1) ts) (Parser.statements lang (fuel + 1) us) := by
  unfold Parser.statements
  refine (h.assignment hts (by omega)).bind fun e ts us hts => ?_
  refine hts.ite hR isSemicolon rfl (fun _ hne => ?_) fun _ => .ok hts
  refine hts.bind_advance hne fun k hk ts us hts => ?_
  rw [hts.kind hR]
  split
  · exact .ok (hts.mono (by omega))
  · refine (h.statements hts (by omega)).bind fun rest ts us hts => ?_
    exact .ok (hts.mono (by omega))

theorem assignment_succ (hR : ∀ t u, R t u → t.kind = u.kind) (h : RelatedRules lang R fault fuel)
    (hts : ts.Related R fault n us) (hfuel : 32 * n + 24 ≤ fuel + 1) :
    Agree R fault n (Parser.assignment lang (fuel + 1) ts) (Parser.assignment lang (fuel + 1) us) := by
  unfold Parser.assignment
  refine (h.tier .coalescing hts (by simp only [Tier.slack]; omega)).bind fun e ts us hts => ?_
  refine hts.ite hR (·.isOp "=") rfl (fun _ hne => ?_) fun _ => .ok hts
  have hequals := hts.next
  refine hts.bind_advance hne fun k hk ts us hts => ?_
  split
  · exact .fails (.definitionNotPermitted hequals)
  · split
    · exact .fails (.invalidTarget hequals)
    · refine (h.assignment hts (by omega)).bind fun v ts us hts => ?_
      exact .ok (hts.mono (by omega))
    · refine (h.assignment hts (by omega)).bind fun body ts us hts => ?_
      exact .ok (hts.mono (by omega))

theorem tier_succ (h : RelatedRules lang R fault fuel) (t : Tier) (hts : ts.Related R fault n us)
    (hfuel : 32 * n + (7 + 2 * t.slack) ≤ fuel + 1) :
    Agree R fault n (Parser.tier lang (fuel + 1) t ts) (Parser.tier lang (fuel + 1) t us) := by
  unfold Parser.tier
  refine (h.operand t hts (by omega)).bind fun e ts us hts => ?_
  exact h.chain t e hts (by omega)

theorem operand_succ (h : RelatedRules lang R fault fuel) (t : Tier) (hts : ts.Related R fault n us)
    (hfuel : 32 * n + (6 + 2 * t.slack) ≤ fuel + 1) :
    Agree R fault n (Parser.operand lang (fuel + 1) t ts) (Parser.operand lang (fuel + 1) t us) := by
  unfold Parser.operand
  split
  · next t' ht =>
    have hslack := Tier.slack_tighter ht
    exact h.tier _ hts (by omega)
  · exact h.factor hts (by omega)

/-- The operators of a tier that are more than a symbol between two operands. -/
theorem chain_other (hR : ∀ t u, R t u → t.kind = u.kind) (h : RelatedRules lang R fault fuel) (t : Tier)
    (e : Expr) (hts : ts.Related R fault n us) (hfuel : 32 * n + 1 ≤ fuel + 1)
    (hnone : ts.anyOf? t.operators = none) :
    Agree R fault n (Parser.chain lang (fuel + 1) t e ts) (Parser.chain lang (fuel + 1) t e us) := by
  have hnone' : us.anyOf? t.operators = none := (hts.anyOf? hR _).trans hnone
  have hslack := t.slack_le
  simp only [Parser.chain, hnone, hnone']
  split
  · refine hts.ite hR (·.isOp "?") rfl (fun _ hne => ?_) fun _ => .ok hts
    refine hts.bind_advance hne fun k hk ts us hts => ?_
    refine (h.tier .coalescing hts (by simp only [Tier.slack]; omega)).bind fun yes ts us hts => ?_
    refine hts.bind_expect hR _ _ rfl fun l hl ts us hts => ?_
    refine (h.tier .coalescing hts (by simp only [Tier.slack]; omega)).bind fun no ts us hts => ?_
    exact (h.chain _ _ hts (by omega)).mono (by omega)
  · refine hts.ite hR (·.isOp "not") rfl (fun _ hne => ?_) fun _ => .ok hts
    refine hts.bind_advance hne fun k hk after after' hafter => ?_
    refine hafter.ite hR (·.isOp "in") rfl (fun _ hne => ?_) fun _ => .ok hts
    refine hafter.bind_advance hne fun l hl ts us hts => ?_
    refine (h.operand .membership hts (by simp only [Tier.slack]; omega)).bind fun r ts us hts => ?_
    exact (h.chain _ _ hts (by omega)).mono (by omega)
  · split
    · next c _ =>
      refine hts.ite hR (·.isOp c.symbol) rfl (fun _ hne => ?_) fun _ => .ok hts
      refine hts.bind_advance hne fun k hk ts us hts => ?_
      refine (h.operand _ hts (by omega)).bind fun r ts us hts => ?_
      exact (h.chain _ _ hts (by omega)).mono (by omega)
    · exact .ok hts

theorem chain_succ (hR : ∀ t u, R t u → t.kind = u.kind) (h : RelatedRules lang R fault fuel) (t : Tier)
    (e : Expr) (hts : ts.Related R fault n us) (hfuel : 32 * n + 1 ≤ fuel + 1) :
    Agree R fault n (Parser.chain lang (fuel + 1) t e ts) (Parser.chain lang (fuel + 1) t e us) := by
  cases hop : ts.anyOf? t.operators with
  | none => exact h.chain_other hR t e hts hfuel hop
  | some op =>
    have hop' : us.anyOf? t.operators = some op := (hts.anyOf? hR _).trans hop
    have hne : ts.kind ≠ .eof := fun hend => by simp [Tokens.anyOf?, hend] at hop
    have hslack := t.slack_le
    simp only [Parser.chain, hop, hop']
    refine hts.bind_advance hne fun k hk ts us hts => ?_
    refine (h.operand t hts (by omega)).bind fun r ts us hts => ?_
    exact (h.chain t _ hts (by omega)).mono (by omega)

theorem factor_succ (hR : ∀ t u, R t u → t.kind = u.kind) (h : RelatedRules lang R fault fuel)
    (hts : ts.Related R fault n us) (hfuel : 32 * n + 5 ≤ fuel + 1) :
    Agree R fault n (Parser.factor lang (fuel + 1) ts) (Parser.factor lang (fuel + 1) us) := by
  unfold Parser.factor
  refine hts.ite hR (isPrefixOperator lang) rfl (fun _ hne => ?_) fun _ => h.power hts (by omega)
  rw [← hts.kind hR]
  refine hts.bind_advance hne fun k hk after after' hafter => ?_
  rw [← hafter.kind hR]
  dsimp only
  split
  · exact h.power hts (by omega)
  · split
    · exact h.atom hts (by omega)
    · refine (h.factor hafter (by omega)).bind fun e ts us hts => ?_
      exact .ok (hts.mono (by omega))

theorem power_succ (h : RelatedRules lang R fault fuel) (hts : ts.Related R fault n us)
    (hfuel : 32 * n + 4 ≤ fuel + 1) :
    Agree R fault n (Parser.power lang (fuel + 1) ts) (Parser.power lang (fuel + 1) us) := by
  unfold Parser.power
  refine (h.postfixed hts (by omega)).bind fun e ts us hts => ?_
  exact h.powers e hts (by omega)

theorem powers_succ (hR : ∀ t u, R t u → t.kind = u.kind) (h : RelatedRules lang R fault fuel) (e : Expr)
    (hts : ts.Related R fault n us) (hfuel : 32 * n + 1 ≤ fuel + 1) :
    Agree R fault n (Parser.powers lang (fuel + 1) e ts) (Parser.powers lang (fuel + 1) e us) := by
  unfold Parser.powers
  refine hts.ite hR (·.isOp "^") rfl (fun _ hne => ?_) fun _ => .ok hts
  refine hts.bind_advance hne fun k hk ts us hts => ?_
  refine (h.factor hts (by omega)).bind fun r ts us hts => ?_
  exact (h.powers _ hts (by omega)).mono (by omega)

theorem postfixed_succ (h : RelatedRules lang R fault fuel) (hts : ts.Related R fault n us)
    (hfuel : 32 * n + 3 ≤ fuel + 1) :
    Agree R fault n (Parser.postfixed lang (fuel + 1) ts) (Parser.postfixed lang (fuel + 1) us) := by
  unfold Parser.postfixed
  refine (h.call hts (by omega)).bind fun e ts us hts => ?_
  exact h.marks e hts (by omega)

theorem marks_succ (hR : ∀ t u, R t u → t.kind = u.kind) (h : RelatedRules lang R fault fuel) (e : Expr)
    (hts : ts.Related R fault n us) (hfuel : 32 * n + 1 ≤ fuel + 1) :
    Agree R fault n (Parser.marks lang (fuel + 1) e ts) (Parser.marks lang (fuel + 1) e us) := by
  unfold Parser.marks
  refine hts.ite hR (·.isOp "!") rfl (fun _ hne => ?_) fun _ => .ok hts
  refine hts.bind_advance hne fun k hk ts us hts => ?_
  exact (h.marks _ hts (by omega)).mono (by omega)

theorem call_succ (hR : ∀ t u, R t u → t.kind = u.kind) (h : RelatedRules lang R fault fuel)
    (hts : ts.Related R fault n us) (hfuel : 32 * n + 2 ≤ fuel + 1) :
    Agree R fault n (Parser.call lang (fuel + 1) ts) (Parser.call lang (fuel + 1) us) := by
  unfold Parser.call
  refine hts.ite hR (isPrefixOperator lang) rfl (fun _ hne => ?_) fun _ => ?_
  · rw [← hts.kind hR]
    refine hts.bind_advance hne fun k hk ts us hts => ?_
    refine (h.atom hts (by omega)).bind fun e ts us hts => ?_
    exact .ok (hts.mono (by omega))
  · refine (h.atom hts (by omega)).bind fun e ts us hts => ?_
    exact h.links e hts (by omega)

theorem links_succ (hR : ∀ t u, R t u → t.kind = u.kind) (h : RelatedRules lang R fault fuel) (e : Expr)
    (hts : ts.Related R fault n us) (hfuel : 32 * n + 1 ≤ fuel + 1) :
    Agree R fault n (Parser.links lang (fuel + 1) e ts) (Parser.links lang (fuel + 1) e us) := by
  unfold Parser.links
  refine hts.ite hR isLeftParen rfl (fun _ hne => ?_) fun _ => ?_
  · refine hts.bind_advance hne fun k hk ts us hts => ?_
    refine hts.ite hR isRightParen rfl (fun _ hne => ?_) fun _ => ?_
    · refine hts.bind_advance hne fun l hl ts us hts => ?_
      exact (h.links _ hts (by omega)).mono (by omega)
    · refine (h.arguments [] hts (by omega)).bind fun args ts us hts => ?_
      exact (h.links _ hts (by omega)).mono (by omega)
  · refine hts.ite hR (·.isOp ".") rfl (fun _ hne => ?_) fun _ => ?_
    · refine hts.bind_advance hne fun k hk ts us hts => ?_
      refine (hts.memberName hR).bind fun name ts us hts => ?_
      exact (h.links _ hts (by omega)).mono (by omega)
    · refine hts.ite hR isLeftBracket rfl (fun _ hne => ?_) fun _ => .ok hts
      refine hts.bind_advance hne fun k hk ts us hts => ?_
      refine (h.statements hts (by omega)).bind fun i ts us hts => ?_
      refine hts.bind_expect hR _ _ rfl fun l hl ts us hts => ?_
      exact (h.links _ hts (by omega)).mono (by omega)

theorem arguments_succ (hR : ∀ t u, R t u → t.kind = u.kind) (h : RelatedRules lang R fault fuel)
    (acc : List Expr) (hts : ts.Related R fault n us) (hfuel : 32 * n + 26 ≤ fuel + 1) :
    Agree R fault n (Parser.arguments lang (fuel + 1) acc ts)
      (Parser.arguments lang (fuel + 1) acc us) := by
  unfold Parser.arguments
  refine (h.statements hts (by omega)).bind fun e ts us hts => ?_
  refine hts.ite hR isComma rfl (fun _ hne => ?_) fun _ => ?_
  · refine hts.bind_advance hne fun k hk ts us hts => ?_
    exact (h.arguments _ hts (by omega)).mono (by omega)
  · exact hts.bind_expect hR _ _ rfl fun k hk ts us hts => .ok (hts.mono (by omega))

theorem items_succ (hR : ∀ t u, R t u → t.kind = u.kind) (h : RelatedRules lang R fault fuel)
    (acc : List Expr) (hts : ts.Related R fault n us) (hfuel : 32 * n + 26 ≤ fuel + 1) :
    Agree R fault n (Parser.items lang (fuel + 1) acc ts) (Parser.items lang (fuel + 1) acc us) := by
  unfold Parser.items
  refine hts.ite hR isRightBracket rfl (fun _ hne => ?_) fun _ => ?_
  · exact hts.bind_advance hne fun k hk ts us hts => .ok (hts.mono (by omega))
  · refine (h.statements hts (by omega)).bind fun e ts us hts => ?_
    refine hts.ite hR isComma rfl (fun _ hne => ?_) fun _ => ?_
    · refine hts.bind_advance hne fun k hk ts us hts => ?_
      exact (h.items _ hts (by omega)).mono (by omega)
    · exact hts.bind_expect hR _ _ rfl fun k hk ts us hts => .ok (hts.mono (by omega))

theorem fields_succ (hR : ∀ t u, R t u → t.kind = u.kind) (h : RelatedRules lang R fault fuel)
    (acc : List (String × Expr)) (hts : ts.Related R fault n us) (hfuel : 32 * n + 1 ≤ fuel + 1) :
    Agree R fault n (Parser.fields lang (fuel + 1) acc ts) (Parser.fields lang (fuel + 1) acc us) := by
  unfold Parser.fields
  refine hts.ite hR isRightBrace rfl (fun _ hne => ?_) fun _ => ?_
  · exact hts.bind_advance hne fun k hk ts us hts => .ok (hts.mono (by omega))
  · refine (hts.key hR).bind fun name ts us hts => ?_
    refine hts.bind_expect hR _ _ rfl fun k hk ts us hts => ?_
    refine (h.statements hts (by omega)).bind fun e ts us hts => ?_
    refine hts.ite hR isComma rfl (fun _ hne => ?_) fun _ => ?_
    · refine hts.bind_advance hne fun l hl ts us hts => ?_
      exact (h.fields _ hts (by omega)).mono (by omega)
    · exact hts.bind_expect hR _ _ rfl fun l hl ts us hts => .ok (hts.mono (by omega))

theorem caseBlock_succ (hR : ∀ t u, R t u → t.kind = u.kind) (h : RelatedRules lang R fault fuel)
    (hts : ts.Related R fault n us) (hfuel : 32 * n + 25 ≤ fuel + 1) :
    Agree R fault n (Parser.caseBlock lang (fuel + 1) ts) (Parser.caseBlock lang (fuel + 1) us) := by
  unfold Parser.caseBlock
  refine hts.ite hR isBranchWord rfl (fun _ _ => h.branches none [] hts (by omega)) fun _ => ?_
  refine hts.ite hR (·.isKeyword .thenWord) rfl (fun _ _ => .fails (.invalidCase hts.next))
    fun _ => ?_
  refine (h.assignment hts (by omega)).bind fun tested ts us hts => ?_
  exact hts.ite hR isBranchWord rfl (fun _ _ => h.branches (some tested) [] hts (by omega))
    fun _ => .fails (.invalidCase hts.next)

theorem branches_succ (hR : ∀ t u, R t u → t.kind = u.kind) (h : RelatedRules lang R fault fuel)
    (tested : Option Expr) (acc : List (Expr × Expr)) (hts : ts.Related R fault n us)
    (hfuel : 32 * n + 1 ≤ fuel + 1) :
    Agree R fault n (Parser.branches lang (fuel + 1) tested acc ts)
      (Parser.branches lang (fuel + 1) tested acc us) := by
  unfold Parser.branches
  refine hts.ite hR (·.isKeyword .whenWord) rfl (fun _ hne => ?_) fun _ => ?_
  · refine hts.bind_advance hne fun k hk ts us hts => ?_
    refine (h.assignment hts (by omega)).bind fun c ts us hts => ?_
    refine hts.ite hR (·.isKeyword .thenWord) rfl (fun _ hne => ?_)
      fun _ => .fails (.caseMissingThen hts.next)
    refine hts.bind_advance hne fun l hl ts us hts => ?_
    refine (h.assignment hts (by omega)).bind fun v ts us hts => ?_
    exact (h.branches _ _ hts (by omega)).mono (by omega)
  · refine hts.ite hR (·.isKeyword .elseWord) rfl (fun _ hne => ?_) fun _ => ?_
    · refine hts.bind_advance hne fun k hk ts us hts => ?_
      refine (h.assignment hts (by omega)).bind fun v ts us hts => ?_
      refine hts.ite hR (·.isKeyword .endWord) rfl (fun _ hne => ?_)
        fun _ => .fails (.invalidCase hts.next)
      exact hts.bind_advance hne fun l hl ts us hts => .ok (hts.mono (by omega))
    · refine hts.ite hR (·.isKeyword .endWord) rfl (fun _ hne => ?_)
        fun _ => .fails (.invalidCase hts.next)
      exact hts.bind_advance hne fun k hk ts us hts => .ok (hts.mono (by omega))

theorem atom_succ (hR : ∀ t u, R t u → t.kind = u.kind) (h : RelatedRules lang R fault fuel)
    (hts : ts.Related R fault n us) (hfuel : 32 * n + 1 ≤ fuel + 1) :
    Agree R fault n (Parser.atom lang (fuel + 1) ts) (Parser.atom lang (fuel + 1) us) := by
  have hpass : ∀ e : Expr, ts.kind ≠ .eof →
      Agree R fault n (ts.advance >>= fun ts => .ok (e, ts)) (us.advance >>= fun us => .ok (e, us)) :=
    fun e hne => hts.bind_advance hne fun k hk ts us hts => .ok (hts.mono (by omega))
  by_cases hend : ts.kind = .eof
  · simp only [Parser.atom, ← hts.kind hR, hend]
    exact .fails (.unexpected hts.next)
  · unfold Parser.atom
    rw [← hts.kind hR]
    split
    · exact hpass _ hend
    · split
      · exact hpass _ hend
      · exact .fails (.unexpected hts.next)
    · exact hpass _ hend
    · exact hpass _ hend
    · exact hpass _ hend
    · exact hpass _ hend
    · refine hts.bind_advance hend fun k hk ts us hts => ?_
      refine (h.statements hts (by omega)).bind fun e ts us hts => ?_
      exact hts.bind_expect hR _ _ rfl fun l hl ts us hts => .ok (hts.mono (by omega))
    · refine hts.bind_advance hend fun k hk ts us hts => ?_
      refine (h.items [] hts (by omega)).bind fun es ts us hts => ?_
      exact .ok (hts.mono (by omega))
    · refine hts.bind_advance hend fun k hk ts us hts => ?_
      refine (h.fields [] hts (by omega)).bind fun fs ts us hts => ?_
      exact .ok (hts.mono (by omega))
    · refine hts.bind_advance hend fun k hk ts us hts => ?_
      exact (h.caseBlock hts (by omega)).mono (by omega)
    · exact hpass _ hend
    · exact .fails (.unexpected hts.next)

/-- Every rule at every bound. -/
theorem all (hR : ∀ t u, R t u → t.kind = u.kind) (fuel : Nat) : RelatedRules lang R fault fuel := by
  induction fuel with
  | zero => exact zero
  | succ fuel ih =>
    exact {
      statements := ih.statements_succ hR
      assignment := ih.assignment_succ hR
      tier := fun t _ _ _ => ih.tier_succ t
      operand := fun t _ _ _ => ih.operand_succ t
      chain := fun t e _ _ _ => ih.chain_succ hR t e
      factor := ih.factor_succ hR
      power := ih.power_succ
      powers := fun e _ _ _ => ih.powers_succ hR e
      postfixed := ih.postfixed_succ
      marks := fun e _ _ _ => ih.marks_succ hR e
      call := ih.call_succ hR
      links := fun e _ _ _ => ih.links_succ hR e
      arguments := fun acc _ _ _ => ih.arguments_succ hR acc
      items := fun acc _ _ _ => ih.items_succ hR acc
      fields := fun acc _ _ _ => ih.fields_succ hR acc
      caseBlock := ih.caseBlock_succ hR
      branches := fun tested acc _ _ _ => ih.branches_succ hR tested acc
      atom := ih.atom_succ hR }

end RelatedRules

/-! ### Whole texts -/

/-- At the end of a text an expression is complete. -/
theorem expect_end {n : Nat} {ts us : Tokens} (hR : ∀ t u, R t u → t.kind = u.kind)
    (h : ts.Related R fault n us) (e : Expr) :
    ((ts.expect isEnd "EOF" >>= fun _ => .ok e : Parse Expr) = .ok e ∧
        (us.expect isEnd "EOF" >>= fun _ => .ok e : Parse Expr) = .ok e ∧ fault = none) ∨
      ((ts.expect isEnd "EOF" >>= fun _ => .ok e : Parse Expr) = fail (.expected ts.next "EOF") ∧
        (us.expect isEnd "EOF" >>= fun _ => .ok e : Parse Expr) = fail (.expected us.next "EOF")) := by
  have hadvance : ∀ ts : Tokens, ts.fault = none → ∃ ts', ts.advance = .ok ts' := by
    rintro ⟨next, later, fault⟩ rfl
    cases later <;> exact ⟨_, rfl⟩
  unfold Tokens.expect
  rw [← h.kind hR]
  cases hts : isEnd ts.kind with
  | false => exact .inr ⟨rfl, rfl⟩
  | true =>
    have hend : ts.kind = .eof := by
      cases hkind : ts.kind <;> rw [hkind] at hts <;> first | rfl | cases hts
    have hfault : fault = none :=
      Option.eq_none_iff_forall_ne_some.mpr fun e he =>
        h.ends.faulty (by simp [he]) ts.next List.mem_cons_self hend
    obtain ⟨ts', hts'⟩ := hadvance ts (h.faults.1.trans hfault)
    obtain ⟨us', hus'⟩ := hadvance us (h.faults.2.trans hfault)
    exact .inl ⟨by simp only [if_true, hts', ok_bind], by simp only [if_true, hus', ok_bind], hfault⟩

/-- Tokens that are related one by one form the same expression, or fail alike. An expression is
formed of faultless tokens only. -/
theorem whole_related (hR : ∀ t u, R t u → t.kind = u.kind) (lang : Language Value)
    {tokens tokens' : List Token} (hends : Ends tokens fault) (hne : fault = none → tokens ≠ [])
    (htokens : List.Forall₂ R tokens tokens') :
    (∃ e, whole lang ⟨tokens, fault⟩ = .ok e ∧ whole lang ⟨tokens', fault⟩ = .ok e ∧
        fault = none) ∨
      ∃ e e', whole lang ⟨tokens, fault⟩ = fail e ∧ whole lang ⟨tokens', fault⟩ = fail e' ∧
        e.Related R e' := by
  cases htokens with
  | nil =>
    cases fault with
    | none => exact (hne rfl rfl).elim
    | some e => exact .inr ⟨_, _, rfl, rfl, .lexical e⟩
  | @cons t u rest rest' ht hrest =>
    have hlength := hrest.length_eq
    have hts : Tokens.Related R fault rest.length ⟨t, rest, fault⟩ ⟨u, rest', fault⟩ :=
      ⟨ht, hrest, ⟨rfl, rfl⟩, hends, Nat.le_refl _⟩
    have hrules : RelatedRules lang R fault (enough (rest.length + 1)) := .all hR _
    have hagree := hrules.statements hts (by unfold enough; omega)
    simp only [whole, Tokens.ofLexed, List.length_cons, ← hlength, ok_bind]
    obtain ⟨e, ts, us, hread, hread', h⟩ | ⟨e, e', hread, hread', he⟩ := hagree.outcome
    · simp only [hread, hread', ok_bind]
      obtain ⟨hend, hend', hfault⟩ | ⟨hend, hend'⟩ := expect_end hR h e
      · exact .inl ⟨e, hend, hend', hfault⟩
      · exact .inr ⟨_, _, hend, hend', .expected "EOF" h.next⟩
    · rw [hread, hread']
      exact .inr ⟨e, e', rfl, rfl, he⟩

end Parser

end Formula
