import Formula.Expr.Parser
import Formula.Proofs.Language.Extended

/-!
# What the parser accepts

What the grammar builds of tokens keeps every property that its forms of expression keep. `Rules`
says so of all rules at one bound; it holds at every bound by induction. So every expression that
is parsed is made of constants, plain values and operators that stand in their tables.
-/

namespace Formula

namespace Expr

variable {p : Instruction Value → Prop}

theorem allItems_iff {es : List Expr} : AllItems p es ↔ ∀ e ∈ es, e.All p := by
  induction es with
  | nil => exact ⟨fun _ _ h => (List.not_mem_nil h).elim, fun _ => trivial⟩
  | cons e rest ih => rw [AllItems, ih, List.forall_mem_cons]

theorem allFields_iff {fields : List (String × Expr)} :
    AllFields p fields ↔ ∀ f ∈ fields, f.2.All p := by
  induction fields with
  | nil => exact ⟨fun _ _ h => (List.not_mem_nil h).elim, fun _ => trivial⟩
  | cons f rest ih =>
    obtain ⟨key, e⟩ := f
    rw [AllFields, ih, List.forall_mem_cons]

theorem allBranches_iff {branches : List (Expr × Expr)} :
    AllBranches p branches ↔ ∀ b ∈ branches, b.1.All p ∧ b.2.All p := by
  induction branches with
  | nil => exact ⟨fun _ _ h => (List.not_mem_nil h).elim, fun _ => trivial⟩
  | cons b rest ih =>
    obtain ⟨c, v⟩ := b
    rw [AllBranches, ih, List.forall_mem_cons, and_assoc]

theorem allOption_iff {other : Option Expr} : AllOption p other ↔ ∀ e ∈ other, e.All p := by
  cases other with
  | none => exact ⟨fun _ _ h => (by cases h), fun _ => trivial⟩
  | some e =>
    refine ⟨fun he x hx => ?_, fun h => h e rfl⟩
    cases hx
    exact he

end Expr

/-- What holds of the literals, variables and operators that the grammar puts into expressions. -/
structure Language.Emits (lang : Language Value) (p : Instruction Value → Prop) : Prop where
  unary : ∀ {op}, (lang.unaryOp? op).isSome → p (.unary op)
  binary : ∀ {op}, op ∈ Operation.binaryTable.map Prod.fst → op ∉ Instruction.connectives →
    p (.binary op)
  «variable» : ∀ name, p (.variable name)
  constant : ∀ name, p (.literal ((lang.constant? name).getD .undefined))
  number : ∀ x, p (.literal (.number x))
  string : ∀ s, p (.literal (.string s))

namespace Parser

theorem operators_mem {t : Tier} {op : String} (h : op ∈ t.operators) :
    op ∈ Operation.binaryTable.map Prod.fst ∧ op ∉ Instruction.connectives := by
  revert op
  cases t <;> decide

theorem target?_isCall {e : Expr} {name : String} {params : List String}
    (h : e.target? = some (.function name params)) : e.isCall = true := by
  cases e with
  | call f args => rfl
  | member base name => simp [Expr.target?] at h
  | _ => cases h

theorem prefix_isSome {lang : Language Value} {k : TokenKind} (h : isPrefixOperator lang k = true) :
    (lang.unaryOp? k.text).isSome := by
  unfold isPrefixOperator at h
  split at h
  · exact (Bool.and_eq_true_iff.mp h).2
  · cases h

/-! ### Streams of tokens of which something holds -/

/-- Something holds of the kinds of all tokens of a stream. -/
structure Tokens.Hold (good : TokenKind → Prop) (ts : Tokens) : Prop where
  next : good ts.kind
  later : ∀ t ∈ ts.later, good t.kind

namespace Tokens.Hold

variable {good : TokenKind → Prop} {ts : Tokens}

theorem advance (h : ts.Hold good) : Meets (Tokens.Hold good) (fun _ => True) ts.advance := by
  obtain ⟨next, later, fault⟩ := ts
  cases later with
  | nil =>
    cases fault with
    | none => exact h
    | some e => exact trivial
  | cons t later =>
    obtain ⟨ht, hlater⟩ := List.forall_mem_cons.mp h.later
    exact ⟨ht, hlater⟩

theorem expect (h : ts.Hold good) (wanted : TokenKind → Bool) (what : String) :
    Meets (Tokens.Hold good) (fun _ => True) (ts.expect wanted what) := by
  unfold Tokens.expect
  split
  · exact h.advance
  · exact trivial

theorem anyOf? (h : ts.Hold good) {ops : List String} {op : String} (hop : ts.anyOf? ops = some op) :
    op ∈ ops ∧ good (.op op) := by
  unfold Tokens.anyOf? at hop
  split at hop
  · next hkind =>
    split at hop
    · next hmem =>
      cases hop
      exact ⟨List.contains_iff_mem.mp hmem, hkind ▸ h.next⟩
    · cases hop
  · cases hop

theorem isOp (h : ts.Hold good) {op : String} (hop : ts.isOp op = true) : good (.op op) := by
  have hnext := h.next
  unfold Tokens.isOp TokenKind.isOp at hop
  split at hop
  · next hkind =>
    rw [hkind, eq_of_beq hop] at hnext
    exact hnext
  · cases hop

/-- An operator before its operand. -/
theorem isPrefix (h : ts.Hold good) {lang : Language Value}
    (hop : isPrefixOperator lang ts.kind = true) : good (.op ts.kind.text) := by
  have hnext := h.next
  unfold isPrefixOperator at hop
  split at hop
  · next op hkind =>
    rw [hkind] at hnext ⊢
    exact hnext
  · cases hop

theorem isLeftBracket (h : ts.Hold good) (hbracket : isLeftBracket ts.kind = true) :
    good .leftBracket := by
  have hnext := h.next
  unfold Parser.isLeftBracket at hbracket
  split at hbracket
  · next hkind => exact hkind ▸ hnext
  · cases hbracket

theorem memberName (h : ts.Hold good) :
    Meets (fun r => (∃ k, good k ∧ memberName? k = some r.1) ∧ r.2.Hold good) (fun _ => True)
      (memberName ts) := by
  unfold Parser.memberName
  split
  · next name hname =>
    refine Meets.bind h.advance fun ts hts => ?_
    exact ⟨⟨_, h.next, hname⟩, hts⟩
  · exact trivial

theorem key (h : ts.Hold good) :
    Meets (fun r => r.2.Hold good) (fun _ => True) (key ts) := by
  unfold Parser.key
  split
  · exact Meets.bind h.advance fun ts hts => hts
  · exact h.memberName.mono fun _ hr => hr.2

end Tokens.Hold

/-! ### Rules -/

/-- What is closed under the forms of expression that the grammar builds of good tokens. -/
structure Grammar (lang : Language Value) (good : TokenKind → Prop) (P : Expr → Prop) : Prop where
  name : ∀ {n}, good (.name n) → P (.variable n)
  operator : ∀ {op}, good (.op op) → (lang.unaryOp? op).isSome → P (.variable op)
  word : ∀ k : Keyword, P (.variable k.text)
  constant : ∀ {n}, good (.constant n) → P (.literal ((lang.constant? n).getD .undefined))
  number : ∀ {x}, good (.number x) → P (.literal (.number x))
  string : ∀ s, P (.literal (.string s))
  undefined : P .undefined
  unary : ∀ {op e}, (lang.unaryOp? op).isSome → good (.op op) → P e → P (.unary op e)
  binary : ∀ {op l r}, op ∈ Operation.binaryTable.map Prod.fst → op ∉ Instruction.connectives →
    good (.op op) → P l → P r → P (.binary op l r)
  index : ∀ {l r}, good .leftBracket → P l → P r → P (.binary "[" l r)
  connective : ∀ {c l r}, good (.op c.symbol) → P l → P r → P (.connective c l r)
  conditional : ∀ {t y n}, good (.op "?") → P t → P y → P n → P (.conditional t y n)
  assign : ∀ {e root members v}, good (.op "=") → e.target? = some (.path root members) → P e →
    P v → P (.assign root members v)
  define : ∀ {e name params body}, lang.isOperatorEnabled "()=" = true →
    e.target? = some (.function name params) → P e → P body → P (.define name params body)
  call : ∀ {f args}, P f → (∀ a ∈ args, P a) → P (.call f args)
  member : ∀ {e k name}, good k → memberName? k = some name → P e → P (.member e name)
  array : ∀ {items}, good .leftBracket → (∀ e ∈ items, P e) → P (.array items)
  object : ∀ {fields : List (String × Expr)}, (∀ f ∈ fields, P f.2) → P (.object fields)
  case : ∀ {tested branches other}, (∀ e ∈ tested, P e) → (∀ b ∈ branches, P b.1 ∧ P b.2) →
    (∀ e ∈ other, P e) → P (.case tested branches other)
  sequence : ∀ {a b}, P a → P b → P (.sequence a b)
  closed : ∀ {a}, P a → P (.closed a)

/-- A rule whose result, if it gives one, meets a condition, and which leaves good tokens. -/
abbrev Gives {α : Type} (good : TokenKind → Prop) (result : α → Prop) (x : Parse (α × Tokens)) :
    Prop :=
  Meets (fun r => result r.1 ∧ r.2.Hold good) (fun _ => True) x

/-- Of good tokens every rule makes expressions of which something holds, if it gets such. -/
structure Rules (lang : Language Value) (good : TokenKind → Prop) (P : Expr → Prop) (fuel : Nat) :
    Prop where
  statements : ∀ {ts}, ts.Hold good → Gives good P (statements lang fuel ts)
  assignment : ∀ {ts}, ts.Hold good → Gives good P (assignment lang fuel ts)
  tier : ∀ t {ts}, ts.Hold good → Gives good P (tier lang fuel t ts)
  operand : ∀ t {ts}, ts.Hold good → Gives good P (operand lang fuel t ts)
  chain : ∀ t {e ts}, P e → ts.Hold good → Gives good P (chain lang fuel t e ts)
  factor : ∀ {ts}, ts.Hold good → Gives good P (factor lang fuel ts)
  power : ∀ {ts}, ts.Hold good → Gives good P (power lang fuel ts)
  powers : ∀ {e ts}, P e → ts.Hold good → Gives good P (powers lang fuel e ts)
  postfixed : ∀ {ts}, ts.Hold good → Gives good P (postfixed lang fuel ts)
  marks : ∀ {e ts}, P e → ts.Hold good → Gives good P (marks lang fuel e ts)
  call : ∀ {ts}, ts.Hold good → Gives good P (call lang fuel ts)
  links : ∀ {e ts}, P e → ts.Hold good → Gives good P (links lang fuel e ts)
  arguments : ∀ {acc ts}, (∀ e ∈ acc, P e) → ts.Hold good →
    Gives good (fun es => ∀ e ∈ es, P e) (arguments lang fuel acc ts)
  items : ∀ {acc ts}, (∀ e ∈ acc, P e) → ts.Hold good →
    Gives good (fun es => ∀ e ∈ es, P e) (items lang fuel acc ts)
  fields : ∀ {acc : List (String × Expr)} {ts}, (∀ f ∈ acc, P f.2) → ts.Hold good →
    Gives good (fun fs => ∀ f ∈ fs, P f.2) (fields lang fuel acc ts)
  caseBlock : ∀ {ts}, ts.Hold good → Gives good P (caseBlock lang fuel ts)
  branches : ∀ {tested acc ts}, (∀ e ∈ tested, P e) → (∀ b ∈ acc, P b.1 ∧ P b.2) →
    ts.Hold good → Gives good P (branches lang fuel tested acc ts)
  atom : ∀ {ts}, ts.Hold good → Gives good P (atom lang fuel ts)

namespace Rules

variable {lang : Language Value} {good : TokenKind → Prop} {P : Expr → Prop} {fuel : Nat} {ts : Tokens}

theorem zero : Rules lang good P 0 := by
  constructor <;> intros <;> exact trivial

theorem statements_succ (hg : Grammar lang good P) (h : Rules lang good P fuel)
    (hts : ts.Hold good) : Gives good P (Parser.statements lang (fuel + 1) ts) := by
  unfold Parser.statements
  refine Meets.bind (h.assignment hts) ?_
  rintro ⟨e, ts⟩ ⟨he, hts⟩
  dsimp only
  split
  · refine Meets.bind hts.advance fun ts hts => ?_
    split
    · exact ⟨hg.closed he, hts⟩
    · refine Meets.bind (h.statements hts) ?_
      rintro ⟨rest, ts⟩ ⟨hrest, hts⟩
      exact ⟨hg.sequence he hrest, hts⟩
  · exact ⟨he, hts⟩

theorem assignment_succ (hg : Grammar lang good P) (h : Rules lang good P fuel)
    (hts : ts.Hold good) : Gives good P (Parser.assignment lang (fuel + 1) ts) := by
  unfold Parser.assignment
  refine Meets.bind (h.tier .coalescing hts) ?_
  rintro ⟨e, ts⟩ ⟨he, hts⟩
  dsimp only
  split
  · next hequals =>
    have hgood := hts.isOp hequals
    refine Meets.bind hts.advance fun ts hts => ?_
    split
    · exact trivial
    · next hpermitted =>
      split
      · exact trivial
      · next htarget =>
        refine Meets.bind (h.assignment hts) ?_
        rintro ⟨v, ts⟩ ⟨hv, hts⟩
        exact ⟨hg.assign hgood htarget he hv, hts⟩
      · next htarget =>
        have henabled : lang.isOperatorEnabled "()=" = true := by
          simpa [target?_isCall htarget] using hpermitted
        refine Meets.bind (h.assignment hts) ?_
        rintro ⟨body, ts⟩ ⟨hbody, hts⟩
        exact ⟨hg.define henabled htarget he hbody, hts⟩
  · exact ⟨he, hts⟩

theorem tier_succ (h : Rules lang good P fuel) (t : Tier) (hts : ts.Hold good) :
    Gives good P (Parser.tier lang (fuel + 1) t ts) := by
  unfold Parser.tier
  refine Meets.bind (h.operand t hts) ?_
  rintro ⟨e, ts⟩ ⟨he, hts⟩
  exact h.chain t he hts

theorem operand_succ (h : Rules lang good P fuel) (t : Tier) (hts : ts.Hold good) :
    Gives good P (Parser.operand lang (fuel + 1) t ts) := by
  unfold Parser.operand
  split
  · exact h.tier _ hts
  · exact h.factor hts

theorem chain_succ (hlang : lang.Complete) (hg : Grammar lang good P) (h : Rules lang good P fuel)
    (t : Tier) {e : Expr} (he : P e) (hts : ts.Hold good) :
    Gives good P (Parser.chain lang (fuel + 1) t e ts) := by
  unfold Parser.chain
  split
  · next op hop =>
    obtain ⟨hop, hgood⟩ := hts.anyOf? hop
    obtain ⟨hmem, hne⟩ := operators_mem hop
    refine Meets.bind hts.advance fun ts hts => ?_
    refine Meets.bind (h.operand t hts) ?_
    rintro ⟨r, ts⟩ ⟨hr, hts⟩
    exact h.chain t (hg.binary hmem hne hgood he hr) hts
  · split
    · split
      · next hmark =>
        have hgood := hts.isOp hmark
        refine Meets.bind hts.advance fun ts hts => ?_
        refine Meets.bind (h.tier .coalescing hts) ?_
        rintro ⟨yes, ts⟩ ⟨hyes, hts⟩
        refine Meets.bind (hts.expect _ _) fun ts hts => ?_
        refine Meets.bind (h.tier .coalescing hts) ?_
        rintro ⟨no, ts⟩ ⟨hno, hts⟩
        exact h.chain .conditional (hg.conditional hgood he hyes hno) hts
      · exact ⟨he, hts⟩
    · split
      · next hnegated =>
        have hgood := hts.isOp hnegated
        refine Meets.bind hts.advance fun after hafter => ?_
        split
        · next hin =>
          refine Meets.bind hafter.advance fun ts hts => ?_
          refine Meets.bind (h.operand .membership hts) ?_
          rintro ⟨r, ts⟩ ⟨hr, hts⟩
          have hin' : "in" ∈ Operation.binaryTable.map Prod.fst := by simp [Operation.binaryTable]
          have hmember := hg.binary hin' (by simp [Instruction.connectives]) (hafter.isOp hin) he hr
          have hnot := hlang.unary "not" (by simp [Operation.unaryTable])
          exact h.chain .membership (hg.unary hnot hgood hmember) hts
        · exact ⟨he, hts⟩
      · exact ⟨he, hts⟩
    · split
      · split
        · next hsymbol =>
          have hgood := hts.isOp hsymbol
          refine Meets.bind hts.advance fun ts hts => ?_
          refine Meets.bind (h.operand _ hts) ?_
          rintro ⟨r, ts⟩ ⟨hr, hts⟩
          exact h.chain _ (hg.connective hgood he hr) hts
        · exact ⟨he, hts⟩
      · exact ⟨he, hts⟩

theorem factor_succ (hg : Grammar lang good P) (h : Rules lang good P fuel) (hts : ts.Hold good) :
    Gives good P (Parser.factor lang (fuel + 1) ts) := by
  unfold Parser.factor
  split
  · next hprefix =>
    refine Meets.bind hts.advance fun after hafter => ?_
    dsimp only
    split
    · exact h.power hts
    · split
      · exact h.atom hts
      · refine Meets.bind (h.factor hafter) ?_
        rintro ⟨e, ts'⟩ ⟨he, hts'⟩
        exact ⟨hg.unary (prefix_isSome hprefix) (hts.isPrefix hprefix) he, hts'⟩
  · exact h.power hts

theorem power_succ (h : Rules lang good P fuel) (hts : ts.Hold good) :
    Gives good P (Parser.power lang (fuel + 1) ts) := by
  unfold Parser.power
  refine Meets.bind (h.postfixed hts) ?_
  rintro ⟨e, ts⟩ ⟨he, hts⟩
  exact h.powers he hts

theorem powers_succ (hg : Grammar lang good P) (h : Rules lang good P fuel) {e : Expr} (he : P e)
    (hts : ts.Hold good) : Gives good P (Parser.powers lang (fuel + 1) e ts) := by
  unfold Parser.powers
  split
  · next hop =>
    refine Meets.bind hts.advance fun ts' hts' => ?_
    refine Meets.bind (h.factor hts') ?_
    rintro ⟨r, ts'⟩ ⟨hr, hts'⟩
    have hcaret : "^" ∈ Operation.binaryTable.map Prod.fst := by simp [Operation.binaryTable]
    have hpower := hg.binary hcaret (by simp [Instruction.connectives]) (hts.isOp hop) he hr
    exact h.powers hpower hts'
  · exact ⟨he, hts⟩

theorem postfixed_succ (h : Rules lang good P fuel) (hts : ts.Hold good) :
    Gives good P (Parser.postfixed lang (fuel + 1) ts) := by
  unfold Parser.postfixed
  refine Meets.bind (h.call hts) ?_
  rintro ⟨e, ts⟩ ⟨he, hts⟩
  exact h.marks he hts

theorem marks_succ (hlang : lang.Complete) (hg : Grammar lang good P) (h : Rules lang good P fuel)
    {e : Expr} (he : P e) (hts : ts.Hold good) :
    Gives good P (Parser.marks lang (fuel + 1) e ts) := by
  unfold Parser.marks
  split
  · next hop =>
    have hgood := hts.isOp hop
    refine Meets.bind hts.advance fun ts hts => ?_
    have hmark := hlang.unary "!" (by simp [Operation.unaryTable])
    exact h.marks (hg.unary hmark hgood he) hts
  · exact ⟨he, hts⟩

theorem call_succ (hg : Grammar lang good P) (h : Rules lang good P fuel) (hts : ts.Hold good) :
    Gives good P (Parser.call lang (fuel + 1) ts) := by
  unfold Parser.call
  split
  · next hprefix =>
    refine Meets.bind hts.advance fun after hafter => ?_
    refine Meets.bind (h.atom hafter) ?_
    rintro ⟨e, ts'⟩ ⟨he, hts'⟩
    exact ⟨hg.unary (prefix_isSome hprefix) (hts.isPrefix hprefix) he, hts'⟩
  · refine Meets.bind (h.atom hts) ?_
    rintro ⟨e, ts⟩ ⟨he, hts⟩
    exact h.links he hts

theorem links_succ (hg : Grammar lang good P) (h : Rules lang good P fuel) {e : Expr} (he : P e)
    (hts : ts.Hold good) : Gives good P (Parser.links lang (fuel + 1) e ts) := by
  unfold Parser.links
  split
  · refine Meets.bind hts.advance fun ts hts => ?_
    split
    · refine Meets.bind hts.advance fun ts hts => ?_
      exact h.links (hg.call he fun _ h => (List.not_mem_nil h).elim) hts
    · refine Meets.bind (h.arguments (fun _ h => (List.not_mem_nil h).elim) hts) ?_
      rintro ⟨args, ts⟩ ⟨hargs, hts⟩
      exact h.links (hg.call he hargs) hts
  · split
    · refine Meets.bind hts.advance fun ts hts => ?_
      refine Meets.bind hts.memberName ?_
      rintro ⟨name, ts⟩ ⟨⟨k, hgood, hk⟩, hts⟩
      exact h.links (hg.member hgood hk he) hts
    · split
      · next hbracket =>
        have hgood := hts.isLeftBracket hbracket
        refine Meets.bind hts.advance fun ts hts => ?_
        refine Meets.bind (h.statements hts) ?_
        rintro ⟨i, ts⟩ ⟨hi, hts⟩
        refine Meets.bind (hts.expect _ _) fun ts hts => ?_
        exact h.links (hg.index hgood he hi) hts
      · exact ⟨he, hts⟩

theorem arguments_succ (h : Rules lang good P fuel) {acc : List Expr} (hacc : ∀ e ∈ acc, P e)
    (hts : ts.Hold good) :
    Gives good (fun es => ∀ e ∈ es, P e) (Parser.arguments lang (fuel + 1) acc ts) := by
  unfold Parser.arguments
  refine Meets.bind (h.statements hts) ?_
  rintro ⟨e, ts⟩ ⟨he, hts⟩
  have hcons : ∀ x ∈ e :: acc, P x := List.forall_mem_cons.mpr ⟨he, hacc⟩
  dsimp only
  split
  · exact Meets.bind hts.advance fun ts hts => h.arguments hcons hts
  · refine Meets.bind (hts.expect _ _) fun ts hts => ?_
    exact ⟨fun x hx => hcons x (List.mem_reverse.mp hx), hts⟩

theorem items_succ (h : Rules lang good P fuel) {acc : List Expr} (hacc : ∀ e ∈ acc, P e)
    (hts : ts.Hold good) :
    Gives good (fun es => ∀ e ∈ es, P e) (Parser.items lang (fuel + 1) acc ts) := by
  unfold Parser.items
  split
  · refine Meets.bind hts.advance fun ts hts => ?_
    exact ⟨fun x hx => hacc x (List.mem_reverse.mp hx), hts⟩
  · refine Meets.bind (h.statements hts) ?_
    rintro ⟨e, ts⟩ ⟨he, hts⟩
    have hcons : ∀ x ∈ e :: acc, P x := List.forall_mem_cons.mpr ⟨he, hacc⟩
    dsimp only
    split
    · exact Meets.bind hts.advance fun ts hts => h.items hcons hts
    · refine Meets.bind (hts.expect _ _) fun ts hts => ?_
      exact ⟨fun x hx => hcons x (List.mem_reverse.mp hx), hts⟩

theorem fields_succ (h : Rules lang good P fuel) {acc : List (String × Expr)}
    (hacc : ∀ f ∈ acc, P f.2) (hts : ts.Hold good) :
    Gives good (fun fs => ∀ f ∈ fs, P f.2) (Parser.fields lang (fuel + 1) acc ts) := by
  unfold Parser.fields
  split
  · refine Meets.bind hts.advance fun ts hts => ?_
    exact ⟨fun x hx => hacc x (List.mem_reverse.mp hx), hts⟩
  · refine Meets.bind hts.key ?_
    rintro ⟨name, ts⟩ hts
    refine Meets.bind (Tokens.Hold.expect hts _ _) fun ts hts => ?_
    refine Meets.bind (h.statements hts) ?_
    rintro ⟨e, ts⟩ ⟨he, hts⟩
    have hcons : ∀ f ∈ (name, e) :: acc, P f.2 := List.forall_mem_cons.mpr ⟨he, hacc⟩
    dsimp only
    split
    · exact Meets.bind hts.advance fun ts hts => h.fields hcons hts
    · refine Meets.bind (hts.expect _ _) fun ts hts => ?_
      exact ⟨fun x hx => hcons x (List.mem_reverse.mp hx), hts⟩

theorem caseBlock_succ (h : Rules lang good P fuel) (hts : ts.Hold good) :
    Gives good P (Parser.caseBlock lang (fuel + 1) ts) := by
  unfold Parser.caseBlock
  split
  · exact h.branches (fun _ h => by cases h) (fun _ h => (List.not_mem_nil h).elim) hts
  · split
    · exact trivial
    · refine Meets.bind (h.assignment hts) ?_
      rintro ⟨tested, ts⟩ ⟨ht, hts⟩
      dsimp only
      split
      · refine h.branches (fun e he => ?_) (fun _ h => (List.not_mem_nil h).elim) hts
        cases he
        exact ht
      · exact trivial

theorem branches_succ (hg : Grammar lang good P) (h : Rules lang good P fuel)
    {tested : Option Expr} {acc : List (Expr × Expr)} (ht : ∀ e ∈ tested, P e)
    (hacc : ∀ b ∈ acc, P b.1 ∧ P b.2) (hts : ts.Hold good) :
    Gives good P (Parser.branches lang (fuel + 1) tested acc ts) := by
  have hreverse : ∀ b ∈ acc.reverse, P b.1 ∧ P b.2 := fun b hb => hacc b (List.mem_reverse.mp hb)
  unfold Parser.branches
  split
  · refine Meets.bind hts.advance fun ts hts => ?_
    refine Meets.bind (h.assignment hts) ?_
    rintro ⟨c, ts⟩ ⟨hc, hts⟩
    dsimp only
    split
    · refine Meets.bind hts.advance fun ts hts => ?_
      refine Meets.bind (h.assignment hts) ?_
      rintro ⟨v, ts⟩ ⟨hv, hts⟩
      exact h.branches ht (List.forall_mem_cons.mpr ⟨⟨hc, hv⟩, hacc⟩) hts
    · exact trivial
  · split
    · refine Meets.bind hts.advance fun ts hts => ?_
      refine Meets.bind (h.assignment hts) ?_
      rintro ⟨v, ts⟩ ⟨hv, hts⟩
      dsimp only
      split
      · refine Meets.bind hts.advance fun ts hts => ?_
        refine ⟨hg.case ht hreverse fun e he => ?_, hts⟩
        cases he
        exact hv
      · exact trivial
    · split
      · refine Meets.bind hts.advance fun ts hts => ?_
        exact ⟨hg.case ht hreverse fun _ h => (by cases h), hts⟩
      · exact trivial

theorem atom_succ (hg : Grammar lang good P) (h : Rules lang good P fuel) (hts : ts.Hold good) :
    Gives good P (Parser.atom lang (fuel + 1) ts) := by
  have hnext := hts.next
  unfold Parser.atom
  split
  · next n hkind =>
    exact Meets.bind hts.advance fun ts hts => ⟨hg.name (hkind ▸ hnext), hts⟩
  · next op hkind =>
    split
    · next hop =>
      exact Meets.bind hts.advance fun ts hts => ⟨hg.operator (hkind ▸ hnext) hop, hts⟩
    · exact trivial
  · next n hkind =>
    exact Meets.bind hts.advance fun ts hts => ⟨hg.constant (hkind ▸ hnext), hts⟩
  · next x hkind =>
    exact Meets.bind hts.advance fun ts hts => ⟨hg.number (hkind ▸ hnext), hts⟩
  · exact Meets.bind hts.advance fun ts hts => ⟨hg.string _, hts⟩
  · exact Meets.bind hts.advance fun ts hts => ⟨hg.undefined, hts⟩
  · refine Meets.bind hts.advance fun ts hts => ?_
    refine Meets.bind (h.statements hts) ?_
    rintro ⟨e, ts⟩ ⟨he, hts⟩
    exact Meets.bind (hts.expect _ _) fun ts hts => ⟨he, hts⟩
  · next hkind =>
    refine Meets.bind hts.advance fun ts hts => ?_
    refine Meets.bind (h.items (fun _ h => (List.not_mem_nil h).elim) hts) ?_
    rintro ⟨es, ts⟩ ⟨hes, hts⟩
    exact ⟨hg.array (hkind ▸ hnext) hes, hts⟩
  · refine Meets.bind hts.advance fun ts hts => ?_
    refine Meets.bind (h.fields (fun _ h => (List.not_mem_nil h).elim) hts) ?_
    rintro ⟨fs, ts⟩ ⟨hfs, hts⟩
    exact ⟨hg.object hfs, hts⟩
  · exact Meets.bind hts.advance fun ts hts => h.caseBlock hts
  · exact Meets.bind hts.advance fun ts hts => ⟨hg.word _, hts⟩
  · exact trivial

/-- Every rule at every bound. -/
theorem all (hlang : lang.Complete) (hg : Grammar lang good P) (fuel : Nat) :
    Rules lang good P fuel := by
  induction fuel with
  | zero => exact zero
  | succ fuel ih =>
    exact {
      statements := ih.statements_succ hg
      assignment := ih.assignment_succ hg
      tier := fun t _ hts => ih.tier_succ t hts
      operand := fun t _ hts => ih.operand_succ t hts
      chain := fun t _ _ he hts => ih.chain_succ hlang hg t he hts
      factor := ih.factor_succ hg
      power := ih.power_succ
      powers := ih.powers_succ hg
      postfixed := ih.postfixed_succ
      marks := ih.marks_succ hlang hg
      call := ih.call_succ hg
      links := ih.links_succ hg
      arguments := ih.arguments_succ
      items := ih.items_succ
      fields := ih.fields_succ
      caseBlock := ih.caseBlock_succ
      branches := ih.branches_succ hg
      atom := ih.atom_succ hg }

end Rules

end Parser

/-- What the grammar keeps holds of every expression that is parsed from good tokens. -/
theorem parseExpr_keeps {good : TokenKind → Prop} {P : Expr → Prop} {lang : Language Value}
    (hlang : lang.Complete) (hg : Parser.Grammar lang good P) {source : String}
    (hgood : ∀ t ∈ (lex lang source).tokens, good t.kind) {e : Expr}
    (h : parseExpr lang source = .ok e) : P e := by
  have hstream : Meets (Parser.Tokens.Hold good) (fun _ => True)
      (Parser.Tokens.ofLexed (lex lang source)) := by
    unfold Parser.Tokens.ofLexed
    split
    · next t rest htokens =>
      rw [htokens] at hgood
      obtain ⟨ht, hrest⟩ := List.forall_mem_cons.mp hgood
      exact ⟨ht, hrest⟩
    · split <;> exact trivial
  have hwhole : Meets P (fun _ => True) (Parser.whole lang (lex lang source)) := by
    unfold Parser.whole
    refine Meets.bind hstream fun ts hts => ?_
    refine Meets.bind ((Parser.Rules.all hlang hg _).statements hts) ?_
    rintro ⟨e, ts⟩ ⟨he, hts⟩
    exact Meets.bind (hts.expect _ _) fun _ _ => he
  unfold parseExpr at h
  split at h
  · next e' he' =>
    cases h
    exact hwhole.result he'
  · cases h
  · cases h

/-- What holds of the instructions that are emitted is kept by the grammar. -/
theorem Language.Emits.grammar {p : Instruction Value → Prop} {lang : Language Value}
    (hp : lang.Emits p) : Parser.Grammar lang (fun _ => True) (Expr.All p) where
  name _ := hp.variable _
  operator _ _ := hp.variable _
  word k := hp.variable _
  constant _ := hp.constant _
  number _ := hp.number _
  string s := hp.string s
  undefined := trivial
  unary hop _ he := ⟨hp.unary hop, he⟩
  binary hop hne _ hl hr := ⟨hp.binary hop hne, hl, hr⟩
  index _ hl hr :=
    ⟨hp.binary (by simp [Operation.binaryTable]) (by simp [Instruction.connectives]), hl, hr⟩
  connective _ hl hr := ⟨hl, hr⟩
  conditional _ ht hy hn := ⟨ht, hy, hn⟩
  assign _ _ _ hv := hv
  define _ _ _ hbody := hbody
  call hf hargs := ⟨hf, Expr.allItems_iff.mpr hargs⟩
  member _ _ he := he
  array _ hitems := Expr.allItems_iff.mpr hitems
  object hfields := Expr.allFields_iff.mpr hfields
  case ht hb ho :=
    ⟨Expr.allOption_iff.mpr ht, Expr.allBranches_iff.mpr hb, Expr.allOption_iff.mpr ho⟩
  sequence ha hb := ⟨ha, hb⟩
  closed ha := ha

/-- What holds of all that the grammar emits holds of all parts of an expression that is parsed. -/
theorem parseExpr_all {p : Instruction Value → Prop} {lang : Language Value} (hlang : lang.Complete)
    (hp : lang.Emits p) {source : String} {e : Expr} (h : parseExpr lang source = .ok e) :
    e.All p :=
  parseExpr_keeps hlang hp.grammar (fun _ _ => trivial) h

/-! ### Sound expressions -/

section

variable {c : Prop} {lang : Language Value}

/-- Operators that the grammar emits stand in their tables. -/
theorem Language.Complete.called (h : lang.Complete) {op : String}
    (hop : op ∈ Operation.binaryTable.map Prod.fst) (hne : op ∉ Instruction.connectives) :
    (Instruction.binary op).called? lang ≠ some none := by
  have hsome := h.binary op hop
  cases h' : lang.binaryOp? op with
  | none =>
    rw [h'] at hsome
    cases hsome
  | some f => simp [Instruction.called?, hne, h']

theorem Language.constant_obeys {g : Guard} (hconst : Bindings.Obeys g lang.constants)
    (name : String) : ((lang.constant? name).getD .undefined).Obeys g := by
  cases hn : lang.constant? name with
  | none => exact .undefined
  | some v => exact hconst.get? hn

/-- All that the grammar emits has a property that literals have when their values do, and that
every instruction has that holds neither a value nor a program. -/
theorem Language.emits_made {V : Value → Prop} {p : Instruction Value → Prop}
    (hV : Value.Hereditary V) (hconstants : ∀ c ∈ lang.constants, V c.2)
    (hliteral : ∀ {v}, V v → p (.literal v))
    (hplain : ∀ {i}, (∀ v, i ≠ .literal v) → (∀ body, i ≠ .group body) → p i) :
    lang.Emits fun i => i.isStructural = false ∧ p i where
  unary _ := ⟨rfl, hplain (fun _ h => by cases h) (fun _ h => by cases h)⟩
  binary _ hne := by
    refine ⟨?_, hplain (fun _ h => by cases h) (fun _ h => by cases h)⟩
    simpa [Instruction.isStructural] using hne
  «variable» _ := ⟨rfl, hplain (fun _ h => by cases h) (fun _ h => by cases h)⟩
  constant name := by
    refine ⟨rfl, hliteral ?_⟩
    cases hn : lang.constant? name with
    | none => exact hV.undefined
    | some v => exact hconstants _ (Record.mem_of_get? hn)
  number x := ⟨rfl, hliteral (hV.number x)⟩
  string s := ⟨rfl, hliteral (hV.string s)⟩

/-- All that the grammar emits in an extended language obeys the guard, where the native functions
that are reached by a name do. -/
theorem Language.Extended.emits_obeys {g : Guard} (h : lang.Extended g)
    (hnative : ∀ i : Instruction Value, ∀ f ∈ i.natives lang, g.native f) :
    lang.Emits fun i => i.isStructural = false ∧ i.Obeys g lang where
  unary {op} hop := by
    refine ⟨rfl, .plain (fun _ h => by cases h) (fun _ h => by cases h) (fun _ h => ?_)
      (hnative _)⟩
    cases h' : lang.unaryOp? op with
    | none =>
      rw [h'] at hop
      cases hop
    | some f => simp [Instruction.called?, h'] at h
  binary {op} hop hne := by
    refine ⟨?_, .plain (fun _ h => by cases h) (fun _ h => by cases h)
      (fun _ => h.complete.called hop hne) (hnative _)⟩
    simpa [Instruction.isStructural] using hne
  «variable» name := ⟨rfl, .plain (fun _ h => by cases h) (fun _ h => by cases h)
    (fun _ h => by cases h) (hnative _)⟩
  constant name := ⟨rfl, .literal (Language.constant_obeys h.constants name)⟩
  number x := ⟨rfl, .literal (.number x)⟩
  string s := ⟨rfl, .literal (.string s)⟩

/-- All that the grammar emits in an extended language is sound. -/
theorem Language.Extended.emits (h : lang.Extended (.code c)) :
    lang.Emits fun i => i.isStructural = false ∧ i.Obeys (.code c) lang :=
  h.emits_obeys fun _ _ _ => trivial

end

/-- A source text that parses gives a sound expression. -/
theorem parseExpr_obeys {c : Prop} {lang : Language Value} (hlang : lang.Extended (.code c))
    {source : String} {e : Expr} (h : parseExpr lang source = .ok e) : e.Obeys (.code c) lang :=
  parseExpr_all hlang.complete hlang.emits h

end Formula
