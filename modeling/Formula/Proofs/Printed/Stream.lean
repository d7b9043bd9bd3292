import Formula.Expr.Parser

/-!
# Rules on a stream

A rule reads the kinds of token at the front of a faultless stream and leaves the rest. What reads
a call also reads it on every looser level, as long as the token behind it is none that the level
goes on with.
-/

namespace Formula.Parser

theorem ok_bind {α β : Type} (a : α) (f : α → Parse β) :
    ((Except.ok a : Parse α) >>= f) = f a := rfl

/-! ### Streams -/

/-- A stream without a fault whose tokens are of certain kinds. -/
structure Tokens.Shows (ts : Tokens) (ks : List TokenKind) : Prop where
  faultless : ts.fault = none
  kinds : ts.next.kind :: ts.later.map Token.kind = ks

namespace Tokens.Shows

variable {ts : Tokens} {k : TokenKind} {ks : List TokenKind}

theorem kind (h : ts.Shows (k :: ks)) : ts.kind = k := (List.cons.inj h.kinds).1

theorem advance (h : ts.Shows (k :: ks)) (hks : ks ≠ []) :
    ∃ ts', ts.advance = .ok ts' ∧ ts'.Shows ks := by
  obtain ⟨hfault, hkinds⟩ := h
  obtain ⟨next, later, fault⟩ := ts
  obtain ⟨-, hlater⟩ := List.cons.inj hkinds
  cases later with
  | nil => exact (hks hlater.symm).elim
  | cons t later => exact ⟨⟨t, later, fault⟩, rfl, hfault, hlater⟩

theorem expect (wanted : TokenKind → Bool) (what : String) (hk : wanted k = true)
    (h : ts.Shows (k :: ks)) (hks : ks ≠ []) :
    ∃ ts', ts.expect wanted what = .ok ts' ∧ ts'.Shows ks := by
  unfold Tokens.expect
  rw [h.kind, if_pos hk]
  exact h.advance hks

end Tokens.Shows

/-- A rule that, with `n` units of fuel or more, reads tokens of some kinds before the rest. -/
def Reads {α : Type} (rule : Nat → Tokens → Parse (α × Tokens)) (n : Nat) (ks : List TokenKind) (a : α)
    (rest : List TokenKind) : Prop :=
  ∀ fuel, n ≤ fuel → ∀ ts : Tokens, ts.Shows (ks ++ rest) →
    ∃ ts', rule fuel ts = .ok (a, ts') ∧ ts'.Shows rest

section

variable {α : Type} {rule : Nat → Tokens → Parse (α × Tokens)} {n m : Nat} {ks rest : List TokenKind}
  {a : α}

theorem Reads.mono (h : Reads rule n ks a rest) (hle : n ≤ m) : Reads rule m ks a rest :=
  fun fuel hf => h fuel (Nat.le_trans hle hf)

/-- A rule lowers its fuel by one. -/
theorem Reads.of_succ
    (h : ∀ fuel, n ≤ fuel → ∀ ts : Tokens, ts.Shows (ks ++ rest) →
      ∃ ts', rule (fuel + 1) ts = .ok (a, ts') ∧ ts'.Shows rest) :
    Reads rule (n + 1) ks a rest := by
  intro fuel hf ts hts
  obtain ⟨fuel, rfl⟩ : ∃ f, fuel = f + 1 := ⟨fuel - 1, by omega⟩
  exact h fuel (by omega) ts hts

end

/-! ### Levels -/

/-- Whether a tier goes on at a kind of token. -/
def Tier.continues (t : Tier) (k : TokenKind) : Bool :=
  t.operators.any k.isOp || (t == .conditional && k.isOp "?") || (t == .membership && k.isOp "not")
    || t.connective?.any fun c => k.isOp c.symbol

/-- How many tiers are tighter. -/
def Tier.slack : Tier → Nat
  | .coalescing => 8
  | .conditional => 7
  | .disjunction => 6
  | .conjunction => 5
  | .membership => 4
  | .comparison => 3
  | .additive => 2
  | .multiplicative => 1
  | .conversion => 0

theorem Tier.slack_tighter {t t' : Tier} (h : t.tighter? = some t') : t.slack = t'.slack + 1 := by
  cases t <;> cases h <;> rfl

theorem Tier.slack_injective {t t' : Tier} (h : t.slack = t'.slack) : t = t' := by
  cases t <;> cases t' <;> first | rfl | cases h

theorem Tier.exists_tighter {t : Tier} (h : t.slack ≠ 0) : ∃ t', t.tighter? = some t' := by
  cases t <;> first | exact ⟨_, rfl⟩ | exact (h rfl).elim

/-- Whether something can be called, indexed or asked for a member. -/
def links? : TokenKind → Bool
  | .leftParen | .leftBracket => true
  | .op op => op == "."
  | _ => false

section

variable (lang : Language Value) {rest : List TokenKind} {k : TokenKind}

theorem links_stop (hk : links? k = false) (e : Expr) :
    Reads (fun fuel => links lang fuel e) 1 [] e (k :: rest) := by
  refine .of_succ fun fuel _ ts hts => ⟨ts, ?_, hts⟩
  have hkind : ts.kind = k := hts.kind
  cases k <;> simp_all [links, isLeftParen, Tokens.isOp, TokenKind.isOp, isLeftBracket, links?]

theorem marks_stop (hk : k.isOp "!" = false) (e : Expr) :
    Reads (fun fuel => marks lang fuel e) 1 [] e (k :: rest) := by
  refine .of_succ fun fuel _ ts hts => ⟨ts, ?_, hts⟩
  have hkind : ts.kind = k := hts.kind
  simp [marks, Tokens.isOp, hkind, hk]

theorem powers_stop (hk : k.isOp "^" = false) (e : Expr) :
    Reads (fun fuel => powers lang fuel e) 1 [] e (k :: rest) := by
  refine .of_succ fun fuel _ ts hts => ⟨ts, ?_, hts⟩
  have hkind : ts.kind = k := hts.kind
  simp [powers, Tokens.isOp, hkind, hk]

theorem anyOf?_eq_none {ts : Tokens} {ops : List String} (h : ops.any ts.kind.isOp = false) :
    ts.anyOf? ops = none := by
  unfold Tokens.anyOf?
  split
  · next op hop =>
    have hmem : op ∉ ops := fun hmem => by
      have := List.any_eq_false.mp h op hmem
      simp [hop, TokenKind.isOp] at this
    simp [hmem]
  · rfl

theorem chain_stop {t : Tier} (hk : t.continues k = false) (e : Expr) :
    Reads (fun fuel => chain lang fuel t e) 1 [] e (k :: rest) := by
  refine .of_succ fun fuel _ ts hts => ⟨ts, ?_, hts⟩
  have hkind : ts.kind = k := hts.kind
  simp only [Tier.continues, Bool.or_eq_false_iff] at hk
  obtain ⟨⟨⟨hops, hquestion⟩, hnot⟩, hconnective⟩ := hk
  unfold chain
  rw [anyOf?_eq_none (by rw [hkind]; exact hops)]
  simp only [Tokens.isOp, hkind]
  cases t <;> simp_all [Tier.connective?]

end

/-! ### From level to level -/

section

variable {lang : Language Value} {n : Nat} {ks rest : List TokenKind} {k : TokenKind} {e : Expr}

theorem postfixed_of_call (h : Reads (call lang) n ks e (k :: rest)) (hn : 0 < n)
    (hk : k.isOp "!" = false) : Reads (postfixed lang) (n + 1) ks e (k :: rest) := by
  refine .of_succ fun fuel hf ts hts => ?_
  obtain ⟨ts₁, h₁, hts₁⟩ := h fuel hf ts hts
  obtain ⟨ts₂, h₂, hts₂⟩ := marks_stop lang hk e fuel (by omega) ts₁ hts₁
  exact ⟨ts₂, by simp only [postfixed, h₁, ok_bind, h₂], hts₂⟩

theorem power_of_postfixed (h : Reads (postfixed lang) n ks e (k :: rest)) (hn : 0 < n)
    (hk : k.isOp "^" = false) : Reads (power lang) (n + 1) ks e (k :: rest) := by
  refine .of_succ fun fuel hf ts hts => ?_
  obtain ⟨ts₁, h₁, hts₁⟩ := h fuel hf ts hts
  obtain ⟨ts₂, h₂, hts₂⟩ := powers_stop lang hk e fuel (by omega) ts₁ hts₁
  exact ⟨ts₂, by simp only [power, h₁, ok_bind, h₂], hts₂⟩

theorem factor_of_power {first : TokenKind} (h : Reads (power lang) n (first :: ks) e (k :: rest))
    (hfirst : isPrefixOperator lang first = false) :
    Reads (factor lang) (n + 1) (first :: ks) e (k :: rest) := by
  refine .of_succ fun fuel hf ts hts => ?_
  obtain ⟨ts₁, h₁, hts₁⟩ := h fuel hf ts hts
  have hkind : ts.kind = first := hts.kind
  exact ⟨ts₁, by simp only [factor, hkind, hfirst, Bool.false_eq_true, if_false, h₁], hts₁⟩

theorem tier_of_operand {t : Tier} (h : Reads (fun fuel => operand lang fuel t) n ks e (k :: rest))
    (hn : 0 < n) (hk : t.continues k = false) :
    Reads (fun fuel => tier lang fuel t) (n + 1) ks e (k :: rest) := by
  refine .of_succ fun fuel hf ts hts => ?_
  obtain ⟨ts₁, h₁, hts₁⟩ := h fuel hf ts hts
  obtain ⟨ts₂, h₂, hts₂⟩ := chain_stop lang hk e fuel (by omega) ts₁ hts₁
  exact ⟨ts₂, by simp only [tier, h₁, ok_bind, h₂], hts₂⟩

theorem operand_of_tier {t t' : Tier} (ht : t.tighter? = some t')
    (h : Reads (fun fuel => tier lang fuel t') n ks e (k :: rest)) :
    Reads (fun fuel => operand lang fuel t) (n + 1) ks e (k :: rest) := by
  refine .of_succ fun fuel hf ts hts => ?_
  obtain ⟨ts₁, h₁, hts₁⟩ := h fuel hf ts hts
  exact ⟨ts₁, by simp only [operand, ht, h₁], hts₁⟩

/-- What a tier reads is an operand of every looser tier, unless a tier between goes on. -/
theorem operand_climb {t₀ t : Tier} (h : Reads (fun fuel => tier lang fuel t₀) n ks e (k :: rest))
    (hn : 0 < n) (hslack : t₀.slack < t.slack)
    (hk : ∀ t' : Tier, t₀.slack < t'.slack → t'.slack < t.slack → t'.continues k = false) :
    Reads (fun fuel => operand lang fuel t) (n + 2 * (t.slack - t₀.slack) - 1) ks e (k :: rest) := by
  induction hs : t.slack - t₀.slack generalizing t with
  | zero => omega
  | succ d ih =>
    obtain ⟨t', ht'⟩ := Tier.exists_tighter (t := t) (by omega)
    have hst := Tier.slack_tighter ht'
    refine Reads.mono (operand_of_tier ht' (n := n + 2 * d) ?_) (by omega)
    cases Nat.eq_zero_or_pos d with
    | inl hd =>
      obtain rfl : t' = t₀ := Tier.slack_injective (by omega)
      exact h.mono (by omega)
    | inr hd =>
      have := ih (t := t') (by omega) (fun u h₁ h₂ => hk u h₁ (by omega)) (by omega)
      exact (tier_of_operand this (by omega) (hk t' (by omega) (by omega))).mono (by omega)

theorem operand_of_factor (h : Reads (factor lang) n ks e (k :: rest)) (t : Tier)
    (hk : ∀ t' : Tier, t'.slack < t.slack → t'.continues k = false) :
    Reads (fun fuel => operand lang fuel t) (n + 1 + 2 * t.slack) ks e (k :: rest) := by
  have hbase : Reads (fun fuel => operand lang fuel .conversion) (n + 1) ks e (k :: rest) := by
    refine .of_succ fun fuel hf ts hts => ?_
    obtain ⟨ts₁, h₁, hts₁⟩ := h fuel hf ts hts
    exact ⟨ts₁, by simp only [operand, Tier.tighter?, h₁], hts₁⟩
  cases Nat.eq_zero_or_pos t.slack with
  | inl hzero =>
    obtain rfl : t = .conversion := Tier.slack_injective hzero
    exact hbase
  | inr hpos =>
    have htier := tier_of_operand hbase (by omega) (hk .conversion hpos)
    exact (operand_climb htier (by omega) hpos fun t' _ h => hk t' h).mono
      (by simp only [Tier.slack]; omega)

/-! ### The end of an assignment -/

/-- Kinds of token that no operator goes on with. -/
def closes : TokenKind → Bool
  | .rightParen | .rightBracket | .rightBrace | .comma | .semicolon | .eof | .keyword _ => true
  | .op op => op == ":"
  | _ => false

theorem isOp_of_closes (hk : closes k = true) {op : String} (hop : op ≠ ":") :
    k.isOp op = false := by
  cases k with
  | op p =>
    obtain rfl : p = ":" := eq_of_beq hk
    exact beq_eq_false_iff_ne.mpr (Ne.symm hop)
  | _ => rfl

theorem continues_of_closes (hk : closes k = true) (t : Tier) : t.continues k = false := by
  unfold Tier.continues
  cases t <;> simp [Tier.operators, Tier.connective?, Connective.symbol, isOp_of_closes hk]

theorem links?_of_closes (hk : closes k = true) : links? k = false := by
  cases k with
  | op p =>
    obtain rfl : p = ":" := eq_of_beq hk
    rfl
  | leftParen => cases hk
  | leftBracket => cases hk
  | _ => rfl

theorem assignment_of_tier {t : Tier} (h : Reads (fun fuel => tier lang fuel t) n ks e (k :: rest))
    (hn : 0 < n) (hk : closes k = true) : Reads (assignment lang) (n + 17) ks e (k :: rest) := by
  have hloose : Reads (fun fuel => tier lang fuel .coalescing) (n + 16) ks e (k :: rest) := by
    cases Nat.lt_or_ge t.slack (Tier.slack .coalescing) with
    | inl hless =>
      have hoperand := operand_climb h hn hless fun t' _ _ => continues_of_closes hk t'
      have hpos : 0 < n + 2 * (Tier.slack .coalescing - t.slack) - 1 := by omega
      exact (tier_of_operand hoperand hpos (continues_of_closes hk _)).mono
        (by simp only [Tier.slack] at *; omega)
    | inr hge =>
      obtain rfl : t = .coalescing := Tier.slack_injective
        (Nat.le_antisymm (by cases t <;> decide) hge)
      exact h.mono (by omega)
  refine .of_succ fun fuel hf ts hts => ?_
  obtain ⟨ts₁, h₁, hts₁⟩ := hloose fuel hf ts hts
  have hkind : ts₁.kind = k := hts₁.kind
  have hequals : ts₁.isOp "=" = false := by
    rw [Tokens.isOp, hkind]
    exact isOp_of_closes hk (by decide)
  exact ⟨ts₁, by simp only [assignment, h₁, ok_bind, hequals, Bool.false_eq_true, if_false], hts₁⟩

theorem statements_of_assignment (h : Reads (assignment lang) n ks e (k :: rest))
    (hk : isSemicolon k = false) : Reads (statements lang) (n + 1) ks e (k :: rest) := by
  refine .of_succ fun fuel hf ts hts => ?_
  obtain ⟨ts₁, h₁, hts₁⟩ := h fuel hf ts hts
  have hkind : ts₁.kind = k := hts₁.kind
  exact ⟨ts₁, by simp only [statements, h₁, ok_bind, hkind, hk, Bool.false_eq_true, if_false], hts₁⟩

end

end Formula.Parser
