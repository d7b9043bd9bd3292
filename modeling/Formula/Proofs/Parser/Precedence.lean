import Formula.Proofs.Parser.Enclosed
import Formula.Standard

/-!
# Operator precedence

Operands with operators between them are put into postfix order by a shunting yard: an operator is
held back until one comes that binds no tighter. The rules of the parser, one tier inside another,
emit the same program. `Groups` says of a rule that it reads all the operators which bind at least as
tightly as its level, and what it reads is what the yard outputs until a looser operator comes. It
holds of a factor, and on each tier because it holds on the next tighter one.
-/

namespace Formula

/-! ### The shunting yard -/

namespace Precedence

/-- The operators between two operands and how tightly they bind. -/
def levels : List (String × Nat) :=
  [("??", 0), ("in", 1), ("==", 2), ("!=", 2), ("<", 2), ("<=", 2), (">", 2), (">=", 2), ("+", 3),
    ("-", 3), ("||", 3), ("*", 4), ("/", 4), ("%", 4), ("^", 5)]

def level (op : String) : Nat := (levels.lookup op).getD 0

/-- Whether an operator that is held back is output before the next one is held: it binds tighter,
or as tightly on a level that associates to the left. -/
def yields (next held : String) : Bool :=
  level next < level held || (level next == level held && next != "^")

/-- The output for operators, each with the program of its right operand, while others are held
back, the last one first. -/
def shunt {α : Type} : (held : List String) → List (String × Program α) → Program α
  | held, [] => held.map .binary
  | held, (op, code) :: rest =>
    (held.takeWhile (yields op)).map .binary ++
      (code ++ shunt (op :: held.dropWhile (yields op)) rest)

section

variable {α : Type} {op : String} {held : List String} {code : Program α}
  {rest : List (String × Program α)}

/-- An operator is held back above those that bind less tightly. -/
theorem shunt_hold (h : ∀ o ∈ held, yields op o = false) :
    shunt held ((op, code) :: rest) = code ++ shunt (op :: held) rest := by
  cases held with
  | nil => simp [shunt]
  | cons o held => simp [shunt, h o (List.mem_cons_self ..)]

/-- An operator is output before the end and before one that it yields to. -/
theorem shunt_output (h : ∀ next ∈ rest.head?, yields next.1 op = true) :
    shunt (op :: held) rest = .binary op :: shunt held rest := by
  cases rest with
  | nil => simp [shunt]
  | cons next rest => simp [shunt, h next rfl]

end

theorem level_le (op : String) : level op ≤ level "^" := by
  have hall : ∀ l ∈ levels, l.2 ≤ level "^" := by decide
  unfold level
  cases hop : levels.lookup op with
  | none => exact Nat.zero_le _
  | some n =>
    obtain ⟨l, l', hlevels, -⟩ := List.lookup_eq_some_iff.mp hop
    exact hall (op, n) (hlevels ▸ List.mem_append_right l (List.mem_cons_self ..))

theorem level_power : level "^" = 5 := by decide

/-- Powers associate to the right: nothing is output before one is held. -/
theorem not_yields_power (held : String) : yields "^" held = false := by
  simp [yields, level_le held]

theorem not_yields_of_lt {op held : String} (h : level held < level op) :
    yields op held = false := by
  simp only [yields, Bool.or_eq_false_iff, decide_eq_false_iff_not, Bool.and_eq_false_iff,
    beq_eq_false_iff_ne]
  omega

end Precedence

open Precedence

/-! ### Chains -/

/-- Tokens that are an operand of a chain: a name, an unsigned number, or a source in parentheses. -/
inductive IsTerm (lang : Language Value) : List TokenKind → Expr → Prop
  | name (n : String) : IsTerm lang [.name n] (.variable n)
  | number (x : Float) : IsTerm lang [.number x] (.literal (.number x))
  | enclosed {source : String} {ks : List TokenKind} {e : Expr} :
    lang.Tokenizes source ks → parseExpr lang source = .ok e →
      IsTerm lang (Parser.inParens ks) e

/-- An operand with its tokens and the expression they stand for. -/
structure Term (lang : Language Value) where
  kinds : List TokenKind
  expr : Expr
  isTerm : IsTerm lang kinds expr

def Term.code {lang : Language Value} (a : Term lang) : Program Value := a.expr.compile

/-- An operator with the operand to its right. -/
structure Link (lang : Language Value) where
  op : String
  known : op ∈ levels.map Prod.fst
  right : Term lang

namespace Link

variable {lang : Language Value}

def kinds (l : Link lang) : List TokenKind := .op l.op :: l.right.kinds

def piece (l : Link lang) : String × Program Value := (l.op, l.right.code)

end Link

/-- The tokens of the operators of a chain and their right operands. -/
def linkKinds {lang : Language Value} (links : List (Link lang)) : List TokenKind :=
  links.flatMap Link.kinds

/-- The output of the shunting yard for a chain. -/
def Term.shunted {lang : Language Value} (a : Term lang) (links : List (Link lang)) :
    Program Value :=
  a.code ++ shunt [] (links.map Link.piece)

namespace Parser

variable {lang : Language Value}

@[simp] theorem linkKinds_nil : linkKinds ([] : List (Link lang)) = [] := rfl

@[simp] theorem linkKinds_cons (l : Link lang) (links : List (Link lang)) :
    linkKinds (l :: links) = .op l.op :: (l.right.kinds ++ linkKinds links) := rfl

@[simp] theorem linkKinds_append (links links' : List (Link lang)) :
    linkKinds (links ++ links') = linkKinds links ++ linkKinds links' := List.flatMap_append ..

/-! ### Operands -/

theorem opens_term (a : Term lang) :
    ∃ k tail, a.kinds = k :: tail ∧ opensOperand k = true := by
  obtain ⟨ks, e, h⟩ := a
  cases h <;> exact ⟨_, _, rfl, rfl⟩

/-- Tokens in parentheses that are read before the closing one. -/
theorem atom_enclosed {n : Nat} {ks : List TokenKind} {e : Expr}
    (h : ∀ rest, Reads (statements lang) n ks e (.rightParen :: rest)) (k : TokenKind)
    (rest : List TokenKind) : Reads (atom lang) (n + 1) (inParens ks) e (k :: rest) := by
  refine .of_succ fun fuel hf ts hts => ?_
  simp only [inParens, List.cons_append, List.append_assoc, List.nil_append] at hts
  have hkind : ts.kind = .leftParen := hts.kind
  obtain ⟨ts₁, h₁, hts₁⟩ := hts.advance (by simp)
  obtain ⟨ts₂, h₂, hts₂⟩ := h (k :: rest) fuel hf ts₁ hts₁
  obtain ⟨ts₃, h₃, hts₃⟩ := hts₂.expect isRightParen ")" rfl (by simp)
  exact ⟨ts₃, by simp only [atom, hkind, h₁, h₂, h₃, ok_bind], hts₃⟩

theorem atom_term (a : Term lang) (k : TokenKind) (rest : List TokenKind) :
    Reads (atom lang) (32 * a.kinds.length + 1) a.kinds a.expr (k :: rest) := by
  obtain ⟨ks, e, h⟩ := a
  cases h with
  | name n => exact ((atomic_name n).atom k rest).mono (by simp)
  | number x => exact ((atomic_number x).atom k rest).mono (by simp)
  | enclosed hsource hparse =>
    exact (atom_enclosed (hsource.enclosed hparse) k rest).mono (by rw [length_inParens])

theorem postfixed_term (a : Term lang) {k : TokenKind} (rest : List TokenKind)
    (hlinks : links? k = false) (hmark : k.isOp "!" = false) :
    Reads (postfixed lang) (32 * a.kinds.length + 3) a.kinds a.expr (k :: rest) := by
  refine postfixed_of_call (.of_succ fun fuel hf ts hts => ?_) (by omega) hmark
  obtain ⟨first, tail, hkinds, hfirst⟩ := opens_term a
  obtain ⟨ts₁, h₁, hts₁⟩ := atom_term a k rest fuel hf ts hts
  obtain ⟨ts₂, h₂, hts₂⟩ := links_stop lang hlinks a.expr fuel (by omega) ts₁ hts₁
  rw [hkinds] at hts
  have hkind : ts.kind = first := hts.kind
  refine ⟨ts₂, ?_, hts₂⟩
  simp only [call, hkind, not_prefix_of_opens hfirst, Bool.false_eq_true, if_false, h₁, ok_bind,
    h₂]

/-! ### Levels and tiers -/

/-- The loosest level that a tier reads. -/
def Tier.floor : Tier → Nat
  | .coalescing => 0
  | .conditional | .disjunction | .conjunction | .membership => 1
  | .comparison => 2
  | .additive => 3
  | .multiplicative => 4
  | .conversion => 5

/-- The loosest level that an operand of a tier reads. -/
def Tier.inner (t : Tier) : Nat := (t.tighter?.map Tier.floor).getD 5

namespace Tier

theorem floor_le_inner (t : Tier) : t.floor ≤ t.inner := by cases t <;> decide

theorem inner_le (t : Tier) : t.inner ≤ t.floor + 1 := by cases t <;> decide

theorem inner_le_power (t : Tier) : t.inner ≤ 5 := by cases t <;> decide

theorem mem_operators {t : Tier} {op : String} (hop : op ∈ levels.map Prod.fst)
    (hfloor : t.floor ≤ level op) (hinner : level op < t.inner) : op ∈ t.operators := by
  revert op
  cases t <;> decide

theorem not_continues {t : Tier} {op : String} (hop : op ∈ levels.map Prod.fst)
    (hlevel : level op < t.floor) : t.continues (.op op) = false := by
  revert op
  cases t <;> decide

end Tier

/-! ### Where a rule stops -/

/-- The kind of token before the links that a rule leaves: an operator looser than its level, or one
that no operator goes on with. -/
def Stops (floor : Nat) : List (Link lang) → TokenKind → Prop
  | [], k => closes k = true
  | l :: _, k => k = .op l.op ∧ level l.op < floor

section

variable {floor : Nat} {post : List (Link lang)} {k : TokenKind}

theorem Stops.mono {floor' : Nat} (h : Stops floor post k) (hle : floor ≤ floor') :
    Stops floor' post k := by
  cases post with
  | nil => exact h
  | cons l post => exact ⟨h.1, Nat.lt_of_lt_of_le h.2 hle⟩

theorem Stops.not_continues {t : Tier} (h : Stops t.floor post k) : t.continues k = false := by
  cases post with
  | nil => exact continues_of_closes h t
  | cons l post =>
    obtain ⟨rfl, hlevel⟩ := h
    exact Tier.not_continues l.known hlevel

/-- No link, mark or power goes on where a factor stops. -/
theorem Stops.ends (h : Stops 5 post k) :
    links? k = false ∧ k.isOp "!" = false ∧ k.isOp "^" = false := by
  cases post with
  | nil =>
    exact ⟨links?_of_closes h, isOp_of_closes h (by decide), isOp_of_closes h (by decide)⟩
  | cons l post =>
    obtain ⟨rfl, hlevel⟩ := h
    have hall : ∀ op ∈ levels.map Prod.fst, level op < 5 →
        links? (.op op) = false ∧ (TokenKind.op op).isOp "!" = false ∧
          (TokenKind.op op).isOp "^" = false := by decide
    exact hall l.op l.known hlevel

/-- The next operator is not tighter than the level of the one held back. -/
theorem Stops.yields {op : String} (h : Stops floor post k) (hop : floor ≤ level op + 1)
    (hpower : floor ≤ 5) : ∀ next ∈ (post.map Link.piece).head?, yields next.1 op = true := by
  cases post with
  | nil => exact fun _ h => by cases h
  | cons l post =>
    rintro next ⟨⟩
    have hlevel : level l.op < floor := h.2
    have hne : level l.op = level op → l.op ≠ "^" := fun _ hl => by
      rw [hl, level_power] at hlevel
      omega
    change yields l.op op = true
    simp only [Precedence.yields, Bool.or_eq_true, decide_eq_true_eq, Bool.and_eq_true, beq_iff_eq,
      bne_iff_ne]
    by_cases heq : level l.op = level op
    · exact .inr ⟨heq, hne heq⟩
    · exact .inl (by omega)

end

/-! ### What a rule groups -/

/-- What a rule of a level reads of a chain is what the yard outputs before a looser operator, as
long as it holds back looser operators only. -/
def Groups (lang : Language Value) (rule : Nat → Tokens → Parse (Expr × Tokens))
    (cost floor : Nat) : Prop :=
  ∀ (a : Term lang) (pre post : List (Link lang)) (k : TokenKind) (rest : List TokenKind),
    (∀ l ∈ pre, floor ≤ level l.op) → Stops floor post k →
      ∃ e, Reads rule (32 * (a.kinds ++ linkKinds pre).length + cost) (a.kinds ++ linkKinds pre) e
          (k :: rest) ∧
        ∀ held, (∀ o ∈ held, level o < floor) →
          a.code ++ shunt held ((pre ++ post).map Link.piece) =
            e.compile ++ shunt held (post.map Link.piece)

theorem factor_term (a : Term lang) {k : TokenKind} (rest : List TokenKind)
    (hlinks : links? k = false) (hmark : k.isOp "!" = false) (hcaret : k.isOp "^" = false) :
    Reads (factor lang) (32 * a.kinds.length + 5) a.kinds a.expr (k :: rest) := by
  obtain ⟨first, tail, hkinds, hfirst⟩ := opens_term a
  have hpower := power_of_postfixed (postfixed_term a rest hlinks hmark) (by omega) hcaret
  rw [hkinds] at hpower ⊢
  exact factor_of_power hpower (not_prefix_of_opens hfirst)

theorem factor_power (a : Term lang) {n : Nat} {ls : List TokenKind} {r : Expr} {k : TokenKind}
    {rest : List TokenKind} (h : Reads (factor lang) n ls r (k :: rest)) (hn : 0 < n)
    (hcaret : k.isOp "^" = false) :
    Reads (factor lang) (32 * a.kinds.length + n + 5) (a.kinds ++ .op "^" :: ls)
      (.binary "^" a.expr r) (k :: rest) := by
  have hpower : Reads (power lang) (32 * a.kinds.length + n + 4) (a.kinds ++ .op "^" :: ls)
      (.binary "^" a.expr r) (k :: rest) := by
    refine .of_succ fun fuel hf ts hts => ?_
    rw [List.append_assoc] at hts
    obtain ⟨ts₁, h₁, hts₁⟩ := postfixed_term a (k := .op "^") _ rfl rfl fuel (by omega) ts hts
    have hkind₁ : ts₁.kind = .op "^" := hts₁.kind
    obtain ⟨fuel, rfl⟩ : ∃ f, fuel = f + 1 := ⟨fuel - 1, by omega⟩
    obtain ⟨ts₂, h₂, hts₂⟩ := Tokens.Shows.advance hts₁ (by simp)
    obtain ⟨ts₃, h₃, hts₃⟩ := h fuel (by omega) ts₂ hts₂
    obtain ⟨ts₄, h₄, hts₄⟩ := powers_stop lang hcaret (.binary "^" a.expr r) fuel (by omega) ts₃
      hts₃
    refine ⟨ts₄, ?_, hts₄⟩
    simp only [power, h₁, ok_bind, powers, Tokens.isOp, hkind₁, TokenKind.isOp, beq_self_eq_true,
      if_true, h₂, h₃, h₄]
  obtain ⟨first, tail, hkinds, hfirst⟩ := opens_term a
  rw [hkinds] at hpower ⊢
  exact factor_of_power hpower (not_prefix_of_opens hfirst)

/-- A factor reads powers whatever is held back; the exponent is a factor again. -/
theorem factor_groups (a : Term lang) (pre post : List (Link lang)) {k : TokenKind}
    (rest : List TokenKind) (hpre : ∀ l ∈ pre, 5 ≤ level l.op) (hpost : Stops 5 post k) :
    ∃ e, Reads (factor lang) (32 * (a.kinds ++ linkKinds pre).length + 5)
        (a.kinds ++ linkKinds pre) e (k :: rest) ∧
      ∀ held, a.code ++ shunt held ((pre ++ post).map Link.piece) =
        e.compile ++ shunt held (post.map Link.piece) := by
  obtain ⟨hlinks, hmark, hcaret⟩ := hpost.ends
  induction pre generalizing a with
  | nil =>
    refine ⟨a.expr, ?_, fun held => rfl⟩
    rw [linkKinds_nil, List.append_nil]
    exact factor_term a rest hlinks hmark hcaret
  | cons l pre ih =>
    obtain ⟨hl, hpre⟩ := List.forall_mem_cons.mp hpre
    obtain ⟨r, hread, hout⟩ := ih l.right hpre
    have hop : l.op = "^" := by
      have hall : ∀ op ∈ levels.map Prod.fst, 5 ≤ level op → op = "^" := by decide
      exact hall l.op l.known hl
    refine ⟨.binary "^" a.expr r, ?_, fun held => ?_⟩
    · rw [linkKinds_cons, hop]
      refine (factor_power a hread (by omega) hcaret).mono ?_
      simp only [List.length_append, List.length_cons]
      omega
    · have hyields : ∀ next ∈ (post.map Link.piece).head?, yields next.1 "^" = true :=
        hpost.yields (by decide) (by decide)
      have houtput : shunt ("^" :: held) (post.map Link.piece) =
          .binary "^" :: shunt held (post.map Link.piece) := shunt_output hyields
      have hheld : ∀ o ∈ held, yields "^" o = false := fun o _ => not_yields_power o
      calc a.code ++ shunt held ((l :: pre ++ post).map Link.piece)
          = a.code ++ (l.right.code ++ shunt ("^" :: held) ((pre ++ post).map Link.piece)) := by
            rw [List.cons_append, List.map_cons, Link.piece, hop, shunt_hold hheld]
        _ = a.code ++ (r.compile ++ (.binary "^" :: shunt held (post.map Link.piece))) := by
            rw [hout, houtput]
        _ = (Expr.binary "^" a.expr r).compile ++ shunt held (post.map Link.piece) := by
            simp [Expr.compile, Term.code]

theorem groups_factor : Groups lang (factor lang) 5 5 := by
  intro a pre post k rest hpre hpost
  obtain ⟨e, hread, hout⟩ := factor_groups a pre post rest hpre hpost
  exact ⟨e, hread, fun held _ => hout held⟩

/-! ### Tiers -/

/-- An operand of a tier is what the next tighter tier reads. -/
theorem groups_operand {t t' : Tier} (ht : t.tighter? = some t') {cost : Nat}
    (h : Groups lang (fun fuel => tier lang fuel t') cost t'.floor) :
    Groups lang (fun fuel => operand lang fuel t) (cost + 1) t.inner := by
  have hinner : t.inner = t'.floor := by rw [Tier.inner, ht]; rfl
  intro a pre post k rest hpre hpost
  rw [hinner] at hpre hpost ⊢
  obtain ⟨e, hread, hout⟩ := h a pre post k rest hpre hpost
  exact ⟨e, operand_of_tier ht hread, hout⟩

theorem groups_conversion : Groups lang (fun fuel => operand lang fuel .conversion) 6 5 := by
  intro a pre post k rest hpre hpost
  obtain ⟨e, hread, hout⟩ := groups_factor a pre post k rest hpre hpost
  refine ⟨e, .of_succ fun fuel hf ts hts => ?_, hout⟩
  obtain ⟨ts₁, h₁, hts₁⟩ := hread fuel hf ts hts
  exact ⟨ts₁, by simp only [operand, Tier.tighter?, h₁], hts₁⟩

/-- One operator of a tier with its right operand, then what the tier makes of those behind. -/
theorem chain_link {t : Tier} {op : String} (hop : op ∈ t.operators) {n m : Nat}
    {ks ls : List TokenKind} {e r e' : Expr} {k k' : TokenKind} {rest rest' : List TokenKind}
    (hsplit : ls ++ k :: rest = k' :: rest')
    (hoperand : Reads (fun fuel => operand lang fuel t) n ks r (k' :: rest'))
    (hchain : Reads (fun fuel => chain lang fuel t (.binary op e r)) m ls e' (k :: rest)) :
    Reads (fun fuel => chain lang fuel t e) (max n m + 1) (.op op :: (ks ++ ls)) e' (k :: rest) := by
  refine .of_succ fun fuel hf ts hts => ?_
  rw [List.cons_append, List.append_assoc, hsplit] at hts
  have hkind : ts.kind = .op op := hts.kind
  obtain ⟨ts₁, h₁, hts₁⟩ := hts.advance (by simp)
  obtain ⟨ts₂, h₂, hts₂⟩ := hoperand fuel (by omega) ts₁ hts₁
  rw [← hsplit] at hts₂
  obtain ⟨ts₃, h₃, hts₃⟩ := hchain fuel (by omega) ts₂ hts₂
  refine ⟨ts₃, ?_, hts₃⟩
  simp only [chain, Tokens.anyOf?, hkind, List.contains_iff_mem, hop, if_true, h₁, ok_bind, h₂, h₃]

/-- The links of a chain from the first one that is looser than a level. -/
theorem exists_inner (inner : Nat) (links : List (Link lang)) :
    ∃ pre post, links = pre ++ post ∧ (∀ l ∈ pre, inner ≤ level l.op) ∧
      ∀ l ∈ post.head?, level l.op < inner := by
  refine ⟨links.takeWhile (inner ≤ level ·.op), links.dropWhile (inner ≤ level ·.op),
    List.takeWhile_append_dropWhile.symm, fun l hl => ?_, fun l hl => ?_⟩
  · simpa using List.mem_takeWhile_imp hl
  · have := List.head?_dropWhile_not (inner ≤ level ·.op) links
    rw [hl] at this
    simpa using this

/-- What stands behind links that a tighter level reads. -/
theorem exists_stop {floor inner : Nat} {more post : List (Link lang)} {k : TokenKind}
    (rest : List TokenKind) (hmore : ∀ l ∈ more.head?, level l.op < inner)
    (hpost : Stops floor post k) (hle : floor ≤ inner) :
    ∃ k' rest', linkKinds more ++ k :: rest = k' :: rest' ∧ Stops inner (more ++ post) k' := by
  cases more with
  | nil => exact ⟨k, rest, rfl, hpost.mono hle⟩
  | cons l more => exact ⟨.op l.op, _, rfl, rfl, hmore l rfl⟩

/-- The operators of a tier are output from left to right. -/
theorem chain_groups {t : Tier} {cost : Nat} (hcost : cost ≤ 32)
    (hop : Groups lang (fun fuel => operand lang fuel t) cost t.inner) (e : Expr)
    (links post : List (Link lang)) {k : TokenKind} (rest : List TokenKind)
    (hfloor : ∀ l ∈ links, t.floor ≤ level l.op) (hinner : ∀ l ∈ links.head?, level l.op < t.inner)
    (hpost : Stops t.floor post k) :
    ∃ e', Reads (fun fuel => chain lang fuel t e) (32 * (linkKinds links).length + 1)
        (linkKinds links) e' (k :: rest) ∧
      ∀ held, (∀ o ∈ held, level o < t.floor) →
        e.compile ++ shunt held ((links ++ post).map Link.piece) =
          e'.compile ++ shunt held (post.map Link.piece) := by
  -- on the number of links: behind an operator its operand takes the tighter ones
  induction hn : links.length using Nat.strongRecOn generalizing links e with
  | _ n ih =>
    cases links with
    | nil => exact ⟨e, chain_stop lang hpost.not_continues e, fun held _ => rfl⟩
    | cons l tail =>
      obtain ⟨pre, more, rfl, hpre, hmore⟩ := exists_inner t.inner tail
      obtain ⟨hl, htail⟩ := List.forall_mem_cons.mp hfloor
      have hlevel : level l.op < t.inner := hinner l rfl
      obtain ⟨k', rest', hsplit, hstop⟩ := exists_stop rest hmore hpost t.floor_le_inner
      obtain ⟨r, hread, hout⟩ := hop l.right pre (more ++ post) k' rest' hpre hstop
      obtain ⟨e', hchain, hshunt⟩ := ih more.length
        (by rw [← hn, List.length_cons, List.length_append]; omega) (.binary l.op e r) more
        (fun l hl => htail l (List.mem_append_right pre hl)) hmore rfl
      refine ⟨e', ?_, fun held hheld => ?_⟩
      · have hlink := chain_link (Tier.mem_operators l.known hl hlevel) hsplit hread hchain
        rw [linkKinds_cons, linkKinds_append, ← List.append_assoc]
        refine hlink.mono ?_
        simp only [List.length_append, List.length_cons]
        omega
      · have hhold : ∀ o ∈ held, yields l.op o = false :=
          fun o ho => not_yields_of_lt (Nat.lt_of_lt_of_le (hheld o ho) hl)
        have hbelow : ∀ o ∈ l.op :: held, level o < t.inner :=
          List.forall_mem_cons.mpr ⟨hlevel,
            fun o ho => Nat.lt_of_lt_of_le (hheld o ho) t.floor_le_inner⟩
        have hyields : ∀ next ∈ ((more ++ post).map Link.piece).head?, yields next.1 l.op = true :=
          hstop.yields (by have := t.inner_le; omega) t.inner_le_power
        have houtput : shunt (l.op :: held) ((more ++ post).map Link.piece) =
            .binary l.op :: shunt held ((more ++ post).map Link.piece) := shunt_output hyields
        calc e.compile ++ shunt held ((l :: (pre ++ more) ++ post).map Link.piece)
            = e.compile ++
                (l.right.code ++ shunt (l.op :: held) ((pre ++ (more ++ post)).map Link.piece)) := by
              rw [List.cons_append, List.map_cons, Link.piece, shunt_hold hhold, List.append_assoc]
          _ = e.compile ++
                (r.compile ++ (.binary l.op :: shunt held ((more ++ post).map Link.piece))) := by
              rw [hout _ hbelow, houtput]
          _ = (Expr.binary l.op e r).compile ++ shunt held ((more ++ post).map Link.piece) := by
              simp [Expr.compile]
          _ = e'.compile ++ shunt held (post.map Link.piece) := hshunt held hheld

theorem groups_tier {t : Tier} {cost : Nat} (hcost : cost ≤ 32) (hpos : 0 < cost)
    (hop : Groups lang (fun fuel => operand lang fuel t) cost t.inner) :
    Groups lang (fun fuel => tier lang fuel t) (cost + 1) t.floor := by
  intro a links post k rest hlinks hpost
  obtain ⟨pre, more, rfl, hpre, hmore⟩ := exists_inner t.inner links
  obtain ⟨k', rest', hsplit, hstop⟩ := exists_stop rest hmore hpost t.floor_le_inner
  obtain ⟨e, hread, hout⟩ := hop a pre (more ++ post) k' rest' hpre hstop
  obtain ⟨e', hchain, hshunt⟩ := chain_groups hcost hop e more post rest
    (fun l hl => hlinks l (List.mem_append_right pre hl)) hmore hpost
  refine ⟨e', .of_succ (n := 32 * (a.kinds ++ linkKinds (pre ++ more)).length + cost)
    fun fuel hf ts hts => ?_, fun held hheld => ?_⟩
  · rw [linkKinds_append, ← List.append_assoc, List.length_append] at hf
    rw [linkKinds_append, ← List.append_assoc, List.append_assoc, hsplit] at hts
    obtain ⟨ts₁, h₁, hts₁⟩ := hread fuel (by omega) ts hts
    rw [← hsplit] at hts₁
    obtain ⟨ts₂, h₂, hts₂⟩ := hchain fuel (by omega) ts₁ hts₁
    exact ⟨ts₂, by simp only [tier, h₁, ok_bind, h₂], hts₂⟩
  · have hbelow : ∀ o ∈ held, level o < t.inner :=
      fun o ho => Nat.lt_of_lt_of_le (hheld o ho) t.floor_le_inner
    rw [List.append_assoc, hout held hbelow, hshunt held hheld]

/-- Every tier, from the tightest one. -/
theorem groups_tiers (t : Tier) :
    Groups lang (fun fuel => tier lang fuel t) (2 * t.slack + 7) t.floor := by
  have hslack : t.slack ≤ 8 := by cases t <;> decide
  induction hs : t.slack generalizing t with
  | zero =>
    obtain rfl : t = .conversion := Tier.slack_injective hs
    exact groups_tier (by omega) (by omega) groups_conversion
  | succ n ih =>
    obtain ⟨t', ht'⟩ := Tier.exists_tighter (t := t) (by omega)
    have hst := Tier.slack_tighter ht'
    have htier := ih t' (by omega) (by omega)
    exact groups_tier (by omega) (by omega) (groups_operand ht' htier)

end Parser

/-! ### Whole chains -/

/-- A chain of operands with operators between them parses, and its program is the output of the
shunting yard: it binds by level, powers to the right and every other level to the left. -/
theorem parseExpr_chain {lang : Language Value} {source : String} (first : Term lang)
    (links : List (Link lang)) (hsource : lang.Tokenizes source (first.kinds ++ linkKinds links)) :
    ∃ e, parseExpr lang source = .ok e ∧ e.compile = first.shunted links := by
  obtain ⟨e, hread, hout⟩ := Parser.groups_tiers .coalescing first links [] .eof []
    (fun _ _ => Nat.zero_le _) rfl
  have hassignment := Parser.assignment_of_tier (t := .coalescing) hread (by omega) rfl
  refine ⟨e, hsource.parses (Parser.statements_of_assignment hassignment rfl) ?_, ?_⟩
  · simp only [Parser.Tier.slack]
    omega
  · have hwhole := hout [] (by simp)
    simpa [Term.shunted, shunt] using hwhole.symm

abbrev linkedLanguage : Language Value := .ofOptions 0 {}

def linkedSource : String := "a ?? b + (c ^ d ^ e) * 2 - f"

def powersSource : String := "c ^ d ^ e"

/-- The operand of a chain that is a name. -/
def Term.ofName (n : String) : Term linkedLanguage := ⟨_, _, .name n⟩

def Link.ofName (op : String) (known : op ∈ levels.map Prod.fst) (n : String) :
    Link linkedLanguage := ⟨op, known, .ofName n⟩

theorem powersSource_tokens : linkedLanguage.Tokenizes powersSource
    [.name "c", .op "^", .name "d", .op "^", .name "e"] := ⟨rfl, rfl⟩

theorem linkedSource_tokens : linkedLanguage.Tokenizes linkedSource
    [.name "a", .op "??", .name "b", .op "+", .leftParen, .name "c", .op "^", .name "d", .op "^",
      .name "e", .rightParen, .op "*", .number (Number.parseChars ['2']), .op "-", .name "f"] :=
  ⟨rfl, rfl⟩

/-- Four levels in one chain with a chain of powers as an operand. -/
theorem linkedSource_shunted : ∃ e, parseExpr linkedLanguage linkedSource = .ok e ∧
    e.compile = [.variable "a", .variable "b", .variable "c", .variable "d", .variable "e",
      .binary "^", .binary "^", .literal (.number (Number.parseChars ['2'])), .binary "*",
      .binary "+", .variable "f", .binary "-", .binary "??"] := by
  obtain ⟨p, hp, hpowers⟩ := parseExpr_chain (.ofName "c")
    [.ofName "^" (by decide) "d", .ofName "^" (by decide) "e"] powersSource_tokens
  have hpowers : p.compile = [.variable "c", .variable "d", .variable "e", .binary "^",
      .binary "^"] := by
    simpa [Term.shunted, Link.ofName, Link.piece, Term.code, Term.ofName, shunt,
      not_yields_power, Expr.compile] using hpowers
  let product : Link linkedLanguage :=
    ⟨"*", by decide, _, _, .number (Number.parseChars ['2'])⟩
  let sum : Link linkedLanguage := ⟨"+", by decide, _, p, .enclosed powersSource_tokens hp⟩
  obtain ⟨e, he, hcode⟩ := parseExpr_chain (.ofName "a")
    [.ofName "??" (by decide) "b", sum, product, .ofName "-" (by decide) "f"] linkedSource_tokens
  have hlooser : yields "+" "??" = false ∧ yields "*" "+" = false ∧ yields "-" "??" = false := by
    decide
  have htighter : yields "-" "*" = true ∧ yields "-" "+" = true := by decide
  refine ⟨e, he, ?_⟩
  simpa [Term.shunted, Link.ofName, Link.piece, Term.code, Term.ofName, shunt, Expr.compile, sum,
    product, hpowers, List.takeWhile_cons, List.dropWhile_cons, hlooser, htighter] using hcode

end Formula
