import Formula.Proofs.Printed.Units
import Mathlib.Data.List.Forall2

/-!
# Tokens of lists and blocks

The arguments of a call, the items of an array, the fields of an object and the branches of a case
block: each rule that collects them reads the tokens of all of them up to the closing token.
-/

namespace Formula.Parser

variable {lang : Language Value} {ks ls : List TokenKind} {e e' : Expr}

/-- Lists of tokens with commas between them. -/
def listed (kss : List (List TokenKind)) : List TokenKind := [.comma].intercalate kss

theorem listed_singleton {ks : List TokenKind} : listed [ks] = ks := List.intercalate_singleton

theorem listed_cons {ks ls : List TokenKind} {kss : List (List TokenKind)} :
    listed (ks :: ls :: kss) = ks ++ .comma :: listed (ls :: kss) := by
  simp only [listed, List.intercalate_cons_cons, List.append_assoc, List.singleton_append]

theorem listed_head (k : TokenKind) (tail : List TokenKind) (kss : List (List TokenKind)) :
    ∃ rest, listed ((k :: tail) :: kss) = k :: rest := by
  cases kss with
  | nil => exact ⟨tail, listed_singleton⟩
  | cons ls kss => exact ⟨_, listed_cons⟩

theorem exists_head (more : List TokenKind) (k : TokenKind) (rest : List TokenKind) :
    ∃ k' rest', more ++ k :: rest = k' :: rest' := by
  cases more <;> exact ⟨_, _, rfl⟩

/-! ### Arguments and items -/

theorem arguments_reads {kss : List (List TokenKind)} {es : List Expr} (k : TokenKind)
    (rest : List TokenKind) (h : List.Forall₂ (Stated lang) kss es) (hne : kss ≠ [])
    (acc : List Expr) :
    Reads (fun fuel => arguments lang fuel acc) (32 * (listed kss).length + 26)
      (listed kss ++ [.rightParen]) (acc.reverse ++ es) (k :: rest) := by
  induction h generalizing acc with
  | nil => exact (hne rfl).elim
  | @cons ks e kss es h hrest ih =>
    refine .of_succ fun fuel hf ts hts => ?_
    cases hrest with
    | nil =>
      rw [listed_singleton] at hts hf
      rw [List.append_assoc] at hts
      obtain ⟨ts₁, h₁, hts₁⟩ := h.statements (k := .rightParen) rfl rfl fuel (by omega) ts hts
      obtain ⟨ts₂, h₂, hts₂⟩ := hts₁.expect isRightParen ")" rfl (by simp)
      have hkind₁ : ts₁.kind = .rightParen := hts₁.kind
      refine ⟨ts₂, ?_, hts₂⟩
      simp only [arguments, h₁, ok_bind, hkind₁, isComma, Bool.false_eq_true, if_false, h₂,
        List.reverse_cons]
    | cons h' hrest =>
      rw [listed_cons] at hts hf
      simp only [List.length_append, List.length_cons] at hf
      simp only [List.append_assoc, List.cons_append] at hts
      obtain ⟨ts₁, h₁, hts₁⟩ := h.statements (k := .comma) rfl rfl fuel (by omega) ts hts
      obtain ⟨ts₂, h₂, hts₂⟩ := hts₁.advance (by simp)
      have hkind₁ : ts₁.kind = .comma := hts₁.kind
      obtain ⟨ts₃, h₃, hts₃⟩ := ih (by simp) (e :: acc) fuel (by omega) ts₂ (by simpa using hts₂)
      refine ⟨ts₃, ?_, hts₃⟩
      simp only [arguments, h₁, ok_bind, hkind₁, isComma, if_true, h₂, h₃, List.reverse_cons,
        List.append_assoc, List.singleton_append]

theorem Spelled.arguments {kss : List (List TokenKind)} {es : List Expr} (h : Spelled lang ks e)
    (hes : List.Forall₂ (Stated lang) kss es) :
    Spelled lang (ks ++ inParens (listed kss)) (.call e es) := by
  obtain ⟨first, tail, rfl, hfirst⟩ := h.opens
  refine ⟨⟨first, _, rfl, hfirst⟩, fun {n more a k' rest} hlinks => ?_⟩
  have hlink : Reads (fun fuel => links lang fuel e) (n + 32 * (listed kss).length + 27)
      (inParens (listed kss) ++ more) a (k' :: rest) := by
    refine .of_succ fun fuel hf ts hts => ?_
    simp only [inParens, List.cons_append, List.append_assoc, List.nil_append] at hts
    have hkind : ts.kind = .leftParen := hts.kind
    obtain ⟨ts₁, h₁, hts₁⟩ := hts.advance (by simp)
    cases hes with
    | nil =>
      have hkind₁ : ts₁.kind = .rightParen := hts₁.kind
      obtain ⟨ts₂, h₂, hts₂⟩ := Tokens.Shows.advance hts₁ (by simp)
      obtain ⟨ts₃, h₃, hts₃⟩ := hlinks fuel (by omega) ts₂ hts₂
      refine ⟨ts₃, ?_, hts₃⟩
      simp only [links, hkind, isLeftParen, if_true, h₁, ok_bind, hkind₁, isRightParen, h₂, h₃]
    | @cons ls e' kss es h' hrest =>
      obtain ⟨k'', rest'', hmore⟩ := exists_head more k' rest
      have hopen : isRightParen ts₁.kind = false := by
        obtain ⟨first', tail', rfl, hfirst', -⟩ := h'.opens
        obtain ⟨listed', hlisted⟩ := listed_head first' tail' kss
        rw [hlisted] at hts₁
        rw [Tokens.Shows.kind hts₁, hfirst']
      obtain ⟨ts₂, h₂, hts₂⟩ := arguments_reads k'' rest'' (.cons h' hrest) (by simp) [] fuel
        (by omega) ts₁ (by rw [List.append_assoc, List.singleton_append, ← hmore]; exact hts₁)
      rw [← hmore] at hts₂
      obtain ⟨ts₃, h₃, hts₃⟩ := hlinks fuel (by omega) ts₂ hts₂
      refine ⟨ts₃, ?_, hts₃⟩
      simp only [links, hkind, isLeftParen, if_true, h₁, ok_bind, hopen, Bool.false_eq_true, if_false,
        h₂, List.reverse_nil, List.nil_append, h₃]
  have := h.call hlink
  rw [List.append_assoc]
  exact this.mono (by simp only [List.length_append, List.length_cons, length_inParens]; omega)

theorem items_reads {kss : List (List TokenKind)} {es : List Expr} (k : TokenKind)
    (rest : List TokenKind) (h : List.Forall₂ (Stated lang) kss es) (acc : List Expr) :
    Reads (fun fuel => items lang fuel acc) (32 * (listed kss).length + 26)
      (listed kss ++ [.rightBracket]) (acc.reverse ++ es) (k :: rest) := by
  induction h generalizing acc with
  | nil =>
    refine .of_succ fun fuel hf ts hts => ?_
    have hkind : ts.kind = .rightBracket := hts.kind
    obtain ⟨ts₁, h₁, hts₁⟩ := Tokens.Shows.advance hts (by simp)
    refine ⟨ts₁, ?_, hts₁⟩
    simp only [items, hkind, isRightBracket, if_true, h₁, ok_bind, List.append_nil]
  | @cons ks e kss es h hrest ih =>
    refine .of_succ fun fuel hf ts hts => ?_
    have hopen : isRightBracket ts.kind = false := by
      obtain ⟨first, tail, rfl, -, hfirst⟩ := h.opens
      obtain ⟨listed', hlisted⟩ := listed_head first tail kss
      rw [hlisted] at hts
      rw [Tokens.Shows.kind hts, hfirst]
    cases hrest with
    | nil =>
      rw [listed_singleton] at hts hf
      rw [List.append_assoc] at hts
      obtain ⟨ts₁, h₁, hts₁⟩ := h.statements (k := .rightBracket) rfl rfl fuel (by omega) ts hts
      obtain ⟨ts₂, h₂, hts₂⟩ := hts₁.expect isRightBracket "]" rfl (by simp)
      have hkind₁ : ts₁.kind = .rightBracket := hts₁.kind
      refine ⟨ts₂, ?_, hts₂⟩
      simp only [items, hopen, h₁, ok_bind, hkind₁, isComma, Bool.false_eq_true, if_false, h₂,
        List.reverse_cons]
    | cons h' hrest =>
      rw [listed_cons] at hts hf
      simp only [List.length_append, List.length_cons] at hf
      simp only [List.append_assoc, List.cons_append] at hts
      obtain ⟨ts₁, h₁, hts₁⟩ := h.statements (k := .comma) rfl rfl fuel (by omega) ts hts
      obtain ⟨ts₂, h₂, hts₂⟩ := hts₁.advance (by simp)
      have hkind₁ : ts₁.kind = .comma := hts₁.kind
      obtain ⟨ts₃, h₃, hts₃⟩ := ih (e :: acc) fuel (by omega) ts₂ (by simpa using hts₂)
      refine ⟨ts₃, ?_, hts₃⟩
      simp only [items, hopen, Bool.false_eq_true, if_false, h₁, ok_bind, hkind₁, isComma, if_true, h₂,
        h₃, List.reverse_cons, List.append_assoc, List.singleton_append]

theorem atomic_array {kss : List (List TokenKind)} {es : List Expr}
    (h : List.Forall₂ (Stated lang) kss es) :
    Atomic lang (.leftBracket :: (listed kss ++ [.rightBracket])) (.array es) := by
  refine ⟨⟨_, _, rfl, rfl⟩, fun k rest => Reads.mono (n := 32 * (listed kss).length + 27)
    (.of_succ fun fuel hf ts hts => ?_) (by simp; omega)⟩
  obtain ⟨ts₁, h₁, hts₁⟩ := Tokens.Shows.advance hts (by simp)
  obtain ⟨ts₂, h₂, hts₂⟩ := items_reads k rest h [] fuel hf ts₁ hts₁
  have hkind : ts.kind = .leftBracket := hts.kind
  refine ⟨ts₂, ?_, hts₂⟩
  simp only [atom, hkind, h₁, h₂, ok_bind, List.reverse_nil, List.nil_append]

/-! ### Fields -/

/-- The key that a token stands for. -/
def keyName? : TokenKind → Option String
  | .string s => some s
  | k => memberName? k

theorem key_reads {ts : Tokens} {k : TokenKind} {name : String} (hk : keyName? k = some name)
    (h : ts.Shows (k :: ks)) (hks : ks ≠ []) :
    ∃ ts', key ts = .ok (name, ts') ∧ ts'.Shows ks := by
  obtain ⟨ts₁, h₁, hts₁⟩ := h.advance hks
  have hkind : ts.kind = k := h.kind
  refine ⟨ts₁, ?_, hts₁⟩
  cases k with
  | string s =>
    cases hk
    simp only [key, hkind, h₁, ok_bind]
  | _ =>
    simp only [keyName?] at hk
    simp only [key, hkind, memberName, hk, h₁, ok_bind]

/-- Tokens of a field: its key, a colon and its value. -/
def SpelledField (lang : Language Value) (ks : List TokenKind) (f : String × Expr) : Prop :=
  ∃ k ls, ks = k :: .op ":" :: ls ∧ keyName? k = some f.1 ∧ Stated lang ls f.2

theorem fields_reads {kss : List (List TokenKind)} {fs : List (String × Expr)} (k : TokenKind)
    (rest : List TokenKind) (h : List.Forall₂ (SpelledField lang) kss fs)
    (acc : List (String × Expr)) :
    Reads (fun fuel => fields lang fuel acc) (32 * (listed kss).length + 26)
      (listed kss ++ [.rightBrace]) (acc.reverse ++ fs) (k :: rest) := by
  induction h generalizing acc with
  | nil =>
    refine .of_succ fun fuel hf ts hts => ?_
    have hkind : ts.kind = .rightBrace := hts.kind
    obtain ⟨ts₁, h₁, hts₁⟩ := Tokens.Shows.advance hts (by simp)
    refine ⟨ts₁, ?_, hts₁⟩
    simp only [fields, hkind, isRightBrace, if_true, h₁, ok_bind, List.append_nil]
  | @cons ks f kss fs h hrest ih =>
    obtain ⟨name, e⟩ := f
    obtain ⟨kk, ls, rfl, hk, h⟩ := h
    refine .of_succ fun fuel hf ts hts => ?_
    have hopen : isRightBrace ts.kind = false := by
      obtain ⟨listed', hlisted⟩ := listed_head kk (.op ":" :: ls) kss
      rw [hlisted] at hts
      rw [Tokens.Shows.kind hts]
      cases kk <;> first | rfl | cases hk
    cases hrest with
    | nil =>
      rw [listed_singleton] at hts hf
      simp only [List.length_cons] at hf
      simp only [List.cons_append, List.append_assoc, List.nil_append] at hts
      obtain ⟨ts₁, h₁, hts₁⟩ := key_reads hk hts (by simp)
      obtain ⟨ts₂, h₂, hts₂⟩ := hts₁.expect (·.isOp ":") ":" rfl (by simp)
      obtain ⟨ts₃, h₃, hts₃⟩ := h.statements (k := .rightBrace) rfl rfl fuel (by omega) ts₂ hts₂
      obtain ⟨ts₄, h₄, hts₄⟩ := hts₃.expect isRightBrace "\x7d" rfl (by simp)
      have hkind₃ : ts₃.kind = .rightBrace := hts₃.kind
      refine ⟨ts₄, ?_, hts₄⟩
      simp only [fields, hopen, h₁, ok_bind, h₂, h₃, hkind₃, isComma, Bool.false_eq_true, if_false,
        h₄, List.reverse_cons]
    | cons h' hrest =>
      rw [listed_cons] at hts hf
      simp only [List.length_append, List.length_cons] at hf
      simp only [List.cons_append, List.append_assoc] at hts
      obtain ⟨ts₁, h₁, hts₁⟩ := key_reads hk hts (by simp)
      obtain ⟨ts₂, h₂, hts₂⟩ := hts₁.expect (·.isOp ":") ":" rfl (by simp)
      obtain ⟨ts₃, h₃, hts₃⟩ := h.statements (k := .comma) rfl rfl fuel (by omega) ts₂ hts₂
      obtain ⟨ts₄, h₄, hts₄⟩ := hts₃.advance (by simp)
      have hkind₃ : ts₃.kind = .comma := hts₃.kind
      obtain ⟨ts₅, h₅, hts₅⟩ := ih ((name, e) :: acc) fuel (by omega) ts₄ (by simpa using hts₄)
      refine ⟨ts₅, ?_, hts₅⟩
      simp only [fields, hopen, Bool.false_eq_true, if_false, h₁, ok_bind, h₂, h₃, hkind₃, isComma,
        if_true, h₄, h₅, List.reverse_cons, List.append_assoc, List.singleton_append]

theorem atomic_object {kss : List (List TokenKind)} {fs : List (String × Expr)}
    (h : List.Forall₂ (SpelledField lang) kss fs) :
    Atomic lang (.leftBrace :: (listed kss ++ [.rightBrace])) (.object fs) := by
  refine ⟨⟨_, _, rfl, rfl⟩, fun k rest => Reads.mono (n := 32 * (listed kss).length + 27)
    (.of_succ fun fuel hf ts hts => ?_) (by simp; omega)⟩
  obtain ⟨ts₁, h₁, hts₁⟩ := Tokens.Shows.advance hts (by simp)
  obtain ⟨ts₂, h₂, hts₂⟩ := fields_reads k rest h [] fuel hf ts₁ hts₁
  have hkind : ts.kind = .leftBrace := hts.kind
  refine ⟨ts₂, ?_, hts₂⟩
  simp only [atom, hkind, h₁, h₂, ok_bind, List.reverse_nil, List.nil_append]

/-! ### Case blocks -/

/-- Tokens of a branch: its condition and its value after their words. -/
def SpelledBranch (lang : Language Value) (ks : List TokenKind) (b : Expr × Expr) : Prop :=
  ∃ ls ms, ks = .keyword .whenWord :: (ls ++ .keyword .thenWord :: ms) ∧ Spelled lang ls b.1 ∧
    Spelled lang ms b.2

/-- Tokens of the value for the rest, if there is one. -/
inductive SpelledOther (lang : Language Value) : List TokenKind → Option Expr → Prop where
  | none : SpelledOther lang [] none
  | some {ks : List TokenKind} {e : Expr} (h : Spelled lang ks e) :
    SpelledOther lang (.keyword .elseWord :: ks) (some e)

/-- Tokens of the tested value, if there is one. -/
inductive SpelledTested (lang : Language Value) : List TokenKind → Option Expr → Prop where
  | none : SpelledTested lang [] none
  | some {ks : List TokenKind} {e : Expr} (h : Spelled lang ks e) : SpelledTested lang ks (some e)

variable {os : List TokenKind} {other : Option Expr} {kss : List (List TokenKind)}
  {bs : List (Expr × Expr)}

/-- What follows a value of a case block starts with one of its words. -/
theorem word_follows (hbs : List.Forall₂ (SpelledBranch lang) kss bs) (ho : SpelledOther lang os other)
    (rest : List TokenKind) :
    ∃ w tail, kss.flatten ++ (os ++ .keyword .endWord :: rest) = .keyword w :: tail ∧
      isBranchWord (.keyword w) = true := by
  cases hbs with
  | nil =>
    cases ho with
    | none => exact ⟨_, _, rfl, rfl⟩
    | some h => exact ⟨_, _, rfl, rfl⟩
  | cons h _ =>
    obtain ⟨ls, ms, rfl, -, -⟩ := h
    exact ⟨_, _, rfl, rfl⟩

theorem branches_reads (k : TokenKind) (rest : List TokenKind) (tested : Option Expr)
    (hbs : List.Forall₂ (SpelledBranch lang) kss bs) (ho : SpelledOther lang os other)
    (acc : List (Expr × Expr)) :
    Reads (fun fuel => branches lang fuel tested acc) (32 * (kss.flatten.length + os.length) + 26)
      (kss.flatten ++ (os ++ [.keyword .endWord])) (.case tested (acc.reverse ++ bs) other)
      (k :: rest) := by
  induction hbs generalizing acc with
  | nil =>
    refine .of_succ fun fuel hf ts hts => ?_
    cases ho with
    | none =>
      have hkind : ts.kind = .keyword .endWord := hts.kind
      obtain ⟨ts₁, h₁, hts₁⟩ := Tokens.Shows.advance hts (by simp)
      refine ⟨ts₁, ?_, hts₁⟩
      simp [branches, Tokens.isKeyword, hkind, TokenKind.isKeyword, h₁, ok_bind]
    | @some ks e h =>
      simp only [List.flatten_nil, List.nil_append, List.cons_append, List.append_assoc] at hts
      simp only [List.length_cons] at hf
      have hkind : ts.kind = .keyword .elseWord := hts.kind
      obtain ⟨ts₁, h₁, hts₁⟩ := hts.advance (by simp)
      obtain ⟨ts₂, h₂, hts₂⟩ := h.assignment (k := .keyword .endWord) rfl fuel (by omega) ts₁ hts₁
      have hkind₂ : ts₂.kind = .keyword .endWord := hts₂.kind
      obtain ⟨ts₃, h₃, hts₃⟩ := hts₂.advance (by simp)
      refine ⟨ts₃, ?_, hts₃⟩
      simp [branches, Tokens.isKeyword, hkind, hkind₂, TokenKind.isKeyword, h₁, h₂, h₃, ok_bind]
  | @cons ks b kss bs h hrest ih =>
    obtain ⟨c, v⟩ := b
    obtain ⟨ls, ms, rfl, hc, hv⟩ := h
    refine .of_succ fun fuel hf ts hts => ?_
    simp only [List.flatten_cons, List.length_append, List.length_cons] at hf
    simp only [List.flatten_cons, List.cons_append, List.append_assoc, List.nil_append] at hts
    have hkind : ts.kind = .keyword .whenWord := hts.kind
    obtain ⟨ts₁, h₁, hts₁⟩ := hts.advance (by simp)
    obtain ⟨ts₂, h₂, hts₂⟩ := hc.assignment (k := .keyword .thenWord) rfl fuel (by omega) ts₁ hts₁
    have hkind₂ : ts₂.kind = .keyword .thenWord := hts₂.kind
    obtain ⟨ts₃, h₃, hts₃⟩ := hts₂.advance (by simp)
    obtain ⟨w, tail, hword, -⟩ := word_follows hrest ho (k :: rest)
    rw [hword] at hts₃
    obtain ⟨ts₄, h₄, hts₄⟩ := hv.assignment (k := .keyword w) rfl fuel (by omega) ts₃ hts₃
    rw [← hword] at hts₄
    obtain ⟨ts₅, h₅, hts₅⟩ := ih ((c, v) :: acc) fuel (by omega) ts₄
      (by simpa only [List.append_assoc, List.singleton_append] using hts₄)
    refine ⟨ts₅, ?_, hts₅⟩
    simp [branches, Tokens.isKeyword, hkind, hkind₂, TokenKind.isKeyword, h₁, h₂, h₃, h₄, ok_bind]
    simpa using h₅

theorem atomic_case {tks : List TokenKind} {tested : Option Expr}
    (ht : SpelledTested lang tks tested) (hbs : List.Forall₂ (SpelledBranch lang) kss bs)
    (ho : SpelledOther lang os other) :
    Atomic lang (.keyword .caseWord :: (tks ++ (kss.flatten ++ (os ++ [.keyword .endWord]))))
      (.case tested bs other) := by
  refine ⟨⟨_, _, rfl, rfl⟩, fun k rest => ?_⟩
  have hblock : Reads (caseBlock lang) (32 * (tks.length + kss.flatten.length + os.length) + 27)
      (tks ++ (kss.flatten ++ (os ++ [.keyword .endWord]))) (.case tested bs other) (k :: rest) := by
    refine .of_succ fun fuel hf ts hts => ?_
    obtain ⟨w, tail, hword, hw⟩ := word_follows hbs ho (k :: rest)
    simp only [List.append_assoc, List.singleton_append] at hts
    cases ht with
    | none =>
      have hkind : ts.kind = .keyword w := by
        rw [List.nil_append, hword] at hts
        exact hts.kind
      obtain ⟨ts₁, h₁, hts₁⟩ := branches_reads k rest none hbs ho [] fuel
        (by simp only [List.length_nil] at hf; omega) ts
        (by simpa only [List.append_assoc, List.singleton_append, List.nil_append] using hts)
      refine ⟨ts₁, ?_, hts₁⟩
      simp only [caseBlock, hkind, hw, if_true]
      exact h₁
    | @some _ t ht =>
      rw [hword] at hts
      have hopen : isBranchWord ts.kind = false ∧ ts.isKeyword .thenWord = false := by
        obtain ⟨first, tail', rfl, hfirst⟩ := ht.opens
        rw [Tokens.isKeyword, Tokens.Shows.kind hts]
        cases first with
        | keyword w => cases w <;> first | exact ⟨rfl, rfl⟩ | cases hfirst
        | op => cases hfirst
        | _ => exact ⟨rfl, rfl⟩
      obtain ⟨ts₁, h₁, hts₁⟩ := ht.assignment (k := .keyword w) rfl fuel (by omega) ts hts
      have hkind₁ : ts₁.kind = .keyword w := hts₁.kind
      rw [← hword] at hts₁
      obtain ⟨ts₂, h₂, hts₂⟩ := branches_reads k rest (some t) hbs ho [] fuel (by omega) ts₁
        (by simpa only [List.append_assoc, List.singleton_append] using hts₁)
      refine ⟨ts₂, ?_, hts₂⟩
      simp only [caseBlock, hopen, Bool.false_eq_true, if_false, h₁, ok_bind, hkind₁, hw, if_true]
      exact h₂
  refine Reads.mono (n := 32 * (tks.length + kss.flatten.length + os.length) + 28)
    (.of_succ fun fuel hf ts hts => ?_)
    (by simp only [List.length_cons, List.length_append, List.length_nil]; omega)
  obtain ⟨ts₁, h₁, hts₁⟩ := Tokens.Shows.advance hts (by simp)
  obtain ⟨ts₂, h₂, hts₂⟩ := hblock fuel hf ts₁ hts₁
  have hkind : ts.kind = .keyword .caseWord := hts.kind
  refine ⟨ts₂, ?_, hts₂⟩
  simp only [atom, hkind, h₁, h₂, ok_bind]

end Formula.Parser
