import Formula.Proofs.Machine.Trailing
import Formula.Proofs.Printed.RoundTrip
import Formula.Proofs.Scope.Kept

/-!
# Programs that end in a semicolon

A semicolon at the end of a program closes its last statement, whose program becomes a group. The
printer writes parentheses instead of the semicolon, and these make no group, so what is printed is
read as the program without the semicolon. That program does the same.
-/

open Formula.Parser

namespace Formula

open Machine Waiting

namespace Expr

/-- The program without a semicolon at its end. -/
def opened : Expr → Expr
  | .sequence a b => .sequence a (opened b)
  | .closed a => a
  | e => e

/-! ### Texts -/

theorem opened_grammatical {lang : Language Value} : {e : Expr} →
    e.Every (Grammatical lang) → e.opened.Every (Grammatical lang)
  | .sequence _ _, h => ⟨trivial, h.2.1, opened_grammatical h.2.2⟩
  | .closed _, h => h.2
  | .literal _, h | .undefined, h | .variable _, h | .unary _ _, h | .binary _ _ _, h
  | .connective _ _ _, h | .conditional _ _ _, h | .assign _ _ _, h | .define _ _ _, h
  | .call _ _, h | .member _ _, h | .array _, h | .object _, h | .case _ _ _, h => h

/-- The text of a program is read as the program without a semicolon at its end. -/
theorem spelled_opened {id : Nat} : (e : Expr) → e.opened.Every (Grammatical (.ofOptions id {})) →
    e.opened.Every (isUnambiguous (.ofOptions id {}) ·) →
    Legible (.ofOptions id {}) e.endsAt e.text fun ks => Spelled (.ofOptions id {}) ks e.opened
  | .sequence a b, hgrammar, he => by
    have ha := reread_unambiguous hgrammar.2.1 he.2.1
    exact (readAs_statements ha.spelled (spelled_opened b hgrammar.2.2 he.2.2)).spelled
  | .closed a, hgrammar, he => by
    obtain ⟨ks, hks, htext⟩ := (reread_unambiguous hgrammar he).spelled
    have hshape : (closed a).text = enclosed a.text := by simp [text, render, enclosed]
    refine ⟨inParens ks, (atomic_paren hks).spelled, ?_⟩
    rw [hshape]
    exact htext.enclosed _ (endsAt_delimiter a (by decide))
  | .literal _, hgrammar, he | .undefined, hgrammar, he | .variable _, hgrammar, he
  | .unary _ _, hgrammar, he | .binary _ _ _, hgrammar, he | .connective _ _ _, hgrammar, he
  | .conditional _ _ _, hgrammar, he | .assign _ _ _, hgrammar, he | .define _ _ _, hgrammar, he
  | .call _ _, hgrammar, he | .member _ _, hgrammar, he | .array _, hgrammar, he
  | .object _, hgrammar, he | .case _ _ _, hgrammar, he => (reread_unambiguous hgrammar he).spelled

/-! ### Programs -/

theorem trailing_opened : (e : Expr) → e.All (fun i => i.isStructural = false) →
    Trailing [] e.compile e.opened.compile
  | .sequence a b, h => by
    refine .group (.append (effects_compile a h.1 []) ?_)
    exact .cons effect_endStatement (trailing_opened b h.2)
  | .closed _, _ => .left (.same _ _)
  | .literal _, _ | .undefined, _ | .variable _, _ | .unary _ _, _ | .binary _ _ _, _
  | .connective _ _ _, _ | .conditional _ _ _, _ | .assign _ _ _, _ | .define _ _ _, _
  | .call _ _, _ | .member _ _, _ | .array _, _ | .object _, _ | .case _ _ _, _ => .same _ _

end Expr

variable {id : Nat} {source : String} {e : Expr}

/-- The text of a parsed program parses to the program without a semicolon at its end, if the text is
unambiguous, whatever calls, members and indices are of. That program has the same value or error and
leaves the same world, at once and after waiting. -/
theorem parseExpr_render_opened (h : parseExpr (.ofOptions id {}) source = .ok e)
    (he : e.opened.Every (Expr.isUnambiguous (.ofOptions id {}) ·)) :
    parseExpr (.ofOptions id {}) (e.render .formula) = .ok e.opened ∧
    ∀ (hosts : Hosts) (lang : Language Value) (res : Except EvalError Value) (w w₁ : World),
      ((∃ N, ∀ m ≥ N, e.opened.evaluate hosts m lang w = (ended res, w₁)) ↔
        ∃ N, ∀ m ≥ N, e.evaluate hosts m lang w = (ended res, w₁)) ∧
      ((∃ N, ∀ m ≥ N, (e.opened.evaluate hosts m lang >>= Progress.settle hosts m lang) w =
          (result res, w₁)) ↔
        ∃ N, ∀ m ≥ N, (e.evaluate hosts m lang >>= Progress.settle hosts m lang) w =
          (result res, w₁)) := by
  have hcomplete := (Language.Extended.standard (g := .sound) id {}).complete
  have hgrammar := Expr.opened_grammatical (Expr.parseExpr_grammatical hcomplete h)
  refine ⟨Expr.parseExpr_of_legible (Expr.legible_of_spelled (Expr.spelled_opened e hgrammar he)),
    fun hosts lang res w w₁ => ?_⟩
  have hregular := parseExpr_all hcomplete (Language.emits_regular _) h
  exact (Expr.trailing_opened e hregular).symm.enter res w w₁

/-- Members and indices of what stands in parentheses, keys with and without quotes, and a semicolon
at the end. -/
def closedSource : String :=
  "f(x) = \x7b'a b': 'c'.d, e: [x]\x7d; (y = f('r')).e; ((f('s')).e)[0];"

/-- The text is of a program without the semicolon, and that has the same value. -/
theorem closedSource_opened : ∃ e, parseExpr (.ofOptions 0 {}) closedSource = .ok e ∧
    parseExpr (.ofOptions 0 {}) (e.render .formula) = .ok e.opened ∧ ∃ w, ∃ N, ∀ m ≥ N,
      e.opened.evaluate postponingHosts m (.ofOptions 0 {}) (World.start [] 0) =
        (ended (.ok (.string "s")), w) := by
  obtain ⟨e, he, hfacts⟩ := exists_ok_of_map (show (parseExpr (.ofOptions 0 {})
    closedSource).toOption.map (fun e =>
      (decide (e.opened.Every (Expr.isUnambiguous (.ofOptions 0 {}) ·)),
        string? (e.evaluate postponingHosts 9 (.ofOptions 0 {}) (World.start [] 0)).1)) =
    some (true, some "s") by decide +kernel)
  simp only [Prod.mk.injEq, decide_eq_true_eq] at hfacts
  obtain ⟨hopened, hvalue⟩ := hfacts
  rcases hrun : e.evaluate postponingHosts 9 (.ofOptions 0 {}) (World.start [] 0) with ⟨o, w⟩
  rw [hrun] at hvalue
  cases of_string? hvalue
  obtain ⟨hrender, hsame⟩ := parseExpr_render_opened he hopened
  refine ⟨e, he, hrender, w, (hsame postponingHosts _ (.ok (.string "s")) _ w).1.mpr
    ⟨9, fun m hm => ?_⟩⟩
  -- more levels than nine change nothing
  have hnine := (engine_below postponingHosts hm).enter (.ofOptions 0 {}) 0 e.compile
    (World.start [] 0)
  exact (hnine (by rw [show (engine postponingHosts 9).enter _ 0 e.compile _ = _ from hrun]; simp)).trans
    hrun

/-- The text of a member of a number is not read: its point is read as a part of the number. -/
theorem member_unread : ∃ e, parseExpr (.ofOptions 0 {}) "(1).x" = .ok e ∧
    e.render .formula = "1.x" ∧ ∀ e', parseExpr (.ofOptions 0 {}) (e.render .formula) ≠ .ok e' := by
  obtain ⟨e, he, hfacts⟩ := exists_ok_of_map (show (parseExpr (.ofOptions 0 {})
    "(1).x").toOption.map (fun e => (e.render .formula,
      (parseExpr (.ofOptions 0 {}) (e.render .formula)).isOk)) = some ("1.x", false)
    by decide +kernel)
  simp only [Prod.mk.injEq] at hfacts
  obtain ⟨htext, hfails⟩ := hfacts
  refine ⟨e, he, htext, fun e' h => ?_⟩
  rw [h] at hfails
  cases hfails

end Formula
