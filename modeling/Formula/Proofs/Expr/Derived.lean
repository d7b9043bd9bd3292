import Formula.Evaluation
import Formula.Proofs.Expr.Folding
import Formula.Proofs.Machine.Safety

/-!
# Expressions derived from parsed ones

Simplifying keeps an expression sound: operators are replaced by the values that calls give, and
everything else stays in place. So does substituting, hence every expression that parsing,
simplifying and substituting give in whatever order is sound.
-/

namespace Formula

open Eval

/-- An evaluation is safe, whatever the number of levels. -/
def Eval.Judgement.safe (g : Guard) : Judgement where
  holds good x := ∀ n, Safe g good (x n)
  pure h _ := Keeps.pure h
  bind hx hf n := Keeps.bind (hx n) fun a ha => hf a ha n

namespace Expr

theorem knownVariable?_obeys {lang : Language Value} {scope : Bindings}
    (hscope : Bindings.Obeys .sound scope) {name : String} {v : Value}
    (h : knownVariable? lang scope name = some v) : v.Obeys .sound := by
  unfold knownVariable? at h
  split at h
  · cases h
  · split at h
    · cases h
    · cases h
    · exact hscope.get? h

theorem applied_safe {inner : Engine} (hin : inner.Sound .sound) {op : String}
    {entry : Option Native} (he : entry ≠ none) {args : List Value}
    (hargs : ∀ v ∈ args, v.Obeys .sound) :
    Safe .sound (Value.Obeys .sound) (applied (inner.call 0) op entry args) := by
  have hop : Meets (Function.Obeys .sound) Guard.sound.Mild (Machine.operator op entry) := by
    cases entry with
    | none => exact (he rfl).elim
    | some f => exact .native trivial
  exact Keeps.bind (Keeps.ofExcept hop) fun f hf => hin.call hf hargs

/-- Folding an expression that obeys the sound guard is safe, and gives one that obeys it. -/
theorem folds_safe (lang : Language Value) {inner : Engine} (hin : inner.Sound .sound) :
    Folds (.safe .sound) (Value.Obeys .sound)
      (fun i => i.isStructural = false ∧ i.Obeys .sound lang)
      (fun i => i.isStructural = false ∧ i.Obeys .sound lang) (fun _ => inner.call 0) lang where
  hereditary := Value.Obeys.hereditary .sound
  known h := h.2.ofLiteral
  literal h := ⟨rfl, .literal h⟩
  «variable» {name} h n := by
    refine Keeps.mono safe_scope fun b hb r hr => ?_
    cases r with
    | none => exact h
    | some v => exact knownVariable?_obeys hb hr
  unary h := by
    refine ⟨h, fun hv n => applied_safe hin (fun hnone => ?_) (List.forall_mem_singleton.mpr hv)⟩
    exact h.2.entry trivial (congrArg some hnone)
  binary {op} h := by
    refine ⟨h, fun ha hb n => applied_safe hin (fun hnone => h.2.entry trivial ?_) ?_⟩
    · have hne : op ∉ Instruction.connectives := by
        simpa [Instruction.isStructural] using h.1
      simp only [Instruction.called?, if_neg hne, hnone]
    · exact List.forall_mem_cons.mpr ⟨ha, List.forall_mem_singleton.mpr hb⟩

theorem simplify_safe {hosts : Hosts} (hhosts : hosts.Sound .sound) (fuel : Nat)
    {lang : Language Value} {e : Expr} (he : e.Obeys .sound lang) :
    Safe .sound (Expr.Obeys .sound lang) (e.simplify hosts fuel lang) := by
  have hfolds := folds_safe lang (Machine.engine_sound (Guard.code_lawful True) hhosts fuel)
  exact Keeps.bind (fold_judged hfolds e he fuel) fun f hf => Keeps.pure (hfolds.expr hf)

theorem toFunction_safe {hosts : Hosts} (hhosts : hosts.Sound .sound) (fuel : Nat)
    {lang : Language Value} (hlang : lang.Obeys .sound) {e : Expr} (he : e.Obeys .sound lang)
    (params : List String) :
    Safe .sound (Function.Obeys .sound) (e.toFunction hosts fuel lang params) := by
  refine Keeps.bind (simplify_safe hhosts fuel he) fun e' he' => ?_
  have hcode := compile_sound he'
  refine Keeps.bind safe_freshId fun id _ => Keeps.bind safe_scope fun scope hscope => ?_
  exact Keeps.pure (.prepared (.mk hcode.1 hcode.2 hscope hlang))

/-- The expressions that come of parsed ones in a language. -/
inductive Derived (lang : Language Value) : Expr → Prop
  | parsed {source : String} {e : Expr} : parseExpr lang source = .ok e → Derived lang e
  | simplified {hosts : Hosts} {fuel : Nat} {w w' : World} {e e' : Expr} :
      hosts.Sound .sound → w.Sound .sound → e.simplify hosts fuel lang w = (.ok e', w') →
      Derived lang e → Derived lang e'
  | substituted {name : String} {e new : Expr} :
      Derived lang e → Derived lang new → Derived lang (substitute name new e)

theorem Derived.obeys {lang : Language Value} (hlang : lang.Extended .sound) {e : Expr}
    (h : e.Derived lang) : e.Obeys .sound lang := by
  induction h with
  | parsed h => exact parseExpr_obeys hlang h
  | @simplified hosts fuel w w' e e' hhosts hw h _ ih =>
    have hend := (simplify_safe hhosts fuel ih w hw).2
    rw [h] at hend
    exact hend
  | substituted _ _ he hnew => exact substitute_all _ hnew _ he

end Expr

end Formula
