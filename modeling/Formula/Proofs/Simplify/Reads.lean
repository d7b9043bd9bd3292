import Formula.Proofs.Expr.Folding
import Formula.Proofs.Simplify.Preserved

/-!
# What simplifying does to reads

Every read of a variable that is known is replaced by its value, wherever it stands: also after an
assignment to that variable, and in the body of a function with a parameter of that name. So a
program that assigns a known variable is simplified to one that reads the value it had before.
-/

namespace Formula

open Eval Machine Waiting

/-- An evaluation finds something good with some variables in scope, whatever the number of
levels. -/
def Eval.Judgement.finds (b : Bindings) : Judgement where
  holds good x := ∀ n, Finds b good (x n)
  pure h _ := .pure h
  bind hx hf n := (hx n).bind fun a ha => hf a ha n

theorem Eval.Scoped.finds {α : Type} {b : Bindings} {x : Eval α} (hx : Scoped x) :
    Finds b (fun _ => True) x := by
  intro w a w₁ hw hxw
  have hscope := hx w
  rw [hxw] at hscope
  exact ⟨hscope.trans hw, trivial⟩

end Formula
