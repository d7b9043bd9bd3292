import Formula.Machine
import Formula.Proofs.Values.Flow

/-!
# What traversals keep

A traversal only calls its function, on items of its array and on what earlier calls gave. So it
keeps every invariant of the world that these calls keep, and its result has every property that
the arguments have, that calls carry over and that data inherits.
-/

namespace Formula

namespace Machine

open Eval

variable {inv : World → Prop} {mild : EvalError → Prop} {V : Value → Prop}
  {inner : Engine} {depth : Nat} {f : Function Value}

section

variable (hV : Value.Hereditary V)
  (hf : ∀ {args}, (∀ v ∈ args, V v) → Keeps inv mild V (inner.call depth f args))

include hV hf

theorem itemCall_keeps {x : Value} (hx : V x) (i : Nat) :
    Keeps inv mild V (inner.call depth f [x, .number (Float.ofNat i)]) :=
  hf (List.forall_mem_cons.mpr ⟨hx, List.forall_mem_singleton.mpr (hV.number _)⟩)

theorem mapItems_keeps (i : Nat) {items : List Value} (hitems : ∀ v ∈ items, V v) :
    Keeps inv mild (fun vs => ∀ v ∈ vs, V v) (mapItems inner depth f i items) := by
  induction items generalizing i with
  | nil => exact Keeps.pure hitems
  | cons x rest ih =>
    obtain ⟨hx, hrest⟩ := List.forall_mem_cons.mp hitems
    refine Keeps.bind (itemCall_keeps hV hf hx i) fun y hy => ?_
    exact Keeps.bind (ih (i + 1) hrest) fun ys hys =>
      Keeps.pure (List.forall_mem_cons.mpr ⟨hy, hys⟩)

theorem filterItems_keeps (i : Nat) {items : List Value} (hitems : ∀ v ∈ items, V v) :
    Keeps inv mild (fun vs => ∀ v ∈ vs, V v) (filterItems inner depth f i items) := by
  induction items generalizing i with
  | nil => exact Keeps.pure hitems
  | cons x rest ih =>
    obtain ⟨hx, hrest⟩ := List.forall_mem_cons.mp hitems
    refine Keeps.bind (itemCall_keeps hV hf hx i) fun y _ => ?_
    refine Keeps.bind (ih (i + 1) hrest) fun kept hkept => Keeps.pure ?_
    split
    · exact List.forall_mem_cons.mpr ⟨hx, hkept⟩
    · exact hkept

theorem foldItems_keeps (i : Nat) {acc : Value} (hacc : V acc) {items : List Value}
    (hitems : ∀ v ∈ items, V v) : Keeps inv mild V (foldItems inner depth f i acc items) := by
  induction items generalizing i acc with
  | nil => exact Keeps.pure hacc
  | cons x rest ih =>
    obtain ⟨hx, hrest⟩ := List.forall_mem_cons.mp hitems
    have hargs : ∀ v ∈ [acc, x, .number (Float.ofNat i)], V v :=
      List.forall_mem_cons.mpr ⟨hacc, List.forall_mem_cons.mpr
        ⟨hx, List.forall_mem_singleton.mpr (hV.number _)⟩⟩
    exact Keeps.bind (hf hargs) fun y hy => ih (i + 1) hy hrest

end

/-- The function and the items of a traversal are arguments, or parts of one. -/
theorem traversalArguments_keeps (hV : Value.Hereditary V)
    (hmild : ∀ text, mild (.invalidArgument text)) (name : String) {args : List Value}
    (hargs : ∀ v ∈ args, V v) (arrayAt : Nat) :
    Meets (fun r => V (.function r.1) ∧ ∀ v ∈ r.2, V v) mild
      (traversalArguments name args arrayAt) := by
  unfold traversalArguments
  split
  · next f items hf hitems =>
    have hfunction : V (.function f) := hf ▸ Operation.arg_hereditary hV hargs 0
    have harray : V (.array items) := hitems ▸ Operation.arg_hereditary hV hargs arrayAt
    exact ⟨hfunction, hV.items harray⟩
  · exact hmild _
  · exact hmild _

theorem traverse_keeps (hV : Value.Hereditary V) (hmild : ∀ text, mild (.invalidArgument text))
    (hcall : ∀ {f args}, V (.function f) → (∀ v ∈ args, V v) →
      Keeps inv mild V (inner.call depth f args))
    (t : Traversal) {args : List Value} (hargs : ∀ v ∈ args, V v) :
    Keeps inv mild V (traverse inner depth t args) := by
  have hparts : ∀ name arrayAt, Keeps inv mild (fun r => V (.function r.1) ∧ ∀ v ∈ r.2, V v)
      (Eval.ofExcept (traversalArguments name args arrayAt)) :=
    fun name arrayAt => Keeps.ofExcept (traversalArguments_keeps hV hmild name hargs arrayAt)
  cases t with
  | map =>
    unfold traverse
    dsimp only
    split
    · exact Keeps.pure hV.undefined
    · refine Keeps.bind (hparts "map" 1) fun r hr => ?_
      exact Keeps.bind (mapItems_keeps hV (hcall hr.1) 0 hr.2) fun vs hvs =>
        Keeps.pure (hV.array hvs)
  | filter =>
    unfold traverse
    dsimp only
    split
    · exact Keeps.pure hV.undefined
    · refine Keeps.bind (hparts "filter" 1) fun r hr => ?_
      exact Keeps.bind (filterItems_keeps hV (hcall hr.1) 0 hr.2) fun vs hvs =>
        Keeps.pure (hV.array hvs)
  | fold =>
    unfold traverse
    dsimp only
    split
    · exact Keeps.pure hV.undefined
    · refine Keeps.bind (hparts "fold" 2) fun r hr => ?_
      exact foldItems_keeps hV (hcall hr.1) 0 (Operation.arg_hereditary hV hargs 1) hr.2

end Machine

end Formula
