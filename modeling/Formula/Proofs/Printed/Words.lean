import Formula.Proofs.Language.Extended
import Formula.Proofs.Printed.Lexes

/-!
# Words and symbols of a language

What an expression is printed with: the symbols have to be enabled, and the words have to be read
as operators, as words of a case block and as truth values. The standard language with all but the
conversions is such a language.
-/

namespace Formula

open Lexer

/-- The text of a truth value. -/
def truthName (b : Bool) : String := if b then "true" else "false"

/-- A language in which what is printed is read as it is meant. -/
structure Language.Writes (lang : Language Value) : Prop where
  enabled : ∀ op ∈ operatorSymbols ++ ["!", ".", "[", "]", "()="], lang.isOperatorEnabled op = true
  word : ∀ op ∈ ["and", "or", "in", "as"], lang.isOperatorEnabled op = true →
    nameKind lang op = .op op
  connective : ∀ c : Connective, lang.isOperatorEnabled c.symbol = true
  keyword : ∀ w : Keyword, nameKind lang w.text = .keyword w
  undefined : nameKind lang "undefined" = .undefined
  sign : ∀ op ∈ ["-", "+", "!"], (lang.unaryOp? op).isSome
  named : ∀ op, (lang.unaryOp? op).isSome → op ∉ ["-", "+", "!"] →
    isIdentifier op = true ∧ nameKind lang op = .op op
  truth : ∀ b, nameKind lang (truthName b) = .constant (truthName b) ∧
    lang.constant? (truthName b) = some (.bool b)

namespace Record

variable {α : Type}

theorem mem_names_of_insert {r : Record α} {name key : String} {v : α}
    (h : (get? (insert r key v) name).isSome) : (get? r name).isSome ∨ name = key := by
  by_cases hk : name = key
  · exact .inr hk
  · rw [get?_insert_of_ne r v hk] at h
    exact .inl h

theorem mem_names_of_ofPairs {pairs : List (String × α)} {name : String}
    (h : (get? (ofPairs pairs) name).isSome) : name ∈ pairs.map Prod.fst := by
  have hfold : ∀ (pairs : List (String × α)) (r : Record α),
      (get? (pairs.foldl (fun r p => insert r p.1 p.2) r) name).isSome →
        (get? r name).isSome ∨ name ∈ pairs.map Prod.fst := by
    intro pairs
    induction pairs with
    | nil => exact fun r hr => .inl hr
    | cons p rest ih =>
      intro r hr
      rw [List.map_cons, List.mem_cons]
      rcases ih _ hr with hr | hr
      · rcases mem_names_of_insert hr with hr | hr
        · exact .inl hr
        · exact .inr (.inl hr)
      · exact .inr (.inr hr)
  exact (hfold pairs [] h).resolve_left (by simp)

end Record

namespace Language

theorem natives_names {id : Nat} {table : List (String × Action)} {name : String}
    (h : (Record.get? (natives id table) name).isSome) : name ∈ table.map Prod.fst := by
  have hmem := Record.mem_names_of_ofPairs h
  rw [List.map_map] at hmem
  obtain ⟨⟨⟨n, action⟩, i⟩, hp, rfl⟩ := List.mem_map.mp hmem
  exact List.mem_map.mpr ⟨(n, action), List.fst_mem_of_mem_zipIdx hp, rfl⟩

variable (id : Nat)

theorem unaryOp?_isSome_iff {op : String} :
    ((ofOptions id {}).unaryOp? op).isSome ↔ op ∈ Operation.unaryTable.map Prod.fst := by
  rw [unaryOp?_standard, ← operations_names]
  exact ⟨natives_names, natives_isSome⟩

theorem isOperatorEnabled_default (op : String) :
    (ofOptions id {}).isOperatorEnabled op = ({} : Options).isEnabled (category op) := rfl

/-- The names of the unary operators are words that are enabled. -/
theorem unaryTable_words : ∀ op ∈ Operation.unaryTable.map Prod.fst, op ∉ ["-", "+", "!"] →
    isWord op.toList = true ∧ ({} : Options).isEnabled (category op) = true := by
  decide

theorem nameKind_operator {op : String} (hword : isWord op.toList = true)
    (hop : wordOperators.contains op = true ∨ op ∈ Operation.unaryTable.map Prod.fst)
    (henabled : ({} : Options).isEnabled (category op) = true) :
    nameKind (ofOptions id {}) op = .op op := by
  have hnamed : (wordOperators.contains op || ((ofOptions id {}).unaryOp? op).isSome) = true := by
    rw [Bool.or_eq_true]
    exact hop.imp_right (unaryOp?_isSome_iff id).mpr
  rw [nameKind, if_pos hword, classify]
  simp only [hnamed, isOperatorEnabled_default, henabled, Bool.and_self, if_true]

theorem unaryOp?_eq_false {op : String} (h : op ∉ Operation.unaryTable.map Prod.fst) :
    ((ofOptions id {}).unaryOp? op).isSome = false :=
  Bool.eq_false_iff.mpr fun hop => h ((unaryOp?_isSome_iff id).mp hop)

theorem writes_default : (ofOptions id {}).Writes where
  enabled := by
    have h : ∀ op ∈ operatorSymbols ++ ["!", ".", "[", "]", "()="],
        ({} : Options).isEnabled (category op) = true := by decide
    exact h
  word := by
    have h : ∀ op ∈ ["and", "or", "in", "as"],
        isWord op.toList = true ∧ wordOperators.contains op = true := by decide
    exact fun op hop henabled => nameKind_operator id (h op hop).1 (.inl (h op hop).2) henabled
  connective c := by cases c <;> rfl
  keyword w := by
    have hplain : ((ofOptions id {}).unaryOp? w.text).isSome = false :=
      unaryOp?_eq_false id (by cases w <;> decide)
    cases w <;> rw [nameKind, if_pos (by decide), classify, hplain] <;> rfl
  undefined := by
    have hplain : ((ofOptions id {}).unaryOp? "undefined").isSome = false :=
      unaryOp?_eq_false id (by decide)
    rw [nameKind, if_pos (by decide), classify, hplain]
    rfl
  sign op hop := (unaryOp?_isSome_iff id).mpr (by revert op; decide)
  named op hop hne := by
    have hmem := (unaryOp?_isSome_iff id).mp hop
    obtain ⟨hword, henabled⟩ := unaryTable_words op hmem hne
    exact ⟨by simp [isIdentifier, hword], nameKind_operator id hword (.inr hmem) henabled⟩
  truth b := by
    have hplain : ((ofOptions id {}).unaryOp? (truthName b)).isSome = false :=
      unaryOp?_eq_false id (by cases b <;> decide)
    refine ⟨?_, by cases b <;> rfl⟩
    cases b <;> rw [nameKind, if_pos (by decide), classify, hplain] <;> rfl

end Language

end Formula
