import Formula.Text.Position
import Mathlib.Data.List.Infix

/-!
# Places and byte offsets

A position is found by counting lines and columns over what stands before it, a byte offset by
walking the text again until line and column are reached. The two agree: the walk to the position
after a part of the text passes just the bytes of that part, since no shorter part leads as far.
-/

namespace Formula

/-! ### Bytes -/

/-- How many bytes a text takes. -/
def byteLength : List Char → Nat
  | [] => 0
  | c :: cs => c.utf8Size + byteLength cs

@[simp] theorem byteLength_nil : byteLength [] = 0 := rfl

@[simp] theorem byteLength_cons (c : Char) (cs : List Char) :
    byteLength (c :: cs) = c.utf8Size + byteLength cs := rfl

@[simp] theorem byteLength_append (a b : List Char) :
    byteLength (a ++ b) = byteLength a + byteLength b := by
  induction a with
  | nil => simp
  | cons c cs ih =>
    simp only [List.cons_append, byteLength_cons, ih]
    omega

theorem byteLength_toList (s : String) : byteLength s.toList = s.utf8ByteSize := by
  have hencode : ∀ cs : List Char, cs.utf8Encode.size = byteLength cs := by
    intro cs
    induction cs with
    | nil => simp
    | cons c cs ih =>
      rw [List.utf8Encode_cons, ByteArray.size_append, ih, byteLength_cons]
      simp [List.utf8Encode]
  rw [← hencode, String.utf8Encode_toList, String.size_toByteArray]

theorem byteLength_eq_zero {cs : List Char} : byteLength cs = 0 ↔ cs = [] := by
  cases cs with
  | nil => simp
  | cons c cs =>
    have hc : 0 < c.utf8Size := c.utf8Size_pos
    rw [byteLength_cons]
    constructor
    · omega
    · exact fun h => by cases h

/-- No two beginnings of a text take equally many bytes. -/
theorem append_inj_of_byteLength {a b x y : List Char} (h : a ++ x = b ++ y)
    (hlength : byteLength a = byteLength b) : a = b ∧ x = y := by
  obtain ⟨mid, rfl, rfl⟩ | ⟨mid, rfl, rfl⟩ := List.append_eq_append_iff.mp h
  · have hmid : mid = [] := by
      rw [byteLength_append] at hlength
      exact byteLength_eq_zero.mp (by omega)
    simp [hmid]
  · have hmid : mid = [] := by
      rw [byteLength_append] at hlength
      exact byteLength_eq_zero.mp (by omega)
    simp [hmid]

/-- Whether a text stands between two byte offsets of a source; both are boundaries of
characters. -/
def Cuts (source : List Char) (start stop : Nat) (text : List Char) : Prop :=
  ∃ before rest, source = before ++ (text ++ rest) ∧ byteLength before = start ∧
    byteLength (before ++ text) = stop

namespace Cuts

variable {source text text' : List Char} {start stop : Nat}

theorem le (h : Cuts source start stop text) : start ≤ stop := by
  obtain ⟨before, rest, -, rfl, rfl⟩ := h
  simp

/-- The offsets determine the text. -/
theorem unique (h : Cuts source start stop text) (h' : Cuts source start stop text') :
    text = text' := by
  obtain ⟨before, rest, rfl, rfl, rfl⟩ := h
  obtain ⟨before', rest', heq, hstart, hstop⟩ := h'
  obtain ⟨rfl, hrest⟩ := append_inj_of_byteLength heq hstart.symm
  simp only [byteLength_append, Nat.add_left_cancel_iff] at hstop
  exact (append_inj_of_byteLength hrest hstop.symm).1

end Cuts

/-! ### Positions -/

namespace Position

theorem after_cons (p : Position) (c : Char) (cs : List Char) :
    p.after (c :: cs) = (p.next c).after cs := rfl

theorem after_append (p : Position) (a b : List Char) :
    p.after (a ++ b) = (p.after a).after b :=
  List.foldl_append ..

/-- A text leads to a later line, or further on in the same one by a column for each character. -/
theorem after_advances (p : Position) (cs : List Char) :
    p.line < (p.after cs).line ∨
      (p.after cs).line = p.line ∧ (p.after cs).column = p.column + cs.length := by
  induction cs generalizing p with
  | nil => exact .inr ⟨rfl, rfl⟩
  | cons c cs ih =>
    rw [after_cons]
    have hrest := ih (p.next c)
    by_cases hc : c = '\n'
    · have hline : (p.next c).line = p.line + 1 := by simp [next, hc]
      omega
    · have hnext : (p.next c).line = p.line ∧ (p.next c).column = p.column + 1 := by
        simp [next, hc]
      rw [List.length_cons]
      omega

/-- The walk from a place to the position after a part of the text passes that part. -/
theorem walkTo_after (before rest : List Char) (l c offset : Nat) :
    walkTo (after ⟨l + 1, c + 1⟩ before).line (after ⟨l + 1, c + 1⟩ before).column
      (before ++ rest) l c offset = offset + byteLength before := by
  induction before generalizing l c offset with
  | nil => cases rest <;> simp [walkTo, after]
  | cons ch before ih =>
    have hfurther : ¬ ((after ⟨l + 1, c + 1⟩ (ch :: before)).line ≤ l + 1 ∧
        (after ⟨l + 1, c + 1⟩ (ch :: before)).column ≤ c + 1) := by
      have hadvances := after_advances ⟨l + 1, c + 1⟩ (ch :: before)
      simp only [List.length_cons] at hadvances
      omega
    rw [List.cons_append, walkTo, if_neg hfurther, after_cons, byteLength_cons, ← Nat.add_assoc]
    by_cases hc : ch = '\n'
    · rw [if_pos hc, next, if_pos hc]
      exact ih (l + 1) 0 (offset + ch.utf8Size)
    · rw [if_neg hc, next, if_neg hc]
      exact ih l (c + 1) (offset + ch.utf8Size)

theorem offset_after (before rest : List Char) :
    (first.after before).offset (before ++ rest) = byteLength before :=
  (walkTo_after before rest 0 0 0).trans (Nat.zero_add _)

/-- A part of a text is what stands between the offsets of the positions around it. -/
theorem cuts_after (before text rest : List Char) :
    Cuts (before ++ (text ++ rest)) ((first.after before).offset (before ++ (text ++ rest)))
      ((first.after (before ++ text)).offset (before ++ (text ++ rest))) text := by
  refine ⟨before, rest, rfl, (offset_after before _).symm, ?_⟩
  rw [← List.append_assoc]
  exact (offset_after (before ++ text) rest).symm

end Position

end Formula
