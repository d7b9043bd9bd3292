import Formula.Text.Units
import Mathlib.Data.List.Basic

/-!
# Characters and their units

A text has as many 16-bit units as characters, and one more for each character beyond the basic
plane. What a search for one character finds before it is the text up to its first occurrence.
-/

namespace Formula.Text

/-- How many characters lie beyond the basic plane. -/
def beyond (cs : List Char) : ℕ := cs.countP (0x10000 ≤ ·.toNat)

theorem beyond_cons (c : Char) (cs : List Char) : beyond (c :: cs) + 1 = beyond cs + units16 c := by
  unfold beyond units16
  rw [List.countP_cons]
  by_cases h : c.toNat < 0x10000
  · rw [if_neg (by simpa using h), if_pos h]
  · rw [if_pos (by simpa using h), if_neg h]

theorem length16_eq (cs : List Char) : length16 cs = cs.length + beyond cs := by
  have hfold : ∀ n, cs.foldl (fun n c => n + units16 c) n = n + (cs.length + beyond cs) := by
    induction cs with
    | nil => exact fun n => rfl
    | cons c cs ih =>
      intro n
      have hcount := beyond_cons c cs
      rw [List.foldl_cons, ih, List.length_cons]
      omega
  simpa [length16] using hfold 0

theorem searchFrom_single {c : Char} {before after : List Char} (h : c ∉ before) (acc : List Char) :
    searchFrom [c] acc (before ++ c :: after) = some (before.reverse ++ acc) := by
  induction before generalizing acc with
  | nil => simp [searchFrom]
  | cons d before ih =>
    have hne : c ≠ d := fun heq => h (heq ▸ List.mem_cons_self)
    have hstep : searchFrom [c] acc (d :: (before ++ c :: after)) =
        searchFrom [c] (d :: acc) (before ++ c :: after) := by
      rw [searchFrom, if_neg (by simp [hne])]
    rw [List.cons_append, hstep, ih fun hmem => h (List.mem_cons_of_mem d hmem)]
    simp

/-- What stands before the first occurrence of a character. -/
theorem beforeFirst?_single {c : Char} {before after : List Char} (h : c ∉ before) :
    beforeFirst? [c] (before ++ c :: after) = some before := by
  rw [beforeFirst?, searchFrom_single h, Option.map_some, List.append_nil, List.reverse_reverse]

end Formula.Text
