import Formula.Proofs.Numbers.Grammar
import Formula.Value.Text

/-!
# Arrays as numbers

The text of an array of two or more items has a comma, which no number has, so such an array is NaN
like its text. An array of one item has the text of the item, except that undefined and null are
empty there; conversion to a number takes the text of the item, and `undefined` and `null` are no
numbers. So an array converts to the number its text converts to unless it holds nothing but one of
these two.
-/

namespace Formula

/-! ### Texts with a comma -/

namespace Numeral

/-- The characters of a numeral are digits and a few others. -/
theorem read?_eq_none {cs : List Char} {c : Char} (hc : c ∈ cs) (hdigit : isDecimalDigit c = false)
    (hother : c ∉ ['.', 'e', 'E', '+', '-']) : read? cs = none := by
  rw [Option.eq_none_iff_forall_ne_some]
  intro n hn
  obtain ⟨mantissa, power, hmantissa, hpower, rfl⟩ :=
    read?_isSome_iff.mp (Option.isSome_of_eq_some hn)
  rcases mem_decimal hmantissa hpower hc with h | h
  · exact absurd h (by simp [hdigit])
  · exact hother h

end Numeral

namespace Text

theorem mem_dropWhile {p : Char → Bool} {cs : List Char} {c : Char} (hc : c ∈ cs)
    (hp : p c = false) : c ∈ cs.dropWhile p := by
  rw [← List.takeWhile_append_dropWhile (p := p) (l := cs)] at hc
  rcases List.mem_append.mp hc with h | h
  · exact absurd (List.mem_takeWhile_imp h) (by simp [hp])
  · exact h

/-- Only blanks are lost at the ends. -/
theorem mem_trim {cs : List Char} {c : Char} (hc : c ∈ cs) (hblank : isBlank c = false) :
    c ∈ trim cs := by
  unfold trim
  rw [List.mem_reverse]
  exact mem_dropWhile (List.mem_reverse.mpr (mem_dropWhile hc hblank)) hblank

end Text

namespace Number

/-- Behind the mark of a radix a comma is no digit. -/
theorem radixDigits?_comma {digits ds : List Char} {radix : ℕ} {mark : Char}
    (hmark : (mark, digits) ∈ radices) (h : Marks digits radix) (hc : ',' ∈ ds) :
    radixDigits? radix ds = none := by
  rw [Option.eq_none_iff_forall_ne_some]
  intro values hvalues
  have hall := (radixDigits?_isSome_iff h ds).mp (Option.isSome_of_eq_some hvalues)
  have hfree : ∀ p ∈ radices, ',' ∉ p.2 := by decide
  exact hfree _ hmark (hall _ hc)

/-- No number is written with a comma. -/
theorem parseChars_comma {cs : List Char} (h : ',' ∈ cs) : parseChars cs = nan := by
  have htrim := Text.mem_trim h (by decide)
  unfold parseChars
  generalize Text.trim cs = text at htrim
  split
  · cases htrim
  · split
    · next radix ds hradix =>
      obtain ⟨mark, digits, hmark, rfl⟩ := radixPrefix?_eq_some hradix
      obtain ⟨radix', hradix', hmarks⟩ := radixPrefix?_mark hmark ds
      obtain rfl : radix' = radix := by simpa [hradix] using hradix'.symm
      have hne : ∀ p ∈ radices, ',' ≠ p.1 := by decide
      have hds : ',' ∈ ds := by
        simpa [hne _ hmark] using htrim
      rw [radixDigits?_comma hmark hmarks hds]
      split <;> rfl
    · obtain ⟨sign, hsign, hsplit⟩ := eq_sign_append text
      have hrest : ',' ∈ (splitSign text).2 := by
        rw [hsplit] at htrim
        rcases List.mem_append.mp htrim with hc | hc
        · exact absurd (sign_not_mem hsign hc) (by decide)
        · exact hc
      have hname : (splitSign text).2 ≠ "Infinity".toList := fun heq => by
        rw [heq] at hrest
        exact absurd hrest (by decide)
      rw [unsigned?, if_neg hname, Numeral.read?_eq_none hrest (by decide) (by decide)]
      rfl

end Number

/-! ### Arrays -/

namespace Value

theorem itemTexts_cons (v : Value) (items : List Value) :
    ∃ t, itemTexts (v :: items) = t :: itemTexts items := by
  cases v <;> exact ⟨_, rfl⟩

/-- The texts of two or more items have a comma between them. -/
theorem comma_mem_text (v w : Value) (items : List Value) :
    ',' ∈ (text (.array (v :: w :: items))).toList := by
  obtain ⟨s, hs⟩ := itemTexts_cons v (w :: items)
  obtain ⟨t, ht⟩ := itemTexts_cons w items
  rw [text, String.toList_intercalate, hs, ht, List.map_cons, List.map_cons,
    List.intercalate_cons_cons]
  simp

/-- A single item has its own text in an array, unless it is empty there. -/
theorem text_single {v : Value} (hundefined : v ≠ .undefined) (hnull : v ≠ .null) :
    text (.array [v]) = v.text := by
  have hitem : itemTexts [v] = [v.text] := by
    cases v <;> first | rfl | contradiction
  rw [text, hitem]
  rfl

/-- An array converts to the number that its text converts to, exactly unless it is a single
undefined or null. -/
theorem toNumber_array_iff (items : List Value) :
    (Value.array items).toNumber = Number.parse (Value.array items).text ↔
      items ≠ [.undefined] ∧ items ≠ [.null] := by
  match items with
  | [] => exact ⟨fun _ => ⟨nofun, nofun⟩, fun _ => rfl⟩
  | [v] =>
    constructor
    · intro h
      constructor <;> rintro ⟨⟩ <;> exact absurd (congrArg Float.isNaN h) (by decide)
    · rintro ⟨hundefined, hnull⟩
      rw [text_single (fun h => hundefined (h ▸ rfl)) fun h => hnull (h ▸ rfl)]
      rfl
  | v :: w :: items =>
    refine ⟨fun _ => ⟨nofun, nofun⟩, fun _ => ?_⟩
    rw [Number.parse, Number.parseChars_comma (comma_mem_text v w items)]
    rfl

/-- Of an array with a single null the text is empty and converts to zero, but the array does not. -/
theorem single_null_not_text :
    (Value.array [.null]).text = "" ∧ Number.parse (Value.array [.null]).text = 0.0 ∧
      (Value.array [.null]).toNumber.isNaN = true ∧
      (Value.array [.null]).toNumber ≠ Number.parse (Value.array [.null]).text := by
  refine ⟨by decide, by decide, by decide, fun h => ?_⟩
  exact absurd (congrArg Float.isNaN h) (by decide)

end Value

end Formula
