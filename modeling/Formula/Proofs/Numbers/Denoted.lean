import Formula.Proofs.Numbers.Grammar
import Formula.Proofs.Numbers.Negation

/-!
# What the text of a number denotes

A decimal with a sign denotes a rational number. The text of a finite number, in either notation
and with zeros filled up on either side, denotes exactly the number of its shortest digits in
scientific notation. That number rounds to the finite number again.
-/

namespace Formula

/-- A number that is negative or not. -/
def signed (negative : Bool) (v : ℚ) : ℚ := if negative then -v else v

/-- The number that a decimal with a sign denotes. -/
def denoted? (cs : List Char) : Option ℚ :=
  (Numeral.read? (Number.splitSign cs).2).map fun n =>
    signed (Number.splitSign cs).1 n.value.value

/-- One digit before the point and the others behind it, times a power of ten. -/
def scientificValue (ds : List Char) (e : ℤ) : ℚ :=
  digitsValue ds / 10 ^ (ds.length - 1) * 10 ^ e

namespace Decimal

/-- A decimal is its digits in scientific notation, the exponent counted from the first of them. -/
theorem value_eq_scientific (d : Decimal) :
    d.value = scientificValue d.digits (d.pointAfter - 1) := by
  have hlength : 0 < d.digits.length := List.length_pos_iff.mpr (areDigits_toDigits _).1
  have hexponent : d.pointAfter - 1 = ((d.digits.length - 1 : ℕ) : ℤ) + d.exponent := by
    unfold pointAfter
    omega
  rw [scientificValue, hexponent, zpow_add₀ (by norm_num), zpow_natCast, ← mul_assoc,
    div_mul_cancel₀ _ (by positivity), digits, digitsValue_toDigits, value]

end Decimal

namespace Spelling

variable {s : Spelling}

/-- The sign of a number, as its text has it. -/
def signText (negative : Bool) : List Char := if negative then ['-'] else []

theorem isSign_signText (negative : Bool) : IsSign (signText negative) := by
  cases negative <;> simp [IsSign, signText]

theorem signFree_chars (h : s.Proper) : SignFree s.chars := by
  obtain ⟨c, rest, hchars, hc⟩ := chars_eq_cons h
  rw [hchars]
  rintro _ ⟨⟩
  constructor <;> rintro rfl <;> exact absurd hc (by decide)

theorem splitSign_chars (h : s.Proper) (negative : Bool) :
    Number.splitSign (signText negative ++ s.chars) = (negative, s.chars) := by
  rw [Number.splitSign_append (isSign_signText negative) (signFree_chars h)]
  cases negative <;> rfl

/-- A sign and a spelling denote the number of the numeral. -/
theorem denoted?_chars (h : s.Proper) (negative : Bool) :
    denoted? (signText negative ++ s.chars) = some (signed negative s.numeral.value.value) := by
  rw [denoted?, splitSign_chars h, read_chars h, Option.map_some]

theorem converts_chars (h : s.Proper) (negative : Bool) :
    Converts (signText negative ++ s.chars) := by
  have hread : (Numeral.read? s.chars).isSome := by rw [read_chars h]; rfl
  obtain ⟨mantissa, power, hmantissa, hpower, heq⟩ := Numeral.read?_isSome_iff.mp hread
  rw [heq]
  exact .decimal (isSign_signText negative) hmantissa hpower

/-- A sign and a spelling convert to the double of the numeral or to its opposite. -/
theorem parseChars_signed (h : s.Proper) (negative : Bool) :
    Number.parseChars (signText negative ++ s.chars) =
      if negative then -s.numeral.value.toFloat else s.numeral.value.toFloat := by
  have hmem : ∀ c ∈ signText negative ++ s.chars,
      isDecimalDigit c = true ∨ c ∈ ['.', 'e', 'E', '+', '-'] := fun c hc => by
    rcases List.mem_append.mp hc with hc | hc
    · exact .inr (Number.sign_not_mem (isSign_signText negative) hc)
    · exact (mem_chars h hc).imp_right fun hc => by
        simp only [List.mem_cons, List.not_mem_nil, or_false] at hc ⊢
        tauto
  have hblank : ∀ c ∈ signText negative ++ s.chars, Text.isBlank c = false := fun c hc => by
    rcases hmem c hc with hc | hc
    · exact (digit_cases hc).2.2
    · simp only [List.mem_cons, List.not_mem_nil, or_false] at hc
      rcases hc with rfl | rfl | rfl | rfl | rfl <;> decide
  have hname : s.chars ≠ "Infinity".toList := fun hchars => by
    have : 'I' ∈ s.chars := hchars ▸ (by simp)
    exact ne_letter h this (by decide)
  have hradix : Number.radixPrefix? (signText negative ++ s.chars) = none := by
    rw [Option.eq_none_iff_forall_ne_some]
    rintro ⟨radix, ds⟩ hannounced
    obtain ⟨mark, digits, hmark, htext⟩ := Number.radixPrefix?_eq_some hannounced
    obtain ⟨hdigit, hother, -⟩ := Number.mark_not_mem hmark
    rcases hmem mark (by rw [htext]; simp) with hc | hc
    · exact absurd hc (by simp [hdigit])
    · exact hother hc
  have hne : signText negative ++ s.chars ≠ [] := by
    obtain ⟨c, rest, hchars, -⟩ := chars_eq_cons h
    simp [hchars]
  unfold Number.parseChars
  rw [Text.trim_unblank hblank]
  split
  · next hnil => exact (hne hnil).elim
  · rw [hradix, splitSign_chars h]
    simp only [Number.unsigned?, if_neg hname, read_chars h, Option.map_some]

end Spelling

namespace Number

variable {x : Float} {e : Exact}

/-- The text of a finite number other than zero is a decimal that denotes the shortest digits of
the number in scientific notation, and it converts to the number again. -/
theorem text_denotes (hx : decode? x = some e) (hmantissa : e.mantissa ≠ 0) :
    Converts (text x).toList ∧
      denoted? (text x).toList = some (signed e.negative
        (scientificValue (e.shortest .up).digits ((e.shortest .up).pointAfter - 1))) ∧
      parse (text x) = x := by
  obtain ⟨negative, M, E⟩ := e
  obtain ⟨hc, hE, hfinite⟩ := Rounding.eq_finite hx hmantissa
  obtain ⟨s, hs, htext, hvalue⟩ := Decimal.text_spells (Exact.shortest .up ⟨negative, M, E⟩)
  have hchars : (text x).toList = Spelling.signText negative ++ s.chars := by
    unfold text
    rw [hx]
    dsimp only
    rw [if_neg hmantissa, String.toList_ofList, htext]
    rfl
  refine ⟨hchars ▸ Spelling.converts_chars hs negative, ?_, ?_⟩
  · rw [hchars, Spelling.denoted?_chars hs, hvalue, Decimal.value_eq_scientific]
  · have hnear := Exact.near_shortest (x := ⟨negative, M, E⟩) .up hc.pos
    rw [← hvalue] at hnear
    rw [parse, hchars, Spelling.parseChars_signed hs, Decimal.toFloat_eq hc hE hnear, hfinite]
    cases negative
    · rfl
    · exact Rounding.neg_finite false hc hE

/-- A number below the least that is written without a power of ten. -/
theorem small_denotes :
    decode? (-1.5e-7) = some ⟨true, 5666839779443574, -75⟩ ∧ text (-1.5e-7) = "-1.5e-7" ∧
      denoted? "-1.5e-7".toList = some (-scientificValue ['1', '5'] (-7)) ∧
      parse "-1.5e-7" = -1.5e-7 := by
  have hdecode : decode? (-1.5e-7) = some ⟨true, 5666839779443574, -75⟩ := by decide +kernel
  have htext : text (-1.5e-7) = "-1.5e-7" := by decide +kernel
  have hshortest : Exact.shortest .up ⟨true, 5666839779443574, -75⟩ = ⟨15, -8⟩ := by decide +kernel
  obtain ⟨-, hdenoted, hparse⟩ := text_denotes hdecode (by decide)
  rw [htext] at hdenoted hparse
  rw [hshortest] at hdenoted
  exact ⟨hdecode, htext, hdenoted, hparse⟩

end Number

end Formula
