import Formula.Json.Printer
import Formula.Json.Reader
import Formula.Proofs.Numbers.Integral

/-!
# Numbers in documents

A document spells its numbers with digits. The reader takes a spelling up to its end if nothing
behind it continues it, and if no digit stands behind a leading zero. An integer is spelled without
fraction and power of ten, and any other number with one of them; so both come back as what they
were, a zero with its sign.
-/

namespace Formula

/-! ### Digits -/

theorem digitChar_eq_zero : ∀ n < 10, Nat.digitChar n = '0' → n = 0 := by
  decide

/-- Only zero starts with the digit zero. -/
theorem toDigits_head {n : ℕ} (h : (Nat.toDigits 10 n).head? = some '0') : n = 0 := by
  induction n using Nat.strongRecOn with
  | ind n ih =>
    by_cases hsmall : n < 10
    · rw [Nat.toDigits_of_lt_base hsmall] at h
      exact digitChar_eq_zero n hsmall (Option.some.inj h)
    · rw [Nat.toDigits_of_base_le (by decide) (by omega),
        List.head?_append_of_ne_nil _ Nat.toDigits_ne_nil] at h
      have hzero : n / 10 = 0 := ih (n / 10) (by omega) h
      omega

namespace Spelling

variable {s : Spelling}

/-- No digit stands behind a leading zero. -/
def Strict (s : Spelling) : Prop := s.whole.head? = some '0' → s.whole.length = 1

/-- The power of ten, if one is written. -/
def power? (s : Spelling) : Option ℤ :=
  s.power.map fun p => if p.1 then -(digitsValue p.2 : ℤ) else digitsValue p.2

theorem power?_getD (s : Spelling) : s.power?.getD 0 = s.exponent := by
  unfold power? exponent
  cases s.power <;> rfl

/-- Strictness can be seen in the text. -/
theorem strict_of_chars (h : s.Proper)
    (hchars : ∀ c rest, s.chars = '0' :: c :: rest → isDecimalDigit c = false) : s.Strict := by
  intro hhead
  cases hwhole : s.whole with
  | nil =>
    rw [hwhole] at hhead
    cases hhead
  | cons d more =>
    rw [hwhole] at hhead
    obtain rfl : d = '0' := Option.some.inj hhead
    cases more with
    | nil => rfl
    | cons c more =>
      have hdigit : isDecimalDigit c = true := h.whole.2 c (by rw [hwhole]; simp)
      have hother : isDecimalDigit c = false :=
        hchars c _ (by rw [chars, mantissa, hwhole]; rfl)
      rw [hdigit] at hother
      cases hother

/-- A spelling that is no integer's: it has a fraction or a power of ten. -/
structure Real (s : Spelling) : Prop where
  proper : s.Proper
  strict : s.Strict
  parts : s.fraction.isSome = true ∨ s.power.isSome = true

/-- A spelling with a character that is not a digit has a fraction or a power of ten. -/
theorem parts_of_mem (h : s.Proper) {c : Char} (hc : c ∈ s.chars)
    (hdigit : isDecimalDigit c = false) : s.fraction.isSome = true ∨ s.power.isSome = true := by
  cases hf : s.fraction with
  | some f => exact .inl rfl
  | none =>
    cases hp : s.power with
    | some p => exact .inr rfl
    | none =>
      have hwhole : s.chars = s.whole := by simp [chars, mantissa, hf, hp]
      rw [hwhole] at hc
      rw [h.whole.2 c hc] at hdigit
      cases hdigit

end Spelling

/-! ### Spellings in front of something else -/

namespace Json

variable {rest : List Char} {s : Spelling}

/-- What stands behind a value in a document: a blank, a comma, a closing mark, or nothing. -/
def Closes (rest : List Char) : Prop :=
  ∀ c ∈ rest.head?, isBlank c = true ∨ c ∈ [',', ']', '\x7d']

/-- None of this continues a number. -/
theorem Closes.ends (h : Closes rest) {c : Char} (hc : c ∈ rest.head?) :
    isDecimalDigit c = false ∧ Numeral.isExponentMark c = false ∧ c ≠ '.' := by
  have hcases : c ∈ [' ', '\n', '\t', '\r', ',', ']', '\x7d'] := by
    have hclosing := h c hc
    simp only [isBlank, Bool.or_eq_true, beq_iff_eq] at hclosing
    simp only [List.mem_cons, List.not_mem_nil, or_false] at hclosing ⊢
    tauto
  simp only [List.mem_cons, List.not_mem_nil, or_false] at hcases
  rcases hcases with rfl | rfl | rfl | rfl | rfl | rfl | rfl <;> decide

theorem readPower?_chars (h : s.Proper) (hrest : Closes rest) :
    readPower? ((s.power.elim [] fun p => 'e' :: Spelling.sign p.1 :: p.2) ++ rest) =
      some (s.power?, rest) := by
  unfold Spelling.power?
  cases hp : s.power with
  | none =>
    cases rest with
    | nil => rfl
    | cons c more =>
      have hmark := (hrest.ends (c := c) rfl).2.1
      simp [readPower?, hmark]
  | some p =>
    obtain ⟨negative, ds⟩ := p
    obtain ⟨hne, hds⟩ := h.power _ hp
    obtain ⟨htake, hdrop⟩ := takeWhile_append hds fun c hc => (hrest.ends hc).1
    have hempty : ds.isEmpty = false := by simpa using hne
    have hmark : Numeral.isExponentMark 'e' = true := rfl
    cases negative <;> simp [readPower?, hmark, Spelling.sign, htake, hdrop, hempty]

/-- The reader splits a spelling into its parts. -/
theorem readUnsigned?_chars (negative : Bool) (h : s.Proper) (hstrict : s.Strict)
    (hrest : Closes rest) :
    readUnsigned? negative (s.chars ++ rest) =
      (numberOf? negative s.whole (s.fraction.getD []) s.power?).map (·, rest) := by
  have hpower := readPower?_chars h hrest
  generalize htail : (s.power.elim [] fun p => 'e' :: Spelling.sign p.1 :: p.2) ++ rest = tail
    at hpower
  have hafter : ∀ c ∈ tail.head?, isDecimalDigit c = false ∧ c ≠ '.' := by
    intro c hc
    rw [← htail] at hc
    cases hp : s.power with
    | none =>
      rw [hp, Option.elim_none, List.nil_append] at hc
      exact ⟨(hrest.ends hc).1, (hrest.ends hc).2.2⟩
    | some p =>
      rw [hp] at hc
      obtain rfl : 'e' = c := Option.some.inj hc
      decide
  have hchars : s.chars ++ rest = s.whole ++ (s.fraction.elim [] ('.' :: ·) ++ tail) := by
    rw [Spelling.chars, Spelling.mantissa, ← htail, List.append_assoc, List.append_assoc]
  have hwhole : s.whole.isEmpty = false := by simpa using h.whole.1
  have hzero : (s.whole.head? == some '0' && s.whole.length != 1) = false := by
    by_cases hhead : s.whole.head? = some '0'
    · rw [hstrict hhead]
      simp
    · simp [hhead]
  rw [hchars]
  unfold readUnsigned?
  cases hf : s.fraction with
  | none =>
    obtain ⟨htake, hdrop⟩ := takeWhile_append h.whole.2 fun c hc => (hafter c hc).1
    simp only [Option.elim_none, List.nil_append, htake, hdrop, hwhole, hzero, Bool.or_self,
      Bool.false_eq_true, if_false, Option.getD_none]
    split
    · next more =>
      exact absurd rfl (hafter '.' rfl).2
    · rw [hpower]
  | some f =>
    obtain ⟨hne, hdigits⟩ := h.fraction f hf
    have hempty : f.isEmpty = false := by simpa using hne
    obtain ⟨htake, hdrop⟩ := takeWhile_append h.whole.2 fun c
        (hc : c ∈ ('.' :: (f ++ tail)).head?) => by
      obtain rfl : '.' = c := Option.some.inj hc
      decide
    obtain ⟨htake', hdrop'⟩ := takeWhile_append hdigits fun c hc => (hafter c hc).1
    simp only [Option.elim_some, List.cons_append, htake, hdrop, hwhole, hzero, Bool.or_self,
      Bool.false_eq_true, if_false, htake', hdrop', hempty, hpower, Option.getD_some]

/-! ### Integers -/

theorem numberOf?_nonnegative {n : ℕ} (h : n < 2 ^ 64) :
    numberOf? false (Nat.toDigits 10 n) [] none = some (.integer n) := by
  have hfits : n < Nat.pow 2 64 := h
  unfold numberOf?
  simp [digitsValue_toDigits, hfits]

theorem numberOf?_negative {n : ℕ} (hpos : 0 < n) (h : n ≤ 2 ^ 63) :
    numberOf? true (Nat.toDigits 10 n) [] none = some (.integer (-n)) := by
  have hfits : n ≤ Nat.pow 2 63 := h
  unfold numberOf?
  simp [digitsValue_toDigits, hfits, hpos]

/-- The digits of a natural number as a spelling. -/
theorem readUnsigned?_toDigits (negative : Bool) (n : ℕ) (hrest : Closes rest) :
    readUnsigned? negative (Nat.toDigits 10 n ++ rest) =
      (numberOf? negative (Nat.toDigits 10 n) [] none).map (·, rest) := by
  have hproper : Spelling.Proper ⟨Nat.toDigits 10 n, none, none⟩ :=
    ⟨areDigits_toDigits n, fun _ hf => (by cases hf), fun _ hp => (by cases hp)⟩
  have hstrict : Spelling.Strict ⟨Nat.toDigits 10 n, none, none⟩ := by
    intro hhead
    rw [toDigits_head hhead, Nat.toDigits_zero]
    rfl
  have hread := readUnsigned?_chars negative hproper hstrict hrest
  simpa [Spelling.chars, Spelling.mantissa, Spelling.power?] using hread

/-! ### Doubles -/

theorem numberOf?_real (negative : Bool) (h : s.Real)
    (hfinite : (s.numeral.value.toFloat == Number.infinity) = false) :
    numberOf? negative s.whole (s.fraction.getD []) s.power? =
      some (.number (if negative then -s.numeral.value.toFloat else s.numeral.value.toFloat)) := by
  have hinteger : ((s.fraction.getD []).isEmpty && s.power?.isNone) = false := by
    rcases h.parts with hf | hp
    · obtain ⟨f, hf⟩ := Option.isSome_iff_exists.mp hf
      have hne : f.isEmpty = false := by simpa using (h.proper.fraction f hf).1
      rw [hf, Option.getD_some, hne, Bool.false_and]
    · obtain ⟨p, hp⟩ := Option.isSome_iff_exists.mp hp
      simp [Spelling.power?, hp]
  have hnumeral : (⟨s.whole, s.fraction.getD [], s.power?.getD 0⟩ : Numeral) = s.numeral := by
    rw [Spelling.power?_getD]
    rfl
  unfold numberOf?
  simp only [hinteger, hnumeral, hfinite, Bool.false_and, Bool.false_eq_true, if_false]

end Json

namespace Decimal

variable {d : Decimal} {ds : List Char}

/-- A text with a character that is not a digit, and without a digit behind a leading zero. -/
structure Marked (cs : List Char) : Prop where
  other : ∃ c ∈ cs, isDecimalDigit c = false
  zero : ∀ c rest, cs = '0' :: c :: rest → isDecimalDigit c = false

theorem Marked.of_head {cs : List Char} (h : ∃ c ∈ cs, isDecimalDigit c = false)
    (hhead : cs.head? ≠ some '0') : Marked cs :=
  ⟨h, fun c rest heq => absurd (by rw [heq]; rfl) hhead⟩

theorem positional_marked {n : ℤ} (hhead : ds.head? ≠ some '0') (hn : n < ds.length) :
    Marked (positional ds n) := by
  unfold positional
  rw [if_neg (by omega)]
  split
  · next hpos =>
    refine .of_head ⟨'.', by simp, rfl⟩ ?_
    cases ds with
    | nil =>
      simp only [List.length_nil] at hn
      omega
    | cons d rest =>
      obtain ⟨k, hk⟩ : ∃ k, n.toNat = k + 1 := ⟨n.toNat - 1, by omega⟩
      rw [hk]
      exact hhead
  · refine ⟨⟨'.', by simp, rfl⟩, fun c rest heq => ?_⟩
    obtain rfl : '.' = c := (List.cons.inj (List.cons.inj heq).2).1
    rfl

theorem scientific_marked (hhead : ds.head? ≠ some '0') (hne : ds ≠ []) (e : ℤ) :
    Marked (scientific ds e) := by
  unfold scientific
  refine .of_head ⟨'e', by simp, rfl⟩ ?_
  match ds, hne with
  | [d], _ => exact hhead
  | d :: r :: rest, _ => exact hhead

/-- What is spelled as a numeral and marked is spelled as a double. -/
theorem Spells.real {cs : List Char} {v : ℚ} (h : Spells cs v) (hmarked : Marked cs) :
    ∃ s : Spelling, s.Real ∧ cs = s.chars ∧ s.numeral.value.value = v := by
  obtain ⟨s, hproper, rfl, hvalue⟩ := h
  obtain ⟨c, hc, hdigit⟩ := hmarked.other
  exact ⟨s, ⟨hproper, Spelling.strict_of_chars hproper hmarked.zero,
    Spelling.parts_of_mem hproper hc hdigit⟩, rfl, hvalue⟩

/-- An integer with a zero for its fraction. -/
theorem pointed_real {n : ℕ} (hds : AreDigits ds)
    (hzero : ds.head? = some '0' → ds.length = 1 ∧ n = 0) :
    ∃ s : Spelling, s.Real ∧ ds ++ List.replicate n '0' ++ ['.', '0'] = s.chars ∧
      s.numeral.value.value = digitsValue ds * 10 ^ n := by
  have hwhole : AreDigits (ds ++ List.replicate n '0') := hds.append_zeros n
  have hfraction : AreDigits ['0'] := ⟨by simp, by simp [isDecimalDigit]⟩
  refine ⟨⟨ds ++ List.replicate n '0', some ['0'], none⟩, ⟨⟨hwhole, ?_, ?_⟩, ?_, .inl rfl⟩, ?_, ?_⟩
  · intro f hf
    rwa [← Option.some.inj hf]
  · intro p hp
    cases hp
  · intro hhead
    rw [List.head?_append_of_ne_nil _ hds.1] at hhead
    obtain ⟨hlength, hn⟩ := hzero hhead
    simp [hlength, hn]
  · simp [Spelling.chars, Spelling.mantissa]
  · have hzeros : ds ++ List.replicate n '0' ++ ['0'] = ds ++ List.replicate (n + 1) '0' := by
      rw [List.replicate_succ', List.append_assoc]
    have hdigits := digitsValue_append_zeros ds (n + 1)
    have hexp : (0 : ℤ) - ((1 : ℕ) : ℤ) = -1 := by decide
    simp only [Spelling.numeral, Spelling.exponent, Numeral.value, value, Option.getD_some,
      Option.elim_none, List.length_singleton, hzeros, hdigits, hexp]
    push_cast
    rw [pow_succ, ← mul_assoc, zpow_neg_one, mul_inv_cancel_right₀ (by norm_num)]

/-- The text of a decimal in a document is spelled as a double, with the value of the decimal. -/
theorem jsonText_real (h : d.coefficient = 0 → d.exponent = 0) :
    ∃ s : Spelling, s.Real ∧ d.jsonText = s.chars ∧ s.numeral.value.value = d.value := by
  have hdigits : AreDigits d.digits := areDigits_toDigits _
  have hzero : d.digits.head? = some '0' → d.digits.length = 1 ∧ d.exponent = 0 := by
    intro hhead
    have hcoefficient : d.coefficient = 0 := toDigits_head hhead
    exact ⟨by rw [digits, hcoefficient, Nat.toDigits_zero]; rfl, h hcoefficient⟩
  have hvalue : d.value = digitsValue d.digits * 10 ^ d.exponent := by
    rw [digits, digitsValue_toDigits, value]
  have hafter : d.pointAfter = d.digits.length + d.exponent := rfl
  unfold jsonText
  split
  · split
    · next hwhole =>
      obtain ⟨n, hn⟩ : ∃ n : ℕ, d.exponent = n := ⟨d.exponent.toNat, by omega⟩
      have hlayout : positional d.digits d.pointAfter = d.digits ++ List.replicate n '0' := by
        rw [positional, if_pos hwhole, hafter, hn, zeros, add_sub_cancel_left, Int.toNat_natCast]
      rw [hlayout, hvalue, hn, zpow_natCast]
      exact pointed_real hdigits fun hhead => ⟨(hzero hhead).1, by have := (hzero hhead).2; omega⟩
    · next hpoint =>
      have hhead : d.digits.head? ≠ some '0' := fun hhead => by
        have := hzero hhead
        omega
      rw [hvalue]
      exact (positional_spells hdigits).real (positional_marked hhead (not_le.mp hpoint))
  · next hfar =>
    have hhead : d.digits.head? ≠ some '0' := fun hhead => by
      have := hzero hhead
      omega
    rw [hvalue]
    exact (scientific_spells hdigits).real (scientific_marked hhead hdigits.1 _)

theorem toFloat_zero (h : d.value = 0) : d.toFloat = 0.0 := by
  have hpower : (10 : ℚ) ^ d.exponent ≠ 0 := zpow_ne_zero _ (by norm_num)
  have hcoefficient : (d.coefficient : ℚ) = 0 := (mul_eq_zero.mp h).resolve_right hpower
  exact if_pos (by exact_mod_cast hcoefficient)

end Decimal

namespace Json

open Rounding

variable {x : Float} {rest : List Char} {fuel depth : ℕ}

theorem finite_beq_infinity {M : ℕ} {E : ℤ} (hc : Canonical M E) (hE : E ≤ 971) :
    (finite false M E hc.pos == Number.infinity) = false := by
  have hinfinity : Number.infinity.toModel.unpack = .infinity .positive := by rfl
  change Float.Model.UnpackedFloat.beq (finite false M E hc.pos).toModel.unpack
    Number.infinity.toModel.unpack = false
  rw [finite_unpack false hc hE, hinfinity]
  rfl

/-- A finite number is written with the spelling of its magnitude, which converts to this. -/
theorem jsonText_spelling (h : x.isFinite = true) :
    ∃ (negative : Bool) (s : Spelling), s.Real ∧
      (Number.jsonText x).toList = (if negative then ['-'] else []) ++ s.chars ∧
      (s.numeral.value.toFloat == Number.infinity) = false ∧
      (if negative then -s.numeral.value.toFloat else s.numeral.value.toFloat) = x := by
  rw [Number.isFinite_eq] at h
  obtain ⟨⟨negative, M, E⟩, he⟩ := Option.isSome_iff_exists.mp h
  have htext : (Number.jsonText x).toList =
      (if negative then ['-'] else []) ++ (Number.decimal .toEven ⟨negative, M, E⟩).jsonText := by
    unfold Number.jsonText
    rw [he, String.toList_ofList]
  rw [htext]
  rcases Nat.eq_zero_or_pos M with rfl | hM
  · obtain ⟨s, hs, hchars, hvalue⟩ := Decimal.jsonText_real (d := ⟨0, 0⟩) fun _ => rfl
    have hzero : s.numeral.value.toFloat = 0.0 :=
      Decimal.toFloat_zero (by rw [hvalue, Decimal.value]; norm_num)
    have hdecimal : Number.decimal .toEven ⟨negative, 0, E⟩ = ⟨0, 0⟩ := rfl
    refine ⟨negative, s, hs, by rw [hdecimal, hchars], ?_, ?_⟩
    · rw [hzero]
      decide
    · rw [hzero, eq_zero he]
  · obtain ⟨hc, hE, rfl⟩ := eq_finite he hM.ne'
    have hnear := Exact.near_shortest .toEven (x := ⟨negative, M, E⟩) hM
    obtain ⟨hcoefficient, -⟩ := Decimal.near_bounds hc hE hnear
    obtain ⟨s, hs, hchars, hvalue⟩ :=
      Decimal.jsonText_real fun hzero => absurd hzero hcoefficient
    rw [← hvalue] at hnear
    have hfloat : s.numeral.value.toFloat = finite false M E hc.pos :=
      Decimal.toFloat_eq hc hE hnear
    have hdecimal : Number.decimal .toEven ⟨negative, M, E⟩ =
        Exact.shortest .toEven ⟨negative, M, E⟩ := if_neg hM.ne'
    refine ⟨negative, s, hs, by rw [hdecimal, hchars], ?_, ?_⟩
    · rw [hfloat]
      exact finite_beq_infinity hc hE
    · rw [hfloat]
      cases negative with
      | false => rfl
      | true => exact neg_finite false hc hE

/-! ### Numbers in front of something else -/

theorem skipBlanks_cons {c : Char} (h : isBlank c = false) (cs : List Char) :
    skipBlanks (c :: cs) = c :: cs := by
  rw [skipBlanks, List.dropWhile_cons, h]
  rfl

theorem readValue?_digit {c : Char} (h : isDecimalDigit c = true) (cs : List Char) :
    readValue? (fuel + 1) depth (c :: cs) = readUnsigned? false (c :: cs) := by
  have hother : ∀ d, isDecimalDigit d = false → c ≠ d := fun d hd hcd => by
    rw [← hcd, h] at hd
    cases hd
  have hblank : isBlank c = false := by
    simp [isBlank, hother ' ' rfl, hother '\n' rfl, hother '\t' rfl, hother '\r' rfl]
  rw [readValue?, skipBlanks_cons hblank]
  split
  case h_8 => rfl
  all_goals
    next heq =>
    exact absurd (List.cons.inj heq).1 (hother _ rfl)

theorem readValue?_minus (cs : List Char) :
    readValue? (fuel + 1) depth ('-' :: cs) = readUnsigned? true cs := by
  rw [readValue?, skipBlanks_cons rfl]
  rfl

theorem readValue?_integer {i : ℤ} (hlow : -2 ^ 63 ≤ i) (hhigh : i < 2 ^ 64)
    (hrest : Closes rest) :
    readValue? (fuel + 1) depth ((toString i).toList ++ rest) = some (.integer i, rest) := by
  rw [Int.toString_eq_repr, Int.repr_eq_if]
  split
  · next hsign =>
    obtain ⟨n, rfl⟩ := Int.eq_ofNat_of_zero_le hsign
    obtain ⟨hne, hdigits⟩ := areDigits_toDigits n
    obtain ⟨c, cs, hcons⟩ := List.exists_cons_of_ne_nil hne
    have hc : isDecimalDigit c = true := hdigits c (by rw [hcons]; exact List.mem_cons_self)
    have hread := readUnsigned?_toDigits false n hrest
    rw [numberOf?_nonnegative (by exact_mod_cast hhigh), hcons] at hread
    rw [Int.toNat_natCast, Nat.repr_eq_ofList_toDigits, String.toList_ofList, hcons]
    exact (readValue?_digit hc (cs ++ rest)).trans hread
  · next hsign =>
    obtain ⟨n, rfl⟩ := Int.eq_negSucc_of_lt_zero (not_le.mp hsign)
    have hread := readUnsigned?_toDigits true (n + 1) hrest
    rw [numberOf?_negative (Nat.succ_pos n) (by omega)] at hread
    have hopposite : (-Int.negSucc n).toNat = n + 1 := rfl
    have htext : ("-" ++ (n + 1).repr).toList = '-' :: Nat.toDigits 10 (n + 1) := by
      rw [String.toList_append, Nat.repr_eq_ofList_toDigits]
      exact congrArg ('-' :: ·) String.toList_ofList
    rw [hopposite, htext]
    exact (readValue?_minus _).trans hread

theorem readValue?_number (h : x.isFinite = true) (hrest : Closes rest) :
    readValue? (fuel + 1) depth ((Number.jsonText x).toList ++ rest) = some (.number x, rest) := by
  obtain ⟨negative, s, hs, htext, hfinite, hvalue⟩ := jsonText_spelling h
  have hread := readUnsigned?_chars negative hs.proper hs.strict hrest
  rw [numberOf?_real negative hs hfinite, hvalue] at hread
  rw [htext]
  cases negative with
  | false =>
    obtain ⟨c, cs, hcons, hc⟩ := Spelling.chars_eq_cons hs.proper
    rw [hcons] at hread ⊢
    exact (readValue?_digit hc (cs ++ rest)).trans hread
  | true => exact (readValue?_minus _).trans hread

end Json

end Formula
