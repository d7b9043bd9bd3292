import Formula.Number.Numeral
import Formula.Proofs.Numbers.ReadBack

/-!
# The text of a number and the number of a text

A numeral is spelled with digits, a fraction and a power of ten. Both notations in which decimals
are laid out are such spellings, of numerals with the value of the decimal. So the text of a
finite number without a sign converts to that number again.
-/

namespace Formula

/-! ### Digits -/

theorem digitsValue_eq (cs : List Char) : digitsValue cs = Nat.ofDigitChars 10 cs 0 :=
  Nat.ofDigitChars_eq_foldl.symm

theorem digitsValue_toDigits (n : ℕ) : digitsValue (Nat.toDigits 10 n) = n := by
  rw [digitsValue_eq, Nat.ofDigitChars_ten_toDigits]

theorem digitsValue_append_zeros (ds : List Char) (n : ℕ) :
    digitsValue (ds ++ List.replicate n '0') = digitsValue ds * 10 ^ n := by
  rw [digitsValue_eq, digitsValue_eq, Nat.ofDigitChars_append, Nat.ofDigitChars_replicate_zero,
    Nat.mul_comm]

theorem digitsValue_zeros_append (n : ℕ) (ds : List Char) :
    digitsValue (List.replicate n '0' ++ ds) = digitsValue ds := by
  rw [digitsValue_eq, digitsValue_eq, Nat.ofDigitChars_append, Nat.ofDigitChars_replicate_zero,
    Nat.mul_zero]

/-- A nonempty list of digits. -/
def AreDigits (cs : List Char) : Prop := cs ≠ [] ∧ ∀ c ∈ cs, isDecimalDigit c = true

theorem areDigits_toDigits (n : ℕ) : AreDigits (Nat.toDigits 10 n) := by
  refine ⟨Nat.toDigits_ne_nil, fun c hc => ?_⟩
  have := Nat.isDigit_of_mem_toDigits (by decide) (by decide) hc
  simpa [isDecimalDigit, Char.isDigit, Char.le_def] using this

theorem AreDigits.append_zeros {ds : List Char} (h : AreDigits ds) (n : ℕ) :
    AreDigits (ds ++ List.replicate n '0') := by
  refine ⟨by simp [h.1], fun c hc => ?_⟩
  rcases List.mem_append.mp hc with hc | hc
  · exact h.2 c hc
  · rw [List.eq_of_mem_replicate hc]
    decide

/-! ### Spellings -/

/-- The parts of a numeral as they are written; a power of ten has a sign. -/
structure Spelling where
  whole : List Char
  fraction : Option (List Char)
  power : Option (Bool × List Char)

namespace Spelling

def sign (negative : Bool) : Char := if negative then '-' else '+'

/-- The characters before the power of ten. -/
def mantissa (s : Spelling) : List Char := s.whole ++ s.fraction.elim [] ('.' :: ·)

def chars (s : Spelling) : List Char :=
  s.mantissa ++ s.power.elim [] fun p => 'e' :: sign p.1 :: p.2

/-- All parts are made of digits. -/
structure Proper (s : Spelling) : Prop where
  whole : AreDigits s.whole
  fraction : ∀ f ∈ s.fraction, AreDigits f
  power : ∀ p ∈ s.power, AreDigits p.2

def exponent (s : Spelling) : ℤ :=
  s.power.elim 0 fun p => if p.1 then -(digitsValue p.2 : ℤ) else digitsValue p.2

def numeral (s : Spelling) : Numeral := ⟨s.whole, s.fraction.getD [], s.exponent⟩

variable {s : Spelling}

/-- What is not a digit in a spelling is a point, a mark or a sign. -/
theorem mem_chars (h : s.Proper) {c : Char} (hc : c ∈ s.chars) :
    isDecimalDigit c = true ∨ c ∈ ['.', 'e', '+', '-'] := by
  unfold chars mantissa at hc
  rcases List.mem_append.mp hc with hc | hc
  · rcases List.mem_append.mp hc with hc | hc
    · exact .inl (h.whole.2 c hc)
    · cases hf : s.fraction with
      | none =>
        rw [hf] at hc
        cases hc
      | some f =>
        rw [hf] at hc
        rcases List.mem_cons.mp hc with rfl | hc
        · exact .inr (by decide)
        · exact .inl ((h.fraction f hf).2 c hc)
  · cases hp : s.power with
    | none =>
      rw [hp] at hc
      cases hc
    | some p =>
      rw [hp] at hc
      rcases List.mem_cons.mp hc with rfl | hc
      · exact .inr (by decide)
      · rcases List.mem_cons.mp hc with rfl | hc
        · unfold sign
          split <;> exact .inr (by decide)
        · exact .inl ((h.power p hp).2 c hc)

end Spelling

/-- A run of characters of a class, up to one that is not of that class. -/
theorem takeWhile_append {p : Char → Bool} {run rest : List Char} (hrun : ∀ c ∈ run, p c = true)
    (hrest : ∀ c ∈ rest.head?, p c = false) :
    (run ++ rest).takeWhile p = run ∧ (run ++ rest).dropWhile p = rest := by
  rw [List.takeWhile_append_of_pos hrun, List.dropWhile_append_of_pos hrun]
  cases rest with
  | nil => simp
  | cons c rest =>
    have hc : p c = false := hrest c rfl
    simp [hc]

theorem digit_cases {c : Char} (h : isDecimalDigit c = true) :
    Numeral.isExponentMark c = false ∧ c ≠ '.' ∧ Text.isBlank c = false := by
  simp only [isDecimalDigit, Bool.and_eq_true, decide_eq_true_eq, Char.le_def] at h
  have hlow : 48 ≤ c.toNat := h.1
  have hhigh : c.toNat ≤ 57 := h.2
  refine ⟨?_, ?_, ?_⟩
  · simp only [Numeral.isExponentMark, Bool.or_eq_false_iff, beq_eq_false_iff_ne]
    constructor <;> rintro rfl <;> revert hhigh <;> decide
  · rintro rfl
    revert hlow
    decide
  · simp only [Text.isBlank]
    simp
    omega

namespace Spelling

variable {s : Spelling}

theorem mantissa_chars (h : s.Proper) {c : Char} (hc : c ∈ s.mantissa) :
    Numeral.isExponentMark c = false := by
  unfold mantissa at hc
  rcases List.mem_append.mp hc with hc | hc
  · exact (digit_cases (h.whole.2 c hc)).1
  · cases hf : s.fraction with
    | none =>
      rw [hf] at hc
      cases hc
    | some f =>
      rw [hf] at hc
      rcases List.mem_cons.mp hc with rfl | hc
      · decide
      · exact (digit_cases ((h.fraction f hf).2 c hc)).1

/-- A spelling is split at its mark. -/
theorem split_mark (h : s.Proper) :
    s.chars.takeWhile (!Numeral.isExponentMark ·) = s.mantissa ∧
      s.chars.dropWhile (!Numeral.isExponentMark ·) =
        s.power.elim [] fun p => 'e' :: sign p.1 :: p.2 := by
  refine takeWhile_append (fun c hc => by rw [mantissa_chars h hc]; rfl) fun c hc => ?_
  cases hp : s.power with
  | none =>
    rw [hp] at hc
    cases hc
  | some p =>
    rw [hp] at hc
    cases hc
    rfl

/-- The mantissa is split at its point. -/
theorem split_point (h : s.Proper) :
    s.mantissa.takeWhile (· != '.') = s.whole ∧
      (s.mantissa.dropWhile (· != '.')).drop 1 = s.fraction.getD [] := by
  have hwhole : ∀ c ∈ s.whole, (c != '.') = true := fun c hc =>
    bne_iff_ne.mpr (digit_cases (h.whole.2 c hc)).2.1
  have hsplit := takeWhile_append hwhole fun c
      (hc : c ∈ (s.fraction.elim [] ('.' :: ·)).head?) => by
    cases hf : s.fraction with
    | none =>
      rw [hf] at hc
      cases hc
    | some f =>
      rw [hf] at hc
      cases hc
      rfl
  refine ⟨hsplit.1, ?_⟩
  unfold mantissa
  rw [hsplit.2]
  cases s.fraction <;> rfl

theorem readExponent_sign {negative : Bool} {ds : List Char} (h : AreDigits ds) :
    Numeral.readExponent? (sign negative :: ds) =
      some (if negative then -(digitsValue ds : ℤ) else digitsValue ds) := by
  obtain ⟨hne, hds⟩ := h
  have hempty : ds.isEmpty = false := by simpa using hne
  have hall : ds.all isDecimalDigit = true := List.all_eq_true.mpr hds
  cases negative <;>
    simp [Numeral.readExponent?, sign, hempty, hall]

/-- A spelling is read as its numeral. -/
theorem read_chars (h : s.Proper) : Numeral.read? s.chars = some s.numeral := by
  have hwhole : s.whole.isEmpty = false := by simpa using h.whole.1
  have hdigits : s.whole.all isDecimalDigit = true := List.all_eq_true.mpr h.whole.2
  have hfraction : (s.fraction.getD []).all isDecimalDigit = true := by
    cases hf : s.fraction with
    | none => rfl
    | some f => exact List.all_eq_true.mpr (h.fraction f hf).2
  unfold Numeral.read?
  simp only [split_mark h, split_point h, hwhole, hdigits, hfraction, Bool.false_and,
    Bool.not_true, Bool.or_self, Bool.false_eq_true, if_false]
  cases hp : s.power with
  | none => simp [numeral, exponent, hp]
  | some p =>
    simp only [Option.elim_some, readExponent_sign (h.power p hp), Option.map_some]
    simp [numeral, exponent, hp]

end Spelling

/-! ### The layout of decimals -/

namespace Decimal

/-- A text that is spelled as a numeral of a certain value. -/
def Spells (cs : List Char) (v : ℚ) : Prop :=
  ∃ s : Spelling, s.Proper ∧ cs = s.chars ∧ s.numeral.value.value = v

variable {ds : List Char} {e : ℤ}

theorem positional_spells (hds : AreDigits ds) :
    Spells (positional ds (ds.length + e)) (digitsValue ds * 10 ^ e) := by
  have ⟨hne, hall⟩ := hds
  have hlen : 0 < ds.length := List.length_pos_iff.mpr hne
  unfold positional
  split
  · -- zeros after the digits
    next hle =>
    obtain ⟨n, hn⟩ : ∃ n : ℕ, e = n := ⟨e.toNat, by omega⟩
    refine ⟨⟨ds ++ List.replicate n '0', none, none⟩, ⟨hds.append_zeros n, ?_, ?_⟩, ?_, ?_⟩
    · rintro f ⟨⟩
    · rintro p ⟨⟩
    · simp [Spelling.chars, Spelling.mantissa, zeros, hn]
    · simp [Spelling.numeral, Spelling.exponent, Numeral.value, value, digitsValue_append_zeros, hn]
  · split
    · -- a point between the digits
      next hle hpos =>
      obtain ⟨n, hn⟩ : ∃ n : ℕ, (ds.length : ℤ) + e = n := ⟨((ds.length : ℤ) + e).toNat, by omega⟩
      rw [hn, Int.toNat_natCast]
      refine ⟨⟨ds.take n, some (ds.drop n), none⟩, ⟨⟨?_, ?_⟩, ?_, ?_⟩, ?_, ?_⟩
      · simp [hne]
        omega
      · exact fun c hc => hall c (List.mem_of_mem_take hc)
      · rintro f ⟨⟩
        refine ⟨?_, fun c hc => hall c (List.mem_of_mem_drop hc)⟩
        simp
        omega
      · rintro p ⟨⟩
      · simp [Spelling.chars, Spelling.mantissa]
      · have hexp : (0 : ℤ) - ((ds.length - n : ℕ) : ℤ) = e := by omega
        simp only [Spelling.numeral, Spelling.exponent, Numeral.value, value, Option.getD_some,
          Option.elim_none, List.take_append_drop, List.length_drop, hexp]
    · -- zeros before the digits
      next hle hpos =>
      obtain ⟨n, hn⟩ : ∃ n : ℕ, -((ds.length : ℤ) + e) = n :=
        ⟨(-((ds.length : ℤ) + e)).toNat, by omega⟩
      refine ⟨⟨['0'], some (List.replicate n '0' ++ ds), none⟩, ⟨⟨by simp, by simp [isDecimalDigit]⟩,
        ?_, ?_⟩, ?_, ?_⟩
      · rintro f ⟨⟩
        refine ⟨by simp [hne], fun c hc => ?_⟩
        rcases List.mem_append.mp hc with hc | hc
        · rw [List.eq_of_mem_replicate hc]
          decide
        · exact hall c hc
      · rintro p ⟨⟩
      · simp [Spelling.chars, Spelling.mantissa, zeros, hn]
      · have hexp : (0 : ℤ) - ((n + ds.length : ℕ) : ℤ) = e := by omega
        have hzeros : digitsValue (['0'] ++ (List.replicate n '0' ++ ds)) = digitsValue ds := by
          rw [← List.append_assoc]
          exact digitsValue_zeros_append (n + 1) ds
        simp only [Spelling.numeral, Spelling.exponent, Numeral.value, value, Option.getD_some,
          Option.elim_none, List.length_append, List.length_replicate, hexp, hzeros]

/-- The sign and the digits of a power of ten denote it. -/
theorem signed_digits (k : ℤ) :
    (if k < 0 then -(digitsValue (Nat.toDigits 10 k.natAbs) : ℤ)
      else digitsValue (Nat.toDigits 10 k.natAbs)) = k := by
  rw [digitsValue_toDigits]
  split <;> omega

theorem scientific_spells (hds : AreDigits ds) :
    Spells (scientific ds (ds.length + e - 1)) (digitsValue ds * 10 ^ e) := by
  obtain ⟨hne, hall⟩ := hds
  generalize hk : (ds.length : ℤ) + e - 1 = k
  have hpower : AreDigits (Nat.toDigits 10 k.natAbs) := areDigits_toDigits _
  have hvalue := signed_digits k
  cases ds with
  | nil => exact (hne rfl).elim
  | cons d rest =>
    cases rest with
    | nil =>
      refine ⟨⟨[d], none, some (k < 0, Nat.toDigits 10 k.natAbs)⟩, ⟨⟨hne, hall⟩, ?_, ?_⟩, ?_, ?_⟩
      · rintro f ⟨⟩
      · rintro p ⟨⟩
        exact hpower
      · simp [scientific, Spelling.chars, Spelling.mantissa, Spelling.sign]
      · have hexp : k - ((0 : ℕ) : ℤ) = e := by
          simp only [List.length_cons, List.length_nil] at hk
          omega
        simp only [Spelling.numeral, Spelling.exponent, Numeral.value, value, Option.getD_none,
          Option.elim_some, List.append_nil, List.length_nil, decide_eq_true_eq, hvalue, hexp]
    | cons r rest =>
      obtain ⟨hd, hrest⟩ := List.forall_mem_cons.mp hall
      refine ⟨⟨[d], some (r :: rest), some (k < 0, Nat.toDigits 10 k.natAbs)⟩,
        ⟨⟨by simp, by simpa using hd⟩, ?_, ?_⟩, ?_, ?_⟩
      · rintro f ⟨⟩
        exact ⟨by simp, hrest⟩
      · rintro p ⟨⟩
        exact hpower
      · simp [scientific, Spelling.chars, Spelling.mantissa, Spelling.sign]
      · have hexp : k - ((rest.length + 1 : ℕ) : ℤ) = e := by
          simp only [List.length_cons] at hk
          omega
        simp only [Spelling.numeral, Spelling.exponent, Numeral.value, value, Option.getD_some,
          Option.elim_some, List.length_cons, decide_eq_true_eq, hvalue, hexp,
          List.singleton_append]

/-- The text of a decimal is spelled as a numeral of its value. -/
theorem text_spells (d : Decimal) : Spells d.text d.value := by
  have hvalue : d.value = digitsValue d.digits * 10 ^ d.exponent := by
    rw [digits, digitsValue_toDigits, value]
  rw [hvalue]
  unfold text pointAfter
  split
  · exact positional_spells (areDigits_toDigits _)
  · exact scientific_spells (areDigits_toDigits _)

end Decimal

/-! ### Text and number -/

/-- Nothing is trimmed off a text without blanks. -/
theorem Text.trim_unblank {cs : List Char} (h : ∀ c ∈ cs, isBlank c = false) : trim cs = cs := by
  have hdrop : ∀ cs : List Char, (∀ c ∈ cs, isBlank c = false) → cs.dropWhile isBlank = cs :=
    fun cs hcs => by
      cases cs with
      | nil => rfl
      | cons c rest => simp [hcs c List.mem_cons_self]
  unfold trim
  rw [hdrop _ h, hdrop _ fun c hc => h c (List.mem_reverse.mp hc), List.reverse_reverse]

namespace Spelling

variable {s : Spelling}

theorem chars_eq_cons (h : s.Proper) :
    ∃ c rest, s.chars = c :: rest ∧ isDecimalDigit c = true := by
  obtain ⟨hne, hall⟩ := h.whole
  obtain ⟨c, rest, hcons⟩ := List.exists_cons_of_ne_nil hne
  refine ⟨c, rest ++ s.fraction.elim [] ('.' :: ·) ++ s.power.elim [] fun p =>
    'e' :: sign p.1 :: p.2, ?_, hall c (by rw [hcons]; exact List.mem_cons_self)⟩
  simp only [chars, mantissa, hcons, List.cons_append]

theorem not_isBlank (h : s.Proper) {c : Char} (hc : c ∈ s.chars) : Text.isBlank c = false := by
  rcases mem_chars h hc with hc | hc
  · exact (digit_cases hc).2.2
  · simp only [List.mem_cons, List.not_mem_nil, or_false] at hc
    rcases hc with rfl | rfl | rfl | rfl <;> decide

theorem trim_chars (h : s.Proper) : Text.trim s.chars = s.chars :=
  Text.trim_unblank fun _ hc => not_isBlank h hc

/-- No letter but the mark of a power stands in a spelling. -/
theorem ne_letter (h : s.Proper) {c : Char} (hc : c ∈ s.chars) :
    c ∉ ['x', 'X', 'o', 'O', 'b', 'B', 'n', 'I'] := by
  rcases mem_chars h hc with hc | hc
  · intro hmem
    simp only [List.mem_cons, List.not_mem_nil, or_false] at hmem
    rcases hmem with rfl | rfl | rfl | rfl | rfl | rfl | rfl | rfl <;> revert hc <;> decide
  · simp only [List.mem_cons, List.not_mem_nil, or_false] at hc
    rcases hc with rfl | rfl | rfl | rfl <;> decide

/-- A spelling converts to the double of its numeral. -/
theorem parseChars_chars (h : s.Proper) :
    Number.parseChars s.chars = s.numeral.value.toFloat := by
  obtain ⟨c, rest, hcons, hc⟩ := chars_eq_cons h
  have hletter : ∀ x ∈ c :: rest, x ∉ ['x', 'X', 'o', 'O', 'b', 'B', 'n', 'I'] := fun x hx =>
    ne_letter h (hcons ▸ hx)
  have hradix : Number.radixPrefix? (c :: rest) = none := by
    unfold Number.radixPrefix?
    split
    case h_7 => rfl
    all_goals
      next heq =>
      cases heq
      exact absurd (hletter _ (List.mem_cons_of_mem _ List.mem_cons_self)) (by decide)
  have hsign : Number.splitSign (c :: rest) = (false, c :: rest) := by
    unfold Number.splitSign
    split
    · next heq =>
      cases heq
      exact absurd hc (by decide)
    · next heq =>
      cases heq
      exact absurd hc (by decide)
    · rfl
  have hinfinity : c :: rest ≠ "Infinity".toList := fun hname => by
    have : 'I' ∈ c :: rest := hname ▸ (by decide)
    exact hletter _ this (by decide)
  have hread := read_chars h
  unfold Number.parseChars
  rw [trim_chars h, hcons]
  rw [hcons] at hread
  simp only [hradix, hsign, Number.unsigned?, hinfinity, if_false, hread, Option.map_some,
    Bool.false_eq_true]

end Spelling

namespace Number

/-- A finite number without a sign. -/
def Unsigned (x : Float) : Prop := ∃ M E, decode? x = some ⟨false, M, E⟩

/-- The text of a finite number without a sign is spelled as a numeral that converts to it. -/
theorem text_spelling {x : Float} (hx : Unsigned x) :
    ∃ s : Spelling, s.Proper ∧ (text x).toList = s.chars ∧ s.numeral.value.toFloat = x := by
  obtain ⟨M, E, hdecode⟩ := hx
  unfold text
  rw [hdecode]
  dsimp only
  split
  · next hzero =>
    subst hzero
    have hx := Rounding.eq_zero hdecode
    refine ⟨⟨['0'], none, none⟩, ⟨⟨by simp, by simp [isDecimalDigit]⟩, ?_, ?_⟩, rfl, hx ▸ rfl⟩
    · rintro f ⟨⟩
    · rintro p ⟨⟩
  · next hM =>
    obtain ⟨hc, hE, hx⟩ := Rounding.eq_finite hdecode hM
    obtain ⟨s, hs, htext, hvalue⟩ := Decimal.text_spells (Exact.shortest .up ⟨false, M, E⟩)
    refine ⟨s, hs, ?_, ?_⟩
    · simp [htext]
    · have hnear := Exact.near_shortest (x := ⟨false, M, E⟩) .up hc.pos
      rw [← hvalue] at hnear
      rw [Decimal.toFloat_eq hc hE hnear, hx]

/-- A finite number without a sign is read back from its text. -/
theorem parseChars_text {x : Float} (hx : Unsigned x) : parseChars (text x).toList = x := by
  obtain ⟨s, hs, htext, hvalue⟩ := text_spelling hx
  rw [htext, Spelling.parseChars_chars hs, hvalue]

end Number

end Formula
