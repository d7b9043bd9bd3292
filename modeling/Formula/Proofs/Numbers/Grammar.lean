import Formula.Proofs.Numbers.Signs
import Formula.Proofs.Tokens.Spelled

/-!
# The texts that convert to a number

The texts that a conversion accepts have a small grammar: nothing at all, the digits of a radix
behind its mark, and a sign before `Infinity` or a decimal. Every other text converts to NaN, and
none of these does: sums without signs, products and quotients with a finite number other than zero
are never NaN, however large or small they become.
-/

namespace Formula.Rounding

open Float.Model Float.Model.UnpackedFloat

variable {u v : UnpackedFloat}

/-! ### Unpacked numbers -/

/-- A mantissa with an exponent: finite, and not zero. -/
def HasMantissa : UnpackedFloat → Prop
  | .finite _ _ _ _ => True
  | _ => False

theorem isNaN_roundWithAccuracy (s : Sign) (m : ℕ) (e : ℤ) (a : Accuracy) :
    (roundWithAccuracy Format.binary64 s m e a).isNaN = false := by
  unfold roundWithAccuracy
  dsimp only
  split <;> rfl

theorem isNaN_normalize (m e : ℤ) (s : Sign) :
    (UnpackedFloat.normalize Format.binary64 m e s).isNaN = false := by
  unfold UnpackedFloat.normalize
  split
  · exact isNaN_roundWithAccuracy _ _ _ _
  · rfl
  · exact isNaN_roundWithAccuracy _ _ _ _

theorem isNaN_unpacked_mul (hu : u.isNaN = false) (hv : HasMantissa v) :
    (UnpackedFloat.mul Format.binary64 u v).isNaN = false := by
  cases u <;> cases v <;> first | exact hv.elim | exact hu | exact isNaN_roundWithAccuracy _ _ _ _

theorem isNaN_unpacked_div (hu : u.isNaN = false) (hv : HasMantissa v) :
    (UnpackedFloat.div Format.binary64 u v).isNaN = false := by
  cases u <;> cases v <;> first | exact hv.elim | exact hu | exact isNaN_roundWithAccuracy _ _ _ _

/-- Only infinities of two signs have no sum. -/
theorem isNaN_unpacked_add (hu : u.isNaN = false) (hv : v.isNaN = false) (hsu : Signless u)
    (hsv : Signless v) : (UnpackedFloat.add Format.binary64 u v).isNaN = false := by
  cases u <;> cases v <;> simp only [Signless] at hsu hsv <;> subst_vars <;>
    first | exact hu | exact hv | rfl | exact isNaN_normalize _ _ _

theorem isNaN_unpacked_ofScientific (m : ℕ) (e : ℤ) :
    (UnpackedFloat.ofScientific Format.binary64 m e).isNaN = false := by
  unfold UnpackedFloat.ofScientific
  split
  · rfl
  · split
    · rfl
    · split
      · rfl
      · split
        · exact isNaN_unpacked_mul rfl trivial
        · exact isNaN_unpacked_div rfl trivial

/-- Packing keeps a number from being NaN, also where it becomes infinite or zero. -/
theorem isNaN_pack (h : u.isNaN = false) : (Float.ofModel (.pack u)).isNaN = false := by
  have hinfinity : ∀ s, (UnpackedFloat.unpack Format.binary64
      (packedInfinity Format.binary64 s)).isNaN = false := fun s => by
    simp only [UnpackedFloat.unpack, packedInfinity, unpackExponent_packComponents,
      unpackMantissa_packComponents, if_true]
    rfl
  have hfinite : ∀ s (e : BitVec 11) (m : BitVec 52), e ≠ -1#11 → (UnpackedFloat.unpack
      Format.binary64 (packComponents Format.binary64 s e m)).isNaN = false := fun s e m he => by
    simp only [UnpackedFloat.unpack, unpackExponent_packComponents, unpackMantissa_packComponents]
    rw [if_neg he]
    split
    · split <;> rfl
    · rfl
  change (UnpackedFloat.unpack Format.binary64 (UnpackedFloat.pack Format.binary64 u)).isNaN = false
  cases u with
  | notANumber => cases h
  | infinity s => exact hinfinity s
  | zero s => exact hfinite s _ _ (by decide)
  | finite s m e hm =>
    unfold UnpackedFloat.pack
    dsimp only
    split
    · exact hinfinity s
    · next hfits =>
      split
      · refine hfinite s _ _ fun htop => hfits ?_
        have := congrArg BitVec.toNat htop
        rw [BitVec.neg_one_eq_allOnes, BitVec.toNat_allOnes, BitVec.toNat_ofNat] at this
        change 2 ^ 11 ≤ _
        omega
      · exact hfinite s _ _ (by decide)

end Formula.Rounding

namespace Formula.Number

open Rounding Float.Model

variable {x y : Float}

/-! ### Numbers that are not NaN -/

theorem isNaN_mul (hx : x.isNaN = false) (hy : HasMantissa y.toModel.unpack) :
    (x * y).isNaN = false :=
  isNaN_pack (isNaN_unpacked_mul hx hy)

theorem isNaN_div (hx : x.isNaN = false) (hy : HasMantissa y.toModel.unpack) :
    (x / y).isNaN = false :=
  isNaN_pack (isNaN_unpacked_div hx hy)

theorem isNaN_add (hx : x.isNaN = false) (hy : y.isNaN = false) (hsx : signBit x = false)
    (hsy : signBit y = false) : (x + y).isNaN = false :=
  isNaN_pack (isNaN_unpacked_add hx hy (signless_unpack hsx) (signless_unpack hsy))

theorem isNaN_neg (hx : x.isNaN = false) : (-x).isNaN = false := by
  have hneg : x.toModel.unpack.neg.isNaN = false := by
    have hx : x.toModel.unpack.isNaN = false := hx
    cases hu : x.toModel.unpack <;> rw [hu] at hx <;> exact hx
  exact isNaN_pack hneg

theorem isNaN_ofUInt64 (n : UInt64) : n.toFloat.isNaN = false := isNaN_pack (isNaN_normalize _ _ _)

theorem isNaN_ofScientific (m : ℕ) (s : Bool) (e : ℕ) :
    (Float.ofScientific m s e).isNaN = false := by
  unfold Float.ofScientific
  split
  · next h =>
    have hindex : e < Float.exactlyRepresentablePowersOfTen.size := Nat.lt_succ_of_le h.2
    obtain ⟨P, Q, hP, hpower, -⟩ := powerOfTen_unpack hindex
    have hmantissa : HasMantissa Float.exactlyRepresentablePowersOfTen[e].toModel.unpack := by
      rw [hpower]
      trivial
    dsimp only
    split
    · exact isNaN_div (isNaN_ofUInt64 _) hmantissa
    · exact isNaN_mul (isNaN_ofUInt64 _) hmantissa
  · exact isNaN_pack (isNaN_unpacked_ofScientific _ _)

theorem isNaN_toFloat (d : Decimal) : d.toFloat.isNaN = false := by
  unfold Decimal.toFloat
  split
  · decide
  · split
    · decide
    · split
      · decide
      · exact isNaN_ofScientific _ _ _

theorem isNaN_ofRadix {radix : ℕ} (hradix : HasMantissa (Float.ofNat radix).toModel.unpack)
    (digits : List ℕ) : (ofRadix radix digits).isNaN = false := by
  unfold ofRadix
  -- a sum without signs: the numbers so far have none, so it is never of two infinities
  have hstep : ∀ acc : Float, acc.isNaN = false → signBit acc = false →
      (digits.foldl (fun acc d => acc * Float.ofNat radix + Float.ofNat d) acc).isNaN = false := by
    induction digits with
    | nil => exact fun _ h _ => h
    | cons d digits ih =>
      intro acc hacc hsign
      have hdigit : signBit (Float.ofNat d) = false := signBit_ofScientific _ _ _
      have hproduct := signBit_mul hsign (signBit_ofScientific radix false 0)
      exact ih _ (isNaN_add (isNaN_mul hacc hradix) (isNaN_ofScientific _ _ _) hproduct hdigit)
        (signBit_add hproduct hdigit)
  exact hstep 0.0 (by decide) (by decide)

end Formula.Number

namespace Formula

/-! ### Signs -/

/-- A sign, or nothing. -/
def IsSign (cs : List Char) : Prop := cs ∈ [[], ['+'], ['-']]

theorem isSign_cases {cs : List Char} (h : IsSign cs) : cs = [] ∨ cs = ['+'] ∨ cs = ['-'] := by
  simpa [IsSign] using h

/-- A text that starts with no sign. -/
def SignFree (cs : List Char) : Prop := ∀ c ∈ cs.head?, c ≠ '+' ∧ c ≠ '-'

namespace Number

theorem eq_sign_append (cs : List Char) : ∃ sign, IsSign sign ∧ cs = sign ++ (splitSign cs).2 := by
  unfold splitSign
  split
  · exact ⟨['-'], by simp [IsSign], rfl⟩
  · exact ⟨['+'], by simp [IsSign], rfl⟩
  · exact ⟨[], by simp [IsSign], rfl⟩

theorem splitSign_append {sign rest : List Char} (hsign : IsSign sign) (hrest : SignFree rest) :
    splitSign (sign ++ rest) = (decide (sign = ['-']), rest) := by
  rcases isSign_cases hsign with rfl | rfl | rfl
  · unfold splitSign
    split
    · next heq => exact absurd rfl (hrest '-' (by simp [show rest = _ from heq])).2
    · next heq => exact absurd rfl (hrest '+' (by simp [show rest = _ from heq])).1
    · rfl
  · rfl
  · rfl

end Number

theorem AreDigits.signFree_append {ds : List Char} (h : AreDigits ds) (rest : List Char) :
    SignFree (ds ++ rest) := by
  obtain ⟨c, ds, rfl⟩ := List.exists_cons_of_ne_nil h.1
  rintro _ ⟨⟩
  have hc := h.2 c List.mem_cons_self
  constructor <;> rintro rfl <;> exact absurd hc (by decide)

/-! ### Decimals -/

namespace Numeral

open Lexer

variable {cs : List Char}

theorem readExponent?_eq (cs : List Char) :
    readExponent? cs = if (Number.splitSign cs).2.isEmpty || !(Number.splitSign cs).2.all isDecimalDigit
      then none else some (if (Number.splitSign cs).1 then -(digitsValue (Number.splitSign cs).2 : ℤ)
        else digitsValue (Number.splitSign cs).2) := rfl

theorem readExponent?_isSome_iff :
    (readExponent? cs).isSome ↔ ∃ sign ds, IsSign sign ∧ AreDigits ds ∧ cs = sign ++ ds := by
  rw [readExponent?_eq]
  constructor
  · intro h
    obtain ⟨sign, hsign, hcs⟩ := Number.eq_sign_append cs
    split at h
    · cases h
    · next hdigits =>
      simp only [Bool.or_eq_true, List.isEmpty_iff, Bool.not_eq_true', not_or, Bool.not_eq_false,
        List.all_eq_true] at hdigits
      exact ⟨sign, _, hsign, hdigits, hcs⟩
  · rintro ⟨sign, ds, hsign, hds, rfl⟩
    have hfree := hds.signFree_append []
    rw [List.append_nil] at hfree
    rw [Number.splitSign_append hsign hfree]
    simp [hds.1, List.all_eq_true.mpr hds.2]

/-- The digits before and behind the first point of a text make up a mantissa if there are any. -/
theorem mantissa_iff :
    Mantissa cs ↔
      (cs.takeWhile (· != '.') ≠ [] ∨ (cs.dropWhile (· != '.')).drop 1 ≠ []) ∧
        (∀ c ∈ cs.takeWhile (· != '.'), isDecimalDigit c = true) ∧
        ∀ c ∈ (cs.dropWhile (· != '.')).drop 1, isDecimalDigit c = true := by
  constructor
  · intro h
    have hpoint : ∀ ds : List Char, (∀ c ∈ ds, isDecimalDigit c = true) →
        ∀ c ∈ ds, (c != '.') = true := fun ds hds c hc =>
      bne_iff_ne.mpr (digit_cases (hds c hc)).2.1
    cases h with
    | whole hds =>
      have hsplit := @takeWhile_append _ _ [] (hpoint cs hds.2) (by simp)
      rw [List.append_nil] at hsplit
      rw [hsplit.1, hsplit.2]
      exact ⟨.inl hds.1, hds.2, by simp⟩
    | @pointed ds fs hne hds hfs =>
      have hsplit := @takeWhile_append _ _ ('.' :: fs) (hpoint ds hds) (by simp)
      rw [hsplit.1, hsplit.2]
      exact ⟨hne, hds, hfs⟩
  · rintro ⟨hne, hwhole, hfraction⟩
    have hcs : cs.takeWhile (· != '.') ++ cs.dropWhile (· != '.') = cs :=
      List.takeWhile_append_dropWhile
    cases hrest : cs.dropWhile (· != '.') with
    | nil =>
      rw [hrest, List.append_nil] at hcs
      rw [hrest] at hne
      rw [← hcs]
      exact .whole ⟨by simpa using hne, hwhole⟩
    | cons c fs =>
      have hc : (c != '.') = false := by
        have := List.head_dropWhile_not (· != '.') (l := cs) (by rw [hrest]; simp)
        simpa [hrest] using this
      obtain rfl : c = '.' := by simpa using hc
      rw [hrest] at hne hfraction hcs
      rw [← hcs]
      exact .pointed hne hwhole hfraction

/-- Reading splits a text at the first mark of a power. -/
theorem read?_isSome : (read? cs).isSome ↔
    Mantissa (cs.takeWhile (!isExponentMark ·)) ∧ Power (cs.dropWhile (!isExponentMark ·)) := by
  have hmark : ∀ c ∈ (cs.dropWhile (!isExponentMark ·)).head?, isExponentMark c = true :=
    fun c hc => by
      have hhead := List.head?_dropWhile_not (!isExponentMark ·) cs
      rw [Option.mem_def.mp hc] at hhead
      simpa using hhead
  rw [mantissa_iff]
  unfold read?
  dsimp only
  generalize cs.dropWhile (!isExponentMark ·) = power at hmark
  generalize (cs.takeWhile (!isExponentMark ·)).takeWhile (· != '.') = whole
  generalize ((cs.takeWhile (!isExponentMark ·)).dropWhile (· != '.')).drop 1 = fraction
  split
  · next h =>
    refine ⟨nofun, fun ⟨⟨hne, hwhole, hfraction⟩, _⟩ => ?_⟩
    simp only [List.all_eq_true.mpr hwhole, List.all_eq_true.mpr hfraction, Bool.not_true,
      Bool.or_false, Bool.and_eq_true, List.isEmpty_iff] at h
    exact absurd h (not_and_or.mpr hne)
  · next h =>
    simp only [Bool.or_eq_true, Bool.and_eq_true, List.isEmpty_iff, Bool.not_eq_true', not_or,
      Bool.not_eq_false, List.all_eq_true, not_and_or] at h
    rw [and_iff_right ⟨h.1.1, h.1.2, h.2⟩]
    cases power with
    | nil => exact ⟨fun _ => .none, fun _ => rfl⟩
    | cons e power =>
      rw [Option.isSome_map, readExponent?_isSome_iff]
      constructor
      · rintro ⟨sign, ds, hsign, hds, rfl⟩
        exact .some (hmark e rfl) hsign hds
      · intro h
        cases h with
        | some _ hsign hds => exact ⟨_, _, hsign, hds, rfl⟩

theorem unmarked {mantissa : List Char} (h : Mantissa mantissa) :
    ∀ c ∈ mantissa, isExponentMark c = false := by
  cases h with
  | whole hds => exact fun c hc => (digit_cases (hds.2 c hc)).1
  | pointed _ hds hfs =>
    intro c hc
    rcases List.mem_append.mp hc with hc | hc
    · exact (digit_cases (hds c hc)).1
    · rcases List.mem_cons.mp hc with rfl | hc
      · rfl
      · exact (digit_cases (hfs c hc)).1

/-- A text is a numeral if it is a mantissa and perhaps a power of ten. -/
theorem read?_isSome_iff :
    (read? cs).isSome ↔ ∃ mantissa power, Mantissa mantissa ∧ Power power ∧ cs = mantissa ++ power := by
  rw [read?_isSome]
  constructor
  · exact fun ⟨hmantissa, hpower⟩ =>
      ⟨_, _, hmantissa, hpower, List.takeWhile_append_dropWhile.symm⟩
  · rintro ⟨mantissa, power, hmantissa, hpower, rfl⟩
    have hsplit := @takeWhile_append (!isExponentMark ·) mantissa power
      (fun c hc => by rw [unmarked hmantissa c hc]; rfl) fun c hc => by
        cases hpower with
        | none => cases hc
        | some hmark _ _ =>
          cases hc
          rw [hmark]
          rfl
    rw [hsplit.1, hsplit.2]
    exact ⟨hmantissa, hpower⟩

/-- The characters of a decimal: digits, and a few others. -/
theorem mem_decimal {mantissa power : List Char} (hmantissa : Mantissa mantissa)
    (hpower : Power power) {c : Char} (hc : c ∈ mantissa ++ power) :
    isDecimalDigit c = true ∨ c ∈ ['.', 'e', 'E', '+', '-'] := by
  rcases List.mem_append.mp hc with hc | hc
  · cases hmantissa with
    | whole hds => exact .inl (hds.2 c hc)
    | pointed _ hds hfs =>
      rcases List.mem_append.mp hc with hc | hc
      · exact .inl (hds c hc)
      · rcases List.mem_cons.mp hc with rfl | hc
        · exact .inr (by decide)
        · exact .inl (hfs c hc)
  · cases hpower with
    | none => cases hc
    | @some e sign ds hmark hsign hds =>
      rcases List.mem_cons.mp hc with rfl | hc
      · have : c = 'e' ∨ c = 'E' := by simpa [isExponentMark] using hmark
        exact .inr (by rcases this with rfl | rfl <;> decide)
      · rcases List.mem_append.mp hc with hc | hc
        · refine .inr ?_
          rcases isSign_cases hsign with rfl | rfl | rfl
          · cases hc
          · cases List.mem_singleton.mp hc
            decide
          · cases List.mem_singleton.mp hc
            decide
        · exact .inl (hds.2 c hc)

theorem signFree_decimal {mantissa : List Char} (h : Mantissa mantissa) (power : List Char) :
    SignFree (mantissa ++ power) := by
  cases h with
  | whole hds => exact hds.signFree_append _
  | @pointed ds fs _ hds _ =>
    cases ds with
    | nil =>
      rintro _ ⟨⟩
      decide
    | cons d ds =>
      rw [List.append_assoc]
      exact AreDigits.signFree_append ⟨by simp, hds⟩ _

end Numeral

/-! ### The grammar of conversion -/

def binaryDigits : List Char := ['0', '1']

def octalDigits : List Char := ['0', '1', '2', '3', '4', '5', '6', '7']

def hexadecimalDigits : List Char :=
  octalDigits ++ ['8', '9', 'a', 'b', 'c', 'd', 'e', 'f', 'A', 'B', 'C', 'D', 'E', 'F']

/-- The marks of the radices, each with its digits. -/
def radices : List (Char × List Char) :=
  [('x', hexadecimalDigits), ('X', hexadecimalDigits), ('o', octalDigits), ('O', octalDigits),
    ('b', binaryDigits), ('B', binaryDigits)]

/-- The texts, without blanks at their ends, that convert to a number. -/
inductive Converts : List Char → Prop
  | nothing : Converts []
  | radix {mark : Char} {digits ds : List Char} : (mark, digits) ∈ radices → ds ≠ [] →
      (∀ c ∈ ds, c ∈ digits) → Converts ('0' :: mark :: ds)
  | infinity {sign : List Char} : IsSign sign → Converts (sign ++ "Infinity".toList)
  | decimal {sign mantissa power : List Char} : IsSign sign → Lexer.Mantissa mantissa →
      Lexer.Power power → Converts (sign ++ (mantissa ++ power))

/-- Digits are ASCII characters. -/
theorem digitValue?_eq_none {radix : ℕ} {c : Char} (hc : 128 ≤ c.toNat) :
    digitValue? radix c = none := by
  have habove : ∀ d : Char, d.toNat < 128 → ¬ c ≤ d := fun d hd hle =>
    absurd (UInt32.le_iff_toNat_le.mp (Char.le_def.mp hle)) (by
      change ¬ c.toNat ≤ d.toNat
      omega)
  unfold digitValue?
  dsimp only
  rw [if_neg fun h => habove _ (by decide) h.2, if_neg fun h => habove _ (by decide) h.2,
    if_neg fun h => habove _ (by decide) h.2]
  rfl

/-- A radix has certain digits if it has them among the ASCII characters. -/
theorem digitValue?_isSome_iff {radix : ℕ} {digits : List Char}
    (hdigits : digits.all (·.toNat < 128) = true)
    (hascii : ∀ n < 128, (digitValue? radix (.ofNat n)).isSome = decide (Char.ofNat n ∈ digits))
    (c : Char) : (digitValue? radix c).isSome ↔ c ∈ digits := by
  rcases Nat.lt_or_ge c.toNat 128 with hc | hc
  · have := hascii c.toNat hc
    rw [Char.ofNat_toNat] at this
    rw [this, decide_eq_true_eq]
  · rw [digitValue?_eq_none hc]
    refine ⟨nofun, fun h => ?_⟩
    have := of_decide_eq_true (List.all_eq_true.mp hdigits c h)
    omega

namespace Number

/-- What the mark of a radix stands for: the radix, a number other than zero, has these digits. -/
structure Marks (digits : List Char) (radix : ℕ) : Prop where
  mantissa : Rounding.HasMantissa (Float.ofNat radix).toModel.unpack
  isSome : ∀ c, (digitValue? radix c).isSome ↔ c ∈ digits

theorem marks_hexadecimal : Marks hexadecimalDigits 16 :=
  ⟨trivial, digitValue?_isSome_iff (by decide) (by decide +kernel)⟩

theorem marks_octal : Marks octalDigits 8 :=
  ⟨trivial, digitValue?_isSome_iff (by decide) (by decide +kernel)⟩

theorem marks_binary : Marks binaryDigits 2 :=
  ⟨trivial, digitValue?_isSome_iff (by decide) (by decide +kernel)⟩

/-- A text with a mark announces its radix. -/
theorem radixPrefix?_mark {mark : Char} {digits : List Char} (h : (mark, digits) ∈ radices)
    (ds : List Char) : ∃ radix, radixPrefix? ('0' :: mark :: ds) = some (radix, ds) ∧
      Marks digits radix := by
  simp only [radices, List.mem_cons, Prod.mk.injEq, List.not_mem_nil, or_false] at h
  rcases h with ⟨rfl, rfl⟩ | ⟨rfl, rfl⟩ | ⟨rfl, rfl⟩ | ⟨rfl, rfl⟩ | ⟨rfl, rfl⟩ | ⟨rfl, rfl⟩
  · exact ⟨16, rfl, marks_hexadecimal⟩
  · exact ⟨16, rfl, marks_hexadecimal⟩
  · exact ⟨8, rfl, marks_octal⟩
  · exact ⟨8, rfl, marks_octal⟩
  · exact ⟨2, rfl, marks_binary⟩
  · exact ⟨2, rfl, marks_binary⟩

/-- Only a text with a mark announces a radix. -/
theorem radixPrefix?_eq_some {cs ds : List Char} {radix : ℕ}
    (h : radixPrefix? cs = some (radix, ds)) :
    ∃ mark digits, (mark, digits) ∈ radices ∧ cs = '0' :: mark :: ds := by
  unfold radixPrefix? at h
  split at h <;> cases h
  · exact ⟨'x', hexadecimalDigits, by decide, rfl⟩
  · exact ⟨'X', hexadecimalDigits, by decide, rfl⟩
  · exact ⟨'o', octalDigits, by decide, rfl⟩
  · exact ⟨'O', octalDigits, by decide, rfl⟩
  · exact ⟨'b', binaryDigits, by decide, rfl⟩
  · exact ⟨'B', binaryDigits, by decide, rfl⟩

theorem radixDigits?_isSome_iff {digits : List Char} {radix : ℕ} (h : Marks digits radix)
    (ds : List Char) : (radixDigits? radix ds).isSome ↔ ∀ c ∈ ds, c ∈ digits := by
  induction ds with
  | nil => simp [radixDigits?]
  | cons c ds ih =>
    rw [List.forall_mem_cons, ← h.isSome, ← ih]
    unfold radixDigits?
    rw [List.mapM_cons]
    cases digitValue? radix c <;> cases List.mapM (digitValue? radix) ds <;> simp

/-- No mark of a radix stands in a decimal or in the name of infinity. -/
theorem mark_not_mem {mark : Char} {digits : List Char} (h : (mark, digits) ∈ radices) :
    isDecimalDigit mark = false ∧ mark ∉ ['.', 'e', 'E', '+', '-'] ∧ mark ∉ "Infinity".toList := by
  have hall : ∀ p ∈ radices, isDecimalDigit p.1 = false ∧ p.1 ∉ ['.', 'e', 'E', '+', '-'] ∧
      p.1 ∉ "Infinity".toList := by decide
  exact hall _ h

theorem sign_not_mem {sign : List Char} (hsign : IsSign sign) {c : Char} (h : c ∈ sign) :
    c ∈ ['.', 'e', 'E', '+', '-'] := by
  rcases isSign_cases hsign with rfl | rfl | rfl
  · cases h
  · cases List.mem_singleton.mp h
    decide
  · cases List.mem_singleton.mp h
    decide

/-- Behind the mark of a radix stand its digits, and at least one. -/
theorem converts_radix_iff {mark : Char} {digits ds : List Char} (h : (mark, digits) ∈ radices) :
    Converts ('0' :: mark :: ds) ↔ ds ≠ [] ∧ ∀ c ∈ ds, c ∈ digits := by
  refine ⟨fun hconverts => ?_, fun ⟨hne, hds⟩ => .radix h hne hds⟩
  obtain ⟨hdigit, hother, hname⟩ := mark_not_mem h
  have hmark : mark ∈ '0' :: mark :: ds := by simp
  generalize htext : '0' :: mark :: ds = text at hconverts hmark
  cases hconverts with
  | nothing => cases htext
  | @radix mark digits' ds h' hne hds =>
    cases htext
    have hfun : ∀ p ∈ radices, ∀ q ∈ radices, p.1 = q.1 → p.2 = q.2 := by decide
    obtain rfl : digits = digits' := hfun _ h _ h' rfl
    exact ⟨hne, hds⟩
  | infinity hsign =>
    rcases List.mem_append.mp hmark with hmem | hmem
    · exact (hother (sign_not_mem hsign hmem)).elim
    · exact (hname hmem).elim
  | decimal hsign hmantissa hpower =>
    rcases List.mem_append.mp hmark with hmem | hmem
    · exact (hother (sign_not_mem hsign hmem)).elim
    · rcases Numeral.mem_decimal hmantissa hpower hmem with hmem | hmem
      · exact absurd hmem (by simp [hdigit])
      · exact (hother hmem).elim

/-- Without the mark of a radix, a sign may stand before the name of infinity or a numeral. -/
theorem converts_signed_iff {cs : List Char} (hne : cs ≠ []) (h : radixPrefix? cs = none) :
    Converts cs ↔ (unsigned? (splitSign cs).2).isSome := by
  have hunsigned : ∀ rest, (unsigned? rest).isSome ↔
      rest = "Infinity".toList ∨ (Numeral.read? rest).isSome := fun rest => by
    unfold unsigned?
    split <;> simp_all
  rw [hunsigned]
  constructor
  · intro hconverts
    cases hconverts with
    | nothing => exact (hne rfl).elim
    | radix hmark _ _ =>
      obtain ⟨_, hradix, _⟩ := radixPrefix?_mark hmark _
      rw [hradix] at h
      cases h
    | infinity hsign =>
      rw [splitSign_append hsign (by simp [SignFree])]
      exact .inl rfl
    | decimal hsign hmantissa hpower =>
      rw [splitSign_append hsign (Numeral.signFree_decimal hmantissa _)]
      exact .inr (Numeral.read?_isSome_iff.mpr ⟨_, _, hmantissa, hpower, rfl⟩)
  · intro hread
    obtain ⟨sign, hsign, hcs⟩ := eq_sign_append cs
    rw [hcs]
    rcases hread with hname | hread
    · rw [hname]
      exact .infinity hsign
    · obtain ⟨mantissa, power, hmantissa, hpower, hrest⟩ := Numeral.read?_isSome_iff.mp hread
      rw [hrest]
      exact .decimal hsign hmantissa hpower

theorem isNaN_unsigned? {cs : List Char} {x : Float} (h : unsigned? cs = some x) :
    x.isNaN = false := by
  unfold unsigned? at h
  split at h
  · cases h
    decide
  · obtain ⟨n, -, rfl⟩ := Option.map_eq_some_iff.mp h
    exact isNaN_toFloat _

/-- A conversion of text gives a number other than NaN exactly for the texts of the grammar. -/
theorem parse_isNaN_iff (t : String) :
    (parse t).isNaN = false ↔ Converts (Text.trim t.toList) := by
  have hnan : ¬ nan.isNaN = false := by decide
  unfold parse parseChars
  generalize Text.trim t.toList = cs
  split
  · exact ⟨fun _ => .nothing, fun _ => by decide⟩
  · next hne =>
    split
    · next radix ds hradix =>
      obtain ⟨mark, digits, hmark, rfl⟩ := radixPrefix?_eq_some hradix
      obtain ⟨radix', hradix', hmarks⟩ := radixPrefix?_mark hmark ds
      obtain rfl : radix' = radix := by simpa [hradix] using hradix'.symm
      rw [converts_radix_iff hmark, ← radixDigits?_isSome_iff hmarks]
      split
      · next hds => simpa [List.isEmpty_iff.mp hds] using hnan
      · next hds =>
        rw [and_iff_right (by simpa using hds)]
        split
        · next values hvalues =>
          rw [hvalues]
          exact ⟨fun _ => rfl, fun _ => isNaN_ofRadix hmarks.mantissa values⟩
        · next hvalues => simpa [hvalues] using hnan
    · next hradix =>
      rw [converts_signed_iff hne hradix]
      split
      · next x hx =>
        rw [hx]
        refine ⟨fun _ => rfl, fun _ => ?_⟩
        split
        · exact isNaN_neg (isNaN_unsigned? hx)
        · exact isNaN_unsigned? hx
      · next hx => simpa [hx] using hnan

end Number

end Formula
