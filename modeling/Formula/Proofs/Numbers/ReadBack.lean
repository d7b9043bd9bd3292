import Formula.Number.Text
import Formula.Proofs.Numbers.Doubles

/-!
# Decimals that identify a double

The search for the fewest digits compares decimals with the ends of a double's rounding interval.
Such a decimal, converted to a double, gives that double again.
-/

namespace Formula

open Rounding Float.Model

namespace Decimal

/-- The number a decimal stands for. -/
def value (d : Decimal) : ℚ := d.coefficient * 10 ^ d.exponent

/-! ### Conversion -/

variable {d : Decimal} {M : ℕ} {E : ℤ}

theorem ten_zpow_pos (i : ℤ) : (0 : ℚ) < 10 ^ i := by positivity

/-- Three binary digits are less than one decimal digit. -/
theorem two_zpow_le_ten {a : ℤ} {n : ℕ} (h : a ≤ 3 * n) : (2 : ℚ) ^ a ≤ 10 ^ (n : ℤ) := by
  calc (2 : ℚ) ^ a ≤ 2 ^ (3 * n : ℤ) := zpow_le_zpow_right₀ (by norm_num) h
    _ = 8 ^ n := by
      rw [zpow_mul, zpow_natCast]
      norm_num
    _ ≤ 10 ^ n := pow_le_pow_left₀ (by norm_num) (by norm_num) n
    _ = 10 ^ (n : ℤ) := (zpow_natCast 10 n).symm

/-- A decimal with an exponent that is not negative is a product, and otherwise a quotient. -/
theorem value_natAbs (d : Decimal) :
    d.value = if d.exponent < 0 then (d.coefficient : ℚ) / 10 ^ d.exponent.natAbs
      else d.coefficient * 10 ^ d.exponent.natAbs := by
  unfold value
  split
  · next h =>
    have hexp : d.exponent = -(d.exponent.natAbs : ℤ) := by omega
    rw [hexp, zpow_neg, zpow_natCast, Int.natAbs_neg, Int.natAbs_natCast, div_eq_mul_inv]
  · next h =>
    have hexp : d.exponent = (d.exponent.natAbs : ℤ) := by omega
    rw [hexp, zpow_natCast, Int.natAbs_natCast]

/-- A decimal near a double is neither zero nor far outside the range of doubles. -/
theorem near_bounds (hc : Canonical M E) (hE : E ≤ 971) (hn : Near M E d.value) :
    d.coefficient ≠ 0 ∧ d.exponent ≤ 400 ∧
      -400 ≤ d.exponent + d.coefficient.log2 / 3 + 1 := by
  have hpE := two_zpow_pos E
  have hM : (1 : ℚ) ≤ M := by exact_mod_cast hc.pos
  have hhigh : d.value < 2 ^ (53 + 971 : ℤ) := by
    have hM53 : (M : ℚ) + 1 ≤ 2 ^ 53 := by exact_mod_cast hc.upper
    have : d.value / 2 ^ E < 2 ^ 53 := by linarith [hn.high]
    rw [div_lt_iff₀ hpE] at this
    have hscale : (2 : ℚ) ^ (53 + 971 : ℤ) = 2 ^ 53 * 2 ^ (971 : ℤ) := zpow_add₀ (by norm_num) _ _
    rw [hscale]
    exact this.trans_le (mul_le_mul_of_nonneg_left (zpow_le_zpow_right₀ (by norm_num) hE)
      (by norm_num))
  have hlow : 2 ^ (-1 + -1074 : ℤ) ≤ d.value := by
    have : (1 : ℚ) / 2 ≤ d.value / 2 ^ E := by linarith [hn.low]
    rw [le_div_iff₀ hpE] at this
    have hscale : (2 : ℚ) ^ (-1 + -1074 : ℤ) = 1 / 2 * 2 ^ (-1074 : ℤ) := by
      rw [zpow_add₀ (by norm_num), zpow_neg_one, one_div]
    rw [hscale]
    exact (mul_le_mul_of_nonneg_left (zpow_le_zpow_right₀ (by norm_num) hc.least)
      (by norm_num)).trans this
  have hpos : 0 < d.value := (two_zpow_pos _).trans_le hlow
  have hcoefficient : d.coefficient ≠ 0 := by
    intro h
    rw [value, h, Nat.cast_zero, zero_mul] at hpos
    exact hpos.false
  refine ⟨hcoefficient, ?_, ?_⟩
  · by_contra hlarge
    have hone : (1 : ℚ) ≤ d.coefficient := by exact_mod_cast Nat.one_le_iff_ne_zero.mpr hcoefficient
    have : (10 : ℚ) ^ (400 : ℤ) ≤ d.value := by
      calc (10 : ℚ) ^ (400 : ℤ) ≤ 10 ^ d.exponent := zpow_le_zpow_right₀ (by norm_num) (by omega)
        _ = 1 * 10 ^ d.exponent := (one_mul _).symm
        _ ≤ d.value := mul_le_mul_of_nonneg_right hone (ten_zpow_pos _).le
    have : (2 : ℚ) ^ (53 + 971 : ℤ) ≤ 10 ^ (400 : ℤ) := two_zpow_le_ten (n := 400) (by norm_num)
    linarith
  · by_contra hsmall
    -- three binary digits are less than one decimal digit
    have hdigits : (d.coefficient : ℚ) ≤ 10 ^ (d.coefficient.log2 / 3 + 1 : ℕ) := by
      have : d.coefficient < 2 ^ (3 * (d.coefficient.log2 / 3 + 1)) :=
        Nat.lt_log2_self.trans_le (Nat.pow_le_pow_right (by decide) (by omega))
      rw [Nat.pow_mul] at this
      have : d.coefficient ≤ 10 ^ (d.coefficient.log2 / 3 + 1) :=
        this.le.trans (Nat.pow_le_pow_left (by decide) _)
      exact_mod_cast this
    have : d.value ≤ 10 ^ (-400 : ℤ) := by
      calc d.value ≤ 10 ^ (d.coefficient.log2 / 3 + 1 : ℕ) * 10 ^ d.exponent :=
            mul_le_mul_of_nonneg_right hdigits (ten_zpow_pos _).le
        _ = 10 ^ (((d.coefficient.log2 / 3 + 1 : ℕ) : ℤ) + d.exponent) := by
            rw [zpow_add₀ (by norm_num), zpow_natCast]
        _ ≤ 10 ^ (-400 : ℤ) := zpow_le_zpow_right₀ (by norm_num) (by omega)
    have : (10 : ℚ) ^ (-400 : ℤ) < 2 ^ (-1 + -1074 : ℤ) := by
      calc (10 : ℚ) ^ (-400 : ℤ) = (10 ^ ((400 : ℕ) : ℤ))⁻¹ := zpow_neg _ _
        _ ≤ (2 ^ (1200 : ℤ))⁻¹ := inv_anti₀ (two_zpow_pos _) (two_zpow_le_ten (by norm_num))
        _ = 2 ^ (-1200 : ℤ) := (zpow_neg _ _).symm
        _ < 2 ^ (-1 + -1074 : ℤ) := zpow_lt_zpow_right₀ (by norm_num) (by norm_num)
    linarith

/-- The quotient or product of doubles that stand for a decimal exactly. -/
theorem ofScientific_exact (hc : Canonical M E) (hn : Near M E d.value)
    (hcoefficient : 0 < d.coefficient) (hfew : d.coefficient < 2 ^ 53)
    (hk : d.exponent.natAbs < Float.exactlyRepresentablePowersOfTen.size) :
    (if d.exponent < 0 then
        d.coefficient.toUInt64.toFloat / Float.exactlyRepresentablePowersOfTen[d.exponent.natAbs]
      else
        d.coefficient.toUInt64.toFloat * Float.exactlyRepresentablePowersOfTen[d.exponent.natAbs]) =
      finite false M E hc.pos := by
  obtain ⟨h₁, hunpack₁⟩ := toFloat_unpack hcoefficient hfew
  obtain ⟨P, Q, h₂, hunpack₂, hlog₂, hval₂⟩ := powerOfTen_unpack hk
  obtain ⟨hlog₁, hval₁⟩ := canonical_ofNat hcoefficient hfew
  have hval := value_natAbs d
  rw [hval₁, hval₂] at hval
  split at hval
  · next hneg =>
    rw [if_pos hneg]
    change Float.ofModel (.pack (UnpackedFloat.div Format.binary64 _ _)) = _
    rw [hunpack₁, hunpack₂, div_eq h₁ h₂ hc (hval ▸ hn)]
    rfl
  · next hneg =>
    rw [if_neg hneg]
    change Float.ofModel (.pack (UnpackedFloat.mul Format.binary64 _ _)) = _
    have hbits : 52 ≤ ((d.coefficient <<< (52 - d.coefficient.log2)) * P).log2 := by
      have : (d.coefficient <<< (52 - d.coefficient.log2)).log2 ≤
          ((d.coefficient <<< (52 - d.coefficient.log2)) * P).log2 :=
        (Nat.le_log2 (Nat.mul_pos h₁ h₂).ne').mpr
          ((Nat.log2_self_le h₁.ne').trans (Nat.le_mul_of_pos_right _ h₂))
      omega
    rw [hunpack₁, hunpack₂, mul_eq h₁ h₂ hbits hc (hval ▸ hn)]
    rfl

/-- A decimal near a double is converted to it. -/
theorem toFloat_eq (hc : Canonical M E) (hE : E ≤ 971) (hn : Near M E d.value) :
    d.toFloat = finite false M E hc.pos := by
  obtain ⟨hcoefficient, hlarge, hsmall⟩ := near_bounds hc hE hn
  unfold toFloat
  rw [if_neg hcoefficient, if_neg (by omega), if_neg (by omega)]
  unfold Float.ofScientific
  simp only [decide_eq_true_eq]
  split
  · next h => exact ofScientific_exact hc hn (Nat.pos_of_ne_zero hcoefficient) h.1 _
  · have hexp : (if d.exponent < 0 then Int.negOfNat d.exponent.natAbs
        else Int.ofNat d.exponent.natAbs) = d.exponent := by
      rw [Int.negOfNat_eq]
      split <;> simp only [Int.ofNat_eq_natCast] <;> omega
    rw [hexp]
    unfold finite Float.Model.ofScientific
    congr 2
    unfold UnpackedFloat.ofScientific
    have hval := value_natAbs d
    rw [dif_neg hcoefficient, if_neg (by norm_num; omega), if_neg (by norm_num; omega)]
    split
    · next hpos =>
      rw [if_neg (by omega)] at hval
      have hpower : 0 < 10 ^ d.exponent.toNat := Nat.pow_pos (by decide)
      have hshift : 0 < d.coefficient <<< Format.binary64.mantissaBits := by
        rw [Nat.shiftLeft_eq]
        positivity
      have hbits : 52 ≤ (d.coefficient <<< Format.binary64.mantissaBits *
          10 ^ d.exponent.toNat).log2 := by
        refine (Nat.le_log2 (Nat.mul_pos hshift hpower).ne').mpr ?_
        have hle : 2 ^ 52 ≤ d.coefficient <<< Format.binary64.mantissaBits := by
          rw [Nat.shiftLeft_eq]
          exact (Nat.pow_le_pow_right (by decide) (by decide)).trans
            (Nat.le_mul_of_pos_left _ (Nat.pos_of_ne_zero hcoefficient))
        exact hle.trans (Nat.le_mul_of_pos_right _ hpower)
      refine mul_eq hshift hpower hbits hc ?_
      have hnat : d.exponent.toNat = d.exponent.natAbs := by omega
      have hvalue : d.value = ((d.coefficient <<< Format.binary64.mantissaBits : ℕ) : ℚ) *
          2 ^ (-(Format.binary64.mantissaBits : ℤ)) * ((10 ^ d.exponent.toNat : ℕ) * 2 ^ (0 : ℤ)) := by
        rw [hval, hnat, Nat.shiftLeft_eq, zpow_neg, zpow_natCast, zpow_zero, mul_one]
        push_cast
        rw [mul_inv_cancel_right₀ (by positivity)]
      exact hvalue ▸ hn
    · next hneg =>
      rw [if_pos (by omega)] at hval
      refine div_eq _ _ hc ?_
      have hnat : (-d.exponent).toNat = d.exponent.natAbs := by omega
      have hvalue : d.value = (d.coefficient : ℚ) * 2 ^ (0 : ℤ) /
          ((10 ^ (-d.exponent).toNat : ℕ) * 2 ^ (0 : ℤ)) := by
        rw [hval, hnat, zpow_zero, mul_one, mul_one]
        push_cast
        rfl
      exact hvalue ▸ hn

end Decimal

/-! ### The search -/

namespace Exact

/-- The comparison without fractions is the comparison of the numbers. -/
theorem compareScaled_eq (c : ℕ) (i : ℤ) (n : ℕ) (j : ℤ) :
    compareScaled c i n j = compare ((c : ℚ) * 10 ^ i) (n * 2 ^ j) := by
  have hten : (10 : ℚ) ^ i.toNat = 10 ^ i * 10 ^ (-i).toNat := by
    rw [← zpow_natCast, ← zpow_natCast, ← zpow_add₀ (by norm_num)]
    congr 1
    omega
  have htwo : (2 : ℚ) ^ j.toNat = 2 ^ j * 2 ^ (-j).toNat := by
    rw [← zpow_natCast, ← zpow_natCast, ← zpow_add₀ (by norm_num)]
    congr 1
    omega
  have hscale : (0 : ℚ) < 10 ^ (-i).toNat * 2 ^ (-j).toNat := by positivity
  have hleft : ((c * Nat.pow 10 i.toNat * Nat.pow 2 (-j).toNat : ℕ) : ℚ) =
      c * 10 ^ i * (10 ^ (-i).toNat * 2 ^ (-j).toNat) := by
    push_cast [Nat.pow_eq]
    rw [hten]
    ring
  have hright : ((n * Nat.pow 2 j.toNat * Nat.pow 10 (-i).toNat : ℕ) : ℚ) =
      n * 2 ^ j * (10 ^ (-i).toNat * 2 ^ (-j).toNat) := by
    push_cast [Nat.pow_eq]
    rw [htwo]
    ring
  unfold compareScaled
  rcases lt_trichotomy ((c : ℚ) * 10 ^ i) (n * 2 ^ j) with h | h | h
  · rw [compare_lt_iff_lt.mpr h, compare_lt_iff_lt]
    have := mul_lt_mul_of_pos_right h hscale
    rw [← hleft, ← hright] at this
    exact_mod_cast this
  · rw [compare_eq_iff_eq.mpr h, compare_eq_iff_eq]
    rw [h, ← hright] at hleft
    exact_mod_cast hleft
  · rw [compare_gt_iff_gt.mpr h, compare_gt_iff_gt]
    have := mul_lt_mul_of_pos_right h hscale
    rw [← hleft, ← hright] at this
    exact_mod_cast this

variable {x : Exact} {d : Decimal}

/-- What reads back is near. -/
theorem near_of_readsBack (hpos : 0 < x.mantissa) (h : x.readsBack d = true) :
    Near x.mantissa x.exponent d.value := by
  have hpE := two_zpow_pos x.exponent
  have hquarter : ∀ n : ℕ, (n : ℚ) * 2 ^ (x.exponent - 2) = n / 4 * 2 ^ x.exponent := fun n => by
    rw [zpow_sub₀ (by norm_num)]
    norm_num
    ring
  have hM : 1 ≤ x.mantissa := hpos
  have hvalue : (d.coefficient : ℚ) * 10 ^ d.exponent = d.value / 2 ^ x.exponent * 2 ^ x.exponent :=
    (div_mul_cancel₀ _ hpE.ne').symm
  simp only [readsBack, compareScaled_eq, hquarter, hvalue, Bool.and_eq_true, Bool.or_eq_true,
    beq_iff_eq, compare_gt_iff_gt, compare_eq_iff_eq, compare_lt_iff_lt, mul_lt_mul_iff_left₀ hpE,
    mul_right_cancel_iff_of_pos hpE] at h
  have hhigh : ((4 * x.mantissa + 2 : ℕ) : ℚ) / 4 = x.mantissa + 1 / 2 := by
    push_cast
    ring
  have hwide : ((4 * x.mantissa - 2 : ℕ) : ℚ) / 4 = x.mantissa - 1 / 2 := by
    rw [Nat.cast_sub (by omega)]
    push_cast
    ring
  have hnear : ((4 * x.mantissa - 1 : ℕ) : ℚ) / 4 = x.mantissa - 1 / 4 := by
    rw [Nat.cast_sub (by omega)]
    push_cast
    ring
  have hnarrow : x.narrowBelow = true ↔ x.mantissa = 2 ^ 52 ∧ -1074 < x.exponent := by
    simp [narrowBelow]
  rw [hhigh] at h
  generalize hlow : (((if x.narrowBelow = true then 4 * x.mantissa - 1 else 4 * x.mantissa - 2) : ℕ) :
    ℚ) / 4 = low at h
  have hle : (x.mantissa : ℚ) - 1 / 2 ≤ low := by
    split at hlow <;> linarith
  obtain ⟨habove, hbelow⟩ := h
  constructor
  · rcases habove with h | ⟨_, h⟩ <;> linarith
  · intro hleast hexp
    rw [if_pos (hnarrow.mpr ⟨hleast, hexp⟩)] at hlow
    rcases habove with h | ⟨_, h⟩ <;> linarith
  · rcases hbelow with h | ⟨_, h⟩ <;> linarith
  · intro hodd
    have hne : x.mantissa % 2 ≠ 0 := by omega
    simp only [hne, false_and, or_false] at habove hbelow
    exact ⟨by linarith, hbelow⟩

/-! ### The shortest decimal -/

theorem strip_value (fuel : ℕ) (d : Decimal) : (strip fuel d).value = d.value := by
  induction fuel generalizing d with
  | zero => rfl
  | succ fuel ih =>
    unfold strip
    split
    · next h =>
      rw [ih]
      have hdigit : (d.coefficient : ℚ) = (d.coefficient / 10 : ℕ) * 10 := by
        exact_mod_cast (Nat.div_mul_cancel (Nat.dvd_of_mod_eq_zero h.1)).symm
      rw [Decimal.value, Decimal.value, hdigit, zpow_add_one₀ (by norm_num)]
      ring
    · rfl

theorem onGrid_readsBack {tie : Tie} {i : ℤ} (h : x.onGrid tie i = some d) :
    x.readsBack d = true := by
  unfold onGrid at h
  simp only at h
  split at h
  · cases h
  · cases h
    assumption
  · cases h
    assumption
  · split at h
    · cases h
      assumption
    · cases h
      assumption
    · split at h <;> cases h <;> assumption

theorem allDigits_value (x : Exact) : x.allDigits.value = x.mantissa * 2 ^ x.exponent := by
  unfold allDigits Decimal.value
  split
  · next h =>
    obtain ⟨n, hn⟩ := Int.eq_ofNat_of_zero_le h
    simp only [hn, Int.toNat_natCast, Nat.pow_eq, zpow_zero, mul_one, zpow_natCast]
    push_cast
    rfl
  · next h =>
    obtain ⟨n, hn⟩ : ∃ n : ℕ, x.exponent = -(n : ℤ) := ⟨(-x.exponent).toNat, by omega⟩
    have hten : (10 : ℚ) ^ n = 2 ^ n * 5 ^ n := by
      rw [← mul_pow]
      norm_num
    simp only [hn, neg_neg, Int.toNat_natCast, Nat.pow_eq, zpow_neg, zpow_natCast, hten]
    push_cast
    field_simp

/-- The fewest digits of a double's magnitude are near that double. -/
theorem near_shortest (tie : Tie) (hpos : 0 < x.mantissa) :
    Near x.mantissa x.exponent (x.shortest tie).value := by
  unfold shortest
  dsimp only
  split
  · next d h =>
    obtain ⟨n, _, hgrid⟩ := List.exists_of_findSome?_eq_some h
    rw [strip_value]
    exact near_of_readsBack hpos (onGrid_readsBack hgrid)
  · rw [strip_value]
    exact Near.exact (allDigits_value x)

end Exact

end Formula
