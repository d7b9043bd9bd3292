import Formula.Number.Exact
import Mathlib

/-!
# Rounding to a double

A double is a mantissa below `2 ^ 53` times a power of two. What is rounded comes as a mantissa
with two residual bits, the first bit that is cut off and whether anything follows it. The result
is the double to whose rounding interval the exact value belongs; products and quotients give
such a mantissa with enough bits.
-/

namespace Formula.Rounding

open Float.Model Float.Model.UnpackedFloat

/-! ### Residual bits -/

/-- What a mantissa and its residual bits say of a number: how it compares with the mantissa and
with half a unit more. -/
def Means (em : ExtendedMantissa) (v : ℚ) : Prop :=
  if em.roundBit then
    if em.stickyBit then em.mantissa + 1 / 2 < v ∧ v < em.mantissa + 1
    else v = em.mantissa + 1 / 2
  else
    if em.stickyBit then em.mantissa < v ∧ v < em.mantissa + 1 / 2
    else v = em.mantissa

variable {em : ExtendedMantissa} {v : ℚ}

theorem Means.bounds (h : Means em v) : (em.mantissa : ℚ) ≤ v ∧ v < em.mantissa + 1 := by
  obtain ⟨m, r, s⟩ := em
  cases r <;> cases s <;> simp only [Means, if_true, if_false, Bool.false_eq_true] at h <;>
    constructor <;> linarith

theorem Means.shiftRightOne (h : Means em v) : Means em.shiftRightOne (v / 2) := by
  obtain ⟨m, r, s⟩ := em
  have hm : ((m % 2 : ℕ) : ℚ) + 2 * ((m / 2 : ℕ) : ℚ) = m := by
    exact_mod_cast Nat.mod_add_div m 2
  have hparity : m % 2 = 0 ∨ m % 2 = 1 := Nat.mod_two_eq_zero_or_one m
  -- the bit that leaves the mantissa becomes the first residual bit
  rcases hparity with hp | hp <;> rw [hp] at hm <;> cases r <;> cases s <;>
    simp only [Means, ExtendedMantissa.shiftRightOne, hp, if_true, if_false, Bool.false_eq_true,
      bne_self_eq_false, Bool.or_false, Bool.or_true, Bool.or_self, Nat.one_ne_zero, ne_eq,
      not_false_eq_true, bne_iff_ne] at h ⊢ <;>
    push_cast at hm <;> first | linarith | constructor <;> linarith

theorem Means.shiftRight (h : Means em v) (n : ℕ) : Means (em >>> n) (v / 2 ^ n) := by
  change Means (n.repeat ExtendedMantissa.shiftRightOne em) _
  induction n with
  | zero => simpa [Nat.repeat] using h
  | succ n ih =>
    rw [Nat.repeat, pow_succ, ← div_div]
    exact ih.shiftRightOne

/-- Rounding gives the whole number from which the number differs by at most one half; an odd one
only if it differs by less. -/
theorem Means.rounded (h : Means em v) {M : ℕ} (low : (M : ℚ) - 1 / 2 ≤ v)
    (high : v ≤ M + 1 / 2) (ties : M % 2 = 1 → (M : ℚ) - 1 / 2 < v ∧ v < M + 1 / 2) :
    em.roundedMantissa = M := by
  obtain ⟨m, r, s⟩ := em
  have hlow : (m : ℚ) < M + 1 → m ≤ M := fun hlt => by
    have : m < M + 1 := by exact_mod_cast hlt
    omega
  have hhigh : (M : ℚ) < m + 1 → M ≤ m := fun hlt => by
    have : M < m + 1 := by exact_mod_cast hlt
    omega
  cases r <;> cases s <;>
    simp only [Means, if_true, if_false, Bool.false_eq_true] at h <;>
    simp only [ExtendedMantissa.roundedMantissa, ExtendedMantissa.accuracy,
      Accuracy.roundToNearestEven]
  · exact Nat.le_antisymm (hlow (by linarith)) (hhigh (by linarith))
  · exact Nat.le_antisymm (hlow (by linarith)) (hhigh (by linarith))
  · -- a tie goes to the even one of the two neighbours
    have hle : m ≤ M := hlow (by linarith)
    have hge : M ≤ m + 1 := by
      have : (M : ℚ) ≤ m + 1 := by linarith
      exact_mod_cast this
    rcases Nat.eq_or_lt_of_le hle with rfl | hlt
    · have : m % 2 ≠ 1 := fun hodd => by
        have := (ties hodd).2
        linarith
      omega
    · obtain rfl : M = m + 1 := by omega
      have : (m + 1) % 2 ≠ 1 := fun hodd => by
        have := (ties hodd).1
        push_cast at this
        linarith
      omega
  · have hlt : m < M := by
      have : (m : ℚ) < M := by linarith
      exact_mod_cast this
    have hge : M ≤ m + 1 := by
      have : (M : ℚ) < m + 1 + 1 := by linarith
      have : M < m + 1 + 1 := by exact_mod_cast this
      omega
    omega

/-! ### The format -/

/-- The exponent that a number of a mantissa and an exponent gets. -/
theorem target_eq (m : ℕ) (e : ℤ) :
    Format.binary64.targetExponent (totalExponent m e) = max ((m.log2 : ℤ) + e - 52) (-1074) := by
  simp only [Format.targetExponent, totalExponent, Format.mantissaBits, Format.minExponent]
  norm_num
  omega

/-- A mantissa and an exponent of a double other than zero. -/
structure Canonical (M : ℕ) (E : ℤ) : Prop where
  pos : 0 < M
  upper : M < 2 ^ 53
  least : -1074 ≤ E
  normal : 2 ^ 52 ≤ M ∨ E = -1074

theorem Canonical.target {M : ℕ} {E : ℤ} (h : Canonical M E) :
    Format.binary64.targetExponent (totalExponent M E) = E := by
  have hlog : M.log2 < 53 := (Nat.log2_lt h.pos.ne').mpr h.upper
  have hleast := h.least
  rw [target_eq]
  rcases h.normal with hn | rfl
  · have := (Nat.le_log2 h.pos.ne').mpr hn
    omega
  · omega

/-- The numbers that round to a double: at most half a unit from it, a quarter of a unit below the
least mantissa of a binade, the ends only if the mantissa is even. -/
structure Near (M : ℕ) (E : ℤ) (v : ℚ) : Prop where
  low : (M : ℚ) - 1 / 2 ≤ v / 2 ^ E
  narrow : M = 2 ^ 52 → -1074 < E → (M : ℚ) - 1 / 4 ≤ v / 2 ^ E
  high : v / 2 ^ E ≤ M + 1 / 2
  ties : M % 2 = 1 → (M : ℚ) - 1 / 2 < v / 2 ^ E ∧ v / 2 ^ E < M + 1 / 2

theorem mantissa_ofMantissaAndAccuracy (m : ℕ) (a : Accuracy) :
    (ExtendedMantissa.ofMantissaAndAccuracy m a).mantissa = m := by
  cases a with
  | exact => rfl
  | inexact o => cases o <;> rfl

/-- A number between two powers of two. -/
theorem lt_of_zpow_lt {a b : ℤ} (h : (2 : ℚ) ^ a < 2 ^ b) : a < b :=
  (zpow_lt_zpow_iff_right₀ (by norm_num)).mp h

theorem two_zpow_pos (e : ℤ) : (0 : ℚ) < 2 ^ e := by positivity

section

variable {m M : ℕ} {e E : ℤ} {a : Accuracy}

/-- The first shift brings a number near a double to the exponent of that double, or to the one
below when the number lies under the least mantissa of a binade. -/
theorem target_of_near
    (hv : Means (ExtendedMantissa.ofMantissaAndAccuracy m a) (v / 2 ^ e))
    (he : e ≤ Format.binary64.targetExponent (totalExponent m e)) (hc : Canonical M E)
    (hn : Near M E v) :
    Format.binary64.targetExponent (totalExponent m e) = E ∨
      (Format.binary64.targetExponent (totalExponent m e) = E - 1 ∧ M = 2 ^ 52 ∧ -1074 < E ∧
        v / 2 ^ E < M) := by
  obtain ⟨hlow, hhigh⟩ := hv.bounds
  rw [mantissa_ofMantissaAndAccuracy] at hlow hhigh
  rw [target_eq] at he ⊢
  have hpe := two_zpow_pos e
  have hpE := two_zpow_pos E
  have hbelow : v < 2 ^ ((m.log2 : ℤ) + 1 + e) := by
    have hm : (m : ℚ) + 1 ≤ 2 ^ (m.log2 + 1) := by exact_mod_cast Nat.lt_log2_self
    have : v / 2 ^ e < 2 ^ (m.log2 + 1) := by linarith
    rw [div_lt_iff₀ hpe] at this
    rw [zpow_add₀ (by norm_num)]
    exact_mod_cast this
  rcases lt_trichotomy (max ((m.log2 : ℤ) + e - 52) (-1074)) E with hlt | heq | hgt
  · -- `v` is below `2 ^ (E + 52)`, so `M` is the least mantissa of its binade
    right
    have hE : -1074 < E := by omega
    have hM : 2 ^ 52 ≤ M := hc.normal.resolve_right (by omega)
    have hscale : (2 : ℚ) ^ (E + 52) = 2 ^ 52 * 2 ^ E := by
      rw [zpow_add₀ (by norm_num), mul_comm]
      norm_num
    have hv52 : v / 2 ^ E < 2 ^ 52 := by
      rw [div_lt_iff₀ hpE, ← hscale]
      exact hbelow.trans_le (zpow_le_zpow_right₀ (by norm_num) (by omega))
    have hMeq : M = 2 ^ 52 := by
      have := hn.low
      have : (M : ℚ) < 2 ^ 52 + 1 := by linarith
      have : M < 2 ^ 52 + 1 := by exact_mod_cast this
      omega
    have hnarrow := hn.narrow hMeq hE
    rw [hMeq] at hnarrow
    have hv51 : (2 : ℚ) ^ (E + 51) < v := by
      have hscale : (2 : ℚ) ^ (E + 51) = 2 ^ 51 * 2 ^ E := by
        rw [zpow_add₀ (by norm_num), mul_comm]
        norm_num
      rw [hscale, ← lt_div_iff₀ hpE]
      push_cast at hnarrow
      linarith
    have := lt_of_zpow_lt (hv51.trans hbelow)
    refine ⟨by omega, hMeq, hE, ?_⟩
    rw [hMeq]
    exact_mod_cast hv52
  · exact .inl heq
  · -- `v` is at least `2 ^ (E + 53)`, above everything that rounds to a mantissa below `2 ^ 53`
    exfalso
    have hm : m ≠ 0 := by
      rintro rfl
      simp only [Nat.log2_zero] at he hgt
      have := hc.least
      omega
    have habove : (2 : ℚ) ^ ((m.log2 : ℤ) + e) ≤ v := by
      have hm : (2 : ℚ) ^ m.log2 ≤ m := by exact_mod_cast Nat.log2_self_le hm
      have : (2 : ℚ) ^ m.log2 ≤ v / 2 ^ e := hm.trans hlow
      rw [le_div_iff₀ hpe] at this
      rw [zpow_add₀ (by norm_num)]
      exact_mod_cast this
    have hscale : (2 : ℚ) ^ (E + 53) = 2 ^ 53 * 2 ^ E := by
      rw [zpow_add₀ (by norm_num), mul_comm]
      norm_num
    have hv53 : (2 : ℚ) ^ 53 ≤ v / 2 ^ E := by
      rw [le_div_iff₀ hpE, ← hscale]
      have hleast := hc.least
      exact (zpow_le_zpow_right₀ (by norm_num) (by omega)).trans habove
    have hM : (M : ℚ) + 1 ≤ 2 ^ 53 := by exact_mod_cast hc.upper
    have := hn.high
    linarith

theorem roundWithAccuracy_of_shifts {em₁ em₂ : ExtendedMantissa} {e₁ e₂ : ℤ} (s : Sign)
    (h₁ : shiftToTargetExponent Format.binary64 m e a = (em₁, e₁))
    (h₂ : shiftToTargetExponent Format.binary64 em₁.roundedMantissa e₁ .exact = (em₂, e₂))
    (hpos : 0 < em₂.mantissa) :
    roundWithAccuracy Format.binary64 s m e a = .finite s em₂.mantissa e₂ hpos := by
  unfold roundWithAccuracy
  simp only [h₁, h₂, hpos.ne', dite_false]

/-- A number near a double rounds to it. -/
theorem roundWithAccuracy_eq (s : Sign)
    (hv : Means (ExtendedMantissa.ofMantissaAndAccuracy m a) (v / 2 ^ e))
    (he : e ≤ Format.binary64.targetExponent (totalExponent m e)) (hc : Canonical M E)
    (hn : Near M E v) :
    roundWithAccuracy Format.binary64 s m e a = .finite s M E hc.pos := by
  have htarget := target_of_near hv he hc hn
  generalize hT : Format.binary64.targetExponent (totalExponent m e) = T at he htarget
  have hT' : e + ((T - e).toNat : ℤ) = T := by omega
  have hmeans : Means (ExtendedMantissa.ofMantissaAndAccuracy m a >>> (T - e).toNat)
      (v / 2 ^ T) := by
    have := hv.shiftRight (T - e).toNat
    rwa [div_div, ← zpow_natCast, ← zpow_add₀ (by norm_num), hT'] at this
  have hfirst : shiftToTargetExponent Format.binary64 m e a =
      (ExtendedMantissa.ofMantissaAndAccuracy m a >>> (T - e).toNat, T) := by
    rw [shiftToTargetExponent, hT, shiftToExponent, hT']
  generalize ExtendedMantissa.ofMantissaAndAccuracy m a >>> (T - e).toNat = em at hmeans hfirst
  rcases htarget with rfl | ⟨rfl, hM, hE, hless⟩
  · -- the mantissa is rounded at the exponent of the result
    have hround := hmeans.rounded hn.low hn.high hn.ties
    have hsecond : shiftToTargetExponent Format.binary64 em.roundedMantissa T .exact =
        (⟨M, false, false⟩, T) := by
      rw [hround, shiftToTargetExponent, hc.target, shiftToExponent, Int.sub_self, Prod.mk.injEq]
      exact ⟨rfl, Int.add_zero T⟩
    exact roundWithAccuracy_of_shifts s hfirst hsecond hc.pos
  · -- it is rounded with one bit more, up to `2 ^ 53`, and loses that bit again
    subst hM
    have hnarrow := hn.narrow rfl hE
    have hhalf : v / 2 ^ (E - 1) = 2 * (v / 2 ^ E) := by
      rw [zpow_sub_one₀ (by norm_num)]
      field_simp
    push_cast at hnarrow hless
    have hround : em.roundedMantissa = 2 ^ 53 := by
      refine hmeans.rounded ?_ ?_ fun hodd => absurd hodd (by decide) <;> rw [hhalf] <;>
        push_cast <;> linarith
    have htop : Format.binary64.targetExponent (totalExponent (2 ^ 53) (E - 1)) = E := by
      rw [target_eq, Nat.log2_two_pow]
      omega
    have hsecond : shiftToTargetExponent Format.binary64 em.roundedMantissa (E - 1) .exact =
        (⟨2 ^ 52, false, false⟩, E) := by
      have hone : (E - (E - 1)).toNat = 1 := by omega
      rw [hround, shiftToTargetExponent, htop, shiftToExponent, hone, Prod.mk.injEq]
      exact ⟨rfl, by omega⟩
    exact roundWithAccuracy_of_shifts s hfirst hsecond hc.pos

end

/-! ### Products and quotients -/

theorem means_exact (m : ℕ) : Means (ExtendedMantissa.ofMantissaAndAccuracy m .exact) m := by
  simp [Means, ExtendedMantissa.ofMantissaAndAccuracy]

/-- A product of two mantissas of which one has enough bits rounds to the double it is near. -/
theorem mul_eq {m₁ m₂ M : ℕ} {e₁ e₂ E : ℤ} (h₁ : 0 < m₁) (h₂ : 0 < m₂)
    (hbits : 52 ≤ (m₁ * m₂).log2) (hc : Canonical M E)
    (hn : Near M E (m₁ * 2 ^ e₁ * (m₂ * 2 ^ e₂))) :
    UnpackedFloat.mul Format.binary64 (.finite .positive m₁ e₁ h₁) (.finite .positive m₂ e₂ h₂) =
      .finite .positive M E hc.pos := by
  have hval : (m₁ * 2 ^ e₁ * (m₂ * 2 ^ e₂) : ℚ) / 2 ^ (e₁ + e₂) = ((m₁ * m₂ : ℕ) : ℚ) := by
    have := two_zpow_pos e₁
    have := two_zpow_pos e₂
    rw [zpow_add₀ (by norm_num)]
    field_simp
    push_cast
    rfl
  refine roundWithAccuracy_eq _ (hval ▸ means_exact _) ?_ hc hn
  rw [target_eq]
  omega

/-- The quotient of two whole numbers and what it leaves. -/
theorem means_quotient (a : ℕ) {b : ℕ} (hb : 0 < b) :
    Means (ExtendedMantissa.ofMantissaAndAccuracy (a / b) (accuracyOfFraction (a % b) b))
      ((a : ℚ) / b) := by
  have hbq : (0 : ℚ) < b := by exact_mod_cast hb
  have hval : (a : ℚ) / b = (a / b : ℕ) + ((a % b : ℕ) : ℚ) / b := by
    rw [div_eq_iff hbq.ne', add_mul, div_mul_cancel₀ _ hbq.ne']
    exact_mod_cast (Nat.div_add_mod' a b).symm
  have hless : ((a % b : ℕ) : ℚ) / b < 1 := by
    rw [div_lt_one hbq]
    exact_mod_cast Nat.mod_lt a hb
  rw [hval]
  generalize a / b = q
  generalize a % b = r at hless ⊢
  unfold accuracyOfFraction
  split
  · next h =>
    subst h
    simp [Means, ExtendedMantissa.ofMantissaAndAccuracy]
  · next h =>
    have hr : (0 : ℚ) < (r : ℚ) / b := by
      have : (0 : ℚ) < r := by exact_mod_cast Nat.pos_of_ne_zero h
      positivity
    rcases lt_trichotomy (2 * r) b with hlt | heq | hgt
    · rw [Nat.compare_eq_lt.mpr hlt]
      have : (r : ℚ) / b < 1 / 2 := by
        rw [div_lt_iff₀ hbq]
        have : (2 * r : ℚ) < b := by exact_mod_cast hlt
        linarith
      simp only [Means, ExtendedMantissa.ofMantissaAndAccuracy, if_true, if_false,
        Bool.false_eq_true]
      constructor <;> linarith
    · rw [Nat.compare_eq_eq.mpr heq]
      have : (r : ℚ) / b = 1 / 2 := by
        rw [div_eq_iff hbq.ne']
        have : (2 * r : ℚ) = b := by exact_mod_cast heq
        linarith
      simp [Means, ExtendedMantissa.ofMantissaAndAccuracy, this]
    · rw [Nat.compare_eq_gt.mpr hgt]
      have : 1 / 2 < (r : ℚ) / b := by
        rw [lt_div_iff₀ hbq]
        have : (b : ℚ) < 2 * r := by exact_mod_cast hgt
        linarith
      simp only [Means, ExtendedMantissa.ofMantissaAndAccuracy, if_true]
      constructor <;> linarith

theorem log2_shiftLeft {m : ℕ} (hm : 0 < m) (k : ℕ) : (m <<< k).log2 = m.log2 + k := by
  rw [Nat.shiftLeft_eq, Nat.log2_eq_iff (by positivity), Nat.pow_add, Nat.add_right_comm,
    Nat.pow_add]
  have hpow : 0 < 2 ^ k := by positivity
  exact ⟨Nat.mul_le_mul_right _ (Nat.log2_self_le hm.ne'),
    Nat.mul_lt_mul_of_pos_right Nat.lt_log2_self hpow⟩

/-- A quotient has enough bits where its operands say so: dividing lowers the number of bits by
those of the divisor, or by one less. -/
theorem log2_quotient {a b : ℕ} (hb : 0 < b) (hq : 0 < a / b) :
    a.log2 ≤ (a / b).log2 + 1 + b.log2 := by
  have ha : a ≠ 0 := by
    rintro rfl
    simp at hq
  have hupper : a < 2 ^ ((a / b).log2 + 1 + b.log2 + 1) := by
    calc a < (a / b + 1) * b := (Nat.div_lt_iff_lt_mul hb).mp (Nat.lt_succ_self _)
      _ ≤ 2 ^ ((a / b).log2 + 1) * b := Nat.mul_le_mul_right _ Nat.lt_log2_self
      _ < 2 ^ ((a / b).log2 + 1) * 2 ^ (b.log2 + 1) :=
        Nat.mul_lt_mul_of_pos_left Nat.lt_log2_self (by positivity)
      _ = 2 ^ ((a / b).log2 + 1 + b.log2 + 1) := (Nat.pow_add _ _ _).symm
  have := (Nat.log2_lt ha).mpr hupper
  omega

/-- A quotient rounds to the double it is near. -/
theorem div_eq {m₁ m₂ M : ℕ} {e₁ e₂ E : ℤ} (h₁ : 0 < m₁) (h₂ : 0 < m₂) (hc : Canonical M E)
    (hn : Near M E (m₁ * 2 ^ e₁ / (m₂ * 2 ^ e₂))) :
    UnpackedFloat.div Format.binary64 (.finite .positive m₁ e₁ h₁) (.finite .positive m₂ e₂ h₂) =
      .finite .positive M E hc.pos := by
  have htarget : Format.binary64.targetExponent (totalExponent m₁ e₁ - totalExponent m₂ e₂) =
      max ((m₁.log2 : ℤ) + e₁ - (m₂.log2 + e₂) - 53) (-1074) := by
    simp only [Format.targetExponent, totalExponent, Format.mantissaBits, Format.minExponent]
    norm_num
    omega
  change (let (m, e, acc) := divCore Format.binary64 m₁ e₁ m₂ e₂
    roundWithAccuracy Format.binary64 .positive m e acc) = _
  unfold divCore
  rw [htarget]
  generalize ht : min (e₁ - e₂) (max ((m₁.log2 : ℤ) + e₁ - (m₂.log2 + e₂) - 53) (-1074)) = t
  dsimp only
  have hk : e₁ - e₂ - t = ((e₁ - e₂ - t).toNat : ℤ) := by omega
  generalize (e₁ - e₂ - t).toNat = k at hk ⊢
  have hval : (m₁ * 2 ^ e₁ / (m₂ * 2 ^ e₂) : ℚ) / 2 ^ t = ((m₁ <<< k : ℕ) : ℚ) / m₂ := by
    obtain rfl : e₁ = k + t + e₂ := by omega
    have := two_zpow_pos e₂
    have := two_zpow_pos t
    have : (0 : ℚ) < m₂ := by exact_mod_cast h₂
    rw [zpow_add₀ (by norm_num), zpow_add₀ (by norm_num), Nat.shiftLeft_eq, zpow_natCast]
    field_simp
    push_cast
    rfl
  refine roundWithAccuracy_eq _ (hval ▸ means_quotient _ h₂) ?_ hc hn
  have hlog := log2_shiftLeft h₁ k
  rw [target_eq]
  rcases Nat.eq_zero_or_pos (m₁ <<< k / m₂) with hq | hq
  · -- the quotient has no bits left, so its exponent is the least one
    have hless : m₁ <<< k < m₂ := (Nat.div_eq_zero_iff_lt h₂).mp hq
    have hle : (m₁ <<< k).log2 ≤ m₂.log2 :=
      (Nat.le_log2 h₂.ne').mpr ((Nat.log2_self_le (by
        rw [Nat.shiftLeft_eq]
        positivity)).trans hless.le)
    rw [hq, Nat.log2_zero]
    omega
  · have := log2_quotient h₂ hq
    omega

end Formula.Rounding
