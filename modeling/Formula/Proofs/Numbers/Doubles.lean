import Formula.Proofs.Numbers.Rounding

/-!
# Doubles and their parts

A finite double other than zero is determined by the sign, the mantissa and the exponent that
`Number.decode?` reads from its bits, and packing and unpacking keep these. Natural numbers below
`2 ^ 53` and the powers of ten up to `10 ^ 22` are doubles themselves.
-/

namespace Formula.Rounding

open Float.Model Float.Model.UnpackedFloat

/-! ### Bits -/

/-- The sign of a number that is negative or not. -/
def signOf (negative : Bool) : Sign := if negative then .negative else .positive

/-- The double of a sign, a mantissa and an exponent. -/
def finite (negative : Bool) (M : ℕ) (E : ℤ) (h : 0 < M) : Float :=
  .ofModel (.pack (.finite (signOf negative) M E h))

theorem float_eq {x y : Float} (h : x.toBits.toNat = y.toBits.toNat) : x = y := by
  obtain ⟨⟨a, _⟩⟩ := x
  obtain ⟨⟨b, _⟩⟩ := y
  obtain rfl : a = b := UInt64.toNat_inj.mp h
  rfl

theorem packComponents_toNat (negative : Bool) (e : BitVec 11) (m : BitVec 52) :
    (packComponents Format.binary64 (signOf negative) e m).toNat =
      (if negative then 2 ^ 63 else 0) + e.toNat * 2 ^ 52 + m.toNat := by
  have he := e.isLt
  have hm := m.isLt
  have hhigh : ((signOf negative).toBitVec ++ e).toNat =
      (if negative then 2 ^ 11 else 0) + e.toNat := by
    rw [BitVec.toNat_append, ← Nat.shiftLeft_add_eq_or_of_lt he]
    cases negative <;> rfl
  change ((signOf negative).toBitVec ++ e ++ m).toNat = _
  rw [BitVec.toNat_append, hhigh, ← Nat.shiftLeft_add_eq_or_of_lt hm, Nat.shiftLeft_eq]
  split <;> omega

variable {M : ℕ} {E : ℤ} {negative : Bool}

/-- The exponent as it is stored, which is none of those for infinities. -/
theorem biased_eq (hleast : -1074 ≤ E) (hE : E ≤ 971) :
    (E + (Format.binary64.exponentBias : ℤ) +
      (Format.binary64.mantissaBitsWithoutImplicit : ℤ)).toNat = (E + 1075).toNat ∧
    ¬ 2 ^ Format.binary64.exponentBits ≤ (E + 1075).toNat + 1 := by
  simp only [Format.exponentBias]
  norm_num
  omega

/-- A mantissa has all its bits if its first one is set. -/
theorem Canonical.log2_iff (hc : Canonical M E) :
    M.log2 + 1 = Format.binary64.mantissaBits ↔ 2 ^ 52 ≤ M := by
  have hlog : M.log2 < 53 := (Nat.log2_lt hc.pos.ne').mpr hc.upper
  rw [← Nat.le_log2 hc.pos.ne']
  change M.log2 + 1 = 53 ↔ _
  omega

/-- The bits of a double: its sign, its exponent from the bias on, and its mantissa without the
first bit if that is set. -/
theorem finite_toBits (negative : Bool) (hc : Canonical M E) (hE : E ≤ 971) :
    (finite negative M E hc.pos).toBits.toNat = (if negative then 2 ^ 63 else 0) +
      if 2 ^ 52 ≤ M then (E + 1075).toNat * 2 ^ 52 + (M - 2 ^ 52) else M := by
  have hupper := hc.upper
  obtain ⟨hbias, hfits⟩ := biased_eq hc.least hE
  have hless : (E + 1075).toNat < 2 ^ 11 := by omega
  change (UnpackedFloat.pack Format.binary64 (.finite (signOf negative) M E hc.pos)).toNat = _
  unfold UnpackedFloat.pack
  simp only [hbias, hfits, if_false, hc.log2_iff]
  split
  · have hm : M % 2 ^ 52 = M - 2 ^ 52 := by omega
    rw [packComponents_toNat, BitVec.toNat_ofNat, BitVec.toNat_ofNat, Nat.mod_eq_of_lt hless,
      hm, Nat.add_assoc]
  · rw [packComponents_toNat, BitVec.toNat_ofNat, BitVec.toNat_ofNat]
    omega

/-- The parts of a double as they stand in its bits. -/
theorem decode?_eq (x : Float) :
    Number.decode? x =
      if x.toBits.toNat / 2 ^ 52 % 2 ^ 11 = 2047 then none
      else if x.toBits.toNat / 2 ^ 52 % 2 ^ 11 = 0 then
        some ⟨decide (2 ^ 63 ≤ x.toBits.toNat), x.toBits.toNat % 2 ^ 52, -1074⟩
      else some ⟨decide (2 ^ 63 ≤ x.toBits.toNat), 2 ^ 52 + x.toBits.toNat % 2 ^ 52,
        ((x.toBits.toNat / 2 ^ 52 % 2 ^ 11 : ℕ) : ℤ) - 1075⟩ := by
  have hbits : x.toBits.toNat < 2 ^ 64 := x.toBits.toNat_lt
  have hexp : ((x.toBits >>> 52) &&& 0x7FF).toNat = x.toBits.toNat / 2 ^ 52 % 2 ^ 11 := by
    rw [UInt64.toNat_and, UInt64.toNat_shiftRight, Nat.shiftRight_eq_div_pow]
    exact Nat.and_two_pow_sub_one_eq_mod _ 11
  have hfrac : (x.toBits &&& 0xFFFFFFFFFFFFF).toNat = x.toBits.toNat % 2 ^ 52 := by
    rw [UInt64.toNat_and]
    exact Nat.and_two_pow_sub_one_eq_mod _ 52
  have hsign : Number.signBit x = decide (2 ^ 63 ≤ x.toBits.toNat) := by
    rw [Number.signBit, Bool.beq_eq_decide_eq]
    refine decide_eq_decide.mpr ?_
    rw [← UInt64.toNat_inj, UInt64.toNat_shiftRight, Nat.shiftRight_eq_div_pow]
    change x.toBits.toNat / 2 ^ 63 = 1 ↔ _
    omega
  simp only [Number.decode?, hexp, hfrac, hsign]
  rfl

/-- The bits of a finite double, from its parts. -/
theorem decode?_bits {x : Float} (h : Number.decode? x = some ⟨negative, M, E⟩) :
    ∃ b, x.toBits.toNat = (if negative then 2 ^ 63 else 0) + b ∧ b / 2 ^ 52 < 2047 ∧
      if b < 2 ^ 52 then M = b ∧ E = -1074
      else M = 2 ^ 52 + b % 2 ^ 52 ∧ E = ((b / 2 ^ 52 : ℕ) : ℤ) - 1075 := by
  have hbits : x.toBits.toNat < 2 ^ 64 := x.toBits.toNat_lt
  rw [decode?_eq] at h
  generalize x.toBits.toNat = n at *
  have hsign : n = (if decide (2 ^ 63 ≤ n) = true then 2 ^ 63 else 0) + n % 2 ^ 63 := by
    simp only [decide_eq_true_eq]
    split <;> omega
  refine ⟨n % 2 ^ 63, ?_⟩
  split at h
  · cases h
  · split at h
    all_goals
      cases h
      refine ⟨hsign, by omega, ?_⟩
    · rw [if_pos (by omega)]
      omega
    · rw [if_neg (by omega)]
      omega

/-- A finite double other than zero is the double of its parts. -/
theorem eq_finite {x : Float} (h : Number.decode? x = some ⟨negative, M, E⟩) (hM : M ≠ 0) :
    ∃ hc : Canonical M E, E ≤ 971 ∧ x = finite negative M E hc.pos := by
  obtain ⟨b, hbits, hfinite, hparts⟩ := decode?_bits h
  have hpos := Nat.pos_of_ne_zero hM
  split at hparts
  · obtain ⟨rfl, rfl⟩ := hparts
    have hc : Canonical M (-1074) := ⟨hpos, by omega, by omega, .inr rfl⟩
    refine ⟨hc, by omega, float_eq ?_⟩
    rw [finite_toBits _ hc (by omega), if_neg (show ¬ 2 ^ 52 ≤ M by omega), hbits]
  · obtain ⟨hm, hexp⟩ := hparts
    have hc : Canonical M E := ⟨hpos, by omega, by omega, .inl (by omega)⟩
    refine ⟨hc, by omega, float_eq ?_⟩
    have hb : b = (E + 1075).toNat * 2 ^ 52 + (M - 2 ^ 52) := by omega
    rw [finite_toBits _ hc (by omega), if_pos (show 2 ^ 52 ≤ M by omega), hbits, ← hb]

/-- The only doubles without a mantissa are the two zeros. -/
theorem eq_zero {x : Float} (h : Number.decode? x = some ⟨negative, 0, E⟩) :
    x = if negative then -0.0 else 0.0 := by
  obtain ⟨b, hbits, -, hparts⟩ := decode?_bits h
  have hb : b = 0 := by
    split at hparts <;> omega
  refine float_eq ?_
  rw [hbits, hb]
  cases negative <;> decide

theorem decode?_finite (negative : Bool) (hc : Canonical M E) (hE : E ≤ 971) :
    Number.decode? (finite negative M E hc.pos) = some ⟨negative, M, E⟩ := by
  have hleast := hc.least
  have hupper := hc.upper
  have hbits := finite_toBits negative hc hE
  rw [decode?_eq]
  generalize (finite negative M E hc.pos).toBits.toNat = n at hbits
  generalize hlow : (if 2 ^ 52 ≤ M then (E + 1075).toNat * 2 ^ 52 + (M - 2 ^ 52) else M) = b
    at hbits
  have hless : b < 2 ^ 63 := by
    split at hlow <;> omega
  have hsign : decide (2 ^ 63 ≤ n) = negative := by
    cases negative
    · exact decide_eq_false (by rw [hbits, if_neg Bool.false_ne_true]; omega)
    · exact decide_eq_true (by rw [hbits, if_pos rfl]; omega)
  have hexp : n / 2 ^ 52 % 2 ^ 11 = b / 2 ^ 52 := by
    split at hbits <;> omega
  have hfrac : n % 2 ^ 52 = b % 2 ^ 52 := by
    split at hbits <;> omega
  rw [hsign, hexp, hfrac]
  split at hlow
  · rw [if_neg (by omega), if_neg (by omega)]
    have hm : 2 ^ 52 + b % 2 ^ 52 = M := by omega
    have he : ((b / 2 ^ 52 : ℕ) : ℤ) - 1075 = E := by omega
    rw [hm, he]
  · have hE' : E = -1074 := hc.normal.resolve_left ‹_›
    rw [if_neg (by omega), if_pos (by omega), hE', ← hlow, Nat.mod_eq_of_lt (by omega)]

/-! ### Exact doubles -/

theorem unpackSign_packComponents (e : BitVec 11) (m : BitVec 52) :
    Sign.ofBitVec (unpackSign (packComponents Format.binary64 (signOf negative) e m)) =
      signOf negative := by
  have hbits := packComponents_toNat negative e m
  have he := e.isLt
  have hm := m.isLt
  have hsign : unpackSign (packComponents Format.binary64 (signOf negative) e m) =
      BitVec.ofNat 1 (if negative then 1 else 0) := by
    apply BitVec.eq_of_toNat_eq
    change (packComponents Format.binary64 (signOf negative) e m).toNat >>> 63 %
      2 ^ (63 - 63 + 1) = _
    rw [hbits, Nat.shiftRight_eq_div_pow, BitVec.toNat_ofNat]
    cases negative <;> simp only [Bool.false_eq_true, if_true, if_false] <;> omega
  rw [hsign]
  cases negative <;> rfl

/-- A finite double keeps its sign, its mantissa and its exponent. -/
theorem finite_unpack (negative : Bool) (hc : Canonical M E) (hE : E ≤ 971) :
    (finite negative M E hc.pos).toModel.unpack = .finite (signOf negative) M E hc.pos := by
  have hleast := hc.least
  have hupper := hc.upper
  obtain ⟨hbias, hfits⟩ := biased_eq hleast hE
  have hunbiased : (Format.binary64.exponentBias : ℤ) = 1023 := rfl
  change UnpackedFloat.unpack Format.binary64
    (UnpackedFloat.pack Format.binary64 (.finite (signOf negative) M E hc.pos)) = _
  unfold UnpackedFloat.pack
  simp only [hbias, hfits, if_false, hc.log2_iff]
  split
  · next hn =>
    have hexp : (BitVec.ofNat 11 (E + 1075).toNat).toNat = (E + 1075).toNat := by
      rw [BitVec.toNat_ofNat]
      omega
    have htop : BitVec.ofNat 11 (E + 1075).toNat ≠ -1#11 := fun h => by
      have := congrArg BitVec.toNat h
      rw [hexp, BitVec.neg_one_eq_allOnes, BitVec.toNat_allOnes] at this
      omega
    have hzero : BitVec.ofNat 11 (E + 1075).toNat ≠ 0#11 := fun h => by
      have := congrArg BitVec.toNat h
      rw [hexp, BitVec.toNat_ofNat] at this
      omega
    have himplicit : (1#1 ++ BitVec.ofNat 52 M).toNat = M := by
      rw [BitVec.toNat_append, ← Nat.shiftLeft_add_eq_or_of_lt (BitVec.isLt _), Nat.shiftLeft_eq,
        BitVec.toNat_ofNat, BitVec.toNat_ofNat]
      omega
    unfold UnpackedFloat.unpack
    simp only [unpackExponent_packComponents, unpackMantissa_packComponents, htop, hzero,
      if_false, hexp, himplicit, unpackSign_packComponents, hunbiased]
    congr 1
    norm_num
    omega
  · next hn =>
    obtain rfl : E = -1074 := hc.normal.resolve_left hn
    have hmantissa : (BitVec.ofNat 52 M).toNat = M := by
      rw [BitVec.toNat_ofNat]
      omega
    have hzero : BitVec.ofNat 52 M ≠ 0#52 := fun h => by
      have := congrArg BitVec.toNat h
      rw [hmantissa] at this
      exact hc.pos.ne' this
    unfold UnpackedFloat.unpack
    simp only [unpackExponent_packComponents, unpackMantissa_packComponents, hzero, dite_false,
      hmantissa, unpackSign_packComponents, hunbiased]
    rfl

/-- A number that is a mantissa times a power of two is near to that double. -/
theorem Near.exact {v : ℚ} (h : v = M * 2 ^ E) : Near M E v := by
  have hunit : v / 2 ^ E = M := by
    rw [h, mul_div_cancel_right₀ _ (two_zpow_pos E).ne']
  constructor <;> intros <;> rw [hunit] <;> first | linarith | constructor <;> linarith

/-- The mantissa with all its bits, and its exponent, of a natural number below `2 ^ 53`. -/
theorem canonical_ofNat {n : ℕ} (hn : 0 < n) (hb : n < 2 ^ 53) :
    (n <<< (52 - n.log2)).log2 = 52 ∧
      (n : ℚ) = (n <<< (52 - n.log2) : ℕ) * 2 ^ ((n.log2 : ℤ) - 52) := by
  have hlog : n.log2 < 53 := (Nat.log2_lt hn.ne').mpr hb
  refine ⟨by rw [log2_shiftLeft hn]; omega, ?_⟩
  have hexp : ((n.log2 : ℤ) - 52) = -((52 - n.log2 : ℕ) : ℤ) := by omega
  rw [Nat.shiftLeft_eq, hexp, zpow_neg, zpow_natCast]
  have : (0 : ℚ) < 2 ^ (52 - n.log2) := by positivity
  push_cast
  field_simp

theorem toFloat_unpack {n : ℕ} (hn : 0 < n) (hb : n < 2 ^ 53) :
    ∃ h, n.toUInt64.toFloat.toModel.unpack =
      .finite .positive (n <<< (52 - n.log2)) ((n.log2 : ℤ) - 52) h := by
  obtain ⟨hlog, hval⟩ := canonical_ofNat hn hb
  have hlog53 : n.log2 < 53 := (Nat.log2_lt hn.ne').mpr hb
  have hpos : 0 < n <<< (52 - n.log2) := by
    rw [Nat.shiftLeft_eq]
    positivity
  have hc : Canonical (n <<< (52 - n.log2)) ((n.log2 : ℤ) - 52) := by
    have := (Nat.log2_eq_iff hpos.ne').mp hlog
    exact ⟨hpos, this.2, by omega, .inl this.1⟩
  have hround : UnpackedFloat.ofNat Format.binary64 n =
      .finite .positive (n <<< (52 - n.log2)) ((n.log2 : ℤ) - 52) hpos := by
    unfold UnpackedFloat.ofNat UnpackedFloat.ofInt UnpackedFloat.normalize
    rw [Int.compare_eq_gt.mpr (by omega)]
    simp only [Int.toNat_natCast]
    unfold UnpackedFloat.round
    have htarget : Format.binary64.targetExponent (totalExponent n 0) = (n.log2 : ℤ) - 52 := by
      rw [target_eq]
      omega
    have hshift : (0 - ((n.log2 : ℤ) - 52)).toNat = 52 - n.log2 := by omega
    have hexp : (0 : ℤ) - ((52 - n.log2 : ℕ) : ℤ) = (n.log2 : ℤ) - 52 := by omega
    simp only [htarget, decreaseExponent, hshift, hexp]
    have hmeans : Means (ExtendedMantissa.ofMantissaAndAccuracy (n <<< (52 - n.log2)) .exact)
        ((n : ℚ) / 2 ^ ((n.log2 : ℤ) - 52)) := by
      rw [hval, mul_div_cancel_right₀ _ (two_zpow_pos _).ne']
      exact means_exact _
    exact roundWithAccuracy_eq _ hmeans (by rw [hc.target]) hc (Near.exact hval)
  have hword : n.toUInt64.toNat = n :=
     UInt64.toNat_ofNat_of_lt' (hb.trans (by decide))
  refine ⟨hpos, ?_⟩
  change (Float.Model.pack (UnpackedFloat.ofNat Format.binary64 n.toUInt64.toNat)).unpack = _
  rw [hword, hround]
  exact finite_unpack false hc (by omega)

/-- The bits of the powers of ten in the table, from their binary logarithms. -/
theorem powersOfTen_bits : ∀ k : Fin Float.exactlyRepresentablePowersOfTen.size,
    let L := (10 ^ k.val).log2
    let P := (10 ^ k.val <<< 52) >>> L
    P.log2 = 52 ∧ 10 ^ k.val * 2 ^ 52 = P * 2 ^ L ∧ L ≤ 100 ∧
      Float.exactlyRepresentablePowersOfTen[k].toBits.toNat =
        (L + 1023) * 2 ^ 52 + (P - 2 ^ 52) := by
  decide

/-- The table of powers of ten holds exactly these. -/
theorem powerOfTen_unpack {k : ℕ} (hk : k < Float.exactlyRepresentablePowersOfTen.size) :
    ∃ P Q h, Float.exactlyRepresentablePowersOfTen[k].toModel.unpack = .finite .positive P Q h ∧
      P.log2 = 52 ∧ (10 : ℚ) ^ k = P * 2 ^ Q := by
  obtain ⟨hlog, hval, hL, hbits⟩ := powersOfTen_bits ⟨k, hk⟩
  generalize (10 ^ k <<< 52) >>> (10 ^ k).log2 = P at hlog hval hbits
  generalize (10 ^ k).log2 = L at hval hbits hL
  have hP : 0 < P := Nat.pos_of_ne_zero fun h => by simp [h] at hlog
  have hmantissa := (Nat.log2_eq_iff hP.ne').mp hlog
  have hc : Canonical P ((L : ℤ) - 52) := ⟨hP, hmantissa.2, by clear hbits; omega, .inl hmantissa.1⟩
  have hexp : ((L : ℤ) - 52 + 1075).toNat = L + 1023 := by
    clear hbits
    omega
  have htable : Float.exactlyRepresentablePowersOfTen[k] =
      finite false P ((L : ℤ) - 52) hP := by
    refine float_eq ?_
    rw [finite_toBits _ hc (by clear hbits; omega), if_pos hmantissa.1, hexp, if_neg Bool.false_ne_true,
      Nat.zero_add]
    exact hbits
  refine ⟨P, L - 52, hP, ?_, hlog, ?_⟩
  · clear hbits
    rw [htable]
    exact finite_unpack false hc (by omega)
  · have hval : (10 : ℚ) ^ k * 2 ^ 52 = P * 2 ^ L := by exact_mod_cast hval
    rw [zpow_sub₀ (by norm_num), zpow_natCast, mul_div_assoc', eq_div_iff (by positivity)]
    exact hval

end Formula.Rounding
