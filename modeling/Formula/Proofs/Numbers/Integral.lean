import Formula.Proofs.Numbers.Denoted

/-!
# Integer parts

A finite double stands for a rational number. Its parts give the integer part of this number, toward
zero, and say whether there is a fraction; conversion to 32 bits is the integer part modulo
`2 ^ 32`, and what fits is converted to itself. The numbers below `2 ^ 53` in magnitude are those
with an exponent that is not positive.
-/

namespace Formula

/-- The integer part of a rational number, toward zero. -/
def truncate (q : ℚ) : ℤ := if 0 ≤ q then ⌊q⌋ else ⌈q⌉

@[simp] theorem truncate_intCast (i : ℤ) : truncate i = i := by
  unfold truncate
  rw [Int.floor_intCast, Int.ceil_intCast, ite_self]

theorem truncate_signed (negative : Bool) {q : ℚ} (hq : 0 ≤ q) :
    truncate (signed negative q) = if negative then -⌊q⌋ else ⌊q⌋ := by
  cases negative with
  | false => exact if_pos hq
  | true =>
    show truncate (-q) = -⌊q⌋
    unfold truncate
    split
    · obtain rfl : q = 0 := by linarith
      simp
    · exact Int.ceil_neg

/-! ### Exact forms -/

namespace Exact

variable {e : Exact}

/-- The number without its sign. -/
def magnitude (e : Exact) : ℚ := e.mantissa * 2 ^ e.exponent

/-- The number. -/
def value (e : Exact) : ℚ := signed e.negative e.magnitude

theorem magnitude_nonneg (e : Exact) : 0 ≤ e.magnitude := by
  unfold magnitude
  positivity

theorem magnitude_of_nonneg (h : 0 ≤ e.exponent) :
    e.magnitude = (e.mantissa * 2 ^ e.exponent.toNat : ℕ) := by
  unfold magnitude
  conv_lhs => rw [← Int.toNat_of_nonneg h, zpow_natCast]
  push_cast
  rfl

theorem magnitude_of_neg (h : e.exponent < 0) :
    e.magnitude = (e.mantissa : ℚ) / (2 ^ (-e.exponent).toNat : ℕ) := by
  have hexponent : e.exponent = -((-e.exponent).toNat : ℤ) := by omega
  unfold magnitude
  conv_lhs => rw [hexponent, zpow_neg, zpow_natCast, ← div_eq_mul_inv]
  push_cast
  rfl

theorem whole_eq (e : Exact) : e.whole = ⌊e.magnitude⌋₊ := by
  unfold whole
  split
  · next h => rw [magnitude_of_nonneg h, Nat.floor_natCast, Nat.pow_eq]
  · next h => rw [magnitude_of_neg (not_le.mp h), Nat.floor_div_eq_div, Nat.pow_eq]

theorem truncated_eq (e : Exact) : e.truncated = truncate e.value := by
  rw [value, truncate_signed _ e.magnitude_nonneg, truncated, whole_eq,
    Int.natCast_floor_eq_floor e.magnitude_nonneg]

theorem truncated_of_value {i : ℤ} (h : e.value = i) : e.truncated = i := by
  rw [truncated_eq, h, truncate_intCast]

theorem isWhole_iff_magnitude : e.isWhole = true ↔ e.magnitude = e.whole := by
  unfold isWhole whole
  rcases le_or_gt 0 e.exponent with h | h
  · simp [h, magnitude_of_nonneg h]
  · have hpos : 0 < 2 ^ (-e.exponent).toNat := Nat.pow_pos (by decide)
    rw [decide_eq_false (not_le.mpr h), if_neg (not_le.mpr h), Bool.false_or, beq_iff_eq,
      magnitude_of_neg h, Nat.pow_eq, ← Nat.dvd_iff_mod_eq_zero, div_eq_iff (by positivity)]
    constructor
    · intro hdvd
      exact_mod_cast (Nat.div_mul_cancel hdvd).symm
    · intro hmul
      exact ⟨_, (by exact_mod_cast hmul : e.mantissa = _).trans (Nat.mul_comm _ _)⟩

/-- There is no fraction exactly if the number is an integer, which is then its integer part. -/
theorem isWhole_iff : e.isWhole = true ↔ ∃ i : ℤ, e.value = i := by
  have hvalue : e.value = e.truncated ↔ e.magnitude = e.whole := by
    unfold value truncated signed
    cases e.negative <;> simp
  rw [isWhole_iff_magnitude, ← hvalue]
  refine ⟨fun h => ⟨_, h⟩, ?_⟩
  rintro ⟨i, hi⟩
  rw [truncated_of_value hi, hi]

/-- The parts of an integer. -/
theorem whole_of_value {i : ℤ} (h : e.value = i) : e.whole = i.natAbs := by
  rw [← truncated_of_value h, truncated]
  split <;> simp

end Exact

/-! ### Doubles -/

namespace Rounding

open Float.Model Float.Model.UnpackedFloat

variable {M : ℕ} {E : ℤ}

theorem abs_finite (negative : Bool) (hc : Canonical M E) (hE : E ≤ 971) :
    (finite negative M E hc.pos).abs = finite false M E hc.pos := by
  change Float.ofModel (.pack (finite negative M E hc.pos).toModel.unpack.abs) = _
  rw [finite_unpack negative hc hE]
  rfl

/-- Of two numbers without signs the one with the greater exponent is greater, since a mantissa has
all its bits or the least exponent. -/
theorem finite_lt_iff {M' : ℕ} {E' : ℤ} (hc : Canonical M E) (hE : E ≤ 971) (hc' : Canonical M' E')
    (hE' : E' ≤ 971) :
    finite false M E hc.pos < finite false M' E' hc'.pos ↔ E < E' ∨ E = E' ∧ M < M' := by
  have hlt : finite false M E hc.pos < finite false M' E' hc'.pos ↔
      (finite false M E hc.pos).toModel.unpack.lt (finite false M' E' hc'.pos).toModel.unpack =
        true :=
    ⟨fun h => of_decide_eq_true h, fun h => decide_eq_true h⟩
  rw [hlt, finite_unpack false hc hE, finite_unpack false hc' hE']
  change ((some ((compare E E').then (compare M M')) == some Ordering.lt) = true) ↔ _
  rw [beq_iff_eq, Option.some.injEq, Ordering.then_eq_lt, Int.compare_eq_lt, Int.compare_eq_eq,
    Nat.compare_eq_lt]

end Rounding

namespace Number

open Rounding Float.Model

variable {x : Float} {e : Exact} {q : ℚ}

/-- The number that a double stands for, none for NaN and the infinities. -/
def value? (x : Float) : Option ℚ := (decode? x).map Exact.value

theorem toInt32_eq (h : value? x = some q) : toInt32 x = (truncate q).bmod (2 ^ 32) := by
  obtain ⟨e, he, rfl⟩ := Option.map_eq_some_iff.mp h
  unfold toInt32
  rw [he, ← e.truncated_eq]
  rfl

/-- An integer that fits into 32 bits is the one that they stand for. -/
theorem bmod_of_fits {i : ℤ} (hlow : -2 ^ 31 ≤ i) (hhigh : i < 2 ^ 31) : i.bmod (2 ^ 32) = i :=
  Int.bmod_eq_of_le (by norm_num; omega) (by norm_num; omega)

theorem isInteger_iff : isInteger x = true ↔ ∃ i : ℤ, value? x = some (i : ℚ) := by
  unfold isInteger value?
  cases decode? x with
  | none => simp
  | some e => simpa using Exact.isWhole_iff

theorem not_isFinite (h : decode? x = none) : x.isFinite = false := by
  have htop : @UnpackedFloat.unpackExponent Format.binary64 x.toModel.toBits.toBitVec = -1#11 := by
    apply BitVec.eq_of_toNat_eq
    rw [unpackExponent_toNat]
    unfold decode? at h
    dsimp only at h
    split at h
    · assumption
    · split at h <;> cases h
  change (UnpackedFloat.unpack Format.binary64 x.toModel.toBits.toBitVec).isFinite = false
  unfold UnpackedFloat.unpack
  dsimp only
  rw [if_pos htop]
  split <;> rfl

theorem isFinite_eq (x : Float) : x.isFinite = (decode? x).isSome := by
  cases h : decode? x with
  | none => exact not_isFinite h
  | some e =>
    have hfinite := unpack_finite (Option.isSome_of_eq_some h)
    change x.toModel.unpack.isFinite = true
    cases hu : x.toModel.unpack <;> rw [hu] at hfinite <;> first | rfl | exact hfinite.elim

/-- Zero, unless it has a sign, is the only number equal to zero. -/
theorem eq_zero_of_beq (h : (x == 0.0) = true) (hsign : signBit x = false) : x = 0.0 := by
  cases hx : decode? x with
  | none =>
    have hinfinite : x.toModel.unpack.isFinite = false := not_isFinite hx
    have hzero : (0.0 : Float).toModel.unpack = .zero .positive := by rfl
    have hbeq : x.toModel.unpack.beq (0.0 : Float).toModel.unpack = true := h
    rw [hzero] at hbeq
    cases hu : x.toModel.unpack <;> rw [hu] at hbeq hinfinite
    case notANumber => cases hbeq
    case infinity s => cases s <;> cases hbeq
    all_goals cases hinfinite
  | some e =>
    obtain ⟨negative, M, E⟩ := e
    rcases Nat.eq_zero_or_pos M with rfl | hM
    · have hparts := eq_zero hx
      subst hparts
      cases negative
      · rfl
      · exact absurd hsign (by decide)
    · rw [beq_zero hx hM.ne'] at h
      cases h

/-- Below `2 ^ 53` are the numbers with an exponent that is not positive. -/
theorem abs_lt_iff (h : decode? x = some e) : x.abs < 9007199254740992.0 ↔ e.whole < 2 ^ 53 := by
  obtain ⟨negative, M, E⟩ := e
  rcases Nat.eq_zero_or_pos M with rfl | hM
  · have hwhole : Exact.whole ⟨negative, 0, E⟩ = 0 := by simp [Exact.whole]
    have hless : x.abs < 9007199254740992.0 := by
      rw [eq_zero h]
      cases negative <;> decide
    simp [hwhole, hless]
  · obtain ⟨hc, hE, rfl⟩ := eq_finite h hM.ne'
    have hbound : Canonical (2 ^ 52) 1 := ⟨by decide, by decide, by decide, .inl le_rfl⟩
    have hsafe : (9007199254740992.0 : Float) = finite false (2 ^ 52) 1 hbound.pos :=
      float_eq (by rw [finite_toBits false hbound (by decide)]; decide +kernel)
    have hupper := hc.upper
    have hnormal := hc.normal
    rw [abs_finite negative hc hE, hsafe, finite_lt_iff hc hE hbound (by decide), Exact.whole]
    dsimp only
    rcases lt_trichotomy E 0 with hneg | rfl | hpos
    · have hdiv : M / Nat.pow 2 (-E).toNat ≤ M := Nat.div_le_self _ _
      rw [if_neg (by omega)]
      omega
    · simp only [le_refl, if_true, Int.toNat_zero, Nat.pow_eq]
      omega
    · have hmul : M * 2 ^ 1 ≤ M * 2 ^ E.toNat :=
        Nat.mul_le_mul_left _ (Nat.pow_le_pow_right (by decide) (by omega))
      rw [if_pos hpos.le, Nat.pow_eq]
      omega

end Number

end Formula
